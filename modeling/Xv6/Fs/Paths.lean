/-
# Path lookup follows the grammar of paths (`skipelem`, `namex`)

A path is a list of COMPONENTS, whatever the number of slashes between them; to look it up is to
start at the root or at the current directory and to follow the components one by one (`walk`).
`namex` does that with its own cursor into the string and with references: it holds one to the
directory it is in, takes one to the next, and drops the first.  It returns at five places, and at
each of them the references are those it found, and one more for an inode that it returns.
-/
import Xv6.Fs.Blocks

namespace Xv6.Fs

open Xv6.Bytes Xv6.Threads

/-! ## 1. The grammar -/

/-- The components of a path: its maximal non-empty parts without `/`, each cut to DIRSIZ bytes. -/
def components (path : List Byte) : List (List Byte) :=
  ((path.splitOnP (· = slash)).filter (· ≠ [])).map (List.take 14)

theorem components_nil : components [] = [] := rfl

theorem components_slash (path : List Byte) : components (slash :: path) = components path := by
  rw [components, List.splitOnP_cons_eq_if_modifyHead]
  rfl

theorem components_dropWhile (path : List Byte) :
    components (path.dropWhile (· = slash)) = components path := by
  induction path with
  | nil => rfl
  | cons c path ih =>
    rw [List.dropWhile_cons]
    split
    · rename_i hc
      rw [of_decide_eq_true hc, components_slash, ih]
    · rfl

/-- A part without `/`, and what follows it. -/
theorem components_append {elem : List Byte} (hne : elem ≠ []) (hno : ∀ c ∈ elem, c ≠ slash)
    (path : List Byte) (hpath : path = [] ∨ path.head? = some slash) :
    components (elem ++ path) = elem.take 14 :: components path := by
  have hp : ∀ c ∈ elem, decide (c = slash) = false := fun c hc => decide_eq_false (hno c hc)
  rcases hpath with rfl | hpath
  · rw [List.append_nil, components, List.splitOnP_eq_singleton hp]
    simp [hne, components_nil]
  · obtain ⟨rest, rfl⟩ : ∃ rest, path = slash :: rest := by
      cases path with
      | nil => cases hpath
      | cons c rest => exact ⟨rest, by cases hpath; rfl⟩
    rw [components_slash, components, List.splitOnP_append_cons_of_forall_mem hp _ (by simp)]
    simp [hne, components]

/-- A path that does not start with `/`: its first part, and what follows it. -/
theorem first_part {c : Byte} (cs : List Byte) (hc : c ≠ slash) :
    ∃ elem path, c :: cs = elem ++ path ∧ (c :: cs).takeWhile (· ≠ slash) = elem ∧
      (c :: cs).drop elem.length = path ∧ elem ≠ [] ∧ (∀ x ∈ elem, x ≠ slash) ∧
      (path = [] ∨ path.head? = some slash) := by
  have hsplit := (c :: cs).takeWhile_append_dropWhile (p := (· ≠ slash))
  refine ⟨_, (c :: cs).dropWhile (· ≠ slash), hsplit.symm, rfl, ?_, ?_, fun x hx => ?_, ?_⟩
  · conv_lhs => rw [← hsplit]
    exact List.drop_left' (by rw [hsplit])
  · rw [List.takeWhile_cons_of_pos (by simpa using hc)]
    exact List.cons_ne_nil _ _
  · exact of_decide_eq_true (List.all_eq_true.mp List.all_takeWhile x hx)
  · have hhead := List.head?_dropWhile_not (· ≠ slash) (c :: cs)
    cases hd : (c :: cs).dropWhile (· ≠ slash) with
    | nil => exact .inl rfl
    | cons x xs =>
      rw [hd] at hhead
      exact .inr (by simpa using hhead)

/-- Without the leading slashes, only the empty path has no components. -/
theorem components_eq_nil (path : List Byte) :
    path.dropWhile (· = slash) = [] ↔ components (path.dropWhile (· = slash)) = [] := by
  cases hd : path.dropWhile (· = slash) with
  | nil => exact ⟨fun _ => rfl, fun _ => rfl⟩
  | cons c cs =>
    have hc : c ≠ slash := by
      have := List.head?_dropWhile_not (· = slash) path
      rw [hd] at this
      simpa using this
    obtain ⟨elem, tail, hsplit, -, -, hne, hno, htail⟩ := first_part cs hc
    rw [hsplit, components_append hne hno tail htail, ← hsplit]
    exact ⟨fun h => absurd h (List.cons_ne_nil _ _), fun h => absurd h (List.cons_ne_nil _ _)⟩

/-- **`skipelem` takes the first component off**, and the path gets shorter. -/
theorem skipelem_cases (path : List Byte) : (skipelem path = none ∧ components path = []) ∨
    ∃ name rest, skipelem path = some (name, rest) ∧ components path = name :: components rest ∧
      rest.length < path.length ∧ (rest = [] ↔ components rest = []) := by
  rw [← components_dropWhile path, skipelem]
  have hle := (List.dropWhile_sublist (l := path) (· = slash)).length_le
  cases hd : path.dropWhile (· = slash) with
  | nil => exact .inl ⟨rfl, rfl⟩
  | cons c cs =>
    rw [hd] at hle
    have hc : c ≠ slash := by
      have := List.head?_dropWhile_not (· = slash) path
      rw [hd] at this
      simpa using this
    obtain ⟨elem, tail, hsplit, htake, hdrop, hne, hno, htail⟩ := first_part cs hc
    have hlen := congrArg List.length hsplit
    have hpos := List.length_pos_iff.mpr hne
    have htle := (List.dropWhile_sublist (l := tail) (· = slash)).length_le
    rw [List.length_append] at hlen
    simp only [htake, hdrop]
    refine .inr ⟨_, _, rfl, ?_, by omega, components_eq_nil tail⟩
    rw [hsplit, components_append hne hno tail htail, components_dropWhile]

/-! ## 2. Following a path -/

/-- The inode that directory `i` has under a name. -/
def State.entry (s : State) (i : Inum) (name : List Byte) : Option Inum :=
  if (s.dino i).type = .dir then (findName s.blk (s.dino i) name).map fun e => deInum e.2 else none

/-- From inode `i`, component by component. -/
def State.walk (s : State) (i : Inum) (names : List (List Byte)) : Option Inum :=
  names.foldlM s.entry i

/-- All components but the last, which must lead to a directory, and the last. -/
def State.walkParent (s : State) (i : Inum) (names : List (List Byte)) :
    Option (Inum × List Byte) := do
  let name ← names.getLast?
  let j ← s.walk i names.dropLast
  if (s.dino j).type = .dir then some (j, name) else none

/-- Where a path starts. -/
def State.origin (s : State) (p : Pid) (path : List Byte) : Inum :=
  if path.head? = some slash then 1 else s.cwd p

/-- A consistent tree, with nobody in the middle of a call: no inode is locked, the copies in the
cache are those on disk, every directory can be read, its entries name inodes that are allocated,
and an inode that nobody refers to has a link. -/
structure Consistent (s : State) : Prop where
  unlocked : ∀ i, (s.icache i).busy = false
  cached : ∀ i, 0 < (s.icache i).ref → (s.icache i).valid = true → (s.icache i).din = s.dino i
  dirs : ∀ i, (s.dino i).type = .dir → Full s.blk (s.dino i) ∧ 16 ∣ (s.dino i).size
  entries : ∀ i name j, s.entry i name = some j → (s.dino j).type ≠ .free
  linked : ∀ i, (s.dino i).type ≠ .free → (s.icache i).ref = 0 → (s.dino i).nlink ≠ 0
  root : (s.dino 1).type ≠ .free

/-- The state while a lookup has a reference to each inode of `l`, and `k` locked. -/
structure Holding (s t : State) (l : List Inum) (k : Option Inum) : Prop where
  dino : t.dino = s.dino
  blk : t.blk = s.blk
  cwd : t.cwd = s.cwd
  ref : ∀ i, (t.icache i).ref = (s.icache i).ref + l.count i
  busy : ∀ i, (t.icache i).busy = decide (k = some i)
  cached : ∀ i, 0 < (t.icache i).ref → (t.icache i).valid = true → (t.icache i).din = s.dino i
  loaded : ∀ i, k = some i → (t.icache i).valid = true
  inUse : t.inUse = s.inUse + (l.toFinset.filter fun i => (s.icache i).ref = 0).card

section

variable {sb : Super} {p : Pid} {s t : State} {i j : Inum} {l : List Inum} {k : Option Inum}

theorem Holding.refl (hs : Consistent s) : Holding s s [] none where
  dino := rfl
  blk := rfl
  cwd := rfl
  ref := fun _ => rfl
  busy := hs.unlocked
  cached := hs.cached
  loaded := fun _ h => by cases h
  inUse := by simp

/-- The entries of the cache in use, with one reference more. -/
theorem card_cons (l : List Inum) (j : Inum) :
    ((j :: l).toFinset.filter fun i => (s.icache i).ref = 0).card =
      (l.toFinset.filter fun i => (s.icache i).ref = 0).card +
        if (s.icache j).ref + l.count j = 0 then 1 else 0 := by
  rw [List.toFinset_cons, Finset.filter_insert]
  by_cases href : (s.icache j).ref = 0
  · rw [if_pos href]
    by_cases hmem : j ∈ l
    · have hpos := List.count_pos_iff.mpr hmem
      rw [Finset.insert_eq_of_mem (by simp [hmem, href]), if_neg (by omega), Nat.add_zero]
    · rw [Finset.card_insert_of_notMem (by simp [hmem]), if_pos (by
        rw [href, List.count_eq_zero_of_not_mem hmem])]
  · rw [if_neg href, if_neg (by omega), Nat.add_zero]

/-- One entry of the cache changes. -/
theorem Holding.set (h : Holding s t l k) (use : Nat) {n : Inode} {l' : List Inum}
    {k' : Option Inum} (href : n.ref = (s.icache j).ref + l'.count j) (hcount : ∀ i, i ≠ j → l'.count i = l.count i)
    (hbusy : n.busy = decide (k' = some j)) (hk : ∀ i, i ≠ j → (k' = some i ↔ k = some i))
    (hcached : 0 < n.ref → n.valid = true → n.din = s.dino j)
    (hloaded : k' = some j → n.valid = true)
    (huse : use = s.inUse + (l'.toFinset.filter fun i => (s.icache i).ref = 0).card) :
    Holding s { t.setInode j n with inUse := use } l' k' := by
  have hself : Function.update t.icache j n j = n := Function.update_self ..
  have hother : ∀ i, i ≠ j → Function.update t.icache j n i = t.icache i :=
    fun i hi => Function.update_of_ne hi ..
  refine ⟨h.dino, h.blk, h.cwd, fun i => ?_, fun i => ?_, fun i => ?_, fun i hi => ?_, huse⟩
  · simp only [State.setInode]
    rcases eq_or_ne i j with rfl | hne
    · rw [hself]
      exact href
    · rw [hother i hne, hcount i hne]
      exact h.ref i
  · simp only [State.setInode]
    rcases eq_or_ne i j with rfl | hne
    · rw [hself]
      exact hbusy
    · rw [hother i hne, h.busy i]
      exact decide_eq_decide.mpr (hk i hne).symm
  · simp only [State.setInode]
    rcases eq_or_ne i j with rfl | hne
    · rw [hself]
      exact hcached
    · rw [hother i hne]
      exact h.cached i
  · simp only [State.setInode]
    rcases eq_or_ne i j with rfl | hne
    · rw [hself]
      exact hloaded hi
    · rw [hother i hne]
      exact h.loaded i ((hk i hne).mp hi)

theorem count_cons_of_ne (hne : i ≠ j) : (j :: l).count i = l.count i :=
  List.count_cons_of_ne hne.symm

/-- **`iget`** adds a reference. -/
theorem ends_iget_holding (h : Holding s t l k) (hk : ∀ i, k = some i → i ∈ l)
    (huse : t.inUse < ninode) :
    (iget j).ends (fun _ u => Holding s u (j :: l) k) p t := by
  have hcard := card_cons (s := s) l j
  have href := h.ref j
  have hcount : (j :: l).count j = l.count j + 1 := List.count_cons_self
  simp only [iget, Code.ends_bind, Code.ends_gets, Code.ends_ite, Code.ends_panicIf,
    Code.ends_modify]
  refine ⟨fun hpos => ?_, fun hzero => ⟨by omega, ?_⟩⟩
  · refine h.set t.inUse ?_ (fun i hi => count_cons_of_ne hi) (h.busy j) (fun _ _ => Iff.rfl)
      (fun _ => h.cached j hpos) (h.loaded j) ?_
    · rw [hcount]
      show (t.icache j).ref + 1 = _
      omega
    · rw [hcard, if_neg (by omega)]
      exact h.inUse
  · have hnot : k ≠ some j := fun hkj => by
      have := List.count_pos_iff.mpr (hk j hkj)
      omega
    refine h.set _ ?_ (fun i hi => count_cons_of_ne hi) (decide_eq_false hnot).symm
      (fun _ _ => Iff.rfl) (fun _ hv => by cases hv) (fun hkj => absurd hkj hnot) ?_
    · rw [hcount]
      show 1 = _
      omega
    · rw [hcard, if_pos (by omega), h.inUse, Nat.add_assoc]

/-- **`idup`** does too. -/
theorem Holding.idup (h : Holding s t l none) (hpos : 0 < (t.icache i).ref) :
    Holding s (t.setInode i { t.icache i with ref := (t.icache i).ref + 1 }) (i :: l) none := by
  have hcard := card_cons (s := s) l i
  have href := h.ref i
  refine h.set t.inUse ?_ (fun j hj => count_cons_of_ne hj) (h.busy i) (fun _ _ => Iff.rfl)
    (fun _ => h.cached i hpos) (h.loaded i) ?_
  · rw [List.count_cons_self]
    show (t.icache i).ref + 1 = _
    omega
  · rw [hcard, if_neg (by omega)]
    exact h.inUse

/-- **`ilock`**: the inode on disk is in the cache. -/
theorem Holding.lock (h : Holding s t l none) (hi : i ∈ l) :
    Holding s (t.locked i) l (some i) ∧ ((t.locked i).icache i).din = s.dino i := by
  have href := h.ref i
  have hpos := List.count_pos_iff.mpr hi
  have hinode : t.inode i = s.dino i := by
    unfold State.inode
    split
    · rename_i hv
      exact h.cached i (by omega) hv
    · rw [h.dino]
  refine ⟨h.set t.inUse href (fun _ _ => rfl) (by simp) (fun j hj => ?_)
    (fun _ _ => hinode) (fun _ => rfl) h.inUse, ?_⟩
  · simp [hj.symm]
  · simp only [State.locked, State.setInode, Function.update_self]
    exact hinode

/-- **`iunlock`** -/
theorem ends_iunlock_holding (h : Holding s t l (some i)) (hi : i ∈ l) :
    (iunlock i).ends (fun _ u => Holding s u l none) p t := by
  have href := h.ref i
  have hpos := List.count_pos_iff.mpr hi
  refine ends_iunlock (by omega) (by rw [h.busy i]; simp) ?_
  refine h.set t.inUse href (fun _ _ => rfl) (by simp) (fun j hj => ?_)
    (fun hp hv => h.cached i hp hv) (fun hk => by cases hk) h.inUse
  simp [hj.symm]

/-- **`iput`** drops a reference.  It does not free the inode: it has a link, or it is still
referred to. -/
theorem ends_iput_holding (hs : Consistent s) (h : Holding s t (i :: l) none)
    (hi : (s.dino i).type ≠ .free) : (iput i).whole.ends (fun _ u => Holding s u l none) p t := by
  have href := h.ref i
  rw [List.count_cons_self] at href
  have hcard := card_cons (s := s) l i
  have huse := h.inUse
  have hnot : ¬((t.icache i).ref = 1 ∧ (t.icache i).valid = true ∧ (t.icache i).din.nlink = 0) := by
    rintro ⟨h1, hv, hn⟩
    rw [h.cached i (by omega) hv] at hn
    exact hs.linked i hi (by omega) hn
  rw [iput, Prog.ends_whole_bind, Prog.ends_whole_atomic]
  simp only [iputTest, Code.ends_bind, Code.ends_gets, if_neg hnot, Code.ends_pure]
  rw [Prog.ends_whole_bind, Prog.when, if_neg (by decide), Prog.whole_pure, Code.ends_pure,
    Prog.ends_whole_atomic]
  simp only [iputDrop, Code.ends_modify]
  refine h.set _ ?_ (fun j hj => (count_cons_of_ne hj).symm) (h.busy i) (fun _ _ => Iff.rfl)
    (fun hp hv => h.cached i (by omega) hv) (h.loaded i) ?_
  · show (t.icache i).ref - 1 = _
    omega
  · by_cases h1 : (t.icache i).ref = 1
    · rw [if_pos h1, huse, hcard, if_pos (by omega)]
      omega
    · rw [if_neg h1, huse, hcard, if_neg (by omega), Nat.add_zero]

/-! ## 3. One component -/

/-- `dirlookup` in a directory that can be read finds the first entry with the name. -/
theorem ends_dirlookup {name : List Byte} {Q : Option (Inum × Nat) → State → Prop}
    (hf : Full t.blk (t.icache i).din) (h16 : 16 ∣ (t.icache i).din.size)
    (hdir : (t.icache i).din.type = .dir)
    (hnone : findName t.blk (t.icache i).din name = none → Q none t)
    (hsome : ∀ off de, findName t.blk (t.icache i).din name = some (off, de) →
      (iget (deInum de)).ends (fun _ u => Q (some (deInum de, off)) u) p t) :
    (dirlookup sb i name).ends Q p t := by
  have hback : Backed t.blk (t.icache i).din (t.icache i).din.size :=
    ⟨hf.1, Nat.le_refl _, by rw [hdir]; decide, fun bn hbn => hf.2 bn (by have := hf.1; omega) hbn⟩
  have hoffs : ∀ off ∈ offsets 0 (t.icache i).din.size, off + 16 ≤ (t.icache i).din.size := by
    intro off hoff
    obtain ⟨k, hk, rfl⟩ := List.mem_map.mp hoff
    have hlt := List.mem_range'_1.mp hk
    unfold entries at hlt
    omega
  simp only [dirlookup, copy, Code.ends_bind, Code.ends_gets, Code.ends_panicIf]
  refine ⟨not_not.mpr hdir, ?_⟩
  cases hfind : (offsets 0 (t.icache i).din.size).find? fun off =>
      deInum (contents t.blk (t.icache i).din off 16) ≠ 0 &&
        nameEq name (deName (contents t.blk (t.icache i).din off 16)) with
  | none =>
    rw [← List.append_nil (offsets 0 _)]
    refine ends_scan_skip hback _ (fun off hoff => ⟨hoffs off hoff, ?_⟩) ?_
    · simpa using List.find?_eq_none.mp hfind off hoff
    · refine hnone ?_
      rw [findName, hfind]
      rfl
  | some off =>
    obtain ⟨htest, before, rest, hsplit, hbefore⟩ := List.find?_eq_some_iff_append.mp hfind
    rw [hsplit] at hoffs ⊢
    refine ends_scan_skip hback _ (fun o ho => ⟨hoffs o (List.mem_append_left _ ho), ?_⟩)
      (ends_scan_found hback (hoffs off (by simp)) htest ?_)
    · have hno := hbefore o ho
      rwa [Bool.not_eq_true'] at hno
    · simp only [Code.ends_bind, Code.ends_pure]
      refine hsome off _ ?_
      rw [findName, hfind]
      rfl

/-- What one round of `namex` leaves. -/
def LookedUp (s : State) (i : Inum) (name : List Byte) (last : Bool) (l : List Inum) (u : State) :
    Look → Prop
  | .fail => ((s.dino i).type ≠ .dir ∨ last = false ∧ s.entry i name = none) ∧ Holding s u l none
  | .stop => (s.dino i).type = .dir ∧ last = true ∧ Holding s u l none
  | .next j => last = false ∧ s.entry i name = some j ∧ Holding s u (j :: l) none

/-- **One round of `namex`.** -/
theorem ends_lookup (hs : Consistent s) (h : Holding s t l none) (hi : i ∈ l)
    (htype : (s.dino i).type ≠ .free) (huse : t.inUse < ninode) (name : List Byte) (last : Bool) :
    (lookup sb i name last).ends (fun r u => LookedUp s i name last l u r) p t := by
  have href := h.ref i
  have hpos := List.count_pos_iff.mpr hi
  obtain ⟨hlock, hdin⟩ := h.lock hi
  have hunlock : ∀ (r : Look) (u : State) (l' : List Inum), Holding s u l' (some i) → i ∈ l' →
      (∀ v, Holding s v l' none → LookedUp s i name last l v r) →
      (iunlock i).ends (fun _ v => LookedUp s i name last l v r) p u := by
    intro r u l' hu hi' hafter
    exact Code.ends_imp (ends_iunlock_holding hu hi') fun _ v hv => hafter v hv
  have hinode : (t.inode i).type ≠ .free := by
    have : t.inode i = s.dino i := by
      rw [← hdin]
      simp only [State.locked, State.setInode, Function.update_self]
    rwa [this]
  rw [lookup, Code.ends_bind]
  refine ends_ilock (by omega) (by rw [h.busy i]; simp) hinode ?_
  simp only [copy, Code.ends_bind, Code.ends_gets, Code.ends_ite, hdin]
  refine ⟨fun hdir => hunlock .fail _ _ hlock hi fun v hv => ⟨.inl hdir, hv⟩, fun hdir => ?_⟩
  have hdir := not_not.mp hdir
  refine ⟨fun hlast => hunlock .stop _ _ hlock hi fun v hv => ⟨hdir, hlast, hv⟩, fun hlast => ?_⟩
  have hlast : last = false := by simpa using hlast
  obtain ⟨hfull, h16⟩ := hs.dirs i hdir
  have hfind : ∀ name, findName (t.locked i).blk ((t.locked i).icache i).din name =
      findName s.blk (s.dino i) name := fun name => by rw [hdin, hlock.blk]
  refine ends_dirlookup (by rw [hdin, hlock.blk]; exact hfull) (by rwa [hdin]) (by rw [hdin, hdir])
    (fun hnone => ?_) fun off de hsome => ?_
  · refine (Code.ends_bind ..).mpr (hunlock .fail _ _ hlock hi fun v hv => ⟨.inr ⟨hlast, ?_⟩, hv⟩)
    rw [State.entry, if_pos hdir, ← hfind, hnone]
    rfl
  · refine Code.ends_imp (ends_iget_holding hlock (fun j hj => by cases hj; exact hi) huse)
      fun _ u hu => ?_
    refine (Code.ends_bind ..).mpr
      (hunlock (.next _) _ _ hu (List.mem_cons_of_mem _ hi) fun v hv => ⟨hlast, ?_, hv⟩)
    rw [State.entry, if_pos hdir, ← hfind, hsome]
    rfl

/-! ## 4. `namex` -/

theorem Holding.swap (h : Holding s t [i, j] none) : Holding s t [j, i] none where
  dino := h.dino
  blk := h.blk
  cwd := h.cwd
  ref := fun k => by
    rw [h.ref k, (List.Perm.swap j i []).count_eq]
  busy := h.busy
  cached := h.cached
  loaded := h.loaded
  inUse := by
    rw [h.inUse, List.toFinset_eq_of_perm _ _ (List.Perm.swap j i [])]

/-- With one reference at most one entry of the cache more is in use. -/
theorem Holding.inUse_le (h : Holding s t [i] none) : t.inUse ≤ s.inUse + 1 := by
  rw [h.inUse]
  have hle := Finset.card_filter_le [i].toFinset fun i => (s.icache i).ref = 0
  have hone : [i].toFinset.card = 1 := by simp
  omega

/-- What `namex` is to return from inode `i` on. -/
def State.target (s : State) (parent : Bool) (i : Inum) (names : List (List Byte)) :
    Option (Inum × List Byte) :=
  if parent then s.walkParent i names else (s.walk i names).map fun j => (j, [])

theorem walk_cons (s : State) (i : Inum) (name : List Byte) (names : List (List Byte)) :
    s.walk i (name :: names) = (s.entry i name).bind fun j => s.walk j names := rfl

theorem walkParent_single (s : State) (i : Inum) (name : List Byte) :
    s.walkParent i [name] = if (s.dino i).type = .dir then some (i, name) else none := rfl

theorem walkParent_cons (s : State) (i : Inum) (name : List Byte) {names : List (List Byte)}
    (hne : names ≠ []) : s.walkParent i (name :: names) =
      (s.entry i name).bind fun j => s.walkParent j names := by
  have hlast := List.getLast?_eq_some_getLast hne
  have hlast' : (name :: names).getLast? = some (names.getLast hne) := by
    rw [List.getLast?_cons, hlast]
    rfl
  have hinit : (name :: names).dropLast = name :: names.dropLast :=
    List.dropLast_cons_of_ne_nil hne
  simp only [State.walkParent, hlast, hlast', hinit, walk_cons, Option.bind_eq_bind,
    Option.bind_some, Option.bind_assoc]

/-- One component that is not the last one of a parent. -/
theorem target_cons {parent : Bool} {name : List Byte} {names : List (List Byte)}
    (h : parent = false ∨ names ≠ []) : s.target parent i (name :: names) =
      (s.entry i name).bind fun j => s.target parent j names := by
  cases parent with
  | false =>
    simp only [State.target, Bool.false_eq_true, if_false, walk_cons]
    cases s.entry i name <;> rfl
  | true =>
    simp only [State.target, if_true]
    exact walkParent_cons s i name (h.resolve_left (by decide))

/-- The references at a return. -/
def Returned (s u : State) (r : Option (Inum × List Byte)) : Prop :=
  Holding s u (r.toList.map Prod.fst) none

theorem ends_namexEnd (hs : Consistent s) (h : Holding s t [i] none)
    (htype : (s.dino i).type ≠ .free) (parent : Bool) :
    (namexLoop.namexEnd parent i).whole.ends
      (fun r u => r = s.target parent i [] ∧ Returned s u r) p t := by
  cases parent with
  | true =>
    simp only [namexLoop.namexEnd, if_true]
    rw [Prog.ends_whole_bind]
    exact Code.ends_imp (ends_iput_holding hs h htype) fun _ u hu => ⟨rfl, hu⟩
  | false => exact ⟨rfl, h⟩

/-- **The loop of `namex`**, from an inode that it has a reference to. -/
theorem ends_namexLoop (hs : Consistent s) (huse : s.inUse + 1 < ninode) (parent : Bool) :
    ∀ (rounds : Nat) (path : List Byte) (i : Inum) (t : State), path.length ≤ rounds →
      Holding s t [i] none → (s.dino i).type ≠ .free →
      (namexLoop sb parent rounds i path).whole.ends
        (fun r u => r = s.target parent i (components path) ∧ Returned s u r) p t
  | 0, path, i, t, hlen, h, htype => by
    obtain rfl : path = [] := List.eq_nil_of_length_eq_zero (by omega)
    rw [namexLoop]
    exact ends_namexEnd hs h htype parent
  | rounds + 1, path, i, t, hlen, h, htype => by
    rw [namexLoop]
    rcases skipelem_cases path with ⟨hskip, hcomp⟩ | ⟨name, rest, hskip, hcomp, hrest, hnil⟩
    · rw [hskip, hcomp]
      exact ends_namexEnd hs h htype parent
    · rw [hskip, hcomp]
      simp only []
      rw [Prog.ends_whole_bind, Prog.ends_whole_atomic]
      have hround : (lookup sb i name (parent && rest.isEmpty)).ends _ p t :=
        ends_lookup hs h List.mem_cons_self htype (by have := h.inUse_le; omega) name _
      -- a component that is not the last one of a parent
      have hcons : (parent && rest.isEmpty) = false → s.target parent i (name :: components rest) =
          (s.entry i name).bind fun j => s.target parent j (components rest) := by
        intro hlast
        refine target_cons ?_
        rw [Bool.and_eq_false_iff, List.isEmpty_eq_false_iff] at hlast
        exact hlast.imp_right fun hne => mt hnil.mpr hne
      refine Code.ends_imp hround fun r u hafter => ?_
      cases r with
      | fail =>
        obtain ⟨hwhy, hu⟩ := hafter
        rw [Prog.ends_whole_bind]
        refine Code.ends_imp (ends_iput_holding hs hu htype) fun _ v hv => ⟨?_, hv⟩
        cases hlast : parent && rest.isEmpty with
        | true =>
          rw [Bool.and_eq_true, List.isEmpty_iff] at hlast
          have hdir := hwhy.resolve_right fun hno => by
            rw [hlast.1, hlast.2] at hno
            exact Bool.noConfusion hno.1
          rw [hlast.1, hlast.2, components_nil]
          simp only [State.target, if_true, walkParent_single, if_neg hdir]
        | false =>
          have hentry : s.entry i name = none := by
            rcases hwhy with hdir | hno
            · exact if_neg hdir
            · exact hno.2
          rw [hcons hlast, hentry]
          rfl
      | stop =>
        obtain ⟨hdir, hlast, hu⟩ := hafter
        rw [Bool.and_eq_true, List.isEmpty_iff] at hlast
        refine ⟨?_, hu⟩
        rw [hlast.1, hlast.2, components_nil]
        simp only [State.target, if_true, walkParent_single, if_pos hdir]
      | next j =>
        obtain ⟨hlast, hentry, hu⟩ := hafter
        rw [Prog.ends_whole_bind]
        refine Code.ends_imp (ends_iput_holding hs hu.swap htype) fun _ v hv => ?_
        rw [hcons hlast, hentry]
        exact ends_namexLoop hs huse parent rounds rest j v (by omega) hv (hs.entries i name j hentry)

/-- **`namex`** -/
theorem ends_namex (hs : Consistent s) (huse : s.inUse + 1 < ninode)
    (hcwd : 0 < (s.icache (s.cwd p)).ref) (hdir : (s.dino (s.cwd p)).type ≠ .free)
    (path : List Byte) (parent : Bool) :
    (namex sb path parent).whole.ends
      (fun r u => r = s.target parent (s.origin p path) (components path) ∧ Returned s u r) p s := by
  have hrefl := Holding.refl hs
  rw [namex, Prog.ends_whole_bind, Prog.ends_whole_atomic, State.origin]
  by_cases hslash : path.head? = some slash
  · rw [if_pos hslash, if_pos hslash, Code.ends_bind]
    refine Code.ends_imp (ends_iget_holding hrefl (fun _ h => by cases h) (by omega))
      fun _ u hu => ?_
    exact ends_namexLoop hs huse parent _ path 1 u (Nat.le_refl _) hu hs.root
  · rw [if_neg hslash, if_neg hslash]
    simp only [idup, Code.ends_bind, Code.ends_self, Code.ends_gets, Code.ends_modify,
      Code.ends_pure]
    exact ends_namexLoop hs huse parent _ path _ _ (Nat.le_refl _) (hrefl.idup hcwd) hdir

/-- A walk fails exactly where some component is looked up in an inode that is not a directory, or
in a directory that does not have it. -/
theorem walk_eq_none_iff (s : State) (i : Inum) (names : List (List Byte)) :
    s.walk i names = none ↔ ∃ before name after j, names = before ++ name :: after ∧
      s.walk i before = some j ∧
      ((s.dino j).type ≠ .dir ∨ findName s.blk (s.dino j) name = none) := by
  have hentry : ∀ i name, s.entry i name = none ↔
      (s.dino i).type ≠ .dir ∨ findName s.blk (s.dino i) name = none := by
    intro i name
    unfold State.entry
    split
    · rename_i hdir
      simp [hdir]
    · rename_i hdir
      simp [hdir]
  induction names generalizing i with
  | nil =>
    refine ⟨fun h => (by cases h), ?_⟩
    rintro ⟨before, name, after, j, hsplit, -⟩
    simp at hsplit
  | cons name names ih =>
    rw [walk_cons]
    cases he : s.entry i name with
    | none =>
      exact ⟨fun _ => ⟨[], name, names, i, rfl, rfl, (hentry i name).mp he⟩, fun _ => rfl⟩
    | some j =>
      refine (ih j).trans ?_
      constructor
      · rintro ⟨before, name', after, k, rfl, hwalk, hwhy⟩
        exact ⟨name :: before, name', after, k, rfl, by rw [walk_cons, he]; exact hwalk, hwhy⟩
      · rintro ⟨before, name', after, k, hsplit, hwalk, hwhy⟩
        cases before with
        | nil =>
          cases hsplit
          cases hwalk
          rw [(hentry i name).mpr hwhy] at he
          cases he
        | cons name'' before =>
          cases hsplit
          rw [walk_cons, he] at hwalk
          exact ⟨before, name', after, k, rfl, hwalk, hwhy⟩

end

/-- The references and locks after a lookup that returned `r`. -/
def Balanced (s t : State) (r : Option Inum) : Prop :=
  (∀ i, (t.icache i).ref = (s.icache i).ref + if r = some i then 1 else 0) ∧
    ∀ i, (t.icache i).busy = false

theorem Returned.balanced {s u : State} {r : Option (Inum × List Byte)} (h : Returned s u r) :
    Balanced s u (r.map Prod.fst) := by
  refine ⟨fun i => ?_, fun i => by rw [h.busy i]; rfl⟩
  rw [h.ref i]
  cases r with
  | none => rfl
  | some e => simp [List.count_singleton]

/-- **Path lookup follows the grammar of paths.**  `namei` returns the inode that the components
lead to, and 0 exactly where one is looked up in something that is not a directory or does not have
it; `nameiparent` returns the directory that all components but the last lead to, and the last.  The
references are those before the call and one for the inode returned, and no inode is locked. -/
theorem path_lookup_follows_grammar {sb : Super} {p : Pid} {s : State} (hs : Consistent s)
    (huse : s.inUse + 1 < ninode) (hcwd : 0 < (s.icache (s.cwd p)).ref)
    (hdir : (s.dino (s.cwd p)).type ≠ .free) (path : List Byte) :
    (namei sb path).whole.ends (fun r t => r = s.walk (s.origin p path) (components path) ∧
        (r = none ↔ ∃ before name after j, components path = before ++ name :: after ∧
          s.walk (s.origin p path) before = some j ∧
          ((s.dino j).type ≠ .dir ∨ findName s.blk (s.dino j) name = none)) ∧
        Balanced s t r) p s ∧
      (nameiparent sb path).whole.ends (fun r t =>
        r = s.walkParent (s.origin p path) (components path) ∧
        (components path = [] → r = none) ∧ Balanced s t (r.map Prod.fst)) p s := by
  constructor
  · rw [namei, Prog.ends_whole_bind]
    refine Code.ends_imp (ends_namex hs huse hcwd hdir path false) fun r t ⟨hr, hret⟩ => ?_
    have hwalk : r.map Prod.fst = s.walk (s.origin p path) (components path) := by
      rw [hr, State.target, if_neg (by decide), Option.map_map]
      exact Option.map_id'
    refine ⟨hwalk, ?_, hret.balanced⟩
    rw [hwalk]
    exact walk_eq_none_iff _ _ _
  · refine Code.ends_imp (ends_namex hs huse hcwd hdir path true) fun r t ⟨hr, hret⟩ => ?_
    refine ⟨hr, fun hnil => ?_, hret.balanced⟩
    rw [hr, hnil]
    rfl

/-- A disk of mkfs's shape, with 25 data blocks and room for 200 inodes. -/
def halfDisk : Super := ⟨64, 25, 200, 10, by decide⟩

/-- The root directory of that disk, with a file `f`, inode 60, and the files `2 .. n + 1`, which are
open. -/
def openFiles (n : Nat) : State :=
  { mkfs halfDisk with
    dino := fun i => if i = 1 then rootInode halfDisk else if i ≤ 60 then
      { Dinode.zero with type := .file, nlink := 1 } else Dinode.zero
    blk := fun b => if b = 29 then put rootBlock 32 (dirent [102] 60) else zeroBlock
    icache := fun i => ⟨if 1 ≤ i ∧ i ≤ n + 1 then 1 else 0, false, false, Dinode.zero⟩
    inUse := n + 1 }

theorem consistent_openFiles (n : Nat) : Consistent (openFiles n) := by
  have hdirs : ∀ i, ((openFiles n).dino i).type = .dir → i = 1 := by
    intro i hi
    by_contra hne
    simp only [openFiles, if_neg hne] at hi
    split at hi <;> cases hi
  constructor
  case unlocked => exact fun _ => rfl
  case cached => exact fun _ _ hvalid => by cases hvalid
  case dirs =>
    intro i hi
    rw [hdirs i hi]
    change Full (openFiles 0).blk ((openFiles 0).dino 1) ∧ 16 ∣ 512
    exact ⟨⟨by decide, by decide +kernel⟩, by decide⟩
  case entries =>
    intro i name j hj
    by_cases hdir : ((openFiles n).dino i).type = .dir
    · rw [State.entry, if_pos hdir, hdirs i hdir, findName, Option.map_map,
        Option.map_eq_some_iff] at hj
      obtain ⟨off, hfind, rfl⟩ := hj
      have hslot : ∀ off ∈ offsets 0 512,
          deInum (contents (openFiles 0).blk ((openFiles 0).dino 1) off 16) = 0 ∨
          ((openFiles 0).dino
            (deInum (contents (openFiles 0).blk ((openFiles 0).dino 1) off 16))).type ≠ .free := by
        decide +kernel
      have hfound := List.find?_some hfind
      rw [Bool.and_eq_true, decide_eq_true_eq] at hfound
      exact (hslot off (List.mem_of_find?_eq_some hfind)).resolve_left hfound.1
    · rw [State.entry, if_neg hdir] at hj
      cases hj
  case linked =>
    intro i hi _
    simp only [openFiles] at hi ⊢
    split
    · decide
    · split
      · decide
      · rename_i h1 h2
        rw [if_neg h1, if_neg h2] at hi
        exact absurd rfl hi
  case root => exact fun h => by cases h

theorem grammar_followed_in_openFiles : ∃ t, (namei halfDisk [47, 47, 102, 47]).whole 0
    (openFiles 0) = .ok (some 60) t ∧ Balanced (openFiles 0) t (some 60) := by
  have h : (namei halfDisk [47, 47, 102, 47]).whole.ends _ 0 (openFiles 0) :=
    (path_lookup_follows_grammar (consistent_openFiles 0) (by decide) (by decide) (by decide)
      [47, 47, 102, 47]).1
  obtain ⟨r, t, hrun, hr, -, hbal⟩ := Code.ends_iff.mp h
  have hwalk : (openFiles 0).walk ((openFiles 0).origin 0 [47, 47, 102, 47])
      (components [47, 47, 102, 47]) = some 60 := by decide +kernel
  rw [hwalk] at hr
  subst hr
  exact ⟨t, hrun, hbal⟩

/-- **With the inode cache full a lookup does not return**: `iget` panics. -/
theorem full_cache_stops_lookup : Consistent (openFiles 49) ∧
    ∃ t, (namei halfDisk [47, 102]).whole 0 (openFiles 49) = .panic .igetNoInodes t := by
  have hpanic : (match (namei halfDisk [47, 102]).whole 0 (openFiles 49) with
      | .panic .igetNoInodes _ => true
      | _ => false) = true := by decide +kernel
  refine ⟨consistent_openFiles 49, ?_⟩
  split at hpanic
  · rename_i t ht
    exact ⟨t, ht⟩
  · cases hpanic

end Xv6.Fs
