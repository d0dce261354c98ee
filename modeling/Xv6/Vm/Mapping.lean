/-
# `mappages` on any range, and the kernel's part of every page table (vm.c)

`Mem.lean` has `mappages` for a number of whole pages, which is what every call in the source asks
for.  Here the function is on ADDRESSES, as the source has it: `va` and `size` are any, the loop ends
where `a == last`, and both `a` and `pa` are 32-bit numbers that wrap around (`mappagesAt`).  On a
range that does not itself wrap around, up to the last page of all, it comes to the same
(`mappagesAt_eq`).

WHAT IS SUPPOSED OF THE DIRECTORY is less than elsewhere: where the physical range lies is nobody's
business, so a page may be mapped twice, or be a table.  It is enough that the tables of this
directory are pages of their own, and that they are not free (`Tree`).

`setupkvm` maps what `kmap[]` lists into a directory of zeros, and so all directories have the same
kernel part: a function of the page number alone (`kernelEntry`).
-/
import Xv6.Vm.Args

namespace Xv6.Vm

open Xv6.Bytes Xv6.Threads Xv6.Threads.Code

/-! ## 1. The source's loop -/

/-- The loop of `mappages`, at page `a`, with frame `f` to map there.  Without `rounds` it would go
on for ever. -/
def mapLoop : (rounds : Nat) → (d a last f perm : Nat) → V Bool
  | 0, _, _, _, _, _ => do
    await fun _ => false
    return true
  | rounds + 1, d, a, last, f, perm => do
    match ← walkpgdir d a true with
    | none => return false
    | some (t, j) =>
      let w ← gets fun m => word (m.page t) j
      panicIf (Present w) .remap
      modify (·.setWord t j (entry f perm))
      if a = last then return true
      else mapLoop rounds d ((a + 1) % 2 ^ 20) last ((f + 1) % 2 ^ 20) perm

/-- `mappages(pgdir, va, size, pa, perm)`: there are 2^20 pages to come by. -/
def mappagesAt (d va size pa perm : Nat) : V Bool :=
  mapLoop (2 ^ 20) d (va / 4096) ((va + size - 1) % 2 ^ 32 / 4096) (pa / 4096) perm

theorem flags_entry {f perm : Nat} (hperm : perm < 4096) : flags (entry f perm) = perm ||| 1 := by
  have hhigh : (perm ||| 1) / 2 = perm / 2 := by rw [Nat.or_div_two, Nat.or_zero]
  have hlow : (perm ||| 1) % 2 = 1 := Nat.or_mod_two_eq_one.mpr (.inr rfl)
  unfold flags entry
  omega

theorem entry_mod (f : Nat) {perm : Nat} (hperm : perm < 4096) :
    entry f perm % 2 ^ 32 = entry (f % 2 ^ 20) perm := by
  unfold entry
  omega

theorem setWord_entry_mod (m : Mem) (t j f : Nat) {perm : Nat} (hperm : perm < 4096) :
    m.setWord t j (entry (f % 2 ^ 20) perm) = m.setWord t j (entry f perm) := by
  rw [Mem.setWord, ← entry_mod f hperm, setWord_mod, Mem.setWord]

/-- The loop is at its end when `n` more pages are mapped. -/
theorem mapLoop_eq {rounds n a f d perm : Nat} (hrounds : n < rounds) (hlast : a + n < 2 ^ 20)
    (hperm : perm < 4096) :
    mapLoop rounds d a (a + n) (f % 2 ^ 20) perm = mappages (n + 1) d a f perm := by
  induction n generalizing rounds a f with
  | zero =>
    obtain ⟨rounds, rfl⟩ : ∃ k, rounds = k + 1 := ⟨rounds - 1, by omega⟩
    rw [mapLoop, mappages]
    refine congrArg (bind (walkpgdir d a true)) (funext fun r => ?_)
    rcases r with _ | ⟨t, j⟩
    · rfl
    · simp only [Nat.add_zero, if_true, setWord_entry_mod _ _ _ _ hperm, mappages]
  | succ n ih =>
    obtain ⟨rounds, rfl⟩ : ∃ k, rounds = k + 1 := ⟨rounds - 1, by omega⟩
    have hnext : mapLoop rounds d (a + 1) (a + 1 + n) ((f + 1) % 2 ^ 20) perm =
        mappages (n + 1) d (a + 1) (f + 1) perm := ih (by omega) (by omega)
    rw [mapLoop, mappages]
    refine congrArg (bind (walkpgdir d a true)) (funext fun r => ?_)
    rcases r with _ | ⟨t, j⟩
    · rfl
    · simp only [setWord_entry_mod _ _ _ _ hperm, if_neg (show ¬a = a + (n + 1) by omega),
        Nat.mod_eq_of_lt (show a + 1 < 2 ^ 20 by omega), Nat.mod_add_mod]
      rw [show a + (n + 1) = a + 1 + n by omega, hnext]

/-- **On a range that does not wrap around, the loop maps its pages one by one**, also if the last
one is the last page of all. -/
theorem mappagesAt_eq {d va size pa perm : Nat} (hsize : 1 ≤ size) (hend : va + size - 1 < 2 ^ 32)
    (hpa : pa < 2 ^ 32) (hperm : perm < 4096) : mappagesAt d va size pa perm =
      mappages ((va + size - 1) / 4096 - va / 4096 + 1) d (va / 4096) (pa / 4096) perm := by
  have hlast : (va + size - 1) % 2 ^ 32 / 4096 =
      va / 4096 + ((va + size - 1) / 4096 - va / 4096) := by omega
  have hfirst : pa / 4096 % 2 ^ 20 = pa / 4096 := by omega
  rw [mappagesAt, hlast, ← hfirst, mapLoop_eq (by omega) (by omega) hperm, hfirst]

/-- **`mappages` of `Mem.lean`** is the function on addresses, for whole pages. -/
theorem mappagesAt_pages {n d v f perm : Nat} (hn : 1 ≤ n) (hv : v + n ≤ 2 ^ 20) (hf : f < 2 ^ 20)
    (hperm : perm < 4096) :
    mappagesAt d (4096 * v) (4096 * n) (4096 * f) perm = mappages n d v f perm := by
  have hcount : (4096 * v + 4096 * n - 1) / 4096 - 4096 * v / 4096 + 1 = n := by omega
  rw [mappagesAt_eq (by omega) (by omega) (by omega) hperm, hcount, Nat.mul_div_cancel_left _ (by decide),
    Nat.mul_div_cancel_left _ (by decide)]

/-! ## 2. One page -/

/-- The free list: frames, each of them once. -/
structure FreeList (free : List Nat) : Prop where
  nodup : free.Nodup
  range : ∀ f ∈ free, f < 2 ^ 20

/-- **A page directory**: it and its tables are pages of their own, and none of them is free. -/
structure Tree (m : Mem) (d : Nat) : Prop where
  free : FreeList m.free
  dir : d ∉ m.free
  table : ∀ i, Present (m.pde d i) → frame (m.pde d i) ∉ m.free ∧ frame (m.pde d i) ≠ d
  distinct : ∀ i j, Present (m.pde d i) → Present (m.pde d j) →
    frame (m.pde d i) = frame (m.pde d j) → i = j

/-- What `walkpgdir` has done when it returns the entry for page `v`: if the table was not there, a
page that was free is one now, that maps nothing. -/
structure Linked (d v : Nat) (m m' : Mem) : Prop where
  tree : Tree m' d
  table : m'.HasTable d v
  pte : ∀ u, m'.pteOf d u = m.pteOf d u
  pde : ∀ i, i ≠ v / 1024 ∨ Present (m.pde d i) → m'.pde d i = m.pde d i
  fresh : ¬m.HasTable d v → m'.pde d (v / 1024) % 4096 = 7
  count : (m.HasTable d v ∧ m'.free.length = m.free.length) ∨
    (¬m.HasTable d v ∧ m'.free.length + 1 = m.free.length)

section

variable {l : Layout} {m m' : Mem} {d v f perm : Nat}

/-- A frame that is none of the directory's pages. -/
structure Spare (m : Mem) (d t : Nat) : Prop where
  range : t < 2 ^ 20
  free : t ∉ m.free
  dir : t ≠ d
  table : ∀ i, Present (m.pde d i) → frame (m.pde d i) ≠ t

/-- A page from the free list is filled. -/
theorem Tree.take (h : Tree m d) {t : Nat} {rest : List Nat} (hfree : m.free = t :: rest)
    (x : Page) : Tree (Mem.setPage { m with free := rest } t x) d ∧
      Spare (Mem.setPage { m with free := rest } t x) d t ∧
      (∀ i, (Mem.setPage { m with free := rest } t x).pde d i = m.pde d i) ∧
      ∀ u, (Mem.setPage { m with free := rest } t x).pteOf d u = m.pteOf d u := by
  have hsub : ∀ {g}, g ∉ m.free → g ≠ t ∧ g ∉ rest := fun {g} hg => by
    rwa [hfree, List.mem_cons, not_or] at hg
  have hnodup := h.free.nodup
  rw [hfree, List.nodup_cons] at hnodup
  have hrange : ∀ g ∈ t :: rest, g < 2 ^ 20 := hfree ▸ h.free.range
  have hdt := (hsub h.dir).1
  have hpde : ∀ i, (Mem.setPage { m with free := rest } t x).pde d i = m.pde d i := fun i =>
    pde_setPage_of_ne _ hdt
  have htable : ∀ i, Present (m.pde d i) → frame (m.pde d i) ≠ t := fun i hp =>
    (hsub (h.table i hp).1).1
  refine ⟨⟨⟨hnodup.2, fun g hg => hrange g (List.mem_cons_of_mem t hg)⟩, (hsub h.dir).2,
    fun i hp => ?_, fun i j => ?_⟩, ⟨hrange t List.mem_cons_self, hnodup.1, hdt.symm,
    fun i hp => ?_⟩, hpde, fun u => ?_⟩
  · rw [hpde] at hp ⊢
    exact ⟨(hsub (h.table i hp).1).2, (h.table i hp).2⟩
  · rw [hpde, hpde]
    exact h.distinct i j
  · rw [hpde] at hp ⊢
    exact htable i hp
  · unfold Mem.pteOf
    rw [hpde]
    split
    · rename_i hp
      rw [Mem.page_setPage_of_ne _ (htable _ hp)]
    · rfl

/-- A table of zeros is hung into the directory. -/
theorem Tree.link (h : Tree m d) {t : Nat} (hspare : Spare m d t) (hz : m.page t = fun _ => 0)
    (hv : v < 2 ^ 20) (hno : ¬m.HasTable d v) :
    Tree (m.setWord d (v / 1024) (4096 * t + 7)) d ∧
      (∀ i, (m.setWord d (v / 1024) (4096 * t + 7)).pde d i =
        if i = v / 1024 then 4096 * t + 7 else m.pde d i) ∧
      ∀ u, (m.setWord d (v / 1024) (4096 * t + 7)).pteOf d u = m.pteOf d u := by
  have hrange := hspare.range
  have hpde : ∀ i, (m.setWord d (v / 1024) (4096 * t + 7)).pde d i =
      if i = v / 1024 then 4096 * t + 7 else m.pde d i := fun i => by
    rw [pde_setWord (by omega) (by omega)]
    simp only [true_and]
  have hframe : frame (4096 * t + 7) = t := by
    unfold frame
    omega
  refine ⟨⟨h.free, h.dir, fun i hp => ?_, fun i j hi hj e => ?_⟩, hpde, fun u =>
    pteOf_setWord_zero (by omega) hrange hspare.dir hz hno fun ht => (h.table _ ht).2⟩
  · rw [hpde] at hp ⊢
    split
    · rw [hframe]
      exact ⟨hspare.free, hspare.dir⟩
    · rename_i hi
      rw [if_neg hi] at hp
      exact h.table i hp
  · rw [hpde] at hi hj
    rw [hpde, hpde] at e
    split at hi <;> split at hj
    · omega
    · rename_i hi' hj'
      rw [if_pos hi', if_neg hj', hframe] at e
      exact absurd e.symm (hspare.table j hj)
    · rename_i hi' hj'
      rw [if_neg hi', if_pos hj', hframe] at e
      exact absurd e (hspare.table i hi)
    · rename_i hi' hj'
      rw [if_neg hi', if_neg hj'] at e
      exact h.distinct i j hi hj e

/-- **`walkpgdir` with `alloc`**, in any directory. -/
theorem walkpgdir_tree (h : Tree m d) (hv : v < 2 ^ 20) :
    (¬m.HasTable d v ∧ m.free = [] ∧
        walkpgdir d v true l m = .ok none { m with denied := m.denied + 1 }) ∨
      ∃ m', walkpgdir d v true l m =
        .ok (some (frame (m'.pde d (v / 1024)), v % 1024)) m' ∧ Linked d v m m' := by
  unfold walkpgdir
  rw [run_bind (show gets (·.pde d (v / 1024)) l m = .ok (m.pde d (v / 1024)) m from rfl)]
  by_cases ht : m.HasTable d v
  · rw [if_pos (show Present _ from ht)]
    exact .inr ⟨m, rfl, h, ht, fun _ => rfl, fun _ _ => rfl, fun e => absurd ht e, .inl ⟨ht, rfl⟩⟩
  · rw [if_neg (show ¬Present _ from ht), if_neg nofun]
    cases hfree : m.free with
    | nil =>
      rw [run_bind (kalloc_nil hfree)]
      exact .inl ⟨ht, rfl, by rw [← hfree]; rfl⟩
    | cons t rest =>
      obtain ⟨htree, hspare, hpde, hpte⟩ := h.take hfree fun _ => 0
      have hrange := hspare.range
      obtain ⟨htree', hpde', hpte'⟩ := htree.link hspare (Mem.page_setPage_self _) hv (by
        rw [Mem.HasTable, hpde]
        exact ht)
      rw [run_bind (kalloc_cons hfree)]
      refine .inr ⟨_, ?_, htree', ?_, fun u => (hpte' u).trans (hpte u), fun i hi => ?_,
        fun _ => ?_, .inr ⟨ht, by rw [hfree]; rfl⟩⟩
      · show Out.ok (some (t, v % 1024)) _ = _
        rw [hpde', if_pos rfl, show frame (4096 * t + 7) = t by unfold frame; omega]
      · unfold Mem.HasTable Present
        rw [hpde', if_pos rfl]
        omega
      · rw [hpde', if_neg, hpde]
        rintro rfl
        exact hi.elim (fun e => e rfl) ht
      · rw [hpde', if_pos rfl]
        omega

/-- An entry is written: the directory is one as before, and no other entry changes. -/
theorem Tree.setPte {w : Nat} (h : Tree m d) (ht : m.HasTable d v) (hw : w < 2 ^ 32) :
    Tree (m.setPte d v w) d ∧ (∀ i, (m.setPte d v w).pde d i = m.pde d i) ∧
      ∀ u, (m.setPte d v w).pteOf d u = if u = v then w else m.pteOf d u := by
  have hpde : ∀ i, (m.setPte d v w).pde d i = m.pde d i := fun i =>
    pde_setPage_of_ne _ (h.table _ ht).2.symm
  refine ⟨⟨h.free, h.dir, fun i => ?_, fun i j => ?_⟩, hpde, fun u => ?_⟩
  · rw [hpde]
    exact h.table i
  · rw [hpde, hpde]
    exact h.distinct i j
  · rw [pteOf_setWord ht hw (h.table _ ht).2.symm fun ht' e => ⟨rfl, h.distinct _ _ ht' ht e⟩]
    simp only [true_and]

/-! ## 3. A range -/

/-- The tables that are missing for the `n` pages from page `v` on. -/
def Mem.missing (m : Mem) (d v n : Nat) : Finset Nat :=
  (Finset.range 1024).filter fun i => v / 1024 ≤ i ∧ 1024 * i < v + n ∧ ¬Present (m.pde d i)

/-- **The `n` pages from page `v` on are mapped**, one after the other from frame `f` on, and the
rest is as it was. -/
structure Installs (d v n f perm : Nat) (m m' : Mem) : Prop where
  inside : ∀ u, v ≤ u → u < v + n → m'.pteOf d u = entry ((f + (u - v)) % 2 ^ 20) perm
  outside : ∀ u, ¬(v ≤ u ∧ u < v + n) → m'.pteOf d u = m.pteOf d u
  kept : ∀ i, Present (m.pde d i) → m'.pde d i = m.pde d i
  fresh : ∀ i, ¬Present (m.pde d i) → m'.pde d i = m.pde d i ∨ m'.pde d i % 4096 = 7

theorem Installs.refl (f perm : Nat) : Installs d v 0 f perm m m :=
  ⟨fun u hlo hhi => by omega, fun _ _ => rfl, fun _ _ => rfl, fun _ _ => .inl rfl⟩

/-- One page, and then the rest. -/
theorem Linked.installs {n : Nat} {m₁ : Mem} (hperm : perm < 4096) (hlink : Linked d v m m₁)
    (hrest : Installs d (v + 1) n (f + 1) perm (m₁.setPte d v (entry (f % 2 ^ 20) perm)) m') :
    Installs d v (n + 1) f perm m m' := by
  have hlt : entry (f % 2 ^ 20) perm < 2 ^ 32 := entry_lt (Nat.mod_lt _ (by decide)) hperm
  obtain ⟨-, hpde, hpte⟩ := hlink.tree.setPte hlink.table hlt
  refine ⟨fun u hlo hhi => ?_, fun u hu => ?_, fun i hp => ?_, fun i hno => ?_⟩
  · by_cases hv : u = v
    · rw [hrest.outside u (by omega), hpte, if_pos hv, hv, Nat.sub_self, Nat.add_zero]
    · rw [hrest.inside u (by omega) (by omega), show f + 1 + (u - (v + 1)) = f + (u - v) by omega]
  · rw [hrest.outside u (by omega), hpte, if_neg (by omega), hlink.pte]
  · have hsame := hlink.pde i (.inr hp)
    rw [hrest.kept i (by rwa [hpde, hsame]), hpde, hsame]
  · by_cases hv : i = v / 1024
    · -- this is the table that has been made for `v`
      subst hv
      have hseven := hlink.fresh hno
      rw [hrest.kept _ (by rw [hpde]; exact hlink.table), hpde]
      exact .inr hseven
    · rcases hrest.fresh i (by rwa [hpde, hlink.pde i (.inl hv)]) with e | e
      · rw [e, hpde, hlink.pde i (.inl hv)]
        exact .inl rfl
      · exact .inr e

/-- A page further, at most as many tables are missing, and one less if one has been made. -/
theorem Linked.missing {n w : Nat} {m₁ : Mem} (hlink : Linked d v m m₁) (hw : w < 2 ^ 32)
    (hv : v < 2 ^ 20) (hroom : (m.missing d v (n + 1)).card ≤ m.free.length) :
    ((m₁.setPte d v w).missing d (v + 1) n).card ≤ m₁.free.length := by
  obtain ⟨-, hpde, -⟩ := hlink.tree.setPte hlink.table hw
  have hsub : (m₁.setPte d v w).missing d (v + 1) n ⊆ (m.missing d v (n + 1)).erase (v / 1024) := by
    intro i hi
    rw [Mem.missing, Finset.mem_filter, hpde] at hi
    obtain ⟨hlt, hlo, hhi, hno⟩ := hi
    have hne : i ≠ v / 1024 := by
      rintro rfl
      exact hno hlink.table
    rw [hlink.pde i (.inl hne)] at hno
    rw [Finset.mem_erase, Mem.missing, Finset.mem_filter]
    exact ⟨hne, hlt, by omega, by omega, hno⟩
  have hcard := Finset.card_le_card hsub
  rcases hlink.count with ⟨-, hlen⟩ | ⟨hno, hlen⟩
  · have := Finset.card_erase_le (s := m.missing d v (n + 1)) (a := v / 1024)
    omega
  · have hmem : v / 1024 ∈ m.missing d v (n + 1) := by
      rw [Mem.missing, Finset.mem_filter, Finset.mem_range]
      exact ⟨by omega, Nat.le_refl _, by omega, hno⟩
    rw [Finset.card_erase_of_mem hmem] at hcard
    omega

/-- **`mappages` in any directory**: it returns -1 only if there are not enough pages for the
tables, and otherwise the range is mapped. -/
theorem mappages_tree {n : Nat} (h : Tree m d) (hhi : v + n ≤ 2 ^ 20) (hperm : perm < 4096)
    (hno : ∀ u, v ≤ u → u < v + n → ¬Present (m.pteOf d u)) :
    ∃ r m', mappages n d v f perm l m = .ok r m' ∧ Tree m' d ∧
      (r = true → Installs d v n f perm m m') ∧
      ((m.missing d v n).card ≤ m.free.length → r = true) := by
  induction n generalizing v f m with
  | zero => exact ⟨true, m, rfl, h, fun _ => .refl f perm, fun _ => rfl⟩
  | succ n ih =>
    rcases walkpgdir_tree (l := l) h (show v < 2 ^ 20 by omega) with
      ⟨ht, hempty, hwalk⟩ | ⟨m₁, hwalk, hlink⟩
    · refine ⟨false, { m with denied := m.denied + 1 }, by rw [mappages, run_bind hwalk]; rfl,
        ⟨h.free, h.dir, h.table, h.distinct⟩, nofun, fun hroom => ?_⟩
      have hmem : v / 1024 ∈ m.missing d v (n + 1) := by
        rw [Mem.missing, Finset.mem_filter, Finset.mem_range]
        exact ⟨by omega, Nat.le_refl _, by omega, ht⟩
      have hpos := Finset.card_pos.mpr ⟨_, hmem⟩
      rw [hempty, List.length_nil] at hroom
      omega
    · have hlt : entry (f % 2 ^ 20) perm < 2 ^ 32 := entry_lt (Nat.mod_lt _ (by decide)) hperm
      obtain ⟨htree, -, hpte⟩ := hlink.tree.setPte hlink.table hlt
      have habsent : ¬Present (m₁.pteOf d v) := by
        rw [hlink.pte]
        exact hno v (Nat.le_refl _) (by omega)
      obtain ⟨r, m', hrun, htree', hinstalls, hroom⟩ := ih (v := v + 1) (f := f + 1) htree (by omega)
        fun u hlo hhi' => by
          rw [hpte, if_neg (by omega), hlink.pte]
          exact hno u (by omega) (by omega)
      refine ⟨r, m', ?_, htree', fun hr => hlink.installs hperm (hinstalls hr),
        fun hmany => hroom (hlink.missing hlt (by omega) hmany)⟩
      have hword : m₁.setPte d v (entry (f % 2 ^ 20) perm) = m₁.setPte d v (entry f perm) :=
        setWord_entry_mod _ _ _ f hperm
      rw [mappages_entry habsent hlink.table hwalk, ← hword, hrun]

/-! ## 4. The kernel's part -/

/-- **What `kmap[]` says about a page**: the entry for it, or 0. -/
def kernelEntry : List Kmap → Nat → Nat
  | [], _ => 0
  | k :: ks, u =>
    if k.virt ≤ u ∧ u < k.virt + (k.physEnd - k.physStart) then
      entry (k.physStart + (u - k.virt)) k.perm
    else kernelEntry ks u

/-- Below the first of them, and for no page with `PTE_U`. -/
theorem kernelEntry_of_lt {lo u : Nat} {ks : List Kmap} (h : Stacked lo ks) (hu : u < lo) :
    kernelEntry ks u = 0 := by
  induction ks generalizing lo with
  | nil => rfl
  | cons k ks ih =>
    obtain ⟨hlow, -, -, -, hks⟩ := h
    rw [kernelEntry, if_neg (by omega)]
    exact ih hks (by omega)

theorem not_user_kernelEntry {lo : Nat} {ks : List Kmap} (h : Stacked lo ks) (u : Nat) :
    ¬User (kernelEntry ks u) := by
  induction ks generalizing lo with
  | nil =>
    unfold User kernelEntry
    omega
  | cons k ks ih =>
    obtain ⟨-, -, -, hperm, hks⟩ := h
    rw [kernelEntry]
    split
    · unfold User entry
      omega
    · exact ih hks

/-- **The loop of `setupkvm`** leaves what `kmap[]` says. -/
theorem kmapLoop_tree {lo : Nat} {ks : List Kmap} (h : Tree m d) (hks : Stacked lo ks)
    (hno : ∀ u, lo ≤ u → m.pteOf d u = 0) (hrun : kmapLoop d ks l m = .ok true m') (u : Nat) :
    m'.pteOf d u = if u < lo then m.pteOf d u else kernelEntry ks u := by
  induction ks generalizing lo m with
  | nil =>
    cases hrun
    split
    · rfl
    · exact hno u (by omega)
  | cons k ks ih =>
    obtain ⟨hlow, hhigh, hphys, hperm, hks⟩ := hks
    have hbound : k.perm < 4096 := by omega
    obtain ⟨r, m₁, hmap, htree, hinstalls, -⟩ := mappages_tree (l := l) (f := k.physStart) h hhigh
      hbound fun u hlo' _ => by
        rw [hno u (by omega)]
        exact not_present_zero
    rw [kmapLoop, run_bind hmap] at hrun
    cases r with
    | false => cases hrun
    | true =>
      have hinst := hinstalls rfl
      have hrest := ih htree hks (fun u hu => by
        rw [hinst.outside u (by omega)]
        exact hno u (by omega)) hrun
      rw [hrest, kernelEntry]
      by_cases hin : k.virt ≤ u ∧ u < k.virt + (k.physEnd - k.physStart)
      · rw [if_pos hin.2, if_neg (by omega), if_pos hin, hinst.inside u hin.1 hin.2,
          Nat.mod_eq_of_lt (by omega)]
      · rw [if_neg hin]
        split
        · rw [hinst.outside u hin]
          split
          · rfl
          · rw [hno u (by omega), kernelEntry_of_lt hks (by omega)]
        · rw [if_neg (by omega)]

/-- A page of zeros from the free list is a directory. -/
theorem tree_of_zero {rest : List Nat} (h : FreeList m.free) (hfree : m.free = d :: rest) :
    Tree (Mem.setPage { m with free := rest } d fun _ => 0) d := by
  have hnodup := h.nodup
  rw [hfree, List.nodup_cons] at hnodup
  have hno : ∀ i, ¬Present ((Mem.setPage { m with free := rest } d fun _ => 0).pde d i) := fun i => by
    rw [Mem.pde, Mem.page_setPage_self, word_zero]
    exact not_present_zero
  exact ⟨⟨hnodup.2, fun f hf => h.range f (by rw [hfree]; exact List.mem_cons_of_mem d hf)⟩,
    hnodup.1, fun i hp => absurd hp (hno i), fun i _ hp => absurd hp (hno i)⟩

/-- **`setupkvm`** -/
theorem setupkvm_tree (h : FreeList m.free) (hrun : setupkvm l m = .ok (some d) m') (u : Nat) :
    m'.pteOf d u = kernelEntry (kmap l) u := by
  rw [setupkvm] at hrun
  cases hfree : m.free with
  | nil =>
    rw [run_bind (kalloc_nil hfree)] at hrun
    cases hrun
  | cons d' rest =>
    rw [run_bind (kalloc_cons hfree)] at hrun
    simp only at hrun
    rw [run_bind (show memset d' 0 l { m with free := rest } = .ok () _ from rfl),
      run_bind (show self l _ = .ok l _ from rfl)] at hrun
    obtain ⟨r, m₁, hloop, hret⟩ := bind_eq_ok.mp hrun
    cases r with
    | false => cases hret
    | true =>
      cases hret
      have hzero : ∀ u, (Mem.setPage { m with free := rest } d fun _ => 0).pteOf d u = 0 :=
        pteOf_zero (Mem.page_setPage_self _)
      rw [kmapLoop_tree (tree_of_zero h hfree) (stacked_kmap l) (fun u _ => hzero u) hloop]
      split
      · rw [hzero, kernelEntry_of_lt (stacked_kmap l) (by omega)]
      · rfl

end

/-- **`mappages` installs the translation it is asked for, and no other**: for every page of the
range the entry is `pa` and so on, with `perm | PTE_P`, in 32-bit arithmetic; all other entries stay,
and with them the entries of the directory that were there.  And the kernel part of every directory
that `setupkvm` makes is what `kmap[]` says, nowhere with `PTE_U`. -/
theorem mappages_installs :
    (∀ (l : Layout) (m : Mem) (d va size pa perm : Nat), Tree m d → 1 ≤ size →
      va + size - 1 < 2 ^ 32 → pa < 2 ^ 32 → pa % 4096 = 0 → perm < 4096 →
      (∀ u, va / 4096 ≤ u → u ≤ (va + size - 1) / 4096 → ¬Present (m.pteOf d u)) →
      (m.missing d (va / 4096) ((va + size - 1) / 4096 - va / 4096 + 1)).card ≤ m.free.length →
      ∃ m', mappagesAt d va size pa perm l m = .ok true m' ∧
        (∀ u, va / 4096 ≤ u → u ≤ (va + size - 1) / 4096 →
          4096 * frame (m'.pteOf d u) = (pa + 4096 * (u - va / 4096)) % 2 ^ 32 ∧
            flags (m'.pteOf d u) = perm ||| 1) ∧
        (∀ u, ¬(va / 4096 ≤ u ∧ u ≤ (va + size - 1) / 4096) → m'.pteOf d u = m.pteOf d u) ∧
        ∀ i, m'.pde d i = m.pde d i ∨ ¬Present (m.pde d i) ∧ flags (m'.pde d i) = 7) ∧
    ∀ (l : Layout) (m m' : Mem) (d : Nat), FreeList m.free → setupkvm l m = .ok (some d) m' →
      ∀ u, m'.pteOf d u = kernelEntry (kmap l) u ∧ ¬User (m'.pteOf d u) := by
  refine ⟨fun l m d va size pa perm htree hsize hend hpa hpage hperm hno hroom => ?_,
    fun l m m' d hlist hrun u => ?_⟩
  · rw [mappagesAt_eq hsize hend hpa hperm]
    obtain ⟨r, m', hrun, -, hinstalls, henough⟩ := mappages_tree (l := l) (v := va / 4096)
      (n := (va + size - 1) / 4096 - va / 4096 + 1) (f := pa / 4096) htree (by omega) hperm
      fun u hlo hhi => hno u hlo (by omega)
    obtain rfl := henough hroom
    have hinst := hinstalls rfl
    refine ⟨m', hrun, fun u hlo hhi => ?_, fun u hu => hinst.outside u (by omega), fun i => ?_⟩
    · rw [hinst.inside u hlo (by omega), frame_entry _ hperm, flags_entry hperm]
      exact ⟨by omega, rfl⟩
    · by_cases hp : Present (m.pde d i)
      · exact .inl (hinst.kept i hp)
      · exact (hinst.fresh i hp).imp_right fun e => ⟨hp, e⟩
  · rw [setupkvm_tree hlist hrun]
    exact ⟨rfl, not_user_kernelEntry (stacked_kmap l) u⟩

/-- The last page of all, and the directory that `setupkvm` makes. -/
theorem mappages_installs_last :
    (∃ m', mappagesAt 400 (2 ^ 32 - 10) 10 8192 2 ⟨300, 400, by decide, by decide, by decide⟩
        (blankMem [401]) = .ok true m' ∧ frame (m'.pteOf 400 (2 ^ 20 - 1)) = 2) ∧
      ∃ d m', setupkvm ⟨300, 400, by decide, by decide, by decide⟩ roomy.mem = .ok (some d) m' ∧
        ∀ u, ¬User (m'.pteOf d u) := by
  have hno : ∀ i, ¬Present ((blankMem [401]).pde 400 i) := fun i => by
    rw [Mem.pde, show (blankMem [401]).page 400 = fun _ => 0 from rfl, word_zero]
    exact not_present_zero
  have htree : Tree (blankMem [401]) 400 := by
    refine ⟨⟨by decide, by decide⟩, by decide, fun i hp => absurd hp (hno i),
      fun i _ hp => absurd hp (hno i)⟩
  have hroom : ((blankMem [401]).missing 400 ((2 ^ 32 - 10) / 4096)
      ((2 ^ 32 - 10 + 10 - 1) / 4096 - (2 ^ 32 - 10) / 4096 + 1)).card ≤ 1 := by
    refine Finset.card_le_one.mpr fun i hi j hj => ?_
    rw [Mem.missing, Finset.mem_filter, Finset.mem_range] at hi hj
    omega
  constructor
  · obtain ⟨m', hrun, hin, -⟩ := mappages_installs.1 ⟨300, 400, by decide, by decide, by decide⟩
      (blankMem [401]) 400 (2 ^ 32 - 10) 10 8192 2 htree (by decide) (by decide) (by decide)
      (by decide) (by decide) (fun u _ _ => by rw [pteOf_zero rfl]; exact not_present_zero) hroom
    have hlast := (hin (2 ^ 20 - 1) (by decide) (by decide)).1
    exact ⟨m', hrun, by omega⟩
  · have hfree : FreeList roomy.mem.free := ⟨List.nodup_range' .., fun f hf => by
      have := List.mem_range'_1.mp hf
      omega⟩
    obtain ⟨d, m', -, hrun, -⟩ := setupkvm_enough roomy_wf (by
      rw [show roomy.mem.free.length = 200 from List.length_range' ..]
      decide)
    exact ⟨d, m', hrun, fun u => (mappages_installs.2 _ _ _ _ hfree hrun u).2⟩

end Xv6.Vm
