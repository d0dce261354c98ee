/-
# Who holds an inode: references, locks, and what cannot change meanwhile

A reference keeps an inode in the cache, and its lock keeps everybody else from it.  What a process
holds of both is a `Hold`; the counts in the cache are the sum of what everybody holds.  The rules
below follow one process through fs.c and sysfile.c: `Has env s₀ own s` says that the process holds
`own` and all others together hold `env`, and that since the state `s₀` nothing has changed that
`env` protects.  Everything here is said of code that returns; a panic stops the machine.

What a reference of ANOTHER protects is the type of the inode: `iput` frees an inode only when it
drops the last reference, and `ialloc` takes an inode only when it is free.  So no function of the
file system changes the type of an inode that somebody else refers to, unless it is free already
(`Aside.type`).
-/
import Xv6.Fs.Contents

namespace Xv6.Fs

open Xv6.Bytes Xv6.Threads

/-! ## 1. Holds -/

/-- For each inode a number of references and a number of locks. -/
abbrev Hold := Inum → Nat × Nat

/-- One reference. -/
def oneRef (i : Inum) : Hold := Pi.single i (1, 0)

/-- One lock. -/
def oneLock (i : Inum) : Hold := Pi.single i (0, 1)

/-- What is locked is referred to. -/
def Sound (h : Hold) : Prop := ∀ i, 0 < (h i).2 → 0 < (h i).1

/-- What the cache says of each inode. -/
def State.grip (s : State) : Hold := fun i => ((s.icache i).ref, (s.icache i).busy.toNat)

section

variable {g h : Hold} {i j : Inum} {x : Nat × Nat}

theorem oneRef_self : oneRef i i = (1, 0) := Pi.single_eq_same ..

theorem oneLock_self : oneLock i i = (0, 1) := Pi.single_eq_same ..

theorem oneRef_of_ne (hij : j ≠ i) : oneRef i j = 0 := Pi.single_eq_of_ne hij _

theorem oneLock_of_ne (hij : j ≠ i) : oneLock i j = 0 := Pi.single_eq_of_ne hij _

theorem oneRef_snd (i j : Inum) : (oneRef i j).2 = 0 := by
  rcases eq_or_ne j i with rfl | hne
  · rw [oneRef_self]
  · rw [oneRef_of_ne hne]
    rfl

@[simp] theorem add_oneRef_snd : ((g + oneRef i) j).2 = (g j).2 := by
  rw [Pi.add_apply, Prod.snd_add, oneRef_snd, add_zero]

@[simp] theorem add_oneLock_fst : ((g + oneLock i) j).1 = (g j).1 := by
  rcases eq_or_ne j i with rfl | hne
  · simp [oneLock_self]
  · simp [oneLock_of_ne hne]

@[simp] theorem add_oneRef_fst_self : ((g + oneRef i) i).1 = (g i).1 + 1 := by simp [oneRef_self]

@[simp] theorem add_oneLock_snd_self : ((g + oneLock i) i).2 = (g i).2 + 1 := by
  simp [oneLock_self]

theorem add_oneLock_snd_of_ne (hij : j ≠ i) : ((g + oneLock i) j).2 = (g j).2 := by
  simp [oneLock_of_ne hij]

theorem update_add_single : Function.update g i (g i + x) = g + Pi.single i x := by
  funext j
  rcases eq_or_ne j i with rfl | hne
  · rw [Function.update_self, Pi.add_apply, Pi.single_eq_same]
  · rw [Function.update_of_ne hne, Pi.add_apply, Pi.single_eq_of_ne hne, add_zero]

theorem update_drop_single : Function.update (g + Pi.single i x) i (g i) = g := by
  funext j
  rcases eq_or_ne j i with rfl | hne
  · rw [Function.update_self]
  · rw [Function.update_of_ne hne, Pi.add_apply, Pi.single_eq_of_ne hne, add_zero]

theorem Sound.add (hg : Sound g) (hh : Sound h) : Sound (g + h) := by
  intro i hi
  simp only [Pi.add_apply, Prod.snd_add, Prod.fst_add] at hi ⊢
  have := hg i
  have := hh i
  omega

theorem Sound.addRef (hg : Sound g) (i : Inum) : Sound (g + oneRef i) := by
  refine hg.add fun j hj => ?_
  rcases eq_or_ne j i with rfl | hne
  · rw [oneRef_self] at hj
    cases hj
  · rw [oneRef_of_ne hne] at hj
    cases hj

theorem Sound.addLock (hg : Sound g) (hi : 0 < (g i).1) : Sound (g + oneLock i) := by
  intro j hj
  simp only [Pi.add_apply, Prod.snd_add, Prod.fst_add] at hj ⊢
  rcases eq_or_ne j i with rfl | hne
  · omega
  · rw [oneLock_of_ne hne] at hj ⊢
    have := hg j
    simp only [Prod.snd_zero, Prod.fst_zero, Nat.add_zero] at hj ⊢
    omega

theorem Sound.withRef (hg : Sound (g + h)) (i : Inum) : Sound (g + (h + oneRef i)) := by
  rw [← add_assoc]
  exact hg.addRef i

/-- With the reference and the lock of one more inode. -/
theorem Sound.withBoth (hg : Sound (g + h)) (i : Inum) :
    Sound (g + (h + oneRef i + oneLock i)) := by
  rw [← add_assoc, ← add_assoc]
  exact (hg.addRef i).addLock (by rw [add_oneRef_fst_self]; omega)

theorem Sound.dropLock (hg : Sound (g + oneLock i)) : Sound g := by
  intro j hj
  have := hg j
  simp only [Pi.add_apply, Prod.snd_add, Prod.fst_add] at this
  rcases eq_or_ne j i with rfl | hne
  · rw [oneLock_self] at this
    exact this (by omega)
  · rw [oneLock_of_ne hne] at this
    exact this (by omega)

end

/-! ## 2. What is known while something is held -/

/-- The type in the cache is that on disk, and it is not 0. -/
def State.Solid (s : State) (i : Inum) : Prop :=
  (s.icache i).din.type = (s.dino i).type ∧ (s.dino i).type ≠ .free

/-- The cache shows the types on disk: of inodes that nobody has locked, and of those in `own`
that are locked. -/
structure Typed (own : Hold) (s : State) : Prop where
  settled : ∀ i, 0 < (s.icache i).ref → (s.icache i).valid = true → (s.icache i).busy = false →
    s.Solid i
  mine : ∀ i, 0 < (own i).2 → (s.icache i).valid = true ∧ s.Solid i

/-- What has not changed from `s` to `t`, if others hold `env`. -/
structure Aside (env : Hold) (s t : State) : Prop where
  file : ∀ f, ∃ off, t.file f = { s.file f with off := off }
  ofile : t.ofile = s.ofile
  cwd : t.cwd = s.cwd
  alive : t.alive = s.alive
  type : ∀ i, 0 < (env i).1 → (s.dino i).type ≠ .free → (t.dino i).type = (s.dino i).type
  solid : ∀ i, 0 < (env i).1 → (s.icache i).valid = true → s.Solid i →
    (t.icache i).valid = true ∧ t.Solid i

theorem Aside.refl (env : Hold) (s : State) : Aside env s s :=
  ⟨fun _ => ⟨_, rfl⟩, rfl, rfl, rfl, fun _ _ _ => rfl, fun _ _ hv hs => ⟨hv, hs⟩⟩

theorem Aside.trans {env : Hold} {s t u : State} (h : Aside env s t) (h' : Aside env t u) :
    Aside env s u where
  file f := by
    obtain ⟨off, e⟩ := h.file f
    obtain ⟨off', e'⟩ := h'.file f
    exact ⟨off', by rw [e', e]⟩
  ofile := h'.ofile.trans h.ofile
  cwd := h'.cwd.trans h.cwd
  alive := h'.alive.trans h.alive
  type i hi ht := by
    have hone := h.type i hi ht
    rw [h'.type i hi (by rwa [hone]), hone]
  solid i hi hv hs := by
    obtain ⟨hv', hs'⟩ := h.solid i hi hv hs
    exact h'.solid i hi hv' hs'

/-- The process holds `own`, the others hold `env`, and since `s₀` what `env` protects has been
kept. -/
structure Has (env : Hold) (s₀ : State) (own : Hold) (s : State) : Prop where
  grip : s.grip = env + own
  sound : Sound (env + own)
  typed : Typed own s
  kept : Aside env s₀ s

section

variable {env own : Hold} {s₀ s t : State} {i : Inum} {p : Pid} {α β : Type}

theorem Has.ref (h : Has env s₀ own s) (i : Inum) :
    (s.icache i).ref = (env i).1 + (own i).1 := congrArg Prod.fst (congrFun h.grip i)

theorem Has.busy (h : Has env s₀ own s) (i : Inum) :
    (s.icache i).busy.toNat = (env i).2 + (own i).2 := congrArg Prod.snd (congrFun h.grip i)

/-- A new beginning, in which the others keep a reference of the process for it. -/
theorem Has.lend (h : Has env s₀ (own + oneRef i) s) : Has (env + oneRef i) s own s where
  grip := by rw [h.grip, add_assoc, add_comm own]
  sound := by rw [add_assoc, add_comm (oneRef i)]; exact h.sound
  typed := ⟨h.typed.settled, fun j hj => h.typed.mine j (by
    simp only [Pi.add_apply, Prod.snd_add]
    omega)⟩
  kept := .refl _ s

/-- The reference is taken back. -/
theorem Has.back {own' : Hold} (h : Has env s₀ (own + oneRef i) s)
    (h' : Has (env + oneRef i) s own' t) : Has env s₀ (own' + oneRef i) t where
  grip := by rw [h'.grip, add_assoc, add_comm own']
  sound := by rw [add_comm own', ← add_assoc]; exact h'.sound
  typed := by
    refine ⟨h'.typed.settled, fun j hj => h'.typed.mine j ?_⟩
    simp only [Pi.add_apply, Prod.snd_add] at hj
    rcases eq_or_ne j i with rfl | hne
    · rw [oneRef_self] at hj
      omega
    · rw [oneRef_of_ne hne] at hj
      exact hj
  kept := h.kept.trans ⟨h'.kept.file, h'.kept.ofile, h'.kept.cwd, h'.kept.alive,
    fun j hj => h'.kept.type j (by simp only [Pi.add_apply, Prod.fst_add]; omega),
    fun j hj => h'.kept.solid j (by simp only [Pi.add_apply, Prod.fst_add]; omega)⟩

end

/-! ## 3. Code that moves data only -/

/-- From `s` to `t` neither references nor locks nor types have changed, nor the tables of the
processes. -/
structure Mildly (s t : State) : Prop where
  grip : t.grip = s.grip
  valid : ∀ i, (t.icache i).valid = (s.icache i).valid
  din : ∀ i, (t.icache i).din.type = (s.icache i).din.type
  dino : ∀ i, (t.dino i).type = (s.dino i).type
  file : t.file = s.file
  ofile : t.ofile = s.ofile
  cwd : t.cwd = s.cwd
  alive : t.alive = s.alive

theorem Mildly.trans {s t u : State} (h : Mildly s t) (h' : Mildly t u) : Mildly s u :=
  ⟨h'.grip.trans h.grip, fun i => (h'.valid i).trans (h.valid i),
    fun i => (h'.din i).trans (h.din i), fun i => (h'.dino i).trans (h.dino i),
    h'.file.trans h.file, h'.ofile.trans h.ofile, h'.cwd.trans h.cwd, h'.alive.trans h.alive⟩

/-- The parts that matter here are the same. -/
theorem Mildly.of_eq {s t : State} (hi : t.icache = s.icache) (hd : t.dino = s.dino)
    (hf : t.file = s.file) (ho : t.ofile = s.ofile) (hc : t.cwd = s.cwd) (ha : t.alive = s.alive) :
    Mildly s t :=
  ⟨funext fun i => by simp only [State.grip, hi], fun i => by rw [hi], fun i => by rw [hi], fun i => by rw [hd], hf,
    ho, hc, ha⟩

theorem Mildly.refl (s : State) : Mildly s s := .of_eq rfl rfl rfl rfl rfl rfl

/-- The copy of an inode changes, but not its type. -/
theorem Mildly.setCopy {s : State} {i : Inum} {d : Dinode} (h : d.type = (s.icache i).din.type) :
    Mildly s (s.setCopy i d) := by
  have hcopy : ∀ j, (s.setCopy i d).icache j =
      { s.icache j with din := if j = i then d else (s.icache j).din } := by
    intro j
    rcases eq_or_ne j i with rfl | hne
    · simp [State.setCopy, State.setInode]
    · simp [State.setCopy, State.setInode, hne]
  refine ⟨?_, fun j => by rw [hcopy], fun j => ?_, fun _ => rfl, rfl, rfl, rfl, rfl⟩
  · funext j
    simp only [State.grip, hcopy]
  · rw [hcopy]
    split
    · rename_i e
      rw [e]
      exact h
    · rfl

theorem Mildly.solid {s t : State} {i : Inum} (h : Mildly s t) (hs : s.Solid i) : t.Solid i := by
  unfold State.Solid
  rw [h.din, h.dino]
  exact hs

theorem Has.mildly {env own : Hold} {s₀ s t : State} (h : Has env s₀ own s) (hm : Mildly s t) :
    Has env s₀ own t where
  grip := hm.grip.trans h.grip
  sound := h.sound
  typed := by
    have hgrip : ∀ i, (t.icache i).ref = (s.icache i).ref ∧
        (t.icache i).busy.toNat = (s.icache i).busy.toNat := fun i =>
      Prod.ext_iff.mp (congrFun hm.grip i)
    refine ⟨fun i hr hv hb => hm.solid (h.typed.settled i ?_ ?_ ?_), fun i hi => ?_⟩
    · rwa [← (hgrip i).1]
    · rwa [← hm.valid i]
    · have := (hgrip i).2
      rw [hb] at this
      cases hbusy : (s.icache i).busy with
      | false => rfl
      | true =>
        rw [hbusy] at this
        cases this
    · obtain ⟨hv, hs⟩ := h.typed.mine i hi
      exact ⟨by rwa [hm.valid i], hm.solid hs⟩
  kept := h.kept.trans ⟨fun f => ⟨_, congrFun hm.file f⟩, hm.ofile, hm.cwd, hm.alive, fun i _ _ => hm.dino i,
    fun i _ hv hs => ⟨by rwa [hm.valid i], hm.solid hs⟩⟩

/-- Code after which only data has changed, if it returns. -/
def Mild {α : Type} (m : K α) : Prop :=
  ∀ s₀, m.Preserves (fun _ s => Mildly s₀ s) fun _ _ => True

/-- The same, where it starts with the inode `i` in the cache as it is on disk. -/
def MildOn {α : Type} (i : Inum) (m : K α) : Prop :=
  ∀ s₀, m.Preserves (fun _ s => Mildly s₀ s ∧ s.Solid i) fun _ _ => True

namespace Mild

variable {α β : Type} {m : K α}

theorem pure (a : α) : Mild (Pure.pure a : K α) := fun _ => .pure a

theorem gets (f : State → α) : Mild (Code.gets f) := fun _ => .gets f

theorem panic (e : Panic) : Mild (Code.panic e : K α) := fun _ => .panic fun _ _ _ => trivial

theorem panicIf (c : Prop) [Decidable c] (e : Panic) : Mild (Code.panicIf c e) :=
  fun _ => .panicIf fun _ _ _ => trivial

theorem modify {f : State → State} (h : ∀ s, Mildly s (f s)) : Mild (Code.modify f) :=
  fun _ => .modify fun _ s hs => hs.trans (h s)

theorem bind {f : α → K β} (hm : Mild m) (hf : ∀ a, Mild (f a)) : Mild (m >>= f) :=
  fun s => .bind (hm s) fun a => hf a s

theorem ite {c : Prop} [Decidable c] {m' : K α} (h : Mild m) (h' : Mild m') :
    Mild (if c then m else m') := fun s => .ite (h s) (h' s)

theorem when {c : Prop} [Decidable c] {m : K Unit} (h : Mild m) : Mild (Code.when c m) :=
  fun s => .when (h s)

theorem wp (h : Mild m) (p : Pid) (s : State) :
    m.wp (fun _ _ => True) (fun _ t => Mildly s t) p s := h s p s (.refl s)

theorem on (h : Mild m) (i : Inum) : MildOn i m := fun _ p s hs =>
  Code.wp_imp (h.wp p s) fun _ _ ht => ⟨hs.1.trans ht, ht.solid hs.2⟩

end Mild

namespace MildOn

variable {α β : Type} {m : K α} {i : Inum}

theorem bind {f : α → K β} (hm : MildOn i m) (hf : ∀ a, MildOn i (f a)) : MildOn i (m >>= f) :=
  fun s => .bind (hm s) fun a => hf a s

theorem ite {c : Prop} [Decidable c] {m' : K α} (h : MildOn i m) (h' : MildOn i m') :
    MildOn i (if c then m else m') := fun s => .ite (h s) (h' s)

theorem when {c : Prop} [Decidable c] {m : K Unit} (h : MildOn i m) : MildOn i (Code.when c m) :=
  fun s => .when (h s)

theorem wp (h : MildOn i m) (p : Pid) {s : State} (hs : s.Solid i) :
    m.wp (fun _ _ => True) (fun _ t => Mildly s t) p s :=
  Code.wp_imp (h s p s ⟨.refl s, hs⟩) fun _ _ ht => ht.1

end MildOn

theorem mild_logWrite (b : Sector) : Mild (logWrite b) :=
  .bind (fun _ => .self) fun _ => .bind (.gets _) fun _ =>
    .bind (.modify fun _ => .of_eq rfl rfl rfl rfl rfl rfl) fun _ => .bind (.gets _) fun _ =>
      .bind (.panicIf _ _) fun _ => .bind (.panicIf _ _) fun _ =>
        .modify fun _ => .of_eq rfl rfl rfl rfl rfl rfl

theorem mild_balloc (sb : Super) : Mild (balloc sb) := by
  refine .bind (.gets _) fun o => ?_
  cases o with
  | none => exact .panic _
  | some b =>
    exact .bind (.modify fun _ => .of_eq rfl rfl rfl rfl rfl rfl) fun _ =>
      .bind (mild_logWrite _) fun _ =>
        .bind (.bind (.modify fun _ => .of_eq rfl rfl rfl rfl rfl rfl) fun _ => mild_logWrite _)
          fun _ => .pure _

theorem mild_bfree (b : Nat) : Mild (bfree b) :=
  .bind (.gets _) fun _ => .ite
    (.bind (.modify fun _ => .of_eq rfl rfl rfl rfl rfl rfl) fun _ => mild_logWrite _) (.panic _)

theorem mild_setCopy (i : Inum) {f : Dinode → Dinode} (h : ∀ d, (f d).type = d.type) :
    Mild (setCopy i f) := .modify fun _ => .setCopy (h _)

theorem mildOn_setCopy {i j : Inum} {f : Dinode → Dinode} (h : ∀ d, (f d).type = d.type) :
    MildOn j (setCopy i f) := (mild_setCopy i h).on j

theorem mild_bmapSlot (sb : Super) (i : Inum) (n : Fin 13) : Mild (bmapSlot sb i n) :=
  .bind (.gets _) fun _ => .ite (.pure _) (.bind (mild_balloc sb) fun _ =>
    .bind (mild_setCopy i fun _ => rfl) fun _ => .pure _)

theorem mild_bmap (sb : Super) (i : Inum) (bn : Nat) : Mild (bmap sb i bn) := by
  unfold bmap
  split
  · exact mild_bmapSlot sb i _
  · refine .ite (.bind (mild_bmapSlot sb i 12) fun a => .bind (.gets _) fun x => ?_) (.panic _)
    exact .ite (.pure _) (.bind (mild_balloc sb) fun b =>
      .bind (.modify fun _ => .of_eq rfl rfl rfl rfl rfl rfl) fun _ =>
        .bind (mild_logWrite _) fun _ => .pure _)

theorem mild_readLoop (sb : Super) (i : Inum) :
    ∀ rounds off rem : Nat, Mild (readLoop sb i rounds off rem)
  | 0, _, _ => .pure _
  | rounds + 1, _, _ => .ite (.pure _) (.bind (mild_bmap sb i _) fun _ => .bind (.gets _) fun _ =>
      .bind (mild_readLoop sb i rounds _ _) fun _ => .pure _)

theorem mild_readi (sb : Super) (i : Inum) (off n : Nat) : Mild (readi sb i off n) :=
  .bind (.gets _) fun _ => .ite (.pure _) (.ite (.pure _)
    (.bind (mild_readLoop sb i _ _ _) fun _ => .pure _))

theorem mild_writeLoop (sb : Super) (i : Inum) :
    ∀ (rounds off : Nat) (src : List Byte), Mild (writeLoop sb i rounds off src)
  | 0, _, _ => .pure _
  | rounds + 1, _, _ => .ite (.pure _) (.bind (mild_bmap sb i _) fun _ =>
      .bind (.modify fun _ => .of_eq rfl rfl rfl rfl rfl rfl) fun _ =>
        .bind (mild_logWrite _) fun _ => mild_writeLoop sb i rounds _ _)

theorem mild_scan (sb : Super) (dp : Inum) (test : List Byte → Bool) (err : Panic) :
    ∀ offs : List Nat, Mild (scan sb dp test err offs)
  | [] => .pure _
  | off :: offs => by
    refine .bind (mild_readi sb dp off 16) fun r => ?_
    cases r with
    | none => exact .panic _
    | some de => exact .ite (.panic _) (.ite (.pure _) (mild_scan sb dp test err offs))

/-- The inode on disk becomes that in the cache, which has the same type. -/
theorem mild_iupdate (i : Inum) : MildOn i (iupdate i) := by
  rintro s₀ p s ⟨hm, hs⟩
  have hstep : Mildly s (s.setDino i (s.icache i).din) := by
    refine ⟨rfl, fun _ => rfl, fun _ => rfl, fun j => ?_, rfl, rfl, rfl, rfl⟩
    rcases eq_or_ne j i with rfl | hne
    · simp only [State.setDino, Function.update_self]
      exact hs.1
    · simp only [State.setDino, Function.update_of_ne hne]
  simp only [iupdate, Code.wp_bind, wp_copy, Code.wp_modify]
  exact Code.wp_imp ((mild_logWrite (iblock i)).wp p _) fun _ _ ht =>
    ⟨(hm.trans hstep).trans ht, ht.solid (hstep.solid hs)⟩

theorem mild_writei (sb : Super) (i : Inum) (src : List Byte) (off : Nat) :
    MildOn i (writei sb i src off) := by
  refine .bind ((Mild.gets _).on i) fun d => .ite ((Mild.pure _).on i) (.ite ((Mild.pure _).on i)
    (.ite ((Mild.pure _).on i) (.bind ((mild_writeLoop sb i _ _ _).on i) fun off' => ?_)))
  exact .bind (.when (.bind (mildOn_setCopy fun _ => rfl) fun _ => mild_iupdate i)) fun _ =>
    (Mild.pure _).on i

theorem mild_writeEntry (sb : Super) (dp : Inum) (de : List Byte) (off : Nat) (err : Panic) :
    MildOn dp (writeEntry sb dp de off err) :=
  .bind (mild_writei sb dp de off) fun _ => (Mild.panicIf _ _).on dp

theorem mild_itruncSlot (i : Inum) (n : Fin 13) : Mild (itruncSlot i n) :=
  .bind (.gets _) fun _ => .when (.bind (mild_bfree _) fun _ => mild_setCopy i fun _ => rfl)

theorem mild_itruncDirect (i : Inum) : ∀ ns : List (Fin 13), Mild (itruncDirect i ns).whole
  | [] => .pure _
  | n :: ns => fun s => Prog.preserves_whole_bind (Prog.preserves_whole_atomic (mild_itruncSlot i n s))
      fun _ => mild_itruncDirect i ns s

theorem mild_itruncIndirect (a : Block) : ∀ js : List Nat, Mild (itruncIndirect a js).whole
  | [] => .pure _
  | _ :: js => fun s => Prog.preserves_whole_bind
      (Prog.preserves_whole_atomic (Mild.when (mild_bfree _) s)) fun _ => mild_itruncIndirect a js s

theorem mild_itruncBlock (i : Inum) : Mild (itruncBlock i).whole := fun s =>
  Prog.preserves_whole_bind (Prog.preserves_whole_atomic (.gets _)) fun _ =>
    Prog.preserves_whole_when
      (Prog.preserves_whole_bind (Prog.preserves_whole_atomic (.gets _)) fun _ =>
        Prog.preserves_whole_bind (mild_itruncIndirect _ _ s) fun _ =>
          Prog.preserves_whole_atomic (mild_itruncSlot i 12 s))

/-- The end of `itrunc`. -/
theorem mild_itruncEnd (i : Inum) : MildOn i (do
    setCopy i fun d => { d with size := 0 }
    iupdate i) := .bind (mildOn_setCopy fun _ => rfl) fun _ => mild_iupdate i

theorem mild_itrunc (i : Inum) : MildOn i (itrunc i).whole := fun s =>
  Prog.preserves_whole_bind ((mild_itruncDirect i _).on i s) fun _ =>
    Prog.preserves_whole_bind ((mild_itruncBlock i).on i s) fun _ =>
      Prog.preserves_whole_atomic (mild_itruncEnd i s)

/-! ## 4. References and locks -/

section

variable {env own : Hold} {s₀ s t : State} {i : Inum} {p : Pid} {α β : Type} {sb : Super}

theorem grip_setInode (s : State) (i : Inum) (n : Inode) (u : Nat) :
    ({ s.setInode i n with inUse := u } : State).grip =
      Function.update s.grip i (n.ref, n.busy.toNat) := by
  funext j
  rcases eq_or_ne j i with rfl | hne
  · simp [State.grip, State.setInode]
  · simp [State.grip, State.setInode, hne]

/-- An entry is unlocked. -/
theorem grip_unlock {g : Hold} {n : Inode} (h : s.grip = g + oneLock i)
    (href : n.ref = (s.icache i).ref) (hbusy : n.busy = false) :
    Function.update s.grip i (n.ref, n.busy.toNat) = g := by
  have hfst := congrArg Prod.fst (congrFun h i)
  have hsnd := congrArg Prod.snd (congrFun h i)
  rw [add_oneLock_fst] at hfst
  rw [add_oneLock_snd_self] at hsnd
  simp only [State.grip] at hfst hsnd
  have hone := (s.icache i).busy.toNat_le
  have htotal : (n.ref, n.busy.toNat) = g i :=
    Prod.ext (by rw [href]; exact hfst) (by rw [hbusy]; show 0 = (g i).2; omega)
  rw [h, htotal]
  exact update_drop_single

/-- **The entry of one inode changes**, and the process now holds `own'`. -/
theorem Has.setInode {own' : Hold} {n : Inode} {u : Nat} (h : Has env s₀ own s)
    (hgrip : Function.update s.grip i (n.ref, n.busy.toNat) = env + own')
    (hsound : Sound (env + own')) (hsame : ∀ j, j ≠ i → (own' j).2 = (own j).2)
    (hsolid : n.valid = true → 0 < n.ref → n.busy = false ∨ 0 < (own' i).2 →
      n.din.type = (s.dino i).type ∧ (s.dino i).type ≠ .free)
    (hvalid : 0 < (own' i).2 ∨ (0 < (env i).1 ∧ (s.icache i).valid = true) → n.valid = true)
    (hdin : (s.icache i).valid = true → 0 < (env i).1 → n.din.type = (s.icache i).din.type) :
    Has env s₀ own' { s.setInode i n with inUse := u } := by
  have hself : ({ s.setInode i n with inUse := u } : State).icache i = n :=
    Function.update_self ..
  have hother : ∀ j, j ≠ i → ({ s.setInode i n with inUse := u } : State).icache j = s.icache j :=
    fun j hj => Function.update_of_ne hj ..
  have hrefs : ∀ j, 0 < (own' j).2 → 0 < (({ s.setInode i n with inUse := u } : State).icache j).ref := by
    intro j hj
    have htotal := congrArg Prod.fst (congrFun ((grip_setInode s i n u).trans hgrip) j)
    have hpos := hsound j
    simp only [State.grip, Pi.add_apply, Prod.fst_add, Prod.snd_add] at htotal hpos
    rw [htotal]
    exact hpos (by omega)
  refine ⟨(grip_setInode s i n u).trans hgrip, hsound, ⟨fun j hr hv hb => ?_, fun j hj => ?_⟩,
    h.kept.trans ⟨fun _ => ⟨_, rfl⟩, rfl, rfl, rfl, fun _ _ _ => rfl, fun j hj hv hs => ?_⟩⟩
  · rcases eq_or_ne j i with rfl | hne
    · rw [hself] at hr hv hb
      unfold State.Solid
      rw [hself]
      exact hsolid hv hr (.inl hb)
    · rw [hother j hne] at hr hv hb
      unfold State.Solid
      rw [hother j hne]
      exact h.typed.settled j hr hv hb
  · rcases eq_or_ne j i with rfl | hne
    · have hr := hrefs j hj
      have hv := hvalid (.inl hj)
      unfold State.Solid
      rw [hself] at hr ⊢
      exact ⟨hv, hsolid hv hr (.inr hj)⟩
    · unfold State.Solid
      rw [hother j hne]
      exact h.typed.mine j (by rwa [← hsame j hne])
  · rcases eq_or_ne j i with rfl | hne
    · unfold State.Solid
      rw [hself]
      exact ⟨hvalid (.inr ⟨hj, hv⟩), by rw [hdin hv hj]; exact hs⟩
    · unfold State.Solid
      rw [hother j hne]
      exact ⟨hv, hs⟩

/-- One more reference to an inode that has one. -/
theorem Has.addRef (h : Has env s₀ own s) (hr : 0 < (s.icache i).ref) :
    Has env s₀ (own + oneRef i)
      (s.setInode i { s.icache i with ref := (s.icache i).ref + 1 }) := by
  refine h.setInode (u := s.inUse) ?_ ?_ (fun j _ => add_oneRef_snd) (fun hv _ hb => ?_)
    (fun hb => ?_) fun _ _ => rfl
  · rw [← add_assoc, ← h.grip, oneRef, ← update_add_single]
    rfl
  · rw [← add_assoc]
    exact h.sound.addRef i
  · rw [add_oneRef_snd] at hb
    rcases hb with hb | hb
    · exact h.typed.settled i hr hv hb
    · exact (h.typed.mine i hb).2
  · rw [add_oneRef_snd] at hb
    rcases hb with hb | hb
    · exact (h.typed.mine i hb).1
    · exact hb.2

/-- **`iget`** gives a reference. -/
theorem wp_iget_has (h : Has env s₀ own s) : (iget i).wp (fun _ _ => True)
    (fun _ t => Has env s₀ (own + oneRef i) t ∧ t.dino = s.dino) p s := by
  simp only [iget, Code.wp_bind, Code.wp_gets, Code.wp_ite, Code.wp_modify, Code.wp_panicIf]
  refine ⟨fun hr => ⟨h.addRef hr, rfl⟩, fun hr => ⟨fun _ => trivial, fun _ => ⟨?_, rfl⟩⟩⟩
  -- nobody refers to it, so nobody has it locked
  have href := h.ref i
  have hbusy := h.busy i
  have hsound := h.sound i
  simp only [Pi.add_apply, Prod.fst_add, Prod.snd_add] at hsound
  refine h.setInode ?_ ?_ (fun j _ => add_oneRef_snd) (fun hv => by cases hv) (fun hb => ?_)
    fun _ hpos => by omega
  · have hzero : s.grip i = 0 := Prod.ext (by show (s.icache i).ref = 0; omega)
      (by show (s.icache i).busy.toNat = 0; omega)
    rw [← add_assoc, ← h.grip, oneRef, ← update_add_single, hzero, zero_add]
    rfl
  · rw [← add_assoc]
    exact h.sound.addRef i
  · rw [add_oneRef_snd] at hb
    omega

theorem wp_idup_has (h : Has env s₀ own s) (hr : 0 < (env i).1 + (own i).1) :
    (idup i).wp (fun _ _ => True) (fun _ t => Has env s₀ (own + oneRef i) t) p s :=
  h.addRef (by rw [h.ref]; exact hr)

/-- **`ilock`** gives the lock, once nobody has it. -/
theorem wp_ilock_has (h : Has env s₀ own s) : (ilock i).wp (fun _ _ => True)
    (fun _ t => Has env s₀ (own + oneLock i) t ∧ t.dino = s.dino) p s := by
  rw [wp_ilock]
  refine ⟨fun _ => trivial, fun hr hb => ?_⟩
  split
  · trivial
  rename_i hfree
  have hpos : 0 < (s.icache i).ref := by omega
  have hsolid : (s.inode i).type = (s.dino i).type ∧ (s.dino i).type ≠ .free := by
    unfold State.inode
    split
    · rename_i hv
      exact h.typed.settled i hpos hv hb
    · rename_i hv
      rw [Bool.not_eq_true] at hv
      exact ⟨rfl, fun e => hfree ⟨hv, e⟩⟩
  refine ⟨h.setInode (u := s.inUse) ?_ ?_ (fun j hne => add_oneLock_snd_of_ne hne)
    (fun _ _ _ => hsolid) (fun _ => rfl) fun hv _ => ?_, rfl⟩
  · have hgrip : s.grip i + (0, 1) = ((s.icache i).ref, 1) :=
      Prod.ext rfl (by show (s.icache i).busy.toNat + 1 = 1; rw [hb]; rfl)
    rw [← add_assoc, ← h.grip, oneLock, ← update_add_single, hgrip]
    rfl
  · rw [← add_assoc]
    exact h.sound.addLock (by
      have := h.ref i
      simp only [Pi.add_apply, Prod.fst_add]
      omega)
  · simp only [State.inode, hv, if_true]

/-- **`iunlock`** takes the lock away. -/
theorem wp_iunlock_has (h : Has env s₀ (own + oneLock i) s) : (iunlock i).wp (fun _ _ => True)
    (fun _ t => Has env s₀ own t ∧ t.dino = s.dino) p s := by
  simp only [iunlock, Code.wp_bind, Code.wp_gets, Code.wp_modify, Code.wp_panicIf]
  refine ⟨fun _ => trivial, fun _ => ⟨?_, rfl⟩⟩
  have hmine := h.typed.mine i (by rw [add_oneLock_snd_self]; omega)
  refine h.setInode (u := s.inUse) ?_ ?_ (fun j hne => (add_oneLock_snd_of_ne hne).symm)
    (fun _ _ _ => hmine.2) (fun _ => hmine.1) fun _ _ => rfl
  · exact grip_unlock (by rw [h.grip, add_assoc]) rfl rfl
  · have hsound := h.sound
    rw [← add_assoc] at hsound
    exact hsound.dropLock

/-! `iput`: the test, the freeing, and the end. -/

/-- The lock of an inode is taken that nobody has locked, in the cache as it is on disk. -/
theorem Has.addLock (h : Has env s₀ own s) (hr : 0 < (s.icache i).ref)
    (hv : (s.icache i).valid = true) (hb : (s.icache i).busy = false) :
    Has env s₀ (own + oneLock i) (s.setInode i { s.icache i with busy := true }) := by
  refine h.setInode (u := s.inUse) ?_ ?_ (fun j hne => add_oneLock_snd_of_ne hne)
    (fun _ _ _ => h.typed.settled i hr hv hb) (fun _ => hv) fun _ _ => rfl
  · have hgrip : s.grip i + (0, 1) = ((s.icache i).ref, 1) :=
      Prod.ext rfl (by show (s.icache i).busy.toNat + 1 = 1; rw [hb]; rfl)
    rw [← add_assoc, ← h.grip, oneLock, ← update_add_single, hgrip]
    rfl
  · rw [← add_assoc]
    exact h.sound.addLock (by
      have := h.ref i
      simp only [Pi.add_apply, Prod.fst_add]
      omega)

/-- The test at the head of `iput`: the inode is locked if this is the last reference. -/
theorem wp_iputTest_has (h : Has env s₀ own s) : (iputTest i).wp (fun _ _ => True)
    (fun last t => if last = true then s.LastPut i ∧ Has env s₀ (own + oneLock i) t
      else t = s) p s := by
  simp only [iputTest, Code.wp_bind, Code.wp_gets, Code.wp_ite, Code.wp_panicIf, Code.wp_modify,
    Code.wp_pure]
  refine ⟨fun hlast => ⟨fun _ => trivial, fun hb => ?_⟩, fun _ => by simp⟩
  rw [if_pos trivial]
  exact ⟨hlast, h.addLock (by omega) hlast.2.1 (by simpa using hb)⟩

/-- Everything is as in `Mildly`, but for the type of the inode `i`. -/
structure MildlyBut (i : Inum) (s t : State) : Prop where
  grip : t.grip = s.grip
  valid : ∀ j, j ≠ i → (t.icache j).valid = (s.icache j).valid
  din : ∀ j, j ≠ i → (t.icache j).din.type = (s.icache j).din.type
  dino : ∀ j, j ≠ i → (t.dino j).type = (s.dino j).type
  file : t.file = s.file
  ofile : t.ofile = s.ofile
  cwd : t.cwd = s.cwd
  alive : t.alive = s.alive

theorem MildlyBut.solid {j : Inum} (h : MildlyBut i s t) (hne : j ≠ i) (hs : s.Solid j) :
    t.Solid j := by
  unfold State.Solid
  rw [h.din j hne, h.dino j hne]
  exact hs

theorem MildlyBut.trans {u : State} (h : MildlyBut i s t) (h' : Mildly t u) : MildlyBut i s u :=
  ⟨h'.grip.trans h.grip, fun j hne => (h'.valid j).trans (h.valid j hne),
    fun j hne => (h'.din j).trans (h.din j hne), fun j hne => (h'.dino j).trans (h.dino j hne),
    h'.file.trans h.file, h'.ofile.trans h.ofile, h'.cwd.trans h.cwd, h'.alive.trans h.alive⟩

/-- The copy of an inode changes and is written to disk. -/
theorem wp_rewrite {f : Dinode → Dinode} : (do
    setCopy i f
    iupdate i : K Unit).wp (fun _ _ => True) (fun _ t => MildlyBut i s t) p s := by
  have hfirst : MildlyBut i s ((s.setCopy i (f (s.icache i).din)).setDino i (f (s.icache i).din)) := by
    refine ⟨?_, fun j hne => ?_, fun j hne => ?_, fun j hne => ?_, rfl, rfl, rfl, rfl⟩
    · funext j
      rcases eq_or_ne j i with rfl | hne
      · simp [State.grip, State.setDino, State.setCopy, State.setInode]
      · simp [State.grip, State.setDino, State.setCopy, State.setInode, hne]
    all_goals simp [State.setDino, State.setCopy, State.setInode, hne]
  simp only [Code.wp_bind, setCopy, Code.wp_modify, iupdate, wp_copy]
  refine Code.wp_imp ((mild_logWrite (iblock i)).wp p _) fun _ t ht => ?_
  have hcopy : ((s.setCopy i (f (s.icache i).din)).icache i).din = f (s.icache i).din := by
    simp [State.setCopy, State.setInode]
  rw [hcopy] at ht
  exact hfirst.trans ht

/-- An inode to which nobody else refers has been cleared, and its entry is left empty. -/
theorem Has.cleared (h : Has env s₀ (own + oneLock i) s) (henv : (env i).1 = 0)
    (hm : MildlyBut i s t) :
    Has env s₀ own (t.setInode i { t.icache i with busy := false, valid := false }) := by
  have hother : ∀ j, j ≠ i → (t.setInode i { t.icache i with busy := false, valid := false }).icache j =
      t.icache j := fun j hj => Function.update_of_ne hj ..
  have hself : (t.setInode i { t.icache i with busy := false, valid := false }).icache i =
      { t.icache i with busy := false, valid := false } := Function.update_self ..
  have hgrip : ∀ j, (t.icache j).ref = (s.icache j).ref ∧
      (t.icache j).busy.toNat = (s.icache j).busy.toNat := fun j =>
    Prod.ext_iff.mp (congrFun hm.grip j)
  refine ⟨?_, ?_, ⟨fun j hr hv hb => ?_, fun j hj => ?_⟩,
    h.kept.trans ⟨fun f => ⟨_, congrFun hm.file f⟩, hm.ofile, hm.cwd, hm.alive, fun j hj _ => ?_,
      fun j hj hv hs => ?_⟩⟩
  · exact (grip_setInode t i _ t.inUse).trans
      (grip_unlock (by rw [hm.grip, h.grip, add_assoc]) rfl rfl)
  · have hsound := h.sound
    rw [← add_assoc] at hsound
    exact hsound.dropLock
  · have hne : j ≠ i := by
      rintro rfl
      rw [hself] at hv
      cases hv
    rw [hother j hne] at hr hv hb
    have hb' : (s.icache j).busy = false := by
      have htwo := (hgrip j).2
      rw [hb] at htwo
      cases hs : (s.icache j).busy with
      | false => rfl
      | true =>
        rw [hs] at htwo
        cases htwo
    unfold State.Solid
    rw [hother j hne]
    exact hm.solid hne (h.typed.settled j (by rwa [← (hgrip j).1])
      (by rwa [← hm.valid j hne]) hb')
  · have hne : j ≠ i := by
      rintro rfl
      have hbusy := h.busy j
      rw [add_oneLock_snd_self] at hbusy
      have hone := (s.icache j).busy.toNat_le
      omega
    obtain ⟨hv, hs⟩ := h.typed.mine j (by rwa [add_oneLock_snd_of_ne hne])
    unfold State.Solid
    rw [hother j hne]
    exact ⟨by rwa [hm.valid j hne], hm.solid hne hs⟩
  · exact hm.dino j (by rintro rfl; omega)
  · have hne : j ≠ i := by
      rintro rfl
      omega
    unfold State.Solid
    rw [hother j hne]
    exact ⟨by rwa [hm.valid j hne], hm.solid hne hs⟩

/-- `ip->ref--`. -/
theorem Has.dropRef (h : Has env s₀ (own + oneRef i) s) (hsound : Sound (env + own)) (u : Nat) :
    Has env s₀ own
      { s.setInode i { s.icache i with ref := (s.icache i).ref - 1 } with inUse := u } := by
  have href := h.ref i
  rw [add_oneRef_fst_self] at href
  refine h.setInode ?_ hsound (fun j _ => add_oneRef_snd.symm) (fun hv _ hb => ?_) (fun hb => ?_)
    fun _ _ => rfl
  · have htotal : ((s.icache i).ref - 1, (s.icache i).busy.toNat) = (env + own) i :=
      Prod.ext (by simp only [Pi.add_apply, Prod.fst_add]; omega) (by
        have := h.busy i
        rw [add_oneRef_snd] at this
        exact this)
    rw [h.grip, htotal, ← add_assoc]
    exact update_drop_single
  · rcases hb with hb | hb
    · exact h.typed.settled i (by omega) hv hb
    · exact (h.typed.mine i (by rwa [add_oneRef_snd])).2
  · rcases hb with hb | hb
    · exact (h.typed.mine i (by rwa [add_oneRef_snd])).1
    · exact hb.2

/-- **`iput`** takes a reference away; if it is the last one the inode may be freed, and then nobody
else refers to it. -/
theorem wp_iput_has (h : Has env s₀ (own + oneRef i) s) (hsound : Sound (env + own)) :
    (iput i).whole.wp (fun _ _ => True) (fun _ t => Has env s₀ own t) p s := by
  unfold iput
  rw [Prog.wp_whole_bind, Prog.wp_whole_atomic]
  refine Code.wp_imp (wp_iputTest_has h) fun last t hlast => ?_
  rw [Prog.wp_whole_bind]
  have hend : ∀ u, Has env s₀ (own + oneRef i) u →
      (Prog.atomic .other (iputDrop i) : P Unit).whole.wp (fun _ _ => True)
        (fun _ t => Has env s₀ own t) p u := fun u hu => by
    rw [Prog.wp_whole_atomic]
    exact hu.dropRef hsound _
  cases last with
  | false =>
    rw [if_neg (by decide)] at hlast
    subst hlast
    exact hend t h
  | true =>
    rw [if_pos rfl] at hlast
    obtain ⟨hput, hlock⟩ := hlast
    have henv : (env i).1 = 0 := by
      have href := h.ref i
      rw [add_oneRef_fst_self, hput.1] at href
      omega
    have hsolid := (hlock.typed.mine i (by rw [add_oneLock_snd_self]; omega)).2
    show (Prog.whole _).wp _ _ p t
    rw [Prog.when, if_pos rfl, Prog.wp_whole_bind]
    refine Code.wp_imp ((mild_itrunc i).wp p hsolid) fun _ t₁ ht₁ => ?_
    rw [Prog.wp_whole_bind, Prog.wp_whole_atomic]
    refine Code.wp_imp wp_rewrite fun _ t₂ ht₂ => ?_
    rw [Prog.wp_whole_atomic]
    exact hend _ ((hlock.mildly ht₁).cleared henv ht₂)

theorem wp_iunlockput_has (h : Has env s₀ (own + oneRef i + oneLock i) s)
    (hsound : Sound (env + own)) :
    (iunlockput i).wp (fun _ _ => True) (fun _ t => Has env s₀ own t) p s := by
  rw [iunlockput, Code.wp_bind]
  exact Code.wp_imp (wp_iunlock_has h) fun _ _ ht => wp_iput_has ht.1 hsound

/-! ## 5. Directories and paths -/

/-- The reference that comes with a result. -/
def refTo {β : Type} : Option (Inum × β) → Hold
  | none => 0
  | some (i, _) => oneRef i

/-- The reference that comes with the end of a round of `namex`. -/
def Look.hold : Look → Hold
  | .fail | .stop => 0
  | .next i => oneRef i

theorem wp_dirlookup_has {dp : Inum} {name : List Byte} (h : Has env s₀ own s) :
    (dirlookup sb dp name).wp (fun _ _ => True)
      (fun r t => Has env s₀ (own + refTo r) t ∧ ∀ i, (t.dino i).type = (s.dino i).type) p s := by
  simp only [dirlookup, Code.wp_bind, wp_copy, Code.wp_panicIf]
  refine ⟨fun _ => trivial, fun _ => ?_⟩
  refine Code.wp_imp ((mild_scan sb dp _ _ _).wp p s) fun r t ht => ?_
  cases r with
  | none => exact ⟨by simpa [refTo] using h.mildly ht, ht.dino⟩
  | some e =>
    rw [Code.wp_bind]
    refine Code.wp_imp (wp_iget_has (h.mildly ht)) fun _ u hu => ⟨hu.1, fun i => ?_⟩
    rw [hu.2]
    exact ht.dino i

/-- One round of a path lookup. -/
theorem wp_lookup_has {ip : Inum} {name : List Byte} {last : Bool} (h : Has env s₀ own s) :
    (lookup sb ip name last).wp (fun _ _ => True)
      (fun r t => Has env s₀ (own + r.hold) t) p s := by
  have hunlock : ∀ (r : Look) (o : Hold) (t : State), Has env s₀ (o + oneLock ip) t →
      o = own + r.hold → (do
        iunlock ip
        pure r : K Look).wp (fun _ _ => True) (fun r t => Has env s₀ (own + r.hold) t) p t := by
    rintro r o t ht rfl
    rw [Code.wp_bind]
    exact Code.wp_imp (wp_iunlock_has ht) fun _ _ hu => hu.1
  rw [lookup, Code.wp_bind]
  refine Code.wp_imp (wp_ilock_has h) fun _ t ht => ?_
  rw [Code.wp_bind, wp_copy, Code.wp_ite]
  refine ⟨fun _ => hunlock .fail own t ht.1 (add_zero own).symm, fun _ => ?_⟩
  rw [Code.wp_ite]
  refine ⟨fun _ => hunlock .stop own t ht.1 (add_zero own).symm, fun _ => ?_⟩
  rw [Code.wp_bind]
  refine Code.wp_imp (wp_dirlookup_has ht.1) fun r u hu => ?_
  cases r with
  | none =>
    rw [refTo, add_zero] at hu
    exact hunlock .fail own u hu.1 (add_zero own).symm
  | some e =>
    rw [refTo, add_right_comm] at hu
    exact hunlock (.next e.1) (own + oneRef e.1) u hu.1 rfl

theorem wp_namexEnd_has {parent : Bool} {ip : Inum} (h : Has env s₀ (own + oneRef ip) s)
    (hsound : Sound (env + own)) : (namexLoop.namexEnd parent ip).whole.wp (fun _ _ => True)
      (fun r t => Has env s₀ (own + refTo r) t) p s := by
  unfold namexLoop.namexEnd
  cases parent with
  | false => exact h
  | true =>
    rw [if_pos rfl, Prog.wp_whole_bind]
    exact Code.wp_imp (wp_iput_has h hsound) fun _ t ht => by simpa [refTo] using ht

theorem wp_namexLoop_has {parent : Bool} {rounds : Nat} {ip : Inum} {path : List Byte}
    (h : Has env s₀ (own + oneRef ip) s) (hsound : Sound (env + own)) :
    (namexLoop sb parent rounds ip path).whole.wp (fun _ _ => True)
      (fun r t => Has env s₀ (own + refTo r) t) p s := by
  induction rounds generalizing ip path s with
  | zero => exact wp_namexEnd_has h hsound
  | succ rounds ih =>
    unfold namexLoop
    split
    · exact wp_namexEnd_has h hsound
    rename_i name rest _
    rw [Prog.wp_whole_bind, Prog.wp_whole_atomic]
    refine Code.wp_imp (wp_lookup_has h) fun r t ht => ?_
    cases r with
    | fail =>
      rw [Look.hold, add_zero] at ht
      rw [Prog.wp_whole_bind]
      exact Code.wp_imp (wp_iput_has ht hsound) fun _ u hu => by simpa [refTo] using hu
    | stop =>
      rw [Look.hold, add_zero] at ht
      exact ht
    | next j =>
      rw [Look.hold, add_right_comm] at ht
      rw [Prog.wp_whole_bind]
      refine Code.wp_imp (wp_iput_has ht ?_) fun _ u hu => ih hu
      rw [← add_assoc]
      exact hsound.addRef j

/-- **A path lookup** returns with a reference to what it returns, and with nothing else. -/
theorem wp_namex_has {path : List Byte} {parent : Bool} (h : Has env s₀ own s)
    (hcwd : 0 < (env (s.cwd p)).1 + (own (s.cwd p)).1) :
    (namex sb path parent).whole.wp (fun _ _ => True)
      (fun r t => Has env s₀ (own + refTo r) t) p s := by
  unfold namex
  rw [Prog.wp_whole_bind, Prog.wp_whole_atomic]
  split
  · rw [Code.wp_bind]
    exact Code.wp_imp (wp_iget_has h) fun _ t ht => wp_namexLoop_has ht.1 h.sound
  · simp only [Code.wp_bind, Code.wp_self, Code.wp_gets, Code.wp_pure]
    exact Code.wp_imp (wp_idup_has h hcwd) fun _ t ht => wp_namexLoop_has ht h.sound

/-- **`dirlink`** gives back what it took. -/
theorem wp_dirlink_has {dp inum : Inum} {name : List Byte} (h : Has env s₀ own s)
    (hlock : 0 < (own dp).2) :
    (dirlink sb dp name inum).wp (fun _ _ => True) (fun _ t => Has env s₀ own t) p s := by
  rw [dirlink, Code.wp_bind]
  refine Code.wp_imp (wp_dirlookup_has h) fun r t ht => ?_
  cases r with
  | some e =>
    rw [Code.wp_bind]
    exact Code.wp_imp (wp_iput_has ht.1 h.sound) fun _ _ hu => hu
  | none =>
    have hown : Has env s₀ own t := by simpa [refTo] using ht.1
    simp only [Code.wp_bind, wp_copy, Code.wp_pure]
    refine Code.wp_imp ((mild_scan sb dp _ _ _).wp p t) fun hole u hu => ?_
    have hown' := hown.mildly hu
    exact Code.wp_imp ((mild_writeEntry sb dp _ _ _).wp p (hown'.typed.mine dp hlock).2)
      fun _ _ hv => hown'.mildly hv

/-- **`ialloc`** gives a reference to an inode of the type asked for. -/
theorem wp_ialloc_has {type : FileType} (h : Has env s₀ own s) :
    (ialloc sb type).wp (fun _ _ => True)
      (fun i t => Has env s₀ (own + oneRef i) t ∧ (t.dino i).type = type) p s := by
  simp only [ialloc, Code.wp_bind, Code.wp_gets]
  cases hfree : s.freeInode sb with
  | none => exact trivial
  | some i =>
    have hold : (s.dino i).type = .free := by
      have := List.find?_some hfree
      simpa using this
    simp only [Code.wp_bind, Code.wp_modify, Code.wp_pure]
    -- nobody has found it to have a type
    have hnot : ¬s.Solid i := fun hs => hs.2 hold
    have hother : ∀ j, j ≠ i → (s.setDino i { Dinode.zero with type := type }).dino j = s.dino j :=
      fun j hj => Function.update_of_ne hj ..
    have hset : Has env s₀ own (s.setDino i { Dinode.zero with type := type }) := by
      refine ⟨h.grip, h.sound, ⟨fun j hr hv hb => ?_, fun j hj => ?_⟩,
        h.kept.trans ⟨fun _ => ⟨_, rfl⟩, rfl, rfl, rfl, fun j hj ht => ?_,
          fun j hj hv hs => ⟨hv, ?_⟩⟩⟩
      · have hs := h.typed.settled j hr hv hb
        unfold State.Solid
        rw [hother j (by rintro rfl; exact hnot hs)]
        exact hs
      · obtain ⟨hv, hs⟩ := h.typed.mine j hj
        unfold State.Solid
        rw [hother j (by rintro rfl; exact hnot hs)]
        exact ⟨hv, hs⟩
      · rw [hother j (by rintro rfl; exact ht hold)]
      · unfold State.Solid
        rw [hother j (by rintro rfl; exact hnot hs)]
        exact hs
    refine Code.wp_imp ((mild_logWrite _).wp p _) fun _ t ht => ?_
    refine Code.wp_imp (wp_iget_has (hset.mildly ht)) fun _ u hu => ⟨hu.1, ?_⟩
    rw [hu.2, ht.dino]
    simp [State.setDino]

/-! ## 6. The code of transactions -/

/-- A field of a locked inode is changed, and the inode written to disk. -/
theorem wp_writeInode_has {f : Dinode → Dinode} {rest : K α} {Q : α → State → Prop}
    (h : Has env s₀ own s) (hlock : 0 < (own i).2) (hf : ∀ d, (f d).type = d.type)
    (hrest : ∀ t, Has env s₀ own t → rest.wp (fun _ _ => True) Q p t) :
    (do
      setCopy i f
      iupdate i
      rest : K α).wp (fun _ _ => True) Q p s := by
  rw [Code.wp_bind]
  refine Code.wp_imp ((mild_setCopy i hf).wp p s) fun _ t ht => ?_
  have h₁ := h.mildly ht
  rw [Code.wp_bind]
  exact Code.wp_imp ((mild_iupdate i).wp p (h₁.typed.mine i hlock).2) fun _ u hu =>
    hrest u (h₁.mildly hu)

theorem lock_pos : 0 < ((own + oneLock i) i).2 := by
  rw [add_oneLock_snd_self]
  omega

/-- **`create`, for a name that is not there**: the new inode, locked. -/
theorem wp_createNew_has {dp : Inum} {name : List Byte} {type : FileType} {major minor : BitVec 16}
    (htype : type ≠ .free) (h : Has env s₀ (own + oneRef dp + oneLock dp) s)
    (hsound : Sound (env + own)) :
    (createNew sb dp name type major minor).wp (fun _ _ => True)
      (fun ip t => Has env s₀ (own + oneRef ip + oneLock ip) t ∧ (t.dino ip).type = type) p s := by
  rw [createNew, Code.wp_bind]
  refine Code.wp_imp (wp_ialloc_has h) fun ip t₀ ht₀ => ?_
  -- the reference is lent to the others, who then keep the type of the inode
  have hlent := ht₀.1.lend
  have hdone : ∀ t, Has (env + oneRef ip) t₀ (own + oneLock ip) t →
      Has env s₀ (own + oneRef ip + oneLock ip) t ∧ (t.dino ip).type = type := by
    intro t ht
    have hback := ht₀.1.back ht
    rw [add_right_comm] at hback
    have hkept := ht.kept.type ip (by rw [add_oneRef_fst_self]; omega) (by rw [ht₀.2]; exact htype)
    exact ⟨hback, hkept.trans ht₀.2⟩
  have hown : own + oneRef dp + oneLock dp + oneLock ip =
      own + oneLock ip + oneRef dp + oneLock dp := by abel
  have hlockDp : 0 < ((own + oneRef dp + oneLock dp + oneLock ip) dp).2 := by
    rw [hown]
    exact lock_pos
  have hsound' : Sound (env + oneRef ip + (own + oneLock ip)) := by
    have hboth := hsound.withBoth ip
    rwa [show env + (own + oneRef ip + oneLock ip) = env + oneRef ip + (own + oneLock ip) by abel]
      at hboth
  rw [Code.wp_bind]
  refine Code.wp_imp (wp_ilock_has hlent) fun _ t₁ ht₁ => ?_
  refine wp_writeInode_has ht₁.1 lock_pos (fun _ => rfl) fun t₂ ht₂ => ?_
  have hrest : ∀ t, Has (env + oneRef ip) t₀ (own + oneRef dp + oneLock dp + oneLock ip) t →
      (do
        let ok ← dirlink sb dp name ip
        Code.panicIf (ok = false) .createDirlink
        iunlockput dp
        pure ip : K Inum).wp (fun _ _ => True)
        (fun ip t => Has env s₀ (own + oneRef ip + oneLock ip) t ∧ (t.dino ip).type = type) p t := by
    intro t ht
    rw [Code.wp_bind]
    refine Code.wp_imp (wp_dirlink_has ht hlockDp) fun ok u hu => ?_
    rw [Code.wp_bind, Code.wp_panicIf]
    refine ⟨fun _ => trivial, fun _ => ?_⟩
    rw [hown] at hu
    rw [Code.wp_bind]
    exact Code.wp_imp (wp_iunlockput_has hu hsound') fun _ v hv => hdone v hv
  rw [Code.wp_bind, Code.wp_when]
  refine ⟨fun _ => ?_, fun _ => hrest t₂ ht₂⟩
  refine wp_writeInode_has ht₂ hlockDp (fun _ => rfl) fun t₃ ht₃ => ?_
  rw [Code.wp_bind]
  refine Code.wp_imp (wp_dirlink_has ht₃ lock_pos) fun ok t₄ ht₄ => ?_
  rw [Code.wp_bind, Code.wp_panicIf]
  refine ⟨fun _ => trivial, fun _ => ?_⟩
  rw [Code.wp_bind]
  refine Code.wp_imp (wp_dirlink_has ht₄ lock_pos) fun ok' t₅ ht₅ => ?_
  rw [Code.wp_panicIf]
  exact ⟨fun _ => trivial, fun _ => hrest t₅ ht₅⟩

/-- **`create`**: nothing, or an inode of the type asked for, referred to and locked. -/
theorem wp_create_has {path : List Byte} {type : FileType} {major minor : BitVec 16}
    (htype : type ≠ .free) (h : Has env s₀ own s)
    (hcwd : 0 < (env (s.cwd p)).1 + (own (s.cwd p)).1) :
    (create sb path type major minor).wp (fun _ _ => True)
      (fun r t => match r with
        | none => Has env s₀ own t
        | some ip => Has env s₀ (own + oneRef ip + oneLock ip) t ∧ (t.dino ip).type = type) p s := by
  rw [create, Code.wp_bind]
  refine Code.wp_imp (wp_namex_has h hcwd) fun r t ht => ?_
  cases r with
  | none =>
    rw [refTo, add_zero] at ht
    exact ht
  | some e =>
    obtain ⟨dp, name⟩ := e
    rw [refTo] at ht
    rw [Code.wp_bind]
    refine Code.wp_imp (wp_ilock_has ht) fun _ t₁ ht₁ => ?_
    rw [Code.wp_bind]
    refine Code.wp_imp (wp_dirlookup_has ht₁.1) fun r t₂ ht₂ => ?_
    cases r with
    | none =>
      rw [refTo, add_zero] at ht₂
      rw [Code.wp_bind]
      exact Code.wp_imp (wp_createNew_has htype ht₂.1 h.sound) fun ip t₃ ht₃ => ht₃
    | some e =>
      obtain ⟨ip, off⟩ := e
      have hswap : own + oneRef dp + oneLock dp + oneRef ip =
          own + oneRef ip + oneRef dp + oneLock dp := by abel
      rw [refTo, hswap] at ht₂
      rw [Code.wp_bind]
      refine Code.wp_imp (wp_iunlockput_has ht₂.1 (h.sound.withRef ip)) fun _ t₃ ht₃ => ?_
      rw [Code.wp_bind]
      refine Code.wp_imp (wp_ilock_has ht₃) fun _ t₄ ht₄ => ?_
      rw [Code.wp_bind, wp_copy, Code.wp_ite]
      refine ⟨fun hfile => ⟨ht₄.1, ?_⟩, fun _ => ?_⟩
      · rw [← (ht₄.1.typed.mine ip lock_pos).2.1, hfile.2, hfile.1]
      · rw [Code.wp_bind]
        exact Code.wp_imp (wp_iunlockput_has ht₄.1 h.sound) fun _ t₅ ht₅ => ht₅

/-- `writei` changes no file. -/
theorem wp_writei_file {src : List Byte} {off : Nat} :
    (writei sb i src off).wp (fun _ _ => True) (fun _ t => t.file = s.file) p s := by
  simp only [writei, Code.wp_bind, wp_copy, Code.wp_ite, Code.wp_pure, Code.wp_when]
  refine ⟨fun _ => trivial, fun _ => ⟨fun _ => trivial, fun _ => ⟨fun _ => trivial, fun _ => ?_⟩⟩⟩
  refine Code.wp_imp ((mild_writeLoop sb i _ off src).wp p s) fun off' t ht =>
    ⟨fun _ => ?_, fun _ => ht.file⟩
  have hrewrite := wp_rewrite (s := t) (i := i) (p := p) (f := fun d => { d with size := off' })
  rw [Code.wp_bind] at hrewrite
  exact Code.wp_imp hrewrite fun _ u hu => Code.wp_imp hu fun _ v hv => hv.file.trans ht.file

/-- What one round of `filewrite` does to the files. -/
theorem wp_fwriteInode_file {f : FileId} {ip : Inum} {src : List Byte} :
    (fwriteInode sb f ip src).wp (fun _ _ => True) (fun r t =>
      t.file = (s.setFile f { s.file f with off := (s.file f).off + r.getD 0 }).file) p s := by
  rw [fwriteInode, Code.wp_bind]
  refine wp_ilock.mpr ⟨fun _ => trivial, fun _ _ => ?_⟩
  split
  · trivial
  rw [Code.wp_bind, Code.wp_gets, Code.wp_bind]
  refine Code.wp_imp wp_writei_file fun r t ht => ?_
  simp only [Code.wp_bind, advance, Code.wp_modify, iunlock, Code.wp_gets, Code.wp_panicIf,
    Code.wp_pure]
  refine ⟨fun _ => trivial, fun _ => ?_⟩
  have hfile : t.file = s.file := ht
  simp only [State.setInode, State.setFile, hfile]

theorem mild_begin : Mild (do
    Code.await fun s => s.owner.isNone
    let p ← Code.self
    Code.modify fun s => { s with owner := some p } : K Unit) :=
  .bind (fun _ => .await _) fun _ => .bind (fun _ => .self) fun _ =>
    .modify fun _ => .of_eq rfl rfl rfl rfl rfl rfl

theorem mild_commit : Mild (Code.modify fun s => { s with owner := none, sectors := [] } : K Unit) :=
  .modify fun _ => .of_eq rfl rfl rfl rfl rfl rfl

/-- A transaction, with nobody in between. -/
theorem wp_transaction_has {l : Label} {body : K α} (post : α → Hold) (Q : α → State → Prop)
    (h : Has env s₀ own s)
    (hbody : ∀ t, Has env s₀ own t → t.cwd = s.cwd →
      body.wp (fun _ _ => True) (fun a u => Has env s₀ (post a) u ∧ Q a u) p t)
    (hQ : ∀ a t u, Mildly t u → Q a t → Q a u) :
    (transaction l body).whole.wp (fun _ _ => True)
      (fun a u => Has env s₀ (post a) u ∧ Q a u) p s := by
  unfold transaction
  rw [Prog.wp_whole_bind, beginTrans, Prog.wp_whole_atomic]
  refine Code.wp_imp (mild_begin.wp p s) fun _ t ht => ?_
  rw [Prog.wp_whole_bind, Prog.wp_whole_atomic]
  refine Code.wp_imp (hbody t (h.mildly ht) ht.cwd) fun a u hu => ?_
  rw [Prog.wp_whole_bind, commitTrans, Prog.wp_whole_atomic]
  exact Code.wp_imp (mild_commit.wp p u) fun _ v hv => ⟨hu.1.mildly hv, hQ a u v hv hu.2⟩

/-! ## 7. The tables of files and descriptors -/

/-- `filealloc` finds a file that nobody refers to, if there is one. -/
theorem wp_filealloc {E : Panic → State → Prop} {Q : Option FileId → State → Prop}
    (hnone : Q none s)
    (hsome : ∀ f, (s.file f).ref = 0 → Q (some f) (s.setFile f { s.file f with ref := 1 })) :
    filealloc.wp E Q p s := by
  simp only [filealloc, Code.wp_bind, Code.wp_gets]
  cases hfind : (List.finRange 100).find? fun f => (s.file f).ref = 0 with
  | none => exact hnone
  | some f => exact hsome f (by simpa using List.find?_some hfind)

theorem wp_fdalloc {E : Panic → State → Prop} {f : FileId} {Q : Option Fd → State → Prop} (hnone : Q none s)
    (hsome : ∀ fd, s.ofile p fd = none → Q (some fd) (s.setOfile p fd (some f))) :
    (fdalloc f).wp E Q p s := by
  simp only [fdalloc, Code.wp_bind, Code.wp_self, Code.wp_gets]
  cases hfind : (List.finRange 16).find? fun fd => (s.ofile p fd).isNone with
  | none => exact hnone
  | some fd => exact hsome fd (by simpa using List.find?_some hfind)

end

end Xv6.Fs
