/-
# Whole address spaces: `setupkvm`, `freevm`, `copyuvm` (vm.c)

`setupkvm` makes a directory and maps the kernel in it, `freevm` gives back a directory with all its
tables and user pages, and `copyuvm` makes a copy of a process's pages in a new directory.

`freevm` gives back what is IN the directory, no more.  What a function has taken and not yet mapped
when it fails is lost; and `setupkvm`, when it fails half way, does not call `freevm` at all.
-/
import Xv6.Vm.Grow

namespace Xv6.Vm

open Xv6.Bytes Xv6.Threads Xv6.Threads.Code

/-! ## 1. `freevm` -/

/-- The frames `S` are given back. -/
structure Gives (l : Layout) (S : Nat → Prop) (m : Mem) (own : Nat → Owner) (m' : Mem)
    (own' : Nat → Owner) : Prop where
  wf : Wf l m' own'
  freed : ∀ f, S f → own' f = .free
  keep : ∀ f, ¬S f → own' f = own f
  page : ∀ f, ¬S f → m'.page f = m.page f
  denied : m'.denied = m.denied

/-- The directory `d` is gone, with its tables and its pages. -/
structure Freed (l : Layout) (d : Nat) (m : Mem) (own : Nat → Owner) (m' : Mem)
    (own' : Nat → Owner) : Prop where
  wf : Wf l m' own'
  freed : ∀ f, Part d (fun _ => True) f (own f) → own' f = .free
  keep : ∀ f, ¬Part d (fun _ => True) f (own f) → own' f = own f
  data : ∀ f, (own f).IsData → ¬Part d (fun _ => True) f (own f) → m'.page f = m.page f
  pte : ∀ d' u, own d' = .dir → d' ≠ d → m'.pteOf d' u = m.pteOf d' u
  denied : m'.denied = m.denied

section

variable {l : Layout} {m m' m'' : Mem} {own own' own'' : Nat → Owner} {d f v : Nat}
  {P : Nat → Prop} {S T : Nat → Prop}

theorem Gives.refl (h : Wf l m own) (hS : ∀ f, ¬S f) : Gives l S m own m own :=
  ⟨h, fun f hf => absurd hf (hS f), fun _ _ => rfl, fun _ _ => rfl, rfl⟩

theorem Gives.trans {U : Nat → Prop} (h : Gives l S m own m' own') (h' : Gives l T m' own' m'' own'')
    (hU : ∀ f, U f ↔ S f ∨ T f) : Gives l U m own m'' own'' where
  wf := h'.wf
  freed f hf := by
    by_cases ht : T f
    · exact h'.freed f ht
    · exact (h'.keep f ht).trans (h.freed f (((hU f).mp hf).resolve_right ht))
  keep f hf := by
    rw [hU, not_or] at hf
    exact (h'.keep f hf.2).trans (h.keep f hf.1)
  page f hf := by
    rw [hU, not_or] at hf
    exact (h'.page f hf.2).trans (h.page f hf.1)
  denied := h'.denied.trans h.denied

/-- `kfree` of a frame that is held. -/
theorem gives_one (h : Wf l m own) (hf : own f = .held) :
    ∃ m', kfree f l m = .ok () m' ∧
      Gives l (· = f) m own m' (Function.update own f .free) := by
  have hrange := h.listed.range f (by rw [hf]; exact nofun)
  refine ⟨_, kfree_eq hrange.1 hrange.2, h.give hf _, fun g hg => ?_, fun g hg => ?_,
    fun g hg => Mem.page_setPage_of_ne _ hg, rfl⟩
  · rw [hg, Function.update_self]
  · exact Function.update_of_ne hg ..

/-- Held frames are no tables, so every entry stays. -/
theorem Gives.pte (h : Gives l S m own m' own') (hw : Wf l m own) (hS : ∀ f, S f → own f = .held)
    (hd : own d = .dir) : m'.pteOf d v = m.pteOf d v := by
  have hpage : ∀ f, own f ≠ .held → m'.page f = m.page f := fun f hf =>
    h.page f fun hs => hf (hS f hs)
  have hpde : m'.pde d (v / 1024) = m.pde d (v / 1024) := by
    rw [Mem.pde, hpage d (by rw [hd]; rintro ⟨⟩), Mem.pde]
  unfold Mem.pteOf
  rw [hpde]
  split
  · rename_i ht
    rw [hpage _ (by rw [hw.tables.own_table hd ht]; rintro ⟨⟩)]
  · rfl

/-- **The loop of `freevm`** gives back the frames that the directory lists. -/
theorem freeTables_spec {n i : Nat} (h : Wf l m own)
    (hheld : ∀ j, i ≤ j → j < i + n → Present (m.pde d j) →
      own (frame (m.pde d j)) = .held ∧ frame (m.pde d j) ≠ d)
    (hinj : ∀ j k, i ≤ j → j < k → k < i + n → Present (m.pde d j) → Present (m.pde d k) →
      frame (m.pde d j) ≠ frame (m.pde d k)) :
    ∃ m' own', freeTables n d i l m = .ok () m' ∧
      Gives l (fun f => ∃ j, i ≤ j ∧ j < i + n ∧ Present (m.pde d j) ∧ frame (m.pde d j) = f)
        m own m' own' := by
  induction n generalizing i m own with
  | zero => exact ⟨m, own, rfl, .refl h fun f ⟨j, hlo, hhi, _⟩ => by omega⟩
  | succ n ih =>
    rw [freeTables, run_bind (show gets (·.pde d i) l m = .ok (m.pde d i) m from rfl)]
    by_cases hp : Present (m.pde d i)
    · obtain ⟨hf, hfd⟩ := hheld i (Nat.le_refl _) (by omega) hp
      obtain ⟨m₁, hrun, hgive⟩ := gives_one h hf
      rw [when_of hp, run_bind hrun]
      have hpde : ∀ j, m₁.pde d j = m.pde d j := fun j => by
        rw [Mem.pde, hgive.page d hfd.symm, Mem.pde]
      obtain ⟨m', own', hrun', hrest⟩ := ih (i := i + 1) hgive.wf
        (fun j hlo hhi hpj => by
          rw [hpde] at hpj ⊢
          rw [Function.update_of_ne (hinj i j (Nat.le_refl _) (by omega) (by omega) hp hpj).symm]
          exact hheld j (by omega) (by omega) hpj)
        fun j k hlo hjk hhi hpj hpk => by
          rw [hpde] at hpj hpk
          rw [hpde, hpde]
          exact hinj j k (by omega) hjk (by omega) hpj hpk
      refine ⟨m', own', hrun', hgive.trans hrest fun f => ⟨?_, ?_⟩⟩
      · rintro ⟨j, hlo, hhi, hpj, he⟩
        rcases Nat.eq_or_lt_of_le hlo with rfl | hlt
        · exact .inl he.symm
        · exact .inr ⟨j, hlt, by omega, by rwa [hpde], by rw [hpde, he]⟩
      · rintro (rfl | ⟨j, hlo, hhi, hpj, he⟩)
        · exact ⟨i, Nat.le_refl _, by omega, hp, rfl⟩
        · rw [hpde] at hpj he
          exact ⟨j, by omega, by omega, hpj, he⟩
    · rw [run_bind (when_of_not hp _ l m)]
      obtain ⟨m', own', hrun', hrest⟩ := ih (i := i + 1) h
        (fun j hlo hhi => hheld j (by omega) (by omega))
        fun j k hlo hjk hhi => hinj j k (by omega) hjk (by omega)
      have hnone : Gives l (fun _ => False) m own m own := .refl h fun _ => id
      refine ⟨m', own', hrun', hnone.trans hrest fun f => ⟨?_, ?_⟩⟩
      · rintro ⟨j, hlo, hhi, hpj, he⟩
        rcases Nat.eq_or_lt_of_le hlo with rfl | hlt
        · exact absurd hpj hp
        · exact .inr ⟨j, hlt, by omega, hpj, he⟩
      · rintro (hf | ⟨j, hlo, hhi, hpj, he⟩)
        · exact hf.elim
        · exact ⟨j, by omega, by omega, hpj, he⟩

/-- **The first part of `freevm`**: no user page is left, because page 0 begins a table. -/
theorem deallocuvm_all (h : Wf l m own) (hd : own d = .dir) :
    ∃ m' own', deallocuvm d (2 ^ 31) 0 l m = .ok 0 m' ∧
      Shrinks l d (fun u => u < 2 ^ 19) m own m' own' := by
  have hzero : pageUp 0 = 0 := by decide
  obtain ⟨m', own', hrun, hshrink⟩ := deallocuvm_spec h hd (Nat.le_refl (2 ^ 31))
    (show 0 < 2 ^ 31 by decide) fun u hu _ hp => reaches_of_present hu hp (.inr (by rw [hzero]))
  exact ⟨m', own', hrun, hshrink.congr fun u => by omega⟩

/-- **`freevm`** gives back the directory, its tables and its pages, and nothing else. -/
theorem freevm_spec (h : Wf l m own) (hd : own d = .dir) :
    ∃ m' own', freevm d l m = .ok () m' ∧ Freed l d m own m' own' := by
  have hrange := h.listed.range d (by rw [hd]; exact nofun)
  have habove := l.above
  obtain ⟨m₁, own₁, hdealloc, hshrink⟩ := deallocuvm_all h hd
  have hd₁ := hshrink.dir hd
  have hretire := hshrink.wf.retire hd₁ fun v hv => hshrink.gone v hv
  have htable : ∀ j, j < 1024 → Present (m₁.pde d j) → own₁ (frame (m₁.pde d j)) = .table d j :=
    fun j hj hp => (hshrink.wf.tables.table d j _).mpr ⟨hd₁, hj, hp, rfl⟩
  obtain ⟨m₂, own₂, hloop, hgive⟩ := freeTables_spec (i := 0) (n := 1024) hretire
    (fun j _ hj hp => ⟨retire_table (htable j (by omega) hp),
      ne_of_dir hd₁ (htable j (by omega) hp) nofun⟩)
    fun j k _ hjk hk hpj hpk he => by
      have hj := htable j (by omega) hpj
      rw [he, htable k (by omega) hpk] at hj
      cases hj
      omega
  -- the frames that the loop gives back are the tables
  have hlist : ∀ f, (∃ j, 0 ≤ j ∧ j < 0 + 1024 ∧ Present (m₁.pde d j) ∧ frame (m₁.pde d j) = f) ↔
      ∃ j, own₁ f = .table d j := fun f => by
    constructor
    · rintro ⟨j, -, hj, hp, rfl⟩
      exact ⟨j, htable j (by omega) hp⟩
    · rintro ⟨j, e⟩
      obtain ⟨-, hj, hp, he⟩ := (hshrink.wf.tables.table d j f).mp e
      exact ⟨j, Nat.zero_le j, by omega, hp, he⟩
  have hself : own₂ d = .held := by
    rw [hgive.keep d, retire_self]
    rw [hlist]
    rintro ⟨j, e⟩
    rw [hd₁] at e
    cases e
  obtain ⟨m', hkfree, hlast⟩ := gives_one hgive.wf hself
  have hall := hgive.trans (U := fun f => (∃ j, own₁ f = .table d j) ∨ f = d) hlast fun f => by
    rw [hlist]
  have hheld : ∀ f, ((∃ j, own₁ f = .table d j) ∨ f = d) → retire own₁ d f = .held := by
    rintro f (⟨j, e⟩ | rfl)
    · exact retire_table e
    · exact retire_self
  -- what is no part of `d` goes through all three steps unchanged
  have hrest : ∀ f, ¬Part d (fun _ => True) f (own f) →
      own₁ f = own f ∧ ¬((∃ j, own₁ f = .table d j) ∨ f = d) := fun f hf => by
    have hsame : own₁ f = own f := hshrink.keep f fun u _ e => hf (by rw [e]; exact ⟨rfl, trivial⟩)
    refine ⟨hsame, ?_⟩
    rintro (⟨j, e⟩ | rfl)
    · rw [hsame] at e
      exact hf (by rw [e]; rfl)
    · exact hf (by rw [hd]; rfl)
  refine ⟨m', Function.update own₂ d .free, ?_, hall.wf, fun f hf => ?_, fun f hf => ?_,
    fun f hdata hf => ?_, fun d' u hd' hne => ?_, hall.denied.trans hshrink.denied⟩
  · unfold freevm
    rw [run_bind (panicIf_of_not (show d ≠ 0 by omega) _ l m), run_bind hdealloc, run_bind hloop,
      hkfree]
  · by_cases hin : (∃ j, own₁ f = .table d j) ∨ f = d
    · exact hall.freed f hin
    · -- a user page, which the first step has freed
      rw [not_or, not_exists] at hin
      obtain ⟨u, e⟩ : ∃ u, own f = .page d u := by
        cases ho : own f with
        | dir =>
          rw [ho] at hf
          exact absurd hf hin.2
        | table d' j =>
          rw [ho] at hf
          obtain rfl : d' = d := hf
          exact absurd ((hshrink.keep f fun u _ e => by rw [ho] at e; cases e).trans ho) (hin.1 j)
        | page d' u =>
          rw [ho] at hf
          obtain rfl : d' = d := hf.1
          exact ⟨u, rfl⟩
        | _ =>
          rw [ho] at hf
          exact hf.elim
      have hfree := hshrink.freed f u ((h.tables.page d u f).mp e).2.1 e
      rw [hall.keep f (not_or.mpr ⟨not_exists.mpr hin.1, hin.2⟩), retire_of_ne hin.2 hin.1, hfree]
  · obtain ⟨hsame, hout⟩ := hrest f hf
    rw [hall.keep f hout]
    rw [not_or, not_exists] at hout
    rw [retire_of_ne hout.2 hout.1, hsame]
  · obtain ⟨-, hout⟩ := hrest f hf
    exact (hall.page f hout).trans
      (hshrink.data f hdata fun u _ e => hf (by rw [e]; exact ⟨rfl, trivial⟩))
  · have hd₁' : retire own₁ d d' = .dir := by
      rw [retire_of_ne hne fun i e => ?_, hshrink.dir hd']
      rw [hshrink.dir hd'] at e
      cases e
    exact (hall.pte hretire hheld hd₁').trans (hshrink.pte d' u hd' fun e => hne e.1)

/-! ## 2. The kernel's part -/

/-- Pages `P` of the kernel have been mapped, with at most `b` new tables; or a table was refused. -/
structure Mapped (l : Layout) (d : Nat) (P : Nat → Prop) (b : Nat) (m : Mem) (own : Nat → Owner)
    (r : Bool) (m' : Mem) (own' : Nat → Owner) : Prop where
  grows : Grows l d P m own m' own'
  lost : ¬Lost own own'
  few : m.free.length ≤ m'.free.length + b
  count : (r = true ∧ m'.denied = m.denied) ∨
    (r = false ∧ m'.denied = m.denied + 1 ∧ m'.free = [])

theorem Mapped.refl (h : Wf l m own) (b : Nat) : Mapped l d P b m own true m own :=
  ⟨.refl h d P, not_lost_refl own, by omega, .inl ⟨rfl, rfl⟩⟩

/-- What is mapped first, and then the rest. -/
theorem Mapped.trans {Q R : Nat → Prop} {b c e : Nat} {r : Bool}
    (h : Mapped l d P b m own true m' own') (h' : Mapped l d Q c m' own' r m'' own'')
    (hP : ∀ u, P u → R u) (hQ : ∀ u, Q u → R u) (hle : b + c ≤ e) :
    Mapped l d R e m own r m'' own'' := by
  have hden : m'.denied = m.denied := (h.count.resolve_right fun e => absurd e.1 nofun).2
  have hfew := h.few
  have hfew' := h'.few
  refine ⟨h.grows.trans h'.grows hP hQ, ?_, by omega, by rw [← hden]; exact h'.count⟩
  rw [h.grows.lost_iff h'.grows]
  exact fun e => e.elim h.lost h'.lost

/-- One page of the kernel. -/
theorem grows_mapKernel {perm : Nat} (h : Wf l m own) (hd : own d = .dir) (ht : m.HasTable d v)
    (hlo : 2 ^ 19 ≤ v) (hf : f < 2 ^ 20) (hperm : perm = 0 ∨ perm = 2) :
    Grows l d (· = v) m own (m.setPte d v (entry f perm)) own := by
  have hlt : entry f perm < 2 ^ 32 := entry_lt hf (by omega)
  have huser : ¬User (entry f perm) := by
    unfold User entry
    omega
  exact ⟨h.mapKernel hd ht hlt hlo huser, fun _ _ => rfl,
    fun g hg => page_setPte h hd ht hg.not_isTable,
    fun d' u hd' hu => (pteOf_setPte h hd ht hlt hd').trans (if_neg hu),
    fun d' u hd' hu => (hasTable_setPte h hd ht hd').mpr hu, fun _ e => .inl e⟩

/-- **`mappages` for the kernel.**  A table is needed for the first page and where a new one
begins. -/
theorem mappages_kernel {n perm : Nat} (h : Wf l m own) (hd : own d = .dir) (hlo : 2 ^ 19 ≤ v)
    (hhi : v + n ≤ 2 ^ 20) (hf : f + n ≤ 2 ^ 20) (hperm : perm = 0 ∨ perm = 2)
    (hno : ∀ u, v ≤ u → u < v + n → ¬Present (m.pteOf d u)) :
    ∃ r m' own', mappages n d v f perm l m = .ok r m' ∧
      Mapped l d (fun u => v ≤ u ∧ u < v + n)
        ((if n = 0 ∨ m.HasTable d v then 0 else 1) + ((v + n - 1) / 1024 - v / 1024))
        m own r m' own' := by
  induction n generalizing v f m own with
  | zero => exact ⟨true, m, own, rfl, .refl h _⟩
  | succ n ih =>
    rcases walkpgdir_alloc h hd (show v < 2 ^ 20 by omega) with
      ⟨ht, hempty, hwalk⟩ | ⟨m₁, own₁, hwalk, hwalked⟩
    · refine ⟨false, { m with denied := m.denied + 1 }, own, by rw [mappages, run_bind hwalk]; rfl,
        ?_, not_lost_refl own, ?_, .inr ⟨rfl, rfl, hempty⟩⟩
      · exact ⟨⟨h.listed, h.tables.congr (fun _ _ _ => rfl) fun _ _ _ => rfl⟩, fun _ _ => rfl,
          fun _ _ => rfl, fun _ _ _ _ => rfl, fun _ _ _ => id, fun _ e => .inl e⟩
      · show m.free.length ≤ m.free.length + _
        omega
    · have hd₁ := hwalked.grows.dir hd
      have hno₁ : ¬Present (m₁.pteOf d v) := by
        rw [hwalked.grows.pte d v hd fun e => e.2]
        exact hno v (Nat.le_refl _) (by omega)
      have hone := grows_mapKernel hwalked.grows.wf hd₁ hwalked.table hlo (f := f) (by omega) hperm
      have hgrow := hwalked.grows.trans hone (R := (· = v)) (fun _ => False.elim) fun _ => id
      obtain ⟨r, m', own', hrun, hrest⟩ := ih (v := v + 1) (f := f + 1) hgrow.wf hd₁ (by omega)
        (by omega) (by omega) fun u hlo' hhi' => by
          rw [hgrow.pte d u hd fun e => by omega]
          exact hno u (by omega) (by omega)
      have hfirst : Mapped l d (· = v) (if m.HasTable d v then 0 else 1) m own true
          (m₁.setPte d v (entry f perm)) own₁ := by
        refine ⟨hgrow, hwalked.lost, ?_, .inl ⟨rfl, hwalked.denied⟩⟩
        show m.free.length ≤ m₁.free.length + _
        split
        · rename_i ht
          rw [hwalked.none ht]
          omega
        · exact hwalked.few
      refine ⟨r, m', own', by rw [mappages_entry hno₁ hwalked.table hwalk, hrun],
        hfirst.trans hrest (fun u e => by omega) (fun u e => by omega) ?_⟩
      -- the next page has the same table, or the first of a new one
      by_cases hsame : (v + 1) / 1024 = v / 1024
      · have ht : (m₁.setPte d v (entry f perm)).HasTable d (v + 1) := by
          rw [hasTable_setPte hwalked.grows.wf hd₁ hwalked.table hd₁]
          unfold Mem.HasTable
          rw [hsame]
          exact hwalked.table
        simp only [ht, or_true, if_true, Nat.succ_ne_zero, false_or]
        omega
      · simp only [Nat.succ_ne_zero, false_or]
        split <;> split <;> omega

/-- The entries of `kmap[]` lie one above the other, from page `lo` on. -/
def Stacked (lo : Nat) : List Kmap → Prop
  | [] => True
  | k :: ks => lo ≤ k.virt ∧ k.virt + (k.physEnd - k.physStart) ≤ 2 ^ 20 ∧
      k.physStart + (k.physEnd - k.physStart) ≤ 2 ^ 20 ∧ (k.perm = 0 ∨ k.perm = 2) ∧
      Stacked (k.virt + (k.physEnd - k.physStart)) ks

/-- As many tables as they can need. -/
def kmapTables : List Kmap → Nat
  | [] => 0
  | k :: ks => 1 + ((k.virt + (k.physEnd - k.physStart) - 1) / 1024 - k.virt / 1024) + kmapTables ks

/-- **The loop of `setupkvm`.** -/
theorem kmapLoop_spec {lo : Nat} {ks : List Kmap} (h : Wf l m own) (hd : own d = .dir)
    (hlo : 2 ^ 19 ≤ lo) (hks : Stacked lo ks)
    (hno : ∀ u, lo ≤ u → ¬Present (m.pteOf d u)) :
    ∃ r m' own', kmapLoop d ks l m = .ok r m' ∧
      Mapped l d (fun u => lo ≤ u) (kmapTables ks) m own r m' own' := by
  induction ks generalizing lo m own with
  | nil => exact ⟨true, m, own, rfl, .refl h _⟩
  | cons k ks ih =>
    obtain ⟨hlow, hhigh, hphys, hperm, hks⟩ := hks
    obtain ⟨r, m₁, own₁, hrun, hmapped⟩ := mappages_kernel h hd (v := k.virt) (by omega) hhigh hphys
      hperm fun u hlo' _ => hno u (by omega)
    rw [kmapLoop, run_bind hrun, kmapTables]
    have hbound : (if k.physEnd - k.physStart = 0 ∨ m.HasTable d k.virt then 0 else 1) +
        ((k.virt + (k.physEnd - k.physStart) - 1) / 1024 - k.virt / 1024) ≤
          1 + ((k.virt + (k.physEnd - k.physStart) - 1) / 1024 - k.virt / 1024) := by
      split <;> omega
    cases r with
    | true =>
      obtain ⟨r, m', own', hrun', hrest⟩ := ih hmapped.grows.wf (hmapped.grows.dir hd) (by omega)
        hks fun u hu => by
          rw [hmapped.grows.pte d u hd fun e => by omega]
          exact hno u (by omega)
      exact ⟨r, m', own', hrun',
        hmapped.trans hrest (fun u e => by omega) (fun u e => by omega) (by omega)⟩
    | false =>
      have hfew := hmapped.few
      exact ⟨false, m₁, own₁, rfl, hmapped.grows.mono fun u e => by omega, hmapped.lost, by omega,
        hmapped.count⟩

theorem stacked_kmap (l : Layout) : Stacked (2 ^ 19) (kmap l) := by
  have htext := l.text
  have hroom := l.room
  simp only [Stacked, kmap, or_true, true_or, true_and, and_true]
  omega

theorem kmapTables_kmap (l : Layout) : kmapTables (kmap l) ≤ 68 := by
  have htext := l.text
  have hroom := l.room
  simp only [kmapTables, kmap]
  omega

/-- A new directory with the kernel in it; `r` says whether it is complete. -/
structure SetUp (l : Layout) (d : Nat) (m : Mem) (own : Nat → Owner) (r : Bool) (m' : Mem)
    (own' : Nat → Owner) : Prop where
  mapped : Mapped l d (fun u => 2 ^ 19 ≤ u) 69 m own r m' own'
  before : own d = .free
  after : own' d = .dir
  none : ∀ u, u < 2 ^ 19 → ¬Present (m'.pteOf d u)

/-- **`setupkvm`**: without a page it fails; without a page table it fails as well, and the directory
and its tables stay where they are. -/
theorem setupkvm_spec (h : Wf l m own) :
    (m.free = [] ∧ setupkvm l m = .ok none m) ∨
      ∃ d r m' own', setupkvm l m = .ok (if r then some d else none) m' ∧
        SetUp l d m own r m' own' := by
  unfold setupkvm
  cases hfree : m.free with
  | nil =>
    rw [run_bind (kalloc_nil hfree)]
    exact .inl ⟨rfl, rfl⟩
  | cons d rest =>
    refine .inr ?_
    rw [run_bind (kalloc_cons hfree)]
    simp only
    have hown := h.own_head hfree
    have htake := grows_take h hfree d fun _ => 0
    have hheld : Function.update own d .held d = .held := Function.update_self ..
    have hnew := settles_newDir htake.wf hheld (Mem.page_setPage_self _)
    have hgrow := htake.settle hown hnew (R := fun u => 2 ^ 19 ≤ u) (fun _ => False.elim)
      fun _ => False.elim
    have hdir : Function.update (Function.update own d .held) d .dir d = .dir :=
      Function.update_self ..
    have hzero : ∀ u, ¬Present ((Mem.setPage { m with free := rest } d fun _ => 0).pteOf d u) :=
      fun u => by
        rw [pteOf_zero (Mem.page_setPage_self _)]
        exact not_present_zero
    rw [run_bind (show memset d 0 l { m with free := rest } = .ok () _ from rfl),
      run_bind (show self l _ = .ok l _ from rfl)]
    obtain ⟨r, m', own', hrun, hmapped⟩ := kmapLoop_spec hgrow.wf hdir (Nat.le_refl _)
      (stacked_kmap l) fun u _ => hzero u
    have hfirst : Mapped l d (fun u => 2 ^ 19 ≤ u) 1 m own true
        (Mem.setPage { m with free := rest } d fun _ => 0)
        (Function.update (Function.update own d .held) d .dir) := by
      refine ⟨hgrow, hnew.not_lost fun g hgd hg => ?_, ?_, .inl ⟨rfl, rfl⟩⟩
      · rw [Function.update_of_ne hgd, hg]
        exact nofun
      · rw [hfree]
        exact Nat.le_refl _
    have hbound := kmapTables_kmap l
    refine ⟨d, r, m', own', ?_, hfirst.trans hmapped (fun _ => id) (fun _ => id) (by omega), hown,
      hmapped.grows.dir hdir, fun u hu => ?_⟩
    · rw [run_bind hrun]
      cases r <;> rfl
    · rw [hmapped.grows.pte d u hdir fun e => by omega]
      exact hzero u

/-! ## 3. What a failed attempt leaves -/

/-- Whatever had an owner has it still, with its bytes and entries. -/
structure Kept (l : Layout) (m : Mem) (own : Nat → Owner) (m' : Mem) (own' : Nat → Owner) :
    Prop where
  wf : Wf l m' own'
  keep : ∀ f, own f ≠ .free → own' f = own f
  data : ∀ f, (own f).IsData → m'.page f = m.page f
  pte : ∀ d u, own d = .dir → m'.pteOf d u = m.pteOf d u

theorem Kept.refl (h : Wf l m own) : Kept l m own m own :=
  ⟨h, fun _ _ => rfl, fun _ _ => rfl, fun _ _ _ => rfl⟩

/-- A new directory grows: the others do not notice. -/
theorem Grows.kept (h : Grows l d P m own m' own') (hd : own d = .free) : Kept l m own m' own' :=
  ⟨h.wf, h.keep, h.data, fun d' u hd' =>
    h.pte d' u hd' fun e => by rw [e.1, hd] at hd'; cases hd'⟩

/-- What has an owner is no part of a directory that has yet to be made. -/
theorem Wf.not_part (h : Wf l m own) (hd : own d = .free) : ¬Part d P f (own f) := fun hp => by
  have hno : own d ≠ .dir := by rw [hd]; exact nofun
  cases ho : own f with
  | dir =>
    rw [ho] at hp
    obtain rfl : f = d := hp
    exact hno ho
  | table d' i =>
    rw [ho] at hp
    obtain rfl : d' = d := hp
    exact hno ((h.tables.table d' i f).mp ho).1
  | page d' u =>
    rw [ho] at hp
    obtain rfl : d' = d := hp.1
    exact hno ((h.tables.page d' u f).mp ho).1
  | _ =>
    rw [ho] at hp
    exact hp

/-- **A new directory grows and is thrown away**: everything is as it was, but for what is lost. -/
theorem Grows.discard (h : Wf l m own) (hd : own d = .free) (hg : Grows l d P m own m' own')
    (hfreed : Freed l d m' own' m'' own'') :
    Kept l m own m'' own'' ∧ (∀ f, own f = .free → own'' f = .free ∨ own'' f = .held) ∧
      (Lost own own'' ↔ Lost own own') := by
  have hout : ∀ f, own f ≠ .free → own' f = own f ∧ ¬Part d (fun _ => True) f (own' f) :=
    fun f hf => ⟨hg.keep f hf, by rw [hg.keep f hf]; exact h.not_part hd⟩
  have hheld : ∀ f, own' f = .held → own'' f = .held := fun f e =>
    (hfreed.keep f fun hp => hp.ne_held e).trans e
  refine ⟨⟨hfreed.wf, fun f hf => ?_, fun f hf => ?_, fun d' u hd' => ?_⟩, fun f hf => ?_,
    exists_congr fun f => and_congr_right fun hf => ⟨fun e => ?_, hheld f⟩⟩
  · obtain ⟨hsame, hpart⟩ := hout f hf
    exact (hfreed.keep f hpart).trans hsame
  · obtain ⟨hsame, hpart⟩ := hout f hf.ne_free
    exact (hfreed.data f (hsame ▸ hf) hpart).trans (hg.data f hf)
  · have hne : d' ≠ d := by
      rintro rfl
      rw [hd] at hd'
      cases hd'
    exact (hfreed.pte d' u (hg.dir hd') hne).trans (hg.pte d' u hd' fun e => hne e.1)
  · rcases hg.taken f hf with e | e | e
    · exact .inl ((hfreed.keep f fun hp => hp.ne_free e).trans e)
    · exact .inr (hheld f e)
    · exact .inl (hfreed.freed f (e.mono fun _ _ => trivial))
  · by_cases hp : Part d (fun _ => True) f (own' f)
    · rw [hfreed.freed f hp] at e
      cases e
    · exact (hfreed.keep f hp).symm.trans e

/-- An attempt that failed: the free pages are the same as before, unless a table was refused. -/
structure Failed (l : Layout) (m : Mem) (own : Nat → Owner) (m' : Mem) (own' : Nat → Owner) :
    Prop where
  kept : Kept l m own m' own'
  count : (m'.denied = m.denied ∧ ∀ f, own f = .free → own' f = .free) ∨
    (m.denied < m'.denied ∧ ∃ f, own f = .free ∧ own' f ≠ .free)

/-- **`setupkvm` that fails half way**: the directory and its tables are left behind. -/
theorem SetUp.failed (h : SetUp l d m own false m' own') : Failed l m own m' own' := by
  have hcount := h.mapped.count.resolve_left fun e => absurd e.1 nofun
  exact ⟨h.mapped.grows.kept h.before, .inr ⟨by omega, d, h.before, by rw [h.after]; exact nofun⟩⟩

/-! ## 4. `copyuvm` -/

/-- **One round of `copyuvm`.** -/
theorem copyPage_spec {d' : Nat} (h : Wf l m own) (hd' : own d' = .dir) (hv : v < 2 ^ 19)
    (hno : ¬Present (m.pteOf d' v)) :
    (¬Present (m.pteOf d v) ∧ ∃ e, copyPage d d' v l m = .panic e m) ∨
      (Present (m.pteOf d v) ∧
        ((m.free = [] ∧ copyPage d d' v l m = .ok false m) ∨
          (∃ m' own', copyPage d d' v l m = .ok true m' ∧ Grows l d' (· = v) m own m' own' ∧
            Fresh d' v (flags (m.pteOf d v)) (m.page (frame (m.pteOf d v))) own m' own' ∧
            ¬Lost own own' ∧ m'.denied = m.denied ∧ m.free.length ≤ m'.free.length + 2) ∨
          (∃ m' own', copyPage d d' v l m = .ok false m' ∧
            Grows l d' (fun _ => False) m own m' own' ∧ Lost own own' ∧ m'.free = [] ∧
            m'.denied = m.denied + 1 ∧ m.free.length = 1))) := by
  unfold copyPage
  rw [run_bind (walkpgdir_look l m d v)]
  by_cases hp : Present (m.pteOf d v)
  · have ht := hasTable_of_present hp
    refine .inr ⟨hp, ?_⟩
    rw [if_pos ht]
    simp only
    rw [run_bind (gets_pte l ht),
      run_bind (panicIf_of_not (not_not.mpr hp) _ l m)]
    cases hfree : m.free with
    | nil =>
      rw [run_bind (kalloc_nil hfree)]
      exact .inl ⟨rfl, rfl⟩
    | cons f rest =>
      refine .inr ?_
      rw [run_bind (kalloc_cons hfree), ← hfree]
      simp only
      rw [run_bind (show modify (fun m₁ : Mem => m₁.setPage f (m₁.page (frame (m.pteOf d v)))) l
        { m with free := rest } = .ok () _ from rfl)]
      have hflags : flags (m.pteOf d v) < 4096 := Nat.mod_lt _ (by decide)
      exact mappages_fresh h hd' hv hno hfree hflags _
  · refine .inl ⟨hp, ?_⟩
    by_cases ht : m.HasTable d v
    · rw [if_pos ht]
      simp only
      rw [run_bind (gets_pte l ht)]
      exact ⟨.copyuvmPresent, run_bind_panic (panicIf_of hp _ l m)⟩
    · rw [if_neg ht]
      exact ⟨.copyuvmPte, rfl⟩

/-- **The loop of `copyuvm`** panics at a page that is not there, or copies page after page. -/
theorem copyuvmLoop_spec {d' n : Nat} (h : Wf l m own) (hd : own d = .dir) (hd' : own d' = .dir)
    (hne : d ≠ d') (hn : v + n ≤ 2 ^ 19)
    (hno : ∀ u, v ≤ u → u < v + n → ¬Present (m.pteOf d' u)) :
    (∃ u, v ≤ u ∧ u < v + n ∧ ¬Present (m.pteOf d u) ∧
        ∃ e m', copyuvmLoop n d d' v l m = .panic e m') ∨
      ∃ k m' own', copyuvmLoop n d d' v l m = .ok (k == n) m' ∧
        Filled l d' v n (fun u => flags (m.pteOf d u)) (fun u => m.page (frame (m.pteOf d u)))
          m own k m' own' ∧
        ∀ u, v ≤ u → u < v + k → Present (m.pteOf d u) := by
  induction n generalizing v m own with
  | zero => exact .inr ⟨0, m, own, rfl, .nil h (.inl rfl), fun u hlo hhi => by omega⟩
  | succ n ih =>
    have hstop : ∀ m', copyPage d d' v l m = .ok false m' →
        copyuvmLoop (n + 1) d d' v l m = .ok (0 == n + 1) m' := fun m' hrun => by
      rw [copyuvmLoop, run_bind hrun]
      rfl
    rcases copyPage_spec h hd' (show v < 2 ^ 19 by omega) (hno v (Nat.le_refl _) (by omega)) with
      ⟨hp, e, hrun⟩ | ⟨hp, ⟨hempty, hrun⟩ | ⟨m₁, own₁, hrun, hgrow, hfresh, hlost, hden, hfew⟩ |
        ⟨m₁, own₁, hrun, hgrow, hlost, hempty, hden, hone⟩⟩
    · exact .inl ⟨v, Nat.le_refl _, by omega, hp, e, m, by rw [copyuvmLoop, run_bind_panic hrun]⟩
    · exact .inr ⟨0, m, own, hstop m hrun, .nil h (.inr hempty), fun u hlo hhi => by omega⟩
    · rw [copyuvmLoop, run_bind hrun, if_pos rfl]
      -- the parent's pages do not change
      have hpte : ∀ u, m₁.pteOf d u = m.pteOf d u := fun u => hgrow.pte d u hd fun e => hne e.1
      have hpage : ∀ u, u < 2 ^ 19 → Present (m.pteOf d u) →
          m₁.page (frame (m.pteOf d u)) = m.page (frame (m.pteOf d u)) := fun u hu hpu =>
        hgrow.data _ (by rw [(h.tables.page d u _).mpr ⟨hd, hu, hpu, rfl⟩]; trivial)
      rcases ih (v := v + 1) hgrow.wf (hgrow.dir hd) (hgrow.dir hd') (by omega) (fun u hlo hhi => by
          rw [hgrow.pte d' u hd' fun e => by omega]
          exact hno u (by omega) (by omega)) with
        ⟨u, hlo, hhi, hpu, hpanic⟩ | ⟨k, m', own', hrun', hfilled, hall⟩
      · rw [hpte] at hpu
        exact .inl ⟨u, by omega, by omega, hpu, hpanic⟩
      · simp only [hpte] at hall
        have hkn := hfilled.le
        refine .inr ⟨k + 1, m', own', ?_, .cons hd' hgrow hfresh hlost hden hfew hfilled
          fun u hlo hhi => ?_, fun u hlo hhi => ?_⟩
        · rw [hrun']
          by_cases hk : k = n <;> simp [hk]
        · refine ⟨congrArg flags (hpte u), ?_⟩
          show m₁.page (frame (m₁.pteOf d u)) = _
          rw [hpte]
          exact hpage u (by omega) (hall u hlo hhi)
        · rcases eq_or_ne u v with rfl | hne'
          · exact hp
          · exact hall u (by omega) (by omega)
    · exact .inr ⟨0, m₁, own₁, hstop m₁ hrun, .lost hgrow hlost hempty hden hone (Nat.succ_pos n),
        fun u hlo hhi => by omega⟩

/-- `d'` is a new directory with a copy of the pages of `d` from page 1 on. -/
structure Copy (l : Layout) (d d' sz : Nat) (m : Mem) (own : Nat → Owner) (m' : Mem)
    (own' : Nat → Owner) : Prop where
  grows : Grows l d' (fun _ => True) m own m' own'
  before : own d' = .free
  after : own' d' = .dir
  present : ∀ u, 1 ≤ u → u < pageUp sz → Present (m.pteOf d u)
  fresh : ∀ u, 1 ≤ u → u < pageUp sz →
    Fresh d' u (flags (m.pteOf d u)) (m.page (frame (m.pteOf d u))) own m' own'
  none : ∀ u, u < 2 ^ 19 → u = 0 ∨ pageUp sz ≤ u → ¬Present (m'.pteOf d' u)
  lost : ¬Lost own own'
  denied : m'.denied = m.denied
  few : m.free.length ≤ m'.free.length + 69 + 2 * pageUp sz

/-- **`copyuvm`** panics at a page of the parent that is not there, fails, or makes a copy. -/
theorem copyuvm_spec {sz : Nat} (h : Wf l m own) (hd : own d = .dir) (hsz : sz ≤ 2 ^ 31) :
    ((∃ u, 1 ≤ u ∧ u < pageUp sz ∧ ¬Present (m.pteOf d u)) ∧
        ∃ e m', copyuvm d sz l m = .panic e m') ∨
      (∃ m' own', copyuvm d sz l m = .ok none m' ∧ Failed l m own m' own' ∧
        m.free.length ≤ 69 + 2 * pageUp sz) ∨
      ∃ d' m' own', copyuvm d sz l m = .ok (some d') m' ∧ Copy l d d' sz m own m' own' := by
  have htop := pageUp_le hsz (Nat.le_refl _)
  rw [show pageUp (2 ^ 31) = 2 ^ 19 by decide] at htop
  unfold copyuvm
  rcases setupkvm_spec h with ⟨hempty, hrun⟩ | ⟨d', r, m₁, own₁, hrun, hsetup⟩
  · refine .inr (.inl ⟨m, own, by rw [run_bind hrun]; rfl, ⟨.refl h, .inl ⟨rfl, fun _ => id⟩⟩, ?_⟩)
    rw [hempty, List.length_nil]
    exact Nat.zero_le _
  · rw [run_bind hrun]
    have hbefore := hsetup.before
    have hne : d ≠ d' := by
      rintro rfl
      rw [hd] at hbefore
      cases hbefore
    have hfew := hsetup.mapped.few
    rcases hsetup.mapped.count with ⟨rfl, hden⟩ | ⟨rfl, hden, hdry⟩
    · have hgrow := hsetup.mapped.grows
      have hpte : ∀ u, m₁.pteOf d u = m.pteOf d u := fun u => hgrow.pte d u hd fun e => hne e.1
      have hpage : ∀ u, u < 2 ^ 19 → Present (m.pteOf d u) →
          m₁.page (frame (m.pteOf d u)) = m.page (frame (m.pteOf d u)) := fun u hu hpu =>
        hgrow.data _ (by rw [(h.tables.page d u _).mpr ⟨hd, hu, hpu, rfl⟩]; trivial)
      rw [if_pos rfl]
      simp only
      rcases copyuvmLoop_spec (v := 1) (n := pageUp sz - 1) hgrow.wf (hgrow.dir hd) hsetup.after hne
          (by omega) fun u hlo hhi => hsetup.none u (by omega) with
        ⟨u, hlo, hhi, hpu, e, m', hpanic⟩ | ⟨k, m', own', hloop, hfilled, hall⟩
      · rw [hpte] at hpu
        exact .inl ⟨⟨u, hlo, by omega, hpu⟩, e, m', run_bind_panic hpanic⟩
      · simp only [hpte] at hall
        have hkn := hfilled.le
        have hlost := hgrow.lost_iff hfilled.grows
        rw [run_bind hloop]
        by_cases hk : k = pageUp sz - 1
        · refine .inr (.inr ⟨d', m', own', by rw [if_pos (beq_iff_eq.mpr hk)]; rfl, ?_⟩)
          have hcount := hfilled.count.resolve_right fun e => by omega
          have hfew' := hfilled.few
          refine ⟨hgrow.trans hfilled.grows (fun _ _ => trivial) (fun _ _ => trivial), hbefore,
            hfilled.grows.dir hsetup.after, fun u hlo hhi => hall u hlo (by omega),
            fun u hlo hhi => ?_, fun u hu hnone => ?_, fun e => ?_, hcount.1.trans hden, by omega⟩
          · have hu := hfilled.fresh u hlo (by omega)
            simp only [hpte] at hu
            rw [hpage u (by omega) (hall u hlo (by omega))] at hu
            exact ⟨hu.entry, hu.bytes, hgrow.free_of_free hu.before, hu.after⟩
          · rw [hfilled.grows.pte d' u hsetup.after fun e => by omega]
            exact hsetup.none u hu
          · exact (hlost.mp e).elim hsetup.mapped.lost hcount.2
        · -- no more pages: what has been copied is thrown away
          obtain ⟨m₂, own₂, hfree, hfreed⟩ :=
            freevm_spec hfilled.grows.wf (hfilled.grows.dir hsetup.after)
          have hboth := hgrow.trans hfilled.grows (R := fun _ => True) (fun _ _ => trivial)
            fun _ _ => trivial
          obtain ⟨hkept, hback, hlost'⟩ := hboth.discard h hbefore hfreed
          refine .inr (.inl ⟨m₂, own₂, ?_, ⟨hkept, ?_⟩, ?_⟩)
          · rw [if_neg (by simpa using hk), run_bind hfree]
            rfl
          · rw [hfreed.denied, ← hden]
            rcases hfilled.count with ⟨hden', hno⟩ | ⟨hden', hyes, -⟩
            · refine .inl ⟨hden', fun f hf => (hback f hf).resolve_right fun e => ?_⟩
              exact (hlost.mp (hlost'.mp ⟨f, hf, e⟩)).elim hsetup.mapped.lost hno
            · obtain ⟨f, hf, e⟩ := hlost'.mpr (hlost.mpr (.inr hyes))
              exact .inr ⟨by omega, f, hf, by rw [e]; exact nofun⟩
          · have hfew' := hfilled.few
            have hdry := hfilled.dry.resolve_left hk
            rw [hdry, List.length_nil] at hfew'
            omega
    · -- the directory and its tables are left behind
      refine .inr (.inl ⟨m₁, own₁, rfl, hsetup.failed, ?_⟩)
      rw [hdry, List.length_nil] at hfew
      omega

end

end Xv6.Vm
