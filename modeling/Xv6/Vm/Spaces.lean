/-
# Address spaces are kept apart (vm.c, kalloc.c)

The results before this file are about one call.  Here are whole runs, of any number of address
spaces: they are made, grow, shrink, are copied and given up; pages are taken for kernel stacks and
pipes and given back; and what is mapped is written to, by its user or by the kernel (`loaduvm`,
`copyout`).  The record of owners of `Owner.lean` is there in every state of such a run.

Each call runs from its beginning to its end.  Where a call panics the run ends.
-/
import Xv6.Runs
import Xv6.Vm.Args

namespace Xv6.Vm

open Xv6.Runs Xv6.Threads

/-! ## 1. What a call leaves alone -/

section

variable {l : Layout} {m m' : Mem} {own own' : Nat → Owner} {d f : Nat} {P : Nat → Prop}
  {x : Option Nat}

/-- An operation on `x`: other directories keep what they map, and what is in their pages. -/
structure Apart (l : Layout) (x : Option Nat) (m : Mem) (own : Nat → Owner) (m' : Mem)
    (own' : Nat → Owner) : Prop where
  wf : Wf l m' own'
  dir : ∀ d, own d = .dir → some d ≠ x → own' d = .dir
  held : ∀ f, own f = .held → some f ≠ x → own' f = .held
  pte : ∀ d u, own d = .dir → some d ≠ x → m'.pteOf d u = m.pteOf d u
  page : ∀ f d u, own f = .page d u → some d ≠ x → m'.page f = m.page f

theorem Kept.apart (hk : Kept l m own m' own') : Apart l x m own m' own' where
  wf := hk.wf
  dir d hd _ := (hk.keep d (by rw [hd]; exact Owner.noConfusion)).trans hd
  held f hf _ := (hk.keep f (by rw [hf]; exact Owner.noConfusion)).trans hf
  pte d u hd _ := hk.pte d u hd
  page f d u hf _ := hk.data f (by rw [hf]; trivial)

theorem Grows.apart (hg : Grows l d P m own m' own') : Apart l (some d) m own m' own' where
  wf := hg.wf
  dir _ hd _ := hg.dir hd
  held f hf _ := (hg.keep f (by rw [hf]; exact Owner.noConfusion)).trans hf
  pte d' u hd hne := hg.pte d' u hd fun e => hne (by rw [e.1])
  page f d u hf _ := hg.data f (by rw [hf]; trivial)

theorem Shrinks.apart (hs : Shrinks l d P m own m' own') : Apart l (some d) m own m' own' where
  wf := hs.wf
  dir _ hd _ := hs.dir hd
  held f hf _ := (hs.keep f fun _ _ e => by rw [hf] at e; cases e).trans hf
  pte d' u hd hne := hs.pte d' u hd fun e => hne (by rw [e.1])
  page f d' u hf hne := by
    refine hs.data f (by rw [hf]; trivial) fun _ _ e => ?_
    rw [hf] at e
    cases e
    exact hne rfl

theorem Freed.apart (hf : Freed l d m own m' own') : Apart l (some d) m own m' own' where
  wf := hf.wf
  dir d' hd hne := (hf.keep d' (by rw [hd]; exact fun e => hne (congrArg some e))).trans hd
  held f ho _ := (hf.keep f (by rw [ho]; exact id)).trans ho
  pte d' u hd hne := hf.pte d' u hd fun e => hne (by rw [e])
  page f d' u ho hne :=
    hf.data f (by rw [ho]; trivial) (by rw [ho]; exact fun e => hne (by rw [e.1]))

theorem Gives.apart (hg : Gives l (· = f) m own m' own') (h : Wf l m own) (hf : own f = .held) :
    Apart l (some f) m own m' own' where
  wf := hg.wf
  dir d hd hne := (hg.keep d fun e => hne (congrArg some e)).trans hd
  held f' ho hne := (hg.keep f' fun e => hne (congrArg some e)).trans ho
  pte d u hd _ := hg.pte h (fun g hgf => by rw [hgf, hf]) hd
  page f' d u ho _ := by
    refine hg.page f' ?_
    rintro rfl
    cases hf.symm.trans ho

/-- A page of `d` is written. -/
theorem Wf.write_apart {v : Nat} (h : Wf l m own) (hf : own f = .page d v) (y : Page) :
    Apart l (some d) m own (m.setPage f y) own := by
  have hno : ¬(own f).IsTable := by rw [hf]; exact id
  refine ⟨h.fill hno y, fun _ hd _ => hd, fun _ hg _ => hg, fun d' u hd _ => ?_,
    fun g d' u hg hne => Mem.page_setPage_of_ne _ ?_⟩
  · exact h.tables.pteOf_setPage hno y hd
  · rintro rfl
    cases hf.symm.trans hg
    exact hne rfl

end

/-! ## 2. The machine -/

namespace Spaces

structure State where
  mem : Mem
  /-- the page directories in use -/
  dirs : List Nat
  /-- the pages that `kalloc` has given out for other things -/
  held : List Nat

inductive Act
  | setupkvm
  | allocuvm (d oldsz newsz : Nat)
  | deallocuvm (d oldsz newsz : Nat)
  | copyuvm (d sz : Nat)
  | freevm (d : Nat)
  | kalloc
  | kfree (f : Nat)
  /-- page `v` is written to -/
  | write (d v : Nat) (x : Page)

/-- The address space, or the page, that the call is on. -/
def Act.on : Act → Option Nat
  | .allocuvm d _ _ | .deallocuvm d _ _ | .freevm d | .kfree d | .write d _ _ => some d
  | .setupkvm | .copyuvm _ _ | .kalloc => none

/-- A call that returns. -/
def returns {α : Type} (o : Out Stop Mem α) (next : α → Mem → State) : Option State :=
  match o with
  | .ok a m => some (next a m)
  | _ => none

def step (l : Layout) (s : State) : Act → Option State
  | .setupkvm => returns (Vm.setupkvm l s.mem) fun d m => ⟨m, d.toList ++ s.dirs, s.held⟩
  | .allocuvm d oldsz newsz =>
    if d ∈ s.dirs then returns (Vm.allocuvm d oldsz newsz l s.mem) fun _ m => { s with mem := m }
    else none
  | .deallocuvm d oldsz newsz =>
    if d ∈ s.dirs then returns (Vm.deallocuvm d oldsz newsz l s.mem) fun _ m => { s with mem := m }
    else none
  | .copyuvm d sz =>
    if d ∈ s.dirs then
      returns (Vm.copyuvm d sz l s.mem) fun d' m => ⟨m, d'.toList ++ s.dirs, s.held⟩
    else none
  | .freevm d =>
    if d ∈ s.dirs then returns (Vm.freevm d l s.mem) fun _ m => ⟨m, s.dirs.filter (· ≠ d), s.held⟩
    else none
  | .kalloc => returns (Vm.kalloc l s.mem) fun f m => ⟨m, s.dirs, f.toList ++ s.held⟩
  | .kfree f =>
    if f ∈ s.held then returns (Vm.kfree f l s.mem) fun _ m => ⟨m, s.dirs, s.held.filter (· ≠ f)⟩
    else none
  | .write d v x =>
    -- the user, where the entry says so; the kernel, below KERNBASE
    if d ∈ s.dirs ∧ v < 2 ^ 20 ∧ Present (s.mem.pteOf d v) ∧ (User (s.mem.pteOf d v) ∨ v < 2 ^ 19)
    then some { s with mem := s.mem.setPage (frame (s.mem.pteOf d v)) x }
    else none

/-- How the callers of vm.c call it: `allocuvm` is for pages that are not there yet. -/
def Allowed (s : State) : Act → Prop
  | .allocuvm d oldsz newsz =>
    ∀ u, pageUp oldsz ≤ u → u < pageUp newsz → ¬Present (s.mem.pteOf d u)
  | .deallocuvm _ oldsz _ => oldsz ≤ 2 ^ 31
  | .copyuvm _ sz => sz ≤ 2 ^ 31
  | _ => True

/-- After `kinit2`: the free pages, and nothing in use. -/
def State.boot (page : Nat → Page) (free : List Nat) : State := ⟨⟨page, free, 0⟩, [], []⟩

/-! ## 3. Runs -/

section

variable {l : Layout} {m' : Mem} {own own' : Nat → Owner} {d f : Nat} {x : Option Nat} {s t : State}
  {a : Act}

structure Inv (l : Layout) (s : State) (own : Nat → Owner) : Prop where
  wf : Wf l s.mem own
  dirs : ∀ d ∈ s.dirs, own d = .dir
  held : ∀ f ∈ s.held, own f = .held

/-- Every address space that the call is not on is there afterwards, with the same pages and the
same bytes in them. -/
def Spares (a : Act) (s t : State) : Prop :=
  ∀ d ∈ s.dirs, a.on ≠ some d → d ∈ t.dirs ∧ ∀ u, u < 2 ^ 19 →
    t.mem.pteOf d u = s.mem.pteOf d u ∧ (Present (s.mem.pteOf d u) →
      t.mem.page (frame (s.mem.pteOf d u)) = s.mem.page (frame (s.mem.pteOf d u)))

theorem Inv.own_page (h : Inv l s own) {u : Nat} (hd : d ∈ s.dirs) (hu : u < 2 ^ 19)
    (hp : Present (s.mem.pteOf d u)) : own (frame (s.mem.pteOf d u)) = .page d u :=
  (h.wf.tables.page d u _).mpr ⟨h.dirs d hd, hu, hp, rfl⟩

theorem Inv.next (h : Inv l s own) (hap : Apart l x s.mem own t.mem own')
    (hdirs : ∀ d ∈ t.dirs, d ∈ s.dirs ∧ some d ≠ x ∨ own' d = .dir)
    (hheld : ∀ f ∈ t.held, f ∈ s.held ∧ some f ≠ x ∨ own' f = .held)
    (hkeep : ∀ d ∈ s.dirs, a.on ≠ some d → d ∈ t.dirs ∧ some d ≠ x) :
    ∃ own', Inv l t own' ∧ Spares a s t := by
  refine ⟨own', ⟨hap.wf, fun d hd => ?_, fun f hf => ?_⟩, fun d hd hon => ?_⟩
  · rcases hdirs d hd with ⟨hd, hne⟩ | hd
    · exact hap.dir d (h.dirs d hd) hne
    · exact hd
  · rcases hheld f hf with ⟨hf, hne⟩ | hf
    · exact hap.held f (h.held f hf) hne
    · exact hf
  · obtain ⟨hmem, hne⟩ := hkeep d hd hon
    refine ⟨hmem, fun u hu => ⟨hap.pte d u (h.dirs d hd) hne, fun hp => ?_⟩⟩
    exact hap.page _ d u (h.own_page hd hu hp) hne

theorem Inv.same (h : Inv l s own) : ∃ own', Inv l s own' ∧ Spares a s s :=
  ⟨own, h, fun _ hd _ => ⟨hd, fun _ _ => ⟨rfl, fun _ => rfl⟩⟩⟩

/-- A call that changes no directory that is there, and makes some. -/
theorem Inv.kept {new : List Nat} (h : Inv l s own) (hk : Kept l s.mem own m' own')
    (hnew : ∀ d ∈ new, own' d = .dir) :
    ∃ own', Inv l ⟨m', new ++ s.dirs, s.held⟩ own' ∧ Spares a s ⟨m', new ++ s.dirs, s.held⟩ := by
  refine h.next (x := none) hk.apart (fun d hd => ?_) (fun f hf => .inl ⟨hf, Option.some_ne_none f⟩)
    fun d hd _ => ⟨List.mem_append_right new hd, Option.some_ne_none d⟩
  rcases List.mem_append.1 hd with hd | hd
  · exact .inr (hnew d hd)
  · exact .inl ⟨hd, Option.some_ne_none d⟩

theorem Inv.ne_held (h : Inv l s own) (hd : d ∈ s.dirs) (hf : f ∈ s.held) : some f ≠ some d := by
  rintro ⟨⟩
  cases (h.dirs d hd).symm.trans (h.held d hf)

/-- A call on the directory `d`, which stays. -/
theorem Inv.on (h : Inv l s own) (hd : d ∈ s.dirs) (ha : a.on = some d)
    (hap : Apart l (some d) s.mem own m' own') (hd' : own' d = .dir) :
    ∃ own', Inv l { s with mem := m' } own' ∧ Spares a s { s with mem := m' } := by
  refine h.next hap (fun d' hmem => ?_) (fun f hf => .inl ⟨hf, h.ne_held hd hf⟩)
    fun d' hmem hon => ⟨hmem, (ha ▸ hon).symm⟩
  by_cases e : d' = d
  · exact .inr (e ▸ hd')
  · exact .inl ⟨hmem, fun e' => e (Option.some.inj e')⟩

/-- **Every call** keeps the record of owners, and spares the address spaces it is not on. -/
theorem Inv.step (h : Inv l s own) (ha : Allowed s a) (ht : step l s a = some t) :
    ∃ own', Inv l t own' ∧ Spares a s t := by
  cases a with
  | setupkvm =>
    rcases setupkvm_spec h.wf with ⟨-, hrun⟩ | ⟨d, r, m', own', hrun, hset⟩
    · rw [Spaces.step, hrun] at ht
      cases ht
      exact h.same
    · rw [Spaces.step, hrun] at ht
      cases ht
      refine h.kept (hset.mapped.grows.kept hset.before) fun d' hd' => ?_
      cases r with
      | false => simp at hd'
      | true =>
        obtain rfl : d' = d := by simpa using hd'
        exact hset.after
  | allocuvm d oldsz newsz =>
    rw [Spaces.step, Option.ite_none_right_eq_some] at ht
    obtain ⟨hd, ht⟩ := ht
    have hdir := h.dirs d hd
    by_cases hle : oldsz ≤ newsz ∧ newsz < 2 ^ 31
    · obtain ⟨m', own', ⟨hrun, k, hfilled, -⟩ | ⟨-, hrun, -, hundone⟩⟩ :=
        allocuvm_spec h.wf hdir hle.1 hle.2 ha
      · rw [hrun] at ht
        cases ht
        exact h.on hd rfl hfilled.grows.apart (hfilled.grows.dir hdir)
      · rw [hrun] at ht
        cases ht
        exact h.on hd rfl hundone.grows.apart (hundone.grows.dir hdir)
    · obtain ⟨r, hrun⟩ : ∃ r, Vm.allocuvm d oldsz newsz l s.mem = .ok r s.mem := by
        unfold Vm.allocuvm
        split
        · exact ⟨_, rfl⟩
        · rw [if_pos (by omega)]
          exact ⟨_, rfl⟩
      rw [hrun] at ht
      cases ht
      exact h.same
  | deallocuvm d oldsz newsz =>
    rw [Spaces.step, Option.ite_none_right_eq_some] at ht
    obtain ⟨hd, ht⟩ := ht
    by_cases hlt : newsz < oldsz
    · obtain ⟨m', own', hrun, hshrink⟩ := deallocuvm_reaches h.wf (h.dirs d hd) ha hlt
      rw [hrun] at ht
      cases ht
      exact h.on hd rfl hshrink.apart (hshrink.dir (h.dirs d hd))
    · rw [Vm.deallocuvm, if_pos (by omega)] at ht
      cases ht
      exact h.same
  | copyuvm d sz =>
    rw [Spaces.step, Option.ite_none_right_eq_some] at ht
    obtain ⟨hd, ht⟩ := ht
    rcases copyuvm_spec h.wf (h.dirs d hd) ha with ⟨-, e, m', hrun⟩ | ⟨m', own', hrun, hfail, -⟩ |
      ⟨d', m', own', hrun, hcopy⟩
    · rw [hrun] at ht
      cases ht
    · rw [hrun] at ht
      cases ht
      exact h.kept hfail.kept (by simp)
    · rw [hrun] at ht
      cases ht
      refine h.kept (hcopy.grows.kept hcopy.before) fun d'' hd'' => ?_
      obtain rfl : d'' = d' := by simpa using hd''
      exact hcopy.after
  | freevm d =>
    rw [Spaces.step, Option.ite_none_right_eq_some] at ht
    obtain ⟨hd, ht⟩ := ht
    obtain ⟨m', own', hrun, hfreed⟩ := freevm_spec h.wf (h.dirs d hd)
    rw [hrun] at ht
    cases ht
    refine h.next hfreed.apart (fun d' hd' => .inl ?_)
      (fun f hf => .inl ⟨hf, h.ne_held hd hf⟩) fun d' hd' hon => ⟨?_, hon.symm⟩
    · simpa using hd'
    · exact List.mem_filter.2 ⟨hd', decide_eq_true fun e => hon (congrArg some e.symm)⟩
  | kalloc =>
    rw [Spaces.step] at ht
    cases hfree : s.mem.free with
    | nil =>
      rw [kalloc_nil hfree] at ht
      cases ht
      exact h.same
    | cons f rest =>
      rw [kalloc_cons hfree] at ht
      cases ht
      have hkept : Kept l s.mem own { s.mem with free := rest } (Function.update own f .held) := by
        refine ⟨h.wf.take hfree, fun g hg => Function.update_of_ne ?_ _ _, fun _ _ => rfl,
          fun _ _ _ => rfl⟩
        rintro rfl
        exact hg (h.wf.own_head hfree)
      refine h.next (x := none) hkept.apart (fun d hd => .inl ⟨hd, Option.some_ne_none d⟩)
        (fun g hg => ?_) fun d hd _ => ⟨hd, Option.some_ne_none d⟩
      rcases List.mem_cons.1 hg with rfl | hg
      · exact .inr (Function.update_self ..)
      · exact .inl ⟨hg, Option.some_ne_none g⟩
  | kfree f =>
    rw [Spaces.step, Option.ite_none_right_eq_some] at ht
    obtain ⟨hf, ht⟩ := ht
    obtain ⟨m', hrun, hgives⟩ := gives_one h.wf (h.held f hf)
    rw [hrun] at ht
    cases ht
    refine h.next (hgives.apart h.wf (h.held f hf)) (fun d hd => .inl ⟨hd, (h.ne_held hd hf).symm⟩)
      (fun g hg => .inl ?_) fun d hd _ => ⟨hd, (h.ne_held hd hf).symm⟩
    simpa using hg
  | write d v x =>
    rw [Spaces.step, Option.ite_none_right_eq_some] at ht
    obtain ⟨⟨hd, hv, hp, huser⟩, ⟨⟩⟩ := ht
    have hlow : v < 2 ^ 19 := by
      by_contra hhigh
      exact h.wf.tables.kernel d v (h.dirs d hd) (by omega) hv hp (huser.resolve_right hhigh)
    exact h.on hd rfl (h.wf.write_apart (h.own_page hd hlow hp) x) (h.dirs d hd)

end

/-- A kernel at frame 300, with seventy free pages. -/
def layout : Layout := ⟨300, 400, by decide, by decide, by decide⟩

end Spaces

end Xv6.Vm
