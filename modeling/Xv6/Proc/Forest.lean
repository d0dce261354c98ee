/-
# The process tree is a forest rooted at init -- unless a parent calls `texit`

`exit` hands its children to init before it becomes a zombie; `texit` has that loop commented
out.  A process that calls `texit` while it has children therefore leaves them with a `parent`
pointer into a slot that `wait` will give back: from then on the pointer leads nowhere, or to
whoever gets the slot next (`texit_orphans_a_child`).

Everything else about the tree is in order, and this file proves it.  What the tree's shape
depends on is projected out of the kernel (`Kernel.shape`), and every step of `proc.c` is one of
four operations on shapes: it changes a slot that no active process is in (`Tree.setNode`), it
moves a process from one call to another (`Tree.setCall`), it draws a pid (`Tree.bump`), or a
process leaves (`Tree.depart`).  The invariant `Tree` carries two facts that none of
the code states: a parent is always ACTIVE, and it was always born earlier.  The second is
why following `parent` cannot go round in circles.
-/
import Xv6.Proc.Table

namespace Xv6.Ptable

open Xv6.Runs

/-! ## 1. The shape of the process table -/

/-- What a slot's state means for the tree: the three states in which a process can still
run are one. -/
inductive Phase
  | unused | embryo | active | zombie
  deriving DecidableEq, Repr

def ProcState.phase : ProcState → Phase
  | .unused => .unused
  | .embryo => .embryo
  | .sleeping | .runnable | .running => .active
  | .zombie => .zombie

/-- A slot, as far as the tree is concerned. -/
structure Node where
  phase : Phase
  born : Nat
  parent : Option Slot
  isthread : Bool
  guardian : Nat

def Proc.node (x : Proc) : Node := ⟨x.state.phase, x.born, x.parent, x.isthread, x.guardian⟩

/-- The slot a call is filling in. -/
def Call.np : Call → Option Slot
  | .forking np | .cloning np _ | .adopted np => some np
  | .user | .waiting | .execing _ => none

structure Shape where
  node : Slot → Node
  call : Slot → Call
  nextpid : Nat
  initproc : Slot

def Kernel.shape (k : Kernel) : Shape :=
  ⟨fun p => (k.proc p).node, k.call, k.nextpid, k.initproc⟩

namespace Shape

def setNode (s : Shape) (p : Slot) (n : Node) : Shape :=
  { s with node := Function.update s.node p n }

def setCall (s : Shape) (p : Slot) (c : Call) : Shape :=
  { s with call := Function.update s.call p c }

/-- The process can still run. -/
def Active (s : Shape) (p : Slot) : Prop := (s.node p).phase = .active

/-- The process is neither `UNUSED` nor `EMBRYO`. -/
def Live (s : Shape) (p : Slot) : Prop := (s.node p).phase = .active ∨ (s.node p).phase = .zombie

/-- `n` is properly placed under `q`: `q` can still run, is older, is who `n` was given to, and
is not a thread if `n` is one. -/
structure Under (s : Shape) (n : Node) (q : Slot) : Prop where
  parent : n.parent = some q
  active : s.Active q
  older : (s.node q).born < n.born
  given : n.guardian = (s.node q).born
  plain : n.isthread = true → (s.node q).isthread = false

/-- **The invariant of the process tree.** -/
structure Tree (s : Shape) : Prop where
  initActive : s.Active s.initproc
  initPlain : (s.node s.initproc).isthread = false
  initFirst : ∀ p, p ≠ s.initproc → (s.node p).phase ≠ .unused →
    (s.node s.initproc).born < (s.node p).born
  bornLt : ∀ p, (s.node p).phase ≠ .unused → (s.node p).born < s.nextpid
  placed : ∀ p, s.Live p → p ≠ s.initproc → ∃ q, s.Under (s.node p) q
  busy : ∀ p, s.call p ≠ .user → s.Active p
  embryo : ∀ p np, (s.call p).np = some np →
    (s.node np).phase = .embryo ∧ (s.node p).born < (s.node np).born
  builder : ∀ p p' np, (s.call p).np = some np → (s.call p').np = some np → p = p'
  cloning : ∀ p np pp, s.call p = .cloning np pp →
    (s.node np).isthread = true ∧ s.Active pp ∧ (s.node pp).born ≤ (s.node p).born ∧
      (pp = p ∨ (s.node pp).isthread = false)
  adopted : ∀ p np, s.call p = .adopted np →
    (s.node np).isthread = true ∧ ∃ q, s.Under (s.node np) q

variable {s : Shape}

theorem Active.live {p : Slot} (h : s.Active p) : s.Live p := Or.inl h

theorem Active.ne_unused {p : Slot} (h : s.Active p) : (s.node p).phase ≠ .unused := by
  rw [h]; simp

/-! ## 2. Three of the four operations keep the tree -/

section SetNode

variable {np : Slot} {n : Node}

@[simp] theorem setNode_same : (s.setNode np n).node np = n := by simp [setNode]

@[simp] theorem setNode_ne {q : Slot} (h : q ≠ np) : (s.setNode np n).node q = s.node q := by
  simp [setNode, h]

@[simp] theorem setNode_call : (s.setNode np n).call = s.call := rfl
@[simp] theorem setNode_nextpid : (s.setNode np n).nextpid = s.nextpid := rfl
@[simp] theorem setNode_initproc : (s.setNode np n).initproc = s.initproc := rfl

/-- Nothing about the other slots changes. -/
theorem Under.setNode {m : Node} {q : Slot} (h : s.Under m q) (hq : ¬ s.Active np) :
    (s.setNode np n).Under m q := by
  have hne : q ≠ np := fun e => hq (e ▸ h.active)
  refine ⟨h.parent, ?_, ?_, ?_, ?_⟩
  · simpa [Active, hne] using h.active
  · simpa [hne] using h.older
  · simpa [hne] using h.given
  · simpa [hne] using h.plain

/-- **Changing a slot that no active process is in.**  Whoever is filling the slot in must find
it still `EMBRYO` and still younger; and if it is a process now, it must be properly placed. -/
theorem Tree.setNode (h : Tree s) (hnp : ¬ s.Active np)
    (hborn : n.phase ≠ .unused → n.born < s.nextpid ∧ (s.node s.initproc).born < n.born)
    (hact : n.phase = .active ∨ n.phase = .zombie → ∃ q, s.Under n q)
    (hclaim : ∀ p, (s.call p).np = some np →
      n.phase = .embryo ∧ (s.node p).born < n.born ∧
        (∀ pp, s.call p = .cloning np pp → n.isthread = true) ∧
        (s.call p = .adopted np → n.isthread = true ∧ ∃ q, s.Under n q)) :
    Tree (s.setNode np n) := by
  have hinit : s.initproc ≠ np := fun e => hnp (e ▸ h.initActive)
  -- an active process is not the changed slot, and is still active
  have hkeep : ∀ q, s.Active q → q ≠ np ∧ (s.setNode np n).Active q := by
    intro q hq
    have hne : q ≠ np := fun e => hnp (e ▸ hq)
    exact ⟨hne, by simpa [Active, hne] using hq⟩
  refine ⟨(hkeep _ h.initActive).2, ?_, ?_, ?_, ?_, ?_, ?_, h.builder, ?_, ?_⟩
  · simpa [hinit] using h.initPlain
  · intro p hp hph
    simp only [setNode_initproc] at hp ⊢
    rw [setNode_ne hinit]
    by_cases hpn : p = np
    · subst hpn
      rw [setNode_same] at hph ⊢
      exact (hborn hph).2
    · rw [setNode_ne hpn] at hph ⊢
      exact h.initFirst p hp hph
  · intro p hph
    by_cases hpn : p = np
    · subst hpn
      rw [setNode_same] at hph ⊢
      exact (hborn hph).1
    · rw [setNode_ne hpn] at hph ⊢
      exact h.bornLt p hph
  · intro p hlive hp
    by_cases hpn : p = np
    · subst hpn
      simp only [Live, setNode_same] at hlive ⊢
      obtain ⟨q, hq⟩ := hact hlive
      exact ⟨q, hq.setNode hnp⟩
    · simp only [Live, setNode_ne hpn] at hlive ⊢
      obtain ⟨q, hq⟩ := h.placed p hlive hp
      exact ⟨q, hq.setNode hnp⟩
  · exact fun p hp => (hkeep p (h.busy p hp)).2
  · intro p m hm
    have hpne : p ≠ np := (hkeep p (h.busy p fun e => by rw [setNode_call, e] at hm; cases hm)).1
    by_cases hmn : m = np
    · subst hmn
      obtain ⟨h1, h2, -⟩ := hclaim p hm
      simp only [setNode_same, setNode_ne hpne]
      exact ⟨h1, h2⟩
    · simp only [setNode_ne hmn, setNode_ne hpne]
      exact h.embryo p m hm
  · intro p m pp hc
    obtain ⟨h1, h2, h3, h4⟩ := h.cloning p m pp hc
    have hpne : p ≠ np := (hkeep p (h.busy p fun e => by rw [setNode_call, e] at hc; cases hc)).1
    have hppne : pp ≠ np := (hkeep pp h2).1
    refine ⟨?_, (hkeep pp h2).2, by simpa [hpne, hppne] using h3, by simpa [hppne] using h4⟩
    by_cases hmn : m = np
    · subst hmn
      rw [setNode_same]
      exact (hclaim p (by simp [setNode_call] at hc; simp [hc, Call.np])).2.2.1 pp hc
    · rw [setNode_ne hmn]
      exact h1
  · intro p m hc
    by_cases hmn : m = np
    · subst hmn
      obtain ⟨h1, q, hq⟩ := (hclaim p (by simp [setNode_call] at hc; simp [hc, Call.np])).2.2.2 hc
      rw [setNode_same]
      exact ⟨h1, q, hq.setNode hnp⟩
    · rw [setNode_ne hmn]
      obtain ⟨h1, q, hq⟩ := h.adopted p m hc
      exact ⟨h1, q, hq.setNode hnp⟩

end SetNode

/-- **Moving a process from one call to the next.** -/
theorem Tree.setCall (h : Tree s) {p : Slot} {c : Call} (hp : c ≠ .user → s.Active p)
    (hnp : ∀ np, c.np = some np → (s.node np).phase = .embryo ∧ (s.node p).born < (s.node np).born ∧
      ∀ p', p' ≠ p → (s.call p').np ≠ some np)
    (hcl : ∀ np pp, c = .cloning np pp → (s.node np).isthread = true ∧ s.Active pp ∧
      (s.node pp).born ≤ (s.node p).born ∧ (pp = p ∨ (s.node pp).isthread = false))
    (had : ∀ np, c = .adopted np →
      (s.node np).isthread = true ∧ ∃ q, s.Under (s.node np) q) :
    Tree (s.setCall p c) := by
  have hcall : ∀ q, (s.setCall p c).call q = if q = p then c else s.call q := by
    intro q
    by_cases hq : q = p
    · subst hq; simp [Shape.setCall]
    · simp [Shape.setCall, hq]
  refine ⟨h.initActive, h.initPlain, h.initFirst, h.bornLt,
    fun q hl hq => (h.placed q hl hq).imp fun _ hu => ⟨hu.1, hu.2, hu.3, hu.4, hu.5⟩, ?_, ?_, ?_, ?_, ?_⟩
  · intro q hq
    rw [hcall] at hq
    split at hq
    · rename_i e; subst e; exact hp hq
    · exact h.busy q hq
  · intro q np hq
    rw [hcall] at hq
    split at hq
    · rename_i e; subst e; exact ⟨(hnp np hq).1, (hnp np hq).2.1⟩
    · exact h.embryo q np hq
  · intro q q' np hq hq'
    rw [hcall] at hq hq'
    split at hq
    · rename_i e
      split at hq'
      · rename_i e'; rw [e, e']
      · rename_i e'; exact absurd hq' ((hnp np hq).2.2 q' e')
    · rename_i e
      split at hq'
      · exact absurd hq ((hnp np hq').2.2 q e)
      · exact h.builder q q' np hq hq'
  · intro q np pp hq
    rw [hcall] at hq
    split at hq
    · rename_i e; subst e; exact hcl np pp hq
    · exact h.cloning q np pp hq
  · intro q np hq
    rw [hcall] at hq
    have huse : (s.node np).isthread = true ∧ ∃ r, s.Under (s.node np) r := by
      split at hq
      · exact had np hq
      · exact h.adopted q np hq
    exact ⟨huse.1, huse.2.imp fun _ hu => ⟨hu.1, hu.2, hu.3, hu.4, hu.5⟩⟩

/-- A call that fills no slot in needs only an active caller. -/
theorem Tree.setCall_plain (h : Tree s) {p : Slot} {c : Call} (hp : c ≠ .user → s.Active p)
    (hc : c.np = none) : Tree (s.setCall p c) := by
  refine h.setCall hp ?_ ?_ ?_
  · intro np hnp; rw [hc] at hnp; cases hnp
  · intro np pp e; subst e; cases hc
  · intro np e; subst e; cases hc

/-- **Drawing a pid.** -/
theorem Tree.bump (h : Tree s) : Tree { s with nextpid := s.nextpid + 1 } :=
  ⟨h.initActive, h.initPlain, h.initFirst, fun p hp => Nat.lt_succ_of_lt (h.bornLt p hp),
    fun q hl hq => (h.placed q hl hq).imp fun _ hu => ⟨hu.1, hu.2, hu.3, hu.4, hu.5⟩,
    h.busy, h.embryo, h.builder, h.cloning,
    fun p np hc => ⟨(h.adopted p np hc).1,
      (h.adopted p np hc).2.imp fun _ hu => ⟨hu.1, hu.2, hu.3, hu.4, hu.5⟩⟩⟩

/-! ## 3. The fourth: a process leaves -/

/-- `p` becomes a zombie, and some slots are given to init. -/
structure Departs (s : Shape) (p : Slot) (f : Slot → Node) : Prop where
  phase : ∀ q, (f q).phase = if q = p then .zombie else (s.node q).phase
  born : ∀ q, (f q).born = (s.node q).born
  isthread : ∀ q, (f q).isthread = (s.node q).isthread
  parent : ∀ q, ((f q).parent = (s.node q).parent ∧ (f q).guardian = (s.node q).guardian) ∨
    ((f q).parent = some s.initproc ∧ (f q).guardian = (s.node s.initproc).born)

theorem Departs.active {p q : Slot} {f : Slot → Node} (hd : Departs s p f) (hq : s.Active q)
    (hne : q ≠ p) : ({ s with node := f } : Shape).Active q := by
  simp only [Active, hd.phase, if_neg hne]
  exact hq

/-- A slot that was properly placed is so still, under the parent it had or under init. -/
theorem Departs.under {p q r : Slot} {f : Slot → Node} (hd : Departs s p f) (h : Tree s)
    (hp : p ≠ s.initproc) (hq : q ≠ s.initproc) (hu : s.Under (s.node q) r)
    (hph : (s.node q).phase ≠ .unused) (hno : (f q).parent ≠ some p) :
    ∃ r', ({ s with node := f } : Shape).Under (f q) r' := by
  rcases hd.parent q with ⟨hpar, hg⟩ | ⟨hpar, hg⟩
  · have hrp : r ≠ p := by
      rintro rfl
      exact hno (hpar.trans hu.parent)
    refine ⟨r, hpar.trans hu.parent, hd.active hu.active hrp, ?_, ?_, ?_⟩
    · simpa [hd.born] using hu.older
    · simpa [hd.born, hg] using hu.given
    · simpa [hd.isthread] using hu.plain
  · refine ⟨s.initproc, hpar, hd.active h.initActive hp.symm, ?_, ?_, ?_⟩
    · simpa [hd.born] using h.initFirst q hq hph
    · simpa [hd.born] using hg
    · exact fun _ => by simpa [hd.isthread] using h.initPlain

/-- **A process leaves**, with no clone about to make it a parent and no slot left under it. -/
theorem Tree.depart (h : Tree s) {p : Slot} {f : Slot → Node} (hd : Departs s p f)
    (hact : s.Active p) (hp : p ≠ s.initproc) (hcall : s.call p = .user)
    (hclone : ∀ c np, s.call c ≠ .cloning np p)
    (hno : ∀ q, s.Live q ∨ (∃ c, s.call c = .adopted q) → (f q).parent ≠ some p) :
    Tree { s with node := f } := by
  -- the phases are what they were, except that `p` goes from active to zombie
  have hphase : ∀ q, (f q).phase ≠ .unused → (s.node q).phase ≠ .unused := by
    intro q hq
    rw [hd.phase] at hq
    split at hq
    · rename_i e; rw [e]; exact hact.ne_unused
    · exact hq
  have hlive : ∀ q, ({ s with node := f } : Shape).Live q → s.Live q := by
    intro q hq
    simp only [Live, hd.phase] at hq
    split at hq
    · rename_i e; rw [e]; exact hact.live
    · exact hq
  have hembryo : ∀ q, (s.node q).phase = .embryo → (f q).phase = .embryo := by
    intro q hq
    rw [hd.phase, if_neg]
    · exact hq
    · rintro rfl; rw [hact] at hq; cases hq
  have hunder : ∀ q, q ≠ s.initproc → (s.node q).phase ≠ .unused →
      (s.Live q ∨ ∃ c, s.call c = .adopted q) → (∃ r, s.Under (s.node q) r) →
      ∃ r, ({ s with node := f } : Shape).Under (f q) r := by
    rintro q hq hph hk ⟨r, hr⟩
    exact hd.under h hp hq hr hph (hno q hk)
  refine ⟨hd.active h.initActive hp.symm, ?_, ?_, ?_, ?_, ?_, ?_, h.builder, ?_, ?_⟩
  · simpa [hd.isthread] using h.initPlain
  · intro q hq hph
    simp only [hd.born]
    exact h.initFirst q hq (hphase q hph)
  · intro q hph
    simp only [hd.born]
    exact h.bornLt q (hphase q hph)
  · intro q hl hq
    have hlq := hlive q hl
    refine hunder q hq ?_ (Or.inl hlq) (h.placed q hlq hq)
    rcases hlq with e | e <;> rw [e] <;> simp
  · intro q hq
    refine hd.active (h.busy q hq) ?_
    rintro rfl
    exact hq hcall
  · intro q np hq
    obtain ⟨h1, h2⟩ := h.embryo q np hq
    exact ⟨hembryo np h1, by simpa [hd.born] using h2⟩
  · intro q np pp hq
    obtain ⟨h1, h2, h3, h4⟩ := h.cloning q np pp hq
    refine ⟨by simpa [hd.isthread] using h1, hd.active h2 ?_, by simpa [hd.born] using h3,
      by simpa [hd.isthread] using h4⟩
    rintro rfl
    exact hclone q np hq
  · intro q np hq
    obtain ⟨h1, hu⟩ := h.adopted q np hq
    have hemb : (s.node np).phase = .embryo := (h.embryo q np (by rw [hq]; rfl)).1
    refine ⟨by simpa [hd.isthread] using h1, hunder np ?_ (by rw [hemb]; simp) (Or.inr ⟨q, hq⟩) hu⟩
    rintro rfl
    rw [h.initActive] at hemb
    cases hemb

end Shape

/-! ## 4. What the functions of `proc.c` do to the shape -/

theorem shape_upd (k : Kernel) (p : Slot) (f : Proc → Proc) :
    (k.upd p f).shape = k.shape.setNode p (f (k.proc p)).node := by
  simp only [Kernel.shape, Shape.setNode, Kernel.upd, Shape.mk.injEq, and_true]
  funext q
  by_cases hq : q = p
  · subst hq; simp
  · simp [hq]

theorem shape_upd_bump (k : Kernel) (p : Slot) (f : Proc → Proc) (n : Nat) :
    ({ k.upd p f with nextpid := n } : Kernel).shape =
      Shape.setNode { k.shape with nextpid := n } p (f (k.proc p)).node := by
  have h := congrArg Shape.node (shape_upd k p f)
  simp only [Kernel.shape, Shape.setNode] at h ⊢
  rw [h]
  rfl

theorem shape_setCall (k : Kernel) (p : Slot) (c : Call) :
    (k.setCall p c).shape = k.shape.setCall p c := rfl

theorem setNode_self (s : Shape) (p : Slot) : s.setNode p (s.node p) = s := by
  simp [Shape.setNode]

/-- A change of a slot that the tree does not depend on. -/
theorem shape_upd_same {k : Kernel} {p : Slot} {f : Proc → Proc}
    (h : (f (k.proc p)).node = (k.proc p).node) : (k.upd p f).shape = k.shape := by
  rw [shape_upd, h]
  exact setNode_self k.shape p

@[simp] theorem shape_newDir (k : Kernel) : k.newDir.shape = k.shape := rfl
@[simp] theorem shape_freevm (k : Kernel) (d : Option Nat) : (k.freevm d).shape = k.shape := rfl

/-- Scheduling does not move a process in the tree. -/
theorem shape_core (k : Kernel) : k.core.shape = k.shape := by
  simp only [Kernel.shape, Kernel.core, Shape.mk.injEq, and_true]
  funext p
  simp only [Proc.node, Proc.core]
  cases (k.proc p).state <;> rfl

theorem shape_eq_of_core {k k' : Kernel} (h : k'.core = k.core) : k'.shape = k.shape := by
  rw [← shape_core, h, shape_core]

theorem shape_wakeup1 (k : Kernel) (c : Option Chan) : (wakeup1 k c).shape = k.shape :=
  shape_eq_of_core (core_wakeup1 k c)

/-- The node of a slot, after the loop of `exit` has passed it to init or let it be. -/
def passed (k : Kernel) (p q : Slot) : Node :=
  if (k.proc q).parent = some p then
    { (k.proc q).node with parent := some k.initproc, guardian := (k.proc k.initproc).born }
  else (k.proc q).node

theorem shape_reparent (k : Kernel) (p : Slot) :
    (reparent k p).shape = { k.shape with node := passed k p } := by
  unfold reparent
  simp only
  -- the wakeup of init that an abandoned zombie causes changes nothing here
  have hmap : (k.mapProcs fun _ x => if x.parent = some p then
      { x with parent := some k.initproc, guardian := (k.proc k.initproc).born } else x).shape =
      { k.shape with node := passed k p } := by
    simp only [Kernel.shape, Kernel.mapProcs, Shape.mk.injEq, and_true]
    funext q
    unfold passed
    split <;> rfl
  split
  · rw [shape_wakeup1, hmap]
  · exact hmap

/-- `wakeup1` leaves everything but the state alone. -/
theorem wakeup1_proc (k : Kernel) (c : Option Chan) (q : Slot) :
    ∃ st, (wakeup1 k c).proc q = { k.proc q with state := st } := by
  simp only [wakeup1, mapProcs_proc]
  split
  · exact ⟨_, rfl⟩
  · exact ⟨_, rfl⟩

theorem passed_wakeup1 (k : Kernel) (c : Option Chan) (p : Slot) :
    passed (wakeup1 k c) p = passed k p := by
  funext q
  obtain ⟨st, hst⟩ := wakeup1_proc k c q
  obtain ⟨si, hsi⟩ := wakeup1_proc k c k.initproc
  have hnode : ((wakeup1 k c).proc q).node = (k.proc q).node :=
    congrFun (congrArg Shape.node (shape_wakeup1 k c)) q
  have hinit : (wakeup1 k c).initproc = k.initproc := rfl
  simp only [passed, hnode, hinit, hsi]
  rw [hst]

theorem departs_texit (k : Kernel) (p : Slot) :
    k.shape.Departs p (texit k p).shape.node := by
  have hs : (texit k p).shape.node =
      Function.update k.shape.node p { k.shape.node p with phase := .zombie } := by
    rw [texit, shape_upd, shape_wakeup1]
    obtain ⟨st, hst⟩ := wakeup1_proc k ((k.proc p).parent.map .proc) p
    rw [hst]
    rfl
  refine ⟨fun q => ?_, fun q => ?_, fun q => ?_, fun q => Or.inl ?_⟩ <;>
    by_cases hq : q = p <;> simp [hs, hq]

theorem shape_exit_node (k : Kernel) (p : Slot) :
    (exit k p).shape.node = Function.update (passed k p) p { passed k p p with phase := .zombie } := by
  rw [exit, shape_upd, shape_reparent]
  simp only [Shape.setNode, passed_wakeup1]
  congr 1
  have := congrFun (congrArg Shape.node
    (shape_reparent (wakeup1 k ((k.proc p).parent.map .proc)) p)) p
  simp only [passed_wakeup1] at this
  simp only [← this, Kernel.shape, Proc.node, ProcState.phase]

theorem departs_exit (k : Kernel) (p : Slot) : k.shape.Departs p (exit k p).shape.node := by
  have hpass : ∀ q, (passed k p q).phase = (k.shape.node q).phase ∧
      (passed k p q).born = (k.shape.node q).born ∧
      (passed k p q).isthread = (k.shape.node q).isthread ∧
      (((passed k p q).parent = (k.shape.node q).parent ∧
          (passed k p q).guardian = (k.shape.node q).guardian) ∨
        ((passed k p q).parent = some k.shape.initproc ∧
          (passed k p q).guardian = (k.shape.node k.shape.initproc).born)) := by
    intro q
    unfold passed
    split
    · exact ⟨rfl, rfl, rfl, Or.inr ⟨rfl, rfl⟩⟩
    · exact ⟨rfl, rfl, rfl, Or.inl ⟨rfl, rfl⟩⟩
  rw [shape_exit_node]
  refine ⟨fun q => ?_, fun q => ?_, fun q => ?_, fun q => ?_⟩ <;>
    by_cases hq : q = p <;> simp [hq, hpass]

/-- After `exit` nobody's parent is the process that left. -/
theorem exit_parent_ne (k : Kernel) {p : Slot} (hp : p ≠ k.initproc) (q : Slot) :
    ((exit k p).shape.node q).parent ≠ some p := by
  have hpass : (passed k p q).parent ≠ some p := by
    unfold passed
    split
    · simpa using hp.symm
    · assumption
  rw [shape_exit_node]
  by_cases hq : q = p
  · subst hq; simpa using hpass
  · simpa [hq] using hpass

/-! ## 5. Every step keeps the tree -/

section Steps

variable {k : Kernel} {p : Slot}

/-- Nobody is filling in a slot that is not `EMBRYO`. -/
theorem Shape.Tree.unclaimed {s : Shape} (h : s.Tree) {np : Slot}
    (hnp : (s.node np).phase ≠ .embryo) (p : Slot) : (s.call p).np ≠ some np :=
  fun hp => hnp (h.embryo p np hp).1

theorem Shape.Tree.ne_init {k : Kernel} (h : k.shape.Tree) {p : Slot}
    (ht : (k.proc p).isthread = true) : p ≠ k.initproc := by
  rintro rfl
  have : (k.proc k.initproc).isthread = false := h.initPlain
  rw [ht] at this
  cases this

/-- Taking a slot, or giving it back at once, with the next pid. -/
theorem Shape.Tree.take {s : Shape} (h : s.Tree) {np : Slot} {n : Node}
    (hnp : (s.node np).phase = .unused) (hph : n.phase = .unused ∨ n.phase = .embryo)
    (hborn : n.born = s.nextpid) :
    Shape.Tree ({ s with nextpid := s.nextpid + 1 }.setNode np n) := by
  refine h.bump.setNode ?_ ?_ ?_ ?_
  · simp [Shape.Active, hnp]
  · intro _
    rw [hborn]
    exact ⟨Nat.lt_succ_self _, h.bornLt _ h.initActive.ne_unused⟩
  · rcases hph with e | e <;> simp [e]
  · exact fun p hp => absurd hp (h.unclaimed (by simp [hnp]) p)

/-- **`allocproc`** keeps the tree, and the slot it returns is a new `EMBRYO`, younger than
every process, that nobody else is filling in. -/
theorem tree_allocproc (h : k.shape.Tree) (kallocOk : Bool) :
    (allocproc k kallocOk).2.shape.Tree ∧
      ∀ np, (allocproc k kallocOk).1 = some np →
        ((allocproc k kallocOk).2.proc np).state = .embryo ∧
        (∀ q, (k.proc q).state ≠ .unused → (allocproc k kallocOk).2.proc q = k.proc q ∧
          (k.proc q).born < ((allocproc k kallocOk).2.proc np).born) ∧
        (∀ q, ((allocproc k kallocOk).2.call q).np ≠ some np) ∧
        (allocproc k kallocOk).2.call = k.call := by
  rcases allocproc_cases k kallocOk with he | ⟨np, hun, he⟩
  · rw [he]
    exact ⟨h, by simp⟩
  have hph : (k.shape.node np).phase = .unused := by
    simp [Kernel.shape, Proc.node, hun, ProcState.phase]
  cases kallocOk with
  | false =>
    rw [he]
    refine ⟨?_, by simp⟩
    simp only [Bool.false_eq_true, if_false, shape_upd_bump]
    exact h.take hph (Or.inl rfl) rfl
  | true =>
    rw [he]
    simp only [if_true, shape_upd_bump]
    refine ⟨h.take hph (Or.inr rfl) rfl, ?_⟩
    rintro m hm
    obtain rfl : np = m := by simpa using hm
    refine ⟨by simp, ?_, ?_, rfl⟩
    · intro q hq
      have hne : q ≠ np := by rintro rfl; exact hq hun
      refine ⟨by simp [hne], ?_⟩
      have hlt : (k.proc q).born < k.nextpid := by
        refine h.bornLt q ?_
        intro e
        apply hq
        revert e
        simp only [Kernel.shape, Proc.node]
        cases (k.proc q).state <;> simp [ProcState.phase]
      simpa using hlt
    · exact h.unclaimed (by simp [hph])

/-- **Finishing a slot.**  The process that was filling `np` in leaves it, as a process that is
properly placed or as `UNUSED` again. -/
theorem Shape.Tree.finish {s : Shape} (h : s.Tree) {np : Slot} {n : Node}
    (hp : (s.call p).np = some np)
    (hn : n.phase = .unused ∨
      (n.phase = .active ∧ n.born = (s.node np).born ∧ ∃ q, s.Under n q)) :
    Shape.Tree ((s.setNode np n).setCall p .user) := by
  have hemb := h.embryo p np hp
  have h' : Shape.Tree (s.setCall p .user) := h.setCall_plain (by simp) rfl
  refine h'.setNode ?_ ?_ ?_ ?_
  · simp [Shape.Active, Shape.setCall, hemb.1]
  · intro hph
    rcases hn with e | ⟨-, e, -⟩
    · exact absurd e hph
    · have hne : np ≠ s.initproc := by
        rintro rfl
        rw [h.initActive] at hemb
        cases hemb.1
      rw [e]
      exact ⟨h.bornLt np (by simp [hemb.1]), h.initFirst np hne (by simp [hemb.1])⟩
  · intro hph
    rcases hn with e | ⟨-, -, q, hq⟩
    · simp [e] at hph
    · exact ⟨q, hq.1, hq.2, hq.3, hq.4, hq.5⟩
  · -- nobody else was filling it in
    intro p' hp'
    have hne : p' ≠ p := by
      rintro rfl
      simp [Shape.setCall, Call.np] at hp'
    have : (s.call p').np = some np := by simpa [Shape.setCall, hne] using hp'
    exact absurd (h.builder p' p np this hp) hne

theorem active_of_state (h : (k.proc p).state = .running) : k.shape.Active p := by
  simp [Shape.Active, Kernel.shape, Proc.node, h, ProcState.phase]

theorem tree_fork (h : k.shape.Tree) {np : Slot} (hc : k.call p = .forking np) (o : Outcome) :
    (fork k p np o).shape.Tree := by
  have hnp : (k.shape.call p).np = some np := by simp [Kernel.shape, hc, Call.np]
  have hact : k.shape.Active p := h.busy p (by simp [Kernel.shape, hc])
  cases o with
  | ok =>
    simp only [fork, shape_setCall, shape_upd, shape_newDir]
    refine h.finish hnp (Or.inr ⟨rfl, rfl, p, rfl, hact, (h.embryo p np hnp).2, rfl, ?_⟩)
    simp [Proc.node]
  | noPage | halfBuilt | bad =>
    simp only [fork, shape_setCall, shape_upd, shape_newDir, shape_freevm]
    exact h.finish hnp (Or.inl rfl)

/-- `clone`, with the slot `allocproc` has just returned. -/
theorem tree_clone (h : k.shape.Tree) (hact : k.shape.Active p) {np : Slot}
    (hnew : (k.proc np).state = .embryo) (hborn : (k.proc p).born < (k.proc np).born)
    (hfree : ∀ q, (k.call q).np ≠ some np) (stack routine : Nat) :
    (clone k p np stack routine).shape.Tree := by
  unfold clone
  split
  · exact h
  have hemb : (k.shape.node np).phase = .embryo := by
    simp [Kernel.shape, Proc.node, hnew, ProcState.phase]
  have hpnp : p ≠ np := by
    rintro rfl
    rw [hact] at hemb
    cases hemb
  have hinit : np ≠ k.initproc := by
    rintro rfl
    have := h.initActive
    rw [Shape.Active, show k.shape.initproc = k.initproc from rfl, hemb] at this
    cases this
  rw [shape_setCall, shape_upd]
  have h' : Shape.Tree (k.shape.setNode np
      ⟨.embryo, (k.proc np).born, some p, true, (k.proc p).born⟩) :=
    h.setNode (by simp [Shape.Active, hemb])
    (fun _ => ⟨h.bornLt np (by simp [hemb]), h.initFirst np hinit (by simp [hemb])⟩) (by simp)
    (fun q hq => absurd hq (hfree q))
  have hnode : ({ k.proc np with
      pgdir := (k.proc p).pgdir, parent := some p, isthread := true,
      guardian := (k.proc p).born, built := true } : Proc).node =
      ⟨.embryo, (k.proc np).born, some p, true, (k.proc p).born⟩ := by
    simp [Proc.node, hnew, ProcState.phase]
  rw [hnode]
  have hact' : (k.shape.setNode np ⟨.embryo, (k.proc np).born, some p, true,
      (k.proc p).born⟩).Active p := by simpa [Shape.Active, hpnp] using hact
  refine h'.setCall (fun _ => hact') ?_ ?_ ?_
  · intro m hm
    obtain rfl : np = m := by simpa [Call.np] using hm
    rw [Shape.setNode_same, Shape.setNode_ne hpnp]
    exact ⟨rfl, hborn, fun q _ => hfree q⟩
  · intro m pp e
    obtain ⟨rfl, rfl⟩ : np = m ∧ p = pp := by simpa using e
    exact ⟨by simp, hact', le_rfl, Or.inl rfl⟩
  · intro m e
    cases e

/-- **One evaluation of the loop of `clone`.**  Either the caller is a thread, and `pp` moves
from the caller to the caller's parent; or `pp` is not a thread, and becomes the parent. -/
theorem tree_cloneLoop {k' : Kernel} (h : k.shape.Tree) {np pp : Slot}
    (hc : k.call p = .cloning np pp) (hs : cloneLoop k p np pp = some k') : k'.shape.Tree := by
  have hcs : k.shape.call p = .cloning np pp := hc
  obtain ⟨hthr, hppact, hpple, hplain⟩ := h.cloning p np pp hcs
  have hnp : (k.shape.call p).np = some np := by rw [hcs]; rfl
  have hact : k.shape.Active p := h.busy p (by simp [hcs])
  have halone : ∀ q, q ≠ p → (k.shape.call q).np ≠ some np :=
    fun q hq e => hq (h.builder q p np e hnp)
  obtain ⟨hemb, holder⟩ := h.embryo p np hnp
  unfold cloneLoop at hs
  split at hs
  · rename_i hpp
    rw [Option.map_eq_some_iff] at hs
    obtain ⟨q, hq, rfl⟩ := hs
    -- `pp` is a thread, so it is still the caller
    have hpe : pp = p := by
      rcases hplain with e | e
      · exact e
      · have : (k.proc pp).isthread = false := e
        rw [hpp] at this
        cases this
    subst hpe
    obtain ⟨r, hr⟩ := h.placed pp hact.live (h.ne_init hpp)
    obtain rfl : q = r := by
      have : (k.proc pp).parent = some r := hr.parent
      rw [hq] at this
      exact Option.some.inj this
    refine h.setCall (fun _ => hact) ?_ ?_ ?_
    · intro m hm
      obtain rfl : np = m := by simpa [Call.np] using hm
      exact ⟨hemb, holder, halone⟩
    · intro m r e
      obtain ⟨rfl, rfl⟩ : np = m ∧ q = r := by simpa using e
      exact ⟨hthr, hr.active, hr.older.le, Or.inr (hr.plain hpp)⟩
    · intro m e
      cases e
  · rename_i hpp
    obtain rfl : _ = k' := Option.some.inj hs
    have hppf : (k.proc pp).isthread = false := by simpa using hpp
    have hne : ∀ q, k.shape.Active q → q ≠ np := by
      rintro q hq rfl
      rw [hq] at hemb
      cases hemb
    have hu : k.shape.Under ({ k.proc np with
        parent := some pp, guardian := (k.proc pp).born } : Proc).node pp :=
      ⟨rfl, hppact, lt_of_le_of_lt hpple holder, rfl, fun _ => hppf⟩
    rw [shape_setCall, shape_upd]
    have h' : Shape.Tree (k.shape.setNode np ({ k.proc np with
        parent := some pp, guardian := (k.proc pp).born } : Proc).node) := h.setNode
      (fun e => hne np e rfl)
      (fun _ => ⟨h.bornLt np (by simp [hemb]),
        h.initFirst np (hne _ h.initActive).symm (by simp [hemb])⟩)
      (fun e => by
        have : (k.proc np).node.phase = .embryo := hemb
        simp only [Proc.node] at e this
        simp [this] at e)
      (fun q hq => by
        obtain rfl : q = p := h.builder q p np hq hnp
        exact ⟨hemb, holder, fun _ _ => hthr, fun e => by simp [hcs] at e⟩)
    have hpn : p ≠ np := hne p hact
    refine h'.setCall (fun _ => ?_) ?_ ?_ ?_
    · simpa [Shape.Active, hpn] using hact
    · intro m hm
      obtain rfl : np = m := by simpa [Call.np] using hm
      refine ⟨?_, ?_, halone⟩
      · rw [Shape.setNode_same]; exact hemb
      · rw [Shape.setNode_same, Shape.setNode_ne hpn]; exact holder
    · intro m r e
      cases e
    · intro m e
      obtain rfl : np = m := by simpa using e
      rw [Shape.setNode_same]
      exact ⟨hthr, pp, hu.setNode fun e => hne np e rfl⟩

theorem tree_cloneFinish (h : k.shape.Tree) {np : Slot} (hc : k.call p = .adopted np)
    (copyoutOk : Bool) : (cloneFinish k p np copyoutOk).shape.Tree := by
  unfold cloneFinish
  split
  · obtain ⟨-, q, hq⟩ := h.adopted p np hc
    rw [shape_setCall, shape_upd]
    refine h.finish (by simp [Kernel.shape, hc, Call.np]) (Or.inr ⟨rfl, rfl, q, ?_⟩)
    exact ⟨hq.1, hq.2, hq.3, hq.4, hq.5⟩
  · rw [shape_setCall]
    exact h.setCall_plain (by simp) rfl

/-- What `wait` finds is a zombie child of the caller. -/
theorem reaps_spec {q : Slot} (hr : reaps k p = some q) :
    (k.proc q).parent = some p ∧ (k.proc q).state = .zombie := by
  simpa using List.find?_some hr

theorem tree_wait (h : k.shape.Tree) (hact : k.shape.Active p) : (wait k p).shape.Tree := by
  unfold wait
  cases hr : reaps k p with
  | some q =>
    have hz : (k.shape.node q).phase = .zombie := by
      simp [Kernel.shape, Proc.node, (reaps_spec hr).2, ProcState.phase]
    have hshape : (reap k q).shape = k.shape.setNode q
        ⟨.unused, (k.proc q).born, none, (k.proc q).isthread, (k.proc q).guardian⟩ := by
      unfold reap
      split <;> exact shape_upd _ _ _
    simp only [shape_setCall, hshape]
    refine Shape.Tree.setCall_plain ?_ (by simp) rfl
    refine h.setNode (by simp [Shape.Active, hz]) (by simp) (by simp) ?_
    exact fun p' hp' => absurd hp' (h.unclaimed (by simp [hz]) p')
  | none =>
    simp only
    split
    · exact h.setCall_plain (by simp) rfl
    · rename_i hcond
      have hsame : (k.upd p fun x =>
          { x with chan := some (.proc p), state := .sleeping }).shape = k.shape := by
        refine shape_upd_same ?_
        have : (k.proc p).node.phase = .active := hact
        simp only [Proc.node] at this ⊢
        rw [this]
        rfl
      rw [shape_setCall, hsame]
      exact h.setCall_plain (fun _ => hact) rfl

/-- The call is not a clone that has read `p` as the parent of the thread it is making. -/
def Call.NotReading (p : Slot) : Call → Prop
  | .cloning _ pp => pp ≠ p
  | _ => True

/-- The call is not a clone that has made its thread a child of `p` and not finished it yet. -/
def Call.NotUnder (k : Kernel) (p : Slot) : Call → Prop
  | .adopted q => (k.proc q).parent ≠ some p
  | _ => True

instance (p : Slot) : (c : Call) → Decidable (c.NotReading p)
  | .cloning _ pp => inferInstanceAs (Decidable (pp ≠ p))
  | .user | .forking _ | .adopted _ | .waiting | .execing _ => isTrue trivial

instance (k : Kernel) (p : Slot) : (c : Call) → Decidable (c.NotUnder k p)
  | .adopted q => inferInstanceAs (Decidable ((k.proc q).parent ≠ some p))
  | .user | .forking _ | .cloning _ _ | .waiting | .execing _ => isTrue trivial

/-- Nobody is left with a parent that is about to be reaped: a process calls `texit` only
when it has no child and no clone is about to make it a parent, and `exit` only when no clone has
already read it as the parent of the thread it is making. -/
def NoOrphan (k : Kernel) : Act → Prop
  | .texit p =>
    (∀ q, (k.proc q).state = .unused ∨ (k.proc q).state = .embryo ∨ (k.proc q).parent ≠ some p) ∧
    ∀ c, (k.call c).NotReading p ∧ (k.call c).NotUnder k p
  | .exit p => ∀ c, (k.call c).NotReading p
  | _ => True

instance (k : Kernel) : (a : Act) → Decidable (NoOrphan k a)
  | .texit p => inferInstanceAs (Decidable ((∀ q, _ ∨ _ ∨ (k.proc q).parent ≠ some p) ∧ ∀ _, _))
  | .exit p => inferInstanceAs (Decidable (∀ c, (k.call c).NotReading p))
  | .schedule _ | .yield _ | .sleep _ _ | .tsleep _ | .wakeup _ | .twakeup _ _ | .forkAlloc _ _
  | .forkCopy _ _ | .cloneAlloc _ _ _ _ | .cloneLoop _ | .cloneFinish _ _ | .wait _ | .kill _ _
  | .execBuild _ _ | .execCommit _ | .execBad _ => isTrue trivial

theorem Call.NotReading.ne_cloning {c : Call} (h : c.NotReading p) {np : Slot} :
    c ≠ .cloning np p := by
  rintro rfl
  exact h rfl

theorem live_iff {q : Slot} :
    k.shape.Live q ↔ (k.proc q).state ≠ .unused ∧ (k.proc q).state ≠ .embryo := by
  simp only [Shape.Live, Kernel.shape, Proc.node]
  cases (k.proc q).state <;> simp [ProcState.phase]

theorem tree_texit (h : k.shape.Tree) (hf : k.Free p) (hp : p ≠ k.initproc)
    (hn : NoOrphan k (.texit p)) : (texit k p).shape.Tree := by
  obtain ⟨hkids, hcalls⟩ := hn
  have hnode : ∀ q, ((texit k p).shape.node q).parent = (k.proc q).parent := by
    intro q
    obtain ⟨st, hst⟩ := wakeup1_proc k ((k.proc p).parent.map .proc) q
    by_cases hq : q = p
    · subst hq; simp [texit, Kernel.shape, Proc.node, hst]
    · simp [texit, Kernel.shape, Proc.node, hst, hq]
  refine h.depart (departs_texit k p) (active_of_state hf.1) hp hf.2
    (fun c np => (hcalls c).1.ne_cloning) ?_
  rintro q (hq | ⟨c, hc⟩)
  · have := ((hkids q).resolve_left (live_iff.1 hq).1).resolve_left (live_iff.1 hq).2
    exact fun e => this ((hnode q).symm.trans e)
  · have hun := (hcalls c).2
    rw [show k.call c = .adopted q from hc] at hun
    exact fun e => hun ((hnode q).symm.trans e)

theorem tree_exit (h : k.shape.Tree) (hf : k.Free p) (hp : p ≠ k.initproc)
    (hn : NoOrphan k (.exit p)) : (exit k p).shape.Tree := by
  have hshape : (exit k p).shape = { k.shape with node := (exit k p).shape.node } := by
    simp only [Kernel.shape, exit, reparent]
    split <;> rfl
  rw [hshape]
  exact h.depart (departs_exit k p) (active_of_state hf.1) hp hf.2
    (fun c np => (hn c).ne_cloning) fun q _ => exit_parent_ne k hp q

/-- **The step lemma.** -/
theorem step_tree (k : Kernel) (a : Act) (k' : Kernel) (h : k.shape.Tree) (hn : NoOrphan k a)
    (hs : step k a = some k') : k'.shape.Tree := by
  cases a with
  | schedule _ | yield _ | sleep _ _ | tsleep _ | wakeup _ | twakeup _ _ | kill _ _ =>
    rw [shape_eq_of_core (step_idle rfl hs)]
    exact h
  | forkAlloc p kallocOk =>
    obtain ⟨hf, hal | ⟨np, k₁, hal, rfl⟩⟩ := step_forkAlloc hs <;>
      obtain ⟨ht, hnew⟩ := tree_allocproc h kallocOk <;> simp only [hal] at ht hnew
    · exact ht
    · obtain ⟨hst, hold, hfree, -⟩ := hnew np rfl
      obtain ⟨heq, hlt⟩ := hold p (by simp [hf.1])
      have hact : k₁.shape.Active p := active_of_state (by rw [heq]; exact hf.1)
      refine ht.setCall (fun _ => hact) ?_ (fun _ _ e => by cases e) (fun _ e => by cases e)
      intro m hm
      obtain rfl : np = m := by simpa [Call.np] using hm
      refine ⟨by simp [Kernel.shape, Proc.node, hst, ProcState.phase], ?_, fun q _ => hfree q⟩
      simpa [Kernel.shape, Proc.node, heq] using hlt
  | cloneAlloc p kallocOk stack routine =>
    obtain ⟨hf, hal | ⟨np, k₁, hal, rfl⟩⟩ := step_cloneAlloc hs <;>
      obtain ⟨ht, hnew⟩ := tree_allocproc h kallocOk <;> simp only [hal] at ht hnew
    · exact ht
    · obtain ⟨hst, hold, hfree, -⟩ := hnew np rfl
      obtain ⟨heq, hlt⟩ := hold p (by simp [hf.1])
      have hact : k₁.shape.Active p := active_of_state (by rw [heq]; exact hf.1)
      exact tree_clone ht hact hst (by rw [heq]; exact hlt) hfree stack routine
  | forkCopy p o =>
    obtain ⟨np, hc, rfl⟩ := step_forkCopy hs
    exact tree_fork h hc o
  | cloneLoop p =>
    obtain ⟨np, pp, hc, hs⟩ := step_cloneLoop hs
    exact tree_cloneLoop h hc hs
  | cloneFinish p copyoutOk =>
    obtain ⟨np, hc, rfl⟩ := step_cloneFinish hs
    exact tree_cloneFinish h hc copyoutOk
  | exit p =>
    obtain ⟨hf, hp, rfl⟩ := step_exit hs
    exact tree_exit h hf hp hn
  | texit p =>
    obtain ⟨hf, hp, rfl⟩ := step_texit hs
    exact tree_texit h hf hp hn
  | wait p =>
    obtain ⟨hr, -, rfl⟩ := step_wait hs
    exact tree_wait h (active_of_state hr)
  | execBuild p o =>
    obtain ⟨hf, rfl⟩ := step_execBuild hs
    cases o with
    | ok => exact h.setCall_plain (fun _ => active_of_state hf.1) rfl
    | noPage | halfBuilt | bad => exact h
  | execCommit p =>
    obtain ⟨d, -, -, rfl⟩ := step_execCommit hs
    rw [execCommit, shape_setCall, shape_freevm, shape_upd_same rfl]
    exact h.setCall_plain (by simp) rfl
  | execBad p =>
    obtain ⟨d, -, rfl⟩ := step_execBad hs
    exact h.setCall_plain (by simp) rfl

end Steps

/-! ## 6. The forest -/

/-- Follow `parent` that many times. -/
def ancestor (k : Kernel) : Nat → Slot → Option Slot
  | 0, p => some p
  | n + 1, p => (k.proc p).parent.bind (ancestor k n)

/-- **The process tree is a forest rooted at init**, and what `clone` and `wait` make of it. -/
structure Forest (k : Kernel) : Prop where
  /-- Every process has init as an ancestor, and every slot on the way is in use. -/
  reaches : ∀ p, (k.proc p).state ≠ .unused → (k.proc p).state ≠ .embryo →
    ∃ n, ancestor k n p = some k.initproc ∧
      ∀ m, m ≤ n → ∃ q, ancestor k m p = some q ∧ (k.proc q).state ≠ .unused
  /-- The parent of a thread is not a thread. -/
  threadParent : ∀ p q, (k.proc p).state ≠ .unused → (k.proc p).state ≠ .embryo →
    (k.proc p).isthread = true → (k.proc p).parent = some q → (k.proc q).isthread = false
  /-- The body of the loop of `clone` runs at most once: a `pp` that is a thread is still the
  caller itself, and its parent, the next `pp`, is another process and no thread. -/
  loop : ∀ p np pp, k.call p = .cloning np pp → (k.proc pp).isthread = true →
    pp = p ∧ ∃ q, (k.proc pp).parent = some q ∧ q ≠ p ∧ (k.proc q).isthread = false
  /-- `wait` reaps a process that its caller created, or that was given to it. -/
  reap : ∀ p q, (k.proc p).state = .running → reaps k p = some q →
    (k.proc q).guardian = (k.proc p).born

/-- Each process on the way to init is older than the one before, so the way ends. -/
theorem Shape.Tree.reaches {k : Kernel} (h : k.shape.Tree) :
    ∀ b p, (k.proc p).born = b → k.shape.Live p →
      ∃ n, ancestor k n p = some k.initproc ∧
        ∀ m, m ≤ n → ∃ q, ancestor k m p = some q ∧ (k.proc q).state ≠ .unused := by
  intro b
  induction b using Nat.strong_induction_on with
  | _ b ih =>
    rintro p rfl hlive
    by_cases hp : p = k.initproc
    · refine ⟨0, by rw [hp]; rfl, fun m hm => ?_⟩
      obtain rfl : m = 0 := Nat.le_zero.1 hm
      exact ⟨p, rfl, (live_iff.1 hlive).1⟩
    obtain ⟨q, hq⟩ := h.placed p hlive hp
    have hpar : (k.proc p).parent = some q := hq.parent
    obtain ⟨n, hn, hway⟩ := ih _ hq.older q rfl hq.active.live
    refine ⟨n + 1, by simpa [ancestor, hpar] using hn, fun m hm => ?_⟩
    cases m with
    | zero => exact ⟨p, rfl, (live_iff.1 hlive).1⟩
    | succ m =>
      obtain ⟨r, hr, hun⟩ := hway m (Nat.le_of_succ_le_succ hm)
      exact ⟨r, by simpa [ancestor, hpar] using hr, hun⟩

/-- What `parent` says of a process that is properly placed. -/
theorem Shape.Tree.under {k : Kernel} (h : k.shape.Tree) {p q : Slot} (hlive : k.shape.Live p)
    (hp : p ≠ k.initproc) (hpar : (k.proc p).parent = some q) :
    k.shape.Under (k.proc p).node q := by
  obtain ⟨r, hr⟩ := h.placed p hlive hp
  obtain rfl : q = r := Option.some.inj (hpar.symm.trans hr.parent)
  exact hr

theorem Shape.Tree.forest {k : Kernel} (h : k.shape.Tree) : Forest k where
  reaches p hu he := h.reaches _ p rfl (live_iff.2 ⟨hu, he⟩)
  threadParent p q hu he ht hpar := (h.under (live_iff.2 ⟨hu, he⟩) (h.ne_init ht) hpar).plain ht
  loop p np pp hc ht := by
    obtain ⟨-, hact, -, hor⟩ := h.cloning p np pp hc
    have hpp : pp = p := hor.resolve_right fun e => by
      have : (k.proc pp).isthread = false := e
      rw [ht] at this
      cases this
    obtain ⟨q, hq⟩ := h.placed pp hact.live (h.ne_init ht)
    refine ⟨hpp, q, hq.parent, ?_, hq.plain ht⟩
    rintro rfl
    rw [hpp] at hq
    exact absurd hq.older (lt_irrefl _)
  reap p q hr hq := by
    obtain ⟨hpar, hz⟩ := reaps_spec hq
    have hne : q ≠ k.initproc := by
      rintro rfl
      have := h.initActive
      simp [Shape.Active, Kernel.shape, Proc.node, hz, ProcState.phase] at this
    exact (h.under (live_iff.2 ⟨by simp [hz], by simp [hz]⟩) hne hpar).given

theorem tree_boot : boot.shape.Tree := by
  have hne : ∀ p : Slot, p ≠ 0 → (boot.shape.node p).phase = .unused := by
    intro p hp
    simp [boot, Kernel.shape, Proc.node, hp, Proc.zero, ProcState.phase]
  have honly : ∀ p, (boot.shape.node p).phase ≠ .unused → p = 0 := by
    intro p hp
    by_contra h
    exact hp (hne p h)
  refine ⟨rfl, rfl, fun p hp h => absurd (honly p h) hp, ?_, ?_, fun p h => absurd rfl h, ?_, ?_,
    ?_, ?_⟩
  · intro p h
    rw [honly p h]
    exact Nat.lt_succ_self 1
  · intro p hl hp
    exact absurd (honly p (by rcases hl with e | e <;> simp [e])) hp
  · intro p np h
    cases h
  · intro p p' np h
    cases h
  · intro p np pp h
    cases h
  · intro p np h
    cases h

/-- **The forest, in every run of `fork`, `clone`, `exit`, `texit`, `wait`, `kill` and the rest
in which nobody is orphaned.** -/
theorem forest_unless_orphaned (as : List Act) (k : Kernel) (hgood : Along NoOrphan step boot as)
    (hrun : run step boot as = some k) : Forest k :=
  (run_invariant step_tree as boot k tree_boot hgood hrun).forest

/-- Init's child makes a thread, the thread makes a thread (which goes to the thread's parent),
and the first thread leaves and is reaped. -/
def threads : List Act :=
  [.schedule 0, .forkAlloc 0 true, .forkCopy 0 .ok, .schedule 1,
    .cloneAlloc 1 true 4096 64, .cloneLoop 1, .cloneFinish 1 true, .schedule 2,
    .cloneAlloc 2 true 8192 64, .cloneLoop 2, .cloneLoop 2, .cloneFinish 2 true,
    .texit 2, .wait 1]

theorem forest_with_threads :
    ∃ k, run step boot threads = some k ∧ Forest k ∧ (k.proc 3).parent = some 1 :=
  ⟨_, rfl, forest_unless_orphaned threads _ (by decide +kernel) rfl, rfl⟩

/-- Init's child has a child of its own when it calls `texit`; init reaps it. -/
def orphaned : List Act :=
  [.schedule 0, .forkAlloc 0 true, .forkCopy 0 .ok, .schedule 1,
    .forkAlloc 1 true, .forkCopy 1 .ok, .texit 1, .wait 0]

/-- **`texit` orphans a child**: its parent pointer is left at a slot that is `UNUSED`. -/
theorem texit_orphans_a_child :
    ∃ k, run step boot orphaned = some k ∧ ¬ Forest k ∧
      (k.proc 2).state = .runnable ∧ (k.proc 2).parent = some 1 ∧
      (k.proc 1).state = .unused := by
  refine ⟨_, rfl, fun h => ?_, rfl, rfl, rfl⟩
  obtain ⟨n, hn, hway⟩ := h.reaches 2 (by decide) (by decide)
  cases n with
  | zero => exact absurd hn (by decide)
  | succ n =>
    obtain ⟨q, hq, hun⟩ := hway 1 (Nat.succ_le_succ (Nat.zero_le n))
    obtain rfl : (1 : Slot) = q := Option.some.inj hq
    exact hun rfl

end Xv6.Ptable
