/-
# Every exit is waited for at most once, by the right process

The history of a run is a list of events, the latest first: a `fork` that returned, an `exit`, a
`wait` that returned a pid or -1, a `kill` that found its process.  `Matched` says what a history must
look like: no pid is given out twice; no process exits twice; a `wait` returns a pid once, after that
process exited, and to its creator, or to init if the creator exited before; a `wait` that fails has
been killed, or every child it could have had has been waited for already.

`Accounts` connects the process table with the history.  It needs the tree (`Xv6.Proc.Forest`): the
parent of a process is the process it was last given to, and a parent is always active.

A process that calls `wait` has not been killed when it does: `trap` looks at `killed` before it
serves a system call.  This matters, because the `killed` flag of a slot is not cleared when the slot
is given out: `kill(0)` finds an UNUSED slot, and the next process in that slot starts with the flag
set.  Such a process exits at its first system call, so its `wait` never fails for that reason.
-/
import Xv6.Proc.Forest

namespace Xv6.Ptable

open Xv6.Runs

/-! ## 1. Histories -/

inductive Event
  /-- the `fork` of process `c` returned `v` -/
  | forked (c v : Nat)
  /-- process `v` called `exit` -/
  | exited (v : Nat)
  /-- the `wait` of process `w` returned `v` -/
  | waited (w v : Nat)
  /-- the `wait` of process `w` returned -1 -/
  | waitFailed (w : Nat)
  /-- `kill(v)` found a process -/
  | killed (v : Nat)
  deriving DecidableEq, Repr

/-- Who has the children that process `c` created: `c`, or init when `c` has exited. -/
def guardian (log : List Event) (c : Nat) : Nat := if .exited c ∈ log then 1 else c

/-- The event fits what happened before. -/
def Event.Ok (log : List Event) : Event → Prop
  | .forked _ v => ∀ c, .forked c v ∉ log
  | .exited v => .exited v ∉ log
  | .waited w v =>
    (∀ w', .waited w' v ∉ log) ∧ .exited v ∈ log ∧ ∃ c, .forked c v ∈ log ∧ w = guardian log c
  | .waitFailed w =>
    .killed w ∈ log ∨ ∀ c v, .forked c v ∈ log → guardian log c = w → ∃ w', .waited w' v ∈ log
  | .killed _ => True

/-- **Exit and wait match.** -/
def Matched : List Event → Prop
  | [] => True
  | e :: log => e.Ok log ∧ Matched log

/-- The child an event is about. -/
def Event.child : Event → Option Nat
  | .forked _ v | .exited v | .waited _ v => some v
  | .waitFailed _ | .killed _ => none

theorem Matched.creator_unique {log : List Event} (h : Matched log) {c c' v : Nat}
    (h₁ : .forked c v ∈ log) (h₂ : .forked c' v ∈ log) : c = c' := by
  induction log with
  | nil => cases h₁
  | cons e log ih =>
    rcases List.mem_cons.mp h₁ with e₁ | m₁ <;> rcases List.mem_cons.mp h₂ with e₂ | m₂
    · cases e₁.trans e₂.symm
      rfl
    · subst e₁
      exact absurd m₂ (h.1 c')
    · subst e₂
      exact absurd m₁ (h.1 c)
    · exact ih h.2 m₁ m₂

/-! ## 2. The accounts -/

namespace Shape

/-- **The process table and the history agree.** -/
structure Accounts (s : Shape) (pid : Slot → Nat) (log : List Event) : Prop where
  noClone : ∀ p np pp, s.call p ≠ .cloning np pp
  spare : ∀ p, ¬ s.Live p → (s.node p).parent = none
  pids : ∀ p, (s.node p).phase ≠ .unused → pid p = (s.node p).born
  distinct : ∀ p q, (s.node p).phase ≠ .unused → (s.node q).phase ≠ .unused →
    (s.node p).born = (s.node q).born → p = q
  first : (s.node s.initproc).born = 1
  matched : Matched log
  past : ∀ e ∈ log, ∀ v, e.child = some v → v < s.nextpid
  notFirst : ∀ c v, .forked c v ∈ log → v ≠ 1
  known : ∀ p, s.Live p → p ≠ s.initproc →
    ∃ c, .forked c (s.node p).born ∈ log ∧ (s.node p).guardian = Ptable.guardian log c
  exited : ∀ p, (s.node p).phase ≠ .unused →
    (.exited (s.node p).born ∈ log ↔ (s.node p).phase = .zombie)
  waited : ∀ p w, (s.node p).phase ≠ .unused → .waited w (s.node p).born ∉ log
  kept : ∀ c v, .forked c v ∈ log →
    (∃ w, .waited w v ∈ log) ∨ ∃ p, s.Live p ∧ (s.node p).born = v

variable {s : Shape} {pid : Slot → Nat} {log : List Event}

theorem Live.used {p : Slot} (h : s.Live p) : (s.node p).phase ≠ .unused := by
  rcases h with h | h <;> rw [h] <;> simp

theorem Active.not_exited {p : Slot} (hp : s.Active p) (h : Accounts s pid log) :
    .exited (s.node p).born ∉ log := by
  rw [h.exited p hp.ne_unused, hp]
  simp

/-- A process moves from one call to another. -/
theorem Accounts.setCall (h : Accounts s pid log) {p : Slot} {c : Call}
    (hc : ∀ np pp, c ≠ .cloning np pp) : Accounts (s.setCall p c) pid log :=
  { h with
    noClone := fun q np pp => by
      by_cases hq : q = p
      · subst hq
        simpa [Shape.setCall] using hc np pp
      · simpa [Shape.setCall, hq] using h.noClone q np pp }

/-- An event that is not about a child. -/
theorem Accounts.note (h : Accounts s pid log) {e : Event} (he : e.child = none) (hok : e.Ok log) :
    Accounts s pid (e :: log) := by
  have hmem : ∀ {x : Event}, x.child ≠ none → (x ∈ e :: log ↔ x ∈ log) := by
    intro x hx
    have hne : x ≠ e := by
      rintro rfl
      exact hx he
    simp [hne]
  have hguard : ∀ c, Ptable.guardian (e :: log) c = Ptable.guardian log c := by
    intro c
    simp only [Ptable.guardian, hmem (x := .exited c) (by simp [Event.child])]
  refine ⟨h.noClone, h.spare, h.pids, h.distinct, h.first, ⟨hok, h.matched⟩, ?_, ?_, ?_, ?_, ?_, ?_⟩
  · intro x hx v hv
    rcases List.mem_cons.mp hx with rfl | hx
    · rw [he] at hv
      cases hv
    · exact h.past x hx v hv
  · intro c v hv
    exact h.notFirst c v ((hmem (by simp [Event.child])).mp hv)
  · intro p hp hne
    obtain ⟨c, hc, hg⟩ := h.known p hp hne
    exact ⟨c, (hmem (by simp [Event.child])).mpr hc, hg.trans (hguard c).symm⟩
  · intro p hp
    rw [hmem (by simp [Event.child])]
    exact h.exited p hp
  · intro p w hp
    rw [hmem (by simp [Event.child])]
    exact h.waited p w hp
  · intro c v hv
    refine (h.kept c v ((hmem (by simp [Event.child])).mp hv)).imp_left ?_
    rintro ⟨w, hw⟩
    exact ⟨w, (hmem (by simp [Event.child])).mpr hw⟩

/-- `allocproc` takes a slot: it gets the next pid and is an `EMBRYO`, or `UNUSED` again. -/
theorem Accounts.take (h : Accounts s pid log) {np : Slot} {n : Node}
    (hnp : (s.node np).phase = .unused) (hph : n.phase = .unused ∨ n.phase = .embryo)
    (hborn : n.born = s.nextpid) (hparent : n.parent = (s.node np).parent)
    (hlt : ∀ p, (s.node p).phase ≠ .unused → (s.node p).born < s.nextpid)
    (hinit : s.Active s.initproc) :
    Accounts (Shape.setNode { s with nextpid := s.nextpid + 1 } np n)
      (Function.update pid np s.nextpid) log := by
  have hnot : ¬ s.Live np := by simp [Live, hnp]
  have hnot' : ¬ Live (Shape.setNode { s with nextpid := s.nextpid + 1 } np n) np := by
    rcases hph with hph | hph <;> simp [Live, hph]
  have hnode : ∀ q, q ≠ np →
      (Shape.setNode { s with nextpid := s.nextpid + 1 } np n).node q = s.node q := fun q hq => by
    simp [hq]
  have hlive : ∀ q, Live (Shape.setNode { s with nextpid := s.nextpid + 1 } np n) q ↔ s.Live q := by
    intro q
    by_cases hq : q = np
    · subst hq
      exact iff_of_false hnot' hnot
    · simp only [Live, hnode q hq]
  have hself : (Shape.setNode { s with nextpid := s.nextpid + 1 } np n).node np = n := by simp
  have hfresh : ∀ e ∈ log, e.child ≠ some s.nextpid := fun e he hv =>
    Nat.lt_irrefl _ (h.past e he _ hv)
  have hne : np ≠ s.initproc := by
    rintro rfl
    rw [hinit] at hnp
    cases hnp
  refine ⟨h.noClone, ?_, ?_, ?_, ?_, h.matched, ?_, h.notFirst, ?_, ?_, ?_, ?_⟩
  · intro q hq
    rw [hlive] at hq
    by_cases hqn : q = np
    · subst hqn
      rw [hself, hparent]
      exact h.spare q hnot
    · rw [hnode q hqn]
      exact h.spare q hq
  · intro q hq
    by_cases hqn : q = np
    · subst hqn
      rw [hself, Function.update_self, hborn]
    · rw [hnode q hqn] at hq ⊢
      rw [Function.update_of_ne hqn]
      exact h.pids q hq
  · -- the new birth is later than every other
    intro p q hp hq heq
    by_cases hpn : p = np <;> by_cases hqn : q = np
    · exact hpn.trans hqn.symm
    · rw [hnode q hqn] at hq heq
      rw [hpn, hself, hborn] at heq
      exact absurd heq.symm (Nat.ne_of_lt (hlt q hq))
    · rw [hnode p hpn] at hp heq
      rw [hqn, hself, hborn] at heq
      exact absurd heq (Nat.ne_of_lt (hlt p hp))
    · rw [hnode p hpn, hnode q hqn] at heq
      rw [hnode p hpn] at hp
      rw [hnode q hqn] at hq
      exact h.distinct p q hp hq heq
  · show ((Shape.setNode { s with nextpid := s.nextpid + 1 } np n).node s.initproc).born = 1
    rw [hnode _ hne.symm]
    exact h.first
  · intro e he v hv
    exact Nat.lt_succ_of_lt (h.past e he v hv)
  · intro p hp hpi
    have hpn : p ≠ np := by
      rintro rfl
      exact hnot' hp
    rw [hlive] at hp
    rw [hnode p hpn]
    exact h.known p hp hpi
  · intro p hp
    by_cases hpn : p = np
    · subst hpn
      rw [hself] at hp ⊢
      rw [hborn]
      refine iff_of_false (fun he => hfresh _ he rfl) ?_
      rcases hph with hph | hph <;> simp [hph]
    · rw [hnode p hpn] at hp ⊢
      exact h.exited p hp
  · intro p w hp
    by_cases hpn : p = np
    · subst hpn
      rw [hself, hborn]
      exact fun he => hfresh _ he rfl
    · rw [hnode p hpn] at hp ⊢
      exact h.waited p w hp
  · intro c v hv
    refine (h.kept c v hv).imp_right ?_
    rintro ⟨p, hp, hpv⟩
    have hpn : p ≠ np := by
      rintro rfl
      exact hnot hp
    exact ⟨p, (hlive p).mpr hp, by rw [hnode p hpn]; exact hpv⟩

/-- `fork` gives its slot back. -/
theorem Accounts.giveBack (h : Accounts s pid log) {np : Slot} {n : Node}
    (hnp : (s.node np).phase = .embryo) (hph : n.phase = .unused)
    (hparent : n.parent = (s.node np).parent) (hinit : s.Active s.initproc) :
    Accounts (s.setNode np n) pid log := by
  have hnot : ¬ s.Live np := by simp [Live, hnp]
  have hlive : ∀ q, (s.setNode np n).Live q ↔ s.Live q := by
    intro q
    by_cases hq : q = np
    · subst hq
      exact iff_of_false (by simp [Live, hph]) hnot
    · simp only [Live, setNode_ne hq]
  have hused : ∀ q, ((s.setNode np n).node q).phase ≠ .unused →
      q ≠ np ∧ (s.node q).phase ≠ .unused := by
    intro q hq
    have hqn : q ≠ np := by
      rintro rfl
      rw [setNode_same] at hq
      exact hq hph
    rw [setNode_ne hqn] at hq
    exact ⟨hqn, hq⟩
  have hne : s.initproc ≠ np := by
    intro he
    rw [← he, hinit] at hnp
    cases hnp
  refine ⟨h.noClone, ?_, ?_, ?_, ?_, h.matched, h.past, h.notFirst, ?_, ?_, ?_, ?_⟩
  · intro q hq
    rw [hlive] at hq
    by_cases hqn : q = np
    · subst hqn
      rw [setNode_same, hparent]
      exact h.spare q hq
    · rw [setNode_ne hqn]
      exact h.spare q hq
  · intro q hq
    obtain ⟨hqn, hq'⟩ := hused q hq
    rw [setNode_ne hqn]
    exact h.pids q hq'
  · intro p q hp hq heq
    obtain ⟨hpn, hp'⟩ := hused p hp
    obtain ⟨hqn, hq'⟩ := hused q hq
    rw [setNode_ne hpn, setNode_ne hqn] at heq
    exact h.distinct p q hp' hq' heq
  · show ((s.setNode np n).node s.initproc).born = 1
    rw [setNode_ne hne]
    exact h.first
  · intro p hp hpi
    obtain ⟨hpn, -⟩ := hused p hp.used
    rw [setNode_ne hpn]
    exact h.known p ((hlive p).mp hp) hpi
  · intro p hp
    obtain ⟨hpn, hp'⟩ := hused p hp
    rw [setNode_ne hpn]
    exact h.exited p hp'
  · intro p w hp
    obtain ⟨hpn, hp'⟩ := hused p hp
    rw [setNode_ne hpn]
    exact h.waited p w hp'
  · intro c v hv
    refine (h.kept c v hv).imp_right ?_
    rintro ⟨p, hp, hpv⟩
    have hpn : p ≠ np := by
      rintro rfl
      exact hnot hp
    exact ⟨p, (hlive p).mpr hp, by rw [setNode_ne hpn]; exact hpv⟩

/-- **`fork` returns**: the new process can run, as a child of its creator. -/
theorem Accounts.start (h : Accounts s pid log) {p np : Slot} {n : Node}
    (hnp : (s.node np).phase = .embryo) (hp : s.Active p) (hph : n.phase = .active)
    (hborn : n.born = (s.node np).born) (hgiven : n.guardian = (s.node p).born)
    (hlt : (s.node np).born < s.nextpid) (hinit : s.Active s.initproc) :
    Accounts (s.setNode np n) pid (.forked (s.node p).born (s.node np).born :: log) := by
  have hnot : ¬ s.Live np := by simp [Live, hnp]
  have hused : (s.node np).phase ≠ .unused := by rw [hnp]; simp
  have hne : s.initproc ≠ np := by
    intro he
    rw [← he, hinit] at hnp
    cases hnp
  have hphase : ∀ q, ((s.setNode np n).node q).phase ≠ .unused → (s.node q).phase ≠ .unused := by
    intro q hq
    by_cases hqn : q = np
    · rw [hqn]
      exact hused
    · rwa [setNode_ne hqn] at hq
  have hborn' : ∀ q, ((s.setNode np n).node q).born = (s.node q).born := by
    intro q
    by_cases hqn : q = np
    · subst hqn
      rw [setNode_same, hborn]
    · rw [setNode_ne hqn]
  -- the pid is new
  have hfresh : ∀ c, .forked c (s.node np).born ∉ log := by
    intro c hc
    rcases h.kept c _ hc with ⟨w, hw⟩ | ⟨q, hq, hqv⟩
    · exact h.waited np w hused hw
    · exact hnot (h.distinct q np hq.used hused hqv ▸ hq)
  have hguard : ∀ c, Ptable.guardian (.forked (s.node p).born (s.node np).born :: log) c =
      Ptable.guardian log c := by
    intro c
    simp [Ptable.guardian]
  refine ⟨h.noClone, ?_, ?_, ?_, ?_, ⟨hfresh, h.matched⟩, ?_, ?_, ?_, ?_, ?_, ?_⟩
  · intro q hq
    have hqn : q ≠ np := by
      rintro rfl
      exact hq (Or.inl (by rw [setNode_same]; exact hph))
    simp only [Live, setNode_ne hqn] at hq
    rw [setNode_ne hqn]
    exact h.spare q hq
  · intro q hq
    rw [hborn']
    exact h.pids q (hphase q hq)
  · intro q r hq hr heq
    rw [hborn', hborn'] at heq
    exact h.distinct q r (hphase q hq) (hphase r hr) heq
  · show ((s.setNode np n).node s.initproc).born = 1
    rw [setNode_ne hne]
    exact h.first
  · intro e he v hv
    rcases List.mem_cons.mp he with rfl | he
    · cases hv
      exact hlt
    · exact h.past e he v hv
  · intro c v hv
    rcases List.mem_cons.mp hv with e | hv
    · cases e
      intro hone
      exact hne (h.distinct _ _ hinit.ne_unused hused (h.first.trans hone.symm))
    · exact h.notFirst c v hv
  · intro q hq hqi
    rw [hborn']
    by_cases hqn : q = np
    · subst hqn
      refine ⟨_, List.mem_cons_self, ?_⟩
      rw [hguard, setNode_same, hgiven, Ptable.guardian, if_neg (hp.not_exited h)]
    · simp only [Live, setNode_ne hqn] at hq
      obtain ⟨c, hc, hg⟩ := h.known q hq hqi
      refine ⟨c, List.mem_cons_of_mem _ hc, ?_⟩
      rw [setNode_ne hqn, hguard]
      exact hg
  · intro q hq
    rw [hborn', List.mem_cons, or_iff_right (by simp), h.exited q (hphase q hq)]
    by_cases hqn : q = np
    · subst hqn
      rw [setNode_same, hnp, hph]
      simp
    · rw [setNode_ne hqn]
  · intro q w hq
    rw [hborn', List.mem_cons, or_iff_right (by simp)]
    exact h.waited q w (hphase q hq)
  · intro c v hv
    rcases List.mem_cons.mp hv with e | hv
    · cases e
      exact Or.inr ⟨np, Or.inl (by rw [setNode_same]; exact hph), hborn' np⟩
    · refine (h.kept c v hv).imp (Exists.imp fun _ => List.mem_cons_of_mem _) ?_
      rintro ⟨q, hq, hqv⟩
      have hqn : q ≠ np := by
        rintro rfl
        exact hnot hq
      exact ⟨q, by simpa only [Live, setNode_ne hqn] using hq, (hborn' q).trans hqv⟩

/-- **`exit`**: the children of the process that leaves, and they alone, go to init. -/
theorem Accounts.depart (h : Accounts s pid log) (ht : s.Tree) {p : Slot} {f : Slot → Node}
    (hd : Departs s p f) (hp : s.Active p) (hpi : p ≠ s.initproc)
    (hmoved : ∀ q, (s.node q).parent = some p → (f q).guardian = (s.node s.initproc).born)
    (hstay : ∀ q, (s.node q).parent ≠ some p →
      (f q).parent = (s.node q).parent ∧ (f q).guardian = (s.node q).guardian) :
    Accounts { s with node := f } pid (.exited (s.node p).born :: log) := by
  have hexited : .exited (s.node p).born ∉ log := hp.not_exited h
  have hphase : ∀ q, (f q).phase ≠ .unused ↔ (s.node q).phase ≠ .unused := by
    intro q
    rw [hd.phase]
    split
    · rename_i hq
      rw [hq]
      exact iff_of_true (by simp) hp.ne_unused
    · rfl
  have hlive : ∀ q, ({ s with node := f } : Shape).Live q ↔ s.Live q := by
    intro q
    simp only [Live, hd.phase]
    split
    · rename_i hq
      rw [hq]
      exact iff_of_true (Or.inr rfl) hp.live
    · rfl
  refine ⟨h.noClone, ?_, ?_, ?_, ?_, ⟨hexited, h.matched⟩, ?_, ?_, ?_, ?_, ?_, ?_⟩
  · intro q hq
    rw [hlive] at hq
    have hnone := h.spare q hq
    show (f q).parent = none
    rw [(hstay q (by rw [hnone]; simp)).1, hnone]
  · intro q hq
    show pid q = (f q).born
    rw [hd.born]
    exact h.pids q ((hphase q).mp hq)
  · intro q r hq hr heq
    have heq' : (f q).born = (f r).born := heq
    rw [hd.born, hd.born] at heq'
    exact h.distinct q r ((hphase q).mp hq) ((hphase r).mp hr) heq'
  · show (f s.initproc).born = 1
    rw [hd.born]
    exact h.first
  · intro e he v hv
    rcases List.mem_cons.mp he with rfl | he
    · cases hv
      exact ht.bornLt p hp.ne_unused
    · exact h.past e he v hv
  · intro c v hv
    rw [List.mem_cons, or_iff_right (by simp)] at hv
    exact h.notFirst c v hv
  · intro q hq hqi
    rw [hlive] at hq
    obtain ⟨c, hc, hg⟩ := h.known q hq hqi
    obtain ⟨r, hr⟩ := ht.placed q hq hqi
    refine ⟨c, by rw [show ({ s with node := f } : Shape).node q = f q from rfl, hd.born];
                  exact List.mem_cons_of_mem _ hc, ?_⟩
    show (f q).guardian = _
    -- the creator of a child of `p` is `p`, and nobody else was created by `p`
    have hgr : (s.node r).born = Ptable.guardian log c := hr.given.symm.trans hg
    by_cases hrp : r = p
    · subst hrp
      have hcr : c = (s.node r).born := by
        unfold Ptable.guardian at hgr
        split at hgr
        · refine absurd (h.distinct _ _ hp.ne_unused ht.initActive.ne_unused ?_) hpi
          rw [hgr, h.first]
        · exact hgr.symm
      rw [hmoved q hr.parent, h.first, Ptable.guardian, hcr, if_pos List.mem_cons_self]
    · have hne : (s.node q).parent ≠ some p := by
        rw [hr.parent]
        simpa using hrp
      rw [(hstay q hne).2, hg]
      unfold Ptable.guardian
      by_cases hce : .exited c ∈ log
      · rw [if_pos hce, if_pos (List.mem_cons_of_mem _ hce)]
      · rw [if_neg hce, if_neg]
        intro hmem
        rcases List.mem_cons.mp hmem with e | hmem
        · cases e
          rw [Ptable.guardian, if_neg hexited] at hgr
          exact hrp (h.distinct _ _ hr.active.ne_unused hp.ne_unused hgr)
        · exact hce hmem
  · intro q hq
    have hq' := (hphase q).mp hq
    show Event.exited (f q).born ∈ _ ↔ (f q).phase = _
    rw [hd.born, hd.phase, List.mem_cons]
    by_cases hqp : q = p
    · subst hqp
      simp
    · rw [if_neg hqp, ← h.exited q hq', or_iff_right]
      intro e
      exact hqp (h.distinct _ _ hq' hp.ne_unused (Event.exited.inj e))
  · intro q w hq
    show Event.waited w (f q).born ∉ _
    rw [hd.born, List.mem_cons, or_iff_right (by simp)]
    exact h.waited q w ((hphase q).mp hq)
  · intro c v hv
    rw [List.mem_cons, or_iff_right (by simp)] at hv
    refine (h.kept c v hv).imp (Exists.imp fun _ => List.mem_cons_of_mem _) ?_
    rintro ⟨q, hq, hqv⟩
    exact ⟨q, (hlive q).mpr hq, by show (f q).born = v; rw [hd.born]; exact hqv⟩

/-- **`wait` returns the pid of a zombie child.** -/
theorem Accounts.reap (h : Accounts s pid log) (ht : s.Tree) {p q : Slot} {n : Node}
    (hp : s.Active p) (hz : (s.node q).phase = .zombie) (hpq : (s.node q).parent = some p)
    (hph : n.phase = .unused) (hparent : n.parent = none) :
    Accounts (s.setNode q n) (Function.update pid q 0)
      (.waited (s.node p).born (s.node q).born :: log) := by
  have hqlive : s.Live q := Or.inr hz
  have hqi : q ≠ s.initproc := by
    rintro rfl
    rw [ht.initActive] at hz
    cases hz
  have hused : ∀ r, ((s.setNode q n).node r).phase ≠ .unused →
      r ≠ q ∧ (s.node r).phase ≠ .unused := by
    intro r hr
    have hrq : r ≠ q := by
      rintro rfl
      rw [setNode_same] at hr
      exact hr hph
    rw [setNode_ne hrq] at hr
    exact ⟨hrq, hr⟩
  have hok : (Event.waited (s.node p).born (s.node q).born).Ok log := by
    obtain ⟨c, hc, hg⟩ := h.known q hqlive hqi
    obtain ⟨r, hr⟩ := ht.placed q hqlive hqi
    have hrp : r = p := Option.some.inj (hr.parent.symm.trans hpq)
    subst hrp
    exact ⟨fun w => h.waited q w hqlive.used, (h.exited q hqlive.used).mpr hz, c, hc,
      hr.given.symm.trans hg⟩
  have hguard : ∀ c, Ptable.guardian (.waited (s.node p).born (s.node q).born :: log) c =
      Ptable.guardian log c := by
    intro c
    simp [Ptable.guardian]
  refine ⟨h.noClone, ?_, ?_, ?_, ?_, ⟨hok, h.matched⟩, ?_, ?_, ?_, ?_, ?_, ?_⟩
  · intro r hr
    by_cases hrq : r = q
    · subst hrq
      rw [setNode_same]
      exact hparent
    · simp only [Live, setNode_ne hrq] at hr
      rw [setNode_ne hrq]
      exact h.spare r hr
  · intro r hr
    obtain ⟨hrq, hr'⟩ := hused r hr
    rw [setNode_ne hrq, Function.update_of_ne hrq]
    exact h.pids r hr'
  · intro r t hr ht' heq
    obtain ⟨hrq, hr'⟩ := hused r hr
    obtain ⟨htq, ht''⟩ := hused t ht'
    rw [setNode_ne hrq, setNode_ne htq] at heq
    exact h.distinct r t hr' ht'' heq
  · show ((s.setNode q n).node s.initproc).born = 1
    rw [setNode_ne hqi.symm]
    exact h.first
  · intro e he v hv
    rcases List.mem_cons.mp he with rfl | he
    · cases hv
      exact ht.bornLt q hqlive.used
    · exact h.past e he v hv
  · intro c v hv
    rw [List.mem_cons, or_iff_right (by simp)] at hv
    exact h.notFirst c v hv
  · intro r hr hri
    obtain ⟨hrq, -⟩ := hused r hr.used
    simp only [Live, setNode_ne hrq] at hr
    obtain ⟨c, hc, hg⟩ := h.known r hr hri
    refine ⟨c, ?_, ?_⟩
    · rw [setNode_ne hrq]
      exact List.mem_cons_of_mem _ hc
    · rw [setNode_ne hrq, hguard]
      exact hg
  · intro r hr
    obtain ⟨hrq, hr'⟩ := hused r hr
    rw [setNode_ne hrq, List.mem_cons, or_iff_right (by simp)]
    exact h.exited r hr'
  · intro r w hr
    obtain ⟨hrq, hr'⟩ := hused r hr
    rw [setNode_ne hrq, List.mem_cons, not_or]
    refine ⟨fun e => ?_, h.waited r w hr'⟩
    exact hrq (h.distinct _ _ hr' hqlive.used (Event.waited.inj e).2)
  · intro c v hv
    rw [List.mem_cons, or_iff_right (by simp)] at hv
    rcases h.kept c v hv with ⟨w, hw⟩ | ⟨r, hr, hrv⟩
    · exact Or.inl ⟨w, List.mem_cons_of_mem _ hw⟩
    · by_cases hrq : r = q
      · subst hrq
        rw [← hrv]
        exact Or.inl ⟨_, List.mem_cons_self⟩
      · exact Or.inr ⟨r, by simpa only [Live, setNode_ne hrq] using hr,
          by rw [setNode_ne hrq]; exact hrv⟩

/-- **`wait` returns -1 because the caller has no children.** -/
theorem Accounts.childless (h : Accounts s pid log) (ht : s.Tree) {p : Slot} (hp : s.Active p)
    (hno : ∀ q, (s.node q).parent ≠ some p) : (Event.waitFailed (s.node p).born).Ok log := by
  refine Or.inr fun c v hc hg => ?_
  rcases h.kept c v hc with hw | ⟨r, hr, rfl⟩
  · exact hw
  · -- the child is still in the table, so its parent is the caller
    have hri : r ≠ s.initproc := by
      rintro rfl
      exact h.notFirst c _ hc h.first
    obtain ⟨c', hc', hg'⟩ := h.known r hr hri
    obtain ⟨q, hq⟩ := ht.placed r hr hri
    have hcc : c' = c := h.matched.creator_unique hc' hc
    have hqp : q = p := by
      refine h.distinct q p hq.active.ne_unused hp.ne_unused ?_
      rw [← hq.given, hg', hcc, hg]
    exact absurd (hqp ▸ hq.parent) (hno r)

end Shape

/-! ## 3. Runs with a history -/

/-- The calls the history is about: no threads. -/
def Act.plain : Act → Bool
  | .cloneAlloc _ _ _ _ | .cloneLoop _ | .cloneFinish _ _ | .texit _ | .tsleep _ | .twakeup _ _ =>
    false
  | _ => true

/-- What a process of that kind can do when it is inside `wait`: it can only scan the table, and it
gets there through `enterWait`. -/
def Act.fits (k : Kernel) : Act → Bool
  | .wait p => k.call p = .waiting
  | .sleep p _ => k.call p ≠ .waiting
  | _ => true

/-- What the kernel and the history become. -/
structure System where
  kernel : Kernel
  log : List Event

def Kernel.pid (k : Kernel) (p : Slot) : Nat := (k.proc p).pid

/-- What a move adds to the history. -/
def Act.event (k : Kernel) : Act → List Event
  | .forkCopy p .ok =>
    match k.call p with
    | .forking np => [.forked (k.pid p) (k.pid np)]
    | _ => []
  | .exit p => [.exited (k.pid p)]
  | .wait p =>
    match reaps k p with
    | some q => [.waited (k.pid p) (k.pid q)]
    | none => if ¬ havekids k p ∨ (k.proc p).killed then [.waitFailed (k.pid p)] else []
  | .kill _ pid => if ∃ q, k.pid q = pid then [.killed pid] else []
  | _ => []

inductive Move
  | act (a : Act)
  /-- the system call `wait` begins; `trap` has found that the process is not killed -/
  | enterWait (p : Slot)
  deriving DecidableEq, Repr

def move (s : System) : Move → Option System
  | .act a =>
    if a.plain && a.fits s.kernel then
      (step s.kernel a).map fun k => ⟨k, a.event s.kernel ++ s.log⟩
    else none
  | .enterWait p =>
    if s.kernel.Free p ∧ (s.kernel.proc p).killed = false then
      some ⟨s.kernel.setCall p .waiting, s.log⟩
    else none

def System.boot : System := ⟨Ptable.boot, []⟩

/-- The calls of `fork`. -/
def Move.isFork : Move → Bool
  | .act (.forkAlloc _ _) => true
  | _ => false

/-! ## 4. The invariant -/

/-- What the history does not show: a process inside `wait` that has been killed has been killed since
it called it, and a process asleep in `wait` has no zombie child. -/
structure Waits (k : Kernel) (log : List Event) : Prop where
  killed : ∀ p, k.call p = .waiting → (k.proc p).killed = true → .killed (k.pid p) ∈ log
  asleep : ∀ p, (k.proc p).state = .sleeping → (k.proc p).chan = some (.proc p) →
    ∀ q, (k.proc q).parent = some p → (k.proc q).state ≠ .zombie

structure Settled (k : Kernel) (log : List Event) : Prop where
  accounts : k.shape.Accounts k.pid log
  waits : Waits k log

section Steps

variable {k k' : Kernel} {log : List Event} {p : Slot}

/-- The moves that only schedule keep pids, parents and zombies. -/
theorem core_spec (h : k'.core = k.core) (q : Slot) : (k'.proc q).pid = (k.proc q).pid ∧
    (k'.proc q).parent = (k.proc q).parent ∧
    ((k'.proc q).state = .zombie ↔ (k.proc q).state = .zombie) ∧ k'.call = k.call := by
  have hq : (k'.proc q).core = (k.proc q).core := congrFun (congrArg Kernel.proc h) q
  have hpid : (k'.proc q).core.pid = (k.proc q).core.pid := congrArg Proc.pid hq
  have hparent : (k'.proc q).core.parent = (k.proc q).core.parent := congrArg Proc.parent hq
  have hcall : k'.core.call = k.core.call := congrArg Kernel.call h
  refine ⟨hpid, hparent, ?_, hcall⟩
  have hstate := congrArg Proc.state hq
  simp only [Proc.core] at hstate
  cases h₁ : (k'.proc q).state <;> cases h₂ : (k.proc q).state <;>
    simp [h₁, h₂] at hstate ⊢

/-- Who is inside `wait` and killed was so before, or is so in the history; who is asleep there was so
before; and has no child that has just become a zombie, and no zombie that has just become its
child. -/
theorem Waits.of (h : Waits k log) {log' : List Event} (hlog : log ⊆ log')
    (hkilled : ∀ q, k'.call q = .waiting → (k'.proc q).killed = true →
      (k.call q = .waiting ∧ (k.proc q).killed = true ∧ k'.pid q = k.pid q) ∨
        .killed (k'.pid q) ∈ log')
    (hsleep : ∀ q, (k'.proc q).state = .sleeping → (k'.proc q).chan = some (.proc q) →
      ((k.proc q).state = .sleeping ∧ (k.proc q).chan = some (.proc q) ∧
        ∀ r, (k'.proc r).parent = some q → (k'.proc r).state = .zombie →
          (k.proc r).parent = some q ∧ (k.proc r).state = .zombie) ∨
      ∀ r, (k'.proc r).parent = some q → (k'.proc r).state ≠ .zombie) :
    Waits k' log' where
  killed q hq hk := by
    rcases hkilled q hq hk with ⟨hq', hk', hpid⟩ | hk
    · rw [hpid]
      exact hlog (h.killed q hq' hk')
    · exact hk
  asleep q hq hc r hr hz := by
    rcases hsleep q hq hc with ⟨hq', hc', hr'⟩ | hno
    · exact h.asleep q hq' hc' r (hr' r hr hz).1 (hr' r hr hz).2
    · exact hno r hr hz

/-- The moves that only schedule. -/
theorem Waits.idle (h : Waits k log) (hcore : k'.core = k.core) {es : List Event}
    (hkilled : ∀ q, (k'.proc q).killed = true →
      (k.proc q).killed = true ∨ .killed (k.pid q) ∈ es)
    (hsleep : ∀ q, (k'.proc q).state = .sleeping → (k'.proc q).chan = some (.proc q) →
      (k.proc q).state = .sleeping ∧ (k.proc q).chan = some (.proc q)) :
    Waits k' (es ++ log) := by
  refine h.of (List.subset_append_right _ _) (fun q hq hk => ?_) fun q hq hc => Or.inl ?_
  · obtain ⟨hpid, -, -, hcall⟩ := core_spec hcore q
    rw [hcall] at hq
    rcases hkilled q hk with hk | hk
    · exact Or.inl ⟨hq, hk, hpid⟩
    · exact Or.inr (List.mem_append_left _ (by rw [Kernel.pid, hpid]; exact hk))
  · obtain ⟨hst, hch⟩ := hsleep q hq hc
    refine ⟨hst, hch, fun r hr hz => ?_⟩
    obtain ⟨-, hparent, hz', -⟩ := core_spec hcore r
    exact ⟨hparent ▸ hr, hz'.mp hz⟩

theorem Shape.Accounts.idle (h : k.shape.Accounts k.pid log) (hcore : k'.core = k.core) :
    k'.shape.Accounts k'.pid log := by
  have hpid : k'.pid = k.pid := funext fun q => (core_spec hcore q).1
  rw [shape_eq_of_core hcore, hpid]
  exact h

/-- **The moves that only schedule, block, wake or kill.** -/
theorem settled_idle (h : Settled k log) {a : Act} (ha : a.idle) (hplain : a.plain)
    (hs : step k a = some k') : Settled k' (a.event k ++ log) := by
  have hcore := step_idle ha hs
  -- a slot that the move leaves alone, or changes to something that is not asleep in `wait`
  have hupd : ∀ q (f : Proc → Proc), k' = k.upd q f →
      ((f (k.proc q)).state ≠ .sleeping ∨ (f (k.proc q)).chan ≠ some (.proc q)) →
      ∀ r, (k'.proc r).state = .sleeping → (k'.proc r).chan = some (.proc r) →
        (k.proc r).state = .sleeping ∧ (k.proc r).chan = some (.proc r) := by
    rintro q f rfl hf r hr hc
    by_cases hrq : r = q
    · subst hrq
      rw [upd_proc_same] at hr hc
      rcases hf with hf | hf
      · exact absurd hr hf
      · exact absurd hc hf
    · rw [upd_proc_ne _ _ hrq] at hr hc
      exact ⟨hr, hc⟩
  have hsame : ∀ q (f : Proc → Proc), k' = k.upd q f → (f (k.proc q)).killed = (k.proc q).killed →
      ∀ r, (k'.proc r).killed = true → (k.proc r).killed = true := by
    rintro q f rfl hf r hr
    by_cases hrq : r = q
    · subst hrq
      rwa [upd_proc_same, hf] at hr
    · rwa [upd_proc_ne _ _ hrq] at hr
  have hacc := h.accounts.idle hcore
  cases a with
  | schedule p | yield p | sleep p c =>
    simp only [step, Option.ite_none_right_eq_some, Option.some.injEq] at hs
    exact ⟨hacc, h.waits.idle hcore (fun q hq => Or.inl (hsame p _ hs.2.symm rfl q hq))
      (hupd p _ hs.2.symm (by simp))⟩
  | wakeup c =>
    obtain rfl : _ = k' := Option.some.inj hs
    refine ⟨hacc, h.waits.idle hcore (fun q hq => Or.inl ?_) fun q hq hc => ?_⟩
    · obtain ⟨st, hst⟩ := wakeup1_proc k (some (.other c)) q
      rwa [hst] at hq
    · simp only [wakeup1, mapProcs_proc] at hq hc
      split at hq
      · cases hq
      · rename_i hif
        rw [if_neg hif] at hc
        exact ⟨hq, hc⟩
  | kill p pid =>
    simp only [step, Option.ite_none_right_eq_some, Option.some.injEq] at hs
    obtain ⟨-, hs⟩ := hs
    unfold kill at hs
    cases hf : (List.finRange NPROC).find? fun p => (k.proc p).pid = pid with
    | none =>
      rw [hf] at hs
      have hnot : ¬ ∃ q, k.pid q = pid := by
        rintro ⟨q, hq⟩
        exact List.find?_eq_none.mp hf q (List.mem_finRange q)
          (by simpa using (show (k.proc q).pid = pid from hq))
      simp only [Act.event, if_neg hnot, List.nil_append]
      obtain rfl : k = k' := hs
      exact h
    | some q =>
      rw [hf] at hs
      have hfound : (k.proc q).pid = pid := by simpa using List.find?_some hf
      have hpid : k.pid q = pid := hfound
      have hacc' : k'.shape.Accounts k'.pid (.killed pid :: log) := hacc.note rfl trivial
      simp only [Act.event, if_pos (⟨q, hpid⟩ : ∃ q, k.pid q = pid)]
      refine ⟨hacc', h.waits.idle hcore (fun r hr => ?_) (hupd q _ hs.symm (Or.inl ?_))⟩
      · by_cases hrq : r = q
        · subst hrq
          exact Or.inr (by rw [hpid]; exact List.mem_singleton_self _)
        · rw [← hs, upd_proc_ne _ _ hrq] at hr
          exact Or.inl hr
      · simp only
        split
        · simp
        · assumption
  | tsleep p | twakeup p tid => cases hplain
  | _ => cases ha

/-- Other slots are left alone. -/
theorem upd_proc_cases (f : Proc → Proc) {r q : Slot} {x : Proc} (h : (k.upd r f).proc q = x) :
    (q = r ∧ x = f (k.proc r)) ∨ (q ≠ r ∧ x = k.proc q) := by
  by_cases hq : q = r
  · subst hq
    rw [upd_proc_same] at h
    exact Or.inl ⟨rfl, h.symm⟩
  · rw [upd_proc_ne _ _ hq] at h
    exact Or.inr ⟨hq, h.symm⟩

theorem pid_upd (f : Proc → Proc) (r : Slot) :
    (k.upd r f).pid = Function.update k.pid r (f (k.proc r)).pid := by
  funext q
  by_cases hq : q = r
  · subst hq
    simp [Kernel.pid]
  · simp [Kernel.pid, hq]

theorem pid_upd_same {f : Proc → Proc} {r : Slot} (h : (f (k.proc r)).pid = (k.proc r).pid) :
    (k.upd r f).pid = k.pid := by
  rw [pid_upd, h]
  exact Function.update_eq_self ..

/-- `allocproc` has taken a slot. -/
theorem settled_take (h : Settled k log) (ht : k.shape.Tree) {np : Slot} (hnp : (k.proc np).state = .unused)
    {f : Proc → Proc} (hst : (f (k.proc np)).state = .unused ∨ (f (k.proc np)).state = .embryo)
    (hpid : (f (k.proc np)).pid = k.nextpid) (hborn : (f (k.proc np)).born = k.nextpid)
    (hparent : (f (k.proc np)).parent = (k.proc np).parent) :
    Settled { k.upd np f with nextpid := k.nextpid + 1 } log := by
  have hph : (k.shape.node np).phase = .unused := by
    simp [Kernel.shape, Proc.node, hnp, ProcState.phase]
  have hph' : (f (k.proc np)).node.phase = .unused ∨ (f (k.proc np)).node.phase = .embryo := by
    rcases hst with hst | hst <;> simp [Proc.node, hst, ProcState.phase]
  have hnone : (k.proc np).parent = none :=
    h.accounts.spare np (by simp [Shape.Live, hph])
  have hcall : k.call np = .user := by
    by_contra hc
    have := ht.busy np hc
    rw [Shape.Active, hph] at this
    cases this
  refine ⟨?_, ?_⟩
  · have hacc := h.accounts.take hph hph' hborn hparent (fun p hp => ht.bornLt p hp) ht.initActive
    rw [shape_upd_bump]
    have hpids : Kernel.pid { k.upd np f with nextpid := k.nextpid + 1 } =
        Function.update k.pid np k.nextpid := by
      rw [← hpid]
      exact pid_upd f np
    rw [hpids]
    exact hacc
  · refine h.waits.of (fun _ hx => hx) (fun q hq hk => Or.inl ?_) fun q hq hc => Or.inl ?_
    · have hne : q ≠ np := by
        rintro rfl
        exact absurd (hcall.symm.trans hq) (by simp)
      have hq' : (k.upd np f).proc q = k.proc q := upd_proc_ne _ _ hne
      refine ⟨hq, ?_, ?_⟩
      · rw [← hq']
        exact hk
      · exact congrArg Proc.pid hq'
    · rcases upd_proc_cases f (k := k) (q := q) (r := np) rfl with ⟨rfl, he⟩ | ⟨hne, he⟩
      · have hq' : ((k.upd q f).proc q).state = .sleeping := hq
        rw [he] at hq'
        rcases hst with hst | hst <;> rw [hst] at hq' <;> cases hq'
      · have hq' : ((k.upd np f).proc q).state = .sleeping := hq
        have hc' : ((k.upd np f).proc q).chan = some (.proc q) := hc
        rw [he] at hq' hc'
        refine ⟨hq', hc', fun r hr hz => ?_⟩
        have hr' : ((k.upd np f).proc r).parent = some q := hr
        have hz' : ((k.upd np f).proc r).state = .zombie := hz
        rcases upd_proc_cases f (k := k) (q := r) (r := np) rfl with ⟨rfl, he⟩ | ⟨-, he⟩
        · rw [he, hparent, hnone] at hr'
          cases hr'
        · rw [he] at hr' hz'
          exact ⟨hr', hz'⟩

theorem Waits.setCall (h : Waits k log) {c : Call} (hc : c = .waiting → (k.proc p).killed = false) :
    Waits (k.setCall p c) log := by
  refine h.of (fun _ hx => hx) (fun q hq hk => Or.inl ?_) fun q hq hch => Or.inl
    ⟨hq, hch, fun r hr hz => ⟨hr, hz⟩⟩
  by_cases hqp : q = p
  · subst hqp
    have hcw : c = .waiting := by simpa using hq
    exact absurd ((hc hcw).symm.trans hk) (by simp)
  · exact ⟨by simpa [hqp] using hq, hk, rfl⟩

theorem Settled.setCall (h : Settled k log) {c : Call} (hclone : ∀ np pp, c ≠ .cloning np pp)
    (hc : c = .waiting → (k.proc p).killed = false) : Settled (k.setCall p c) log :=
  ⟨h.accounts.setCall hclone, h.waits.setCall hc⟩

theorem Settled.newDir (h : Settled k log) : Settled k.newDir log :=
  ⟨h.accounts, h.waits.killed, h.waits.asleep⟩

theorem Settled.freevm (h : Settled k log) (d : Option Nat) : Settled (k.freevm d) log :=
  ⟨h.accounts, h.waits.killed, h.waits.asleep⟩

/-- A change of a slot to something that is not asleep in `wait`. -/
theorem Waits.upd (h : Waits k log) {log' : List Event} (hlog : log ⊆ log') {r : Slot}
    {f : Proc → Proc} (hst : (f (k.proc r)).state ≠ .sleeping)
    (hkilled : k.call r ≠ .waiting ∨ (f (k.proc r)).killed = false)
    (hz : (f (k.proc r)).state ≠ .zombie) : Waits (k.upd r f) log' := by
  refine h.of hlog (fun q hq hk => Or.inl ?_) fun q hq hc => Or.inl ?_
  · rcases upd_proc_cases f (k := k) (q := q) (r := r) rfl with ⟨rfl, he⟩ | ⟨hne, he⟩
    · rw [he] at hk
      rcases hkilled with h' | h'
      · exact absurd hq h'
      · exact absurd (h'.symm.trans hk) (by simp)
    · rw [he] at hk
      exact ⟨hq, hk, congrArg Proc.pid he⟩
  · rcases upd_proc_cases f (k := k) (q := q) (r := r) rfl with ⟨rfl, he⟩ | ⟨hne, he⟩
    · rw [he] at hq
      exact absurd hq hst
    · rw [he] at hq hc
      refine ⟨hq, hc, fun u hu hzu => ?_⟩
      rcases upd_proc_cases f (k := k) (q := u) (r := r) rfl with ⟨rfl, he⟩ | ⟨-, he⟩
      · rw [he] at hzu
        exact absurd hzu hz
      · rw [he] at hu hzu
        exact ⟨hu, hzu⟩

theorem settled_forkAlloc (h : Settled k log) (ht : k.shape.Tree) {kallocOk : Bool}
    (hs : step k (.forkAlloc p kallocOk) = some k') (hlt : k'.nextpid ≤ 2 ^ 32) :
    Settled k' log := by
  obtain ⟨-, hal⟩ := step_forkAlloc hs
  rcases allocproc_cases k kallocOk with he | ⟨np, hnp, he⟩
  · rcases hal with hal | ⟨np, k₁, hal, -⟩
    · obtain rfl : k = k' := congrArg Prod.snd (he.symm.trans hal)
      exact h
    · cases congrArg Prod.fst (he.symm.trans hal)
  · cases kallocOk with
    | false =>
      rcases hal with hal | ⟨np', k₁, hal, -⟩
      · have hk := congrArg Prod.snd (he.symm.trans hal)
        simp only [Bool.false_eq_true, if_false] at hk
        subst hk
        have hmod : k.nextpid % 2 ^ 32 = k.nextpid := Nat.mod_eq_of_lt hlt
        exact settled_take h ht hnp (Or.inl rfl) hmod rfl rfl
      · cases congrArg Prod.fst (he.symm.trans hal)
    | true =>
      rcases hal with hal | ⟨np', k₁, hal, rfl⟩
      · cases congrArg Prod.fst (he.symm.trans hal)
      · have hk := congrArg Prod.snd (he.symm.trans hal)
        simp only [if_true] at hk
        subst hk
        have hmod : k.nextpid % 2 ^ 32 = k.nextpid := Nat.mod_eq_of_lt hlt
        exact (settled_take h ht hnp (Or.inr rfl) hmod rfl rfl).setCall (by simp) (by simp)

theorem settled_forkCopy (h : Settled k log) (ht : k.shape.Tree) {o : Outcome}
    (hs : step k (.forkCopy p o) = some k') :
    Settled k' ((Act.forkCopy p o).event k ++ log) := by
  obtain ⟨np, hc, rfl⟩ := step_forkCopy hs
  have hnp : (k.shape.call p).np = some np := by simp [Kernel.shape, hc, Call.np]
  have hemb := (ht.embryo p np hnp).1
  have hact : k.shape.Active p := ht.busy p (by simp [Kernel.shape, hc])
  have hused : (k.shape.node np).phase ≠ .unused := by rw [hemb]; simp
  have hcall : k.call np ≠ .waiting := by
    intro hw
    have := ht.busy np (by simp [Kernel.shape, hw])
    rw [Shape.Active, hemb] at this
    cases this
  have hback : Settled (k.upd np fun x => { x with kstack := false, state := .unused }) log := by
    refine ⟨?_, h.waits.upd (fun _ hx => hx) (by simp) (Or.inl hcall) (by simp)⟩
    rw [shape_upd, pid_upd_same rfl]
    exact h.accounts.giveBack hemb rfl rfl ht.initActive
  cases o with
  | ok =>
    have hpp : k.pid p = (k.shape.node p).born := h.accounts.pids p hact.ne_unused
    have hpn : k.pid np = (k.shape.node np).born := h.accounts.pids np hused
    simp only [Act.event, hc, hpp, hpn]
    refine Settled.setCall ⟨?_, ?_⟩ (by simp) (by simp)
    · rw [shape_upd, pid_upd_same rfl]
      exact h.accounts.start hemb hact rfl rfl rfl (ht.bornLt np hused) ht.initActive
    · exact h.newDir.waits.upd (List.subset_cons_self ..) (by simp) (Or.inl hcall) (by simp)
  | noPage => exact hback.setCall (by simp) (by simp)
  | halfBuilt => exact hback.newDir.setCall (by simp) (by simp)
  | bad => exact (hback.newDir.freevm (some k.nextdir)).setCall (c := .user) (by simp) (by simp)

/-- What the loop of `exit` leaves of a slot. -/
theorem reparent_proc (k : Kernel) (p q : Slot) :
    ((reparent k p).proc q).pid = (k.proc q).pid ∧
    ((reparent k p).proc q).killed = (k.proc q).killed ∧
    ((reparent k p).proc q).chan = (k.proc q).chan ∧
    ((reparent k p).proc q).parent =
      (if (k.proc q).parent = some p then some k.initproc else (k.proc q).parent) ∧
    (((reparent k p).proc q).state = .zombie → (k.proc q).state = .zombie) ∧
    (((reparent k p).proc q).state = .sleeping → (k.proc q).state = .sleeping ∧
      ((∃ r, (k.proc r).parent = some p ∧ (k.proc r).state = .zombie) →
        (k.proc q).chan ≠ some (.proc k.initproc))) := by
  unfold reparent
  simp only
  -- the slot after the loop, but for the wakeup of init
  obtain ⟨x, hx⟩ : ∃ x, x = if (k.proc q).parent = some p then
      { k.proc q with parent := some k.initproc, guardian := (k.proc k.initproc).born }
    else k.proc q := ⟨_, rfl⟩
  have hfields : x.pid = (k.proc q).pid ∧ x.killed = (k.proc q).killed ∧
      x.chan = (k.proc q).chan ∧ x.state = (k.proc q).state ∧
      x.parent = (if (k.proc q).parent = some p then some k.initproc else (k.proc q).parent) := by
    rw [hx]
    split <;> exact ⟨rfl, rfl, rfl, rfl, rfl⟩
  obtain ⟨h₁, h₂, h₃, h₄, h₅⟩ := hfields
  split
  · simp only [wakeup1, mapProcs_proc, ← hx]
    split
    · exact ⟨h₁, h₂, h₃, h₅, by simp, by simp⟩
    · rename_i hno
      refine ⟨h₁, h₂, h₃, h₅, fun hz => h₄ ▸ hz, fun hs => ⟨h₄ ▸ hs, fun _ hc => ?_⟩⟩
      exact hno ⟨hs, h₃.trans hc⟩
  · rename_i hno
    simp only [mapProcs_proc, ← hx]
    exact ⟨h₁, h₂, h₃, h₅, fun hz => h₄ ▸ hz, fun hs => ⟨h₄ ▸ hs, fun hex => absurd hex hno⟩⟩

/-- `wakeup1` leaves nobody asleep on the channel. -/
theorem wakeup1_state (k : Kernel) (c : Option Chan) (q : Slot) :
    (((wakeup1 k c).proc q).state = .zombie → (k.proc q).state = .zombie) ∧
    (((wakeup1 k c).proc q).state = .sleeping →
      (k.proc q).state = .sleeping ∧ (k.proc q).chan ≠ c) := by
  simp only [wakeup1, mapProcs_proc]
  split
  · simp
  · rename_i hno
    exact ⟨id, fun hs => ⟨hs, fun hc => hno ⟨hs, hc⟩⟩⟩

theorem settled_exit (h : Settled k log) (ht : k.shape.Tree)
    (hs : step k (.exit p) = some k') : Settled k' ((Act.exit p).event k ++ log) := by
  obtain ⟨hf, hpi, rfl⟩ := step_exit hs
  have hact := active_of_state hf.1
  have hpid : k.pid p = (k.shape.node p).born := h.accounts.pids p hact.ne_unused
  simp only [Act.event, hpid]
  -- the slots after the first `wakeup1` and the loop; `proc->state = ZOMBIE` comes last
  obtain ⟨k₁, hk₁⟩ : ∃ k₁, k₁ = wakeup1 k ((k.proc p).parent.map .proc) := ⟨_, rfl⟩
  have hwake : ∀ q, ∃ st, k₁.proc q = { k.proc q with state := st } := by
    rw [hk₁]
    exact wakeup1_proc k _
  have hexit : exit k p = (reparent k₁ p).upd p fun x => { x with state := .zombie } := by
    rw [hk₁]
    rfl
  have hproc : ∀ q, q ≠ p → (exit k p).proc q = (reparent k₁ p).proc q := fun q hq => by
    rw [hexit]
    exact upd_proc_ne _ _ hq
  have hpids : (exit k p).pid = k.pid := by
    rw [hexit, pid_upd_same rfl]
    funext q
    obtain ⟨st, hst⟩ := hwake q
    rw [Kernel.pid, (reparent_proc k₁ p q).1, hst]
    rfl
  refine ⟨?_, ?_⟩
  · have hshape : (exit k p).shape = { k.shape with node := (exit k p).shape.node } := by
      simp only [Kernel.shape, exit, reparent]
      split <;> rfl
    rw [hshape, hpids]
    refine h.accounts.depart ht (departs_exit k p) hact hpi (fun q hq => ?_) fun q hq => ?_
    · have hq' : (k.proc q).parent = some p := hq
      have hpass : (passed k p q).guardian = (k.proc k.initproc).born := by
        rw [passed, if_pos hq']
      rw [shape_exit_node]
      by_cases hqp : q = p
      · subst hqp
        rw [Function.update_self]
        exact hpass
      · rw [Function.update_of_ne hqp]
        exact hpass
    · have hq' : (k.proc q).parent ≠ some p := hq
      have hpass : passed k p q = (k.proc q).node := by rw [passed, if_neg hq']
      rw [shape_exit_node]
      by_cases hqp : q = p
      · subst hqp
        rw [Function.update_self, hpass]
        exact ⟨rfl, rfl⟩
      · rw [Function.update_of_ne hqp, hpass]
        exact ⟨rfl, rfl⟩
  · have hinit : k₁.initproc = k.initproc := by rw [hk₁]; rfl
    have hself : ∀ q, (k.proc p).parent = some q → q ≠ p := by
      rintro q hq rfl
      obtain ⟨r, hr⟩ := ht.placed q hact.live hpi
      obtain rfl : r = q := Option.some.inj (hr.parent.symm.trans hq)
      exact Nat.lt_irrefl _ hr.older
    refine h.waits.of (List.subset_cons_self ..) (fun q hq hk => Or.inl ?_) fun q hq hc => ?_
    · have hcall : (exit k p).call q = k.call q := by
        simp only [exit, reparent]
        split <;> rfl
      rw [hcall] at hq
      have hqp : q ≠ p := by
        rintro rfl
        exact absurd (hf.2.symm.trans hq) (by simp)
      obtain ⟨st, hst⟩ := hwake q
      rw [hproc q hqp, (reparent_proc k₁ p q).2.1, hst] at hk
      exact ⟨hq, hk, congrFun hpids q⟩
    · have hqp : q ≠ p := by
        rintro rfl
        rw [hexit, upd_proc_same] at hq
        cases hq
      obtain ⟨-, -, hchan, -, -, hsleep⟩ := reparent_proc k₁ p q
      rw [hproc q hqp] at hq hc
      rw [hchan] at hc
      obtain ⟨hq₁, horphan⟩ := hsleep hq
      have hst := (wakeup1_state k ((k.proc p).parent.map .proc) q).2 (hk₁ ▸ hq₁)
      have hc₀ : (k.proc q).chan = some (.proc q) := by
        obtain ⟨st, hst⟩ := hwake q
        rw [hst] at hc
        exact hc
      -- the parent has been woken
      have hnot : (k.proc p).parent ≠ some q := fun hp =>
        hst.2 (by rw [hp, hc₀]; rfl)
      refine Or.inl ⟨hst.1, hc₀, fun r hr hz => ?_⟩
      obtain ⟨-, -, -, hparent, hzombie, -⟩ := reparent_proc k₁ p r
      obtain ⟨sr, hsr⟩ := hwake r
      have hpar : (k₁.proc r).parent = (k.proc r).parent := by rw [hsr]
      rw [hpar, hinit] at hparent
      by_cases hrp : r = p
      · exfalso
        subst hrp
        have hr' : ((reparent k₁ r).proc r).parent = some q := by
          rw [hexit, upd_proc_same] at hr
          exact hr
        rw [hparent, if_neg fun hrr => hself r hrr rfl] at hr'
        exact hnot hr'
      · rw [hproc r hrp] at hr hz
        have hz₁ := hzombie hz
        have hz₀ := (wakeup1_state k ((k.proc p).parent.map .proc) r).1 (hk₁ ▸ hz₁)
        rw [hparent] at hr
        split at hr
        · -- an abandoned zombie: init has been woken
          rename_i hrp'
          have hqi : k.initproc = q := Option.some.inj hr
          refine absurd (hc.trans ?_) (horphan ⟨r, hpar.trans hrp', hz₁⟩)
          rw [hinit, hqi]
        · exact ⟨hr, hz₀⟩

/-- A process falls asleep in `wait`, when it has no zombie child. -/
theorem Waits.fallAsleep (h : Waits k log) {f : Proc → Proc}
    (hkilled : (f (k.proc p)).killed = false) (hparent : (f (k.proc p)).parent = (k.proc p).parent)
    (hst : (f (k.proc p)).state = .sleeping)
    (hnone : ∀ r, (k.proc r).parent = some p → (k.proc r).state ≠ .zombie) :
    Waits (k.upd p f) log := by
  have hchild : ∀ r, ((k.upd p f).proc r).parent = (k.proc r).parent ∧
      (((k.upd p f).proc r).state = .zombie → (k.proc r).state = .zombie) := by
    intro r
    rcases upd_proc_cases f (k := k) (q := r) (r := p) rfl with ⟨rfl, he⟩ | ⟨-, he⟩
    · rw [he, hst]
      exact ⟨hparent, by simp⟩
    · rw [he]
      exact ⟨rfl, id⟩
  refine h.of (fun _ hx => hx) (fun q hq hk => Or.inl ?_) fun q hq hc => ?_
  · rcases upd_proc_cases f (k := k) (q := q) (r := p) rfl with ⟨rfl, he⟩ | ⟨hne, he⟩
    · rw [he, hkilled] at hk
      cases hk
    · rw [he] at hk
      exact ⟨hq, hk, congrArg Proc.pid he⟩
  · rcases upd_proc_cases f (k := k) (q := q) (r := p) rfl with ⟨rfl, -⟩ | ⟨-, he⟩
    · refine Or.inr fun r hrq hz => ?_
      rw [(hchild r).1] at hrq
      exact hnone r hrq ((hchild r).2 hz)
    · rw [he] at hq hc
      refine Or.inl ⟨hq, hc, fun r hrq hz => ?_⟩
      rw [(hchild r).1] at hrq
      exact ⟨hrq, (hchild r).2 hz⟩

theorem settled_wait (h : Settled k log) (ht : k.shape.Tree) (hfits : k.call p = .waiting)
    (hs : step k (.wait p) = some k') : Settled k' ((Act.wait p).event k ++ log) := by
  obtain ⟨hr, -, rfl⟩ := step_wait hs
  have hact := active_of_state hr
  have hpid : k.pid p = (k.shape.node p).born := h.accounts.pids p hact.ne_unused
  simp only [Act.event, wait]
  cases hreap : reaps k p with
  | some q =>
    obtain ⟨hpq, hz⟩ := reaps_spec hreap
    have hphase : (k.shape.node q).phase = .zombie := by
      simp [Kernel.shape, Proc.node, hz, ProcState.phase]
    have hqid : k.pid q = (k.shape.node q).born := h.accounts.pids q (by rw [hphase]; simp)
    simp only [hpid, hqid]
    refine Settled.setCall ⟨?_, ?_⟩ (by simp) (by simp)
    · have hshape : (reap k q).shape = k.shape.setNode q
          ⟨.unused, (k.proc q).born, none, (k.proc q).isthread, (k.proc q).guardian⟩ := by
        unfold reap
        split <;> exact shape_upd _ _ _
      have hpids : (reap k q).pid = Function.update k.pid q 0 := by
        unfold reap
        split <;> exact pid_upd _ _
      rw [hshape, hpids]
      exact h.accounts.reap ht hact hphase hpq rfl rfl
    · have hupd : ∀ k₀ : Kernel, Waits k₀ log → Waits (k₀.upd q fun x =>
          { x with kstack := false, state := .unused, pid := 0, parent := none, killed := false })
          (.waited (k.shape.node p).born (k.shape.node q).born :: log) := fun k₀ hw =>
        hw.upd (List.subset_cons_self ..) (by simp) (Or.inr rfl) (by simp)
      unfold reap
      split
      · exact hupd k h.waits
      · exact hupd (k.freevm _) (h.freevm _).waits
  | none =>
    simp only
    split
    · rename_i hcond
      refine Settled.setCall ⟨?_, ?_⟩ (by simp) (by simp)
      · refine h.accounts.note rfl ?_
        rcases hcond with hno | hk
        · rw [hpid]
          exact h.accounts.childless ht hact fun q hq => hno ⟨q, hq⟩
        · exact Or.inl (h.waits.killed p hfits hk)
      · exact h.waits.of (List.subset_cons_self ..) (fun q hq hk => Or.inl ⟨hq, hk, rfl⟩)
          fun q hq hc => Or.inl ⟨hq, hc, fun r hr hz => ⟨hr, hz⟩⟩
    · rename_i hcond
      have hkilled : (k.proc p).killed = false := by
        rw [not_or] at hcond
        simpa using hcond.2
      refine Settled.setCall ⟨?_, ?_⟩ (by simp) fun _ => ?_
      · have hsame : (k.upd p fun x =>
            { x with chan := some (.proc p), state := .sleeping }).shape = k.shape := by
          refine shape_upd_same ?_
          simp [Proc.node, hr, ProcState.phase]
        rw [hsame, pid_upd_same rfl]
        exact h.accounts
      · -- the scan has found no zombie among the children
        have hnone : ∀ r, (k.proc r).parent = some p → (k.proc r).state ≠ .zombie := by
          intro r hrp hz
          refine List.find?_eq_none.mp hreap r (List.mem_finRange r) ?_
          simp [hrp, hz]
        exact h.waits.fallAsleep hkilled rfl rfl hnone
      · rw [upd_proc_same]
        exact hkilled

/-- **Every move keeps the invariant**, as long as pids have not come round. -/
theorem settled_act (h : Settled k log) (ht : k.shape.Tree) {a : Act} (hplain : a.plain)
    (hfits : a.fits k) (hs : step k a = some k') (hlt : k'.nextpid ≤ 2 ^ 32) :
    Settled k' (a.event k ++ log) := by
  cases a with
  | schedule p | yield p | sleep p c | wakeup c | kill p pid => exact settled_idle h rfl rfl hs
  | forkAlloc p kallocOk => exact settled_forkAlloc h ht hs hlt
  | forkCopy p o => exact settled_forkCopy h ht hs
  | exit p => exact settled_exit h ht hs
  | wait p => exact settled_wait h ht (of_decide_eq_true hfits) hs
  | execBuild p o =>
    obtain ⟨-, rfl⟩ := step_execBuild hs
    cases o with
    | ok => exact h.newDir.setCall (by simp) (by simp)
    | noPage => exact h
    | halfBuilt => exact h.newDir
    | bad => exact h.newDir.freevm _
  | execCommit p =>
    obtain ⟨d, hc, hr, rfl⟩ := step_execCommit hs
    have hupd : Settled (k.upd p fun x => { x with pgdir := some d }) log := by
      refine ⟨?_, h.waits.upd (fun _ hx => hx) (by simp [hr]) (Or.inl (by simp [hc])) (by simp [hr])⟩
      rw [shape_upd_same rfl, pid_upd_same rfl]
      exact h.accounts
    exact (hupd.freevm _).setCall (by simp) (by simp)
  | execBad p =>
    obtain ⟨d, -, rfl⟩ := step_execBad hs
    exact (h.freevm _).setCall (by simp) (by simp)
  | _ => cases hplain

end Steps

/-! ## 5. Whole runs -/

/-- A move draws at most one pid, and only `fork` draws one. -/
theorem nextpid_step {k k' : Kernel} {a : Act} (hplain : a.plain) (hs : step k a = some k') :
    k.nextpid ≤ k'.nextpid ∧
      k'.nextpid ≤ k.nextpid + if (Move.act a).isFork then 1 else 0 := by
  have hsame : ∀ {k₁ : Kernel}, k₁.nextpid = k.nextpid → ∀ n, k.nextpid ≤ k₁.nextpid ∧
      k₁.nextpid ≤ k.nextpid + n := fun h n => by
    rw [h]
    exact ⟨Nat.le_refl _, Nat.le_add_right _ _⟩
  cases a with
  | schedule p | yield p | sleep p c | wakeup c | kill p pid =>
    have hcore : k'.core.nextpid = k.core.nextpid :=
      congrArg Kernel.nextpid (step_idle rfl hs)
    exact hsame hcore _
  | forkAlloc p kallocOk =>
    obtain ⟨-, hal⟩ := step_forkAlloc hs
    have hsnd : k'.nextpid = (allocproc k kallocOk).2.nextpid := by
      rcases hal with hal | ⟨np, k₁, hal, rfl⟩ <;> rw [hal]
      rfl
    rw [hsnd]
    rcases allocproc_cases k kallocOk with he | ⟨np, -, he⟩ <;> rw [he]
    · exact hsame rfl _
    · cases kallocOk <;> exact ⟨Nat.le_succ _, Nat.le_refl _⟩
  | forkCopy p o =>
    obtain ⟨np, -, rfl⟩ := step_forkCopy hs
    cases o <;> exact hsame rfl _
  | exit p =>
    obtain ⟨-, -, rfl⟩ := step_exit hs
    refine hsame ?_ _
    simp only [exit, reparent]
    split <;> rfl
  | wait p =>
    obtain ⟨-, -, rfl⟩ := step_wait hs
    refine hsame ?_ _
    unfold wait
    split
    · simp only [reap]
      split <;> rfl
    · split <;> rfl
  | execBuild p o =>
    obtain ⟨-, rfl⟩ := step_execBuild hs
    cases o <;> exact hsame rfl _
  | execCommit p =>
    obtain ⟨d, -, -, rfl⟩ := step_execCommit hs
    exact hsame rfl _
  | execBad p =>
    obtain ⟨d, -, rfl⟩ := step_execBad hs
    exact hsame rfl _
  | _ => cases hplain

/-- The invariant, for as long as pids have not come round. -/
def Fine (s : System) : Prop :=
  s.kernel.nextpid ≤ 2 ^ 32 → s.kernel.shape.Tree ∧ Settled s.kernel s.log

theorem fine_move (s : System) (m : Move) (t : System) (h : Fine s) (hm : move s m = some t) :
    Fine t := by
  intro hlt
  cases m with
  | act a =>
    simp only [move, Option.ite_none_right_eq_some, Bool.and_eq_true] at hm
    obtain ⟨⟨hplain, hfits⟩, hm⟩ := hm
    obtain ⟨k', hs, rfl⟩ := Option.map_eq_some_iff.mp hm
    obtain ⟨ht, hset⟩ := h (Nat.le_trans (nextpid_step hplain hs).1 hlt)
    have hno : NoOrphan s.kernel a := by
      cases a with
      | exit p =>
        intro c
        cases hc : s.kernel.call c with
        | cloning np pp => exact absurd hc (hset.accounts.noClone c np pp)
        | _ => trivial
      | texit p => cases hplain
      | _ => trivial
    exact ⟨step_tree _ _ _ ht hno hs, settled_act hset ht hplain hfits hs hlt⟩
  | enterWait p =>
    simp only [move, Option.ite_none_right_eq_some, Option.some.injEq] at hm
    obtain ⟨⟨hf, hk⟩, rfl⟩ := hm
    obtain ⟨ht, hset⟩ := h hlt
    exact ⟨ht.setCall_plain (fun _ => active_of_state hf.1) rfl, hset.setCall (by simp) fun _ => hk⟩

theorem settled_boot : Settled Ptable.boot [] := by
  have hparent : ∀ p, (Ptable.boot.proc p).parent = none := by
    intro p
    simp only [Ptable.boot]
    split <;> rfl
  have honly : ∀ p, (Ptable.boot.shape.node p).phase ≠ .unused → p = 0 := by
    intro p hp
    by_contra h
    exact hp (by simp [Ptable.boot, Kernel.shape, Proc.node, h, Proc.zero, ProcState.phase])
  refine ⟨⟨fun p np pp h => (by cases h), fun p _ => hparent p, fun p hp => ?_,
    fun p q hp hq _ => ?_, rfl, trivial, by simp, by simp, fun p hp hpi => ?_, fun p hp => ?_,
    by simp, by simp⟩, fun p h => (by cases h), fun p _ _ q hq => ?_⟩
  · rw [honly p hp]
    rfl
  · exact (honly p hp).trans (honly q hq).symm
  · exact absurd (honly p hp.used) hpi
  · refine iff_of_false (by simp) ?_
    rw [honly p hp]
    simp [Ptable.boot, Kernel.shape, Proc.node, ProcState.phase]
  · rw [hparent q] at hq
    cases hq

theorem fine_boot : Fine .boot := fun _ => ⟨tree_boot, settled_boot⟩

/-- Every `fork` draws at most one pid. -/
theorem nextpid_run (ms : List Move) (s t : System) (h : run move s ms = some t) :
    t.kernel.nextpid ≤ s.kernel.nextpid + ms.countP Move.isFork := by
  induction ms generalizing s with
  | nil =>
    rw [run_nil, Option.some.injEq] at h
    rw [h]
    exact Nat.le_add_right _ _
  | cons m ms ih =>
    obtain ⟨u, hu, hrest⟩ := run_cons_iff.mp h
    have hm : u.kernel.nextpid ≤ s.kernel.nextpid + if m.isFork then 1 else 0 := by
      cases m with
      | act a =>
        simp only [move, Option.ite_none_right_eq_some, Bool.and_eq_true] at hu
        obtain ⟨⟨hplain, -⟩, hu⟩ := hu
        obtain ⟨k', hs, rfl⟩ := Option.map_eq_some_iff.mp hu
        exact (nextpid_step hplain hs).2
      | enterWait p =>
        simp only [move, Option.ite_none_right_eq_some, Option.some.injEq] at hu
        obtain ⟨-, rfl⟩ := hu
        exact Nat.le_add_right _ _
    have := ih u hrest
    rw [List.countP_cons]
    omega

/-- **Exit and wait match exactly once.**  In every run of processes with fewer than 2^31 `fork`s:
the history is matched (a pid is returned by at most one `wait`, after that process exited, and to its
creator or, if the creator had exited, to init; a `wait` that fails has been killed or has no
children); and no process is asleep in `wait` while it has a zombie child. -/
theorem exit_and_wait_match (ms : List Move) (s : System) (h : run move .boot ms = some s)
    (hforks : ms.countP Move.isFork < 2 ^ 31) :
    Matched s.log ∧
    ∀ p, (s.kernel.proc p).state = .sleeping → (s.kernel.proc p).chan = some (.proc p) →
      ∀ q, (s.kernel.proc q).parent = some p → (s.kernel.proc q).state ≠ .zombie := by
  have hpid := nextpid_run ms .boot s h
  have hboot : System.boot.kernel.nextpid = 2 := rfl
  obtain ⟨-, hset⟩ := run_always fine_move ms .boot s fine_boot h (by omega)
  exact ⟨hset.accounts.matched, hset.waits.asleep⟩

/-- Init's child has a child of its own and exits; init gets both, one after the other, and then has
no children. -/
def orphanWaitedFor : List Move :=
  [.act (.schedule 0), .act (.forkAlloc 0 true), .act (.forkCopy 0 .ok), .act (.schedule 1),
    .act (.forkAlloc 1 true), .act (.forkCopy 1 .ok), .enterWait 0, .act (.wait 0),
    .act (.exit 1), .act (.schedule 0), .act (.wait 0), .enterWait 0, .act (.wait 0),
    .act (.schedule 2), .act (.exit 2), .act (.schedule 0), .act (.wait 0), .enterWait 0,
    .act (.wait 0)]

theorem matched_when_orphanWaitedFor :
    ∃ s, run move .boot orphanWaitedFor = some s ∧
      s.log = [.waitFailed 1, .waited 1 3, .exited 3, .waited 1 2, .exited 2, .forked 2 3,
        .forked 1 2] ∧ Matched s.log := by
  have hrun : (run move .boot orphanWaitedFor).any (fun s => s.log = [.waitFailed 1, .waited 1 3,
      .exited 3, .waited 1 2, .exited 2, .forked 2 3, .forked 1 2]) = true := by
    decide +kernel
  obtain ⟨s, hs, hlog⟩ := (Option.any_eq_true _ _).mp hrun
  exact ⟨s, hs, of_decide_eq_true hlog, (exit_and_wait_match orphanWaitedFor s hs (by decide)).1⟩

end Xv6.Ptable
