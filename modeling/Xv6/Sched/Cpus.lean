/-
# CPUs and processes: what scheduling comes down to

An abstract machine.  Of each CPU there is its `proc` pointer and where it stands: in its scheduler
with no process (`idle`), with one it has chosen and not yet marked (`picked`), with one it has
marked and not yet switched to (`going`), on a process's kernel stack (`on`), still on it after the
process has given up its state (`off`), and back on its own stack with `proc` still set (`back`).
There is one lock.  What happens between `idle` and `on`, and between `off` and `idle`, happens under
the lock, although the code that takes it and the code that lets it go are on different stacks.

The invariant: a RUNNING process is some CPU's `proc`, one CPU's only; whoever stands between has the
lock; and a process that can run has a kernel stack.  `Xv6.Sched.Machine` has the code; the two are
connected in `Xv6.Sched.Refines`.
-/
import Xv6.Proc.Table

namespace Xv6.Cpus

open Xv6.Ptable (ProcState)

/-! ## 1. The abstract machine -/

/-- Where a CPU stands. -/
inductive Phase (P : Type) where
  | idle
  | picked (p : P)
  | going (p : P)
  | on (p : P)
  | off (p : P)
  | back
deriving DecidableEq

structure System (ι P : Type) where
  state : P → ProcState
  stack : P → Bool
  proc : ι → Option P
  phase : ι → Phase P
  holder : Option ι

variable {ι P : Type}

/-- The CPU is on its own stack with no process, or on the stack of a RUNNING one. -/
def System.Plain (s : System ι P) (c : ι) : Prop := s.phase c = .idle ∨ ∃ p, s.phase c = .on p

/-- What a process that leaves its CPU can become. -/
def Away (x : ProcState) : Prop := x = .runnable ∨ x = .sleeping ∨ x = .zombie

/-- The moves. -/
inductive Step [DecidableEq ι] [DecidableEq P] (s : System ι P) : System ι P → Prop
  | acquire (c : ι) (h : s.holder = none) : Step s { s with holder := some c }
  | release (c : ι) (hc : s.Plain c) (h : s.holder = some c) : Step s { s with holder := none }
  | pick (c : ι) (p : P) (hc : s.phase c = .idle) (h : s.holder = some c)
      (hp : s.state p = .runnable) : Step s { s with
        proc := Function.update s.proc c (some p), phase := Function.update s.phase c (.picked p) }
  | mark (c : ι) (p : P) (hc : s.phase c = .picked p) : Step s { s with
      state := Function.update s.state p .running, phase := Function.update s.phase c (.going p) }
  | enter (c : ι) (p : P) (hc : s.phase c = .going p) :
      Step s { s with phase := Function.update s.phase c (.on p) }
  | leave (c : ι) (p : P) (x : ProcState) (hc : s.phase c = .on p) (h : s.holder = some c)
      (hx : Away x) : Step s { s with
        state := Function.update s.state p x, phase := Function.update s.phase c (.off p) }
  | exit (c : ι) (p : P) (hc : s.phase c = .off p) :
      Step s { s with phase := Function.update s.phase c .back }
  | forget (c : ι) (hc : s.phase c = .back) : Step s { s with
      proc := Function.update s.proc c none, phase := Function.update s.phase c .idle }
  | wake (c : ι) (q : P) (hc : s.Plain c) (h : s.holder = some c) (hq : s.state q = .sleeping) :
      Step s { s with state := Function.update s.state q .runnable }
  | take (c : ι) (q : P) (hc : s.Plain c) (h : s.holder = some c) (hq : s.state q = .unused) :
      Step s { s with state := Function.update s.state q .embryo }
  | build (q : P) (hq : s.state q = .embryo) :
      Step s { s with stack := Function.update s.stack q true }
  | give (q : P) (hq : s.state q = .embryo) :
      Step s { s with
        stack := Function.update s.stack q false, state := Function.update s.state q .unused }
  | ready (q : P) (hq : s.state q = .embryo) (hs : s.stack q = true) :
      Step s { s with state := Function.update s.state q .runnable }
  | reap (c : ι) (q : P) (hc : s.Plain c) (h : s.holder = some c) (hq : s.state q = .zombie) :
      Step s { s with
        stack := Function.update s.stack q false, state := Function.update s.state q .unused }

/-! ## 2. The invariant -/

/-- What holds of a CPU that stands at `ph`. -/
def Stands (s : System ι P) (c : ι) : Phase P → Prop
  | .idle => s.proc c = none
  | .picked p => s.proc c = some p ∧ s.holder = some c ∧ s.state p = .runnable
  | .going p => s.proc c = some p ∧ s.holder = some c ∧ s.state p = .running
  | .on p => s.proc c = some p ∧ s.state p = .running
  | .off p => s.proc c = some p ∧ s.holder = some c ∧ Away (s.state p)
  | .back => ∃ p, s.proc c = some p ∧ s.holder = some c ∧ Away (s.state p)

structure Inv (s : System ι P) : Prop where
  stands : ∀ c, Stands s c (s.phase c)
  one : ∀ c c' p, s.proc c = some p → s.proc c' = some p → c = c'
  has : ∀ p, s.state p = .running → ∃ c, s.proc c = some p
  stacked : ∀ p, s.state p = .runnable ∨ s.state p = .sleeping ∨ s.state p = .running →
    s.stack p = true

variable {s t : System ι P}

/-- A CPU's `proc` is RUNNING, or the CPU has the lock and is not `Plain`. -/
theorem Inv.proc_cases (hi : Inv s) {c : ι} {p : P} (h : s.proc c = some p) :
    s.state p = .running ∨ (s.holder = some c ∧ ¬s.Plain c ∧ Away (s.state p)) := by
  have hs := hi.stands c
  cases hph : s.phase c with
  | idle =>
    rw [hph] at hs
    exact absurd (h.symm.trans hs) (by simp)
  | picked q =>
    rw [hph] at hs
    obtain ⟨hq, hl, hst⟩ := hs
    cases h.symm.trans hq
    exact Or.inr ⟨hl, by simp [System.Plain, hph], Or.inl hst⟩
  | going q =>
    rw [hph] at hs
    cases h.symm.trans hs.1
    exact Or.inl hs.2.2
  | on q =>
    rw [hph] at hs
    cases h.symm.trans hs.1
    exact Or.inl hs.2
  | off q =>
    rw [hph] at hs
    obtain ⟨hq, hl, hst⟩ := hs
    cases h.symm.trans hq
    exact Or.inr ⟨hl, by simp [System.Plain, hph], hst⟩
  | back =>
    rw [hph] at hs
    obtain ⟨q, hq, hl, hst⟩ := hs
    cases h.symm.trans hq
    exact Or.inr ⟨hl, by simp [System.Plain, hph], hst⟩

/-- Under a `Plain` CPU's lock, a process that is not RUNNING is no CPU's `proc`. -/
theorem Inv.nowhere (hi : Inv s) {c : ι} {q : P} (hc : s.Plain c) (h : s.holder = some c)
    (hq : s.state q ≠ .running) (c' : ι) : s.proc c' ≠ some q := by
  intro hp
  rcases hi.proc_cases hp with hrun | ⟨hl, hnot, -⟩
  · exact hq hrun
  · cases hl.symm.trans h
    exact hnot hc

/-- A process in the making is no CPU's `proc`. -/
theorem Inv.nowhere_embryo (hi : Inv s) {q : P} (hq : s.state q = .embryo) (c : ι) :
    s.proc c ≠ some q := by
  intro hp
  rcases hi.proc_cases hp with hrun | ⟨-, -, haway⟩
  · rw [hq] at hrun
    cases hrun
  · rw [hq] at haway
    rcases haway with h | h | h <;> cases h

/-- A CPU stands where it stood if its `proc` has the state it had. -/
theorem Stands.congr {c : ι} {ph : Phase P} (h : Stands s c ph) (hproc : t.proc c = s.proc c)
    (hholder : s.holder = some c → t.holder = some c)
    (hstate : ∀ p, s.proc c = some p → t.state p = s.state p) : Stands t c ph := by
  cases ph with
  | idle => exact hproc.trans h
  | picked p => exact ⟨hproc.trans h.1, hholder h.2.1, (hstate p h.1).trans h.2.2⟩
  | going p => exact ⟨hproc.trans h.1, hholder h.2.1, (hstate p h.1).trans h.2.2⟩
  | on p => exact ⟨hproc.trans h.1, (hstate p h.1).trans h.2⟩
  | off p => exact ⟨hproc.trans h.1, hholder h.2.1, by rw [hstate p h.1]; exact h.2.2⟩
  | back =>
    obtain ⟨p, hp, hl, hst⟩ := h
    exact ⟨p, hproc.trans hp, hholder hl, by rw [hstate p hp]; exact hst⟩

/-- The state of a process that is no CPU's `proc` changes. -/
theorem Inv.setState [DecidableEq P] (hi : Inv s) {q : P} {x : ProcState} (hq : ∀ c, s.proc c ≠ some q)
    (hx : x ≠ .running) (hstack : x = .runnable ∨ x = .sleeping → s.stack q = true) :
    Inv { s with state := Function.update s.state q x } where
  stands c := by
    refine (hi.stands c).congr rfl id fun p hp => ?_
    have hne : p ≠ q := by
      rintro rfl
      exact hq c hp
    exact Function.update_of_ne hne ..
  one := hi.one
  has p hp := by
    rcases eq_or_ne p q with rfl | hne
    · exact absurd ((Function.update_self ..).symm.trans hp) hx
    · exact hi.has p ((Function.update_of_ne hne ..).symm.trans hp)
  stacked p hp := by
    rcases eq_or_ne p q with rfl | hne
    · simp only [Function.update_self] at hp
      refine hstack ?_
      rcases hp with h | h | h
      · exact Or.inl h
      · exact Or.inr h
      · exact absurd h hx
    · simp only [Function.update_of_ne hne] at hp
      exact hi.stacked p hp

/-- The stack of a process that cannot run comes or goes. -/
theorem Inv.setStack [DecidableEq P] (hi : Inv s) {q : P} (b : Bool)
    (hq : s.state q = .embryo ∨ s.state q = .zombie) :
    Inv { s with stack := Function.update s.stack q b } where
  stands c := (hi.stands c).congr rfl id fun _ _ => rfl
  one := hi.one
  has := hi.has
  stacked p hp := by
    have hne : p ≠ q := by
      rintro rfl
      have hp' : s.state p = .runnable ∨ s.state p = .sleeping ∨ s.state p = .running := hp
      rcases hq with h | h <;> rw [h] at hp' <;> simp at hp'
    exact (Function.update_of_ne hne ..).trans (hi.stacked p hp)

/-- A CPU moves on with the process it has. -/
theorem Inv.setPhase [DecidableEq ι] (hi : Inv s) {c : ι} {ph : Phase P} (h : Stands s c ph) :
    Inv { s with phase := Function.update s.phase c ph } where
  stands c' := by
    rcases eq_or_ne c' c with rfl | hne
    · simp only [Function.update_self]
      exact h.congr rfl id fun _ _ => rfl
    · simp only [Function.update_of_ne hne]
      exact (hi.stands c').congr rfl id fun _ _ => rfl
  one := hi.one
  has := hi.has
  stacked := hi.stacked

variable [DecidableEq ι] [DecidableEq P]

/-- A CPU moves on and changes the state of its process. -/
theorem Inv.setBoth (hi : Inv s) {c : ι} {p : P} {x : ProcState} {ph : Phase P}
    (hp : s.proc c = some p) (hstack : s.stack p = true)
    (h : Stands { s with state := Function.update s.state p x } c ph) :
    Inv { s with
      state := Function.update s.state p x, phase := Function.update s.phase c ph } where
  stands c' := by
    rcases eq_or_ne c' c with rfl | hne
    · simp only [Function.update_self]
      exact h.congr rfl id fun _ _ => rfl
    · simp only [Function.update_of_ne hne]
      refine (hi.stands c').congr rfl id fun q hq => ?_
      have hqp : q ≠ p := by
        rintro rfl
        exact hne (hi.one c' c q hq hp)
      exact Function.update_of_ne hqp ..
  one := hi.one
  has q hq := by
    rcases eq_or_ne q p with rfl | hne
    · exact ⟨c, hp⟩
    · exact hi.has q ((Function.update_of_ne hne ..).symm.trans hq)
  stacked q hq := by
    rcases eq_or_ne q p with rfl | hne
    · exact hstack
    · simp only [Function.update_of_ne hne] at hq
      exact hi.stacked q hq

/-- **Every move keeps the invariant.** -/
theorem Inv.step (hi : Inv s) (h : Step s t) : Inv t := by
  cases h with
  | acquire c h =>
    refine ⟨fun c' => (hi.stands c').congr rfl (fun hl => ?_) fun _ _ => rfl, hi.one, hi.has,
      hi.stacked⟩
    rw [h] at hl
    cases hl
  | release c hc h =>
    refine ⟨fun c' => ?_, hi.one, hi.has, hi.stacked⟩
    have hs := hi.stands c'
    rcases eq_or_ne c' c with rfl | hne
    · -- a `Plain` CPU does not need the lock
      rcases hc with hph | ⟨p, hph⟩
      · simp only [hph] at hs ⊢
        exact hs
      · simp only [hph] at hs ⊢
        exact hs
    · refine hs.congr rfl (fun hl => ?_) fun _ _ => rfl
      exact absurd (Option.some.inj (hl.symm.trans h)) hne
  | pick c p hc h hp =>
    have hnone : ∀ c', s.proc c' ≠ some p :=
      hi.nowhere (Or.inl hc) h (by rw [hp]; simp)
    have hcp : s.proc c = none := by
      have hs := hi.stands c
      rw [hc] at hs
      exact hs
    refine ⟨fun c' => ?_, fun c₁ c₂ q h₁ h₂ => ?_, fun q hq => ?_, hi.stacked⟩
    · rcases eq_or_ne c' c with rfl | hne
      · simp only [Function.update_self]
        exact ⟨Function.update_self .., h, hp⟩
      · simp only [Function.update_of_ne hne]
        exact (hi.stands c').congr (Function.update_of_ne hne ..) id fun _ _ => rfl
    · rcases eq_or_ne c₁ c with rfl | h₁c <;> rcases eq_or_ne c₂ c₁ with rfl | h₂c
      · rfl
      · simp only [Function.update_self, Option.some.injEq] at h₁
        simp only [Function.update_of_ne h₂c] at h₂
        exact absurd (h₁ ▸ h₂) (hnone c₂)
      · rfl
      · simp only [Function.update_of_ne h₁c] at h₁
        rcases eq_or_ne c₂ c with rfl | h₂
        · simp only [Function.update_self, Option.some.injEq] at h₂
          exact absurd (h₂ ▸ h₁) (hnone c₁)
        · rename_i h₂'
          simp only [Function.update_of_ne h₂] at h₂'
          exact hi.one c₁ c₂ q h₁ h₂'
    · obtain ⟨c', hc'⟩ := hi.has q hq
      have hne : c' ≠ c := by
        rintro rfl
        rw [hcp] at hc'
        cases hc'
      exact ⟨c', (Function.update_of_ne hne ..).trans hc'⟩
  | mark c p hc =>
    have hs := hi.stands c
    rw [hc] at hs
    exact hi.setBoth hs.1 (hi.stacked p (Or.inl hs.2.2)) ⟨hs.1, hs.2.1, Function.update_self ..⟩
  | enter c p hc =>
    have hs := hi.stands c
    rw [hc] at hs
    exact hi.setPhase ⟨hs.1, hs.2.2⟩
  | leave c p x hc h hx =>
    have hs := hi.stands c
    rw [hc] at hs
    refine hi.setBoth hs.1 (hi.stacked p (Or.inr (Or.inr hs.2))) ⟨hs.1, h, ?_⟩
    simp only [Function.update_self]
    exact hx
  | exit c p hc =>
    have hs := hi.stands c
    rw [hc] at hs
    exact hi.setPhase ⟨p, hs⟩
  | forget c hc =>
    have hs := hi.stands c
    rw [hc] at hs
    obtain ⟨p, hp, -, haway⟩ := hs
    refine ⟨fun c' => ?_, fun c₁ c₂ q h₁ h₂ => ?_, fun q hq => ?_, hi.stacked⟩
    · rcases eq_or_ne c' c with rfl | hne
      · simp only [Function.update_self]
        exact Function.update_self ..
      · simp only [Function.update_of_ne hne]
        exact (hi.stands c').congr (Function.update_of_ne hne ..) id fun _ _ => rfl
    · rcases eq_or_ne c₁ c with rfl | h₁c
      · simp at h₁
      · rcases eq_or_ne c₂ c with rfl | h₂c
        · simp at h₂
        · simp only [Function.update_of_ne h₁c] at h₁
          simp only [Function.update_of_ne h₂c] at h₂
          exact hi.one c₁ c₂ q h₁ h₂
    · obtain ⟨c', hc'⟩ := hi.has q hq
      have hne : c' ≠ c := by
        rintro rfl
        cases hp.symm.trans hc'
        have hq' : s.state p = .running := hq
        rw [hq'] at haway
        rcases haway with h | h | h <;> cases h
      exact ⟨c', (Function.update_of_ne hne ..).trans hc'⟩
  | wake c q hc h hq =>
    exact hi.setState (hi.nowhere hc h (by rw [hq]; simp)) (by simp)
      fun _ => hi.stacked q (Or.inr (Or.inl hq))
  | take c q hc h hq =>
    exact hi.setState (hi.nowhere hc h (by rw [hq]; simp)) (by simp) fun hx => by simp at hx
  | build q hq => exact hi.setStack true (Or.inl hq)
  | give q hq =>
    exact (hi.setStack false (Or.inl hq)).setState (hi.nowhere_embryo hq) (by simp)
      fun hx => by simp at hx
  | ready q hq hs => exact hi.setState (hi.nowhere_embryo hq) (by simp) fun _ => hs
  | reap c q hc h hq =>
    exact (hi.setStack false (Or.inr hq)).setState (hi.nowhere hc h (by rw [hq]; simp)) (by simp)
      fun hx => by simp at hx

/-- The CPU is on the stack of `p`. -/
def System.On (s : System ι P) (c : ι) (p : P) : Prop := s.phase c = .on p ∨ s.phase c = .off p

/-- Nobody switches to a zombie. -/
theorem Step.no_zombie (h : Step s t) (hi : Inv s) {c : ι} {p : P} (hz : s.state p = .zombie)
    (hon : t.On c p) : s.On c p := by
  -- where the phases are set at `c'` and the new one is not `On`, `c` is another CPU
  have hset : ∀ {c' : ι} {ph : Phase P}, (Function.update s.phase c' ph c = .on p ∨
      Function.update s.phase c' ph c = .off p) → (ph = .on p ∨ ph = .off p → s.On c p) →
      s.On c p := by
    intro c' ph hup hph
    rcases eq_or_ne c c' with rfl | hne
    · rw [Function.update_self] at hup
      exact hph hup
    · rw [Function.update_of_ne hne] at hup
      exact hup
  cases h with
  | pick c' q | mark c' q | exit c' q | forget c' => exact hset hon (by simp)
  | enter c' q hc' =>
    refine hset hon fun hph => ?_
    have hs := hi.stands c'
    rw [hc'] at hs
    have hqp : q = p := by simpa using hph
    exact absurd (hqp ▸ hs.2.2) (by rw [hz]; simp)
  | leave c' q x hc' =>
    refine hset hon fun hph => ?_
    have hs := hi.stands c'
    rw [hc'] at hs
    have hqp : q = p := by simpa using hph
    exact absurd (hqp ▸ hs.2) (by rw [hz]; simp)
  | _ => exact hon

/-- A stack is freed only if no CPU has its process. -/
theorem Step.freed (h : Step s t) (hi : Inv s) {p : P} (hs : s.stack p = true)
    (ht : t.stack p = false) (c : ι) : s.proc c ≠ some p := by
  -- the stack that is set is that of `p`
  have hset : ∀ {q : P}, Function.update s.stack q false p = false → q = p := by
    intro q hup
    rcases eq_or_ne p q with rfl | hne
    · rfl
    · rw [Function.update_of_ne hne, hs] at hup
      cases hup
  cases h with
  | build q hq =>
    rcases eq_or_ne p q with rfl | hne
    · simp at ht
    · simp only [Function.update_of_ne hne] at ht
      exact absurd (hs.symm.trans ht) (by simp)
  | give q hq => exact hi.nowhere_embryo (hset ht ▸ hq) c
  | reap c' q hc h hq => exact hi.nowhere hc h (by rw [← hset ht, hq]; simp) c
  | _ => exact absurd (hs.symm.trans ht) (by simp)

end Xv6.Cpus
