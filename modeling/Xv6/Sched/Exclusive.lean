/-
# A process runs on one CPU

The code of a call, and of an interrupt handler, is well formed in front of whatever the thread has
left to do, so every step of the machine is a move of the abstract one; the invariant holds in every
run, for any number of CPUs and any assignment `guard` of locks to conditions.

Results: whenever `ptable.lock` is free, a process is RUNNING exactly when it is the `proc` of exactly
one CPU; no CPU switches to a zombie; and no stack is freed under a CPU (`one_cpu_at_a_time`).
-/
import Xv6.Sched.Statements

namespace Xv6.Sched

open Xv6.Ptable (Slot ProcState)
open Xv6.Cpus (Away Phase)

variable {ι : Type} {guard : Nat → Lock} {s s' : Machine ι} {c : ι} {t : Thread ι}
  {st : Stmt} {k k' : List Stmt}

/-! ## 1. Calls and interrupts -/

/-- Code put in front of a thread that holds no lock. -/
structure Front (guard : Nat → Lock) (t : Thread ι) (a k : List Stmt) : Prop where
  sound : Sound guard (a ++ k)
  held : held guard (a ++ k) = []
  runs : t.Runs a
  making : making a = []

/-- One statement under a lock. -/
theorem Sound.under (h : Sound guard k) (hk : held guard k = []) (lk : Lock) (st : Stmt)
    (hst : st.headOnly = false) (hok : st.Ok guard (.release lk :: k))
    (hbefore : st.before guard = id) :
    Sound guard (.acquire lk :: st :: .release lk :: k) ∧
      held guard (.acquire lk :: st :: .release lk :: k) = [] := by
  have hr : held guard (.release lk :: k) = [lk] := by simp [held, Stmt.before, hk]
  have hr' : held guard (st :: .release lk :: k) = [lk] := by
    show st.before guard (held guard _) = _
    rw [hbefore]
    exact hr
  have hs := (h.cons (.release lk) rfl (by rw [Stmt.Ok, hk]; simp)).cons st hst hok
  refine ⟨hs.cons (.acquire lk) rfl (by rw [Stmt.Ok, hr']; simp), ?_⟩
  show (held guard (st :: .release lk :: k)).filter _ = _
  rw [hr']
  simp

theorem front_wakeup (h : Sound guard k) (hk : held guard k = []) (ch : Chan) :
    Front guard t (wakeup ch) k := by
  obtain ⟨hs, hheld⟩ := h.under hk .ptable (.wakeup1 (some ch) slots) rfl
    (by simp [Stmt.Ok, held, Stmt.before]) rfl
  refine ⟨hs, hheld, ?_, rfl⟩
  cases t <;> simp [Thread.Runs, Thread.Admits, wakeup, Stmt.scheduling, Stmt.common]

theorem front_waker (h : Sound guard k) (hk : held guard k = []) (n : Nat) (early : Bool) :
    Front guard t (waker guard n early) k := by
  have hr : held guard (.setCond n early :: k) = [guard n] := by simp [held, Stmt.before, hk]
  have hs := h.cons (.setCond n early) rfl hk
  refine ⟨hs.cons (.acquire (guard n)) rfl (by rw [Stmt.Ok, hr]; simp), ?_, ?_, rfl⟩
  · simp [waker, held, Stmt.before, hk]
  · cases t <;> simp [Thread.Runs, Thread.Admits, waker, Stmt.scheduling, Stmt.common]

theorem front_yield (h : Sound guard k) (hk : held guard k = []) (p : Slot) :
    Front guard (.proc p : Thread ι) yield k := by
  obtain ⟨hs, hheld⟩ := h.under hk .ptable (.leave .runnable) rfl
    ⟨Or.inl rfl, by simp [held, Stmt.before, hk], Or.inl rfl⟩ rfl
  exact ⟨hs, hheld, by simp [Thread.Runs, Thread.Admits, yield, Stmt.scheduling], rfl⟩

theorem front_sleep (p : Slot) (ch : Chan) (lk : Lock) :
    Front guard (.proc p : Thread ι) (.acquire lk :: sleep ch lk ++ [.release lk]) [] := by
  have hnil : Sound guard [] := ⟨trivial, by simp⟩
  have hr : held guard [.release lk] = [lk] := rfl
  have hs := (hnil.cons (.release lk) rfl List.not_mem_nil).sleep hr
    (by simp [Calm, Stmt.isWaking]) ch
  have hr' := held_sleep ch hr
  have hrel : (Thread.proc p : Thread ι).Runs [.release lk] := by
    simp [Thread.Runs, Thread.Admits, Stmt.scheduling]
  refine ⟨?_, ?_, ((runs_sleep p ch lk).append hrel).cons rfl, ?_⟩
  · rw [List.append_nil]
    exact hs.cons (.acquire lk) rfl (by rw [Stmt.Ok, hr']; simp)
  · rw [List.append_nil]
    show (held guard (sleep ch lk ++ [.release lk])).filter _ = _
    rw [hr']
    simp
  · show making (sleep ch lk ++ [.release lk]) = []
    rw [making_append, making_sleep]
    rfl

/-- **The code of every call is well formed.** -/
theorem front_call (x : Call) (p : Slot) : Front guard (.proc p : Thread ι) (x.code guard p) [] := by
  have hnil : Sound guard [] := ⟨trivial, by simp⟩
  have hproc : ∀ a : List Stmt, (∀ x ∈ a, x.scheduling = false) → (Thread.proc p : Thread ι).Runs a :=
    fun a ha => ha
  cases x with
  | fork =>
    obtain ⟨hs, hheld⟩ := hnil.under rfl .ptable (.alloc .fork slots) rfl rfl rfl
    exact ⟨hs, hheld, hproc _ (by simp [Call.code, allocproc, Stmt.scheduling]), rfl⟩
  | clone =>
    obtain ⟨hs, hheld⟩ := hnil.under rfl .ptable (.alloc .clone slots) rfl rfl rfl
    exact ⟨hs, hheld, hproc _ (by simp [Call.code, allocproc, Stmt.scheduling]), rfl⟩
  | wait =>
    obtain ⟨hs, hheld⟩ := hnil.under rfl .ptable (.scan slots false) rfl
      ⟨rfl, by simp [Calm, Stmt.isWaking]⟩ rfl
    exact ⟨hs, hheld, hproc _ (by simp [Call.code, wait, Stmt.scheduling]), rfl⟩
  | exit =>
    refine ⟨⟨?_, ?_⟩, rfl, hproc _ (by simp [Call.code, exit, Stmt.scheduling]), rfl⟩
    · simp [Call.code, exit, Wf, Stmt.Ok, held, Stmt.before, Away, Calm, Stmt.isWaking, Stmt.headOnly]
    · simp [Call.code, exit, Stmt.headOnly]
  | texit =>
    refine ⟨⟨?_, ?_⟩, rfl, hproc _ (by simp [Call.code, texit, Stmt.scheduling]), rfl⟩
    · simp [Call.code, texit, Wf, Stmt.Ok, held, Stmt.before, Away, Calm, Stmt.isWaking, Stmt.headOnly]
    · simp [Call.code, texit, Stmt.headOnly]
  | kill pid =>
    obtain ⟨hs, hheld⟩ := hnil.under rfl .ptable (.kill pid slots) rfl
      (by simp [Stmt.Ok, held, Stmt.before]) rfl
    exact ⟨hs, hheld, hproc _ (by simp [Call.code, kill, Stmt.scheduling]), rfl⟩
  | tsleep => exact front_sleep p (.proc p) .ptable
  | sleep m lk => exact front_sleep p (.plain m) lk
  | wakeup ch => exact front_wakeup hnil rfl ch
  | waiter n consume =>
    have hs := hnil.cons (.test n consume) rfl ⟨rfl, by simp [Calm]⟩
    refine ⟨hs.cons (.acquire (guard n)) rfl (by simp [Stmt.Ok, held, Stmt.before]), ?_,
      hproc _ (by simp [Call.code, waiter, Stmt.scheduling]), rfl⟩
    simp [Call.code, waiter, held, Stmt.before]
  | waker n early => exact front_waker hnil rfl n early

/-- A CPU that may be interrupted holds no lock. -/
theorem Good.held_nil (hg : Good guard s) (h : s.ncli c = 0) :
    held guard (s.code (s.cur c)) = [] := by
  rw [hg.locks.ncli] at h
  exact List.length_eq_zero_iff.mp h

/-- Whose stack a CPU is on. -/
theorem on_iff {p : Slot} : s.abs.On c p ↔ s.cur c = .proc p := by
  show (phase (s.cur c) (s.code (s.cur c)) = .on p ∨ phase (s.cur c) (s.code (s.cur c)) = .off p) ↔ _
  cases hc : s.cur c with
  | proc q =>
    rcases phase_proc (ι := ι) q (s.code (.proc q)) with h | h <;> rw [h] <;> simp
  | scheduler d =>
    have hnot : ∀ k, phase (.scheduler d : Thread ι) k ≠ .on p ∧
        phase (.scheduler d : Thread ι) k ≠ .off p := by
      intro k
      cases k with
      | nil => simp [phase]
      | cons x k => cases x <;> simp [phase]
    simp [(hnot _).1, (hnot _).2]

variable [DecidableEq ι]

theorem Good.front (hg : Good guard s) (hk : held guard (s.code (s.cur c)) = []) {a : List Stmt}
    (h : Front guard (s.cur c) a (s.code (s.cur c))) :
    Moves guard s (s.goto (s.cur c) (a ++ s.code (s.cur c))) := by
  have hself : (s.goto (s.cur c) (a ++ s.code (s.cur c))).code (s.cur c) =
      a ++ s.code (s.cur c) := Function.update_self ..
  have hothers : ∀ t, t ≠ s.cur c →
      (s.goto (s.cur c) (a ++ s.code (s.cur c))).code t = s.code t :=
    fun t ht => Function.update_of_ne ht ..
  have hold := (hg.locks.wf (s.cur c)).sound hk
  have hbuilt : built a = [] := List.eq_nil_iff_forall_not_mem.mpr fun np hnp => by
    have := built_subset hnp
    rw [h.making] at this
    cases this
  refine hg.next rfl rfl rfl rfl hself (fun t ht => Or.inl (hothers t ht))
    ⟨h.sound.wf, h.runs.append (hg.locks.runs _), h.held.trans hk.symm, ?_⟩ (Or.inl ⟨rfl, rfl⟩)
    (hg.makes.of hothers ?_ ?_ (fun _ h => h) fun _ _ h => h)
  · rw [phase_plain fun x hx => h.sound.noHead x (List.mem_of_mem_head? hx),
      phase_plain fun x hx => hold.noHead x (List.mem_of_mem_head? hx)]
  · rw [hself, making_append, h.making]
    exact fun _ h => h
  · rw [hself, built_append, hbuilt]
    exact fun _ h => h

/-- **Every step of the code is a move.** -/
theorem moves_step (hg : Good guard s) {a : Act ι} (h : step guard s a = some s') :
    Moves guard s s' := by
  cases a with
  | next c ok =>
    simp only [Sched.step] at h
    split at h
    · cases h
    · rename_i st k hcode
      exact moves_exec hg hcode h
  | call c x =>
    simp only [Sched.step] at h
    split at h
    · cases h
    · rename_i p hp
      simp only [Option.ite_none_right_eq_some, Option.some.injEq] at h
      obtain ⟨⟨hnil, -⟩, rfl⟩ := h
      have hnil' : s.code (s.cur c) = [] := by rw [hp, hnil]
      have hfront := hg.front (c := c) (a := x.code guard p) (by rw [hnil']; rfl)
        (by rw [hnil', hp]; exact front_call x p)
      rwa [hnil', hp, List.append_nil] at hfront
  | timer c =>
    simp only [Sched.step, Option.ite_none_right_eq_some, Option.some.injEq] at h
    obtain ⟨⟨hncli, hrun⟩, rfl⟩ := h
    have hk := hg.held_nil hncli
    refine hg.front hk ?_
    -- the scheduler's `proc` is 0 when the CPU can be interrupted there
    cases hc : s.cur c with
    | proc p =>
      rw [← hc]
      rw [show s.cur c = .proc p from hc]
      exact front_yield ((hg.locks.wf _).sound (hc ▸ hk)) (hc ▸ hk) p
    | scheduler d =>
      have hidle : s.abs.phase c = .idle := by
        show phase (s.cur c) (s.code (s.cur c)) = _
        rw [phase_plain fun x hx => ((hg.locks.wf _).sound hk).noHead x (List.mem_of_mem_head? hx), hc]
        rfl
      have hs := hg.cpus.stands c
      rw [hidle] at hs
      have hnone : s.proc c = none := hs
      rw [hnone] at hrun
      cases hrun
  | interrupt c x =>
    simp only [Sched.step, Option.ite_none_right_eq_some, Option.some.injEq] at h
    obtain ⟨hncli, rfl⟩ := h
    have hk := hg.held_nil hncli
    have hs := (hg.locks.wf (s.cur c)).sound hk
    refine hg.front hk ?_
    cases x with
    | wakeup ch => exact front_wakeup hs hk ch
    | waker n early => exact front_waker hs hk n early

/-- **Every step keeps the invariant.** -/
theorem Good.step (hg : Good guard s) {a : Act ι} (h : step guard s a = some s') :
    Good guard s' := by
  obtain ⟨hlocks, hmakes, hrefines⟩ := moves_step hg h
  refine ⟨hlocks, hmakes, ?_⟩
  rcases hrefines with habs | hstep
  · rw [habs]
    exact hg.cpus
  · exact hg.cpus.step hstep

theorem good_boot (guard : Nat → Lock) (ι : Type) [DecidableEq ι] : Good guard (boot ι) where
  locks :=
    { wf := fun t => by
        cases t with
        | proc p => exact ⟨List.not_mem_nil, by simp, trivial⟩
        | scheduler c => exact ⟨rfl, by simp, trivial⟩
      runs := fun t => by
        cases t <;> simp [boot, forkret, Thread.Runs, Thread.Admits, Stmt.scheduling]
      holder := fun c lk => by simp [boot, held, Stmt.before]
      ncli := fun c => rfl
      home := fun c c' h => by
        cases h
        rfl
      one := fun c c' p h => by cases h
      parked := fun c p h => by cases h
      away := fun p _ => ⟨rfl, by simp [boot, forkret, Stmt.headOnly]⟩ }
  makes :=
    { embryo := fun t np h => by cases t <;> cases h
      once := fun t t' np h => by cases t <;> cases h
      stack := fun t np h => by cases t <;> cases h }
  cpus :=
    { stands := fun c => rfl
      one := fun c c' p h => by cases h
      has := fun p h => by
        simp only [Machine.abs, boot] at h
        split at h <;> cases h
      stacked := fun p h => by
        simp only [Machine.abs, boot] at h ⊢
        split at h
        · simpa using ‹_›
        · simp at h }

/-- **In every run.** -/
theorem good_run (guard : Nat → Lock) {acts : List (Act ι)}
    (h : Runs.run (step guard) (boot ι) acts = some s) : Good guard s :=
  Runs.run_always (P := Good guard) (fun _ _ _ hg he => hg.step he) acts _ _ (good_boot guard ι) h

/-! ## 3. One CPU at a time -/

/-- **A process runs on one CPU.**  In every run of the kernel, on any number of CPUs: whenever
`ptable.lock` is free a process is RUNNING exactly when it is the `proc` of exactly one CPU, and a
RUNNABLE or SLEEPING process is no CPU's `proc`; no step takes a CPU to the stack of a zombie; and no
step frees a stack that a CPU is on. -/
theorem one_cpu_at_a_time (guard : Nat → Lock) (acts : List (Act ι))
    (h : Runs.run (step guard) (boot ι) acts = some s) :
    (s.holder .ptable = none → ∀ p,
      (s.state p = .running ↔ ∃! c, s.proc c = some p) ∧
      (s.state p = .runnable ∨ s.state p = .sleeping → ∀ c, s.proc c ≠ some p)) ∧
    ∀ a s', step guard s a = some s' → ∀ p,
      (s.state p = .zombie → ∀ c, s'.cur c = .proc p → s.cur c = .proc p) ∧
      (s.kstack p = true → s'.kstack p = false → ∀ c, s.cur c ≠ .proc p) := by
  have hg := good_run guard h
  refine ⟨fun hfree p => ?_, fun a s' ha p => ?_⟩
  · -- without the lock every `proc` is RUNNING
    have hrun : ∀ c, s.proc c = some p → s.state p = .running := by
      intro c hc
      rcases hg.cpus.proc_cases hc with hrun | ⟨hlock, -⟩
      · exact hrun
      · exact absurd (hlock.symm.trans hfree) (by simp)
    refine ⟨⟨fun hp => ?_, fun ⟨c, hc, _⟩ => hrun c hc⟩, fun hp c hc => ?_⟩
    · obtain ⟨c, hc⟩ := hg.cpus.has p hp
      exact ⟨c, hc, fun c' hc' => hg.cpus.one c' c p hc' hc⟩
    · rcases hp with hp | hp <;> cases hp.symm.trans (hrun c hc)
  · rcases (moves_step hg ha).refines with habs | hstep
    · refine ⟨fun _ c hc => ?_, fun hs hs' => ?_⟩
      · rw [← on_iff, ← habs, on_iff]
        exact hc
      · have hk : s'.kstack p = s.kstack p := congrArg (fun x => x.stack p) habs
        exact absurd (hs'.symm.trans (hk.trans hs)) (by simp)
    · refine ⟨fun hz c hc => ?_, fun hs hs' c hc => ?_⟩
      · exact on_iff.mp (hstep.no_zombie hg.cpus hz (on_iff.mpr hc))
      · exact hstep.freed hg.cpus hs hs' c (hg.proc_eq hc)

/-- `init` forks on one CPU; its child runs on the other, exits, and is waited for. -/
def forkExitWait : List (Act Bool) :=
  let go (c : Bool) (n : Nat) := List.replicate n (Act.next c true)
  go true 6 ++ [.call true .fork] ++ go true 7 ++ go false 7 ++
    [.call false .exit] ++ go false 199 ++ [.call true .wait] ++ go true 4

theorem one_cpu_in_forkExitWait : ∃ s, Runs.run (step .other) (boot Bool) forkExitWait = some s ∧
    s.kstack 1 = false ∧ ∃! c, s.proc c = some 0 := by
  have hrun : (Runs.run (step .other) (boot Bool) forkExitWait).any (fun s =>
      s.holder .ptable = none ∧ s.state 0 = .running ∧ s.kstack 1 = false) = true := by
    decide +kernel
  obtain ⟨s, hs, hfacts⟩ := (Option.any_eq_true _ _).mp hrun
  obtain ⟨hfree, hinit, hstack⟩ := of_decide_eq_true hfacts
  exact ⟨s, hs, hstack, ((one_cpu_at_a_time .other forkExitWait hs).1 hfree 0).1.mp hinit⟩

end Xv6.Sched
