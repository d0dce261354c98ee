/-
# The code does what the abstract machine does

Each statement of `Xv6.Sched.Machine` is a move of `Xv6.Cpus`, or changes nothing there.  What has to
be known of the code for that is `Locks`, and `Making`: a process in the making is the business of
one thread only, until it is RUNNABLE.

`Good` is the invariant, `Moves` what one step does; the lemmas `Good.quiet`, `Good.drop`,
`Good.replace` and `Good.locking` cover the statements that do not touch the state of a process.
-/
import Xv6.Sched.Locks

namespace Xv6.Sched

open Xv6.Ptable (Slot ProcState)
open Xv6.Cpus (Away Phase)

/-! ## 1. The abstraction -/

/-- Where a CPU stands that is on thread `t`, which has `k` left to do. -/
def phase {ι : Type} (t : Thread ι) (k : List Stmt) : Phase Slot :=
  match t, k with
  | .proc p, .sched :: _ => .off p
  | .proc p, _ => .on p
  | .scheduler _, .mark p :: _ => .picked p
  | .scheduler _, .swtch p :: _ => .going p
  | .scheduler _, .back :: _ => .back
  | .scheduler _, _ => .idle

/-- The abstract state of a machine. -/
def Machine.abs {ι : Type} (s : Machine ι) : Cpus.System ι Slot where
  state := s.state
  stack := s.kstack
  proc := s.proc
  phase c := phase (s.cur c) (s.code (s.cur c))
  holder := s.holder .ptable

/-- **A process in the making is one thread's business.** -/
structure Making {ι : Type} (s : Machine ι) : Prop where
  embryo : ∀ t, ∀ np ∈ making (s.code t), s.state np = .embryo
  once : ∀ t t', ∀ np ∈ making (s.code t), np ∈ making (s.code t') → t = t'
  stack : ∀ t, ∀ np ∈ built (s.code t), s.kstack np = true

/-- **The invariant.** -/
structure Good {ι : Type} (guard : Nat → Lock) (s : Machine ι) : Prop where
  locks : Locks guard s
  makes : Making s
  cpus : Cpus.Inv s.abs

variable {ι : Type} {guard : Nat → Lock} {s s' : Machine ι} {c : ι} {t : Thread ι} {st : Stmt}
  {k k' : List Stmt}

/-- A thread that is not in the middle of a switch. -/
theorem phase_plain (h : ∀ x ∈ k.head?, x.headOnly = false) : phase t k = phase t [] := by
  cases k with
  | nil => rfl
  | cons x k =>
    have hx : x.headOnly = false := h x rfl
    cases t <;> cases x <;> first | rfl | cases hx

theorem plain_of_phase (h : ∀ x ∈ (s.code (s.cur c)).head?, x.headOnly = false) : s.abs.Plain c := by
  have hph : s.abs.phase c = phase (s.cur c) [] := phase_plain h
  cases hc : s.cur c with
  | proc p => exact Or.inr ⟨p, by rw [hph, hc]; rfl⟩
  | scheduler d => exact Or.inl (by rw [hph, hc]; rfl)

theorem phase_proc (p : Slot) (k : List Stmt) :
    phase (.proc p : Thread ι) k = .on p ∨ phase (.proc p : Thread ι) k = .off p := by
  cases k with
  | nil => exact Or.inl rfl
  | cons x k => cases x <;> first | exact Or.inl rfl | exact Or.inr rfl

/-- The process a CPU is on is its `proc`. -/
theorem Good.proc_eq (hg : Good guard s) {p : Slot} (hc : s.cur c = .proc p) :
    s.proc c = some p := by
  have hs := hg.cpus.stands c
  have hph : s.abs.phase c = phase (.proc p : Thread ι) (s.code (.proc p)) := by
    show phase (s.cur c) (s.code (s.cur c)) = _
    rw [hc]
  rw [hph] at hs
  rcases phase_proc (ι := ι) p (s.code (.proc p)) with h | h <;> rw [h] at hs <;> exact hs.1

/-- The CPU that executes a statement which needs `ptable.lock` has it. -/
theorem Good.has_lock (hg : Good guard s) (hcode : s.code (s.cur c) = st :: k)
    (h : Lock.ptable ∈ held guard (st :: k)) : s.holder .ptable = some c := by
  rw [hg.locks.holder, hcode]
  exact h

theorem plain_of_code (hcode : s.code (s.cur c) = st :: k)
    (hst : st.headOnly = false) : s.abs.Plain c := by
  refine plain_of_phase fun x hx => ?_
  rw [hcode] at hx
  cases hx
  exact hst

/-- A statement that only a process executes. -/
theorem Good.is_proc (hg : Good guard s) (hcode : s.code (s.cur c) = st :: k)
    (h₁ : st.scheduling = false) (h₂ : st.common = false) : ∃ p, s.cur c = .proc p := by
  have hadm := (hcode ▸ hg.locks.runs (s.cur c)).head
  cases hc : s.cur c with
  | proc p => exact ⟨p, rfl⟩
  | scheduler d =>
    rw [hc] at hadm
    rcases hadm with h | h
    · rw [h₁] at h
      cases h
    · rw [h₂] at h
      cases h

/-- A statement that only a scheduler executes. -/
theorem Good.is_scheduler (hg : Good guard s) (hcode : s.code (s.cur c) = st :: k)
    (h : st.scheduling = true) : s.cur c = .scheduler c := by
  have hadm := (hcode ▸ hg.locks.runs (s.cur c)).head
  cases hc : s.cur c with
  | proc p =>
    rw [hc] at hadm
    have hadm' : st.scheduling = false := hadm
    rw [h] at hadm'
    cases hadm'
  | scheduler d => rw [hg.locks.home c d hc]

/-- What a thread has left to do after a statement that neither takes nor gives back a lock and does
not switch. -/
structure Next (guard : Nat → Lock) (t : Thread ι) (old new : List Stmt) : Prop where
  wf : Wf guard new
  runs : t.Runs new
  held : held guard new = held guard old
  phase : phase t new = phase t old

/-- Code that is not in the middle of a switch, before and after. -/
theorem next_of (hst : st.headOnly = false) (hk : Sound guard k') (hruns : t.Runs k')
    (hheld : held guard k' = held guard (st :: k)) : Next guard t (st :: k) k' := by
  refine ⟨hk.wf, hruns, hheld, ?_⟩
  rw [phase_plain (k := st :: k) fun x hx => by cases hx; exact hst, phase_plain fun x hx => ?_]
  exact hk.noHead x (List.mem_of_mem_head? hx)

/-- **One move of the machine**: it keeps the locks and the processes in the making in order, and is a
move of the abstract machine, or none. -/
structure Moves {ι : Type} [DecidableEq ι] (guard : Nat → Lock) (s s' : Machine ι) : Prop where
  locks : Locks guard s'
  makes : Making s'
  refines : s'.abs = s.abs ∨ Cpus.Step s.abs s'.abs

section Next

variable [DecidableEq ι]

/-- The abstract state after a statement that stays on its stack. -/
theorem abs_goto (hcur : s'.cur = s.cur) (hself : s'.code (s.cur c) = k')
    (hothers : ∀ c', c' ≠ c → s'.code (s.cur c') = s.code (s.cur c')) :
    s'.abs = ⟨s'.state, s'.kstack, s'.proc, Function.update s.abs.phase c (phase (s.cur c) k'),
      s'.holder .ptable⟩ := by
  unfold Machine.abs
  congr 1
  funext c'
  rw [hcur]
  rcases eq_or_ne c' c with rfl | hne
  · rw [Function.update_self, hself]
  · rw [Function.update_of_ne hne, hothers c' hne]

/-- **A statement under which the CPU stays where it stands.**  The code of a process that is on no
CPU may become `forkret`. -/
theorem Good.next (hg : Good guard s) (hcur : s'.cur = s.cur) (hholder : s'.holder = s.holder)
    (hncli : s'.ncli = s.ncli) (hproc : s'.proc = s.proc) (hself : s'.code (s.cur c) = k')
    (hothers : ∀ t, t ≠ s.cur c → s'.code t = s.code t ∨
      (s'.code t = forkret ∧ (∃ p, t = .proc p) ∧ ∀ c', s.cur c' ≠ t))
    (hn : Next guard (s.cur c) (s.code (s.cur c)) k')
    (hstep : (s'.state = s.state ∧ s'.kstack = s.kstack) ∨
      Cpus.Step s.abs { s.abs with state := s'.state, stack := s'.kstack })
    (hm : Making s') : Moves guard s s' := by
  have habs : s'.abs = { s.abs with state := s'.state, stack := s'.kstack } := by
    rw [abs_goto hcur hself fun c' hne => ?_, hn.phase]
    · show (⟨_, _, s'.proc, Function.update s.abs.phase c (s.abs.phase c), _⟩ : Cpus.System ι Slot) = _
      rw [Function.update_eq_self, hproc, hholder]
      rfl
    · rcases hothers _ (hg.locks.cur_ne hne) with h | ⟨-, -, h⟩
      · exact h
      · exact absurd rfl (h c')
  refine ⟨hg.locks.goto hcur hholder hncli hself hothers hn.wf hn.runs hn.held, hm, ?_⟩
  rw [habs]
  rcases hstep with ⟨h₁, h₂⟩ | hstep
  · left
    rw [h₁, h₂]
    rfl
  · exact Or.inr hstep

theorem built_subset {np : Slot} (h : np ∈ built k) : np ∈ making k := by
  obtain ⟨x, hx, hnp⟩ := List.mem_filterMap.mp h
  refine List.mem_filterMap.mpr ⟨x, hx, ?_⟩
  cases x <;> first | exact hnp | cases hnp

/-- The processes in the making stay so. -/
theorem Making.of (hm : Making s) {t : Thread ι} (hothers : ∀ t', t' ≠ t → s'.code t' = s.code t')
    (hself : ∀ np ∈ making (s'.code t), np ∈ making (s.code t))
    (hbuilt : ∀ np ∈ built (s'.code t), np ∈ built (s.code t))
    (hstate : ∀ np, s.state np = .embryo → s'.state np = .embryo)
    (hstack : ∀ np, s.state np = .embryo → s.kstack np = true → s'.kstack np = true) :
    Making s' := by
  have hin : ∀ t', ∀ np ∈ making (s'.code t'), np ∈ making (s.code t') := by
    intro t' np hnp
    by_cases ht : t' = t
    · exact ht ▸ hself np (ht ▸ hnp)
    · exact hothers t' ht ▸ hnp
  refine ⟨fun t' np hnp => hstate np (hm.embryo t' np (hin t' np hnp)),
    fun t₁ t₂ np h₁ h₂ => hm.once t₁ t₂ np (hin t₁ np h₁) (hin t₂ np h₂), fun t' np hnp => ?_⟩
  have hold : np ∈ built (s.code t') := by
    by_cases ht : t' = t
    · exact ht ▸ hbuilt np (ht ▸ hnp)
    · exact hothers t' ht ▸ hnp
  exact hstack np (hm.embryo t' np (built_subset hold)) (hm.stack t' np hold)

/-- A process is let go: it can run, or is given up. -/
theorem Making.letGo (hm : Making s) {t : Thread ι} {np : Slot} (hnp : np ∈ making (s.code t))
    (hothers : ∀ t', t' ≠ t → s'.code t' = s.code t') (hself : making (s'.code t) = [])
    (hstate : ∀ q, q ≠ np → s'.state q = s.state q)
    (hstack : ∀ q, q ≠ np → s'.kstack q = s.kstack q) : Making s' := by
  have hin : ∀ t', ∀ q ∈ making (s'.code t'), q ∈ making (s.code t') ∧ t' ≠ t ∧ q ≠ np := by
    intro t' q hq
    by_cases ht : t' = t
    · rw [ht, hself] at hq
      cases hq
    · rw [hothers t' ht] at hq
      refine ⟨hq, ht, ?_⟩
      rintro rfl
      exact ht (hm.once t' t q hq hnp)
  refine ⟨fun t' q hq => ?_, fun t₁ t₂ q h₁ h₂ => ?_, fun t' q hq => ?_⟩
  · obtain ⟨hq', -, hne⟩ := hin t' q hq
    exact (hstate q hne).trans (hm.embryo t' q hq')
  · exact hm.once t₁ t₂ q (hin t₁ q h₁).1 (hin t₂ q h₂).1
  · obtain ⟨-, ht, hne⟩ := hin t' q (built_subset hq)
    rw [hothers t' ht] at hq
    exact (hstack q hne).trans (hm.stack t' q hq)

/-- A slot is taken. -/
theorem Making.take (hm : Making s) {t : Thread ι} {np : Slot} (hfree : s.state np ≠ .embryo)
    (hothers : ∀ t', t' ≠ t → s'.code t' = s.code t') (hself : making (s'.code t) = [np])
    (hbuilt : built (s'.code t) = []) (hnew : s'.state np = .embryo)
    (hstate : ∀ q, q ≠ np → s'.state q = s.state q) (hstack : s'.kstack = s.kstack) :
    Making s' := by
  have hin : ∀ t', t' ≠ t → ∀ q ∈ making (s'.code t'), q ∈ making (s.code t') ∧ q ≠ np := by
    intro t' ht q hq
    rw [hothers t' ht] at hq
    refine ⟨hq, ?_⟩
    rintro rfl
    exact hfree (hm.embryo t' q hq)
  refine ⟨fun t' q hq => ?_, fun t₁ t₂ q h₁ h₂ => ?_, fun t' q hq => ?_⟩
  · by_cases ht : t' = t
    · rw [ht, hself, List.mem_singleton] at hq
      rw [hq, hnew]
    · obtain ⟨hq', hne⟩ := hin t' ht q hq
      exact (hstate q hne).trans (hm.embryo t' q hq')
  · by_cases e₁ : t₁ = t <;> by_cases e₂ : t₂ = t
    · rw [e₁, e₂]
    · rw [e₁, hself, List.mem_singleton] at h₁
      exact absurd h₁ (hin t₂ e₂ q h₂).2
    · rw [e₂, hself, List.mem_singleton] at h₂
      exact absurd h₂ (hin t₁ e₁ q h₁).2
    · exact hm.once t₁ t₂ q (hin t₁ e₁ q h₁).1 (hin t₂ e₂ q h₂).1
  · by_cases ht : t' = t
    · rw [ht, hbuilt] at hq
      cases hq
    · rw [hothers t' ht] at hq
      rw [hstack]
      exact hm.stack t' q hq

/-- The process in the making gets its stack. -/
theorem Making.build (hm : Making s) {t : Thread ι} {np : Slot} (hnp : np ∈ making (s.code t))
    (hothers : ∀ t', t' ≠ t → s'.code t' = s.code t' ∨ s'.code t' = forkret)
    (hself : making (s'.code t) = [np]) (hstate : s'.state = s.state)
    (hnew : s'.kstack np = true) (hstack : ∀ q, q ≠ np → s'.kstack q = s.kstack q) :
    Making s' := by
  have hin : ∀ t', ∀ q ∈ making (s'.code t'), q ∈ making (s.code t') := by
    intro t' q hq
    by_cases ht : t' = t
    · rw [ht, hself, List.mem_singleton] at hq
      rw [ht, hq]
      exact hnp
    · rcases hothers t' ht with h | h <;> rw [h] at hq
      · exact hq
      · cases hq
  refine ⟨fun t' q hq => ?_, fun t₁ t₂ q h₁ h₂ => hm.once t₁ t₂ q (hin t₁ q h₁) (hin t₂ q h₂),
    fun t' q hq => ?_⟩
  · rw [hstate]
    exact hm.embryo t' q (hin t' q hq)
  · rcases eq_or_ne q np with rfl | hne
    · exact hnew
    · have ht : t' ≠ t := by
        rintro rfl
        have := built_subset hq
        rw [hself, List.mem_singleton] at this
        exact hne this
      rcases hothers t' ht with h | h <;> rw [h] at hq
      · exact (hstack q hne).trans (hm.stack t' q hq)
      · cases hq

/-! ## 2. The statements -/

/-- Of what the abstract machine and the locks depend on nothing changes, or, under the lock, a
sleeping process becomes RUNNABLE. -/
structure Mild (c : ι) (s s' : Machine ι) : Prop where
  cur : s'.cur = s.cur
  holder : s'.holder = s.holder
  ncli : s'.ncli = s.ncli
  proc : s'.proc = s.proc
  kstack : s'.kstack = s.kstack
  state : s'.state = s.state ∨ (s.holder .ptable = some c ∧ ∃ q, s.state q = .sleeping ∧
    s'.state = Function.update s.state q .runnable)

/-- A statement that only goes on to `k'`. -/
theorem Good.quiet (hg : Good guard s) (hcode : s.code (s.cur c) = st :: k)
    (hst : st.headOnly = false) (hs : Mild c s s')
    (hcode' : s'.code = Function.update s.code (s.cur c) k') (hk : Sound guard k')
    (hruns : (s.cur c).Runs k') (hheld : held guard k' = held guard (st :: k))
    (hmaking : ∀ np ∈ making k', np ∈ making (st :: k))
    (hbuilt : ∀ np ∈ built k', np ∈ built (st :: k)) : Moves guard s s' := by
  have hself : s'.code (s.cur c) = k' := by rw [hcode', Function.update_self]
  have hothers : ∀ t, t ≠ s.cur c → s'.code t = s.code t := fun t ht => by
    rw [hcode', Function.update_of_ne ht]
  refine hg.next hs.cur hs.holder hs.ncli hs.proc hself (fun t ht => Or.inl (hothers t ht))
    (by rw [hcode]; exact next_of hst hk hruns hheld) ?_ (hg.makes.of hothers ?_ ?_ ?_ ?_)
  · rcases hs.state with h | ⟨hlock, q, hq, h⟩
    · exact Or.inl ⟨h, hs.kstack⟩
    · right
      rw [h, hs.kstack]
      exact .wake c q (plain_of_code hcode hst) hlock hq
  · rw [hself, hcode]
    exact hmaking
  · rw [hself, hcode]
    exact hbuilt
  · intro np hnp
    rcases hs.state with h | ⟨-, q, hq, h⟩
    · rw [h]
      exact hnp
    · have hne : np ≠ q := by
        rintro rfl
        cases hq.symm.trans hnp
      rw [h, Function.update_of_ne hne]
      exact hnp
  · rw [hs.kstack]
    exact fun _ _ h => h

/-- A statement that only goes on to what is left. -/
theorem Good.drop (hg : Good guard s) (hcode : s.code (s.cur c) = st :: k)
    (hst : st.headOnly = false) (hs : Mild c s s')
    (hcode' : s'.code = Function.update s.code (s.cur c) k)
    (hheld : held guard k = held guard (st :: k)) : Moves guard s s' := by
  have hwf := hg.locks.wf (s.cur c)
  have hruns := hg.locks.runs (s.cur c)
  rw [hcode] at hwf hruns
  refine hg.quiet hcode hst hs hcode' hwf.sound_tail hruns.tail hheld (fun np hnp => ?_)
    fun np hnp => ?_
  · obtain ⟨x, hx, h⟩ := List.mem_filterMap.mp hnp
    exact List.mem_filterMap.mpr ⟨x, List.mem_cons_of_mem _ hx, h⟩
  · obtain ⟨x, hx, h⟩ := List.mem_filterMap.mp hnp
    exact List.mem_filterMap.mpr ⟨x, List.mem_cons_of_mem _ hx, h⟩

/-- A statement that goes on to another one of its kind. -/
theorem Good.replace (hg : Good guard s) (hcode : s.code (s.cur c) = st :: k)
    (hst : st.headOnly = false) {st' : Stmt} (hst' : st'.headOnly = false) (hs : Mild c s s')
    (hcode' : s'.code = Function.update s.code (s.cur c) (st' :: k))
    (hok : st'.Ok guard k) (hadm : (s.cur c).Admits st')
    (hbefore : st'.before guard = st.before guard) (hchild : st'.child = st.child)
    (hbuilt : st'.built = st.built) : Moves guard s s' := by
  have hwf := hg.locks.wf (s.cur c)
  have hruns := hg.locks.runs (s.cur c)
  rw [hcode] at hwf hruns
  refine hg.quiet hcode hst hs hcode' (hwf.sound_tail.cons st' hst' hok) (hruns.tail.cons hadm)
    (congrFun hbefore _) (fun np hnp => ?_) fun np hnp => ?_
  · obtain ⟨x, hx, h⟩ := List.mem_filterMap.mp hnp
    rcases List.mem_cons.mp hx with rfl | hx
    · exact List.mem_filterMap.mpr ⟨st, List.mem_cons_self, hchild ▸ h⟩
    · exact List.mem_filterMap.mpr ⟨x, List.mem_cons_of_mem _ hx, h⟩
  · obtain ⟨x, hx, h⟩ := List.mem_filterMap.mp hnp
    rcases List.mem_cons.mp hx with rfl | hx
    · exact List.mem_filterMap.mpr ⟨st, List.mem_cons_self, hbuilt ▸ h⟩
    · exact List.mem_filterMap.mpr ⟨x, List.mem_cons_of_mem _ hx, h⟩

/-- A lock changes hands. -/
theorem Good.locking (hg : Good guard s) (hcode : s.code (s.cur c) = st :: k)
    (hst : st.headOnly = false) (hchild : st.child = none) {lk : Lock} {o : Option ι} {n : Nat}
    (hl : Locks guard (s.locking c k lk o n))
    (hstep : lk = .ptable → Cpus.Step s.abs { s.abs with holder := o }) :
    Moves guard s (s.locking c k lk o n) := by
  have hwf := hg.locks.wf (s.cur c)
  rw [hcode] at hwf
  have hothers : ∀ t, t ≠ s.cur c → (s.locking c k lk o n).code t = s.code t :=
    fun t ht => Function.update_of_ne ht ..
  have hself : (s.locking c k lk o n).code (s.cur c) = k := Function.update_self ..
  have hphase : phase (s.cur c) k = s.abs.phase c := by
    show _ = phase (s.cur c) (s.code (s.cur c))
    rw [hcode, phase_plain (k := st :: k) fun x hx => by cases hx; exact hst]
    exact phase_plain fun x hx => hwf.noHead x (List.mem_of_mem_head? hx)
  have hin : ∀ f : Stmt → Option Slot, f st = none →
      k.filterMap f = (s.code (s.cur c)).filterMap f := by
    intro f hf
    rw [hcode, List.filterMap_cons_none hf]
  refine ⟨hl, hg.makes.of hothers ?_ ?_ (fun _ h => h) (fun _ _ h => h), ?_⟩
  · rw [hself, making, hin _ hchild]
    exact fun _ h => h
  · rw [hself, built, hin _ (by cases st <;> first | rfl | cases hchild)]
    exact fun _ h => h
  · have hcur : (s.locking c k lk o n).cur = s.cur := rfl
    rw [abs_goto hcur hself fun c' hne => hothers _ (hg.locks.cur_ne hne), hphase,
      Function.update_eq_self]
    show { s.abs with holder := Function.update s.holder lk o .ptable } = s.abs ∨
      Cpus.Step s.abs { s.abs with holder := Function.update s.holder lk o .ptable }
    by_cases hlk : lk = .ptable
    · rw [hlk, Function.update_self]
      exact Or.inr (hstep hlk)
    · rw [Function.update_of_ne (Ne.symm hlk)]
      exact Or.inl rfl

/-- The body of the loop of `wakeup1`. -/
theorem mild_wakeIf (hlock : s.holder .ptable = some c) (ch : Option Chan) (q : Slot) :
    Mild c s (Machine.goto t k (s.wakeIf ch q)) := by
  unfold Machine.wakeIf
  split
  · rename_i h
    exact ⟨rfl, rfl, rfl, rfl, rfl, Or.inr ⟨hlock, q, h.1, rfl⟩⟩
  · exact ⟨rfl, rfl, rfl, rfl, rfl, Or.inl rfl⟩

theorem code_wakeIf (ch : Option Chan) (q : Slot) :
    (Machine.goto t k (s.wakeIf ch q)).code = Function.update s.code t k := by
  unfold Machine.wakeIf
  split <;> rfl

theorem mild_goto : Mild c s (s.goto t k) := ⟨rfl, rfl, rfl, rfl, rfl, Or.inl rfl⟩

end Next

end Xv6.Sched
