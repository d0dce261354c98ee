/-
# Which locks a thread holds

What a thread has left to do says which locks it holds: those that it will release before it acquires
them (`held`).  `Wf` says of a piece of code that every statement finds the locks it needs, and that
a thread which gives up its CPU holds `ptable.lock` and nothing else.  The invariant `Locks` says that
the machine's locks are held as the code says.  It survives the context switch because both sides of
`swtch`, the thread that leaves and the thread that is resumed, have `ptable.lock` to release.
-/
import Xv6.Sched.Cpus
import Xv6.Sched.Machine

namespace Xv6.Sched

open Xv6.Ptable (Slot ProcState)
open Xv6.Cpus (Away Phase)

/-! ## 1. Held locks and well-formed code -/

/-- Statements that only a scheduler executes. -/
def Stmt.scheduling : Stmt → Bool
  | .loop | .pick _ | .mark _ | .swtch _ | .back => true
  | _ => false

/-- Statements that any thread executes, in interrupt handlers. -/
def Stmt.common : Stmt → Bool
  | .acquire _ | .release _ | .wakeup1 _ _ | .setCond _ _ | .waking _ _ => true
  | _ => false

/-- Statements that appear only when the one before them has been executed. -/
def Stmt.headOnly : Stmt → Bool
  | .sched | .mark _ | .swtch _ | .back => true
  | _ => false

/-- The process a statement works on before it can run. -/
def Stmt.child : Stmt → Option Slot
  | .kalloc _ np | .copyuvm np | .ready np | .checkArgs np | .climb np _ | .copyout np => some np
  | _ => none

/-- The loop of a `wakeup1` that is owed. -/
def Stmt.isWaking : Stmt → Bool
  | .waking _ _ => true
  | _ => false

/-- The same, if the process has a stack already. -/
def Stmt.built : Stmt → Option Slot
  | .copyuvm np | .ready np | .checkArgs np | .climb np _ | .copyout np => some np
  | _ => none

/-- The processes in the making. -/
def making (k : List Stmt) : List Slot := k.filterMap Stmt.child

/-- Those of them that have a stack. -/
def built (k : List Stmt) : List Slot := k.filterMap Stmt.built

/-- No wakeup is owed. -/
def Calm (k : List Stmt) : Prop := ∀ st ∈ k, st.isWaking = false

section Guard

variable (guard : Nat → Lock)

/-- The locks held before a statement, from those held after it. -/
def Stmt.before : Stmt → List Lock → List Lock
  | .acquire lk, ls => ls.filter (· ≠ lk)
  | .release lk, ls => lk :: ls.filter (· ≠ lk)
  | .test n _, ls => guard n :: ls.filter (· ≠ guard n)
  | .setCond n _, ls => guard n :: ls.filter (· ≠ guard n)
  | .zombieExit, _ => [.ptable]
  | _, ls => ls

/-- The locks that are released before they are acquired. -/
def held : List Stmt → List Lock
  | [] => []
  | st :: k => st.before guard (held k)

/-- What a statement needs of the code after it. -/
def Stmt.Ok (st : Stmt) (k : List Stmt) : Prop :=
  match st with
  | .acquire lk => lk ∈ held guard k
  | .release lk => lk ∉ held guard k
  | .leave x => Away x ∧ held guard k = [.ptable] ∧ (x = .runnable ∨ Calm k)
  | .test _ _ => held guard k = [] ∧ Calm k
  | .scan _ _ => held guard k = [.ptable] ∧ Calm k
  | .setCond _ _ | .loop => held guard k = []
  | .sched | .pick _ | .mark _ | .swtch _ | .back => held guard k = [.ptable]
  | .setChan _ | .wakeup1 _ _ | .waking _ _ | .wakeParent | .reparent _ | .kill _ _ =>
    .ptable ∈ held guard k
  | .alloc _ _ => k = [.release .ptable]
  | .ready _ => making k = []
  | .kalloc _ _ | .copyuvm _ | .checkArgs _ | .climb _ _ | .copyout _ =>
    held guard k = [] ∧ making k = []
  | .zombieExit => True

/-- Well-formed code. -/
def Wf : List Stmt → Prop
  | [] => True
  | st :: k => st.Ok guard k ∧ (∀ x ∈ k, x.headOnly = false) ∧ Wf k

variable {guard : Nat → Lock} {k : List Stmt} {st : Stmt}

theorem Wf.ok (h : Wf guard (st :: k)) : st.Ok guard k := h.1

theorem Wf.noHead (h : Wf guard (st :: k)) : ∀ x ∈ k, x.headOnly = false := h.2.1

theorem Wf.tail (h : Wf guard (st :: k)) : Wf guard k := h.2.2

/-- Well-formed code that other code can be put in front of. -/
structure Sound (guard : Nat → Lock) (k : List Stmt) : Prop where
  wf : Wf guard k
  noHead : ∀ x ∈ k, x.headOnly = false

theorem Wf.sound_tail (h : Wf guard (st :: k)) : Sound guard k := ⟨h.tail, h.noHead⟩

/-- Code that holds no lock is in the middle of nothing. -/
theorem Wf.sound (h : Wf guard k) (hk : held guard k = []) : Sound guard k := by
  refine ⟨h, ?_⟩
  cases k with
  | nil => exact fun x hx => (by cases hx)
  | cons st k =>
    intro x hx
    rcases List.mem_cons.mp hx with rfl | hx
    · cases x with
      | sched | mark _ | swtch _ | back =>
        have hok : held guard k = [.ptable] := h.ok
        cases hok.symm.trans hk
      | _ => rfl
    · exact h.noHead x hx

/-- One statement more. -/
theorem Sound.cons (h : Sound guard k) (st : Stmt) (hst : st.headOnly = false)
    (hok : st.Ok guard k) : Sound guard (st :: k) := by
  refine ⟨⟨hok, h.noHead, h.wf⟩, fun x hx => ?_⟩
  rcases List.mem_cons.mp hx with rfl | hx
  · exact hst
  · exact h.noHead x hx

theorem Calm.cons (h : Calm k) (st : Stmt) (hst : st.isWaking = false) : Calm (st :: k) := by
  intro x hx
  rcases List.mem_cons.mp hx with rfl | hx
  · exact hst
  · exact h x hx

/-- The part of `sleep` under `ptable.lock`. -/
theorem Sound.leave (h : Sound guard k) (hk : held guard k = [.ptable]) (hcalm : Calm k) (c : Chan) :
    Sound guard (.setChan (some c) :: .leave .sleeping :: .setChan none :: k) := by
  have hmem : Lock.ptable ∈ held guard k := by
    rw [hk]
    exact List.mem_singleton_self _
  have hleave : (Stmt.leave .sleeping).Ok guard (.setChan none :: k) :=
    ⟨Or.inr (Or.inl rfl), hk, Or.inr (hcalm.cons _ rfl)⟩
  exact ((h.cons (.setChan none) rfl hmem).cons _ rfl hleave).cons (.setChan (some c)) rfl hmem

/-- `sleep` in front of code that holds the lock it is called with. -/
theorem Sound.sleep (h : Sound guard k) {lk : Lock} (hk : held guard k = [lk]) (hcalm : Calm k)
    (c : Chan) : Sound guard (sleep c lk ++ k) := by
  unfold Sched.sleep
  split
  · rename_i hlk
    exact h.leave (hlk ▸ hk) hcalm c
  · rename_i hlk
    have hne : Lock.ptable ≠ lk := Ne.symm hlk
    have hacq : (Stmt.acquire lk).Ok guard k := by
      rw [Stmt.Ok, hk]
      exact List.mem_singleton_self _
    have hacq0 : held guard (.acquire lk :: k) = [] := by simp [held, Stmt.before, hk]
    have hrel : (Stmt.release .ptable).Ok guard (.acquire lk :: k) := by
      rw [Stmt.Ok, hacq0]
      exact List.not_mem_nil
    have hrel0 : held guard (.release .ptable :: .acquire lk :: k) = [.ptable] := by
      simp [held, Stmt.before, hk]
    have hin := ((h.cons _ rfl hacq).cons _ rfl hrel).leave hrel0
      ((hcalm.cons _ rfl).cons _ rfl) c
    have hin0 : held guard (.setChan (some c) :: .leave .sleeping :: .setChan none ::
        .release .ptable :: .acquire lk :: k) = [.ptable] := hrel0
    have hrel' : (Stmt.release lk).Ok guard (.setChan (some c) :: .leave .sleeping ::
        .setChan none :: .release .ptable :: .acquire lk :: k) := by
      rw [Stmt.Ok, hin0]
      simpa using hlk
    refine (hin.cons _ rfl hrel').cons (.acquire .ptable) rfl ?_
    show Lock.ptable ∈ lk :: (held guard _).filter (· ≠ lk)
    rw [hin0]
    simp [hne]

theorem held_sleep (c : Chan) {lk : Lock} (hk : held guard k = [lk]) :
    held guard (sleep c lk ++ k) = [lk] := by
  unfold sleep
  split
  · exact hk
  · rename_i hlk
    have : Lock.ptable ≠ lk := Ne.symm hlk
    simp [held, Stmt.before, hk, this, hlk]

end Guard

/-! ## 2. The invariant -/

/-- The statement is of the kind that the thread executes. -/
def Thread.Admits {ι : Type} (t : Thread ι) (st : Stmt) : Prop :=
  match t with
  | .proc _ => st.scheduling = false
  | .scheduler _ => st.scheduling = true ∨ st.common = true

/-- So is the code. -/
def Thread.Runs {ι : Type} (t : Thread ι) (k : List Stmt) : Prop := ∀ st ∈ k, t.Admits st

section Runs

variable {ι : Type} {t : Thread ι} {st : Stmt} {k k' : List Stmt} {guard : Nat → Lock}

theorem Thread.Runs.head (h : t.Runs (st :: k)) : t.Admits st := h st List.mem_cons_self

theorem Thread.Runs.tail (h : t.Runs (st :: k)) : t.Runs k :=
  fun x hx => h x (List.mem_cons_of_mem _ hx)

theorem Thread.Runs.cons (h : t.Runs k) (hst : t.Admits st) : t.Runs (st :: k) := by
  intro x hx
  rcases List.mem_cons.mp hx with rfl | hx
  · exact hst
  · exact h x hx

theorem Thread.Runs.append (h : t.Runs k) (h' : t.Runs k') : t.Runs (k ++ k') := by
  intro x hx
  rcases List.mem_append.mp hx with hx | hx
  · exact h x hx
  · exact h' x hx

/-- A thread that executes `x` executes `y`. -/
theorem Thread.Admits.of {x y : Stmt} (h : t.Admits x) (hx : x.scheduling = false)
    (hy : y.scheduling = false) (hc : y.common = true ∨ x.common = false) : t.Admits y := by
  cases t with
  | proc p => exact hy
  | scheduler d =>
    rcases hc with hc | hc
    · exact Or.inr hc
    · rcases h with h | h
      · rw [hx] at h
        cases h
      · rw [hc] at h
        cases h

theorem runs_sleep (p : Slot) (ch : Chan) (lk : Lock) :
    (Thread.proc p : Thread ι).Runs (sleep ch lk) := by
  unfold sleep
  split <;> simp [Thread.Runs, Thread.Admits, Stmt.scheduling]

theorem runs_afterSet (n : Nat) (early : Bool) : t.Runs (afterSet guard n early) := by
  have hcommon : ∀ x ∈ afterSet guard n early, x.common = true := by
    unfold afterSet
    split
    · split <;> simp [Stmt.common]
    · simp [Stmt.common]
  intro x hx
  cases t with
  | proc p =>
    have := hcommon x hx
    cases x <;> first | rfl | cases this
  | scheduler d => exact Or.inr (hcommon x hx)

end Runs

/-- **The locks are held as the code says.** -/
structure Locks {ι : Type} (guard : Nat → Lock) (s : Machine ι) : Prop where
  wf : ∀ t, Wf guard (s.code t)
  runs : ∀ t : Thread ι, t.Runs (s.code t)
  holder : ∀ c lk, s.holder lk = some c ↔ lk ∈ held guard (s.code (s.cur c))
  ncli : ∀ c, s.ncli c = (held guard (s.code (s.cur c))).length
  home : ∀ c c', s.cur c = .scheduler c' → c' = c
  one : ∀ c c' p, s.cur c = .proc p → s.cur c' = .proc p → c = c'
  parked : ∀ c p, s.cur c = .proc p → ∃ k, s.code (.scheduler c) = .back :: k
  away : ∀ p, (∀ c, s.cur c ≠ .proc p) →
    held guard (s.code (.proc p)) = [.ptable] ∧ ∀ x ∈ s.code (.proc p), x.headOnly = false

variable {ι : Type} {guard : Nat → Lock} {s s' : Machine ι} {c : ι} {k k' : List Stmt}

/-- A CPU is on a thread that no other is on. -/
theorem Locks.cur_ne (h : Locks guard s) {c c' : ι} (hne : c' ≠ c) : s.cur c' ≠ s.cur c := by
  intro heq
  cases hc : s.cur c with
  | proc p => exact hne (h.one c' c p (heq.trans hc) hc)
  | scheduler d =>
    have h1 := h.home c d hc
    have h2 := h.home c' d (heq.trans hc)
    exact hne (h2.symm.trans h1)

/-- **A statement that neither takes nor gives back a lock, and stays on its stack.**  The code of a
process that is not on any CPU may become `forkret`. -/
theorem Locks.goto (h : Locks guard s) (hcur : s'.cur = s.cur) (hholder : s'.holder = s.holder) (hncli : s'.ncli = s.ncli)
    (hself : s'.code (s.cur c) = k')
    (hothers : ∀ t, t ≠ s.cur c → s'.code t = s.code t ∨
      (s'.code t = forkret ∧ (∃ p, t = .proc p) ∧ ∀ c', s.cur c' ≠ t))
    (hwf : Wf guard k') (hruns : (s.cur c).Runs k')
    (hheld : held guard k' = held guard (s.code (s.cur c))) : Locks guard s' := by
  have hforkret : Wf guard forkret := ⟨by simp [Stmt.Ok, held], by simp, trivial⟩
  have hcases : ∀ t, (t = s.cur c ∧ s'.code t = k') ∨ s'.code t = s.code t ∨
      (s'.code t = forkret ∧ (∃ p, t = .proc p) ∧ ∀ c', s.cur c' ≠ t) := by
    intro t
    by_cases ht : t = s.cur c
    · exact Or.inl ⟨ht, ht ▸ hself⟩
    · exact Or.inr (hothers t ht)
  -- on every CPU the locks held are the same
  have hsame : ∀ c', held guard (s'.code (s'.cur c')) =
      held guard (s.code (s.cur c')) := by
    intro c'
    rw [hcur]
    rcases hcases (s.cur c') with ⟨ht, hk⟩ | hk | ⟨-, -, hnot⟩
    · rw [hk, ht, hheld]
    · rw [hk]
    · exact absurd rfl (hnot c')
  refine ⟨fun t => ?_, fun t => ?_, fun c' lk => ?_, fun c' => ?_, ?_, ?_, fun c' p hp => ?_,
    fun p hp => ?_⟩
  · rcases hcases t with ⟨-, hk⟩ | hk | ⟨hk, -⟩
    · rw [hk]
      exact hwf
    · rw [hk]
      exact h.wf t
    · rw [hk]
      exact hforkret
  · rcases hcases t with ⟨ht, hk⟩ | hk | ⟨hk, ⟨p, rfl⟩, -⟩
    · rw [hk, ht]
      exact hruns
    · rw [hk]
      exact h.runs t
    · rw [hk]
      exact fun x hx => (by cases List.mem_singleton.mp hx; rfl)
  · rw [hholder, hsame]
    exact h.holder c' lk
  · rw [hncli, hsame]
    exact h.ncli c'
  · rw [hcur]
    exact h.home
  · rw [hcur]
    exact h.one
  · rw [hcur] at hp
    obtain ⟨k₀, hk₀⟩ := h.parked c' p hp
    refine ⟨k₀, ?_⟩
    rcases hcases (.scheduler c') with ⟨ht, -⟩ | hk | ⟨-, ⟨q, hq⟩, -⟩
    · -- the scheduler of `c'` is on no CPU
      have hc := h.home c c' ht.symm
      rw [← hc, hp] at ht
      cases ht
    · rw [hk, hk₀]
    · cases hq
  · rw [hcur] at hp
    rcases hcases (.proc p) with ⟨ht, -⟩ | hk | ⟨hk, -⟩
    · exact absurd ht.symm (hp c)
    · rw [hk]
      exact h.away p hp
    · rw [hk]
      exact ⟨rfl, fun x hx => (by cases List.mem_singleton.mp hx; rfl)⟩

theorem held_nodup (guard : Nat → Lock) (k : List Stmt) : (held guard k).Nodup := by
  induction k with
  | nil => exact List.nodup_nil
  | cons st k ih =>
    have hcons : ∀ lk, (lk :: (held guard k).filter (· ≠ lk)).Nodup := fun lk =>
      List.nodup_cons.mpr ⟨by simp, ih.filter _⟩
    cases st with
    | acquire lk => exact ih.filter _
    | release lk => exact hcons lk
    | test n _ => exact hcons (guard n)
    | setCond n _ => exact hcons (guard n)
    | zombieExit => exact List.nodup_singleton _
    | _ => exact ih

section Moves

variable [DecidableEq ι] {lk : Lock}

/-- The CPU goes on with `k`, on the same stack. -/
def Machine.locking (s : Machine ι) (c : ι) (k : List Stmt) (lk : Lock) (o : Option ι) (n : Nat) :
    Machine ι :=
  { s with
    holder := Function.update s.holder lk o
    ncli := Function.update s.ncli c n
    code := Function.update s.code (s.cur c) k }

/-- A lock changes hands. -/
theorem Locks.locking (h : Locks guard s) {o : Option ι} (hwf : Wf guard k)
    (hruns : (s.cur c).Runs k)
    (hself : ∀ lk', (Function.update s.holder lk o lk' = some c) ↔ lk' ∈ held guard k)
    (hothers : ∀ c', c' ≠ c → (o = some c' ↔ s.holder lk = some c')) :
    Locks guard (s.locking c k lk o (held guard k).length) := by
  have hcode : ∀ t, t ≠ s.cur c → (s.locking c k lk o (held guard k).length).code t = s.code t :=
    fun t ht => Function.update_of_ne ht ..
  have hcur : (s.locking c k lk o (held guard k).length).code (s.cur c) = k :=
    Function.update_self ..
  refine ⟨fun t => ?_, fun t => ?_, fun c' lk' => ?_, fun c' => ?_, h.home, h.one, fun c' p hp => ?_,
    fun p hp => ?_⟩
  · by_cases ht : t = s.cur c
    · rw [ht, hcur]
      exact hwf
    · rw [hcode t ht]
      exact h.wf t
  · by_cases ht : t = s.cur c
    · rw [ht, hcur]
      exact hruns
    · rw [hcode t ht]
      exact h.runs t
  · show Function.update s.holder lk o lk' = some c' ↔ lk' ∈ held guard (Machine.code _ (s.cur c'))
    rcases eq_or_ne c' c with rfl | hne
    · rw [hcur]
      exact hself lk'
    · rw [hcode _ (h.cur_ne hne), ← h.holder]
      rcases eq_or_ne lk' lk with rfl | hlk
      · rw [Function.update_self]
        exact hothers c' hne
      · rw [Function.update_of_ne hlk]
  · show Function.update s.ncli c _ c' = (held guard (Machine.code _ (s.cur c'))).length
    rcases eq_or_ne c' c with rfl | hne
    · rw [hcur, Function.update_self]
    · rw [hcode _ (h.cur_ne hne), Function.update_of_ne hne]
      exact h.ncli c'
  · obtain ⟨k₀, hk₀⟩ := h.parked c' p hp
    have hne : Thread.scheduler c' ≠ s.cur c := fun hc => by
      have hcc := h.home c c' hc.symm
      rw [← hcc] at hc
      cases hc.trans hp
    exact ⟨k₀, (hcode _ hne).trans hk₀⟩
  · have hne : Thread.proc p ≠ s.cur c := fun hc => hp c hc.symm
    rw [hcode _ hne]
    exact h.away p hp

theorem Locks.acquire (h : Locks guard s) (hcode : s.code (s.cur c) = .acquire lk :: k)
    (hfree : s.holder lk = none) (hruns : (s.cur c).Runs k) :
    Locks guard (s.locking c k lk (some c) (s.ncli c + 1)) := by
  have hwf := h.wf (s.cur c)
  rw [hcode] at hwf
  have hmem : lk ∈ held guard k := hwf.ok
  have hbefore : held guard (s.code (s.cur c)) = (held guard k).filter (· ≠ lk) := by
    rw [hcode]
    rfl
  have hlen : s.ncli c + 1 = (held guard k).length := by
    have herase : (held guard k).filter (· ≠ lk) = (held guard k).erase lk := by
      rw [(held_nodup guard k).erase_eq_filter]
      exact List.filter_congr fun x _ => (by simp [bne, beq_eq_decide])
    rw [h.ncli c, hbefore, herase, List.length_erase_of_mem hmem]
    have := List.length_pos_of_mem hmem
    omega
  rw [hlen]
  refine h.locking hwf.tail hruns (fun lk' => ?_) fun c' hne => ?_
  · rcases eq_or_ne lk' lk with rfl | hlk
    · rw [Function.update_self]
      exact iff_of_true rfl hmem
    · rw [Function.update_of_ne hlk, h.holder, hbefore, List.mem_filter]
      simp [hlk]
  · rw [hfree]
    exact iff_of_false (fun he => hne (Option.some.inj he).symm) (by simp)

theorem Locks.release (h : Locks guard s) (hcode : s.code (s.cur c) = .release lk :: k)
    (hruns : (s.cur c).Runs k) : Locks guard (s.locking c k lk none (s.ncli c - 1)) := by
  have hwf := h.wf (s.cur c)
  rw [hcode] at hwf
  have hnot : lk ∉ held guard k := hwf.ok
  have hbefore : held guard (s.code (s.cur c)) = lk :: held guard k := by
    rw [hcode]
    show lk :: (held guard k).filter (· ≠ lk) = _
    rw [List.filter_eq_self.mpr fun x hx => ?_]
    have : x ≠ lk := fun he => hnot (he ▸ hx)
    simpa using this
  have hlen : s.ncli c - 1 = (held guard k).length := by
    rw [h.ncli c, hbefore]
    rfl
  have hheld : s.holder lk = some c := by
    rw [h.holder, hbefore]
    exact List.mem_cons_self
  rw [hlen]
  refine h.locking hwf.tail hruns (fun lk' => ?_) fun c' hne => ?_
  · rcases eq_or_ne lk' lk with rfl | hlk
    · rw [Function.update_self]
      exact iff_of_false (by simp) hnot
    · rw [Function.update_of_ne hlk, h.holder, hbefore]
      simp [hlk]
  · rw [hheld]
    exact iff_of_false (by simp) fun he => hne (Option.some.inj he).symm

/-- **The context switch.**  CPU `c` leaves its thread, which has `k` left to do, for the thread
`t`; both have `ptable.lock` to release. -/
def Machine.switch (s : Machine ι) (c : ι) (t : Thread ι) (k : List Stmt) : Machine ι :=
  { s with
    cur := Function.update s.cur c t
    code := Function.update s.code (s.cur c) k }

/-- From the scheduler to a process that is on no CPU. -/
theorem Locks.enter (h : Locks guard s) {p : Slot} (hcur : s.cur c = .scheduler c)
    (hcode : s.code (.scheduler c) = .swtch p :: k) (hp : ∀ c', s.cur c' ≠ .proc p) :
    Locks guard (s.switch c (.proc p) (.back :: k)) := by
  have hwf := h.wf (.scheduler c)
  rw [hcode] at hwf
  have hk : held guard k = [.ptable] := hwf.ok
  have hbefore : held guard (s.code (s.cur c)) = [.ptable] := by
    rw [hcur, hcode]
    exact hk
  obtain ⟨haway, hno⟩ := h.away p hp
  have hself : (s.switch c (.proc p) (.back :: k)).code (.scheduler c) = .back :: k := by
    show Function.update s.code (s.cur c) (.back :: k) (.scheduler c) = _
    rw [hcur, Function.update_self]
  have hothers : ∀ t, t ≠ .scheduler c → (s.switch c (.proc p) (.back :: k)).code t = s.code t := by
    intro t ht
    show Function.update s.code (s.cur c) (.back :: k) t = _
    rw [hcur, Function.update_of_ne ht]
  have hcurc : (s.switch c (.proc p) (.back :: k)).cur c = .proc p := Function.update_self ..
  have hcurne : ∀ c', c' ≠ c → (s.switch c (.proc p) (.back :: k)).cur c' = s.cur c' :=
    fun c' hne => Function.update_of_ne hne ..
  -- on every CPU the locks held are the same
  have hsame : ∀ c', held guard ((s.switch c (.proc p) (.back :: k)).code
      ((s.switch c (.proc p) (.back :: k)).cur c')) = held guard (s.code (s.cur c')) := by
    intro c'
    rcases eq_or_ne c' c with rfl | hne
    · rw [hcurc, hothers _ (by simp), haway, hbefore]
    · rw [hcurne c' hne, hothers _ fun hc => h.cur_ne hne (hc.trans hcur.symm)]
  refine ⟨fun t => ?_, fun t => ?_, fun c' lk' => ?_, fun c' => ?_, fun c' d hd => ?_,
    fun c₁ c₂ q h₁ h₂ => ?_, fun c' q hq => ?_, fun q hq => ?_⟩
  · by_cases ht : t = .scheduler c
    · rw [ht, hself]
      exact ⟨hk, hwf.noHead, hwf.tail⟩
    · rw [hothers t ht]
      exact h.wf t
  · by_cases ht : t = .scheduler c
    · rw [ht, hself]
      have hruns := h.runs (.scheduler c)
      rw [hcode] at hruns
      intro x hx
      rcases List.mem_cons.mp hx with rfl | hx
      · exact Or.inl rfl
      · exact hruns x (List.mem_cons_of_mem _ hx)
    · rw [hothers t ht]
      exact h.runs t
  · rw [hsame]
    exact h.holder c' lk'
  · rw [hsame]
    exact h.ncli c'
  · rcases eq_or_ne c' c with rfl | hne
    · rw [hcurc] at hd
      cases hd
    · rw [hcurne c' hne] at hd
      exact h.home c' d hd
  · have hwho : ∀ c' q, (s.switch c (.proc p) (.back :: k)).cur c' = .proc q →
        (c' = c ∧ q = p) ∨ s.cur c' = .proc q := by
      intro c' q hc'
      rcases eq_or_ne c' c with rfl | hne
      · cases hcurc.symm.trans hc'
        exact Or.inl ⟨rfl, rfl⟩
      · exact Or.inr ((hcurne c' hne).symm.trans hc')
    rcases hwho c₁ q h₁ with ⟨e₁, hq₁⟩ | h₁ <;> rcases hwho c₂ q h₂ with ⟨e₂, hq₂⟩ | h₂
    · exact e₁.trans e₂.symm
    · exact absurd (hq₁ ▸ h₂) (hp c₂)
    · exact absurd (hq₂ ▸ h₁) (hp c₁)
    · exact h.one c₁ c₂ q h₁ h₂
  · rcases eq_or_ne c' c with rfl | hne
    · exact ⟨k, hself⟩
    · rw [hcurne c' hne] at hq
      obtain ⟨k₀, hk₀⟩ := h.parked c' q hq
      exact ⟨k₀, (hothers _ (by simpa using hne)).trans hk₀⟩
  · have hnot : ∀ c', s.cur c' ≠ .proc q := by
      intro c' hc'
      rcases eq_or_ne c' c with rfl | hne
      · cases hcur.symm.trans hc'
      · exact hq c' ((hcurne c' hne).trans hc')
    rw [hothers _ (by simp)]
    exact h.away q hnot

/-- From a process back to the scheduler. -/
theorem Locks.exit (h : Locks guard s) {p : Slot} (hcur : s.cur c = .proc p)
    (hcode : s.code (.proc p) = .sched :: k) :
    Locks guard (s.switch c (.scheduler c) k) := by
  have hwf := h.wf (.proc p)
  rw [hcode] at hwf
  have hk : held guard k = [.ptable] := hwf.ok
  have hbefore : held guard (s.code (s.cur c)) = [.ptable] := by
    rw [hcur, hcode]
    exact hk
  obtain ⟨k₀, hk₀⟩ := h.parked c p hcur
  have hback : held guard (s.code (.scheduler c)) = [.ptable] := by
    have hwf₀ := h.wf (.scheduler c)
    rw [hk₀] at hwf₀ ⊢
    exact hwf₀.ok
  have hself : (s.switch c (.scheduler c) k).code (.proc p) = k := by
    show Function.update s.code (s.cur c) k (.proc p) = _
    rw [hcur, Function.update_self]
  have hothers : ∀ t, t ≠ .proc p → (s.switch c (.scheduler c) k).code t = s.code t := by
    intro t ht
    show Function.update s.code (s.cur c) k t = _
    rw [hcur, Function.update_of_ne ht]
  have hcurc : (s.switch c (.scheduler c) k).cur c = .scheduler c := Function.update_self ..
  have hcurne : ∀ c', c' ≠ c → (s.switch c (.scheduler c) k).cur c' = s.cur c' :=
    fun c' hne => Function.update_of_ne hne ..
  have hsame : ∀ c', held guard ((s.switch c (.scheduler c) k).code
      ((s.switch c (.scheduler c) k).cur c')) = held guard (s.code (s.cur c')) := by
    intro c'
    rcases eq_or_ne c' c with rfl | hne
    · rw [hcurc, hothers _ (by simp), hback, hbefore]
    · rw [hcurne c' hne, hothers _ fun hc => h.cur_ne hne (hc.trans hcur.symm)]
  refine ⟨fun t => ?_, fun t => ?_, fun c' lk' => ?_, fun c' => ?_, fun c' d hd => ?_,
    fun c₁ c₂ q h₁ h₂ => ?_, fun c' q hq => ?_, fun q hq => ?_⟩
  · by_cases ht : t = .proc p
    · rw [ht, hself]
      exact hwf.tail
    · rw [hothers t ht]
      exact h.wf t
  · by_cases ht : t = .proc p
    · rw [ht, hself]
      have hruns := h.runs (.proc p)
      rw [hcode] at hruns
      exact fun x hx => hruns x (List.mem_cons_of_mem _ hx)
    · rw [hothers t ht]
      exact h.runs t
  · rw [hsame]
    exact h.holder c' lk'
  · rw [hsame]
    exact h.ncli c'
  · rcases eq_or_ne c' c with rfl | hne
    · rw [hcurc] at hd
      cases hd
      rfl
    · rw [hcurne c' hne] at hd
      exact h.home c' d hd
  · have hne : ∀ c' q, (s.switch c (.scheduler c) k).cur c' = .proc q → s.cur c' = .proc q := by
      intro c' q hc'
      rcases eq_or_ne c' c with rfl | hne
      · rw [hcurc] at hc'
        cases hc'
      · rwa [hcurne c' hne] at hc'
    exact h.one c₁ c₂ q (hne c₁ q h₁) (hne c₂ q h₂)
  · rcases eq_or_ne c' c with rfl | hne
    · rw [hcurc] at hq
      cases hq
    · rw [hcurne c' hne] at hq
      obtain ⟨k₁, hk₁⟩ := h.parked c' q hq
      exact ⟨k₁, (hothers _ (by simp)).trans hk₁⟩
  · rcases eq_or_ne q p with rfl | hne
    · rw [hself]
      exact ⟨hk, hwf.noHead⟩
    · rw [hothers _ (by simpa using hne)]
      refine h.away q fun c' hc' => ?_
      rcases eq_or_ne c' c with rfl | hcc
      · cases hcur.symm.trans hc'
        exact hne rfl
      · exact hq c' ((hcurne c' hcc).trans hc')

end Moves

end Xv6.Sched
