/-
# The user-level counting semaphore

`semaphore.c` is a counting semaphore for the threads of one address space.  It takes no lock:
`sema_acquire` tests `count`, and either takes a permit on the spot or joins the queue and
spins until the test comes out differently; `sema_signal` increments `count`.

The model lets any number of threads run these two functions, one atomic step at a time: the
test (with the decrement, when it succeeds), each queue operation, each evaluation of the
spinning loop's condition and each increment.  `returned` and `signals` are history variables,
read by no step: the number of `sema_acquire` calls that have returned and of increments made.

**What goes wrong.**  The two ways out of `sema_acquire` do not account for the permit alike.
The fast path decrements `count`; the spinning path leaves the loop because `count` is no
longer `0` and returns WITHOUT decrementing it, so the permit it came for is still there for
the next caller (`blocked_acquire_takes_no_permit`).  As long as no spinning call leaves its
loop the books balance (`permits_conserved_unless_a_waiter_leaves`).
-/
import Xv6.Runs

namespace Xv6.User

open Xv6.Runs

/-! ## 1. `queue.c`, as the list of values from `head` -/

/-- `struct queue`, read as the values on the list from `head` to `tail`. -/
structure Queue where
  vals : List Int
  deriving DecidableEq, Repr

/-- `init_q` -/
def initQ : Queue := ⟨[]⟩

/-- `add_q`: append at `tail`. -/
def addQ (q : Queue) (v : Int) : Queue := ⟨q.vals ++ [v]⟩

/-- `empty_q` -/
def emptyQ (q : Queue) : Bool := q.vals.isEmpty

/-- `pop_q`: unlink the node at `head`; `-1` on an empty queue. -/
def popQ (q : Queue) : Int × Queue :=
  if emptyQ q then (-1, q) else (q.vals.headD (-1), ⟨q.vals.tail⟩)

/-! ## 2. `semaphore.c` -/

/-- `struct semaphore`; `count` is a C `int`. -/
structure Semaphore where
  count : BitVec 32
  q : Queue
  deriving DecidableEq, Repr

/-- `sema_init` -/
def semaInit : Semaphore := ⟨0, initQ⟩

/-- Where a thread stands in `sema_acquire`. -/
inductive Pc
  /-- not inside the semaphore's code -/
  | out
  /-- the test found `count <= 0`; `add_q` is next -/
  | enqueue
  /-- at the condition of `while(s->count == 0) wait();` -/
  | spin
  /-- the loop is over; `pop_q` is next, and then the return -/
  | dequeue
  deriving DecidableEq, Repr

/-- The semaphore and its threads, named by the pid that `getpid` returns. -/
structure Sys where
  sem : Semaphore
  pc : Nat → Pc
  /-- which threads have returned from an acquire that no signal of theirs has answered yet -/
  holds : Nat → Bool
  returned : Nat
  signals : Nat

/-- `sema_init(s); s->count = k;`, as in `tm.c`, before any thread has called. -/
def Sys.init (k : Nat) : Sys :=
  { sem := { semaInit with count := BitVec.ofNat 32 k }
    pc := fun _ => .out
    holds := fun _ => false
    returned := 0
    signals := 0 }

/-- One atomic step of thread `t`. -/
inductive Act
  /-- the test of `sema_acquire`, with `s->count--` when it succeeds -/
  | test (t : Nat)
  /-- `add_q(&(s->q), getpid())` -/
  | add (t : Nat)
  /-- one evaluation of `s->count == 0`; `wait()` when it holds -/
  | spin (t : Nat)
  /-- `pop_q(&(s->q))`, then return -/
  | pop (t : Nat)
  /-- `sema_signal`: `s->count++` -/
  | signal (t : Nat)
  deriving DecidableEq, Repr

/-- The thread `t` returns from `sema_acquire`. -/
def Sys.returns (s : Sys) (t : Nat) : Sys :=
  { s with
    pc := Function.update s.pc t .out
    holds := Function.update s.holds t true
    returned := s.returned + 1 }

/-- The step function of `sema_acquire` and `sema_signal`. -/
def semaStep (s : Sys) : Act → Option Sys
  | .test t =>
    if s.pc t = .out then
      if s.sem.count.toInt ≤ 0 then
        some { s with pc := Function.update s.pc t .enqueue }
      else
        some ({ s with sem := { s.sem with count := s.sem.count - 1 } }.returns t)
    else none
  | .add t =>
    if s.pc t = .enqueue then
      some { s with
        sem := { s.sem with q := addQ s.sem.q t }
        pc := Function.update s.pc t .spin }
    else none
  | .spin t =>
    if s.pc t = .spin then
      if s.sem.count = 0 then
        -- `wait()`: the threads have no children, so it returns at once and the loop goes on
        some s
      else
        some { s with pc := Function.update s.pc t .dequeue }
    else none
  | .pop t =>
    if s.pc t = .dequeue then
      -- the value popped is not looked at, and `count` is not decremented
      some ({ s with sem := { s.sem with q := (popQ s.sem.q).2 } }.returns t)
    else none
  | .signal t =>
    if s.pc t = .out then
      some { s with
        sem := { s.sem with count := s.sem.count + 1 }
        holds := Function.update s.holds t false
        signals := s.signals + 1 }
    else none

/-! ## 3. The books -/

/-- **The permits are accounted for**: what is left in `count` (modulo `2^32`) is the initial
permits and the increments, less the acquires that have returned. -/
def Balanced (k : Nat) (s : Sys) : Prop :=
  ∃ left : Nat, s.returned + left = k + s.signals ∧ s.sem.count = BitVec.ofNat 32 left

/-- No acquire is past its spinning loop. -/
def NoneLeft (s : Sys) : Prop := ∀ t, s.pc t ≠ .dequeue

/-- The side condition: a spinning acquire that evaluates its loop's condition finds
`count == 0`, so it does not leave the loop. -/
def StaysInLoop (s : Sys) : Act → Prop
  | .spin t => s.pc t = .spin → s.sem.count = 0
  | _ => True

instance (s : Sys) : (a : Act) → Decidable (StaysInLoop s a)
  | .spin _ => inferInstanceAs (Decidable (_ → _))
  | .test _ | .add _ | .pop _ | .signal _ => isTrue trivial

theorem balanced_init (k : Nat) : Balanced k (Sys.init k) := ⟨k, by simp [Sys.init]⟩

/-- A positive `int` is not the residue of `0`. -/
theorem ofNat_pos_of_toInt_pos {n : Nat} (h : ¬ (BitVec.ofNat 32 n).toInt ≤ 0) : n ≠ 0 := by
  rintro rfl
  exact h (by decide)

/-- The test takes a permit only where there is one. -/
theorem balanced_test {k : Nat} {s s' : Sys} {t : Nat} (h : Balanced k s)
    (hst : semaStep s (.test t) = some s') : Balanced k s' := by
  obtain ⟨left, hsum, hcount⟩ := h
  simp only [semaStep] at hst
  split at hst
  · split at hst
    · rw [Option.some.injEq] at hst
      subst hst
      exact ⟨left, hsum, hcount⟩
    · rename_i hpos
      rw [Option.some.injEq] at hst
      subst hst
      rw [hcount] at hpos
      obtain ⟨m, rfl⟩ := Nat.exists_eq_succ_of_ne_zero (ofNat_pos_of_toInt_pos hpos)
      refine ⟨m, ?_, ?_⟩
      · simp only [Sys.returns]
        omega
      · simp only [Sys.returns]
        rw [hcount, Nat.succ_eq_add_one, BitVec.ofNat_add]
        exact BitVec.add_sub_cancel _ _
  · exact absurd hst (by simp)

/-- An increment adds a permit to both sides of the books. -/
theorem balanced_signal {k : Nat} {s s' : Sys} {t : Nat} (h : Balanced k s)
    (hst : semaStep s (.signal t) = some s') : Balanced k s' := by
  obtain ⟨left, hsum, hcount⟩ := h
  simp only [semaStep] at hst
  split at hst
  · rw [Option.some.injEq] at hst
    subst hst
    refine ⟨left + 1, ?_, ?_⟩
    · simp only
      omega
    · simp only
      rw [hcount, BitVec.ofNat_add]
      rfl
  · exact absurd hst (by simp)

/-- **One step.**  While no acquire leaves its spinning loop, every step keeps the books. -/
theorem balanced_step {k : Nat} (s : Sys) (a : Act) (s' : Sys)
    (h : Balanced k s ∧ NoneLeft s) (hc : StaysInLoop s a) (hst : semaStep s a = some s') :
    Balanced k s' ∧ NoneLeft s' := by
  obtain ⟨hb, hn⟩ := h
  cases a with
  | test t =>
    refine ⟨balanced_test hb hst, ?_⟩
    intro u
    simp only [semaStep] at hst
    split at hst
    · split at hst
      · rw [Option.some.injEq] at hst
        subst hst
        by_cases hu : u = t
        · subst hu; simp
        · simpa [Function.update_of_ne hu] using hn u
      · rw [Option.some.injEq] at hst
        subst hst
        by_cases hu : u = t
        · subst hu; simp [Sys.returns]
        · simpa [Sys.returns, Function.update_of_ne hu] using hn u
    · exact absurd hst (by simp)
  | add t =>
    simp only [semaStep] at hst
    split at hst
    · rw [Option.some.injEq] at hst
      subst hst
      refine ⟨hb, fun u => ?_⟩
      by_cases hu : u = t
      · subst hu; simp
      · simpa [Function.update_of_ne hu] using hn u
    · exact absurd hst (by simp)
  | spin t =>
    simp only [semaStep] at hst
    split at hst
    · rename_i hpc
      rw [if_pos (hc hpc), Option.some.injEq] at hst
      exact hst ▸ ⟨hb, hn⟩
    · exact absurd hst (by simp)
  | pop t =>
    simp only [semaStep] at hst
    rw [if_neg (hn t)] at hst
    exact absurd hst (by simp)
  | signal t =>
    refine ⟨balanced_signal hb hst, ?_⟩
    simp only [semaStep] at hst
    split at hst
    · rw [Option.some.injEq] at hst
      subst hst
      exact hn
    · exact absurd hst (by simp)

/-! ## 4. Holders -/

/-- The discipline of `tm.c`'s monkeys: a thread that holds a permit does not acquire another,
and signals only while it holds one. -/
def OneSignalEach (s : Sys) : Act → Prop
  | .test t => s.holds t = false
  | .signal t => s.holds t = true
  | _ => True

instance (s : Sys) : (a : Act) → Decidable (OneSignalEach s a)
  | .test _ | .signal _ => inferInstanceAs (Decidable (_ = _))
  | .add _ | .spin _ | .pop _ => isTrue trivial

/-- The holders are the acquires that have returned, less the increments. -/
def Counted (s : Sys) : Prop :=
  (∀ t, s.pc t ≠ .out → s.holds t = false) ∧
    ∃ H : Finset Nat, (∀ t, t ∈ H ↔ s.holds t = true) ∧ H.card + s.signals = s.returned

theorem counted_init (k : Nat) : Counted (Sys.init k) :=
  ⟨fun t h => absurd rfl h, ∅, by simp [Sys.init], rfl⟩

/-- A return makes one more holder of a thread that was none. -/
theorem counted_returns {s : Sys} {t : Nat} (h : Counted s) (ht : s.holds t = false) :
    Counted (s.returns t) := by
  obtain ⟨hout, H, hH, hcard⟩ := h
  have htH : t ∉ H := fun hm => by rw [hH, ht] at hm; exact absurd hm (by simp)
  refine ⟨?_, insert t H, ?_, ?_⟩
  · intro u hu
    by_cases hut : u = t
    · subst hut; simp [Sys.returns] at hu
    · simp only [Sys.returns, Function.update_of_ne hut] at hu ⊢
      exact hout u hu
  · intro u
    by_cases hut : u = t
    · subst hut; simp [Sys.returns]
    · simp [Sys.returns, hut, hH]
  · rw [Finset.card_insert_of_notMem htH]
    simp only [Sys.returns]
    omega

theorem counted_step (s : Sys) (a : Act) (s' : Sys) (h : Counted s) (hc : OneSignalEach s a)
    (hst : semaStep s a = some s') : Counted s' := by
  -- a thread that stays inside the semaphore's code keeps holding nothing
  have hkeep : ∀ (t : Nat) (p : Pc), s.holds t = false →
      ∀ u, Function.update s.pc t p u ≠ .out → s.holds u = false := by
    intro t p ht u hu
    by_cases hut : u = t
    · rw [hut]; exact ht
    · rw [Function.update_of_ne hut] at hu; exact h.1 u hu
  cases a with
  | test t =>
    simp only [semaStep] at hst
    split at hst
    · split at hst
      · rw [Option.some.injEq] at hst
        subst hst
        exact ⟨hkeep t _ hc, h.2⟩
      · rw [Option.some.injEq] at hst
        subst hst
        exact counted_returns ⟨h.1, h.2⟩ hc
    · exact absurd hst (by simp)
  | add t =>
    simp only [semaStep] at hst
    split at hst
    · rename_i hpc
      rw [Option.some.injEq] at hst
      subst hst
      exact ⟨hkeep t _ (h.1 t (by simp [hpc])), h.2⟩
    · exact absurd hst (by simp)
  | spin t =>
    simp only [semaStep] at hst
    split at hst
    · rename_i hpc
      split at hst
      · rw [Option.some.injEq] at hst
        exact hst ▸ h
      · rw [Option.some.injEq] at hst
        subst hst
        exact ⟨hkeep t _ (h.1 t (by simp [hpc])), h.2⟩
    · exact absurd hst (by simp)
  | pop t =>
    simp only [semaStep] at hst
    split at hst
    · rename_i hpc
      rw [Option.some.injEq] at hst
      subst hst
      exact counted_returns ⟨h.1, h.2⟩ (h.1 t (by simp [hpc]))
    · exact absurd hst (by simp)
  | signal t =>
    obtain ⟨hout, H, hH, hcard⟩ := h
    simp only [semaStep] at hst
    split at hst
    · rw [Option.some.injEq] at hst
      subst hst
      have htH : t ∈ H := (hH t).mpr hc
      refine ⟨?_, H.erase t, ?_, ?_⟩
      · intro u hu
        by_cases hut : u = t
        · subst hut; simp
        · simp only [Function.update_of_ne hut]
          exact hout u hu
      · intro u
        by_cases hut : u = t
        · subst hut; simp
        · simp [hut, hH]
      · have := Finset.card_erase_add_one htH
        simp only
        omega
    · exact absurd hst (by simp)

/-! ## 5. Conservation -/

/-- The claim about one run: no more acquires have returned than there were permits, and with
one signal for each acquire there are never more than `k` holders at once. -/
def PermitsConserved (k : Nat) (as : List Act) (s : Sys) : Prop :=
  s.returned ≤ k + s.signals ∧
    (Along OneSignalEach semaStep (Sys.init k) as →
      ∀ T : Finset Nat, (∀ t ∈ T, s.holds t = true) → T.card ≤ k)

/-- **Permits are conserved as long as no waiter gets through.**  For every initial count, any
threads and any interleaving: if no `sema_acquire` that found `count <= 0` leaves its spinning
loop, the acquires that have returned never exceed the permits handed out. -/
theorem permits_conserved_unless_a_waiter_leaves (k : Nat) (as : List Act) (s : Sys)
    (hc : Along StaysInLoop semaStep (Sys.init k) as)
    (hr : run semaStep (Sys.init k) as = some s) : PermitsConserved k as s := by
  have hbal : Balanced k s ∧ NoneLeft s :=
    run_invariant balanced_step as _ s ⟨balanced_init k, fun t => by simp [Sys.init]⟩ hc hr
  obtain ⟨⟨left, hsum, -⟩, -⟩ := hbal
  refine ⟨by omega, fun hd T hT => ?_⟩
  have hcnt : Counted s := run_invariant counted_step as _ s (counted_init k) hd hr
  obtain ⟨-, H, hH, hcard⟩ := hcnt
  have hsub : T ⊆ H := fun t ht => (hH t).mpr (hT t ht)
  have := Finset.card_le_card hsub
  omega

/-- Two threads take and give back the single permit in turn. -/
def turns : List Act := [.test 4, .signal 4, .test 5, .signal 5]

theorem permits_conserved_in_turns :
    ∃ s, run semaStep (Sys.init 1) turns = some s ∧ PermitsConserved 1 turns s :=
  ⟨_, rfl, permits_conserved_unless_a_waiter_leaves 1 turns _ (by decide) rfl⟩

/-- Thread 4 takes the only permit; thread 5 finds none and spins; 4 signals; 5 leaves the
loop and returns, with `count` still `1`; thread 6 takes that permit. -/
def threeMonkeys : List Act :=
  [.test 4, .test 5, .add 5, .spin 5, .signal 4, .spin 5, .pop 5, .test 6]

/-- **A blocked acquire takes no permit.**  With one permit and one signal for each acquire,
threads 5 and 6 hold it at once, and three acquires have returned on two permits. -/
theorem blocked_acquire_takes_no_permit :
    ∃ s, run semaStep (Sys.init 1) threeMonkeys = some s ∧ ¬ PermitsConserved 1 threeMonkeys s ∧
      Along OneSignalEach semaStep (Sys.init 1) threeMonkeys ∧
      s.holds 5 = true ∧ s.holds 6 = true := by
  refine ⟨_, rfl, ?_, by decide, rfl, rfl⟩
  rintro ⟨h, -⟩
  exact absurd h (by decide)

end Xv6.User
