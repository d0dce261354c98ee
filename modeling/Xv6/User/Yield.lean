/-
# User-level yielding: `thread_yield2` over `tsleep` and `twakeup`

`thread.c` lets the threads of a program take turns.  A thread that yields puts its own tid at the
end of the queue `thQ2`, takes one off the front, wakes that thread with `twakeup` and goes to sleep
in `tsleep`, until somebody takes ITS tid off the queue.

The model lets any number of threads do this, one `add_q`, `pop_q`, `twakeup` or `tsleep` at a time;
the tests of `popp` and of the `while` go with the `pop_q` before them.  `thread_create` is two
steps, since the new thread can run before its creator has put its tid into the queue;
`thread_yield_last`, which the main program calls between its two `wait`s, is two steps as well.

**What goes wrong.**  The scheme lives on every thread that sleeps having its tid in the queue, and
the code loses tids in two ways.  Ids are THROWN AWAY: the first call ever made pops twice, and a
caller that gets its own tid pops on.  If `pong` runs first in `ty.c`, that empties the queue, and
both threads sleep with nobody to wake them (`everyone_asleep`).  And a `twakeup` of a thread that is
not asleep YET is not remembered.  Where no step loses the last trace of a tid, and none takes away
the last thread that is neither asleep nor about to be, the scheme works
(`someone_awake_if_no_tid_is_lost`).
-/
import Xv6.User.Semaphore

namespace Xv6.User.Yield

open Xv6.Runs

/-! ## 1. `thread.c` -/

/-- Where a thread is. -/
inductive Pc where
  /-- there is no such thread yet -/
  | absent
  /-- running, outside of `thread_yield2` -/
  | user
  /-- at the first `pop_q` of `thread_yield2` -/
  | pop
  /-- at the `pop_q` under `if (popp == 0)` -/
  | popSecond
  /-- at the `pop_q` in the body of the `while` -/
  | popAgain
  /-- at `twakeup(tidNext)` -/
  | twakeup (tidNext : Int)
  /-- at `tsleep()` -/
  | tsleep
  /-- `SLEEPING`, with itself for a channel -/
  | asleep
  /-- past `texit` -/
  | done
  deriving DecidableEq, Repr

/-- The statics of `thread.c`, the threads by tid, the `thread_create`s between `clone` and `add_q`,
and the tid that `thread_yield_last` has popped and is about to wake. -/
structure Sys where
  thQ2 : Queue
  popp : Nat
  threads : List Nat
  pc : Nat → Pc
  creating : List Nat
  last : Option Int

/-- `init_q(thQ2)`, in the first `thread_create`. -/
def Sys.init : Sys := ⟨initQ, 0, [], fun _ => .absent, [], none⟩

/-- One atomic step. -/
inductive Act where
  /-- `clone` returns `t` to a `thread_create` -/
  | clone (t : Nat)
  /-- `add_q(thQ2, tid)` in that `thread_create` -/
  | enroll (t : Nat)
  /-- `t` calls `thread_yield2`: `add_q(thQ2, tid2)` -/
  | add (t : Nat)
  /-- the `pop_q` that `t` is at -/
  | pop (t : Nat)
  | twakeup (t : Nat)
  | tsleep (t : Nat)
  | texit (t : Nat)
  /-- the `pop_q` of `thread_yield_last` -/
  | popLast
  /-- its `twakeup` -/
  | twakeupLast
  deriving DecidableEq, Repr

/-- The test of the `while`: a thread does not wake itself, nor `0`. -/
def afterPop (t : Nat) (tidNext : Int) : Pc :=
  if (t : Int) = tidNext ∨ tidNext = 0 then .popAgain else .twakeup tidNext

/-- `twakeup(tid)`: nothing happens unless the thread is asleep. -/
def wake (pc : Nat → Pc) (tid : Int) : Nat → Pc := fun u =>
  if pc u = .asleep ∧ (u : Int) = tid then .user else pc u

namespace Sys

/-- The thread goes on somewhere else. -/
def goto (s : Sys) (t : Nat) (pc : Pc) : Sys := { s with pc := Function.update s.pc t pc }

/-- What `pop_q` leaves. -/
def popped (s : Sys) : Sys := { s with thQ2 := (popQ s.thQ2).2 }

/-- What `pop_q` returns. -/
def front (s : Sys) : Int := (popQ s.thQ2).1

/-- The `pop_q` that `t` is at, with what follows it. -/
def popStep (s : Sys) (t : Nat) : Option Sys :=
  match s.pc t with
  | .pop =>
    if s.popp = 0 then some (s.popped.goto t .popSecond)
    else some (s.popped.goto t (afterPop t s.front))
  | .popSecond => some ({ s.popped with popp := s.popp + 1 }.goto t (afterPop t s.front))
  | .popAgain => some (s.popped.goto t (afterPop t s.front))
  | _ => none

/-- The `twakeup` that `t` is at. -/
def twakeupStep (s : Sys) (t : Nat) : Option Sys :=
  match s.pc t with
  | .twakeup n => some ({ s with pc := wake s.pc n }.goto t .tsleep)
  | _ => none

/-- `thread_yield_last`, from its `twakeup` on. -/
def twakeupLast (s : Sys) : Option Sys :=
  match s.last with
  | some n => some { s with pc := wake s.pc n, last := none }
  | none => none

/-- The step function. -/
def step (s : Sys) : Act → Option Sys
  | .clone t =>
    if s.pc t = .absent ∧ 0 < t then
      some { s.goto t .user with threads := t :: s.threads, creating := t :: s.creating }
    else none
  | .enroll t =>
    if t ∈ s.creating then some { s with thQ2 := addQ s.thQ2 t, creating := s.creating.erase t }
    else none
  | .add t =>
    if s.pc t = .user then some ({ s with thQ2 := addQ s.thQ2 t }.goto t .pop) else none
  | .pop t => s.popStep t
  | .twakeup t => s.twakeupStep t
  | .tsleep t => if s.pc t = .tsleep then some (s.goto t .asleep) else none
  | .texit t => if s.pc t = .user then some (s.goto t .done) else none
  | .popLast => if s.last = none then some { s.popped with last := some s.front } else none
  | .twakeupLast => s.twakeupLast

end Sys

/-! ## 2. What is claimed, and the tids that are lost -/

/-- The thread has been created and has not finished. -/
def Unfinished (s : Sys) (t : Nat) : Prop := t ∈ s.threads ∧ s.pc t ≠ .done

/-- The thread is inside `thread_yield2` and has put its tid into the queue. -/
def Pc.waits : Pc → Bool
  | .pop | .popSecond | .popAgain | .twakeup _ | .tsleep | .asleep => true
  | .absent | .user | .done => false

/-- The thread is neither asleep nor about to be: it may still wake another. -/
def Pc.active : Pc → Bool
  | .user | .pop | .popSecond | .popAgain | .twakeup _ => true
  | .absent | .tsleep | .asleep | .done => false

/-- Somebody is about to wake the thread. -/
def AboutToWake (s : Sys) (t : Nat) : Prop := (∃ u, s.pc u = .twakeup t) ∨ s.last = some (t : Int)

/-- There is a trace of the thread's tid: in the queue, or in the hands of somebody about to wake
it. -/
def Traced (s : Sys) (t : Nat) : Prop := (t : Int) ∈ s.thQ2.vals ∨ AboutToWake s t

/-- What `pop_q` is about to return is thrown away: the first call ever made pops once more, and so
does one that got its own tid. -/
def ThrowsAway (s : Sys) (t : Nat) : Prop :=
  (s.pc t = .pop ∧ s.popp = 0) ∨ s.front = (t : Int)

/-- The side condition on a step.

* A tid that a `pop_q` throws away, of a thread that waits, is in the queue once more, or somebody
  is about to wake that thread.
* A `twakeup` comes in time: the thread that it names is asleep, if it waits at all, or there is
  another trace of its tid.
* A thread that has made its `twakeup`, and one that finishes, leaves another behind that is neither
  asleep nor about to be. -/
def LosesNothing (s : Sys) : Act → Prop
  | .pop t => ThrowsAway s t → ∀ u ∈ s.threads, s.front = (u : Int) → (s.pc u).waits = true →
      (u : Int) ∈ (popQ s.thQ2).2.vals ∨ (∃ v ∈ s.threads, s.pc v = .twakeup u) ∨
        s.last = some (u : Int)
  | .twakeup t =>
      (∀ u ∈ s.threads, s.pc t = .twakeup u → (s.pc u).waits = true →
        s.pc u = .asleep ∨ (u : Int) ∈ s.thQ2.vals ∨
          (∃ v ∈ s.threads, v ≠ t ∧ s.pc v = .twakeup u) ∨ s.last = some (u : Int)) ∧
      ((∃ u ∈ s.threads, s.pc t = .twakeup u ∧ s.pc u = .asleep) ∨
        ∃ v ∈ s.threads, v ≠ t ∧ (s.pc v).active = true)
  | .twakeupLast => ∀ u ∈ s.threads, s.last = some (u : Int) → (s.pc u).waits = true →
      s.pc u = .asleep ∨ (u : Int) ∈ s.thQ2.vals ∨ ∃ v ∈ s.threads, s.pc v = .twakeup u
  | .texit t => (∃ v ∈ s.threads, v ≠ t ∧ (s.pc v).active = true) ∨
      ∀ v ∈ s.threads, v ≠ t → s.pc v = .done
  | _ => True

instance (s : Sys) (t : Nat) : Decidable (ThrowsAway s t) := inferInstanceAs (Decidable (_ ∨ _))

instance (s : Sys) : (a : Act) → Decidable (LosesNothing s a)
  | .pop _ => inferInstanceAs (Decidable (_ → _))
  | .twakeup _ => inferInstanceAs (Decidable (_ ∧ _))
  | .twakeupLast => inferInstanceAs (Decidable (∀ _ ∈ _, _))
  | .texit _ => inferInstanceAs (Decidable (_ ∨ _))
  | .clone _ | .enroll _ | .add _ | .tsleep _ | .popLast => isTrue trivial

/-! ## 3. The invariant -/

/-- Every thread that waits has left a trace, and some thread is neither asleep nor about to be,
as long as there is one that has not finished. -/
structure Inv (s : Sys) : Prop where
  zero : s.pc 0 = .absent
  mem : ∀ u, s.pc u ≠ .absent → u ∈ s.threads
  traced : ∀ u, (s.pc u).waits = true → Traced s u
  active : (∃ u, (s.pc u).active = true) ∨ ∀ u, ¬Unfinished s u

variable {s s' : Sys} {t u : Nat}

/-- `thread_create(ping); thread_create(pong);` -/
def create (ping pong : Nat) : List Act :=
  [.clone ping, .enroll ping, .clone pong, .enroll pong]

end Xv6.User.Yield
