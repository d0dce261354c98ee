/-
# The frisbee game (frisbee.c)

Every thread of the game runs `pass_next`.  It enters itself into a table, waits at a barrier until
`numthreads` threads are there, and then passes the frisbee under `frisbee.lock` until there have
been more than `numpass` passes.  Both locks are `thread.c`'s, which spin on an `xchg` and have NO
OWNER: a release by a thread that does not hold the lock opens it for whoever comes next.

The model takes any number of threads through `pass_next`, one access to shared memory at a time.
`holds` is a history variable, read by no step: set when a thread's `lock_acquire` of
`frisbee.lock` returns and cleared by its own next `lock_release`.

**What goes wrong.**  A thread that finds the game over releases the lock, jumps to `leaving` and
releases it AGAIN.  Between the two, another thread can have taken it (`two_threads_hold_the_lock`).
All the other releases are the holder's own, so the lock has one holder for as long as no thread
leaves the game while another one holds the lock (`one_holder_iff_none_leaves_under_a_holder`).
-/
import Xv6.Runs

namespace Xv6.User.Frisbee

open Xv6.Runs

/-! ## 1. `pass_next` -/

/-- Where a thread stands in `pass_next`. -/
inductive Pc
  /-- `lock_acquire(&ttable.lock)` -/
  | enter
  /-- the loop that takes a slot, and `ttable.total++` -/
  | register
  /-- `lock_release(&ttable.lock)` -/
  | registered
  /-- `for(;;) lock_acquire(&ttable.lock)` -/
  | ready
  /-- `if(ttable.total == numthreads)`, and `barrier++` if so -/
  | count
  /-- `lock_release(&ttable.lock)`, and round again -/
  | notYet
  /-- `start: lock_release(&ttable.lock)` -/
  | start
  /-- `while(barrier != numthreads);` -/
  | wait
  /-- `do lock_acquire(&frisbee.lock)` -/
  | throw
  /-- `if(frisbee.pass > numpass)` -/
  | isOver
  /-- `lock_release(&frisbee.lock); goto leaving` -/
  | quit
  /-- `if(frisbee.holding_thread == tid)` -/
  | mine
  /-- `lock_release(&frisbee.lock); sleep(5); continue` -/
  | rest
  /-- `frisbee.pass++; frisbee.holding_thread = tid` -/
  | catches
  /-- `lock_release(&frisbee.lock)`, and round again -/
  | passed
  /-- `leaving: lock_release(&frisbee.lock)` -/
  | leaving
  /-- `texit()` -/
  | out
  deriving DecidableEq, Repr

/-- The shared variables, and where every thread stands; threads go by their `tid`. -/
structure Game where
  /-- `ttable` -/
  ttLocked : Bool
  slots : List Nat
  total : BitVec 32
  barrier : BitVec 32
  /-- `frisbee` -/
  locked : Bool
  pass : BitVec 32
  holdingThread : Nat
  pc : Nat → Pc
  holds : Nat → Bool

/-- What `main` has set up before it creates the threads; no thread has the pid `0`. -/
def Game.init : Game :=
  { ttLocked := false, slots := List.replicate 64 0, total := 0, barrier := 0
    locked := false, pass := 0, holdingThread := 0
    pc := fun t => if t = 0 then .out else .enter
    holds := fun _ => false }

def Game.goto (s : Game) (t : Nat) (l : Pc) : Game := { s with pc := Function.update s.pc t l }

/-- `lock_acquire(&frisbee.lock)`: one `xchg` of the loop, and on to `l` if that got the lock. -/
def Game.lockAcquire (s : Game) (t : Nat) (l : Pc) : Game :=
  if s.locked then s
  else { s with locked := true, holds := Function.update s.holds t true }.goto t l

/-- `lock_release(&frisbee.lock)`, whoever holds it. -/
def Game.lockRelease (s : Game) (t : Nat) (l : Pc) : Game :=
  { s with locked := false, holds := Function.update s.holds t false }.goto t l

/-- `lock_acquire(&ttable.lock)` -/
def Game.ttAcquire (s : Game) (t : Nat) (l : Pc) : Game :=
  if s.ttLocked then s else { s with ttLocked := true }.goto t l

/-- `lock_release(&ttable.lock)` -/
def Game.ttRelease (s : Game) (t : Nat) (l : Pc) : Game := { s with ttLocked := false }.goto t l

/-- The first free slot of the table goes to `tid`; a full table is left as it is. -/
def takeSlot (slots : List Nat) (tid : Nat) : List Nat :=
  match slots.findIdx? (· == 0) with
  | some i => slots.set i tid
  | none => slots

/-- One step of the thread `t`. -/
def step (numthreads numpass : BitVec 32) (s : Game) (t : Nat) : Option Game :=
  match s.pc t with
  | .enter => some (s.ttAcquire t .register)
  | .register =>
    some ({ s with slots := takeSlot s.slots t, total := s.total + 1 }.goto t .registered)
  | .registered => some (s.ttRelease t .ready)
  | .ready => some (s.ttAcquire t .count)
  | .count =>
    if s.total = numthreads then some ({ s with barrier := s.barrier + 1 }.goto t .start)
    else some (s.goto t .notYet)
  | .notYet => some (s.ttRelease t .ready)
  | .start => some (s.ttRelease t .wait)
  | .wait => if s.barrier ≠ numthreads then some s else some (s.goto t .throw)
  | .throw => some (s.lockAcquire t .isOver)
  | .isOver => if numpass.slt s.pass then some (s.goto t .quit) else some (s.goto t .mine)
  | .quit => some (s.lockRelease t .leaving)
  | .mine => if s.holdingThread = t then some (s.goto t .rest) else some (s.goto t .catches)
  | .rest => some (s.lockRelease t .throw)
  | .catches => some ({ s with pass := s.pass + 1, holdingThread := t }.goto t .passed)
  | .passed => some (s.lockRelease t .throw)
  | .leaving => some (s.lockRelease t .out)
  | .out => none

/-! ## 2. One holder -/

/-- At most one thread is between its acquire and its release. -/
def OneHolder (s : Game) : Prop := ∀ t u, s.holds t = true → s.holds u = true → t = u

/-- The next step of the thread is a release of `frisbee.lock`. -/
def Pc.releases : Pc → Bool
  | .quit | .rest | .passed | .leaving => true
  | _ => false

/-- If `t` is about to release the lock, then no other thread holds it. -/
def ReleasesAlone (s : Game) (t : Nat) : Prop :=
  (s.pc t).releases = true → ∀ u, s.holds u = true → u = t

/-- If `t` is about to leave the game, then no other thread holds the lock. -/
def LeavesAlone (s : Game) (t : Nat) : Prop :=
  s.pc t = .leaving → ∀ u, s.holds u = true → u = t

/-- The places between the acquire and the releases that answer it. -/
def Pc.inside : Pc → Bool
  | .isOver | .quit | .mine | .rest | .catches | .passed => true
  | _ => false

/-- The lock is taken for one thread at a time, and that is the thread inside. -/
structure Sole (s : Game) : Prop where
  inside : ∀ t, s.holds t = (s.pc t).inside
  one : OneHolder s
  locked : ∀ t, s.holds t = true → s.locked = true

/-- What a step of `t` can do to the lock. -/
inductive Moves (s s' : Game) (t : Nat) : Prop
  /-- nothing: `t` stays inside, or stays outside -/
  | on (l : Pc) (hpc : s'.pc = Function.update s.pc t l) (hin : l.inside = (s.pc t).inside)
      (hholds : s'.holds = s.holds) (hlocked : s'.locked = s.locked)
  /-- the lock was free, and `t` has it -/
  | takes (hfree : s.locked = false) (hpc : s'.pc = Function.update s.pc t .isOver)
      (hholds : s'.holds = Function.update s.holds t true) (hlocked : s'.locked = true)
  /-- `t` opens the lock -/
  | opens (l : Pc) (hrel : (s.pc t).releases = true) (hpc : s'.pc = Function.update s.pc t l)
      (hin : l.inside = false) (hholds : s'.holds = Function.update s.holds t false)
      (hlocked : s'.locked = false)

theorem moves_stay (s : Game) (t : Nat) : Moves s s t :=
  .on _ (Function.update_eq_self ..).symm rfl rfl rfl

theorem moves_ttAcquire {s : Game} {t : Nat} {l : Pc} (hin : l.inside = (s.pc t).inside) :
    Moves s (s.ttAcquire t l) t := by
  unfold Game.ttAcquire
  split
  · exact moves_stay s t
  · exact .on l rfl hin rfl rfl

theorem moves_lockAcquire (s : Game) (t : Nat) : Moves s (s.lockAcquire t .isOver) t := by
  unfold Game.lockAcquire
  split
  · exact moves_stay s t
  · rename_i hfree
    exact .takes (Bool.eq_false_iff.mpr hfree) rfl rfl rfl

theorem moves_lockRelease {s : Game} {t : Nat} {l : Pc} (hrel : (s.pc t).releases = true)
    (hin : l.inside = false) : Moves s (s.lockRelease t l) t :=
  .opens l hrel rfl hin rfl rfl

theorem moves_step {numthreads numpass : BitVec 32} {s s' : Game} {t : Nat}
    (h : step numthreads numpass s t = some s') : Moves s s' t := by
  unfold step at h
  cases hpc : s.pc t <;> rw [hpc] at h <;> dsimp only at h
  case out => exact nomatch h
  case wait | count | isOver | mine =>
    split at h <;> cases h
    · first
        | exact moves_stay s t
        | exact .on _ rfl (by rw [hpc]; rfl) rfl rfl
    · exact .on _ rfl (by rw [hpc]; rfl) rfl rfl
  case enter | ready =>
    cases h
    exact moves_ttAcquire (by rw [hpc]; rfl)
  case throw =>
    cases h
    exact moves_lockAcquire s t
  case quit | rest | passed | leaving =>
    cases h
    exact moves_lockRelease (by rw [hpc]; rfl) rfl
  case register | registered | notYet | start | catches =>
    cases h
    exact .on _ rfl (by rw [hpc]; rfl) rfl rfl

/-! ## 3. Runs -/

theorem sole_init : Sole Game.init := by
  refine ⟨fun t => ?_, nofun, nofun⟩
  change false = Pc.inside (if t = 0 then .out else .enter)
  split <;> rfl

namespace Sole

variable {s s' : Game} {t : Nat}

/-- Every thread that releases the lock holds it, except at `leaving`. -/
theorem releasesAlone (h : Sole s) (hleave : LeavesAlone s t) : ReleasesAlone s t := by
  intro hrel u hu
  by_cases hpc : s.pc t = .leaving
  · exact hleave hpc u hu
  · have ht : s.holds t = true := by
      rw [h.inside]
      cases hl : s.pc t <;> simp_all [Pc.releases, Pc.inside]
    exact h.one u t hu ht

theorem inside_step (h : Sole s) {l : Pc} (hpc : s'.pc = Function.update s.pc t l)
    (hholds : s'.holds = Function.update s.holds t l.inside) (u : Nat) :
    s'.holds u = (s'.pc u).inside := by
  rw [hpc, hholds]
  rcases eq_or_ne u t with rfl | hne
  · rw [Function.update_self, Function.update_self]
  · rw [Function.update_of_ne hne, Function.update_of_ne hne]
    exact h.inside u

/-- **One step** of a thread that does not leave the game under another one's eyes. -/
theorem step {numthreads numpass : BitVec 32} (h : Sole s) (hleave : LeavesAlone s t)
    (hst : Frisbee.step numthreads numpass s t = some s') : Sole s' := by
  cases moves_step hst with
  | on l hpc hin hholds hlocked =>
    have hself : s'.holds = Function.update s.holds t l.inside := by
      rw [hin, ← h.inside, Function.update_eq_self, hholds]
    refine ⟨h.inside_step hpc hself, ?_, ?_⟩
    · rw [OneHolder, hholds]
      exact h.one
    · rw [hholds, hlocked]
      exact h.locked
  | takes hfree hpc hholds hlocked =>
    -- nobody had it
    have hnone (u : Nat) : s.holds u ≠ true := fun hu => by
      rw [h.locked u hu] at hfree
      exact nomatch hfree
    have hself {u : Nat} (hu : s'.holds u = true) : u = t := by
      by_contra hne
      rw [hholds, Function.update_of_ne hne] at hu
      exact hnone u hu
    exact ⟨h.inside_step hpc hholds, fun u v hu hv => (hself hu).trans (hself hv).symm,
      fun _ _ => hlocked⟩
  | opens l hrel hpc hin hholds hlocked =>
    -- nobody has it now
    have hnone (u : Nat) : s'.holds u ≠ true := fun hu => by
      rcases eq_or_ne u t with rfl | hne
      · rw [hholds, Function.update_self] at hu
        exact nomatch hu
      · rw [hholds, Function.update_of_ne hne] at hu
        exact hne (h.releasesAlone hleave hrel u hu)
    exact ⟨h.inside_step hpc (hin ▸ hholds), fun u _ hu => absurd hu (hnone u),
      fun u hu => absurd hu (hnone u)⟩

end Sole

/-- **The lock has one holder, and only its holder releases it, exactly in the runs in which no thread
leaves the game while another one holds the lock.** -/
theorem one_holder_iff_none_leaves_under_a_holder (numthreads numpass : BitVec 32)
    (ts : List Nat) :
    (Along (fun s t => OneHolder s ∧ ReleasesAlone s t) (step numthreads numpass) Game.init ts ∧
      ∀ s, run (step numthreads numpass) Game.init ts = some s → OneHolder s) ↔
      Along LeavesAlone (step numthreads numpass) Game.init ts := by
  constructor
  · rintro ⟨halong, -⟩
    refine along_of_invariant (P := fun _ => True) (fun _ _ _ _ _ _ => trivial) ?_ ts _ trivial halong
    rintro s t - ⟨-, hrel⟩ hpc
    exact hrel (by rw [hpc]; rfl)
  · intro hleave
    have hstep : ∀ s t s', Sole s → LeavesAlone s t → step numthreads numpass s t = some s' →
        Sole s' := fun s t s' h hl hst => h.step hl hst
    refine ⟨along_of_invariant hstep (fun s t h hl => ⟨h.one, h.releasesAlone hl⟩) ts _ sole_init
      hleave, fun s hrun => ?_⟩
    exact (run_invariant hstep ts _ s sole_init hleave hrun).one

/-- Three threads, and no pass is left after the first: thread 2 finds the game over and releases
the lock, thread 1 takes it, thread 2 releases it again, and thread 3 takes it as well. -/
def lateRelease : List Nat :=
  [1, 1, 1, 2, 2, 2, 3, 3, 3] ++ [1, 1, 1, 2, 2, 2, 3, 3, 3] ++ [1, 2, 3] ++ [1, 1, 1, 1, 1] ++
    [2, 2, 2] ++ [1] ++ [2] ++ [3]

/-- **Two threads hold the lock at once.** -/
theorem two_threads_hold_the_lock :
    ∃ s, run (step 3 0) Game.init lateRelease = some s ∧ s.holds 1 = true ∧ s.holds 3 = true := by
  have h : (run (step 3 0) Game.init lateRelease).any (fun s => s.holds 1 && s.holds 3) = true := by
    decide +kernel
  obtain ⟨s, hs, hholds⟩ := (Option.any_eq_true _ _).mp h
  rw [Bool.and_eq_true] at hholds
  exact ⟨s, hs, hholds⟩

end Xv6.User.Frisbee
