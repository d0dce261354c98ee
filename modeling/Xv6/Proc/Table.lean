/-
# The process table: `proc.c` as a step function

The life of a process slot, from `allocproc` to the `wait` that gives it back: `fork`, `clone`,
`exec`, `exit`, `texit`, `wait`, `kill`, and the scheduler, `sleep` and `wakeup` between them.
Any number of processes are `RUNNING` at once, one for each CPU; a label of `step` says which of
them moves and how far.

What runs under `ptable.lock` is one step.  What does not is split where another process can
see the difference: `allocproc` publishes the slot as `EMBRYO` and lets go of the lock, and
`clone` reads its ancestors' slots, one iteration of its `while` loop at a time, with no lock
at all.

A page directory is named by the order in which `setupkvm` built it, so that a directory is
never confused with a later one on the same page; `freed` is the list of the arguments of
`freevm`, the most recent first.  What memory a directory maps is the business of `Xv6.Vm`.

Three fields of a slot are history, read by no step: `born`, how many slots `allocproc` had
given out before (`nextpid` itself is an `int` and comes round after 2^32 of them); `guardian`,
the birth of the process this one was last given to, by its creator or by `exit`; and `built`,
whether `pgdir` has been stored since `allocproc` took the slot -- `wait` does not clear `pgdir`,
so an `EMBRYO` can still carry its predecessor's.
-/
import Xv6.Param
import Xv6.Runs

namespace Xv6.Ptable

/-! ## 1. Slots -/

/-- `NPROC` -/
abbrev NPROC : Nat := 64

/-- A `struct proc *` into `ptable.proc`. -/
abbrev Slot := Fin NPROC

/-- `enum procstate` -/
inductive ProcState
  | unused | embryo | sleeping | runnable | running | zombie
  deriving DecidableEq, Repr

/-- A sleep channel: the address of a process slot (`wait`, `tsleep`), or any other address. -/
inductive Chan
  | proc (p : Slot)
  | other (c : Nat)
  deriving DecidableEq, Repr

/-- `struct proc`, less the size of the image, the trap frame, the open files, the current
directory and the name. -/
structure Proc where
  pgdir : Option Nat
  kstack : Bool
  state : ProcState
  pid : Nat
  parent : Option Slot
  chan : Option Chan
  killed : Bool
  isthread : Bool
  born : Nat
  guardian : Nat
  built : Bool
  deriving DecidableEq, Repr

/-- A slot of the `ptable` in `.bss`. -/
def Proc.zero : Proc :=
  { pgdir := none, kstack := false, state := .unused, pid := 0, parent := none,
    chan := none, killed := false, isthread := false, born := 0, guardian := 0,
    built := false }

/-- The system call a process is inside of, between two steps. -/
inductive Call
  /-- in user mode, or in a call that has no state of its own here -/
  | user
  /-- `fork` has its slot; `copyuvm` is next -/
  | forking (np : Slot)
  /-- `clone` is at the condition of `while(pp->isthread == 1)` -/
  | cloning (np pp : Slot)
  /-- `clone` has stored `np->parent = pp`; `copyout` is next -/
  | adopted (np : Slot)
  /-- in the `for(;;)` of `wait` -/
  | waiting
  /-- `exec` has built the page directory `d` and not yet committed to it -/
  | execing (d : Nat)
  deriving DecidableEq, Repr

/-- The state of `proc.c`.  The code's `nextpid` is this one modulo 2^32. -/
structure Kernel where
  proc : Slot → Proc
  call : Slot → Call
  nextpid : Nat
  initproc : Slot
  nextdir : Nat
  freed : List Nat

/-- Change one slot. -/
def Kernel.upd (k : Kernel) (p : Slot) (f : Proc → Proc) : Kernel :=
  { k with proc := Function.update k.proc p (f (k.proc p)) }

/-- Change what one process is doing. -/
def Kernel.setCall (k : Kernel) (p : Slot) (c : Call) : Kernel :=
  { k with call := Function.update k.call p c }

/-- Change every slot, each as a function of what it holds. -/
def Kernel.mapProcs (k : Kernel) (f : Slot → Proc → Proc) : Kernel :=
  { k with proc := fun p => f p (k.proc p) }

section Lemmas

variable (k : Kernel) (p q : Slot) (f : Proc → Proc) (g : Slot → Proc → Proc) (c : Call)

@[simp] theorem upd_proc_same : (k.upd p f).proc p = f (k.proc p) := by simp [Kernel.upd]

@[simp] theorem upd_proc_ne {p q : Slot} (h : q ≠ p) : (k.upd p f).proc q = k.proc q := by
  simp [Kernel.upd, h]

@[simp] theorem upd_call : (k.upd p f).call = k.call := rfl
@[simp] theorem upd_nextpid : (k.upd p f).nextpid = k.nextpid := rfl
@[simp] theorem upd_initproc : (k.upd p f).initproc = k.initproc := rfl
@[simp] theorem upd_nextdir : (k.upd p f).nextdir = k.nextdir := rfl
@[simp] theorem upd_freed : (k.upd p f).freed = k.freed := rfl
@[simp] theorem setCall_proc : (k.setCall p c).proc = k.proc := rfl
@[simp] theorem setCall_call : (k.setCall p c).call = Function.update k.call p c := rfl
@[simp] theorem setCall_nextpid : (k.setCall p c).nextpid = k.nextpid := rfl
@[simp] theorem setCall_initproc : (k.setCall p c).initproc = k.initproc := rfl
@[simp] theorem setCall_nextdir : (k.setCall p c).nextdir = k.nextdir := rfl
@[simp] theorem setCall_freed : (k.setCall p c).freed = k.freed := rfl
@[simp] theorem mapProcs_proc : (k.mapProcs g).proc p = g p (k.proc p) := rfl
@[simp] theorem mapProcs_call : (k.mapProcs g).call = k.call := rfl
@[simp] theorem mapProcs_nextpid : (k.mapProcs g).nextpid = k.nextpid := rfl
@[simp] theorem mapProcs_initproc : (k.mapProcs g).initproc = k.initproc := rfl
@[simp] theorem mapProcs_nextdir : (k.mapProcs g).nextdir = k.nextdir := rfl
@[simp] theorem mapProcs_freed : (k.mapProcs g).freed = k.freed := rfl

end Lemmas

/-! ## 2. The functions of `proc.c` -/

/-- `allocproc`: take the first `UNUSED` slot, or fail.  `kallocOk` says whether the page for
the kernel stack could be had; when not, the slot is given back (and keeps its pid). -/
def allocproc (k : Kernel) (kallocOk : Bool) : Option Slot × Kernel :=
  match (List.finRange NPROC).find? fun p => (k.proc p).state = .unused with
  | none => (none, k)
  | some p =>
    let k := { k.upd p fun x =>
      { x with
        state := .embryo, pid := k.nextpid % 2 ^ 32, born := k.nextpid, built := false } with
      nextpid := k.nextpid + 1 }
    if kallocOk then (some p, k.upd p fun x => { x with kstack := true })
    else (none, k.upd p fun x => { x with state := .unused })

/-- What `allocproc` does: nothing, when the table is full; otherwise it takes a slot `np`, and
gives it back when there is no page for its stack. -/
theorem allocproc_cases (k : Kernel) (kallocOk : Bool) :
    allocproc k kallocOk = (none, k) ∨
      ∃ np, (k.proc np).state = .unused ∧
        allocproc k kallocOk =
          if kallocOk then
            (some np, { k.upd np fun x =>
              { x with
                state := .embryo, pid := k.nextpid % 2 ^ 32, born := k.nextpid, built := false,
                kstack := true } with
              nextpid := k.nextpid + 1 })
          else
            (none, { k.upd np fun x =>
              { x with
                state := .unused, pid := k.nextpid % 2 ^ 32, born := k.nextpid,
                built := false } with
              nextpid := k.nextpid + 1 }) := by
  unfold allocproc
  cases hf : (List.finRange NPROC).find? fun p => (k.proc p).state = .unused with
  | none => exact Or.inl rfl
  | some np =>
    refine Or.inr ⟨np, by simpa using List.find?_some hf, ?_⟩
    cases kallocOk <;> simp [Kernel.upd]

/-- What becomes of a page directory under construction, in `copyuvm` or in `exec`. -/
inductive Outcome
  /-- it is complete -/
  | ok
  /-- `setupkvm` had no page for it -/
  | noPage
  /-- `setupkvm` ran out of pages for the kernel part and returned 0 without freeing anything -/
  | halfBuilt
  /-- a later step failed and gave it to `freevm` -/
  | bad
  deriving DecidableEq, Repr

/-- A new page directory. -/
def Kernel.newDir (k : Kernel) : Kernel := { k with nextdir := k.nextdir + 1 }

/-- `freevm(d)` -/
def Kernel.freevm (k : Kernel) (d : Option Nat) : Kernel :=
  { k with freed := d.elim k.freed (· :: k.freed) }

/-- The rest of `fork`, after `allocproc` returned `np`. -/
def fork (k : Kernel) (p np : Slot) : Outcome → Kernel
  | .ok =>
    (k.newDir.upd np fun x =>
      { x with
        pgdir := some k.nextdir, parent := some p, isthread := false,
        state := .runnable, guardian := (k.proc p).born, built := true }).setCall p .user
  | .noPage => (k.upd np fun x => { x with kstack := false, state := .unused }).setCall p .user
  | .halfBuilt =>
    (k.newDir.upd np fun x => { x with kstack := false, state := .unused }).setCall p .user
  | .bad =>
    ((k.newDir.freevm (some k.nextdir)).upd np fun x =>
      { x with kstack := false, state := .unused }).setCall p .user

/-- `clone`, from the argument check to the loop.  When `stack` or `routine` is not acceptable
the call returns with the slot still `EMBRYO`. -/
def clone (k : Kernel) (p np : Slot) (stack routine : Nat) : Kernel :=
  if stack % 4096 ≠ 0 ∨ stack = 0 ∨ routine = 0 then k
  else
    (k.upd np fun x =>
      { x with
        pgdir := (k.proc p).pgdir, parent := some p, isthread := true,
        guardian := (k.proc p).born, built := true }).setCall p (.cloning np p)

/-- One evaluation of `while(pp->isthread == 1) pp = pp->parent;`, and `np->parent = pp` when it
is over.  `none` is the dereference of a null `pp`. -/
def cloneLoop (k : Kernel) (p np pp : Slot) : Option Kernel :=
  if (k.proc pp).isthread then
    (k.proc pp).parent.map fun q => k.setCall p (.cloning np q)
  else
    some ((k.upd np fun x =>
      { x with parent := some pp, guardian := (k.proc pp).born }).setCall p (.adopted np))

/-- The rest of `clone`: when `copyout` cannot push the argument the slot is left `EMBRYO`. -/
def cloneFinish (k : Kernel) (p np : Slot) (copyoutOk : Bool) : Kernel :=
  if copyoutOk then (k.upd np fun x => { x with state := .runnable }).setCall p .user
  else k.setCall p .user

/-- `wakeup1` -/
def wakeup1 (k : Kernel) (c : Option Chan) : Kernel :=
  k.mapProcs fun _ x => if x.state = .sleeping ∧ x.chan = c then { x with state := .runnable } else x

/-- The loop of `exit`: pass abandoned children to init. -/
def reparent (k : Kernel) (p : Slot) : Kernel :=
  let k' := k.mapProcs fun _ x =>
    if x.parent = some p then
      { x with parent := some k.initproc, guardian := (k.proc k.initproc).born }
    else x
  if ∃ q, (k.proc q).parent = some p ∧ (k.proc q).state = .zombie then
    wakeup1 k' (some (.proc k.initproc))
  else k'

/-- `exit`, from where it takes `ptable.lock`. -/
def exit (k : Kernel) (p : Slot) : Kernel :=
  (reparent (wakeup1 k ((k.proc p).parent.map .proc)) p).upd p fun x => { x with state := .zombie }

/-- `texit`, from where it takes `ptable.lock`: the loop over the children is commented out. -/
def texit (k : Kernel) (p : Slot) : Kernel :=
  (wakeup1 k ((k.proc p).parent.map .proc)).upd p fun x => { x with state := .zombie }

/-- The child `wait` would reap: the first `ZOMBIE` slot whose parent is the caller. -/
def reaps (k : Kernel) (p : Slot) : Option Slot :=
  (List.finRange NPROC).find? fun q =>
    (k.proc q).parent = some p ∧ (k.proc q).state = .zombie

/-- `havekids` -/
def havekids (k : Kernel) (p : Slot) : Prop := ∃ q, (k.proc q).parent = some p

instance (k : Kernel) (p : Slot) : Decidable (havekids k p) :=
  inferInstanceAs (Decidable (∃ q, (k.proc q).parent = some p))

/-- What `wait` does to the zombie it found. -/
def reap (k : Kernel) (q : Slot) : Kernel :=
  (if (k.proc q).isthread then k else k.freevm (k.proc q).pgdir).upd q fun x =>
    { x with kstack := false, state := .unused, pid := 0, parent := none, killed := false }

/-- One pass of the `for(;;)` of `wait`. -/
def wait (k : Kernel) (p : Slot) : Kernel :=
  match reaps k p with
  | some q => (reap k q).setCall p .user
  | none =>
    if ¬ havekids k p ∨ (k.proc p).killed then k.setCall p .user
    else (k.upd p fun x => { x with chan := some (.proc p), state := .sleeping }).setCall p .waiting

/-- `kill`: the first slot with that pid, whatever its state. -/
def kill (k : Kernel) (pid : Nat) : Kernel :=
  match (List.finRange NPROC).find? fun p => (k.proc p).pid = pid with
  | none => k
  | some p =>
    k.upd p fun x =>
      { x with killed := true, state := if x.state = .sleeping then .runnable else x.state }

/-- `twakeup` -/
def twakeup (k : Kernel) (tid : Nat) : Kernel :=
  (List.finRange NPROC).foldl
    (fun k p =>
      if (k.proc p).state = .sleeping ∧ (k.proc p).pid = tid ∧ (k.proc p).isthread then
        wakeup1 k (some (.proc p))
      else k) k

/-- `exec` after `setupkvm`: commit to the new image and free the old one. -/
def execCommit (k : Kernel) (p : Slot) (d : Nat) : Kernel :=
  ((k.upd p fun x => { x with pgdir := some d }).freevm (k.proc p).pgdir).setCall p .user

/-! ## 3. The step function -/

/-- One move of one process (or of a CPU's scheduler, or of an interrupt). -/
inductive Act
  | schedule (p : Slot)
  | yield (p : Slot)
  | sleep (p : Slot) (c : Nat)
  | tsleep (p : Slot)
  | wakeup (c : Nat)
  | twakeup (p : Slot) (tid : Nat)
  | forkAlloc (p : Slot) (kallocOk : Bool)
  | forkCopy (p : Slot) (o : Outcome)
  | cloneAlloc (p : Slot) (kallocOk : Bool) (stack routine : Nat)
  | cloneLoop (p : Slot)
  | cloneFinish (p : Slot) (copyoutOk : Bool)
  | exit (p : Slot)
  | texit (p : Slot)
  | wait (p : Slot)
  | kill (p : Slot) (pid : Nat)
  | execBuild (p : Slot) (o : Outcome)
  | execCommit (p : Slot)
  | execBad (p : Slot)
  deriving DecidableEq, Repr

/-- The process is on a CPU and not in the middle of a call. -/
def Kernel.Free (k : Kernel) (p : Slot) : Prop :=
  (k.proc p).state = .running ∧ k.call p = .user

instance (k : Kernel) (p : Slot) : Decidable (k.Free p) :=
  inferInstanceAs (Decidable (_ ∧ _))

/-- `exec` until it holds a complete page directory, or has given up. -/
def execBuild (k : Kernel) (p : Slot) : Outcome → Kernel
  | .ok => k.newDir.setCall p (.execing k.nextdir)
  | .noPage => k
  | .halfBuilt => k.newDir
  | .bad => k.newDir.freevm (some k.nextdir)

/-- The step function.  `init` exiting is a panic, so that move is not enabled. -/
def step (k : Kernel) : Act → Option Kernel
  | .schedule p =>
    -- the switch to `p` includes the `proc->chan = 0` with which an interrupted `sleep` resumes
    if (k.proc p).state = .runnable then
      some (k.upd p fun x => { x with state := .running, chan := none })
    else none
  | .yield p =>
    if (k.proc p).state = .running then some (k.upd p fun x => { x with state := .runnable })
    else none
  | .sleep p c =>
    if (k.proc p).state = .running then
      some (k.upd p fun x => { x with chan := some (.other c), state := .sleeping })
    else none
  | .tsleep p =>
    if k.Free p then some (k.upd p fun x => { x with chan := some (.proc p), state := .sleeping })
    else none
  | .wakeup c => some (wakeup1 k (some (.other c)))
  | .twakeup p tid => if k.Free p then some (twakeup k tid) else none
  | .forkAlloc p kallocOk =>
    if k.Free p then
      match allocproc k kallocOk with
      | (none, k') => some k'
      | (some np, k') => some (k'.setCall p (.forking np))
    else none
  | .forkCopy p o =>
    match k.call p with
    | .forking np => if (k.proc p).state = .running then some (fork k p np o) else none
    | _ => none
  | .cloneAlloc p kallocOk stack routine =>
    if k.Free p then
      match allocproc k kallocOk with
      | (none, k') => some k'
      | (some np, k') => some (clone k' p np stack routine)
    else none
  | .cloneLoop p =>
    match k.call p with
    | .cloning np pp => if (k.proc p).state = .running then cloneLoop k p np pp else none
    | _ => none
  | .cloneFinish p copyoutOk =>
    match k.call p with
    | .adopted np =>
      if (k.proc p).state = .running then some (cloneFinish k p np copyoutOk) else none
    | _ => none
  | .exit p => if k.Free p ∧ p ≠ k.initproc then some (exit k p) else none
  | .texit p => if k.Free p ∧ p ≠ k.initproc then some (texit k p) else none
  | .wait p =>
    if (k.proc p).state = .running ∧ (k.call p = .user ∨ k.call p = .waiting) then
      some (wait k p)
    else none
  | .kill p pid => if k.Free p then some (kill k pid) else none
  | .execBuild p o => if k.Free p then some (execBuild k p o) else none
  | .execCommit p =>
    match k.call p with
    | .execing d => if (k.proc p).state = .running then some (execCommit k p d) else none
    | _ => none
  | .execBad p =>
    match k.call p with
    | .execing d =>
      if (k.proc p).state = .running then some ((k.freevm (some d)).setCall p .user) else none
    | _ => none

/-! What an enabled move needs and does, for the moves that are more than scheduling. -/

section Inversion

variable {k k' : Kernel} {p : Slot}

-- All the lemmas of the section unfold `step`: its equations are made here, once.
attribute [local simp] step

theorem step_forkAlloc {kallocOk : Bool} (h : step k (.forkAlloc p kallocOk) = some k') :
    k.Free p ∧ ((allocproc k kallocOk = (none, k')) ∨ ∃ np k₁, allocproc k kallocOk = (some np, k₁) ∧
      k' = k₁.setCall p (.forking np)) := by
  simp only [step, Option.ite_none_right_eq_some] at h
  refine ⟨h.1, ?_⟩
  rcases hal : allocproc k kallocOk with ⟨_ | np, k₁⟩ <;>
    simp only [hal, Option.some.injEq] at h <;> simp [h.2]

theorem step_cloneAlloc {kallocOk : Bool} {stack routine : Nat}
    (h : step k (.cloneAlloc p kallocOk stack routine) = some k') :
    k.Free p ∧ ((allocproc k kallocOk = (none, k')) ∨ ∃ np k₁, allocproc k kallocOk = (some np, k₁) ∧
      k' = clone k₁ p np stack routine) := by
  simp only [step, Option.ite_none_right_eq_some] at h
  refine ⟨h.1, ?_⟩
  rcases hal : allocproc k kallocOk with ⟨_ | np, k₁⟩ <;>
    simp only [hal, Option.some.injEq] at h <;> simp [h.2]

theorem step_forkCopy {o : Outcome} (h : step k (.forkCopy p o) = some k') :
    ∃ np, k.call p = .forking np ∧ k' = fork k p np o := by
  simp only [step] at h
  split at h
  · rename_i np hc
    simp only [Option.ite_none_right_eq_some, Option.some.injEq] at h
    exact ⟨np, hc, h.2.symm⟩
  · cases h

theorem step_cloneLoop (h : step k (.cloneLoop p) = some k') :
    ∃ np pp, k.call p = .cloning np pp ∧ cloneLoop k p np pp = some k' := by
  simp only [step] at h
  split at h
  · rename_i np pp hc
    simp only [Option.ite_none_right_eq_some] at h
    exact ⟨np, pp, hc, h.2⟩
  · cases h

theorem step_cloneFinish {copyoutOk : Bool} (h : step k (.cloneFinish p copyoutOk) = some k') :
    ∃ np, k.call p = .adopted np ∧ k' = cloneFinish k p np copyoutOk := by
  simp only [step] at h
  split at h
  · rename_i np hc
    simp only [Option.ite_none_right_eq_some, Option.some.injEq] at h
    exact ⟨np, hc, h.2.symm⟩
  · cases h

theorem step_exit (h : step k (.exit p) = some k') :
    k.Free p ∧ p ≠ k.initproc ∧ k' = exit k p := by
  simp only [step, Option.ite_none_right_eq_some, Option.some.injEq] at h
  exact ⟨h.1.1, h.1.2, h.2.symm⟩

theorem step_texit (h : step k (.texit p) = some k') :
    k.Free p ∧ p ≠ k.initproc ∧ k' = texit k p := by
  simp only [step, Option.ite_none_right_eq_some, Option.some.injEq] at h
  exact ⟨h.1.1, h.1.2, h.2.symm⟩

theorem step_wait (h : step k (.wait p) = some k') :
    (k.proc p).state = .running ∧ (k.call p = .user ∨ k.call p = .waiting) ∧ k' = wait k p := by
  simp only [step, Option.ite_none_right_eq_some, Option.some.injEq] at h
  exact ⟨h.1.1, h.1.2, h.2.symm⟩

theorem step_execBuild {o : Outcome} (h : step k (.execBuild p o) = some k') :
    k.Free p ∧ k' = execBuild k p o := by
  simp only [step, Option.ite_none_right_eq_some, Option.some.injEq] at h
  exact ⟨h.1, h.2.symm⟩

theorem step_execCommit (h : step k (.execCommit p) = some k') :
    ∃ d, k.call p = .execing d ∧ (k.proc p).state = .running ∧ k' = execCommit k p d := by
  simp only [step] at h
  split at h
  · rename_i d hc
    simp only [Option.ite_none_right_eq_some, Option.some.injEq] at h
    exact ⟨d, hc, h.1, h.2.symm⟩
  · cases h

theorem step_execBad (h : step k (.execBad p) = some k') :
    ∃ d, k.call p = .execing d ∧ k' = (k.freevm (some d)).setCall p .user := by
  simp only [step] at h
  split at h
  · rename_i d hc
    simp only [Option.ite_none_right_eq_some, Option.some.injEq] at h
    exact ⟨d, hc, h.2.symm⟩
  · cases h

end Inversion

/-- After `userinit`: the first process, in the first slot, with the first page directory. -/
def boot : Kernel :=
  { proc := fun p =>
      if p = 0 then
        { Proc.zero with
          pgdir := some 0, kstack := true, state := .runnable, pid := 1,
          born := 1, built := true }
      else Proc.zero
    call := fun _ => .user
    nextpid := 2
    initproc := 0
    nextdir := 1
    freed := [] }

/-! ## 4. Scheduling is invisible

Whether a process that can run is `RUNNABLE`, `RUNNING` or `SLEEPING`, on what channel, and
whether it has been killed: none of it is part of what the invariants say.  `Kernel.core` forgets
it, and the moves that change nothing else are dealt with here once and for all. -/

/-- A slot with what scheduling changes set to fixed values. -/
def Proc.core (x : Proc) : Proc :=
  { x with
    state := if x.state = .sleeping ∨ x.state = .runnable then .running else x.state
    chan := none
    killed := false }

def Kernel.core (k : Kernel) : Kernel := { k with proc := fun p => (k.proc p).core }

/-- The moves that only schedule, block, wake or kill. -/
def Act.idle : Act → Bool
  | .schedule _ | .yield _ | .sleep _ _ | .tsleep _ | .wakeup _ | .twakeup _ _ | .kill _ _ => true
  | _ => false

theorem core_mapProcs {k : Kernel} {g : Slot → Proc → Proc}
    (h : ∀ p, (g p (k.proc p)).core = (k.proc p).core) : (k.mapProcs g).core = k.core := by
  simp only [Kernel.core, Kernel.mapProcs, Kernel.mk.injEq, and_true]
  exact funext h

theorem core_upd {k : Kernel} {p : Slot} {f : Proc → Proc}
    (h : (f (k.proc p)).core = (k.proc p).core) : (k.upd p f).core = k.core := by
  simp only [Kernel.core, Kernel.upd, Kernel.mk.injEq, and_true]
  funext q
  by_cases hq : q = p
  · subst hq; simpa using h
  · simp [hq]

theorem core_wakeup1 (k : Kernel) (c : Option Chan) : (wakeup1 k c).core = k.core := by
  refine core_mapProcs fun p => ?_
  split
  · rename_i h
    simp [Proc.core, h.1]
  · rfl

theorem core_twakeup (k : Kernel) (tid : Nat) : (twakeup k tid).core = k.core := by
  unfold twakeup
  generalize List.finRange NPROC = l
  induction l generalizing k with
  | nil => rfl
  | cons p l ih =>
    rw [List.foldl_cons, ih]
    split
    · exact core_wakeup1 k _
    · rfl

theorem core_kill (k : Kernel) (pid : Nat) : (kill k pid).core = k.core := by
  unfold kill
  split
  · rfl
  · refine core_upd ?_
    simp only [Proc.core]
    split
    · rename_i h; simp [h]
    · rfl

/-- **The scheduling moves change nothing but scheduling.** -/
theorem step_idle {k k' : Kernel} {a : Act} (ha : a.idle) (hs : step k a = some k') :
    k'.core = k.core := by
  cases a with
  | schedule p | yield p | sleep p c =>
    simp only [step, Option.ite_none_right_eq_some, Option.some.injEq] at hs
    obtain ⟨hr, rfl⟩ := hs
    exact core_upd (by simp [Proc.core, hr])
  | tsleep p =>
    simp only [step, Option.ite_none_right_eq_some, Option.some.injEq] at hs
    obtain ⟨hr, rfl⟩ := hs
    exact core_upd (by simp [Proc.core, hr.1])
  | wakeup c =>
    obtain rfl : _ = k' := Option.some.inj hs
    exact core_wakeup1 k _
  | twakeup p tid =>
    simp only [step, Option.ite_none_right_eq_some, Option.some.injEq] at hs
    obtain ⟨-, rfl⟩ := hs
    exact core_twakeup k tid
  | kill p pid =>
    simp only [step, Option.ite_none_right_eq_some, Option.some.injEq] at hs
    obtain ⟨-, rfl⟩ := hs
    exact core_kill k pid
  | _ => cases ha

end Xv6.Ptable
