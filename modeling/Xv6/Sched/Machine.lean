/-
# Kernel threads on CPUs (proc.c, spinlock.c)

Any number of CPUs, each in its scheduler or on the kernel stack of a process.  A thread is what it
has left to do: a list of statements.  The functions of the source are such lists, and a CPU executes
the first statement of the thread it is on; `for` loops go through the list of the slots they have
not seen yet, one slot a statement.  An interrupt puts its handler in front of what the thread it
interrupts has left to do; there are none while the CPU holds a lock (`ncli`, which `acquire` and
`release` count).

Each access to shared memory is a statement of its own, up to tests and what follows from them in
one branch under one lock (the scheduler's `state != RUNNABLE` and `proc = p`; what `wait` does to a
zombie).  `swtch` is one statement: it leaves one stack and lands on the other.

Two disciplines of sleeping and waking are built in, to be told apart: channels `cond n`, on which
processes sleep only in `acquire(lk); while(!cond) sleep(chan, lk)`, with `lk = guard n`, and whose
condition becomes true only at the hands of those who hold `lk` and then call `wakeup(chan)`, before
or after they release it; and channels `plain m`, on which anybody sleeps under any lock.  On both
anybody may call `wakeup` at any time.

A statement `waking n ps` is the loop of the `wakeup1` that a process which has set condition `n`
owes; any other call of `wakeup1` is `wakeup1 c ps`.
-/
import Xv6.Runs
import Xv6.Proc.Table

namespace Xv6.Sched

open Xv6.Ptable (Slot NPROC ProcState)

/-! ## 1. Statements -/

/-- A spinlock. -/
inductive Lock where
  | ptable
  | other (n : Nat)
deriving DecidableEq, Repr

/-- A sleep channel. -/
inductive Chan where
  | proc (p : Slot)
  | cond (n : Nat)
  | plain (m : Nat)
deriving DecidableEq, Repr

/-- Whom `allocproc` is called by. -/
inductive Kind where
  | fork
  | clone
deriving DecidableEq, Repr

/-- The statements.  `proc` is the CPU's. -/
inductive Stmt where
  /-- `acquire(lk)` -/
  | acquire (lk : Lock)
  /-- `release(lk)` -/
  | release (lk : Lock)
  /-- `proc->chan = c` -/
  | setChan (c : Option Chan)
  /-- `proc->state = x; sched()` -/
  | leave (x : ProcState)
  /-- `sched()`, when the state has been set -/
  | sched
  /-- `panic("zombie exit")` -/
  | zombieExit
  /-- the loop of `wakeup1(c)` -/
  | wakeup1 (c : Option Chan) (ps : List Slot)
  /-- `while(!cond) sleep(chan, lk);` then perhaps `cond = 0`, and `release(lk)` -/
  | test (n : Nat) (consume : Bool)
  /-- `cond = 1`, then `release(lk)` and `wakeup(chan)`, the latter first if it is `early` -/
  | setCond (n : Nat) (early : Bool)
  /-- the loop of the `wakeup1(chan)` owed by whoever set condition `n` -/
  | waking (n : Nat) (ps : List Slot)
  /-- `wakeup1(proc->parent)` -/
  | wakeParent
  /-- the loop of `exit` over the abandoned children -/
  | reparent (ps : List Slot)
  /-- the loops of `wait` -/
  | scan (ps : List Slot) (havekids : Bool)
  /-- the loop of `kill` -/
  | kill (pid : Nat) (ps : List Slot)
  /-- the loop of `allocproc` -/
  | alloc (kind : Kind) (ps : List Slot)
  /-- `p->kstack = kalloc()`, and the context of the new process -/
  | kalloc (kind : Kind) (np : Slot)
  /-- `fork`: `np->pgdir = copyuvm(...)` and the copying after it -/
  | copyuvm (np : Slot)
  /-- `np->state = RUNNABLE` -/
  | ready (np : Slot)
  /-- `clone`: the check of its arguments and the copying after it -/
  | checkArgs (np : Slot)
  /-- `while(pp->isthread == 1) pp = pp->parent; np->parent = pp` -/
  | climb (np pp : Slot)
  /-- `clone`: `copyout` to the new stack, and the rest -/
  | copyout (np : Slot)
  /-- the `for(;;)` of the scheduler -/
  | loop
  /-- the scheduler's loop over the table -/
  | pick (ps : List Slot)
  /-- `p->state = RUNNING` -/
  | mark (p : Slot)
  /-- `swtch(&cpu->scheduler, proc->context)` -/
  | swtch (p : Slot)
  /-- `proc = 0` -/
  | back
deriving DecidableEq, Repr

/-- All slots, in the order of the table. -/
def slots : List Slot := List.finRange NPROC

/-- The slot of `initproc`. -/
def initproc : Slot := 0

/-! ## 2. The functions of the source -/

/-- `sleep(c, lk)` -/
def sleep (c : Chan) (lk : Lock) : List Stmt :=
  if lk = .ptable then [.setChan (some c), .leave .sleeping, .setChan none]
  else
    [.acquire .ptable, .release lk, .setChan (some c), .leave .sleeping, .setChan none,
      .release .ptable, .acquire lk]

/-- `wakeup(c)` -/
def wakeup (c : Chan) : List Stmt :=
  [.acquire .ptable, .wakeup1 (some c) slots, .release .ptable]

/-- `yield()` -/
def yield : List Stmt := [.acquire .ptable, .leave .runnable, .release .ptable]

/-- `forkret()`, where a new process starts. -/
def forkret : List Stmt := [.release .ptable]

/-- `tsleep()` -/
def tsleep (p : Slot) : List Stmt :=
  .acquire .ptable :: sleep (.proc p) .ptable ++ [.release .ptable]

/-- `exit()`, from where it takes `ptable.lock` -/
def exit : List Stmt :=
  [.acquire .ptable, .wakeParent, .reparent slots, .leave .zombie, .zombieExit]

/-- `texit()`, from where it takes `ptable.lock` -/
def texit : List Stmt := [.acquire .ptable, .wakeParent, .leave .zombie, .zombieExit]

/-- `wait()` -/
def wait : List Stmt := [.acquire .ptable, .scan slots false, .release .ptable]

/-- `kill(pid)` -/
def kill (pid : Nat) : List Stmt := [.acquire .ptable, .kill pid slots, .release .ptable]

/-- `allocproc()` and what follows it in `fork` and `clone` -/
def allocproc (kind : Kind) : List Stmt :=
  [.acquire .ptable, .alloc kind slots, .release .ptable]

/-- One round of `scheduler()` -/
def round : List Stmt := [.acquire .ptable, .pick slots, .release .ptable, .loop]

section Guard

variable (guard : Nat → Lock)

/-- Wait for condition `n`. -/
def waiter (n : Nat) (consume : Bool) : List Stmt := [.acquire (guard n), .test n consume]

/-- Make condition `n` true and wake those who wait for it. -/
def waker (n : Nat) (early : Bool) : List Stmt := [.acquire (guard n), .setCond n early]

/-- What is left to do when the condition has been set. -/
def afterSet (n : Nat) (early : Bool) : List Stmt :=
  if early then
    -- who holds `ptable.lock` calls `wakeup1` itself
    if guard n = .ptable then [.waking n slots, .release .ptable]
    else [.acquire .ptable, .waking n slots, .release .ptable, .release (guard n)]
  else [.release (guard n), .acquire .ptable, .waking n slots, .release .ptable]

/-- What processes can call. -/
inductive Call where
  | fork
  | clone
  | wait
  | exit
  | texit
  | kill (pid : Nat)
  | tsleep
  | sleep (m : Nat) (lk : Lock)
  | wakeup (c : Chan)
  | waiter (n : Nat) (consume : Bool)
  | waker (n : Nat) (early : Bool)
deriving DecidableEq, Repr

/-- The code of a call by process `p`. -/
def Call.code (p : Slot) : Call → List Stmt
  | .fork => allocproc .fork
  | .clone => allocproc .clone
  | .wait => Sched.wait
  | .exit => Sched.exit
  | .texit => Sched.texit
  | .kill pid => Sched.kill pid
  | .tsleep => Sched.tsleep p
  | .sleep m lk => .acquire lk :: Sched.sleep (.plain m) lk ++ [.release lk]
  | .wakeup c => Sched.wakeup c
  | .waiter n consume => Sched.waiter guard n consume
  | .waker n early => Sched.waker guard n early

/-- What interrupt handlers do. -/
inductive Handler where
  | wakeup (c : Chan)
  | waker (n : Nat) (early : Bool)
deriving DecidableEq, Repr

def Handler.code : Handler → List Stmt
  | .wakeup c => Sched.wakeup c
  | .waker n early => Sched.waker guard n early

/-! ## 3. The machine -/

/-- A kernel thread: that of a process, or a CPU's scheduler. -/
inductive Thread (ι : Type) where
  | proc (p : Slot)
  | scheduler (c : ι)
deriving DecidableEq

/-- The process table, the locks, and for each CPU its `proc`, its `ncli` and the thread it is on.
`code` is what each thread has left to do; that of a process which has nothing left to do is in user
mode. -/
structure Machine (ι : Type) where
  state : Slot → ProcState
  chan : Slot → Option Chan
  killed : Slot → Bool
  pid : Slot → Nat
  parent : Slot → Option Slot
  isthread : Slot → Bool
  kstack : Slot → Bool
  nextpid : Nat
  cond : Nat → Bool
  holder : Lock → Option ι
  ncli : ι → Nat
  proc : ι → Option Slot
  cur : ι → Thread ι
  code : Thread ι → List Stmt

variable {ι : Type} [DecidableEq ι]

namespace Machine

/-- Thread `t` has `k` left to do. -/
def goto (t : Thread ι) (k : List Stmt) (s : Machine ι) : Machine ι :=
  { s with code := Function.update s.code t k }

def setState (p : Slot) (x : ProcState) (s : Machine ι) : Machine ι :=
  { s with state := Function.update s.state p x }

/-- The body of the loop of `wakeup1`. -/
def wakeIf (c : Option Chan) (q : Slot) (s : Machine ι) : Machine ι :=
  if s.state q = .sleeping ∧ s.chan q = c then s.setState q .runnable else s

/-- `allocproc` has found the slot `q`. -/
def take (q : Slot) (s : Machine ι) : Machine ι :=
  { s with
    state := Function.update s.state q .embryo
    pid := Function.update s.pid q (s.nextpid % 2 ^ 32)
    nextpid := s.nextpid + 1 }

/-- The new process has a stack, and starts in `forkret`. -/
def build (np : Slot) (s : Machine ι) : Machine ι :=
  { s with
    kstack := Function.update s.kstack np true
    code := Function.update s.code (.proc np) forkret }

/-- The new process is given up. -/
def giveUp (np : Slot) (s : Machine ι) : Machine ι :=
  { s with
    kstack := Function.update s.kstack np false
    state := Function.update s.state np .unused }

/-- The new process is a child of `p`. -/
def adopt (np p : Slot) (isthread : Bool) (s : Machine ι) : Machine ι :=
  { s with
    parent := Function.update s.parent np (some p)
    isthread := Function.update s.isthread np isthread }

/-- What `wait` does to a zombie, `freevm` apart. -/
def reap (q : Slot) (s : Machine ι) : Machine ι :=
  { s with
    kstack := Function.update s.kstack q false
    state := Function.update s.state q .unused
    pid := Function.update s.pid q 0
    parent := Function.update s.parent q none
    killed := Function.update s.killed q false }

/-- What `kill` does to the process it has found. -/
def markKilled (q : Slot) (s : Machine ι) : Machine ι :=
  { s with
    killed := Function.update s.killed q true
    state := Function.update s.state q
      (if s.state q = .sleeping then .runnable else s.state q) }

/-- CPU `c`, on thread `t`, executes a statement; `k` is what is left to do after it.  `ok` says how
`kalloc`, `copyuvm`, the check of arguments or `copyout` ends.  A statement that waits, or panics, is
not executed. -/
def exec (s : Machine ι) (c : ι) (t : Thread ι) (ok : Bool) (k : List Stmt) :
    Stmt → Option (Machine ι)
  | .acquire lk =>
    if s.holder lk = none then
      some (goto t k { s with
        holder := Function.update s.holder lk (some c)
        ncli := Function.update s.ncli c (s.ncli c + 1) })
    else none
  | .release lk =>
    if s.holder lk = some c then
      some (goto t k { s with
        holder := Function.update s.holder lk none
        ncli := Function.update s.ncli c (s.ncli c - 1) })
    else none
  | .setChan ch =>
    (s.proc c).map fun p => goto t k { s with chan := Function.update s.chan p ch }
  | .leave x => (s.proc c).map fun p => goto t (.sched :: k) (s.setState p x)
  | .sched =>
    if s.holder .ptable = some c ∧ s.ncli c = 1 ∧
        (s.proc c).any (fun p => s.state p ≠ .running) = true then
      some (goto t k { s with cur := Function.update s.cur c (.scheduler c) })
    else none
  | .zombieExit => none
  | .wakeup1 _ [] => some (s.goto t k)
  | .wakeup1 ch (q :: ps) => some (goto t (.wakeup1 ch ps :: k) (s.wakeIf ch q))
  | .test n consume =>
    if s.cond n = true then
      some (goto t (.release (guard n) :: k) { s with
        cond := Function.update s.cond n (!consume) })
    else some (s.goto t (sleep (.cond n) (guard n) ++ .test n consume :: k))
  | .setCond n early =>
    some (goto t (afterSet guard n early ++ k) { s with cond := Function.update s.cond n true })
  | .waking _ [] => some (s.goto t k)
  | .waking n (q :: ps) => some (goto t (.waking n ps :: k) (s.wakeIf (some (.cond n)) q))
  | .wakeParent =>
    (s.proc c).map fun p => s.goto t (.wakeup1 ((s.parent p).map .proc) slots :: k)
  | .reparent [] => some (s.goto t k)
  | .reparent (q :: ps) =>
    (s.proc c).map fun p =>
      if s.parent q = some p then
        goto t (if s.state q = .zombie then
            .wakeup1 (some (.proc initproc)) slots :: .reparent ps :: k
          else .reparent ps :: k)
          { s with parent := Function.update s.parent q (some initproc) }
      else s.goto t (.reparent ps :: k)
  | .scan [] havekids =>
    (s.proc c).map fun p =>
      if havekids = false ∨ s.killed p = true then s.goto t k
      else s.goto t (sleep (.proc p) .ptable ++ .scan slots false :: k)
  | .scan (q :: ps) havekids =>
    (s.proc c).map fun p =>
      if s.parent q = some p then
        if s.state q = .zombie then goto t k (s.reap q) else s.goto t (.scan ps true :: k)
      else s.goto t (.scan ps havekids :: k)
  | .kill _ [] => some (s.goto t k)
  | .kill pid (q :: ps) =>
    if s.pid q = pid then some (goto t k (s.markKilled q))
    else some (s.goto t (.kill pid ps :: k))
  | .alloc _ [] => some (s.goto t k)
  | .alloc kind (q :: ps) =>
    if s.state q = .unused then some (goto t (k ++ [.kalloc kind q]) (s.take q))
    else some (s.goto t (.alloc kind ps :: k))
  | .kalloc kind np =>
    if ok then
      some (goto t ((match kind with
        | .fork => .copyuvm np
        | .clone => .checkArgs np) :: k) (s.build np))
    else some (goto t k (s.giveUp np))
  | .copyuvm np =>
    if ok then (s.proc c).map fun p => goto t (.ready np :: k) (s.adopt np p false)
    else some (goto t k (s.giveUp np))
  | .ready np => some (goto t k (s.setState np .runnable))
  | .checkArgs np =>
    if ok then (s.proc c).map fun p => goto t (.climb np p :: k) (s.adopt np p true)
    else some (s.goto t k)
  | .climb np pp =>
    if s.isthread pp = true then (s.parent pp).map fun q => s.goto t (.climb np q :: k)
    else
      some (goto t (.copyout np :: k) { s with parent := Function.update s.parent np (some pp) })
  | .copyout np =>
    if ok then some (s.goto t (.acquire .ptable :: .ready np :: .release .ptable :: k))
    else some (s.goto t k)
  | .loop => some (s.goto t (round ++ k))
  | .pick [] => some (s.goto t k)
  | .pick (p :: ps) =>
    if s.state p = .runnable then
      some (goto t (.mark p :: .pick ps :: k) { s with
        proc := Function.update s.proc c (some p) })
    else some (s.goto t (.pick ps :: k))
  | .mark p => some (goto t (.swtch p :: k) (s.setState p .running))
  | .swtch p =>
    some (goto t (.back :: k) { s with cur := Function.update s.cur c (.proc p) })
  | .back => some (goto t k { s with proc := Function.update s.proc c none })

end Machine

/-- What can happen on a CPU: the next statement, a call from user mode, the timer, another
interrupt. -/
inductive Act (ι : Type) where
  | next (c : ι) (ok : Bool)
  | call (c : ι) (x : Call)
  | timer (c : ι)
  | interrupt (c : ι) (x : Handler)

/-- One move.  `init` exiting is a panic. -/
def step (s : Machine ι) : Act ι → Option (Machine ι)
  | .next c ok =>
    match s.code (s.cur c) with
    | [] => none
    | st :: k => s.exec guard c (s.cur c) ok k st
  | .call c x =>
    match s.cur c with
    | .scheduler _ => none
    | .proc p =>
      if s.code (.proc p) = [] ∧ ((x = .exit ∨ x = .texit) → p ≠ initproc) then
        some (s.goto (.proc p) (x.code guard p))
      else none
  | .timer c =>
    if s.ncli c = 0 ∧ (s.proc c).any (fun p => s.state p = .running) = true then
      some (s.goto (s.cur c) (yield ++ s.code (s.cur c)))
    else none
  | .interrupt c x =>
    if s.ncli c = 0 then some (s.goto (s.cur c) (x.code guard ++ s.code (s.cur c))) else none

end Guard

/-- After `userinit`: the first process can run, and every CPU is about to enter its scheduler. -/
def boot (ι : Type) : Machine ι where
  state p := if p = initproc then .runnable else .unused
  chan _ := none
  killed _ := false
  pid p := if p = initproc then 1 else 0
  parent _ := none
  isthread _ := false
  kstack p := p = initproc
  nextpid := 2
  cond _ := false
  holder _ := none
  ncli _ := 0
  proc _ := none
  cur c := .scheduler c
  code
    | .proc _ => forkret
    | .scheduler _ => [.loop]

end Xv6.Sched
