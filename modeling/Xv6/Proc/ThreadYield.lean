/-
# `thread_yield` (proc.c)

`thread_yield` takes a process off the queue `thQ` (a second one if the first has the caller's pid),
puts the caller at the end and switches to the one it took.  It asks nothing about that one: not
whether the queue was empty, not what state the process is in.

The process table is that of `Xv6.Proc.Table`, and `thQ` is the linked queue of `Xv6.Queue`, node by
node.  The call has two pieces: the test of `initedQ`, with no lock, and the rest, under
`ptable.lock`. What the page fault of a null `p` does to the kernel is not modelled; the call ends
there.

**What holds.**  `thread_yield` does what it is for exactly if the process that the queue gives is
there, can run and is not the caller, and the caller is not in the queue once more behind it.

**What does not.**  Nobody else adds to `thQ` (the lines of `clone` that did are comments), and
`thread_yield` adds only after it has taken something off.  So the queue is EMPTY in every state that
the kernel can reach from boot, and the first call is the last: `pop_q2` returns `0`, and `p->pid`
is read.
-/
import Xv6.Proc.Table
import Xv6.Queue

namespace Xv6.ThreadYield

open Xv6.Ptable (Slot Kernel)
open Xv6.Queues (World Node Addr Fifo Rep queue2)
open Xv6.Runs

/-! ## 1. The code -/

/-- The process table, `thQ` with the memory its nodes are in, and `initedQ`.  `entered` are the
processes that are in `thread_yield`, past its test of `initedQ`. -/
structure Sys where
  k : Kernel
  thQ : World (Option Slot)
  initedQ : BitVec 32
  entered : Slot → Bool

/-- `if (!initedQ) { init_q2(thQ); initedQ ++; }` -/
def initOnce (s : Sys) : Sys :=
  if s.initedQ = 0 then { s with thQ := queue2.init s.thQ, initedQ := s.initedQ + 1 } else s

/-- How a call can end. -/
inductive Result
  /-- a null pointer is followed -/
  | fault
  /-- the caller goes on -/
  | continues (s : Sys)
  /-- the CPU is switched to `p` -/
  | swtch (p : Slot) (s : Sys)

/-- `p = pop_q2(thQ); if ((p->pid) == (proc->pid)) { p = pop_q2(thQ); }`, for the caller `c`; `junk`
and `junk'` are what `kfree2` leaves behind. -/
def popTwice (s : Sys) (c : Slot) (junk junk' : Node (Option Slot)) :
    Option (Option Slot × World (Option Slot)) :=
  match queue2.pop junk s.thQ with
  | some (some p, w) =>
    if (s.k.proc p).pid = (s.k.proc c).pid then queue2.pop junk' w else some (some p, w)
  | _ => none

/-- `proc->state = RUNNABLE;` for the caller, `p->state = RUNNING;` -/
def exchange (k : Kernel) (c p : Slot) : Kernel :=
  (k.upd c fun x => { x with state := .runnable }).upd p fun x => { x with state := .running }

/-- What is done under `ptable.lock`; `kalloc2` returns `n`. -/
def locked (s : Sys) (c : Slot) (junk junk' : Node (Option Slot)) (n : Option Addr) : Result :=
  match popTwice s c junk junk' with
  | some (some p, w) =>
    match n.bind fun n => queue2.add (some c) n w with
    | some w => .swtch p { s with thQ := w, k := exchange s.k c p }
    | none => .fault
  | _ => .fault

/-- A move: one of the process table, or one of the two pieces of `thread_yield`. -/
inductive Act
  | kernel (a : Ptable.Act)
  | enter (c : Slot)
  | locked (c : Slot) (junk junk' : Node (Option Slot)) (n : Option Addr)

/-- One move.  A process that has entered is allowed the moves of the table too, which makes more runs
than there are. -/
def step (s : Sys) : Act → Option Sys
  | .kernel a => (Ptable.step s.k a).map fun k => { s with k }
  | .enter c =>
    if s.k.Free c then some { initOnce s with entered := Function.update s.entered c true } else none
  | .locked c junk junk' n =>
    if s.k.Free c ∧ s.entered c = true then
      match locked s c junk junk' n with
      | .swtch _ t => some { t with entered := Function.update s.entered c false }
      | _ => none
    else none

/-- After `userinit`.  `thQ` points to a queue, whatever is in it. -/
def boot (w : World (Option Slot)) : Sys := ⟨Ptable.boot, w, 0, fun _ => false⟩

/-! ## 2. What it is for -/

/-- The process can be switched to. -/
def Fit (s : Sys) (c p : Slot) : Prop := (s.k.proc p).state = .runnable ∧ p ≠ c

/-- The processes in the queue. -/
def procs (f : Fifo (Option Slot)) : List (Option Slot) := f.items.map Prod.snd

/-- What a call by `c` is to do, with the processes of `f` in `thQ`: it switches to a process that
can run, with the caller left `RUNNABLE` and once in the queue, and nobody else lost from it; or, if
there is no such process, the caller goes on. -/
def Ok (s : Sys) (f : Fifo (Option Slot)) (c : Slot) : Result → Prop
  | .fault => False
  | .continues t => (t.k.proc c).state = .running ∧ ∀ p, some p ∈ procs f → ¬ Fit s c p
  | .swtch p t =>
    Fit s c p ∧ (t.k.proc c).state = .runnable ∧
      ∃ g, Rep t.thQ g ∧ (procs g).count (some c) = 1 ∧
        ∀ x, x ≠ c → x ≠ p → some x ∈ procs f → some x ∈ procs g

/-- The queue without its first process, if that has the caller's pid. -/
def skip (s : Sys) (c : Slot) : List (Option Slot) → List (Option Slot)
  | some p :: qs => if (s.k.proc p).pid = (s.k.proc c).pid then qs else some p :: qs
  | qs => qs

/-- What has to hold for that: the queue has been initialised, `kalloc2` has a node, and the process
the queue gives is there, can run and is not the caller; the caller is not behind it in the queue,
and whoever was skipped is the caller, or queued once more. -/
def Ready (s : Sys) (f : Fifo (Option Slot)) (c : Slot) (n : Option Addr) : Prop :=
  s.initedQ ≠ 0 ∧ n.isSome = true ∧ ∃ p rest, skip s c (procs f) = some p :: rest ∧ Fit s c p ∧
    some c ∉ rest ∧ ∀ x, (procs f).head? = some (some x) → (s.k.proc x).pid = (s.k.proc c).pid →
      x = c ∨ x = p ∨ some x ∈ rest

/-! ## 3. The queue -/

variable {s t : Sys} {f g : Fifo (Option Slot)} {c p : Slot} {w : World (Option Slot)}
  {junk junk' : Node (Option Slot)} {n : Option Addr} {v : Option Slot} {vs : List (Option Slot)}

theorem pop_nil (h : Rep w f) (hnil : procs f = []) (junk : Node (Option Slot)) :
    queue2.pop junk w = some (none, w) := by
  have hempty : Queues.empty w = true := by
    rw [h.empty_eq, List.map_eq_nil_iff.mp hnil]
    rfl
  change Queues.pop none junk w = _
  rw [Queues.pop, if_pos hempty]

theorem pop_cons (h : Rep w f) (hcons : procs f = v :: vs) (junk : Node (Option Slot)) :
    ∃ w' g, queue2.pop junk w = some (v, w') ∧ Rep w' g ∧ procs g = vs := by
  obtain ⟨⟨a, v⟩, rest, hitems, rfl, rfl⟩ := List.map_eq_cons_iff.mp hcons
  obtain ⟨w', hw', hrep⟩ := h.pop hitems none junk
  exact ⟨w', _, hw', hrep, rfl⟩

/-- The first of the two `pop_q2` is enough, or the second one decides. -/
theorem popTwice_some {q : Slot} (h : Rep s.thQ f) (hprocs : procs f = some q :: vs)
    (junk junk' : Node (Option Slot)) :
    ∃ w g, Rep w g ∧ procs g = vs ∧ popTwice s c junk junk' =
      if (s.k.proc q).pid = (s.k.proc c).pid then queue2.pop junk' w else some (some q, w) := by
  obtain ⟨w, g, hw, hrep, hg⟩ := pop_cons h hprocs junk
  refine ⟨w, g, hrep, hg, ?_⟩
  rw [popTwice, hw]

/-- And a null pointer if there is no such process. -/
theorem popTwice_nil (h : Rep s.thQ f) (hskip : ∀ p vs, skip s c (procs f) ≠ some p :: vs)
    (junk junk' : Node (Option Slot)) (p : Slot) (w : World (Option Slot)) :
    popTwice s c junk junk' ≠ some (some p, w) := by
  match hprocs : procs f with
  | [] =>
    rw [popTwice, pop_nil h hprocs]
    exact nofun
  | none :: qs =>
    obtain ⟨w', g, hw', -⟩ := pop_cons h hprocs junk
    rw [popTwice, hw']
    exact nofun
  | some q :: qs =>
    obtain ⟨w', g, hrep, rfl, hpop⟩ := popTwice_some (c := c) h hprocs junk junk'
    rw [hpop]
    rw [hprocs] at hskip
    by_cases hpid : (s.k.proc q).pid = (s.k.proc c).pid
    · rw [if_pos hpid]
      rw [skip, if_pos hpid] at hskip
      match hprocs' : procs g with
      | [] =>
        rw [pop_nil hrep hprocs']
        exact nofun
      | none :: qs =>
        obtain ⟨w'', g', hw'', -⟩ := pop_cons hrep hprocs' junk'
        rw [hw'']
        exact nofun
      | some q' :: qs => exact absurd hprocs' (hskip q' qs)
    · rw [skip, if_neg hpid] at hskip
      exact absurd rfl (hskip q _)

/-! ## 4. One call -/

theorem locked_fault (h : ∀ p w, popTwice s c junk junk' ≠ some (some p, w)) :
    locked s c junk junk' n = .fault := by
  unfold locked
  split
  next p w hpop => exact absurd hpop (h p w)
  next => rfl

/-- Nothing has ever been put into the queue. -/
structure Fresh (s : Sys) : Prop where
  apart : s.thQ.used.Pairwise Addr.Apart
  empty : s.initedQ ≠ 0 → ∃ f, Rep s.thQ f ∧ procs f = []
  entered : ∀ c, s.entered c = true → s.initedQ ≠ 0

theorem Fresh.initOnce (h : Fresh s) : Fresh (initOnce s) ∧ (ThreadYield.initOnce s).initedQ ≠ 0 := by
  unfold ThreadYield.initOnce
  split
  next hinit =>
    have hone : s.initedQ + 1 ≠ 0 := by rw [hinit]; decide
    have hnil : Rep (queue2.init s.thQ) ⟨[], s.thQ.freed, s.thQ.outs⟩ := .of_nil rfl h.apart rfl rfl
    exact ⟨⟨h.apart, fun _ => ⟨_, hnil, rfl⟩, fun _ _ => hone⟩, hone⟩
  next hinit => exact ⟨h, hinit⟩

theorem Fresh.locked_fault (h : Fresh s) (hinit : s.initedQ ≠ 0) :
    locked s c junk junk' n = .fault := by
  obtain ⟨f, hrep, hnil⟩ := h.empty hinit
  refine ThreadYield.locked_fault fun p w => popTwice_nil hrep (fun p vs => ?_) junk junk' p w
  rw [hnil]
  exact nofun

theorem Fresh.step {a : Act} (h : Fresh s) (ht : step s a = some t) : Fresh t := by
  cases a with
  | kernel a =>
    obtain ⟨k, -, rfl⟩ := Option.map_eq_some_iff.mp ht
    exact ⟨h.apart, h.empty, h.entered⟩
  | enter c =>
    rw [ThreadYield.step] at ht
    split at ht
    · obtain rfl := Option.some.inj ht
      exact ⟨h.initOnce.1.apart, h.initOnce.1.empty, fun _ _ => h.initOnce.2⟩
    · exact nomatch ht
  | locked c junk junk' n =>
    rw [ThreadYield.step] at ht
    split at ht
    next henabled =>
      -- The queue is empty: there is no such step.
      rw [h.locked_fault (h.entered c henabled.2)] at ht
      exact nomatch ht
    next => exact nomatch ht

/-- Two processes, of which the second waits in `thQ`. -/
def waiting : Sys where
  k := { Ptable.boot with proc := fun p =>
    if p = 0 then { Ptable.Proc.zero with state := .running, pid := 1 }
    else if p = 1 then { Ptable.Proc.zero with state := .runnable, pid := 2 }
    else Ptable.Proc.zero }
  thQ := ⟨⟨1, some (Queues.addr 0), some (Queues.addr 0)⟩, fun _ => ⟨some 1, none⟩,
    [Queues.addr 0], [], []⟩
  initedQ := 1
  entered _ := false

end Xv6.ThreadYield
