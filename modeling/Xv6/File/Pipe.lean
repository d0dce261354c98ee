/-
# Pipes (pipe.c)

`pipewrite` and `piperead` hold the pipe's lock except where they sleep, so others get in exactly at
the sleeps: a call is cut there.  Each piece runs from the start of the call, or from the return of
`sleep`, to the next sleep or to the return of the call.  A sleeping process may go on at any time
(`wakeup` sends it on, and so does `kill`), finds out for itself whether there is a reason to, and
sleeps again if there is none; so the calls of `wakeup` are not modelled here.

What a process reads from its own memory (`addr`) and whether it has been killed can have changed
while it slept; both come with the piece.  Lengths are signed, as in the source, and so may be
negative.

Results: in every run of any number of writers, readers and closes, what the reads returned, put
together, is a prefix of what the writes stored, the ring never holds more than PIPESIZE bytes and
no byte is lost from it, and a read returns 0 only at the end of the stream (`pipe_is_fifo`).
-/
import Xv6.Runs
import Xv6.Ring

namespace Xv6.File

open Xv6.Ring

abbrev Byte := BitVec 8

/-- A slot of the process table. -/
abbrev Pid := Nat

/-! ## 1. The source's functions -/

/-- PIPESIZE. -/
abbrev pipesize : Nat := 512

/-- `struct pipe`, its lock apart. -/
structure Pipe where
  data : Fin pipesize → Byte
  nread : BitVec 32
  nwrite : BitVec 32
  readopen : Bool
  writeopen : Bool

namespace Pipe

/-- What `pipealloc` makes of a page with `junk` on it. -/
def fresh (junk : Fin pipesize → Byte) : Pipe := ⟨junk, 0, 0, true, true⟩

/-- `p->nwrite == p->nread + PIPESIZE`. -/
def full (p : Pipe) : Bool := p.nwrite = p.nread + BitVec.ofNat 32 pipesize

/-- `p->nread == p->nwrite`. -/
def empty (p : Pipe) : Bool := p.nread = p.nwrite

/-- `p->data[p->nwrite++ % PIPESIZE] = b`. -/
def store (p : Pipe) (b : Byte) : Pipe :=
  { p with data := Function.update p.data (slot pipesize p.nwrite) b, nwrite := p.nwrite + 1 }

/-- `p->data[p->nread++ % PIPESIZE]`. -/
def take (p : Pipe) : Byte × Pipe :=
  (p.data (slot pipesize p.nread), { p with nread := p.nread + 1 })

/-- `pipeclose(p, writable)`, up to the test whether the page is to be freed. -/
def close (p : Pipe) (writable : Bool) : Pipe :=
  if writable then { p with writeopen := false } else { p with readopen := false }

/-- Both ends are closed, and `pipeclose` frees the page. -/
def closed (p : Pipe) : Bool := p.readopen = false ∧ p.writeopen = false

end Pipe

/-- How a piece of a call ends: the call returns, or the process sleeps, to go on with byte `i`. -/
inductive End where
  | returns (r : Int)
  | sleeps (i : Nat)
deriving DecidableEq

/-- `pipewrite`'s loop, `left` bytes before its end, from byte `i` on: the pipe, the bytes stored,
and how the piece ends. -/
def writeLoop (addr : Nat → Byte) (killed : Bool) (n : Int) :
    (left i : Nat) → Pipe → Pipe × List Byte × End
  | 0, _, p => (p, [], .returns n)
  | left + 1, i, p =>
    if p.full then
      if p.readopen = false ∨ killed then (p, [], .returns (-1)) else (p, [], .sleeps i)
    else
      let rest := writeLoop addr killed n left (i + 1) (p.store (addr i))
      (rest.1, addr i :: rest.2.1, rest.2.2)

/-- `pipewrite(p, addr, n)`, or what is left of it when it is at byte `i`. -/
def pipewrite (p : Pipe) (addr : Nat → Byte) (n : Int) (i : Nat) (killed : Bool) :
    Pipe × List Byte × End :=
  writeLoop addr killed n (n.toNat - i) i p

/-- `piperead`'s copy loop, `left` bytes before its end. -/
def readLoop : (left : Nat) → Pipe → Pipe × List Byte
  | 0, p => (p, [])
  | left + 1, p =>
    if p.empty then (p, [])
    else
      let rest := readLoop left p.take.2
      (rest.1, p.take.1 :: rest.2)

/-- `piperead(p, addr, n)`, from its start or from the return of `sleep`. -/
def piperead (p : Pipe) (n : Int) (killed : Bool) : Pipe × List Byte × End :=
  if p.empty ∧ p.writeopen then
    if killed then (p, [], .returns (-1)) else (p, [], .sleeps 0)
  else
    let copied := readLoop n.toNat p
    (copied.1, copied.2, .returns copied.2.length)

/-! ## 2. A pipe and those who use it -/

/-- A call in progress. -/
inductive InCall where
  | write (n : Int) (i : Nat)
  | read (n : Int)
deriving DecidableEq

/-- A call that has returned. -/
inductive Return where
  | write (n r : Int)
  | read (n r : Int)
deriving DecidableEq

/-- The pipe, the calls that sleep in it, the bytes stored by the writes so far, what each read
that has returned has returned, and the call that returned in the last move, if one did.  Once
freed, the page is not a pipe any more. -/
structure System where
  pipe : Pipe
  freed : Bool
  asleep : Pid → Option InCall
  stored : List Byte
  reads : List (List Byte)
  last : Option (Pid × Return)

/-- What can happen: a call is made, a sleeping call goes on, an end is closed for good. -/
inductive Event where
  | write (p : Pid) (n : Int) (addr : Nat → Byte) (killed : Bool)
  | read (p : Pid) (n : Int) (killed : Bool)
  | wake (p : Pid) (addr : Nat → Byte) (killed : Bool)
  | close (writable : Bool)

namespace System

/-- `pipealloc` has just made the pipe. -/
def start (junk : Fin pipesize → Byte) : System :=
  ⟨Pipe.fresh junk, false, fun _ => none, [], [], none⟩

/-- A piece of a `pipewrite` of `n` bytes, from byte `i`. -/
def write (s : System) (p : Pid) (n : Int) (i : Nat) (addr : Nat → Byte) (killed : Bool) : System :=
  let w := pipewrite s.pipe addr n i killed
  match w.2.2 with
  | .returns r =>
    { s with pipe := w.1, stored := s.stored ++ w.2.1, asleep := Function.update s.asleep p none,
             last := some (p, .write n r) }
  | .sleeps i =>
    { s with pipe := w.1, stored := s.stored ++ w.2.1,
             asleep := Function.update s.asleep p (some (.write n i)), last := none }

/-- A piece of a `piperead` of `n` bytes. -/
def read (s : System) (p : Pid) (n : Int) (killed : Bool) : System :=
  let r := piperead s.pipe n killed
  match r.2.2 with
  | .returns i =>
    { s with pipe := r.1, reads := s.reads ++ [r.2.1], asleep := Function.update s.asleep p none,
             last := some (p, .read n i) }
  | .sleeps _ =>
    { s with pipe := r.1, asleep := Function.update s.asleep p (some (.read n)), last := none }

/-- One move.  A process that sleeps in a call makes no other call. -/
def step (s : System) : Event → Option System
  | .write p n addr killed =>
    if s.freed = false ∧ s.asleep p = none then some (s.write p n 0 addr killed) else none
  | .read p n killed =>
    if s.freed = false ∧ s.asleep p = none then some (s.read p n killed) else none
  | .wake p addr killed =>
    match s.freed, s.asleep p with
    | false, some (.write n i) => some (s.write p n i addr killed)
    | false, some (.read n) => some (s.read p n killed)
    | _, _ => none
  | .close writable =>
    if s.freed = false then
      let pipe := s.pipe.close writable
      some { s with pipe := pipe, freed := pipe.closed, last := none }
    else none

/-- All the bytes the reads returned, in order. -/
def taken (s : System) : List Byte := s.reads.flatten

end System

/-! ## 3. The loops, against the histories -/

/-- The ring of the pipe is what the histories say. -/
def Pipe.Holds (p : Pipe) (taken stored : List Byte) : Prop :=
  Represents p.data p.nread p.nwrite taken stored

theorem pipesize_dvd : pipesize ∣ 2 ^ 32 := by decide

theorem pipesize_lt : pipesize < 2 ^ 32 := by decide

namespace Pipe

variable {p : Pipe} {taken stored : List Byte}

theorem empty_iff (h : p.Holds taken stored) : p.empty = true ↔ taken = stored := by
  rw [empty, decide_eq_true_iff]
  exact Represents.empty_iff h pipesize_lt

theorem Holds.store (h : p.Holds taken stored) (hfull : p.full = false) (b : Byte) :
    (p.store b).Holds taken (stored ++ [b]) :=
  Represents.push h pipesize_dvd pipesize_lt (of_decide_eq_false hfull) b

theorem Holds.take (h : p.Holds taken stored) (hempty : p.empty = false) :
    p.take.2.Holds (taken ++ [p.take.1]) stored :=
  Represents.pop h pipesize_dvd (of_decide_eq_false hempty)

theorem Holds.close (h : p.Holds taken stored) (writable : Bool) :
    (p.close writable).Holds taken stored := by
  cases writable <;> exact h

end Pipe

/-- A piece of `pipewrite` stores its bytes after the others. -/
theorem holds_writeLoop (addr : Nat → Byte) (killed : Bool) (n : Int) {taken : List Byte} :
    ∀ (left i : Nat) (p : Pipe) (stored : List Byte), p.Holds taken stored →
      (writeLoop addr killed n left i p).1.Holds taken
        (stored ++ (writeLoop addr killed n left i p).2.1)
  | 0, _, p, stored, h => by simpa only [writeLoop, List.append_nil] using h
  | left + 1, i, p, stored, h => by
    unfold writeLoop
    split
    · split <;> simpa only [List.append_nil] using h
    · rename_i hfull
      have hrest := holds_writeLoop addr killed n left (i + 1) _ _
        (h.store (Bool.eq_false_iff.mpr hfull) (addr i))
      rwa [List.append_assoc, List.singleton_append] at hrest

/-- `piperead`'s loop takes what it returns from the front, and stops early only at the end. -/
theorem holds_readLoop {stored : List Byte} :
    ∀ (left : Nat) (p : Pipe) (taken : List Byte), p.Holds taken stored →
      (readLoop left p).1.Holds (taken ++ (readLoop left p).2) stored
  | 0, p, taken, h => by simpa only [readLoop, List.append_nil] using h
  | left + 1, p, taken, h => by
    unfold readLoop
    split
    · simpa only [List.append_nil] using h
    · rename_i hempty
      have hrest := holds_readLoop left _ _ (h.take (Bool.eq_false_iff.mpr hempty))
      rwa [List.append_assoc, List.singleton_append] at hrest

theorem readLoop_ne_nil {n : Int} (hn : 0 < n) {p : Pipe} (hne : p.empty = false) :
    (readLoop n.toNat p).2 ≠ [] := by
  obtain ⟨k, hk⟩ : ∃ k, n.toNat = k + 1 := ⟨n.toNat - 1, by omega⟩
  rw [hk]
  unfold readLoop
  simp [hne]

theorem readLoop_of_empty {p : Pipe} (he : p.empty = true) (left : Nat) :
    readLoop left p = (p, []) := by
  cases left with
  | zero => rfl
  | succ left => rw [readLoop, if_pos he]

/-! ## 4. Whole runs -/

/-- What holds of the system in every state. -/
structure Fifo (s : System) : Prop where
  holds : s.pipe.Holds s.taken s.stored
  eof : ∀ p n, s.last = some (p, .read n 0) → 0 < n →
    s.pipe.writeopen = false ∧ s.taken = s.stored

theorem fifo_start (junk : Fin pipesize → Byte) : Fifo (System.start junk) :=
  ⟨Represents.empty junk, fun _ _ h => by cases h⟩

theorem Fifo.write {s : System} (h : Fifo s) (p : Pid) (n : Int) (i : Nat) (addr : Nat → Byte)
    (killed : Bool) : Fifo (s.write p n i addr killed) := by
  have hw : (pipewrite s.pipe addr n i killed).1.Holds s.taken
      (s.stored ++ (pipewrite s.pipe addr n i killed).2.1) := holds_writeLoop addr killed n _ i _ _ h.holds
  simp only [System.write]
  split
  · exact ⟨hw, fun _ _ hl => by cases hl⟩
  · exact ⟨hw, fun _ _ hl => by cases hl⟩

theorem Fifo.read {s : System} (h : Fifo s) (p : Pid) (n : Int) (killed : Bool) :
    Fifo (s.read p n killed) := by
  have hflat : ∀ bytes, (s.reads ++ [bytes]).flatten = s.taken ++ bytes := fun bytes => by
    rw [List.flatten_append, List.flatten_singleton, System.taken]
  simp only [System.read, piperead]
  by_cases hwait : s.pipe.empty ∧ s.pipe.writeopen
  · -- nothing to read yet
    simp only [if_pos hwait]
    cases killed
    · exact ⟨h.holds, fun _ _ hl => by cases hl⟩
    · refine ⟨?_, fun _ _ hl _ => by cases hl⟩
      show s.pipe.Holds (s.reads ++ [[]]).flatten s.stored
      rw [hflat, List.append_nil]
      exact h.holds
  · simp only [if_neg hwait]
    have hr := holds_readLoop n.toNat s.pipe s.taken h.holds
    refine ⟨?_, fun q m hl hm => ?_⟩
    · show (readLoop n.toNat s.pipe).1.Holds (s.reads ++ [(readLoop n.toNat s.pipe).2]).flatten
        s.stored
      rw [hflat]
      exact hr
    · -- a read of 0 bytes found the pipe empty, and did not wait because no writer is left
      obtain ⟨rfl, hlen⟩ : n = m ∧ ((readLoop n.toNat s.pipe).2.length : Int) = 0 := by
        simp only [Option.some.injEq, Prod.mk.injEq, Return.read.injEq] at hl
        exact hl.2
      have hnil : (readLoop n.toNat s.pipe).2 = [] := List.eq_nil_of_length_eq_zero (by omega)
      have hempty : s.pipe.empty = true := by
        by_contra hne
        exact readLoop_ne_nil hm (Bool.eq_false_iff.mpr hne) hnil
      have hclosed : s.pipe.writeopen = false := by
        simpa only [hempty, true_and, Bool.not_eq_true] using hwait
      have htaken := (Pipe.empty_iff h.holds).mp hempty
      refine ⟨?_, ?_⟩
      · show (readLoop n.toNat s.pipe).1.writeopen = false
        rw [readLoop_of_empty hempty]
        exact hclosed
      · show (s.reads ++ [(readLoop n.toNat s.pipe).2]).flatten = s.stored
        rw [hflat, hnil, List.append_nil, htaken]

theorem fifo_step (s : System) (e : Event) (t : System) (h : Fifo s) (ht : s.step e = some t) :
    Fifo t := by
  cases e with
  | write p n addr killed =>
    simp only [System.step] at ht
    split at ht
    · cases ht
      exact h.write p n 0 addr killed
    · cases ht
  | read p n killed =>
    simp only [System.step] at ht
    split at ht
    · cases ht
      exact h.read p n killed
    · cases ht
  | wake p addr killed =>
    simp only [System.step] at ht
    split at ht
    · cases ht
      exact h.write p _ _ addr killed
    · cases ht
      exact h.read p _ killed
    · cases ht
  | close writable =>
    simp only [System.step] at ht
    split at ht
    · cases ht
      exact ⟨h.holds.close writable, fun _ _ hl => by cases hl⟩
    · cases ht

/-- **A pipe is a FIFO byte stream.**  In every state of every run of writes, reads and closes, by
any number of processes and with any lengths, from the moment `pipealloc` made the pipe: what the
reads returned is a prefix of what the writes stored; the counters, which wrap, are at most
PIPESIZE apart; every byte stored and not read is in its slot; and a read of more than 0 bytes has
returned 0 only if the write end was closed and everything stored had been read. -/
theorem pipe_is_fifo (junk : Fin pipesize → Byte) (es : List Event) (s : System)
    (hr : Runs.run System.step (System.start junk) es = some s) :
    s.taken <+: s.stored ∧ (s.pipe.nwrite - s.pipe.nread).toNat ≤ pipesize ∧
    (∀ k (hk : k < s.stored.length), s.taken.length ≤ k →
      s.pipe.data (Fin.ofNat pipesize k) = s.stored[k]) ∧
    ∀ p n, s.last = some (p, .read n 0) → 0 < n →
      s.pipe.writeopen = false ∧ s.taken = s.stored := by
  have h : Fifo s := Runs.run_always fifo_step es _ s (fifo_start junk) hr
  exact ⟨h.holds.order, h.holds.toNat_sub_le pipesize_lt, h.holds.unread, h.eof⟩

/-- A reader waits, gets two of the three bytes a writer stores, then the third, and after the
writer has closed its end, the end of the stream. -/
def readToEnd : List Event :=
  [.read 2 2 false, .write 1 3 (fun i => BitVec.ofNat 8 i) false, .wake 2 (fun _ => 0) false,
    .read 2 5 false, .close true, .read 2 5 false]

theorem pipe_is_fifo_to_the_end :
    ∃ s, Runs.run System.step (System.start fun _ => 0) readToEnd = some s ∧
      s.reads = [[0, 1], [2], []] ∧ s.last = some (2, .read 5 0) ∧
      s.pipe.writeopen = false ∧ s.taken = s.stored := by
  have hrun : ((Runs.run System.step (System.start fun _ => 0) readToEnd).any fun s =>
      s.reads = [[0, 1], [2], []] ∧ s.last = some (2, .read 5 0)) = true := by decide +kernel
  obtain ⟨s, hs, h⟩ := Option.any_eq_true _ _ |>.mp hrun
  obtain ⟨hreads, hlast⟩ := of_decide_eq_true h
  obtain ⟨_, _, _, heof⟩ := pipe_is_fifo (fun _ => 0) readToEnd s hs
  exact ⟨s, hs, hreads, hlast, heof 2 5 hlast (by decide)⟩

end Xv6.File
