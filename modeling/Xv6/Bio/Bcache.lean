/-
# The buffer cache as `bio.c` has it: an array, two rings of pointers, and processes that sleep

`bcache.head` is the sentinel of a circular doubly linked list through all `NBUF` buffers; `bget`
walks it forwards for the sector's buffer and backwards for one to take over, and `brelse` moves a
buffer to the front.

Any number of processes call `bread`, `bwrite`, `brelse` and the last statement of `log_write`, and
the disk interrupts.  What runs without another in between is a section under `bcache.lock` or
`idelock`, or the few statements around one, so every interleaving at the SLEEP points is among the
runs: `bget` sleeps on a busy buffer and starts its search all over again when it is woken; `iderw`
sleeps until the interrupt has come.

A process passes `bwrite`, `log_write` and `brelse` only buffers that `bread` gave it and that it
has not passed to `brelse`; `held` records them, with what they were asked for.  The data in the
buffers is left out: none of these functions looks at it.
-/
import Xv6.Runs
import Xv6.Sentinel

namespace Xv6.Bio

open Xv6.Sentinel

/-! ## 1. Buffers -/

/-- `uint` -/
abbrev Uint := BitVec 32

/-- `NBUF` -/
abbrev NBUF : Nat := 10

/-- `struct buf`, `flags` bit by bit.  The pointers are in `Bcache.links`. -/
structure Buf where
  busy : Bool
  valid : Bool
  dirty : Bool
  dev : Uint
  sector : Uint
deriving DecidableEq, Repr

/-- `b->dev == dev && b->sector == sector` -/
def Buf.holds (b : Buf) (dev sector : Uint) : Bool := b.dev == dev && b.sector == sector

/-- `(b->flags & (B_VALID|B_DIRTY)) == B_VALID` -/
def Buf.synced (b : Buf) : Bool := b.valid && !b.dirty

/-- What a process got from `bread`, and for which `dev` and `sector`. -/
structure Handle where
  buf : Fin NBUF
  dev : Uint
  sector : Uint
deriving DecidableEq, Repr

/-- Where a process is. -/
inductive Pc where
  /-- in none of the functions -/
  | out
  /-- at `loop:` in `bget` -/
  | bget (dev sector : Uint)
  /-- in `sleep(b, &bcache.lock)` -/
  | bgetSleep (b : Fin NBUF) (dev sector : Uint)
  /-- in `bread`, `bget` having returned `b` -/
  | bread (b : Fin NBUF)
  /-- at the start of `iderw` -/
  | iderw (b : Fin NBUF)
  /-- in `sleep(b, &idelock)` -/
  | iderwSleep (b : Fin NBUF)
  /-- woken, at the test of `while` in `iderw` -/
  | iderwLoop (b : Fin NBUF)
  /-- at the start of `brelse` -/
  | brelse (b : Fin NBUF)
deriving DecidableEq, Repr

/-- The buffer that the process has got hold of in the function it is in. -/
def Pc.buf : Pc → Option (Fin NBUF)
  | .out | .bget _ _ | .bgetSleep _ _ _ => none
  | .bread b | .iderw b | .iderwSleep b | .iderwLoop b | .brelse b => some b

/-- `wakeup(b)`, to a process that may be asleep on `b`. -/
def Pc.wake (b : Fin NBUF) : Pc → Pc
  | .bgetSleep c dev sector => if c = b then .bget dev sector else .bgetSleep c dev sector
  | .iderwSleep c => if c = b then .iderwLoop c else .iderwSleep c
  | pc => pc

@[simp] theorem Pc.buf_wake (b : Fin NBUF) (pc : Pc) : (pc.wake b).buf = pc.buf := by
  cases pc with
  | bgetSleep c dev sector => simp only [wake]; split <;> rfl
  | iderwSleep c => simp only [wake]; split <;> rfl
  | _ => rfl

/-- The panics. -/
inductive Panic where
  /-- "bget: no buffers" -/
  | noBuffers
  /-- "bwrite" -/
  | bwrite
  /-- "brelse" -/
  | brelse
  /-- "iderw: buf not busy" -/
  | notBusy
  /-- "iderw: nothing to do" -/
  | nothingToDo
  /-- "iderw: ide disk 1 not present" -/
  | noDisk1
deriving DecidableEq, Repr

/-- `bcache`, `idequeue` (the list through `qnext`), `havedisk1`, and the processes. -/
structure Bcache (ρ : Type) where
  buf : Fin NBUF → Buf
  links : Links (Fin NBUF)
  idequeue : List (Fin NBUF)
  havedisk1 : Bool
  pc : ρ → Pc
  held : ρ → List Handle
  halted : Option Panic

variable {ρ : Type} [DecidableEq ρ]

namespace Bcache

/-- Change a buffer. -/
def set (s : Bcache ρ) (b : Fin NBUF) (f : Buf → Buf) : Bcache ρ :=
  { s with buf := Function.update s.buf b (f (s.buf b)) }

/-- The process goes on somewhere else. -/
def goto (s : Bcache ρ) (p : ρ) (pc : Pc) : Bcache ρ :=
  { s with pc := Function.update s.pc p pc }

/-- `panic` -/
def panic (s : Bcache ρ) (e : Panic) : Bcache ρ := { s with halted := some e }

omit [DecidableEq ρ] in
/-- `wakeup(b)` -/
def wakeup (s : Bcache ρ) (b : Fin NBUF) : Bcache ρ := { s with pc := fun q => (s.pc q).wake b }

/-! ## 2. The functions -/

/-- `binit`.  The pointers of a buffer that is not in the list yet are of no importance. -/
def binit (havedisk1 : Bool) : Bcache ρ where
  buf := fun _ => ⟨false, false, false, -1, 0⟩
  links := (List.finRange NBUF).foldl Links.push Links.empty
  idequeue := []
  havedisk1 := havedisk1
  pc := fun _ => .out
  held := fun _ => []
  halted := none

/-- `bget` returns `b`, with its new flags and sector, to `bread`. -/
def give (s : Bcache ρ) (p : ρ) (b : Fin NBUF) (dev sector : Uint) (f : Buf → Buf) : Bcache ρ :=
  let s := (s.set b f).goto p (.bread b)
  { s with held := Function.update s.held p (⟨b, dev, sector⟩ :: s.held p) }

/-- `bget`, from `loop:` until it returns or sleeps.  `none` would be a walk that does not come
back to `&bcache.head`. -/
def bget (s : Bcache ρ) (p : ρ) (dev sector : Uint) : Option (Bcache ρ) :=
  match walk (fun b => (s.buf b).holds dev sector) s.links.next (NBUF + 1) (s.links.next none) with
  | none => none
  | some (some b) =>
    if (s.buf b).busy then some (s.goto p (.bgetSleep b dev sector))
    else some (s.give p b dev sector fun x => { x with busy := true })
  | some none =>
    -- not cached; recycle some non-busy and clean buffer
    match walk (fun b => !(s.buf b).busy && !(s.buf b).dirty) s.links.prev (NBUF + 1)
        (s.links.prev none) with
    | none => none
    | some (some b) => some (s.give p b dev sector fun _ => ⟨true, false, false, dev, sector⟩)
    | some none => some (s.panic .noBuffers)

/-- `bread`, once it has its buffer. -/
def bread (s : Bcache ρ) (p : ρ) (b : Fin NBUF) : Bcache ρ :=
  if (s.buf b).valid then s.goto p .out else s.goto p (.iderw b)

/-- The `while` of `iderw`: return, or sleep. -/
def iderwLoop (s : Bcache ρ) (p : ρ) (b : Fin NBUF) : Bcache ρ :=
  if (s.buf b).synced then s.goto p .out else s.goto p (.iderwSleep b)

/-- `iderw`, until it returns or sleeps. -/
def iderw (s : Bcache ρ) (p : ρ) (b : Fin NBUF) : Bcache ρ :=
  if (s.buf b).busy = false then s.panic .notBusy
  else if (s.buf b).synced then s.panic .nothingToDo
  else if (s.buf b).dev ≠ 0 ∧ s.havedisk1 = false then s.panic .noDisk1
  else iderwLoop { s with idequeue := s.idequeue ++ [b] } p b

/-- `bwrite`, until it calls `iderw`. -/
def bwrite (s : Bcache ρ) (p : ρ) (b : Fin NBUF) : Bcache ρ :=
  if (s.buf b).busy = false then s.panic .bwrite
  else (s.set b fun x => { x with dirty := true }).goto p (.iderw b)

/-- The last statement of `log_write`: `b->flags |= B_DIRTY`. -/
def logWrite (s : Bcache ρ) (b : Fin NBUF) : Bcache ρ := s.set b fun x => { x with dirty := true }

/-- `brelse` -/
def brelse (s : Bcache ρ) (p : ρ) (b : Fin NBUF) : Bcache ρ :=
  if (s.buf b).busy = false then s.panic .brelse
  else
    let s := { s with links := (s.links.unlink b).push b }
    let s := (s.set b fun x => { x with busy := false }).wakeup b
    let s := s.goto p .out
    { s with held := Function.update s.held p ((s.held p).filter fun h => h.buf ≠ b) }

omit [DecidableEq ρ] in
/-- `ideintr` -/
def ideintr (s : Bcache ρ) : Bcache ρ :=
  match s.idequeue with
  | [] => s
  | b :: queue =>
    let s := { s with idequeue := queue }
    (s.set b fun x => { x with valid := true, dirty := false }).wakeup b

end Bcache

/-! ## 3. Runs -/

/-- What can happen next: a process in none of the functions calls one, a process goes on in the
one it is in, or the disk interrupts. -/
inductive Act (ρ : Type) where
  | bread (p : ρ) (dev sector : Uint)
  | bwrite (p : ρ) (b : Fin NBUF)
  | logWrite (p : ρ) (b : Fin NBUF)
  | brelse (p : ρ) (b : Fin NBUF)
  | move (p : ρ)
  | ideintr
deriving DecidableEq, Repr

namespace Bcache

/-- The process can call a function on this buffer. -/
def canUse (s : Bcache ρ) (p : ρ) (b : Fin NBUF) : Bool :=
  s.pc p == .out && (s.held p).any fun h => h.buf == b

/-- The process goes on in the function it is in. -/
def move (s : Bcache ρ) (p : ρ) : Option (Bcache ρ) :=
  match s.pc p with
  | .out | .bgetSleep _ _ _ | .iderwSleep _ => none
  | .bget dev sector => s.bget p dev sector
  | .bread b => some (s.bread p b)
  | .iderw b => some (s.iderw p b)
  | .iderwLoop b => some (s.iderwLoop p b)
  | .brelse b => some (s.brelse p b)

/-- One move of a machine that has not panicked. -/
def step (s : Bcache ρ) (a : Act ρ) : Option (Bcache ρ) :=
  match s.halted with
  | some _ => none
  | none =>
    match a with
    | .bread p dev sector => if s.pc p = .out then some (s.goto p (.bget dev sector)) else none
    | .bwrite p b => if s.canUse p b then some (s.bwrite p b) else none
    | .logWrite p b => if s.canUse p b then some (s.logWrite b) else none
    | .brelse p b => if s.canUse p b then some (s.goto p (.brelse b)) else none
    | .move p => s.move p
    | .ideintr => some s.ideintr

end Bcache

end Xv6.Bio
