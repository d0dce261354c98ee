/-
# The file system's state, and the blocks and inodes on its disk (fs.c, file.h, fs.h)

The state is what the code of fs.c and file.c works on: the inodes and blocks of the disk as the
buffer cache shows them, the bitmap, the inode cache, the file table, and per process its current
directory and open files.  What the buffer cache and the log do underneath is the subject of `Bio`
and `Log`; here `log_write` asks who is in a transaction and how much the log has room for.

Three fields are not in the source.  `owner` is the process behind `log.busy`: who called
`begin_trans` last.  `calls` records every call of `log_write`, with the process that made it and
the process whose transaction was open.  `handed` records the blocks `balloc` handed out.  No
code reads `calls` or `handed`.

The inode cache is a function of the inode number: an entry of the source's table whose `ref` is
0 belongs to no inode, and no two entries with a positive `ref` hold the same one.  `inUse` counts
the entries with a positive `ref`, of which there are at most NINODE.
-/
import Xv6.Bytes
import Xv6.Param
import Xv6.Threads

namespace Xv6.Fs

open Xv6.Bytes Xv6.Threads

/-! ## 1. Types -/

/-- A slot of the process table (NPROC). -/
abbrev Pid := Fin 64

/-- An inode number. -/
abbrev Inum := Nat

/-- A slot of the file table (NFILE). -/
abbrev FileId := Fin 100

/-- A file descriptor (NOFILE). -/
abbrev Fd := Fin 16

/-- A disk block (BSIZE bytes). -/
abbrev Block := Blob 512

/-- `type` of an inode; `free` is the source's 0. -/
inductive FileType where
  | free
  | dir
  | file
  | dev
deriving DecidableEq, Repr

/-- `struct dinode`.  Slot 12 of `addrs` (NDIRECT) is the indirect block. -/
structure Dinode where
  type : FileType
  major : BitVec 16
  minor : BitVec 16
  nlink : BitVec 16
  size : Nat
  addrs : Fin 13 → Nat

/-- An inode that was just zeroed. -/
def Dinode.zero : Dinode := ⟨.free, 0, 0, 0, 0, fun _ => 0⟩

/-- `struct inode`: the cache's book-keeping and its copy of the inode on disk. -/
structure Inode where
  ref : Nat
  busy : Bool
  valid : Bool
  din : Dinode

/-- `FD_NONE`, `FD_PIPE`, `FD_INODE`. -/
inductive FdType where
  | none
  | pipe
  | inode
deriving DecidableEq, Repr

/-- `struct file`. -/
structure File where
  type : FdType
  ref : Nat
  readable : Bool
  writable : Bool
  ip : Inum
  off : Nat

/-- `struct superblock`.  mkfs asserts that the areas of the disk add up to its size, a 32-bit
number. -/
structure Super where
  size : Nat
  nblocks : Nat
  ninodes : Nat
  nlog : Nat
  small : ninodes / 8 + 3 + (size / 4096 + 1) + nblocks ≤ 2 ^ 32

/-- The first data block: after the boot block, the superblock, the inodes and the bitmap. -/
def Super.dataStart (sb : Super) : Nat := sb.ninodes / 8 + 3 + (sb.size / 4096 + 1)

/-- The data blocks.  The log follows them. -/
def Super.Data (sb : Super) (b : Nat) : Prop :=
  sb.dataStart ≤ b ∧ b < sb.dataStart + sb.nblocks

instance (sb : Super) (b : Nat) : Decidable (sb.Data b) :=
  inferInstanceAs (Decidable (_ ∧ _))

instance : Coe Super (Nat → Prop) := ⟨Super.Data⟩

/-- A sector `log_write` can be given: a block of inodes, a block of the bitmap, or any other. -/
inductive Sector where
  | inodes (n : Nat)
  | bitmap (n : Nat)
  | block (b : Nat)
deriving DecidableEq, Repr

/-- IBLOCK(i). -/
def iblock (i : Inum) : Sector := .inodes (i / 8)

/-- BBLOCK(b, ninodes). -/
def bblock (b : Nat) : Sector := .bitmap (b / 4096)

/-- The state of the file system. -/
structure State where
  dino : Inum → Dinode
  bit : Nat → Bool
  blk : Nat → Block
  icache : Inum → Inode
  inUse : Nat
  owner : Option Pid
  logSize : Nat
  sectors : List Sector
  calls : List (Pid × Option Pid)
  handed : List Nat
  file : FileId → File
  alive : Pid → Bool
  cwd : Pid → Inum
  ofile : Pid → Fd → Option FileId

/-- The panics of the code below. -/
inductive Panic where
  | tooBigTransaction
  | writeOutsideTrans
  | outOfBlocks
  | freeingFreeBlock
  | noInodes
  | igetNoInodes
  | ilock
  | ilockNoType
  | iunlock
  | iputBusy
  | bmapOutOfRange
  | dirlookupNotDir
  | dirlinkRead
  | dirlink
  | isdirempty
  | unlinkNlink
  | unlinkWritei
  | createDots
  | createDirlink
  | filedup
  | fileclose
  | fileread
  | filewrite
  | shortFilewrite
  | initExiting
deriving DecidableEq, Repr

/-- Kernel code of the file system that nobody interrupts. -/
abbrev K := Code Pid Panic State

/-! ## 2. Changes of the state -/

namespace State

def setDino (i : Inum) (d : Dinode) (s : State) : State :=
  { s with dino := Function.update s.dino i d }

def setBit (b : Nat) (v : Bool) (s : State) : State :=
  { s with bit := Function.update s.bit b v }

def setBlk (b : Nat) (x : Block) (s : State) : State :=
  { s with blk := Function.update s.blk b x }

def setInode (i : Inum) (n : Inode) (s : State) : State :=
  { s with icache := Function.update s.icache i n }

def setFile (f : FileId) (x : File) (s : State) : State :=
  { s with file := Function.update s.file f x }

def setCwd (p : Pid) (o : Inum) (s : State) : State :=
  { s with cwd := Function.update s.cwd p o }

def setOfile (p : Pid) (fd : Fd) (o : Option FileId) (s : State) : State :=
  { s with ofile := Function.update s.ofile p (Function.update (s.ofile p) fd o) }

/-- Change the cache's copy of inode `i`. -/
def setCopy (i : Inum) (d : Dinode) (s : State) : State :=
  s.setInode i
    { s.icache i with din := d }

end State

/-- The cache's copy of inode `i`. -/
def copy (i : Inum) : K Dinode := Code.gets fun s => (s.icache i).din

/-- Change the cache's copy of inode `i`. -/
def setCopy (i : Inum) (f : Dinode → Dinode) : K Unit :=
  Code.modify fun s => s.setCopy i (f (s.icache i).din)

/-! ## 3. Blocks (`log_write`, `bzero`, `balloc`, `bfree`) -/

/-- LOGSIZE. -/
def logsize : Nat := 10

/-- `log.lh.n >= LOGSIZE || log.lh.n >= log.size - 1`. -/
def State.logFull (s : State) : Prop :=
  logsize ≤ s.sectors.length ∨ s.logSize ≤ s.sectors.length + 1

instance (s : State) : Decidable s.logFull := inferInstanceAs (Decidable (_ ∨ _))

/-- `log.lh.sector`, with sector `b` in it. -/
def State.absorb (b : Sector) (s : State) : List Sector :=
  if b ∈ s.sectors then s.sectors else s.sectors ++ [b]

/-- `log_write(bp)`: sector `b` has been changed in its buffer, and goes to the log. -/
def logWrite (b : Sector) : K Unit := do
  let p ← Code.self
  let o ← Code.gets State.owner
  Code.modify fun s => { s with calls := (p, o) :: s.calls }
  let full ← Code.gets fun s => decide s.logFull
  Code.panicIf (full = true) .tooBigTransaction
  Code.panicIf (o = none) .writeOutsideTrans
  Code.modify fun s => { s with sectors := s.absorb b }

/-- A zeroed block. -/
def zeroBlock : Block := fun _ => 0

/-- `bzero(dev, bno)`. -/
def bzero (b : Nat) : K Unit := do
  Code.modify (State.setBlk b zeroBlock)
  logWrite (.block b)

/-- The first block whose bit in the bitmap is clear. -/
def State.firstFree (sb : Super) (s : State) : Option Nat :=
  (List.range sb.size).find? fun b => !s.bit b

/-- `balloc(dev)`. -/
def balloc (sb : Super) : K Nat := do
  match ← Code.gets (State.firstFree sb) with
  | none => Code.panic .outOfBlocks
  | some b =>
    Code.modify fun s => { s.setBit b true with handed := b :: s.handed }
    logWrite (bblock b)
    bzero b
    pure b

/-- `bfree(dev, b)`. -/
def bfree (b : Nat) : K Unit := do
  if ← Code.gets fun s => s.bit b then
    Code.modify (State.setBit b false)
    logWrite (bblock b)
  else Code.panic .freeingFreeBlock

/-- `a[n]` of an indirect block. -/
def ptr (x : Block) (n : Nat) : Nat := leNat (field x (4 * n) 4)

/-- The indirect block with `a[n]` set. -/
def setPtr (x : Block) (n v : Nat) : Block := put x (4 * n) (leBytes 4 v)

theorem ptr_setPtr_self (x : Block) {n v : Nat} (hn : n < 128) (hv : v < 2 ^ 32) :
    ptr (setPtr x n v) n = v := by
  have h := field_put_self x (4 * n) (leBytes 4 v) (by simp only [length_leBytes]; omega)
  rw [length_leBytes] at h
  rw [ptr, setPtr, h, leNat_leBytes]
  exact Nat.mod_eq_of_lt hv

theorem ptr_setPtr_of_ne (x : Block) {n m v : Nat} (hm : m < 128) (h : m ≠ n) :
    ptr (setPtr x n v) m = ptr x m := by
  rw [ptr, setPtr, field_put_of_disjoint _ _ (by omega) (by simp only [length_leBytes]; omega), ptr]

/-! ## 4. The inode cache (`iget`, `idup`, `ilock`, `iunlock`, `iupdate`, `ialloc`) -/

/-- NINODE. -/
def ninode : Nat := 50

/-- `iget(dev, inum)`: find the inode's entry in the cache or start one. -/
def iget (i : Inum) : K Unit := do
  let n ← Code.gets fun s => s.icache i
  if 0 < n.ref then
    Code.modify (State.setInode i { n with ref := n.ref + 1 })
  else
    let used ← Code.gets State.inUse
    Code.panicIf (ninode ≤ used) .igetNoInodes
    Code.modify fun s => { s.setInode i { n with ref := 1, busy := false, valid := false } with
      inUse := s.inUse + 1 }

/-- `idup(ip)`. -/
def idup (i : Inum) : K Unit :=
  Code.modify fun s => s.setInode i { s.icache i with ref := (s.icache i).ref + 1 }

/-- `ilock(ip)`: wait for the lock, then read the inode from disk if the copy is not valid. -/
def ilock (i : Inum) : K Unit := do
  let ref ← Code.gets fun s => (s.icache i).ref
  Code.panicIf (ref < 1) .ilock
  Code.await fun s => !(s.icache i).busy
  Code.modify fun s => s.setInode i { s.icache i with busy := true }
  let valid ← Code.gets fun s => (s.icache i).valid
  Code.when (valid = false) (do
    Code.modify fun s => s.setInode i { s.icache i with din := s.dino i, valid := true }
    let d ← copy i
    Code.panicIf (d.type = .free) .ilockNoType)

/-- `iunlock(ip)`. -/
def iunlock (i : Inum) : K Unit := do
  let n ← Code.gets fun s => s.icache i
  Code.panicIf (n.busy = false ∨ n.ref < 1) .iunlock
  Code.modify (State.setInode i { n with busy := false })

/-- `iupdate(ip)`: copy the inode in the cache to disk. -/
def iupdate (i : Inum) : K Unit := do
  let d ← copy i
  Code.modify (State.setDino i d)
  logWrite (iblock i)

/-- The first inode of type 0, from 1 on. -/
def State.freeInode (sb : Super) (s : State) : Option Inum :=
  (List.range' 1 (sb.ninodes - 1)).find? fun i => decide ((s.dino i).type = .free)

/-- `ialloc(dev, type)`. -/
def ialloc (sb : Super) (type : FileType) : K Inum := do
  match ← Code.gets (State.freeInode sb) with
  | none => Code.panic .noInodes
  | some i =>
    Code.modify (State.setDino i { Dinode.zero with type := type })
    logWrite (iblock i)
    iget i
    pure i

end Xv6.Fs
