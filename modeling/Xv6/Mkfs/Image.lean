/-
# `mkfs`: the image it writes, byte by byte (mkfs.c, fs.h)

`mkfs` knows the format of the disk a second time: where an inode lies (`i2b`), how a file's blocks
are found (`iappend`), which block is the bitmap.  The kernel has its own (`IBLOCK`, `bmap`,
`BBLOCK`).  So an image is bytes here, `struct dinode` is written and read at its offset in a
sector, and `mount` is how the KERNEL looks at the same bytes: the state of `Fs/Disk.lean` with the
inodes, the bitmap and the blocks of the image.

`none` is an `assert` that fails, or a sector that cannot be read because the image ends before it.
`mkfs` itself never compares `freeblock` with the end of the data area.
-/
import Xv6.Fs.Sysfile

namespace Xv6.Mkfs

open Xv6.Bytes Xv6.Fs

/-! ## 1. `struct dinode` in a sector -/

/-- T_DIR, T_FILE, T_DEV. -/
def typeCode : FileType → Nat
  | .free => 0
  | .dir => 1
  | .file => 2
  | .dev => 3

/-- The kernel compares `type` with these codes. -/
def codeType : Nat → FileType
  | 1 => .dir
  | 2 => .file
  | 3 => .dev
  | _ => .free

@[simp] theorem codeType_typeCode (t : FileType) : codeType (typeCode t) = t := by
  cases t <;> rfl

/-- The 64 bytes of a `struct dinode`, as `xshort` and `xint` put them in intel byte order. -/
def dinodeBytes (d : Dinode) : List Byte :=
  leBytes 2 (typeCode d.type) ++ leBytes 2 d.major.toNat ++ leBytes 2 d.minor.toNat ++
    leBytes 2 d.nlink.toNat ++ leBytes 4 d.size ++
    (List.finRange 13).flatMap fun n => leBytes 4 (d.addrs n)

/-- The `struct dinode` at byte `off` of a sector. -/
def dinodeAt (x : Block) (off : Nat) : Dinode where
  type := codeType (leNat (field x off 2))
  major := BitVec.ofNat 16 (leNat (field x (off + 2) 2))
  minor := BitVec.ofNat 16 (leNat (field x (off + 4) 2))
  nlink := BitVec.ofNat 16 (leNat (field x (off + 6) 2))
  size := leNat (field x (off + 8) 4)
  addrs := fun n => leNat (field x (off + 12 + 4 * n) 4)

/-! ## 2. Sectors and inodes -/

def nblocks : Nat := 985
def nlog : Nat := 10
def ninodes : Nat := 200
def size : Nat := 1024

/-- `bitblocks` -/
def bitblocks : Nat := size / (512 * 8) + 1

/-- What `mkfs` works on: the image and the counters. -/
structure State where
  img : Nat → Block
  freeblock : Nat
  usedblocks : Nat
  freeinode : Nat

namespace State

variable (s : State)

/-- `rsect` -/
def rsect (sec : Nat) : Option Block := if sec < size then some (s.img sec) else none

/-- `wsect` -/
def wsect (sec : Nat) (x : Block) : State := { s with img := Function.update s.img sec x }

/-- The next free block has been taken: `freeblock++; usedblocks++`. -/
def take : State := { s with freeblock := s.freeblock + 1, usedblocks := s.usedblocks + 1 }

end State

/-- `i2b` -/
def i2b (inum : Nat) : Nat := inum / 8 + 2

/-- `winode` -/
def winode (s : State) (inum : Nat) (d : Dinode) : Option State := do
  let buf ← s.rsect (i2b inum)
  some (s.wsect (i2b inum) (put buf (inum % 8 * 64) (dinodeBytes d)))

/-- `rinode` -/
def rinode (s : State) (inum : Nat) : Option Dinode := do
  let buf ← s.rsect (i2b inum)
  some (dinodeAt buf (inum % 8 * 64))

/-- `ialloc` -/
def ialloc (s : State) (type : FileType) : Option (Nat × State) := do
  let s' ← winode { s with freeinode := s.freeinode + 1 } s.freeinode
    { Dinode.zero with type := type, nlink := 1 }
  some (s.freeinode, s')

/-- `balloc`, the loop that marks the first `used` blocks. -/
def markBits : Nat → Block
  | 0 => zeroBlock
  | i + 1 => put (markBits i) (i / 8) [get (markBits i) (i / 8) ||| (1 <<< (i % 8))]

/-- `balloc` -/
def balloc (s : State) (used : Nat) : Option State :=
  if used < 512 * 8 then some (s.wsect (ninodes / 8 + 3) (markBits used)) else none

/-! ## 3. `iappend` -/

/-- `din.addrs[n] = xint(b)` -/
def setAddr (din : Dinode) (n : Fin 13) (b : Nat) : Dinode :=
  { din with addrs := Function.update din.addrs n b }

/-- A slot of `din.addrs`, given the next free block if it is 0. -/
def slotFor (s : State) (din : Dinode) (n : Fin 13) : State × Dinode :=
  if din.addrs n = 0 then (s.take, setAddr din n s.freeblock) else (s, din)

/-- The block for index `fbn` of the file, allocated if there is none yet. -/
def blockFor (s : State) (din : Dinode) (fbn : Nat) : Option (State × Dinode × Nat) :=
  if h : fbn < 12 then
    let (s, din) := slotFor s din ⟨fbn, lt_of_direct h⟩
    some (s, din, din.addrs ⟨fbn, lt_of_direct h⟩)
  else do
    let (s, din) := slotFor s din 12
    let indirect ← s.rsect (din.addrs 12)
    if ptr indirect (fbn - 12) = 0 then
      some (s.take.wsect (din.addrs 12) (setPtr indirect (fbn - 12) s.freeblock), din, s.freeblock)
    else some (s, din, ptr indirect (fbn - 12))

/-- The loop of `iappend`.  Every round takes at least one byte. -/
def appendLoop : (rounds : Nat) → State → Dinode → Nat → List Byte → Option (State × Dinode × Nat)
  | 0, s, din, off, _ => some (s, din, off)
  | rounds + 1, s, din, off, p =>
    if p = [] then some (s, din, off)
    else if off / 512 < 140 then do
      let (s, din, x) ← blockFor s din (off / 512)
      let n1 := min p.length ((off / 512 + 1) * 512 - off)
      let buf ← s.rsect x
      appendLoop rounds (s.wsect x (put buf (off - off / 512 * 512) (p.take n1))) din (off + n1)
        (p.drop n1)
    else none

/-- `iappend` -/
def iappend (s : State) (inum : Nat) (p : List Byte) : Option State := do
  let din ← rinode s inum
  let (s, din, off) ← appendLoop p.length s din din.size p
  winode s inum { din with size := off }

/-! ## 4. `main` -/

/-- A file on the command line: its name, and its bytes as `read` returns them. -/
structure InputFile where
  name : List Byte
  chunks : List (List Byte)
  /-- the name is a C string -/
  nul : 0 ∉ name
  /-- until it returns 0, `read(fd, buf, sizeof(buf))` returns something -/
  read : ∀ c ∈ chunks, c ≠ [] ∧ c.length ≤ 512

/-- All of its bytes. -/
def InputFile.bytes (f : InputFile) : List Byte := f.chunks.flatten

/-- The name without a leading `_`. -/
def InputFile.shown (f : InputFile) : List Byte :=
  match f.name with
  | 95 :: rest => rest
  | name => name

/-- `usedblocks`, before anything is allocated: the first data block. -/
def firstBlock : Nat := ninodes / 8 + 3 + bitblocks

/-- An image of zeros, with the superblock. -/
def blank : State where
  img := Function.update (fun _ => zeroBlock) 1
    (put zeroBlock 0 (leBytes 4 size ++ leBytes 4 nblocks ++ leBytes 4 ninodes ++ leBytes 4 nlog))
  freeblock := firstBlock
  usedblocks := firstBlock
  freeinode := 1

/-- The root directory, with its first two entries. -/
def makeRoot (s : State) : Option State := do
  let (rootino, s) ← ialloc s .dir
  if rootino = 1 then do
    let s ← iappend s rootino (dirent dot rootino)
    iappend s rootino (dirent dotdot rootino)
  else none

/-- One round of the loop over the files. -/
def addFile (s : State) (f : InputFile) : Option State :=
  if slash ∈ f.name then none
  else do
    let (inum, s) ← ialloc s .file
    let s ← iappend s 1 (dirent f.shown inum)
    f.chunks.foldlM (fun s c => iappend s inum c) s

/-- `off = ((off/BSIZE) + 1) * BSIZE;` -/
def roundUp (off : Nat) : Nat := (off / 512 + 1) * 512

/-- "fix size of root inode dir" -/
def fixRoot (s : State) : Option State := do
  let din ← rinode s 1
  winode s 1 { din with size := roundUp din.size }

/-- `main`, once `argv` is there. -/
def main (files : List InputFile) : Option State := do
  let s ← makeRoot blank
  let s ← files.foldlM addFile s
  let s ← fixRoot s
  balloc s s.usedblocks

/-! ## 5. The kernel's view of an image -/

/-- The superblock that `mkfs` writes. -/
def superblock : Super := ⟨size, nblocks, ninodes, nlog, by decide⟩

/-- `readsb`: the numbers in block 1. -/
def readsb (img : Nat → Block) : List Nat :=
  [0, 4, 8, 12].map fun off => leNat (field (img 1) off 4)

/-- `IBLOCK(i)`, and the inode in it.  There are no inodes from `sb.ninodes` on. -/
def table (img : Nat → Block) (i : Nat) : Dinode :=
  if i < superblock.ninodes then dinodeAt (img (i / 8 + 2)) (i % 8 * 64) else Dinode.zero

/-- Bit `b%BPB` of `BBLOCK(b, sb.ninodes)`. -/
def bitAt (img : Nat → Block) (b : Nat) : Bool :=
  (get (img (b / 4096 + superblock.ninodes / 8 + 3)) (b % 4096 / 8)).getLsbD (b % 4096 % 8)

/-- The file system on an image, with the first process in its root directory. -/
def mount (img : Nat → Block) : Fs.State :=
  { Fs.mkfs superblock with dino := table img, bit := bitAt img, blk := img }

end Xv6.Mkfs
