/-
# Inodes, directories and paths (fs.c)

Code that runs while its caller is in a transaction, or holds the lock of the inode it reads, is
uninterrupted code (`K`): no other process changes what it reads.  `iput` and the path lookup
`namex` also run outside a transaction, in pieces between which other processes run, so they are
programs (`P`); where they are called inside a transaction they are run whole.

Devices are not part of the file system's state: reading or writing one touches nothing here and
is reported as -1.
-/
import Xv6.Fs.Disk

namespace Xv6.Fs

open Xv6.Bytes Xv6.Threads

/-- What a piece of a program is, as far as the results about runs ask. -/
inductive Label where
  /-- `begin_trans` -/
  | enter
  /-- `commit_trans` -/
  | leave
  /-- the code between them -/
  | tx
  /-- the same, where it adds an entry for `path` -/
  | txAdd (path : List Byte)
  /-- the test at the head of `iput` -/
  | put (i : Inum)
  /-- the inode is locked, read and unlocked again -/
  | look (i : Inum)
  /-- anything else -/
  | other
deriving DecidableEq

/-- Code of the file system that others can interrupt. -/
abbrev P := Prog Pid Panic State Label

/-! ## 1. Dropping references (`itrunc`, `iput`) -/

/-- Free the block in one direct slot. -/
def itruncSlot (i : Inum) (n : Fin 13) : K Unit := do
  let d ← copy i
  Code.when (d.addrs n ≠ 0) (do
    bfree (d.addrs n)
    setCopy i fun d => { d with addrs := Function.update d.addrs n 0 })

/-- The first loop of `itrunc`. -/
def itruncDirect (i : Inum) : List (Fin 13) → P Unit
  | [] => pure ()
  | n :: ns => do
    Prog.atomic .other (itruncSlot i n)
    itruncDirect i ns

/-- The second loop: free the blocks an indirect block `a` names. -/
def itruncIndirect (a : Block) : List Nat → P Unit
  | [] => pure ()
  | j :: js => do
    Prog.atomic .other (Code.when (ptr a j ≠ 0) (bfree (ptr a j)))
    itruncIndirect a js

/-- The direct slots, in order. -/
def directSlots : List (Fin 13) := (List.finRange 12).map Fin.castSucc

/-- `if(ip->addrs[NDIRECT])`: free what the indirect block names, and then the block itself. -/
def itruncBlock (i : Inum) : P Unit := do
  let b ← Prog.atomic .other (Code.gets fun s => (s.icache i).din.addrs 12)
  Prog.when (b ≠ 0) (do
    let a ← Prog.atomic .other (Code.gets fun s => s.blk b)
    itruncIndirect a (List.range 128)
    Prog.atomic .other (itruncSlot i 12))

/-- `itrunc(ip)`. -/
def itrunc (i : Inum) : P Unit := do
  itruncDirect i directSlots
  itruncBlock i
  Prog.atomic .other (do
    setCopy i fun d => { d with size := 0 }
    iupdate i)

/-- The test at the head of `iput`: is this the last reference to an inode without links?  If it
is, the inode is locked. -/
def iputTest (i : Inum) : K Bool := do
  let n ← Code.gets fun s => s.icache i
  if n.ref = 1 ∧ n.valid = true ∧ n.din.nlink = 0 then
    Code.panicIf (n.busy = true) .iputBusy
    Code.modify (State.setInode i { n with busy := true })
    pure true
  else pure false

/-- The end of `iput`. -/
def iputDrop (i : Inum) : K Unit :=
  Code.modify fun s => { s.setInode i { s.icache i with ref := (s.icache i).ref - 1 } with
    inUse := if (s.icache i).ref = 1 then s.inUse - 1 else s.inUse }

/-- `iput(ip)`. -/
def iput (i : Inum) : P Unit := do
  let last ← Prog.atomic (.put i) (iputTest i)
  Prog.when (last = true) (do
    itrunc i
    Prog.atomic .other (do
      setCopy i fun d => { d with type := .free }
      iupdate i)
    Prog.atomic .other (Code.modify fun s =>
      s.setInode i { s.icache i with busy := false, valid := false }))
  Prog.atomic .other (iputDrop i)

/-- `iunlockput(ip)`, inside a transaction. -/
def iunlockput (i : Inum) : K Unit := do
  iunlock i
  (iput i).whole

/-! ## 2. Contents (`bmap`, `readi`, `writei`) -/

/-- `ip->addrs[n]`, allocating a block for it if it is 0. -/
def bmapSlot (sb : Super) (i : Inum) (n : Fin 13) : K Nat := do
  let d ← copy i
  if d.addrs n ≠ 0 then pure (d.addrs n)
  else
    let b ← balloc sb
    setCopy i fun d => { d with addrs := Function.update d.addrs n b }
    pure b

/-- A direct block has an entry of `addrs`. -/
theorem lt_of_direct {bn : Nat} (h : bn < 12) : bn < 13 := Nat.lt_succ_of_lt h

/-- `bmap(ip, bn)`. -/
def bmap (sb : Super) (i : Inum) (bn : Nat) : K Nat := do
  if h : bn < 12 then bmapSlot sb i ⟨bn, lt_of_direct h⟩
  else if bn - 12 < 128 then
    let a ← bmapSlot sb i 12
    let x ← Code.gets fun s => s.blk a
    if ptr x (bn - 12) ≠ 0 then pure (ptr x (bn - 12))
    else
      let b ← balloc sb
      Code.modify fun s => s.setBlk a (setPtr (s.blk a) (bn - 12) b)
      logWrite (.block a)
      pure b
  else Code.panic .bmapOutOfRange

/-- The loop of `readi`: `rem` bytes from `off` on.  Every round reads at least one byte, so
`rem` rounds are enough. -/
def readLoop (sb : Super) (i : Inum) : (rounds off rem : Nat) → K (List Byte)
  | 0, _, _ => pure []
  | rounds + 1, off, rem =>
    if rem = 0 then pure []
    else do
      let b ← bmap sb i (off / 512)
      let x ← Code.gets fun s => s.blk b
      let m := min rem (512 - off % 512)
      let rest ← readLoop sb i rounds (off + m) (rem - m)
      pure (field x (off % 512) m ++ rest)

/-- `readi(ip, dst, off, n)`; `none` is -1. -/
def readi (sb : Super) (i : Inum) (off n : Nat) : K (Option (List Byte)) := do
  let d ← copy i
  if d.type = .dev then pure none
  else if d.size < off ∨ 2 ^ 32 ≤ off + n then pure none
  else
    let m := min n (d.size - off)
    let bs ← readLoop sb i m off m
    pure (some bs)

/-- The loop of `writei`; the result is the offset behind the last byte. -/
def writeLoop (sb : Super) (i : Inum) : (rounds off : Nat) → List Byte → K Nat
  | 0, off, _ => pure off
  | rounds + 1, off, src =>
    if src = [] then pure off
    else do
      let b ← bmap sb i (off / 512)
      let m := min src.length (512 - off % 512)
      Code.modify fun s => s.setBlk b (put (s.blk b) (off % 512) (src.take m))
      logWrite (.block b)
      writeLoop sb i rounds (off + m) (src.drop m)

/-- `writei(ip, src, off, n)` with `n` the length of `src`; `none` is -1. -/
def writei (sb : Super) (i : Inum) (src : List Byte) (off : Nat) : K (Option Nat) := do
  let d ← copy i
  if d.type = .dev then pure none
  else if d.size < off ∨ 2 ^ 32 ≤ off + src.length then pure none
  else if 140 * 512 < off + src.length then pure none
  else
    let off' ← writeLoop sb i src.length off src
    Code.when (0 < src.length ∧ d.size < off') (do
      setCopy i fun d => { d with size := off' }
      iupdate i)
    pure (some src.length)

/-! ## 3. Directories (`dirlookup`, `dirlink`) -/

/-- The string at the start of some bytes, up to its NUL. -/
def cstr (xs : List Byte) : List Byte := xs.takeWhile (· ≠ 0)

/-- `namecmp(s, t) == 0`: equal as strings of at most DIRSIZ bytes. -/
def nameEq (s t : List Byte) : Bool := cstr (s.take 14) = cstr (t.take 14)

/-- `strncpy(de.name, name, DIRSIZ)`: the name, padded with NULs. -/
def padName (name : List Byte) : List Byte :=
  cstr (name.take 14) ++ List.replicate (14 - (cstr (name.take 14)).length) 0

/-- `de.inum` of the 16 bytes of a `struct dirent`. -/
def deInum (de : List Byte) : Nat := leNat (de.take 2)

/-- `de.name`. -/
def deName (de : List Byte) : List Byte := de.drop 2

/-- The bytes of an entry. -/
def dirent (name : List Byte) (inum : Nat) : List Byte := leBytes 2 inum ++ padName name

/-- The loops of `dirlookup`, `dirlink` and `isdirempty`: the offset and the bytes of the first
entry, among those at the given offsets, that passes `test`. -/
def scan (sb : Super) (dp : Inum) (test : List Byte → Bool) (err : Panic) :
    List Nat → K (Option (Nat × List Byte))
  | [] => pure none
  | off :: offs => do
    match ← readi sb dp off 16 with
    | none => Code.panic err
    | some de =>
      if de.length ≠ 16 then Code.panic err
      else if test de then pure (some (off, de))
      else scan sb dp test err offs

/-- The number of entries at offsets below `size`. -/
def entries (size : Nat) : Nat := (size + 15) / 16

/-- The offsets of the entries from number `first` on. -/
def offsets (first size : Nat) : List Nat :=
  (List.range' first (entries size - first)).map (16 * ·)

/-- `dirlookup(dp, name, &off)`: the inode an entry names, now referenced, and the entry's
offset. -/
def dirlookup (sb : Super) (dp : Inum) (name : List Byte) : K (Option (Inum × Nat)) := do
  let d ← copy dp
  Code.panicIf (d.type ≠ .dir) .dirlookupNotDir
  match ← scan sb dp (fun de => deInum de ≠ 0 && nameEq name (deName de)) .dirlinkRead
      (offsets 0 d.size) with
  | none => pure none
  | some (off, de) =>
    iget (deInum de)
    pure (some (deInum de, off))

/-- Write the 16 bytes of an entry, as `dirlink` and `sys_unlink` do it. -/
def writeEntry (sb : Super) (dp : Inum) (de : List Byte) (off : Nat) (err : Panic) : K Unit := do
  let r ← writei sb dp de off
  Code.panicIf (r ≠ some 16) err

/-- `dirlink(dp, name, inum)`; `false` is -1. -/
def dirlink (sb : Super) (dp : Inum) (name : List Byte) (inum : Inum) : K Bool := do
  match ← dirlookup sb dp name with
  | some (ip, _) =>
    (iput ip).whole
    pure false
  | none =>
    let d ← copy dp
    let hole ← scan sb dp (fun de => deInum de = 0) .dirlinkRead (offsets 0 d.size)
    let off := match hole with
      | some (off, _) => off
      | none => 16 * entries d.size
    writeEntry sb dp (dirent name inum) off .dirlink
    pure true

/-! ## 4. Paths (`skipelem`, `namex`) -/

/-- The character `/`. -/
def slash : Byte := 47

/-- `skipelem(path, name)`: the first element of the path, cut to DIRSIZ bytes, and what follows
it. -/
def skipelem (path : List Byte) : Option (List Byte × List Byte) :=
  match path.dropWhile (· = slash) with
  | [] => none
  | c :: cs =>
    let elem := (c :: cs).takeWhile (· ≠ slash)
    some (elem.take 14, ((c :: cs).drop elem.length).dropWhile (· = slash))

/-- How one round of `namex` ends. -/
inductive Look where
  | fail
  | stop
  | next (i : Inum)

/-- One round of `namex`, up to the `iunlock`: `last` says that the parent is wanted and the
name is the last one. -/
def lookup (sb : Super) (ip : Inum) (name : List Byte) (last : Bool) : K Look := do
  ilock ip
  let d ← copy ip
  if d.type ≠ .dir then
    iunlock ip
    pure .fail
  else if last then
    iunlock ip
    pure .stop
  else
    match ← dirlookup sb ip name with
    | none =>
      iunlock ip
      pure .fail
    | some (next, _) =>
      iunlock ip
      pure (.next next)

/-- The loop of `namex` and what follows it.  Every round takes a byte off the path. -/
def namexLoop (sb : Super) (parent : Bool) : (rounds : Nat) → Inum → List Byte →
    P (Option (Inum × List Byte))
  | 0, ip, _ => namexEnd ip
  | rounds + 1, ip, path =>
    match skipelem path with
    | none => namexEnd ip
    | some (name, rest) => do
      match ← Prog.atomic (.look ip) (lookup sb ip name (parent && rest.isEmpty)) with
      | .fail =>
        iput ip
        pure none
      | .stop => pure (some (ip, name))
      | .next next =>
        iput ip
        namexLoop sb parent rounds next rest
where
  /-- After the loop: all of the path has been followed. -/
  namexEnd (ip : Inum) : P (Option (Inum × List Byte)) :=
    if parent then do
      iput ip
      pure none
    else pure (some (ip, []))

/-- `namex(path, nameiparent, name)`. -/
def namex (sb : Super) (path : List Byte) (parent : Bool) : P (Option (Inum × List Byte)) := do
  let ip ← Prog.atomic .other (if path.head? = some slash then do
      iget 1
      pure 1
    else do
      let p ← Code.self
      let i ← Code.gets fun s => s.cwd p
      idup i
      pure i)
  namexLoop sb parent path.length ip path

/-- `namei(path)`. -/
def namei (sb : Super) (path : List Byte) : P (Option Inum) := do
  let r ← namex sb path false
  pure (r.map Prod.fst)

/-- `nameiparent(path, name)`. -/
def nameiparent (sb : Super) (path : List Byte) : P (Option (Inum × List Byte)) :=
  namex sb path true

end Xv6.Fs
