/-
# The file system's system calls (file.c, sysfile.c, and the file parts of proc.c and exec.c)

Each call is a program.  Its pieces are cut where another process can get in between and matter:
`begin_trans` and `commit_trans` are pieces of their own, and so is everything between the two,
because while a transaction is open nobody else may start one, and the inodes the code works on
are locked.  Outside a transaction the lock of an inode makes one piece of the code that reads
it, and `iput` and `namex` go step by step.

Arguments arrive fetched and checked; a call whose arguments are refused does nothing.
-/
import Xv6.Fs.Inode

namespace Xv6.Fs

open Xv6.Bytes Xv6.Threads

/-! ## 1. Transactions (`begin_trans`, `commit_trans`) -/

/-- `begin_trans()`. -/
def beginTrans : P Unit := Prog.atomic .enter (do
  Code.await fun s => s.owner.isNone
  let p ← Code.self
  Code.modify fun s => { s with owner := some p })

/-- `commit_trans()`. -/
def commitTrans : P Unit :=
  Prog.atomic .leave (Code.modify fun s => { s with owner := none, sectors := [] })

/-- A transaction around `body`. -/
def transaction {α : Type} (l : Label) (body : K α) : P α := do
  beginTrans
  let a ← Prog.atomic l body
  commitTrans
  pure a

/-! ## 2. Files (file.c) -/

/-- `filealloc()`. -/
def filealloc : K (Option FileId) := do
  match ← Code.gets fun s => (List.finRange 100).find? fun f => (s.file f).ref = 0 with
  | none => pure none
  | some f =>
    Code.modify fun s => s.setFile f { s.file f with ref := 1 }
    pure (some f)

/-- `filedup(f)`. -/
def filedup (f : FileId) : K Unit := do
  let x ← Code.gets fun s => s.file f
  Code.panicIf (x.ref < 1) .filedup
  Code.modify (State.setFile f { x with ref := x.ref + 1 })

/-- `fileclose(f)` up to the release of the table's lock: the file, if this was its last
reference. -/
def filecloseDrop (f : FileId) : K (Option File) := do
  let x ← Code.gets fun s => s.file f
  Code.panicIf (x.ref < 1) .fileclose
  if 0 < x.ref - 1 then
    Code.modify (State.setFile f { x with ref := x.ref - 1 })
    pure none
  else
    Code.modify (State.setFile f { x with ref := 0, type := .none })
    pure (some x)

/-- `fileclose(f)`. -/
def fileclose (f : FileId) : P Unit := do
  match ← Prog.atomic .other (filecloseDrop f) with
  | none => pure ()
  | some x => if x.type = .inode then transaction .tx (iput x.ip).whole else pure ()

/-- `filestat(f, st)`. -/
def filestat (f : FileId) : P Unit := do
  let x ← Prog.atomic .other (Code.gets fun s => s.file f)
  Prog.when (x.type = .inode) (Prog.atomic (.look x.ip) (do
    ilock x.ip
    iunlock x.ip))

/-- `if(r > 0) f->off += r`, where `r` is `none` for -1. -/
def advance (f : FileId) (r : Option Nat) : K Unit :=
  Code.modify fun s => s.setFile f { s.file f with off := (s.file f).off + r.getD 0 }

/-- The part of `fileread` for inodes. -/
def freadInode (sb : Super) (f : FileId) (ip : Inum) (n : Nat) : K Unit := do
  ilock ip
  let x ← Code.gets fun s => s.file f
  let r ← readi sb ip x.off n
  advance f (r.map List.length)
  iunlock ip

/-- `fileread(f, addr, n)`. -/
def fileread (sb : Super) (f : FileId) (n : Nat) : P Unit := do
  let x ← Prog.atomic .other (Code.gets fun s => s.file f)
  Prog.when (x.readable = true) (match x.type with
    | .pipe => pure ()
    | .inode => Prog.atomic (.look x.ip) (freadInode sb f x.ip n)
    | .none => Prog.atomic .other (Code.panic .fileread))

/-- One round of `filewrite`, between `begin_trans` and `commit_trans`. -/
def fwriteInode (sb : Super) (f : FileId) (ip : Inum) (src : List Byte) : K (Option Nat) := do
  ilock ip
  let x ← Code.gets fun s => s.file f
  let r ← writei sb ip src x.off
  advance f r
  iunlock ip
  pure r

/-- The most `filewrite` writes in one transaction: ((LOGSIZE-1-1-2) / 2) * 512 bytes. -/
def maxWrite : Nat := (10 - 1 - 1 - 2) / 2 * 512

/-- The loop of `filewrite`.  A round that does not end it writes at least one byte. -/
def fwriteLoop (sb : Super) (f : FileId) (ip : Inum) : (rounds : Nat) → List Byte → P Unit
  | 0, _ => pure ()
  | rounds + 1, src =>
    if src = [] then pure ()
    else do
      let src1 := src.take maxWrite
      match ← transaction .tx (fwriteInode sb f ip src1) with
      | none => pure ()
      | some r =>
        if r ≠ src1.length then Prog.atomic .other (Code.panic .shortFilewrite)
        else fwriteLoop sb f ip rounds (src.drop maxWrite)

/-- `filewrite(f, addr, n)`. -/
def filewrite (sb : Super) (f : FileId) (src : List Byte) : P Unit := do
  let x ← Prog.atomic .other (Code.gets fun s => s.file f)
  Prog.when (x.writable = true) (match x.type with
    | .pipe => pure ()
    | .inode => fwriteLoop sb f x.ip src.length src
    | .none => Prog.atomic .other (Code.panic .filewrite))

/-! ## 3. Descriptors (`argfd`, `fdalloc`, `sys_dup`, `sys_close`, `sys_pipe`) -/

/-- `argfd`: the file behind a descriptor. -/
def argfd (fd : Fd) : P (Option FileId) := Prog.atomic .other (do
  let p ← Code.self
  Code.gets fun s => s.ofile p fd)

/-- `fdalloc(f)`. -/
def fdalloc (f : FileId) : K (Option Fd) := do
  let p ← Code.self
  match ← Code.gets fun s => (List.finRange 16).find? fun fd => (s.ofile p fd).isNone with
  | none => pure none
  | some fd =>
    Code.modify (State.setOfile p fd (some f))
    pure (some fd)

/-- Run `m` on the file behind `fd`, if there is one. -/
def withFile (fd : Fd) (m : FileId → P Unit) : P Unit := do
  match ← argfd fd with
  | none => pure ()
  | some f => m f

/-- `sys_dup()`. -/
def sysDup (fd : Fd) : P Unit := withFile fd fun f => Prog.atomic .other (do
  match ← fdalloc f with
  | none => pure ()
  | some _ => filedup f)

/-- `sys_close()`. -/
def sysClose (fd : Fd) : P Unit := withFile fd fun f => do
  Prog.atomic .other (do
    let p ← Code.self
    Code.modify (State.setOfile p fd none))
  fileclose f

/-- `pipealloc(&rf, &wf)`, when there is a page for the pipe. -/
def pipealloc : K (Option (FileId × FileId)) := do
  match ← filealloc with
  | none => pure none
  | some rf =>
    match ← filealloc with
    | none =>
      let _ ← filecloseDrop rf
      pure none
    | some wf =>
      Code.modify fun s => s.setFile rf { s.file rf with type := .pipe, readable := true, writable := false }
      Code.modify fun s => s.setFile wf { s.file wf with type := .pipe, readable := false, writable := true }
      pure (some (rf, wf))

/-- `sys_pipe()`. -/
def sysPipe : P Unit := Prog.atomic .other (do
  match ← pipealloc with
  | none => pure ()
  | some (rf, wf) =>
    let p ← Code.self
    match ← fdalloc rf with
    | none =>
      let _ ← filecloseDrop rf
      let _ ← filecloseDrop wf
    | some fd0 =>
      match ← fdalloc wf with
      | some _ => pure ()
      | none =>
        Code.modify (State.setOfile p fd0 none)
        let _ ← filecloseDrop rf
        let _ ← filecloseDrop wf)

/-! ## 4. Links (`sys_link`, `sys_unlink`) -/

/-- The `bad` path of `sys_link`. -/
def linkBad (ip : Inum) : K Unit := do
  ilock ip
  setCopy ip fun d => { d with nlink := d.nlink - 1 }
  iupdate ip
  iunlockput ip

/-- `sys_link` between `begin_trans` and `commit_trans`. -/
def linkBody (sb : Super) (ip : Inum) (new : List Byte) : K Unit := do
  ilock ip
  let d ← copy ip
  if d.type = .dir then iunlockput ip
  else
    setCopy ip fun d => { d with nlink := d.nlink + 1 }
    iupdate ip
    iunlock ip
    match ← (nameiparent sb new).whole with
    | none => linkBad ip
    | some (dp, name) =>
      ilock dp
      if ← dirlink sb dp name ip then
        iunlockput dp
        (iput ip).whole
      else
        iunlockput dp
        linkBad ip

/-- `sys_link()`. -/
def sysLink (sb : Super) (old new : List Byte) : P Unit := do
  match ← namei sb old with
  | none => pure ()
  | some ip => transaction (.txAdd new) (linkBody sb ip new)

/-- `isdirempty(dp)`. -/
def isdirempty (sb : Super) (dp : Inum) : K Bool := do
  let d ← copy dp
  let found ← scan sb dp (fun de => deInum de ≠ 0) .isdirempty (offsets 2 d.size)
  pure found.isNone

/-- `!(ip->type == T_DIR && !isdirempty(ip))`. -/
def removable (sb : Super) (ip : Inum) : K Bool := do
  let d ← copy ip
  if d.type = .dir then isdirempty sb ip else pure true

/-- The name `.`. -/
def dot : List Byte := [46]

/-- The name `..`. -/
def dotdot : List Byte := [46, 46]

/-- `sys_unlink` from the check of the inode on, with the directory and the inode locked. -/
def unlinkEntry (sb : Super) (dp ip : Inum) (off : Nat) : K Unit := do
  let d ← copy ip
  Code.panicIf (d.nlink.toInt < 1) .unlinkNlink
  if (← removable sb ip) = false then
    iunlockput ip
    iunlockput dp
  else
    writeEntry sb dp (List.replicate 16 0) off .unlinkWritei
    Code.when (d.type = .dir) (do
      setCopy dp fun d => { d with nlink := d.nlink - 1 }
      iupdate dp)
    iunlockput dp
    setCopy ip fun d => { d with nlink := d.nlink - 1 }
    iupdate ip
    iunlockput ip

/-- `sys_unlink` between `begin_trans` and `commit_trans`. -/
def unlinkBody (sb : Super) (dp : Inum) (name : List Byte) : K Unit := do
  ilock dp
  if nameEq name dot || nameEq name dotdot then iunlockput dp
  else
    match ← dirlookup sb dp name with
    | none => iunlockput dp
    | some (ip, off) =>
      ilock ip
      unlinkEntry sb dp ip off

/-- `sys_unlink()`. -/
def sysUnlink (sb : Super) (path : List Byte) : P Unit := do
  match ← nameiparent sb path with
  | none => pure ()
  | some (dp, name) => transaction .tx (unlinkBody sb dp name)

/-- `unlinkEntry` with what `sys_unlink` returns: `true` for 0. -/
def unlinkEntryRet (sb : Super) (dp ip : Inum) (off : Nat) : K Bool := do
  let d ← copy ip
  Code.panicIf (d.nlink.toInt < 1) .unlinkNlink
  if (← removable sb ip) = false then
    iunlockput ip
    iunlockput dp
    pure false
  else
    writeEntry sb dp (List.replicate 16 0) off .unlinkWritei
    Code.when (d.type = .dir) (do
      setCopy dp fun d => { d with nlink := d.nlink - 1 }
      iupdate dp)
    iunlockput dp
    setCopy ip fun d => { d with nlink := d.nlink - 1 }
    iupdate ip
    iunlockput ip
    pure true

/-- The same for `unlinkBody`. -/
def unlinkBodyRet (sb : Super) (dp : Inum) (name : List Byte) : K Bool := do
  ilock dp
  if nameEq name dot || nameEq name dotdot then
    iunlockput dp
    pure false
  else
    match ← dirlookup sb dp name with
    | none =>
      iunlockput dp
      pure false
    | some (ip, off) =>
      ilock ip
      unlinkEntryRet sb dp ip off

/-- Without its result it is the code above. -/
theorem unlinkEntry_eq (sb : Super) (dp ip : Inum) (off : Nat) :
    unlinkEntry sb dp ip off = unlinkEntryRet sb dp ip off >>= fun _ => pure () := by
  simp only [unlinkEntry, unlinkEntryRet, bind_assoc]
  refine bind_congr fun d => bind_congr fun _ => bind_congr fun ok => ?_
  split
  · simp
  · simp

theorem unlinkBody_eq (sb : Super) (dp : Inum) (name : List Byte) :
    unlinkBody sb dp name = unlinkBodyRet sb dp name >>= fun _ => pure () := by
  simp only [unlinkBody, unlinkBodyRet, bind_assoc]
  refine bind_congr fun _ => ?_
  split
  · simp
  · rw [bind_assoc]
    refine bind_congr fun r => ?_
    cases r with
    | none => simp
    | some e => simp [unlinkEntry_eq]

/-! ## 5. Creating files (`create`, `sys_open`, `sys_mkdir`, `sys_mknod`) -/

/-- `create` after the parent `dp` has been locked and found to have no entry `name`. -/
def createNew (sb : Super) (dp : Inum) (name : List Byte) (type : FileType)
    (major minor : BitVec 16) : K Inum := do
  let ip ← ialloc sb type
  ilock ip
  setCopy ip fun d => { d with major := major, minor := minor, nlink := 1 }
  iupdate ip
  Code.when (type = .dir) (do
    setCopy dp fun d => { d with nlink := d.nlink + 1 }
    iupdate dp
    let ok ← dirlink sb ip dot ip
    Code.panicIf (ok = false) .createDots
    let ok ← dirlink sb ip dotdot dp
    Code.panicIf (ok = false) .createDots)
  let ok ← dirlink sb dp name ip
  Code.panicIf (ok = false) .createDirlink
  iunlockput dp
  pure ip

/-- `create(path, type, major, minor)`: the inode, locked. -/
def create (sb : Super) (path : List Byte) (type : FileType) (major minor : BitVec 16) :
    K (Option Inum) := do
  match ← (nameiparent sb path).whole with
  | none => pure none
  | some (dp, name) =>
    ilock dp
    match ← dirlookup sb dp name with
    | some (ip, _) =>
      iunlockput dp
      ilock ip
      let d ← copy ip
      if type = .file ∧ d.type = .file then pure (some ip)
      else
        iunlockput ip
        pure none
    | none =>
      let ip ← createNew sb dp name type major minor
      pure (some ip)

/-- O_WRONLY, O_RDWR, O_CREATE. -/
def oWronly : BitVec 32 := 0x001
def oRdwr : BitVec 32 := 0x002
def oCreate : BitVec 32 := 0x200

/-- `sys_open` once the inode is there and locked: a file and a descriptor for it, if there are
any; `false` if there are not. -/
def openFile (ip : Inum) (omode : BitVec 32) : K Bool := do
  match ← filealloc with
  | none =>
    iunlock ip
    pure false
  | some f =>
    match ← fdalloc f with
    | none =>
      let _ ← filecloseDrop f
      iunlock ip
      pure false
    | some _ =>
      iunlock ip
      Code.modify fun s => s.setFile f { s.file f with
        type := .inode, ip := ip, off := 0, readable := omode &&& oWronly = 0,
        writable := omode &&& oWronly ≠ 0 || omode &&& oRdwr ≠ 0 }
      pure true

/-- The end of `sys_open`. -/
def openEnd (ip : Inum) (omode : BitVec 32) : P Unit := do
  if ← Prog.atomic .other (openFile ip omode) then pure () else iput ip

/-- `sys_open()`. -/
def sysOpen (sb : Super) (path : List Byte) (omode : BitVec 32) : P Unit := do
  if omode &&& oCreate ≠ 0 then
    match ← transaction (.txAdd path) (create sb path .file 0 0) with
    | none => pure ()
    | some ip => openEnd ip omode
  else
    match ← namei sb path with
    | none => pure ()
    | some ip =>
      if ← Prog.atomic (.look ip) (do
        ilock ip
        let d ← copy ip
        if d.type = .dir ∧ omode ≠ 0 then
          iunlock ip
          pure false
        else pure true)
      then openEnd ip omode
      else iput ip

/-- `sys_mkdir` and `sys_mknod` between `begin_trans` and `commit_trans`. -/
def makeBody (sb : Super) (path : List Byte) (type : FileType) (major minor : BitVec 16) :
    K Unit := do
  match ← create sb path type major minor with
  | none => pure ()
  | some ip => iunlockput ip

/-- `sys_mkdir()`. -/
def sysMkdir (sb : Super) (path : List Byte) : P Unit :=
  transaction (.txAdd path) (makeBody sb path .dir 0 0)

/-- `sys_mknod()`. -/
def sysMknod (sb : Super) (path : List Byte) (major minor : BitVec 16) : P Unit :=
  transaction (.txAdd path) (makeBody sb path .dev major minor)

/-! ## 6. Processes (`sys_chdir`, `exec`, `fork`, `clone`, `exit`, `texit`) -/

/-- `sys_chdir()`. -/
def sysChdir (sb : Super) (path : List Byte) : P Unit := do
  match ← namei sb path with
  | none => pure ()
  | some ip =>
    if ← Prog.atomic (.look ip) (do
      ilock ip
      let d ← copy ip
      iunlock ip
      pure (decide (d.type = .dir)))
    then
      let p ← Prog.atomic .other Code.self
      let old ← Prog.atomic .other (Code.gets fun s => s.cwd p)
      iput old
      Prog.atomic .other (Code.modify (State.setCwd p ip))
    else iput ip

/-- Some reads of an inode. -/
def readAll (sb : Super) (ip : Inum) : List (Nat × Nat) → K Unit
  | [] => pure ()
  | (off, n) :: rs => do
    let _ ← readi sb ip off n
    readAll sb ip rs

/-- `exec(path, argv)`, as far as it reads the file: `reads` are the offsets and lengths of the
headers and segments it gets to. -/
def exec (sb : Super) (path : List Byte) (reads : List (Nat × Nat)) : P Unit := do
  match ← namei sb path with
  | none => pure ()
  | some ip =>
    Prog.atomic (.look ip) (do
      ilock ip
      readAll sb ip reads
      iunlock ip)
    iput ip

/-- `if(proc->ofile[i]) np->ofile[i] = filedup(proc->ofile[i])`. -/
def dupFd (np : Pid) (fd : Fd) : K Unit := do
  let p ← Code.self
  match ← Code.gets fun s => s.ofile p fd with
  | none => pure ()
  | some f =>
    filedup f
    Code.modify (State.setOfile np fd (some f))

/-- The loop around it, in `fork` and `clone`. -/
def dupAll (np : Pid) : List Fd → K Unit
  | [] => pure ()
  | fd :: fds => do
    dupFd np fd
    dupAll np fds

/-- The part of `fork` that concerns files; `np` is a free slot of the process table. -/
def fork (np : Pid) : P Unit := Prog.atomic .other (do
  Code.await fun s => !s.alive np
  dupAll np (List.finRange 16)
  let p ← Code.self
  let i ← Code.gets fun s => s.cwd p
  idup i
  Code.modify fun s => { s.setCwd np i with alive := Function.update s.alive np true })

/-- The same part of `clone`. -/
def clone (np : Pid) : P Unit := fork np

/-- `exit` closes one descriptor. -/
def closeFd (p : Pid) (fd : Fd) : P Unit := do
  match ← Prog.atomic .other (Code.gets fun s => s.ofile p fd) with
  | none => pure ()
  | some f =>
    fileclose f
    Prog.atomic .other (Code.modify (State.setOfile p fd none))

/-- The loop around it. -/
def closeAll (p : Pid) : List Fd → P Unit
  | [] => pure ()
  | fd :: fds => do
    closeFd p fd
    closeAll p fds

/-- The part of `exit` that concerns files.  The first process may not exit. -/
def exit : P Unit := do
  let p ← Prog.atomic .other (do
    let p ← Code.self
    Code.panicIf (p = 0) .initExiting
    pure p)
  closeAll p (List.finRange 16)
  let i ← Prog.atomic .other (Code.gets fun s => s.cwd p)
  iput i
  Prog.atomic .other (Code.modify fun s =>
    { s.setCwd p 0 with alive := Function.update s.alive p false })

/-- The same part of `texit`. -/
def texit : P Unit := exit

/-! ## 7. The system -/

/-- The system calls. -/
inductive Call where
  | open (path : List Byte) (omode : BitVec 32)
  | close (fd : Fd)
  | read (fd : Fd) (n : Nat)
  | write (fd : Fd) (src : List Byte)
  | fstat (fd : Fd)
  | dup (fd : Fd)
  | pipe
  | link (old new : List Byte)
  | unlink (path : List Byte)
  | mkdir (path : List Byte)
  | mknod (path : List Byte) (major minor : BitVec 16)
  | chdir (path : List Byte)
  | exec (path : List Byte) (reads : List (Nat × Nat))
  | fork (np : Pid)
  | clone (np : Pid)
  | exit
  | texit

/-- The program of a system call. -/
def syscall (sb : Super) : Call → P Unit
  | .open path omode => sysOpen sb path omode
  | .close fd => sysClose fd
  | .read fd n => withFile fd fun f => fileread sb f n
  | .write fd src => withFile fd fun f => filewrite sb f src
  | .fstat fd => withFile fd filestat
  | .dup fd => sysDup fd
  | .pipe => sysPipe
  | .link old new => sysLink sb old new
  | .unlink path => sysUnlink sb path
  | .mkdir path => sysMkdir sb path
  | .mknod path major minor => sysMknod sb path major minor
  | .chdir path => sysChdir sb path
  | .exec path reads => exec sb path reads
  | .fork np => fork np
  | .clone np => clone np
  | .exit => exit
  | .texit => texit

/-- The file system with the processes that use it. -/
abbrev System := Sys Pid Panic State Label

/-- Something that happens. -/
abbrev Event := Act Pid Call

/-- One move of the system. -/
abbrev step (sb : Super) : System → Event → Option System :=
  Sys.step (syscall sb) fun p m => m.alive p

/-- The system in state `m`, with no call in progress. -/
def System.at (m : State) : System := ⟨m, fun _ => none, none⟩

/-! ## 8. A fresh disk -/

/-- The block of a root directory with nothing in it. -/
def rootBlock : Block := put (put zeroBlock 0 (dirent dot 1)) 16 (dirent dotdot 1)

/-- The inode of that directory. -/
def rootInode (sb : Super) : Dinode :=
  { Dinode.zero with
    type := .dir, nlink := 1, size := 512, addrs := fun n => if n = 0 then sb.dataStart else 0 }

/-- The disk that mkfs writes when it is given no files, and the first process in its root
directory. -/
def mkfs (sb : Super) : State where
  dino i := if i = 1 then rootInode sb else Dinode.zero
  bit b := b ≤ sb.dataStart
  blk b := if b = sb.dataStart then rootBlock else zeroBlock
  icache i := ⟨if i = 1 then 1 else 0, false, false, Dinode.zero⟩
  inUse := 1
  owner := none
  logSize := sb.nlog
  sectors := []
  calls := []
  handed := []
  file _ := ⟨.none, 0, false, false, 0, 0⟩
  alive p := p = 0
  cwd p := if p = 0 then 1 else 0
  ofile _ _ := none

/-- A disk with 16 inodes, 20 data blocks and the log, for the runs below. -/
def smallDisk : Super := ⟨36, 20, 16, 10, by decide⟩

/-- Process `p` moves `n` times. -/
def moves (p : Pid) (n : Nat) : List Event := List.replicate n (.move p)

end Xv6.Fs
