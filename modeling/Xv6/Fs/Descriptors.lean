/-
# `sys_open`, `sys_dup` and `sys_pipe`, and what a failed call leaves behind

The three calls that make a descriptor take up to four things on their way: an inode (a reference
and its lock), one or two entries of the file table, one or two descriptors, and for a pipe a page.
Any of them can be missing, and each of the calls has its own code to give back what it had by then.

Here they are with their RESULTS, run by one process with nobody in between, and together with the
page allocator.  `none` is the -1 of the source.  A call whose arguments are refused returns it at
once.

The inode part is that of `Holds`: what the process holds of inodes at the end is what it held at
the start.  The file part is read off: a file that `filealloc` found and nobody has used yet goes
back as it was.
-/
import Xv6.Fs.Holds

namespace Xv6.Fs

open Xv6.Bytes Xv6.Threads

/-! ## 1. The calls, with pages -/

/-- The file system, the free pages, and the pipes: the page behind each file that is a pipe, and
for each page `readopen` and `writeopen`. -/
structure Desk where
  fs : State
  free : List Nat
  pipe : FileId → Nat
  readopen : Nat → Bool
  writeopen : Nat → Bool

/-- Code that also handles pages. -/
abbrev D := Code Pid Panic Desk

/-- Code of the file system. -/
def lift {α : Type} (m : K α) : D α := fun p d =>
  match m p d.fs with
  | .ok a s => .ok a { d with fs := s }
  | .blocked => .blocked
  | .panic e s => .panic e { d with fs := s }

/-- `kalloc()`. -/
def kalloc : D (Option Nat) := do
  match ← Code.gets Desk.free with
  | [] => pure none
  | pg :: free =>
    Code.modify fun d => { d with free := free }
    pure (some pg)

/-- `kfree(pg)`. -/
def kfree (pg : Nat) : D Unit := Code.modify fun d => { d with free := pg :: d.free }

/-- `pipeclose(p, writable)`. -/
def pipeclose (pg : Nat) (writable : Bool) : D Unit := do
  if writable then Code.modify fun d => { d with writeopen := Function.update d.writeopen pg false }
  else Code.modify fun d => { d with readopen := Function.update d.readopen pg false }
  if ← Code.gets fun d => !d.readopen pg && !d.writeopen pg then kfree pg else pure ()

namespace Desk

/-- `fileclose(f)`. -/
def fileclose (f : FileId) : D Unit := do
  let pg ← Code.gets fun d => d.pipe f
  match ← lift (filecloseDrop f) with
  | none => pure ()
  | some ff =>
    if ff.type = .pipe then pipeclose pg ff.writable
    else if ff.type = .inode then lift (transaction .tx (iput ff.ip).whole).whole
    else pure ()

/-- `pipealloc(&f0, &f1)`. -/
def pipealloc : D (Option (FileId × FileId)) := do
  match ← lift filealloc with
  | none => pure none
  | some f0 =>
    match ← lift filealloc with
    | none =>
      fileclose f0
      pure none
    | some f1 =>
      match ← kalloc with
      | none =>
        fileclose f0
        fileclose f1
        pure none
      | some pg =>
        Code.modify fun d => { d with
          readopen := Function.update d.readopen pg true
          writeopen := Function.update d.writeopen pg true
          pipe := Function.update (Function.update d.pipe f0 pg) f1 pg }
        lift (Code.modify fun s => s.setFile f0 { s.file f0 with
          type := .pipe, readable := true, writable := false })
        lift (Code.modify fun s => s.setFile f1 { s.file f1 with
          type := .pipe, readable := false, writable := true })
        pure (some (f0, f1))

/-- `sys_pipe()`; `argOk` says that the pointer is accepted. -/
def sysPipe (argOk : Bool) : D (Option (Fd × Fd)) := do
  if argOk = false then pure none
  else
    match ← pipealloc with
    | none => pure none
    | some (rf, wf) =>
      match ← lift (fdalloc rf) with
      | none =>
        fileclose rf
        fileclose wf
        pure none
      | some fd0 =>
        match ← lift (fdalloc wf) with
        | none =>
          let p ← Code.self
          lift (Code.modify (State.setOfile p fd0 none))
          fileclose rf
          fileclose wf
          pure none
        | some fd1 => pure (some (fd0, fd1))

/-- `sys_dup()`; `fd` is `none` if it is not a descriptor at all. -/
def sysDup (fd : Option Fd) : D (Option Fd) := do
  match fd with
  | none => pure none
  | some fd =>
    let p ← Code.self
    match ← lift (Code.gets fun s => s.ofile p fd) with
    | none => pure none
    | some f =>
      match ← lift (fdalloc f) with
      | none => pure none
      | some fd' =>
        lift (filedup f)
        pure (some fd')

/-- `sys_open` up to where it has the inode, locked. -/
def openInode (sb : Super) (path : List Byte) (omode : BitVec 32) : K (Option Inum) := do
  if omode &&& oCreate ≠ 0 then (transaction (.txAdd path) (create sb path .file 0 0)).whole
  else
    match ← (namei sb path).whole with
    | none => pure none
    | some ip =>
      ilock ip
      let d ← copy ip
      if d.type = .dir ∧ omode ≠ 0 then
        iunlockput ip
        pure none
      else pure (some ip)

/-- `sys_open()`; `args` is `none` if the path or the mode is refused. -/
def sysOpen (sb : Super) (args : Option (List Byte × BitVec 32)) : D (Option Fd) := do
  match args with
  | none => pure none
  | some (path, omode) =>
    match ← lift (openInode sb path omode) with
    | none => pure none
    | some ip =>
      match ← lift filealloc with
      | none =>
        lift (iunlockput ip)
        pure none
      | some f =>
        match ← lift (fdalloc f) with
        | none =>
          fileclose f
          lift (iunlockput ip)
          pure none
        | some fd =>
          lift (iunlock ip)
          lift (Code.modify fun s => s.setFile f { s.file f with
            type := .inode, ip := ip, off := 0, readable := omode &&& oWronly = 0,
            writable := omode &&& oWronly ≠ 0 || omode &&& oRdwr ≠ 0 })
          pure (some fd)

end Desk

/-! ## 2. Rules -/

section

variable {α : Type} {E : Panic → Desk → Prop} {p : Pid} {d : Desk}

@[simp] theorem wp_lift (m : K α) (Q : α → Desk → Prop) :
    (lift m).wp E Q p d ↔
      m.wp (fun e s => E e { d with fs := s }) (fun a s => Q a { d with fs := s }) p d.fs := by
  unfold Code.wp lift
  cases m p d.fs <;> exact Iff.rfl

/-- `fileclose` of a file with one reference that is neither a pipe nor an inode. -/
theorem wp_fileclose_none {f : FileId} {Q : Unit → Desk → Prop} (href : (d.fs.file f).ref = 1)
    (htype : (d.fs.file f).type = .none)
    (hQ : Q () { d with fs := d.fs.setFile f { d.fs.file f with ref := 0, type := .none } }) :
    (Desk.fileclose f).wp E Q p d := by
  simp only [Desk.fileclose, Code.wp_bind, Code.wp_gets, wp_lift, filecloseDrop, Code.wp_panicIf,
    Code.wp_ite, Code.wp_modify, Code.wp_pure, href, htype]
  refine ⟨fun h => absurd h (by decide), fun _ => ⟨fun h => absurd h (by decide), fun _ => ?_⟩⟩
  simpa using hQ

/-- `fileclose` of a file with one reference that is a pipe. -/
theorem wp_fileclose_pipe {f : FileId} {Q : Unit → Desk → Prop} (href : (d.fs.file f).ref = 1)
    (htype : (d.fs.file f).type = .pipe)
    (hQ : (pipeclose (d.pipe f) (d.fs.file f).writable).wp E Q p
      { d with fs := d.fs.setFile f { d.fs.file f with ref := 0, type := .none } }) :
    (Desk.fileclose f).wp E Q p d := by
  simp only [Desk.fileclose, Code.wp_bind, Code.wp_gets, wp_lift, filecloseDrop, Code.wp_panicIf,
    Code.wp_ite, Code.wp_modify, Code.wp_pure, href, htype]
  refine ⟨fun h => absurd h (by decide), fun _ => ⟨fun h => absurd h (by decide), fun _ => ?_⟩⟩
  simpa using hQ

/-- The read end is closed while the write end is open: the page stays. -/
theorem wp_pipeclose_read {pg : Nat} {Q : Unit → Desk → Prop} (hwrite : d.writeopen pg = true)
    (hQ : Q () { d with readopen := Function.update d.readopen pg false }) :
    (pipeclose pg false).wp E Q p d := by
  simpa [pipeclose, hwrite] using hQ

/-- The write end is closed after the read end: the page is free again. -/
theorem wp_pipeclose_last {pg : Nat} {Q : Unit → Desk → Prop} (hread : d.readopen pg = false)
    (hQ : Q () { d with writeopen := Function.update d.writeopen pg false, free := pg :: d.free }) :
    (pipeclose pg true).wp E Q p d := by
  simpa [pipeclose, kfree, hread] using hQ

end

/-! ## 3. What a failed call leaves behind -/

/-- Descriptors, files, references, locks and free pages are the same. -/
structure Desk.Same (d d' : Desk) : Prop where
  ofile : d'.fs.ofile = d.fs.ofile
  file : ∀ f, (d'.fs.file f).ref = (d.fs.file f).ref ∧ (d'.fs.file f).type = (d.fs.file f).type
  inode : ∀ i, (d'.fs.icache i).ref = (d.fs.icache i).ref ∧
    (d'.fs.icache i).busy = (d.fs.icache i).busy
  free : d'.free = d.free

/-- What is supposed of the tables: a file that nobody refers to is FD_NONE, an inode that nobody
refers to is not locked, the cache shows the types on disk, and the process has a current
directory. -/
structure Desk.Fit (p : Pid) (d : Desk) : Prop where
  closed : ∀ f, (d.fs.file f).ref = 0 → (d.fs.file f).type = .none
  unlocked : ∀ i, (d.fs.icache i).ref = 0 → (d.fs.icache i).busy = false
  shown : ∀ i, 0 < (d.fs.icache i).ref → (d.fs.icache i).valid = true →
    (d.fs.icache i).busy = false → d.fs.Solid i
  home : 0 < (d.fs.icache (d.fs.cwd p)).ref

section

variable {p : Pid} {d : Desk} {sb : Super}

theorem Desk.Same.refl (d : Desk) : d.Same d := ⟨rfl, fun _ => ⟨rfl, rfl⟩, fun _ => ⟨rfl, rfl⟩, rfl⟩

/-- At the start the process holds nothing, and the others all there is. -/
theorem Desk.Fit.has (h : d.Fit p) : Has d.fs.grip d.fs 0 d.fs where
  grip := (add_zero _).symm
  sound := by
    rw [add_zero]
    intro i hi
    by_contra hzero
    have hfree := h.unlocked i (Nat.eq_zero_of_not_pos hzero)
    rw [State.grip, hfree] at hi
    cases hi
  typed := ⟨h.shown, fun i hi => absurd hi (Nat.lt_irrefl 0)⟩
  kept := .refl _ _

/-- At the end it holds nothing again. -/
theorem Desk.same_of_has {s : State} (h : Has d.fs.grip d.fs 0 s) : d.Same { d with fs := s } := by
  have hgrip : s.grip = d.fs.grip := h.grip.trans (add_zero _)
  refine ⟨h.kept.ofile, fun f => ?_, fun i => ?_, rfl⟩
  · obtain ⟨off, e⟩ := h.kept.file f
    rw [e]
    exact ⟨rfl, rfl⟩
  · obtain ⟨hr, hb⟩ := Prod.ext_iff.mp (congrFun hgrip i)
    refine ⟨hr, ?_⟩
    revert hb
    show (s.icache i).busy.toNat = (d.fs.icache i).busy.toNat → _
    cases (s.icache i).busy <;> cases (d.fs.icache i).busy <;> decide

/-- What `sys_open` holds when it has, or has not, got the inode. -/
def lockedRef : Option Inum → Hold
  | none => 0
  | some ip => 0 + oneRef ip + oneLock ip

/-- `sys_open` until it has the inode: nothing, or a reference and the lock. -/
theorem wp_openInode_has {path : List Byte} {omode : BitVec 32} (h : d.Fit p) :
    (Desk.openInode sb path omode).wp (fun _ _ => True)
      (fun r t => Has d.fs.grip d.fs (lockedRef r) t) p d.fs := by
  have hcwd : 0 < (d.fs.grip (d.fs.cwd p)).1 + ((0 : Hold) (d.fs.cwd p)).1 := h.home
  unfold Desk.openInode
  rw [Code.wp_ite]
  refine ⟨fun _ => ?_, fun _ => ?_⟩
  · refine Code.wp_imp (wp_transaction_has lockedRef (fun _ _ => True) h.has
      (fun t ht hhome => ?_) fun _ _ _ _ _ => trivial) fun r t ht => ht.1
    refine Code.wp_imp (wp_create_has (by decide) ht (by rw [hhome]; exact hcwd)) fun r u hu => ?_
    cases r with
    | none => exact ⟨hu, trivial⟩
    | some ip => exact ⟨hu.1, trivial⟩
  · rw [Code.wp_bind, namei, Prog.wp_whole_bind]
    refine Code.wp_imp (wp_namex_has h.has hcwd) fun r t ht => ?_
    cases r with
    | none =>
      rw [refTo, add_zero] at ht
      exact ht
    | some e =>
      rw [refTo] at ht
      simp only [Option.map_some, Prog.whole_pure, Code.wp_pure]
      rw [Code.wp_bind]
      refine Code.wp_imp (wp_ilock_has ht) fun _ u hu => ?_
      rw [Code.wp_bind, wp_copy, Code.wp_ite]
      refine ⟨fun _ => ?_, fun _ => hu.1⟩
      rw [Code.wp_bind]
      exact Code.wp_imp (wp_iunlockput_has hu.1 h.has.sound) fun _ v hv => hv

/-- A file that was not in use is given back. -/
theorem setFile_back {s : State} {f : FileId} (href : (s.file f).ref = 0)
    (htype : (s.file f).type = .none) :
    (s.setFile f { s.file f with ref := 1 }).setFile f
      { (s.setFile f { s.file f with ref := 1 }).file f with ref := 0, type := .none } = s := by
  have hfile : ({ s.file f with ref := 0, type := .none } : File) = s.file f := by
    rw [← href, ← htype]
  simp [State.setFile, hfile]

/-- **`sys_open`** -/
theorem same_sysOpen {args : Option (List Byte × BitVec 32)} (h : d.Fit p) :
    (Desk.sysOpen sb args).wp (fun _ _ => True) (fun r d' => r = none → d.Same d') p d := by
  unfold Desk.sysOpen
  cases args with
  | none => exact fun _ => .refl d
  | some a =>
    obtain ⟨path, omode⟩ := a
    simp only
    rw [Code.wp_bind, wp_lift]
    refine Code.wp_imp (wp_openInode_has h) fun r s hs => ?_
    cases r with
    | none => exact fun _ => Desk.same_of_has hs
    | some ip =>
      -- giving back the inode is all that is left to do
      have hback : (do
          lift (iunlockput ip)
          pure none : D (Option Fd)).wp (fun _ _ => True) (fun r d' => r = none → d.Same d') p
            { d with fs := s } := by
        rw [Code.wp_bind, wp_lift]
        exact Code.wp_imp (wp_iunlockput_has hs h.has.sound) fun _ t ht _ => Desk.same_of_has ht
      have hclosed : ∀ f, (s.file f).ref = 0 → (s.file f).type = .none := by
        intro f hf
        obtain ⟨off, e⟩ := hs.kept.file f
        rw [e] at hf ⊢
        exact h.closed f hf
      simp only
      rw [Code.wp_bind, wp_lift]
      refine wp_filealloc hback fun f hf => ?_
      simp only
      rw [Code.wp_bind, wp_lift]
      refine wp_fdalloc ?_ fun fd _ => ?_
      · rw [Code.wp_bind]
        refine wp_fileclose_none ?_ ?_ ?_
        · simp [State.setFile]
        · simpa [State.setFile] using hclosed f hf
        · rw [setFile_back hf (hclosed f hf)]
          exact hback
      · simp only [Code.wp_bind, wp_lift]
        refine Code.wp_of_forall (fun _ t => ?_) fun _ _ => trivial
        exact nofun

/-- **`sys_dup`** -/
theorem same_sysDup {fd : Option Fd} :
    (Desk.sysDup fd).wp (fun _ _ => True) (fun r d' => r = none → d.Same d') p d := by
  unfold Desk.sysDup
  cases fd with
  | none => exact fun _ => .refl d
  | some fd =>
    simp only [Code.wp_bind, Code.wp_self, wp_lift, Code.wp_gets]
    cases d.fs.ofile p fd with
    | none => exact fun _ => .refl d
    | some f =>
      simp only [Code.wp_bind, wp_lift]
      refine wp_fdalloc (fun _ => .refl d) fun fd' _ => ?_
      simp only [Code.wp_bind, wp_lift]
      exact Code.wp_of_forall (fun _ _ e => by cases e) fun _ _ => trivial

/-- Two files that were not in use are not in use again, and everything else is as it was. -/
theorem Desk.same_of_files {f0 f1 : FileId} (x0 x1 : File) {d' : Desk} (h : d.Fit p)
    (h0 : (d.fs.file f0).ref = 0) (h1 : (d.fs.file f1).ref = 0)
    (hx0 : x0.ref = 0 ∧ x0.type = .none) (hx1 : x1.ref = 0 ∧ x1.type = .none)
    (hfile : d'.fs.file = Function.update (Function.update d.fs.file f0 x0) f1 x1)
    (hofile : d'.fs.ofile = d.fs.ofile) (hicache : d'.fs.icache = d.fs.icache)
    (hfree : d'.free = d.free) : d.Same d' := by
  refine ⟨hofile, fun f => ?_, fun i => by rw [hicache]; exact ⟨rfl, rfl⟩, hfree⟩
  rw [hfile]
  rcases eq_or_ne f f1 with rfl | hne1
  · rw [Function.update_self, hx1.1, hx1.2, h1, h.closed f h1]
    exact ⟨rfl, rfl⟩
  rw [Function.update_of_ne hne1]
  rcases eq_or_ne f f0 with rfl | hne0
  · rw [Function.update_self, hx0.1, hx0.2, h0, h.closed f h0]
    exact ⟨rfl, rfl⟩
  · rw [Function.update_of_ne hne0]
    exact ⟨rfl, rfl⟩

/-- Two places that change twice. -/
theorem update_two {f0 f1 : FileId} (hne : f0 ≠ f1) (g : FileId → File) (a b x0 x1 : File) :
    Function.update (Function.update (Function.update (Function.update g f0 a) f1 b) f0 x0) f1 x1 =
      Function.update (Function.update g f0 x0) f1 x1 := by
  rw [Function.update_comm hne.symm, Function.update_idem, Function.update_idem]

/-- **`pipealloc`**: nothing, or two files that were not in use, one for each end of a pipe in a
page that was free. -/
theorem wp_pipealloc {Q : Option (FileId × FileId) → Desk → Prop} (h : d.Fit p)
    (hnone : ∀ d', d.Same d' → Q none d')
    (hsome : ∀ f0 f1 pg d', f0 ≠ f1 → (d.fs.file f0).ref = 0 → (d.fs.file f1).ref = 0 →
      d.free = pg :: d'.free → d'.pipe f0 = pg → d'.pipe f1 = pg → d'.readopen pg = true →
      d'.writeopen pg = true →
      d'.fs = (d.fs.setFile f0 { d.fs.file f0 with
        type := .pipe, ref := 1, readable := true, writable := false }).setFile f1
          { d.fs.file f1 with type := .pipe, ref := 1, readable := false, writable := true } →
      Q (some (f0, f1)) d') :
    Desk.pipealloc.wp (fun _ _ => True) Q p d := by
  unfold Desk.pipealloc
  rw [Code.wp_bind, wp_lift]
  refine wp_filealloc (hnone d (.refl d)) fun f0 hf0 => ?_
  simp only
  rw [Code.wp_bind, wp_lift]
  refine wp_filealloc ?_ fun f1 hf1 => ?_
  · rw [Code.wp_bind]
    refine wp_fileclose_none (by simp [State.setFile])
      (by simpa [State.setFile] using h.closed f0 hf0) ?_
    rw [setFile_back hf0 (h.closed f0 hf0)]
    exact hnone d (.refl d)
  have hne : f0 ≠ f1 := by
    rintro rfl
    simp [State.setFile] at hf1
  have hf1' : (d.fs.file f1).ref = 0 := by
    simpa [State.setFile, hne.symm] using hf1
  simp only [kalloc, Code.wp_bind, Code.wp_gets]
  cases hfree : d.free with
  | nil =>
    simp only [Code.wp_bind, Code.wp_pure]
    refine wp_fileclose_none (by simp [State.setFile, hne])
      (by simpa [State.setFile, hne] using h.closed f0 hf0) ?_
    refine wp_fileclose_none (by simp [State.setFile, hne.symm])
      (by simpa [State.setFile, hne.symm] using h.closed f1 hf1') (hnone _ ?_)
    refine Desk.same_of_files { d.fs.file f0 with ref := 0, type := .none }
      { d.fs.file f1 with ref := 0, type := .none } h hf0 hf1' ⟨rfl, rfl⟩ ⟨rfl, rfl⟩ ?_ rfl rfl
      hfree.symm
    simpa [State.setFile, hne, hne.symm] using update_two hne ..
  | cons pg free =>
    simp only [Code.wp_bind, Code.wp_pure, Code.wp_modify, wp_lift]
    refine hsome f0 f1 pg _ hne hf0 hf1' hfree ?_ ?_ ?_ ?_ ?_
    · simp [hne]
    · simp
    · simp
    · simp
    · simpa [State.setFile, hne, hne.symm] using update_two hne ..

/-- Closing both ends of a pipe: the last one gives the page back. -/
theorem wp_closeEnds {f0 f1 : FileId} {pg : Nat} {Q : Unit → Desk → Prop} (hne : f0 ≠ f1)
    (href0 : (d.fs.file f0).ref = 1) (htype0 : (d.fs.file f0).type = .pipe)
    (hend0 : (d.fs.file f0).writable = false) (href1 : (d.fs.file f1).ref = 1)
    (htype1 : (d.fs.file f1).type = .pipe) (hend1 : (d.fs.file f1).writable = true)
    (hpipe0 : d.pipe f0 = pg) (hpipe1 : d.pipe f1 = pg) (hwrite : d.writeopen pg = true)
    (hQ : ∀ d', d'.fs = (d.fs.setFile f0 { d.fs.file f0 with ref := 0, type := .none }).setFile f1
        { d.fs.file f1 with ref := 0, type := .none } → d'.free = pg :: d.free → Q () d') :
    (Desk.fileclose f0).wp (fun _ _ => True)
      (fun _ d' => (Desk.fileclose f1).wp (fun _ _ => True) Q p d') p d := by
  refine wp_fileclose_pipe href0 htype0 ?_
  rw [hend0, hpipe0]
  refine wp_pipeclose_read hwrite (wp_fileclose_pipe ?_ ?_ ?_)
  · simpa [State.setFile, hne.symm] using href1
  · simpa [State.setFile, hne.symm] using htype1
  have hend : ((d.fs.setFile f0 { d.fs.file f0 with ref := 0, type := .none }).file f1).writable =
      true := by
    simpa [State.setFile, hne.symm] using hend1
  simp only [hend, hpipe1]
  refine wp_pipeclose_last (Function.update_self ..) (hQ _ ?_ rfl)
  simp [State.setFile, hne.symm, hend1]

/-- **`sys_pipe`** -/
theorem same_sysPipe {argOk : Bool} (h : d.Fit p) :
    (Desk.sysPipe argOk).wp (fun _ _ => True) (fun r d' => r = none → d.Same d') p d := by
  unfold Desk.sysPipe
  rw [Code.wp_ite]
  refine ⟨fun _ _ => .refl d, fun _ => ?_⟩
  rw [Code.wp_bind]
  refine wp_pipealloc h (fun d' hd' _ => hd') fun rf wf pg d' hne hrf hwf hfree hpipe0 hpipe1 _
    hwrite hfs => ?_
  have hfile0 : d'.fs.file rf = { d.fs.file rf with
      type := .pipe, ref := 1, readable := true, writable := false } := by
    rw [hfs]
    simp [State.setFile, hne]
  have hfile1 : d'.fs.file wf = { d.fs.file wf with
      type := .pipe, ref := 1, readable := false, writable := true } := by
    rw [hfs]
    simp [State.setFile]
  -- closing both ends leads back, whatever happened to the descriptors meanwhile
  have hback : ∀ s, s.file = d'.fs.file → s.icache = d'.fs.icache → s.ofile = d.fs.ofile →
      (Desk.fileclose rf).wp (fun _ _ => True)
        (fun _ d'' => (Desk.fileclose wf).wp (fun _ _ => True) (fun _ d'' => d.Same d'') p d'') p
        { d' with fs := s } := by
    intro s hsfile hscache hsofile
    refine wp_closeEnds hne ?_ ?_ ?_ ?_ ?_ ?_ hpipe0 hpipe1 hwrite fun d'' hd'' hfree'' => ?_
    · rw [hsfile, hfile0]
    · rw [hsfile, hfile0]
    · rw [hsfile, hfile0]
    · rw [hsfile, hfile1]
    · rw [hsfile, hfile1]
    · rw [hsfile, hfile1]
    · refine Desk.same_of_files { s.file rf with ref := 0, type := .none }
        { s.file wf with ref := 0, type := .none } h hrf hwf ⟨rfl, rfl⟩ ⟨rfl, rfl⟩ ?_ ?_ ?_ ?_
      · rw [hd'']
        simp only [State.setFile, hsfile]
        rw [hfs]
        exact update_two hne ..
      · rw [hd'']
        exact hsofile
      · rw [hd'']
        show s.icache = d.fs.icache
        rw [hscache, hfs]
        rfl
      · rw [hfree'', hfree]
  have hofile : d'.fs.ofile = d.fs.ofile := by rw [hfs]; rfl
  simp only
  rw [Code.wp_bind, wp_lift]
  refine wp_fdalloc ?_ fun fd0 hfd0 => ?_
  · simp only [Code.wp_bind, Code.wp_pure]
    exact Code.wp_imp (hback d'.fs rfl rfl hofile) fun _ t ht => Code.wp_imp ht fun _ u hu _ => hu
  · simp only
    rw [Code.wp_bind, wp_lift]
    refine wp_fdalloc ?_ fun fd1 _ e => by cases e
    simp only [Code.wp_bind, Code.wp_pure, Code.wp_self, wp_lift, Code.wp_modify]
    refine Code.wp_imp (hback _ ?_ ?_ ?_) fun _ t ht => Code.wp_imp ht fun _ u hu _ => hu
    · rfl
    · rfl
    · rw [← hofile]
      simp [State.setOfile, hfd0.symm]

/-- **Failed descriptor calls have no residue.** -/
theorem failed_calls_leave_nothing (sb : Super) (p : Pid) (d d' : Desk) (h : d.Fit p) :
    (∀ args, Desk.sysOpen sb args p d = .ok none d' → d.Same d') ∧
      (∀ fd, Desk.sysDup fd p d = .ok none d' → d.Same d') ∧
      ∀ argOk, Desk.sysPipe argOk p d = .ok none d' → d.Same d' :=
  ⟨fun _ hrun => Code.of_wp (same_sysOpen h) hrun rfl, fun _ hrun => Code.of_wp same_sysDup hrun rfl,
    fun _ hrun => Code.of_wp (same_sysPipe h) hrun rfl⟩

end

/-- A new file system on a machine with no page left. -/
def bareDesk : Desk := ⟨mkfs smallDisk, [], fun _ => 0, fun _ => false, fun _ => false⟩

theorem fit_bareDesk : bareDesk.Fit 0 where
  closed _ _ := rfl
  unlocked _ _ := rfl
  shown _ _ hvalid _ := absurd hvalid Bool.false_ne_true
  home := by decide

/-- `sys_pipe` fails there when it has two files. -/
theorem pipe_without_page_leaves_nothing :
    ∃ d', Desk.sysPipe true 0 bareDesk = .ok none d' ∧ bareDesk.Same d' :=
  ⟨_, rfl, (failed_calls_leave_nothing smallDisk 0 _ _ fit_bareDesk).2.2 true rfl⟩

end Xv6.Fs
