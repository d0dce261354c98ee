/-
# Every system call, piece by piece

A result about all runs asks one thing of every piece of every system call.  The pieces are of
five kinds: passive code; code that locks an inode and reads it; `iput`; `begin_trans` and
`commit_trans`; and the code of a transaction between the two.  So a property of programs that
holds of these, and is kept by sequence, holds of every system call (`Closed.syscall`).
-/
import Xv6.Fs.Frame

namespace Xv6.Fs

open Xv6.Bytes Xv6.Threads

variable {sb : Super} {α β : Type}

/-! ## 1. Reading outside a transaction -/

/-- Code that is passive once the inode `i` is locked and has no hole. -/
def Reads (i : Inum) (m : K α) : Prop :=
  ∀ p s, NoHole s.blk (s.icache i).din →
    m.wp (fun e t => e.Calm ∧ Still s t) (fun _ t => Still s t) p s

/-- Code that keeps every basic property, in any state. -/
def Ordinary (m : K α) : Prop := ∀ I E, Basic I E → m.Preserves I E

/-- Passive code reads. -/
theorem Within.reads {i : Inum} {m : K α} (h : Passive m) : Reads i m := fun p s _ => h.wp p s

theorem Within.ordinary {m : K α} (h : Passive m) : Ordinary m := fun _ _ hb => hb.silent h.silent

/-- One round of `namex` behind the `ilock`. -/
def lookupLocked (sb : Super) (ip : Inum) (name : List Byte) (last : Bool) : K Look := do
  let d ← copy ip
  if d.type ≠ .dir then
    iunlock ip
    pure .fail
  else if last then
    iunlock ip
    pure .stop
  else
    match ← dirlookup sb ip name with
    | none =>
      iunlock ip
      pure .fail
    | some (next, _) =>
      iunlock ip
      pure (.next next)

theorem passive_unlockThen (ip : Inum) (a : α) : Passive (do
    iunlock ip
    pure a) := .bind (passive_iunlock ip) fun _ => .pure a

theorem reads_lookup (ip : Inum) (name : List Byte) (last : Bool) :
    Reads ip (lookupLocked sb ip name last) := by
  intro p s hn
  have hrefl : Still s s := refl_of Still s
  rw [lookupLocked, Code.wp_bind, wp_copy, Code.wp_ite]
  refine ⟨fun _ => (passive_unlockThen ip _).wp p s, fun _ => ?_⟩
  rw [Code.wp_ite]
  refine ⟨fun _ => (passive_unlockThen ip _).wp p s, fun _ => ?_⟩
  rw [Code.wp_bind]
  refine wp_dirlookup hn ⟨by decide, hrefl⟩ ⟨by decide, hrefl⟩ (fun _ => ⟨by decide, hrefl⟩)
    (fun _ => (passive_unlockThen ip _).wp p s) fun off de _ => ?_
  exact Code.wp_imp ((passive_iget (deInum de)).wp p s) fun _ t ht => passive_unlockThen ip _ s p t ht

theorem ordinary_lookup (ip : Inum) (name : List Byte) (last : Bool) :
    Ordinary (lookupLocked sb ip name last) := by
  intro I E h
  have hunlock : ∀ r : Look, (do
      iunlock ip
      pure r : K Look).Preserves I E := fun r => h.silent (passive_unlockThen ip r).silent
  refine .bind (.gets _) fun d => .ite (hunlock _) (.ite (hunlock _)
    (.bind (basic_dirlookup h sb ip name) fun r => ?_))
  cases r <;> exact hunlock _

/-- `fileread` behind the `ilock`. -/
def freadLocked (sb : Super) (f : FileId) (ip : Inum) (n : Nat) : K Unit := do
  let x ← Code.gets fun s => s.file f
  let r ← readi sb ip x.off n
  advance f (r.map List.length)
  iunlock ip

theorem reads_fread (f : FileId) (ip : Inum) (n : Nat) : Reads ip (freadLocked sb f ip n) := by
  intro p s hn
  simp only [freadLocked, Code.wp_bind, Code.wp_gets]
  refine wp_readi hn ⟨by decide, refl_of Still s⟩ ?_
  rw [← Code.wp_bind]
  exact (Within.bind (passive_advance f _) fun _ => passive_iunlock ip).wp p s

theorem ordinary_fread (f : FileId) (ip : Inum) (n : Nat) : Ordinary (freadLocked sb f ip n) :=
  fun _ _ h => .bind (.gets _) fun _ => .bind (basic_readi h sb ip _ n) fun _ =>
    .bind (h.silent (passive_advance f _).silent) fun _ => h.silent (passive_iunlock ip).silent

/-- `exec` behind the `ilock`. -/
def readAllLocked (sb : Super) (ip : Inum) (rs : List (Nat × Nat)) : K Unit := do
  readAll sb ip rs
  iunlock ip

theorem reads_readAll (ip : Inum) : ∀ rs : List (Nat × Nat), Reads ip (readAllLocked sb ip rs)
  | [] => (Within.bind (.pure ()) fun _ => passive_iunlock ip).reads
  | (off, n) :: rs => by
    intro p s hn
    simp only [readAllLocked, readAll, Code.wp_bind]
    refine wp_readi hn ⟨by decide, refl_of Still s⟩ ?_
    rw [← Code.wp_bind]
    exact reads_readAll ip rs p s hn

theorem ordinary_readAll (ip : Inum) : ∀ rs : List (Nat × Nat), Ordinary (readAllLocked sb ip rs)
  | [] => (Within.bind (.pure ()) fun _ => passive_iunlock ip).ordinary
  | (off, n) :: rs => fun I E h =>
    have hrest : (readAll sb ip rs).Preserves I E := ordinary_readAll.go h rs
    .bind (.bind (basic_readi h sb ip off n) fun _ => hrest) fun _ =>
      h.silent (passive_iunlock ip).silent
where
  go {I : Pid → State → Prop} {E : Panic → State → Prop} (h : Basic I E) :
      ∀ rs : List (Nat × Nat), (readAll sb ip rs).Preserves I E
    | [] => .pure _
    | (off, n) :: rs => .bind (basic_readi h sb ip off n) fun _ => go h rs

/-! ## 2. Properties of programs -/

/-- A property of programs that sequence keeps and that the pieces outside transactions have, and
so do the transactions of all calls but `write`. -/
structure Closed (sb : Super) (G : ∀ {α : Type}, P α → Prop) : Prop where
  pure : ∀ {α : Type} (a : α), G (Pure.pure a : P α)
  seq : ∀ {α β : Type} {m : P α} {f : α → P β}, G m → (∀ a, G (f a)) → G (m >>= f)
  passive : ∀ {α : Type} {act : K α}, Passive act → G (Prog.atomic .other act)
  look : ∀ {α : Type} {i : Inum} {m : K α}, Reads i m → Ordinary m →
    G (Prog.atomic (.look i) (do
      ilock i
      m))
  put : ∀ i, G (iput i)
  close : ∀ i, G (transaction .tx (iput i).whole)
  link : ∀ ip new, G (transaction (.txAdd new) (linkBody sb ip new))
  unlink : ∀ dp name, G (transaction .tx (unlinkBody sb dp name))
  create : ∀ path, G (transaction (.txAdd path) (create sb path .file 0 0))
  make : ∀ path type major minor, type = .dir ∨ type = .dev →
    G (transaction (.txAdd path) (makeBody sb path type major minor))

namespace Closed

variable {G : ∀ {α : Type}, P α → Prop} (h : Closed sb G)
include h

theorem when {c : Prop} [Decidable c] {m : P Unit} (hm : c → G m) : G (Prog.when c m) := by
  rw [Prog.when]
  split
  · rename_i hc
    exact hm hc
  · exact h.pure ()

/-- A piece that locks an inode and goes on with passive code. -/
theorem lookPassive {i : Inum} {m : K α} (hm : Passive m) :
    G (Prog.atomic (.look i) (do
      ilock i
      m)) := h.look hm.reads hm.ordinary

end Closed

section Programs

variable {G : ∀ {α : Type}, P α → Prop} (h : Closed sb G)
include h

theorem closed_namexLoop (parent : Bool) : ∀ (rounds : Nat) (ip : Inum) (path : List Byte),
    G (namexLoop sb parent rounds ip path)
  | 0, ip, _ => closed_namexEnd ip
  | rounds + 1, ip, path => by
    unfold namexLoop
    split
    · exact closed_namexEnd ip
    · rename_i name rest _
      refine h.seq (h.look (reads_lookup ip name _) (ordinary_lookup ip name _)) fun r => ?_
      cases r with
      | fail => exact h.seq (h.put ip) fun _ => h.pure _
      | stop => exact h.pure _
      | next j => exact h.seq (h.put ip) fun _ => closed_namexLoop parent rounds j rest
where
  closed_namexEnd (ip : Inum) : G (namexLoop.namexEnd parent ip) := by
    cases parent with
    | true => exact h.seq (h.put ip) fun _ => h.pure _
    | false => exact h.pure _

theorem closed_namex (path : List Byte) (parent : Bool) :
    G (namex sb path parent) :=
  h.seq (h.passive (passive_namexStart path)) fun _ => closed_namexLoop h parent _ _ _

theorem closed_namei (path : List Byte) : G (namei sb path) :=
  h.seq (closed_namex h path false) fun _ => h.pure _

theorem closed_fileclose (f : FileId) : G (fileclose f) := by
  refine h.seq (h.passive (passive_filecloseDrop f)) fun o => ?_
  cases o with
  | none => exact h.pure _
  | some x =>
    dsimp only
    split
    · exact h.close x.ip
    · exact h.pure _

theorem closed_withFile (fd : Fd) {m : FileId → P Unit} (hm : ∀ f, G (m f)) :
    G (withFile fd m) := by
  refine h.seq (h.passive (.bind .self fun _ => .gets _)) fun o => ?_
  cases o with
  | none => exact h.pure _
  | some f => exact hm f

theorem closed_fileread (f : FileId) (n : Nat) : G (fileread sb f n) := by
  refine h.seq (h.passive (.gets _)) fun x => h.when fun _ => ?_
  cases x.type with
  | none => exact h.passive (.panic (by decide))
  | pipe => exact h.pure _
  | inode => exact h.look (reads_fread f x.ip n) (ordinary_fread f x.ip n)

theorem closed_fwriteLoop (f : FileId) (ip : Inum)
    (hwrite : ∀ src, src.length ≤ maxWrite → G (transaction .tx (fwriteInode sb f ip src))) :
    ∀ (rounds : Nat) (src : List Byte), G (fwriteLoop sb f ip rounds src)
  | 0, _ => h.pure _
  | rounds + 1, src => by
    unfold fwriteLoop
    split
    · exact h.pure _
    · refine h.seq (hwrite _ (List.length_take_le _ _)) fun r => ?_
      cases r with
      | none => exact h.pure _
      | some r =>
        dsimp only
        split
        · exact h.passive (.panic (by decide))
        · exact closed_fwriteLoop f ip hwrite rounds _

theorem closed_filewrite (f : FileId) (src : List Byte)
    (hwrite : ∀ ip src, src.length ≤ maxWrite →
      G (transaction .tx (fwriteInode sb f ip src))) : G (filewrite sb f src) := by
  refine h.seq (h.passive (.gets _)) fun x => h.when fun _ => ?_
  cases x.type with
  | none => exact h.passive (.panic (by decide))
  | pipe => exact h.pure _
  | inode => exact closed_fwriteLoop h f x.ip (hwrite x.ip) _ src

theorem closed_filestat (f : FileId) : G (filestat f) :=
  h.seq (h.passive (.gets _)) fun x => h.when fun _ =>
    h.lookPassive (passive_iunlock x.ip)

theorem closed_sysPipe : G sysPipe := by
  have hdrop : ∀ rf wf : FileId, Passive (do
      let _ ← filecloseDrop rf
      let _ ← filecloseDrop wf) := fun rf wf =>
    .bind (passive_filecloseDrop rf) fun _ => .bind (passive_filecloseDrop wf) fun _ => .pure _
  refine h.passive (.bind passive_pipealloc fun o => ?_)
  cases o with
  | none => exact .pure _
  | some fs =>
    refine .bind .self fun p => .bind (passive_fdalloc _) fun o => ?_
    cases o with
    | none => exact hdrop _ _
    | some fd =>
      refine .bind (passive_fdalloc _) fun o => ?_
      cases o with
      | some _ => exact .pure _
      | none => exact .bind (.tables fun _ => ⟨⟨rfl, rfl, rfl, rfl, rfl⟩, rfl, rfl, rfl, rfl⟩) fun _ => hdrop _ _

theorem closed_openEnd (ip : Inum) (omode : BitVec 32) : G (openEnd ip omode) := by
  refine h.seq (h.passive (passive_openFile ip omode)) fun ok => ?_
  cases ok with
  | true => exact h.pure _
  | false => exact h.put ip

theorem closed_sysOpen (path : List Byte) (omode : BitVec 32) :
    G (sysOpen sb path omode) := by
  unfold sysOpen
  split
  · refine h.seq (h.create path) fun r => ?_
    cases r with
    | none => exact h.pure _
    | some ip => exact closed_openEnd h ip omode
  · refine h.seq (closed_namei h path) fun r => ?_
    cases r with
    | none => exact h.pure _
    | some ip =>
      refine h.seq (h.lookPassive ?_) fun ok => ?_
      · exact .bind (.gets _) fun d => .ite (.bind (passive_iunlock ip) fun _ => .pure _) (.pure _)
      · cases ok with
        | true => exact closed_openEnd h ip omode
        | false => exact h.put ip

theorem closed_sysChdir (path : List Byte) : G (sysChdir sb path) := by
  refine h.seq (closed_namei h path) fun r => ?_
  cases r with
  | none => exact h.pure _
  | some ip =>
    refine h.seq (h.lookPassive ?_) fun ok => ?_
    · exact .bind (.gets _) fun d => .bind (passive_iunlock ip) fun _ => .pure _
    · cases ok with
      | false => exact h.put ip
      | true =>
        exact h.seq (h.passive .self) fun q => h.seq (h.passive (.gets _)) fun old =>
          h.seq (h.put old) fun _ => h.passive (.tables fun _ => ⟨⟨rfl, rfl, rfl, rfl, rfl⟩, rfl, rfl, rfl, rfl⟩)

theorem closed_exec (path : List Byte) (reads : List (Nat × Nat)) :
    G (exec sb path reads) := by
  refine h.seq (closed_namei h path) fun r => ?_
  cases r with
  | none => exact h.pure _
  | some ip => exact h.seq (h.look (reads_readAll ip reads) (ordinary_readAll ip reads)) fun _ => h.put ip

theorem closed_fork (np : Pid) : G (fork np) :=
  h.passive (.bind (.await _) fun _ => .bind (passive_dupAll np _) fun _ => .bind .self fun _ =>
    .bind (.gets _) fun _ => .bind (passive_idup _) fun _ => .tables fun _ => ⟨⟨rfl, rfl, rfl, rfl, rfl⟩, rfl, rfl, rfl, rfl⟩)

theorem closed_closeAll (q : Pid) : ∀ fds : List Fd, G (closeAll q fds)
  | [] => h.pure _
  | fd :: fds => by
    refine h.seq (h.seq (h.passive (.gets _)) fun o => ?_) fun _ => closed_closeAll q fds
    cases o with
    | none => exact h.pure _
    | some f =>
      exact h.seq (closed_fileclose h f) fun _ => h.passive (.tables fun _ => ⟨⟨rfl, rfl, rfl, rfl, rfl⟩, rfl, rfl, rfl, rfl⟩)

theorem closed_exit : G exit :=
  h.seq (h.passive (.bind .self fun _ => .bind (.panicIf _ (by decide)) fun _ => .pure _)) fun q =>
    h.seq (closed_closeAll h q _) fun _ => h.seq (h.passive (.gets _)) fun i =>
      h.seq (h.put i) fun _ => h.passive (.tables fun _ => ⟨⟨rfl, rfl, rfl, rfl, rfl⟩, rfl, rfl, rfl, rfl⟩)

/-- **A closed property of programs holds of every system call.** -/
theorem Closed.syscall (c : Call)
    (hwrite : ∀ fd bytes, c = .write fd bytes → ∀ f ip src, src.length ≤ maxWrite →
      G (transaction .tx (fwriteInode sb f ip src))) : G (syscall sb c) := by
  cases c with
  | «open» path omode => exact closed_sysOpen h path omode
  | close fd =>
    exact closed_withFile h fd fun f => h.seq
      (h.passive (.bind .self fun _ => .tables fun _ => ⟨⟨rfl, rfl, rfl, rfl, rfl⟩, rfl, rfl, rfl, rfl⟩)) fun _ =>
        closed_fileclose h f
  | read fd n => exact closed_withFile h fd fun f => closed_fileread h f n
  | write fd src =>
    exact closed_withFile h fd fun f => closed_filewrite h f src (hwrite fd src rfl f)
  | fstat fd => exact closed_withFile h fd (closed_filestat h)
  | dup fd =>
    refine closed_withFile h fd fun f => h.passive (.bind (passive_fdalloc f) fun o => ?_)
    cases o with
    | none => exact .pure _
    | some _ => exact passive_filedup f
  | pipe => exact closed_sysPipe h
  | link old new =>
    refine h.seq (closed_namei h old) fun r => ?_
    cases r with
    | none => exact h.pure _
    | some ip => exact h.link ip new
  | unlink path =>
    refine h.seq (closed_namex h path true) fun r => ?_
    cases r with
    | none => exact h.pure _
    | some e => exact h.unlink _ _
  | mkdir path => exact h.make path .dir 0 0 (Or.inl rfl)
  | mknod path major minor => exact h.make path .dev major minor (Or.inr rfl)
  | chdir path => exact closed_sysChdir h path
  | exec path reads => exact closed_exec h path reads
  | fork np => exact closed_fork h np
  | clone np => exact closed_fork h np
  | exit => exact closed_exit h
  | texit => exact closed_exit h


end Programs

end Xv6.Fs
