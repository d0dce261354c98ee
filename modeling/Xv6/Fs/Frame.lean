/-
# What every function of the file system leaves alone

Facts about all the code of fs.c, file.c and sysfile.c, by going once through each function.  SILENT
code calls neither `log_write` nor `balloc`; PASSIVE code does not change the disk either, nor the
inodes in the cache.  And whatever is asked only of the
log and of the records of `log_write` and `balloc` is kept by every function, if `log_write` and
`balloc` keep it (`Basic`).
-/
import Xv6.Fs.Contents

namespace Xv6.Fs

open Xv6.Bytes Xv6.Threads

/-! ## 1. Code that stays within a relation -/

/-- The panics of `log_write` and of `bfree` are the ones to be excluded. -/
abbrev Panic.Calm (e : Panic) : Prop :=
  e ≠ .writeOutsideTrans ∧ e ≠ .freeingFreeBlock ∧ e ≠ .tooBigTransaction

/-- From any state the code stays within the relation `R`. -/
def Within {α : Type} (R : State → State → Prop) (m : K α) : Prop :=
  ∀ s₀, m.Preserves (fun _ s => R s₀ s) fun e s => e.Calm ∧ R s₀ s

namespace Within

variable {α β : Type} {R : State → State → Prop} {m : K α}

theorem wp [IsPreorder State R] (h : Within R m) (p : Pid) (s : State) :
    m.wp (fun e t => e.Calm ∧ R s t) (fun _ t => R s t) p s := h s p s (refl_of R s)

theorem pure (a : α) : Within R (Pure.pure a : K α) := fun _ => .pure a

theorem gets (f : State → α) : Within R (Code.gets f) := fun _ => .gets f

theorem self : Within R (Code.self : K Pid) := fun _ => .self

theorem panic {e : Panic} (he : e.Calm) : Within R (Code.panic e : K α) :=
  fun _ => .panic fun _ _ h => ⟨he, h⟩

theorem panicIf (c : Prop) [Decidable c] {e : Panic} (he : e.Calm) :
    Within R (Code.panicIf c e) := fun _ => .panicIf fun _ _ h => ⟨he, h⟩

theorem await (c : State → Bool) : Within R (Code.await c) := fun _ => .await c

theorem modify [IsPreorder State R] {f : State → State} (h : ∀ s, R s (f s)) :
    Within R (Code.modify f) := fun _ => .modify fun _ s hs => trans_of R hs (h s)

theorem bind {f : α → K β} (hm : Within R m) (hf : ∀ a, Within R (f a)) : Within R (m >>= f) :=
  fun s => .bind (hm s) fun a => hf a s

theorem ite {c : Prop} [Decidable c] {m' : K α} (h : Within R m) (h' : Within R m') :
    Within R (if c then m else m') := fun s => .ite (h s) (h' s)

theorem when {c : Prop} [Decidable c] {m : K Unit} (h : Within R m) : Within R (Code.when c m) :=
  fun s => .when (h s)

end Within

/-- The log and the records of `log_write` and `balloc` are the same. -/
structure SameLog (s t : State) : Prop where
  owner : t.owner = s.owner
  calls : t.calls = s.calls
  handed : t.handed = s.handed
  sectors : t.sectors = s.sectors
  logSize : t.logSize = s.logSize

theorem SameLog.refl (s : State) : SameLog s s := ⟨rfl, rfl, rfl, rfl, rfl⟩

theorem SameLog.trans {s t u : State} (h : SameLog s t) (h' : SameLog t u) : SameLog s u :=
  ⟨h'.owner.trans h.owner, h'.calls.trans h.calls, h'.handed.trans h.handed,
    h'.sectors.trans h.sectors, h'.logSize.trans h.logSize⟩

instance : IsPreorder State SameLog where
  refl := SameLog.refl
  trans _ _ _ := SameLog.trans

/-- Code that calls neither `log_write` nor `balloc`. -/
abbrev Silent {α : Type} (m : K α) : Prop := Within SameLog m

/-- Besides, the disk is the same, and so are the inodes in the cache. -/
structure Still (s t : State) : Prop where
  log : SameLog s t
  dino : t.dino = s.dino
  blk : t.blk = s.blk
  bit : t.bit = s.bit
  cached : ∀ j, (t.icache j).valid = true →
    (s.icache j).valid = true ∧ (t.icache j).din = (s.icache j).din

theorem Still.of_eq {s t : State} (h : SameLog s t) (hd : t.dino = s.dino) (hb : t.blk = s.blk)
    (hbit : t.bit = s.bit) (hi : t.icache = s.icache) : Still s t :=
  ⟨h, hd, hb, hbit, fun j hj => ⟨hi ▸ hj, by rw [hi]⟩⟩

theorem Still.trans {s t u : State} (h : Still s t) (h' : Still t u) : Still s u where
  log := h.log.trans h'.log
  dino := h'.dino.trans h.dino
  blk := h'.blk.trans h.blk
  bit := h'.bit.trans h.bit
  cached j hj :=
    have ht := h'.cached j hj
    have hs := h.cached j ht.1
    ⟨hs.1, ht.2.trans hs.2⟩

instance : IsPreorder State Still where
  refl s := .of_eq (.refl s) rfl rfl rfl rfl
  trans _ _ _ := Still.trans

/-- The entry of one inode in the cache changes, but not the inode. -/
theorem Still.setInode {s : State} {i : Inum} {n : Inode} (m : Nat)
    (h : n.valid = true → (s.icache i).valid = true ∧ n.din = (s.icache i).din) :
    Still s { s.setInode i n with inUse := m } where
  log := ⟨rfl, rfl, rfl, rfl, rfl⟩
  dino := rfl
  blk := rfl
  bit := rfl
  cached j hj := by
    rcases eq_or_ne j i with rfl | hne
    · simp only [State.setInode, Function.update_self] at hj ⊢
      exact h hj
    · simp only [State.setInode, Function.update_of_ne hne] at hj ⊢
      exact ⟨hj, trivial⟩

/-- Code that changes neither the disk nor the inodes in the cache. -/
abbrev Passive {α : Type} (m : K α) : Prop := Within Still m

theorem Passive.silent {α : Type} {m : K α} (h : Passive m) : Silent m := fun _ p s hs =>
  Code.wp_mono (h.wp p s) (fun _ _ ht => ⟨ht.1, hs.trans ht.2.log⟩) fun _ _ ht => hs.trans ht.log

/-- Tables other than the inode cache change. -/
theorem Within.tables {f : State → State}
    (h : ∀ s, SameLog s (f s) ∧ (f s).dino = s.dino ∧ (f s).blk = s.blk ∧ (f s).bit = s.bit ∧
      (f s).icache = s.icache) : Passive (Code.modify f : K Unit) :=
  .modify fun s => .of_eq (h s).1 (h s).2.1 (h s).2.2.1 (h s).2.2.2.1 (h s).2.2.2.2

/-! ## 2. Silent and passive code -/

theorem silent_setCopy (i : Inum) (f : Dinode → Dinode) : Silent (setCopy i f) :=
  .modify fun _ => ⟨rfl, rfl, rfl, rfl, rfl⟩

theorem silent_ilock (i : Inum) : Silent (ilock i) :=
  .bind (.gets _) fun _ => .bind (.panicIf _ (by decide)) fun _ => .bind (.await _) fun _ =>
    .bind (.modify fun _ => ⟨rfl, rfl, rfl, rfl, rfl⟩) fun _ => .bind (.gets _) fun _ =>
      .when (.bind (.modify fun _ => ⟨rfl, rfl, rfl, rfl, rfl⟩) fun _ => .bind (.gets _) fun _ =>
        .panicIf _ (by decide))

theorem silent_iputTest (i : Inum) : Silent (iputTest i) :=
  .bind (.gets _) fun _ => .ite (.bind (.panicIf _ (by decide)) fun _ =>
    .bind (.modify fun _ => ⟨rfl, rfl, rfl, rfl, rfl⟩) fun _ => .pure _) (.pure _)

theorem passive_iget (i : Inum) : Passive (iget i) := by
  intro s₀ p s hs
  simp only [iget, Code.wp_bind, Code.wp_gets, Code.wp_ite, Code.wp_modify, Code.wp_panicIf]
  refine ⟨fun _ => ?_, fun _ => ⟨fun _ => ⟨by decide, hs⟩, fun _ => ?_⟩⟩
  · exact hs.trans (.setInode _ fun h => ⟨h, rfl⟩)
  · exact hs.trans (.setInode _ fun h => (by cases h))

theorem passive_idup (i : Inum) : Passive (idup i) :=
  .modify fun _ => .setInode _ fun h => ⟨h, rfl⟩

theorem passive_iunlock (i : Inum) : Passive (iunlock i) := by
  intro s₀ p s hs
  simp only [iunlock, Code.wp_bind, Code.wp_gets, Code.wp_modify, Code.wp_panicIf]
  exact ⟨fun _ => ⟨by decide, hs⟩, fun _ => hs.trans (.setInode _ fun h => ⟨h, rfl⟩)⟩

theorem passive_iputDrop (i : Inum) : Passive (iputDrop i) :=
  .modify fun _ => .setInode _ fun h => ⟨h, rfl⟩

theorem passive_filealloc : Passive filealloc := by
  refine .bind (.gets _) fun o => ?_
  cases o with
  | none => exact .pure _
  | some f => exact .bind (.tables fun _ => ⟨⟨rfl, rfl, rfl, rfl, rfl⟩, rfl, rfl, rfl, rfl⟩) fun _ => .pure _

theorem passive_filedup (f : FileId) : Passive (filedup f) :=
  .bind (.gets _) fun _ => .bind (.panicIf _ (by decide)) fun _ => .tables fun _ => ⟨⟨rfl, rfl, rfl, rfl, rfl⟩, rfl, rfl, rfl, rfl⟩

theorem passive_filecloseDrop (f : FileId) : Passive (filecloseDrop f) :=
  .bind (.gets _) fun _ => .bind (.panicIf _ (by decide)) fun _ =>
    .ite (.bind (.tables fun _ => ⟨⟨rfl, rfl, rfl, rfl, rfl⟩, rfl, rfl, rfl, rfl⟩) fun _ => .pure _)
      (.bind (.tables fun _ => ⟨⟨rfl, rfl, rfl, rfl, rfl⟩, rfl, rfl, rfl, rfl⟩) fun _ => .pure _)

theorem passive_fdalloc (f : FileId) : Passive (fdalloc f) := by
  refine .bind .self fun p => .bind (.gets _) fun o => ?_
  cases o with
  | none => exact .pure _
  | some fd => exact .bind (.tables fun _ => ⟨⟨rfl, rfl, rfl, rfl, rfl⟩, rfl, rfl, rfl, rfl⟩) fun _ => .pure _

theorem passive_pipealloc : Passive pipealloc := by
  refine .bind passive_filealloc fun o => ?_
  cases o with
  | none => exact .pure _
  | some rf =>
    refine .bind passive_filealloc fun o => ?_
    cases o with
    | none => exact .bind (passive_filecloseDrop _) fun _ => .pure _
    | some wf =>
      exact .bind (.tables fun _ => ⟨⟨rfl, rfl, rfl, rfl, rfl⟩, rfl, rfl, rfl, rfl⟩) fun _ =>
        .bind (.tables fun _ => ⟨⟨rfl, rfl, rfl, rfl, rfl⟩, rfl, rfl, rfl, rfl⟩) fun _ => .pure _

theorem passive_advance (f : FileId) (r : Option Nat) : Passive (advance f r) :=
  .tables fun _ => ⟨⟨rfl, rfl, rfl, rfl, rfl⟩, rfl, rfl, rfl, rfl⟩

theorem passive_openFile (ip : Inum) (omode : BitVec 32) : Passive (openFile ip omode) := by
  refine .bind passive_filealloc fun o => ?_
  cases o with
  | none => exact .bind (passive_iunlock _) fun _ => .pure _
  | some f =>
    refine .bind (passive_fdalloc _) fun o => ?_
    cases o with
    | none => exact .bind (passive_filecloseDrop _) fun _ => .bind (passive_iunlock _) fun _ => .pure _
    | some fd =>
      exact .bind (passive_iunlock _) fun _ => .bind (.tables fun _ => ⟨⟨rfl, rfl, rfl, rfl, rfl⟩, rfl, rfl, rfl, rfl⟩) fun _ =>
        .pure _

theorem passive_dupAll (np : Pid) : ∀ fds : List Fd, Passive (dupAll np fds)
  | [] => .pure _
  | fd :: fds => by
    refine .bind (.bind .self fun p => .bind (.gets _) fun o => ?_) fun _ => passive_dupAll np fds
    cases o with
    | none => exact .pure _
    | some f => exact .bind (passive_filedup _) fun _ => .tables fun _ => ⟨⟨rfl, rfl, rfl, rfl, rfl⟩, rfl, rfl, rfl, rfl⟩

/-- Where a path lookup starts. -/
theorem passive_namexStart (path : List Byte) :
    Passive (if path.head? = some slash then do
        iget 1
        pure 1
      else do
        let p ← Code.self
        let i ← Code.gets fun s => s.cwd p
        idup i
        pure i : K Inum) :=
  .ite (.bind (passive_iget 1) fun _ => .pure _)
    (.bind .self fun _ => .bind (.gets _) fun _ => .bind (passive_idup _) fun _ => .pure _)

/-! ## 3. Properties of the log and the records -/

/-- A property `I` of the log and the records that `log_write` and `balloc` keep, where a panic
leaves `E`. -/
structure Basic (I : Pid → State → Prop) (E : Panic → State → Prop) : Prop where
  keep : ∀ p s t, SameLog s t → I p s → I p t
  write : ∀ {b : Sector}, (logWrite b).Preserves I E
  hand : ∀ p s b, I p s → I p { s with handed := b :: s.handed }
  stop : ∀ e p s, e ≠ .writeOutsideTrans → I p s → E e s

section Basic

variable {I : Pid → State → Prop} {E : Panic → State → Prop} (h : Basic I E) {α : Type}
include h

theorem Basic.silent {m : K α} (hm : Silent m) : m.Preserves I E := fun p s hs =>
  Code.wp_mono (hm.wp p s) (fun e t ht => h.stop e p t ht.1.1 (h.keep p s t ht.2 hs))
    fun _ t ht => h.keep p s t ht hs

theorem Basic.modify {f : State → State} (hf : ∀ s, SameLog s (f s)) :
    (Code.modify f : K Unit).Preserves I E := h.silent (.modify hf)

theorem Basic.panic {e : Panic} (he : e ≠ .writeOutsideTrans) :
    (Code.panic e : K α).Preserves I E := .panic fun p s => h.stop e p s he

theorem Basic.panicIf (c : Prop) [Decidable c] {e : Panic} (he : e ≠ .writeOutsideTrans) :
    (Code.panicIf c e : K Unit).Preserves I E := .panicIf fun p s => h.stop e p s he

theorem basic_bzero (b : Nat) : (bzero b).Preserves I E :=
  .bind (h.modify fun _ => ⟨rfl, rfl, rfl, rfl, rfl⟩) fun _ => h.write

theorem basic_balloc (sb : Super) : (balloc sb).Preserves I E := by
  refine .bind (.gets _) fun o => ?_
  cases o with
  | none => exact h.panic (by decide)
  | some b =>
    refine .bind (.modify fun p s hs => ?_) fun _ => .bind h.write fun _ =>
      .bind (basic_bzero h b) fun _ => .pure _
    exact h.hand p _ b (h.keep p s (s.setBit b true) ⟨rfl, rfl, rfl, rfl, rfl⟩ hs)

theorem basic_bfree (b : Nat) : (bfree b).Preserves I E :=
  .bind (.gets _) fun _ => .ite (.bind (h.modify fun _ => ⟨rfl, rfl, rfl, rfl, rfl⟩) fun _ =>
    h.write) (h.panic (by decide))

theorem basic_iupdate (i : Inum) : (iupdate i).Preserves I E :=
  .bind (.gets _) fun _ => .bind (h.modify fun _ => ⟨rfl, rfl, rfl, rfl, rfl⟩) fun _ => h.write

theorem basic_ialloc (sb : Super) (type : FileType) : (ialloc sb type).Preserves I E := by
  refine .bind (.gets _) fun o => ?_
  cases o with
  | none => exact h.panic (by decide)
  | some i =>
    exact .bind (h.modify fun _ => ⟨rfl, rfl, rfl, rfl, rfl⟩) fun _ => .bind h.write fun _ =>
      .bind (h.silent (passive_iget i).silent) fun _ => .pure _

theorem basic_itruncSlot (i : Inum) (n : Fin 13) : (itruncSlot i n).Preserves I E :=
  .bind (.gets _) fun _ => .when (.bind (basic_bfree h _) fun _ => h.silent (silent_setCopy _ _))

theorem basic_itruncDirect (i : Inum) : ∀ ns : List (Fin 13), (itruncDirect i ns).whole.Preserves I E
  | [] => .pure _
  | n :: ns => Prog.preserves_whole_bind (Prog.preserves_whole_atomic (basic_itruncSlot h i n))
      fun _ => basic_itruncDirect i ns

theorem basic_itruncIndirect (a : Block) : ∀ js : List Nat, (itruncIndirect a js).whole.Preserves I E
  | [] => .pure _
  | _ :: js => Prog.preserves_whole_bind
      (Prog.preserves_whole_atomic (Code.Preserves.when (basic_bfree h _))) fun _ => basic_itruncIndirect a js

theorem basic_itruncBlock (i : Inum) : (itruncBlock i).whole.Preserves I E :=
  Prog.preserves_whole_bind (Prog.preserves_whole_atomic (.gets _)) fun _ =>
    Prog.preserves_whole_when
      (Prog.preserves_whole_bind (Prog.preserves_whole_atomic (.gets _)) fun _ =>
        Prog.preserves_whole_bind (basic_itruncIndirect h _ _) fun _ =>
          Prog.preserves_whole_atomic (basic_itruncSlot h i 12))

theorem basic_itrunc (i : Inum) : (itrunc i).whole.Preserves I E :=
  Prog.preserves_whole_bind (basic_itruncDirect h i _) fun _ =>
    Prog.preserves_whole_bind (basic_itruncBlock h i) fun _ =>
      Prog.preserves_whole_atomic
        (Code.Preserves.bind (h.silent (silent_setCopy _ _)) fun _ => basic_iupdate h i)

theorem basic_iput (i : Inum) : (iput i).whole.Preserves I E :=
  Prog.preserves_whole_bind (Prog.preserves_whole_atomic (h.silent (silent_iputTest i))) fun _ =>
    Prog.preserves_whole_bind
      (Prog.preserves_whole_when
        (Prog.preserves_whole_bind (basic_itrunc h i) fun _ =>
          Prog.preserves_whole_bind
            (Prog.preserves_whole_atomic
              (Code.Preserves.bind (h.silent (silent_setCopy _ _)) fun _ => basic_iupdate h i))
            fun _ => Prog.preserves_whole_atomic (h.modify fun _ => ⟨rfl, rfl, rfl, rfl, rfl⟩)))
      fun _ => Prog.preserves_whole_atomic (h.silent (passive_iputDrop i).silent)

theorem basic_iunlockput (i : Inum) : (iunlockput i).Preserves I E :=
  .bind (h.silent (passive_iunlock i).silent) fun _ => basic_iput h i

theorem basic_bmapSlot (sb : Super) (i : Inum) (n : Fin 13) : (bmapSlot sb i n).Preserves I E :=
  .bind (.gets _) fun _ => .ite (.pure _) (.bind (basic_balloc h sb) fun _ =>
    .bind (h.silent (silent_setCopy _ _)) fun _ => .pure _)

theorem basic_bmap (sb : Super) (i : Inum) (bn : Nat) : (bmap sb i bn).Preserves I E := by
  unfold bmap
  split
  · exact basic_bmapSlot h sb i _
  · refine .ite (.bind (basic_bmapSlot h sb i 12) fun a => .bind (.gets _) fun x => ?_) (h.panic (by decide))
    exact .ite (.pure _) (.bind (basic_balloc h sb) fun b =>
      .bind (h.modify fun _ => ⟨rfl, rfl, rfl, rfl, rfl⟩) fun _ => .bind h.write fun _ => .pure _)

theorem basic_readLoop (sb : Super) (i : Inum) :
    ∀ rounds off rem : Nat, (readLoop sb i rounds off rem).Preserves I E
  | 0, _, _ => .pure _
  | rounds + 1, _, _ => .ite (.pure _) (.bind (basic_bmap h sb i _) fun _ => .bind (.gets _) fun _ =>
      .bind (basic_readLoop sb i rounds _ _) fun _ => .pure _)

theorem basic_readi (sb : Super) (i : Inum) (off n : Nat) : (readi sb i off n).Preserves I E :=
  .bind (.gets _) fun _ => .ite (.pure _) (.ite (.pure _)
    (.bind (basic_readLoop h sb i _ _ _) fun _ => .pure _))

theorem basic_writeLoop (sb : Super) (i : Inum) :
    ∀ (rounds off : Nat) (src : List Byte), (writeLoop sb i rounds off src).Preserves I E
  | 0, _, _ => .pure _
  | rounds + 1, _, _ => .ite (.pure _) (.bind (basic_bmap h sb i _) fun _ =>
      .bind (h.modify fun _ => ⟨rfl, rfl, rfl, rfl, rfl⟩) fun _ => .bind h.write fun _ =>
        basic_writeLoop sb i rounds _ _)

theorem basic_writei (sb : Super) (i : Inum) (src : List Byte) (off : Nat) :
    (writei sb i src off).Preserves I E :=
  .bind (.gets _) fun _ => .ite (.pure _) (.ite (.pure _) (.ite (.pure _)
    (.bind (basic_writeLoop h sb i _ _ _) fun _ =>
      .bind (.when (.bind (h.silent (silent_setCopy _ _)) fun _ => basic_iupdate h i)) fun _ => .pure _)))

theorem basic_scan (sb : Super) (dp : Inum) (test : List Byte → Bool) {err : Panic}
    (herr : err ≠ .writeOutsideTrans) : ∀ offs : List Nat, (scan sb dp test err offs).Preserves I E
  | [] => .pure _
  | off :: offs => by
    refine .bind (basic_readi h sb dp off 16) fun r => ?_
    cases r with
    | none => exact h.panic herr
    | some de => exact .ite (h.panic herr) (.ite (.pure _) (basic_scan sb dp test herr offs))

theorem basic_dirlookup (sb : Super) (dp : Inum) (name : List Byte) :
    (dirlookup sb dp name).Preserves I E := by
  refine .bind (.gets _) fun d => .bind (h.panicIf _ (by decide)) fun _ =>
    .bind (basic_scan h sb dp _ (by decide) _) fun r => ?_
  cases r with
  | none => exact .pure _
  | some e => exact .bind (h.silent (passive_iget _).silent) fun _ => .pure _

theorem basic_writeEntry (sb : Super) (dp : Inum) (de : List Byte) (off : Nat) {err : Panic}
    (herr : err ≠ .writeOutsideTrans) : (writeEntry sb dp de off err).Preserves I E :=
  .bind (basic_writei h sb dp de off) fun _ => h.panicIf _ herr

theorem basic_dirlink (sb : Super) (dp : Inum) (name : List Byte) (inum : Inum) :
    (dirlink sb dp name inum).Preserves I E := by
  refine .bind (basic_dirlookup h sb dp name) fun r => ?_
  cases r with
  | some e => exact .bind (basic_iput h _) fun _ => .pure _
  | none =>
    exact .bind (.gets _) fun _ => .bind (basic_scan h sb dp _ (by decide) _) fun _ =>
      .bind (basic_writeEntry h sb dp _ _ (by decide)) fun _ => .pure _

theorem basic_lookup (sb : Super) (ip : Inum) (name : List Byte) (last : Bool) :
    (lookup sb ip name last).Preserves I E := by
  refine .bind (h.silent (silent_ilock ip)) fun _ => .bind (.gets _) fun d =>
    .ite (.bind (h.silent (passive_iunlock ip).silent) fun _ => .pure _)
      (.ite (.bind (h.silent (passive_iunlock ip).silent) fun _ => .pure _)
        (.bind (basic_dirlookup h sb ip name) fun r => ?_))
  cases r <;> exact .bind (h.silent (passive_iunlock ip).silent) fun _ => .pure _

theorem basic_namexEnd (parent : Bool) (ip : Inum) :
    (namexLoop.namexEnd parent ip).whole.Preserves I E := by
  cases parent with
  | true => exact Prog.preserves_whole_bind (basic_iput h ip) fun _ => .pure _
  | false => exact .pure _

theorem basic_namexLoop (sb : Super) (parent : Bool) :
    ∀ (rounds : Nat) (ip : Inum) (path : List Byte), (namexLoop sb parent rounds ip path).whole.Preserves I E
  | 0, ip, _ => basic_namexEnd h parent ip
  | rounds + 1, ip, path => by
    unfold namexLoop
    split
    · exact basic_namexEnd h parent ip
    · rename_i name rest _
      refine Prog.preserves_whole_bind
        (Prog.preserves_whole_atomic (basic_lookup h sb ip name _)) fun r => ?_
      cases r with
      | fail => exact Prog.preserves_whole_bind (basic_iput h ip) fun _ => .pure _
      | stop => exact .pure _
      | next j =>
        exact Prog.preserves_whole_bind (basic_iput h ip) fun _ =>
          basic_namexLoop sb parent rounds j rest

theorem basic_namex (sb : Super) (path : List Byte) (parent : Bool) :
    (namex sb path parent).whole.Preserves I E :=
  Prog.preserves_whole_bind (Prog.preserves_whole_atomic (h.silent (passive_namexStart path).silent))
    fun _ => basic_namexLoop h sb parent _ _ _

theorem basic_linkBad (ip : Inum) : (linkBad ip).Preserves I E :=
  .bind (h.silent (silent_ilock ip)) fun _ => .bind (h.silent (silent_setCopy _ _)) fun _ =>
    .bind (basic_iupdate h ip) fun _ => basic_iunlockput h ip

theorem basic_linkBody (sb : Super) (ip : Inum) (new : List Byte) : (linkBody sb ip new).Preserves I E := by
  refine .bind (h.silent (silent_ilock ip)) fun _ => .bind (.gets _) fun d =>
    .ite (basic_iunlockput h ip) (.bind (h.silent (silent_setCopy _ _)) fun _ =>
      .bind (basic_iupdate h ip) fun _ => .bind (h.silent (passive_iunlock ip).silent) fun _ =>
        .bind (basic_namex h sb new true) fun r => ?_)
  cases r with
  | none => exact basic_linkBad h ip
  | some e =>
    exact .bind (h.silent (silent_ilock _)) fun _ => .bind (basic_dirlink h sb _ _ _) fun _ =>
      .ite (.bind (basic_iunlockput h _) fun _ => basic_iput h ip)
        (.bind (basic_iunlockput h _) fun _ => basic_linkBad h ip)

theorem basic_removable (sb : Super) (ip : Inum) : (removable sb ip).Preserves I E :=
  .bind (.gets _) fun _ => .ite (.bind (.gets _) fun _ => .bind (basic_scan h sb ip _ (by decide) _) fun _ =>
    .pure _) (.pure _)

theorem basic_unlinkEntry (sb : Super) (dp ip : Inum) (off : Nat) :
    (unlinkEntry sb dp ip off).Preserves I E :=
  .bind (.gets _) fun _ => .bind (h.panicIf _ (by decide)) fun _ => .bind (basic_removable h sb ip) fun _ =>
    .ite (.bind (basic_iunlockput h ip) fun _ => basic_iunlockput h dp)
      (.bind (basic_writeEntry h sb dp _ _ (by decide)) fun _ =>
        .bind (.when (.bind (h.silent (silent_setCopy _ _)) fun _ => basic_iupdate h dp)) fun _ =>
          .bind (basic_iunlockput h dp) fun _ => .bind (h.silent (silent_setCopy _ _)) fun _ =>
            .bind (basic_iupdate h ip) fun _ => basic_iunlockput h ip)

theorem basic_unlinkBody (sb : Super) (dp : Inum) (name : List Byte) :
    (unlinkBody sb dp name).Preserves I E := by
  refine .bind (h.silent (silent_ilock dp)) fun _ => .ite (basic_iunlockput h dp)
    (.bind (basic_dirlookup h sb dp name) fun r => ?_)
  cases r with
  | none => exact basic_iunlockput h dp
  | some e => exact .bind (h.silent (silent_ilock _)) fun _ => basic_unlinkEntry h sb dp _ _

theorem basic_createNew (sb : Super) (dp : Inum) (name : List Byte) (type : FileType)
    (major minor : BitVec 16) : (createNew sb dp name type major minor).Preserves I E :=
  .bind (basic_ialloc h sb type) fun _ => .bind (h.silent (silent_ilock _)) fun _ =>
    .bind (h.silent (silent_setCopy _ _)) fun _ => .bind (basic_iupdate h _) fun _ =>
      .bind (.when (.bind (h.silent (silent_setCopy _ _)) fun _ => .bind (basic_iupdate h dp) fun _ =>
        .bind (basic_dirlink h sb _ _ _) fun _ => .bind (h.panicIf _ (by decide)) fun _ =>
          .bind (basic_dirlink h sb _ _ _) fun _ => h.panicIf _ (by decide))) fun _ =>
        .bind (basic_dirlink h sb dp _ _) fun _ => .bind (h.panicIf _ (by decide)) fun _ =>
          .bind (basic_iunlockput h dp) fun _ => .pure _

theorem basic_create (sb : Super) (path : List Byte) (type : FileType) (major minor : BitVec 16) :
    (create sb path type major minor).Preserves I E := by
  refine .bind (basic_namex h sb path true) fun r => ?_
  cases r with
  | none => exact .pure _
  | some e =>
    refine .bind (h.silent (silent_ilock _)) fun _ => .bind (basic_dirlookup h sb _ _) fun r => ?_
    cases r with
    | some e =>
      exact .bind (basic_iunlockput h _) fun _ => .bind (h.silent (silent_ilock _)) fun _ =>
        .bind (.gets _) fun _ => .ite (.pure _) (.bind (basic_iunlockput h _) fun _ => .pure _)
    | none => exact .bind (basic_createNew h sb _ _ _ _ _) fun _ => .pure _

theorem basic_makeBody (sb : Super) (path : List Byte) (type : FileType)
    (major minor : BitVec 16) : (makeBody sb path type major minor).Preserves I E := by
  refine .bind (basic_create h sb path type major minor) fun r => ?_
  cases r with
  | none => exact .pure _
  | some ip => exact basic_iunlockput h ip

theorem basic_fwriteInode (sb : Super) (f : FileId) (ip : Inum) (src : List Byte) :
    (fwriteInode sb f ip src).Preserves I E :=
  .bind (h.silent (silent_ilock ip)) fun _ => .bind (.gets _) fun _ =>
    .bind (basic_writei h sb ip _ _) fun _ => .bind (h.silent (passive_advance _ _).silent) fun _ =>
      .bind (h.silent (passive_iunlock ip).silent) fun _ => .pure _

end Basic

end Xv6.Fs
