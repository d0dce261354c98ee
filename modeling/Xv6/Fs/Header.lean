/-
# The log's header on the disk (log.c)

The log has the last `nlog` blocks of the disk, and its first block is the header: the number of
logged sectors and their numbers.  `commit_trans` writes the header, copies the logged blocks to
where they belong, and writes the header again with 0 in it.  The model of the file system leaves
these writes out, as nobody else uses the block.

Somebody may.  mkfs leaves the bits of the log's blocks clear and `balloc` searches the whole disk,
so when the data blocks are all in use the next file or directory is given the header.  Here is the
file system on a disk where `commit_trans` does what it does to that block (`stepOnDisk`).

As long as `balloc` has handed out data blocks only, nobody can tell (`orderly_run_onDisk`).
-/
import Xv6.Accounts
import Xv6.Fs.Usage

namespace Xv6.Fs

open Xv6.Bytes Xv6.Threads Xv6.Allocation

/-! ## 1. `commit_trans` -/

/-- `log.start`. -/
def Super.logStart (sb : Super) : Nat := sb.size - sb.nlog

/-- The number of a sector on the disk: IBLOCK, BBLOCK. -/
def Sector.number (sb : Super) : Sector → Nat
  | .inodes n => n + 2
  | .bitmap n => n + sb.ninodes / 8 + 3
  | .block b => b

/-- `write_head()`: `n` and the first `n` sector numbers of a `struct logheader`. -/
def State.writeHead (sb : Super) (sectors : List Sector) (s : State) : State :=
  s.setBlk sb.logStart (Bytes.put (s.blk sb.logStart) 0
    (leBytes 4 sectors.length ++ sectors.flatMap fun c => leBytes 4 (c.number sb)))

/-- What `commit_trans` does to the header.  If the block is one of those logged, `install_trans`
copies back what was written to it. -/
def State.commitHead (sb : Super) (s : State) : State :=
  if s.sectors = [] then s
  else
    let t := s.writeHead sb s.sectors
    let t := if .block sb.logStart ∈ s.sectors then t.setBlk sb.logStart (s.blk sb.logStart) else t
    t.writeHead sb []

/-- What the disk does at the beginning of a piece. -/
def onDisk (sb : Super) : Label → State → State
  | .leave => State.commitHead sb
  | _ => id

/-- The program of a system call, on the disk. -/
abbrev syscallOnDisk (sb : Super) (c : Call) : P Unit := (syscall sb c).before (onDisk sb)

/-- One move of the system, on the disk. -/
abbrev stepOnDisk (sb : Super) : System → Event → Option System :=
  Sys.step (syscallOnDisk sb) fun p m => m.alive p

/-! ## 2. Only the one block changes -/

section

variable {sb : Super} {s t : State} {l : Label} {p : Pid} {i : Inum} {X : Disk → Prop}
  {D : Pid → Label → State → Prop}

theorem setBlk_setBlk (b : Nat) (x y : Block) (s : State) :
    (s.setBlk b x).setBlk b y = s.setBlk b y := by
  simp [State.setBlk]

theorem commitHead_eq (sb : Super) (s : State) : ∃ x, s.commitHead sb = s.setBlk sb.logStart x := by
  unfold State.commitHead
  split
  · exact ⟨s.blk sb.logStart, by simp [State.setBlk]⟩
  · split
    all_goals
      simp only [State.writeHead, setBlk_setBlk]
      exact ⟨_, rfl⟩

theorem onDisk_eq (sb : Super) (l : Label) (s : State) :
    ∃ x, onDisk sb l s = s.setBlk sb.logStart x := by
  cases l with
  | leave => exact commitHead_eq sb s
  | _ => exact ⟨s.blk sb.logStart, by simp [onDisk, State.setBlk]⟩

/-- The areas of the disk follow each other, as mkfs asserts. -/
def Super.Laid (sb : Super) : Prop := sb.dataStart + sb.nblocks + sb.nlog = sb.size

instance (sb : Super) : Decidable sb.Laid := inferInstanceAs (Decidable (_ = _))

theorem Super.Laid.not_data (h : sb.Laid) : ¬sb.Data sb.logStart := by
  rintro ⟨_, hlt⟩
  unfold Super.Laid at h
  unfold Super.logStart at hlt
  omega

/-- A block that is no data block is named by no inode, -/
theorem Clean.named_ne {b : Nat} {j : Inum} {pl : Place} (h : Clean sb s) (hb : ¬sb.Data b)
    (hj : (s.dino j).type ≠ .free) (hne : named s.blk (s.dino j) pl ≠ 0) :
    named s.blk (s.dino j) pl ≠ b :=
  fun e => hb (e ▸ h.agrees.data (j, pl) _ (refs_eq_some hj rfl hne))

/-- so it can change without changing what they name, -/
theorem Clean.named_setBlk {b : Nat} {j : Inum} (h : Clean sb s) (hb : ¬sb.Data b) (x : Block)
    (hj : (s.dino j).type ≠ .free) (pl : Place) :
    named (s.setBlk b x).blk (s.dino j) pl = named s.blk (s.dino j) pl := by
  by_cases h0 : (s.dino j).addrs 12 = 0
  · cases pl with
    | slot n => rfl
    | via k => simp only [named, h0, if_true]
  · have hne : named s.blk (s.dino j) (.slot 12) ≠ b := h.named_ne hb hj h0
    exact named_congr (Function.update_of_ne hne ..) pl

/-- or what is in their blocks. -/
theorem Clean.retains_setBlk {b : Nat} {j : Inum} (h : Clean sb s) (hb : ¬sb.Data b) (x : Block)
    (hj : (s.dino j).type ≠ .free) :
    Retains s.blk (s.dino j) (s.setBlk b x).blk (s.dino j) :=
  fun pl hne => ⟨h.named_setBlk hb x hj pl, fun _ =>
    Function.update_of_ne (h.named_ne hb hj hne) ..⟩

/-- The inode `i` on disk is the same, and so are the bytes of its file. -/
def SameBytes (i : Inum) (s t : State) : Prop :=
  t.dino i = s.dino i ∧ ∀ k < (s.dino i).size, byteAt t.blk (t.dino i) k = byteAt s.blk (s.dino i) k

/-- An allocated inode whose blocks stay where they are has the same bytes. -/
theorem Retains.sameBytes (hs : Clean sb s) (hi : (s.dino i).type ≠ .free) (hd : t.dino i = s.dino i)
    (hr : Retains s.blk (s.dino i) t.blk (s.dino i)) : SameBytes i s t := by
  refine ⟨hd, fun k hk => ?_⟩
  obtain ⟨hmax, hthere⟩ := hs.full i hi
  rw [hd]
  exact hr.byteAt_eq (by omega) (hthere (k / 512) (by omega) (by omega))

theorem Clean.sameBytes_setBlk {b : Nat} (h : Clean sb s) (hb : ¬sb.Data b) (x : Block)
    (hi : (s.dino i).type ≠ .free) : SameBytes i s (s.setBlk b x) :=
  Retains.sameBytes h hi rfl (h.retains_setBlk hb x hi)

theorem Clean.setBlk {b : Nat} (h : Clean sb s) (hb : ¬sb.Data b) (x : Block) :
    Clean sb (s.setBlk b x) := by
  refine ⟨?_, fun j hj => (h.full j hj).of_named fun pl _ => h.named_setBlk hb x hj pl, h.coherent⟩
  have hrefs : refs s.dino (s.setBlk b x).blk = refs s.dino s.blk := by
    funext ⟨j, pl⟩
    simp only [refs]
    split
    · rfl
    · rename_i hj
      rw [h.named_setBlk hb x hj]
  show Agrees _ (refs s.dino (s.setBlk b x).blk) s.bit
  rw [hrefs]
  exact h.agrees

/-- A property of the disk that does not depend on blocks which are no data blocks. -/
def OfData (sb : Super) (X : Disk → Prop) : Prop :=
  ∀ s b x, Clean sb s → ¬sb.Data b → X s.disk → X (s.setBlk b x).disk

theorem Kept.onDisk (hlaid : sb.Laid) (hX : OfData sb X) (h : Kept sb X s) (l : Label) :
    Kept sb X (onDisk sb l s) := by
  obtain ⟨x, hx⟩ := onDisk_eq sb l s
  rw [hx]
  intro hl
  obtain ⟨hc, hdisk⟩ := h hl
  exact ⟨hc.setBlk hlaid.not_data x, hX s _ x hc hlaid.not_data hdisk⟩

/-- **Whole runs on the disk.** -/
theorem orderly_run_onDisk {A : Pid → Call → Prop} {m : State} (hlaid : sb.Laid)
    (hX : OfData sb X) (hD : ∀ p l s b x, D p l s → D p l (s.setBlk b x)) (hm : Clean sb m)
    (hXm : X m.disk) (hprog : ∀ p c, A p c → Orderly sb X D p (syscall sb c)) {es : List Event}
    {t : System} (hc : Runs.Along (Sys.Meets A D) (stepOnDisk sb) (System.at m) es)
    (hr : Runs.run (stepOnDisk sb) (System.at m) es = some t) (hl : Lawful sb t.mem) :
    t.halted = none → Clean sb t.mem ∧ X t.mem.disk := by
  have hstart : SysOk (Kept sb X) (fun _ _ => ()) D (NotFreed sb) () (System.at m) :=
    ⟨fun _ => ⟨fun _ => ⟨hm, hXm⟩, fun _ => rfl⟩, fun e he => (by cases he)⟩
  have hall : ∀ p c, A p c → Keeps (Kept sb X) (fun _ _ => ()) D (NotFreed sb) p ()
      (syscallOnDisk sb c) fun y _ => y = () := by
    intro p c hA
    refine Keeps.before (e := onDisk sb) (fun l s hs => hs.onDisk hlaid hX l) (fun _ _ _ => rfl)
      (fun l s hd => ?_) _ () (Keeps.imp (fun _ _ _ => rfl) _ () (hprog p c hA))
    obtain ⟨x, hx⟩ := onDisk_eq sb l s
    rw [hx]
    exact hD p l s _ x hd
  have hend := sysOk_run hall es (System.at m) t hstart hc hr
  exact fun hh => (hend.running hh).1 hl

/-- In a run that frees no inode outside a transaction the state stays clean. -/
theorem clean_run_onDisk {m : State} (hlaid : sb.Laid) (hm : Clean sb m) {es : List Event} {t : System}
    (hc : Runs.Along (Sys.Meets AnyCall NoneFreed) (stepOnDisk sb) (System.at m) es)
    (hr : Runs.run (stepOnDisk sb) (System.at m) es = some t) (hl : Lawful sb t.mem)
    (hh : t.halted = none) : Clean sb t.mem := by
  have hD : ∀ p l s b x, NoneFreed p l s → NoneFreed p l (State.setBlk b x s) := by
    intro p l s b x hd
    cases l with
    | put i => exact hd
    | _ => trivial
  exact (orderly_run_onDisk (X := fun _ => True) hlaid (fun _ _ _ _ _ _ => trivial) hD hm trivial
    (fun p c _ => orderly_syscall p c) hc hr hl hh).1

end

end Xv6.Fs
