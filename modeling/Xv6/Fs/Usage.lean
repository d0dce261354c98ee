/-
# The bitmap agrees with the block references, in every run

`Clean` says that a data block is marked used exactly when one place names it, that no two places
name the same block, and that no inode has a hole.  Every transaction keeps that, and so does all
the code outside transactions but one piece of it: an `iput` there that drops the last reference to
an inode without links.  It frees the inode's blocks in a loop into whose middle another process's
transaction can come, which then can be given a block that the inode on disk still names.

The rule for whole runs is stated for the invariant `Clean` together with any property of the disk
that the transactions keep.
-/
import Xv6.Fs.Bodies
import Xv6.Fs.Discipline

namespace Xv6.Fs

open Xv6.Bytes Xv6.Threads Xv6.Allocation

variable {sb : Super} {p : Pid} {α β : Type} {s t : State} {X : Disk → Prop}
  {D : Pid → Label → State → Prop}

/-! ## 1. Programs that keep the disk in order -/

/-- As long as `balloc` has handed out data blocks only, the state is clean and the disk has the
property `X`. -/
def Kept (sb : Super) (X : Disk → Prop) (s : State) : Prop :=
  Lawful sb s → Clean sb s ∧ X s.disk

/-- The program keeps the disk in order, under the condition `D` on its pieces. -/
def Orderly (sb : Super) (X : Disk → Prop) (D : Pid → Label → State → Prop) (p : Pid)
    (m : P α) : Prop :=
  Keeps (Kept sb X) (fun _ _ => ()) D (NotFreed sb) p () m fun _ _ => True

theorem Orderly.seq {m : P α} {f : α → P β} (hm : Orderly sb X D p m)
    (hf : ∀ a, Orderly sb X D p (f a)) : Orderly sb X D p (m >>= f) :=
  Keeps.bind m () (Keeps.imp (fun _ a _ => hf a) m () hm)

/-- One piece. -/
theorem Orderly.atomic {l : Label} {act : K α}
    (h : ∀ s, Kept sb X s → D p l s → act.wp (NotFreed sb) (fun _ t => Kept sb X t) p s) :
    Orderly sb X D p (Prog.atomic l act) :=
  Keeps.atomic fun s hs _ hd => Code.wp_imp (h s hs hd) fun _ _ ht => ⟨ht, fun _ _ => rfl, trivial⟩

theorem Still.clean (h : Still s t) (hs : Clean sb s) : Clean sb t :=
  hs.of_icache h.dino h.blk h.bit h.cached

theorem Still.kept (h : Still s t) (hs : Kept sb X s) : Kept sb X t := by
  intro hl
  obtain ⟨hc, hx⟩ := hs fun b hb => hl b (h.log.handed ▸ hb)
  have hdisk : t.disk = s.disk := Disk.ext h.dino h.blk
  exact ⟨h.clean hc, hdisk ▸ hx⟩

theorem orderly_passive {l : Label} {act : K α} (h : Passive act) :
    Orderly sb X D p (Prog.atomic l act) :=
  .atomic fun s hs _ => Code.wp_mono (h.wp p s) (fun _ t ht => notFreed ht.1.2.1 t)
    fun _ _ ht => ht.kept hs

/-- A clean inode has no hole, so reading it changes nothing. -/
theorem orderly_look {i : Inum} {m : K α} (hr : Reads i m) (ho : Ordinary m) :
    Orderly sb X D p (Prog.atomic (.look i) (do
      ilock i
      m)) := by
  refine .atomic fun s hs _ => ?_
  rw [Code.wp_bind]
  refine Code.wp_imp (spec_ilock s fun hl => (hs hl).1) fun _ t ht => ?_
  by_cases hl : Lawful sb t
  · obtain ⟨hls, hc, hq, hh, _⟩ := ht hl
    have hkt : Kept sb X t := fun _ => ⟨hc, hq.disk ▸ (hs hls).2⟩
    exact Code.wp_mono (hr p t (hc.readable hh).2) (fun _ u hu => notFreed hu.1.2.1 u)
      fun _ _ hu => hu.kept hkt
  · exact Code.wp_mono (ho _ _ (stubborn sb) p t hl) (fun _ _ hu hlu => absurd hlu hu)
      fun _ _ hu hlu => absurd hlu hu

/-- An `iput` that frees nothing. -/
theorem orderly_iput (hput : ∀ i s, D p (.put i) s → ¬s.LastPut i) (i : Inum) :
    Orderly sb X D p (iput i) := by
  have htest : Keeps (Kept sb X) (fun _ _ => ()) D (NotFreed sb) p ()
      (Prog.atomic (.put i) (iputTest i)) fun _ last => last = false := by
    refine Keeps.atomic fun s hs _ hd => ?_
    have hlast := hput i s hd
    unfold State.LastPut at hlast
    simp only [iputTest, Code.wp_bind, Code.wp_gets]
    rw [if_neg hlast, Code.wp_pure]
    exact ⟨hs, fun _ _ => trivial, rfl⟩
  refine Keeps.bind _ () (Keeps.imp (fun _ last hlast => ?_) _ () htest)
  subst hlast
  exact Orderly.seq (Keeps.pure trivial) fun _ => orderly_passive (passive_iputDrop i)

/-- **A transaction** around code that keeps the disk in order. -/
theorem orderly_transaction {l : Label} {body : K α}
    (h : Spec sb p (fun s => (Clean sb s ∧ X s.disk) ∧ D p l s) body fun _ _ t =>
      Clean sb t ∧ X t.disk) : Orderly sb X D p (transaction l body) := by
  have howner : ∀ (s : State) (o : Option Pid) (c : List Sector), Kept sb X s →
      Kept sb X { s with owner := o, sectors := c } := fun _ _ _ hs hl =>
    ⟨⟨(hs hl).1.agrees, (hs hl).1.full, (hs hl).1.coherent⟩, (hs hl).2⟩
  refine Orderly.seq (.atomic fun s hs _ => ?_) fun _ => Orderly.seq (.atomic fun s hs hd => ?_)
    fun a => Orderly.seq (.atomic fun s hs _ => howner s none [] hs) fun _ => Keeps.pure trivial
  · simp only [Code.wp_bind, Code.wp_await, Code.wp_self, Code.wp_modify]
    exact fun _ => howner s (some p) s.sectors hs
  · exact Code.wp_imp (h s fun hl => ⟨hs hl, hd⟩) fun _ _ ht hl => (ht hl).2

/-- **Programs that keep the disk in order are a closed property**, if freeing inodes without links
and the transactions keep `X`. -/
theorem closed_orderly (hput : ∀ i s, D p (.put i) s → ¬s.LastPut i)
    (hfreed : ∀ d e, Freed d e → X d → X e)
    (hlink : ∀ ip new, Spec sb p (fun s => (Clean sb s ∧ X s.disk) ∧ D p (.txAdd new) s)
      (linkBody sb ip new) fun _ _ t => Clean sb t ∧ X t.disk)
    (hunlink : ∀ dp name, Spec sb p (fun s => (Clean sb s ∧ X s.disk) ∧ D p .tx s)
      (unlinkBody sb dp name) fun _ _ t => Clean sb t ∧ X t.disk)
    (hcreate : ∀ path type major minor, type ≠ .free →
      Spec sb p (fun s => (Clean sb s ∧ X s.disk) ∧ D p (.txAdd path) s)
        (create sb path type major minor) fun _ _ t => Clean sb t ∧ X t.disk) :
    Closed sb fun m => Orderly sb X D p m where
  pure _ := Keeps.pure trivial
  seq := Orderly.seq
  passive := orderly_passive
  look := orderly_look
  put := orderly_iput hput
  close i := orderly_transaction (spec_iput_freed.conseq (fun _ h => h.1.1) fun _ _ _ hs ht =>
    ⟨ht.1, hfreed _ _ ht.2.1 hs.1.2⟩)
  link ip new := orderly_transaction (hlink ip new)
  unlink dp name := orderly_transaction (hunlink dp name)
  create path := orderly_transaction (hcreate path .file 0 0 (by decide))
  make path type major minor htype := by
    have hfree : type ≠ .free := by rcases htype with rfl | rfl <;> decide
    refine orderly_transaction (.bind (hcreate path type major minor hfree) fun s r => ?_)
    cases r with
    | none => exact .pure fun _ ht => ht.2
    | some ip =>
      exact spec_iunlockput.conseq (fun _ ht => ht.2.1) fun _ _ _ ht hu =>
        ⟨hu.1, hfreed _ _ hu.2.1 ht.2.2⟩

/-- **Whole runs.**  If every program that may be started keeps the disk in order, the disk is in
order as long as the machine runs, and it is not stopped by `freeing free block`. -/
theorem orderly_run {A : Pid → Call → Prop} {m : State} (hm : Clean sb m) (hX : X m.disk)
    (hprog : ∀ p c, A p c → Orderly sb X D p (syscall sb c)) {es : List Event} {t : System}
    (hc : Runs.Along (Sys.Meets A D) (step sb) (System.at m) es)
    (hr : Runs.run (step sb) (System.at m) es = some t) (hl : Lawful sb t.mem) :
    (t.halted = none → Clean sb t.mem ∧ X t.mem.disk) ∧ t.halted ≠ some .freeingFreeBlock := by
  have hstart : SysOk (Kept sb X) (fun _ _ => ()) D (NotFreed sb) () (System.at m) :=
    ⟨fun _ => ⟨fun _ => ⟨hm, hX⟩, fun _ => rfl⟩, fun e he => (by cases he)⟩
  have hall : ∀ p c, A p c →
      Keeps (Kept sb X) (fun _ _ => ()) D (NotFreed sb) p () (syscall sb c) fun y _ => y = () :=
    fun p c hA => Keeps.imp (fun _ _ _ => rfl) _ () (hprog p c hA)
  have hend := sysOk_run hall es (System.at m) t hstart hc hr
  exact ⟨fun hh => (hend.running hh).1 hl, fun hh => hend.stopped _ hh hl rfl⟩

/-! ## 2. A fresh disk -/

/-- On a fresh disk only the root directory has a block. -/
theorem refs_mkfs {x : Inum × Place} {b : Nat} :
    refs (mkfs sb).dino (mkfs sb).blk x = some b ↔ x = (1, .slot 0) ∧ b = sb.dataStart := by
  obtain ⟨i, pl⟩ := x
  have hpos : sb.dataStart ≠ 0 := by
    unfold Super.dataStart
    omega
  by_cases hi : i = 1
  · subst hi
    rw [refs_of_allocated (T := (mkfs sb).dino) (i := 1) (by simp [mkfs, rootInode]), nonzero_eq_some]
    cases pl with
    | slot n =>
      by_cases hn : n = 0
      · subst hn
        simp only [named, mkfs, rootInode, if_true, true_and]
        constructor
        · rintro ⟨rfl, _⟩
          rfl
        · rintro rfl
          exact ⟨rfl, hpos⟩
      · simp only [named, mkfs, rootInode, if_true, Prod.mk.injEq, Place.slot.injEq, hn,
          and_false, false_and, iff_false]
        rintro ⟨rfl, h⟩
        exact h rfl
    | via j =>
      simp [named, mkfs, rootInode]
      intro h
      exact h.symm
  · have hfree : refs (mkfs sb).dino (mkfs sb).blk (i, pl) = none := by
      simp [refs, mkfs, hi, Dinode.zero]
    simp [hfree, hi]

/-- **The disk that mkfs writes is clean.** -/
theorem clean_mkfs (h : 0 < sb.nblocks) : Clean sb (mkfs sb) where
  agrees := by
    constructor
    · rintro x b hx
      obtain ⟨_, rfl⟩ := refs_mkfs.mp hx
      exact ⟨Nat.le_refl _, by omega⟩
    · rintro x b hx
      obtain ⟨_, rfl⟩ := refs_mkfs.mp hx
      simp [mkfs]
    · intro b hb hbit
      have hle : b ≤ sb.dataStart := of_decide_eq_true hbit
      exact ⟨(1, .slot 0), refs_mkfs.mpr ⟨rfl, Nat.le_antisymm hle hb.1⟩⟩
    · intro x y b hx hy
      rw [(refs_mkfs.mp hx).1, (refs_mkfs.mp hy).1]
  full i hi := by
    by_cases h1 : i = 1
    · subst h1
      refine ⟨show 512 ≤ 140 * 512 by decide, fun bn _ hlt => ?_⟩
      have h0 : bn = 0 := by
        have : 512 * bn < 512 := hlt
        omega
      subst h0
      show sb.dataStart ≠ 0
      unfold Super.dataStart
      omega
    · exact absurd (by simp [mkfs, h1, Dinode.zero]) hi
  coherent i hi := by cases hi

/-! ## 3. Whole runs -/

/-- The condition on a move: an `iput` outside a transaction does not drop the last reference to
an inode without links. -/
def NoneFreed (_ : Pid) (l : Label) (s : State) : Prop :=
  match l with
  | .put i => ¬s.LastPut i
  | _ => True

instance (p : Pid) : (l : Label) → (s : State) → Decidable (NoneFreed p l s)
  | .put i, s => inferInstanceAs (Decidable (¬s.LastPut i))
  | .enter, _ | .leave, _ | .tx, _ | .txAdd _, _ | .look _, _ | .other, _ => isTrue trivial

/-- Every system call keeps the state clean. -/
theorem orderly_syscall (p : Pid) (c : Call) :
    Orderly sb (fun _ => True) NoneFreed p (syscall sb c) := by
  have hwalk : Walk fun _ _ => True := ⟨fun _ _ _ _ _ => trivial, fun _ _ _ _ _ _ _ _ => trivial⟩
  have hclosed : Closed sb fun m => Orderly sb (fun _ => True) NoneFreed p m :=
    closed_orderly (fun _ _ h => h) (fun _ _ _ _ => trivial)
      (fun ip new => (spec_linkBody hwalk new).conseq (fun _ h => h.1.1) fun _ _ _ _ h =>
        ⟨h.1, trivial⟩)
      (fun dp name => (spec_unlinkBody name).conseq (fun _ h => h.1.1) fun _ _ _ _ h =>
        ⟨h.1, trivial⟩)
      (fun path type major minor htype => (spec_create hwalk path htype major minor).conseq
        (fun _ h => h.1.1) fun _ _ _ _ h => ⟨h.1, trivial⟩)
  exact hclosed.syscall c fun _ _ _ f ip src _ =>
    orderly_transaction ((spec_fwriteInode f src).conseq (fun _ h => h.1.1) fun _ _ _ _ h =>
      ⟨h.1, trivial⟩)

/-- **The bitmap agrees with the references.**  In every run from a clean state, by any processes
and in any interleaving, in which no `iput` outside a transaction frees an inode and `balloc` hands
out data blocks only, the state stays clean, and `freeing free block` is never reached. -/
theorem bitmap_agrees_unless_freed_outside (sb : Super) (m : State) (hm : Clean sb m)
    (es : List Event) (t : System)
    (hc : Runs.Along (Sys.Meets AnyCall NoneFreed) (step sb) (System.at m) es)
    (hr : Runs.run (step sb) (System.at m) es = some t) (hl : Lawful sb t.mem) :
    (t.halted = none → Clean sb t.mem) ∧ t.halted ≠ some .freeingFreeBlock := by
  obtain ⟨hend, hpanic⟩ := orderly_run hm trivial (fun p c _ => orderly_syscall p c) hc hr hl
  exact ⟨fun hh => (hend hh).1, hpanic⟩

/-- The theorem applies to the orderly run. -/
theorem bitmap_agrees_when_lookup_ends_first :
    ∃ t, Runs.run (step smallDisk) (System.at (mkfs smallDisk)) removeAfterLookup = some t ∧
      t.mem.handed = [7] ∧ t.halted = none ∧ Clean smallDisk t.mem := by
  have hrun : ((Runs.run (step smallDisk) (System.at (mkfs smallDisk)) removeAfterLookup).any
      fun t => t.mem.handed = [7] ∧ t.halted = none) = true := by decide +kernel
  obtain ⟨t, ht, hlen⟩ := Option.any_eq_true _ _ |>.mp hrun
  obtain ⟨hhanded, hhalted⟩ := of_decide_eq_true hlen
  refine ⟨t, ht, hhanded, hhalted, (bitmap_agrees_unless_freed_outside smallDisk (mkfs smallDisk)
    (clean_mkfs (by decide)) removeAfterLookup t (by decide +kernel) ht ?_).1 hhalted⟩
  unfold Lawful
  rw [hhanded]
  decide

/-- Process 1 drops the last reference to the removed directory `d` while process 0 makes the
directory `e`. -/
def freeUnderMkdir : List Event :=
  removeUnderLookup ++ moves 1 1 ++ .call 0 (.mkdir [101]) :: moves 0 1 ++ moves 1 1 ++ moves 0 3

/-- **A block is shared by two directories**: process 1 has marked the block of `d` free, process 0
has been given it for `e`, and the transaction is complete. -/
theorem block_freed_under_mkdir_is_shared :
    Clean smallDisk (mkfs smallDisk) ∧
    ∃ t, Runs.run (step smallDisk) (System.at (mkfs smallDisk)) freeUnderMkdir = some t ∧
      Lawful smallDisk t.mem ∧ t.mem.owner = none ∧ t.halted = none ∧
      ¬Agrees smallDisk.Data (refs t.mem.dino t.mem.blk) t.mem.bit := by
  have hrun : ((Runs.run (step smallDisk) (System.at (mkfs smallDisk)) freeUnderMkdir).any
      fun t => Lawful smallDisk t.mem ∧ t.mem.owner = none ∧ t.halted = none ∧
        refs t.mem.dino t.mem.blk (2, .slot 0) = some 7 ∧
        refs t.mem.dino t.mem.blk (3, .slot 0) = some 7) = true := by decide +kernel
  obtain ⟨t, ht, h⟩ := Option.any_eq_true _ _ |>.mp hrun
  obtain ⟨hl, ho, hh, h2, h3⟩ := of_decide_eq_true h
  refine ⟨clean_mkfs (by decide), t, ht, hl, ho, hh, fun hag => ?_⟩
  have heq := hag.once _ _ 7 h2 h3
  simp at heq

end Xv6.Fs
