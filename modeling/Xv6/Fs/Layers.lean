/-
# The inode layer and the directory layer, specified

What each function between `iget` and `create` does to the disk, to the inode cache and to the
invariant `Clean`.  Three things can happen to the disk: nothing (`Quiet`); inodes without links
are freed (`Freed`), which any `iput` may do; and an inode is written.
-/
import Xv6.Fs.Truncate

namespace Xv6.Fs

open Xv6.Bytes Xv6.Threads Xv6.Allocation

variable {i j : Inum} {b : Nat} {sb : Super} {s t u : State} {p : Pid} {d : Dinode} {α : Type}

/-! ## 1. What happens to the disk and to the cache -/

/-- Nothing happens to the disk, and nobody changes directory. -/
structure Quiet (s t : State) : Prop where
  dino : t.dino = s.dino
  blk : t.blk = s.blk
  cwd : t.cwd = s.cwd

theorem Quiet.refl (s : State) : Quiet s s := ⟨rfl, rfl, rfl⟩

theorem Quiet.trans (h : Quiet s t) (h' : Quiet t u) : Quiet s u :=
  ⟨h'.dino.trans h.dino, h'.blk.trans h.blk, h'.cwd.trans h.cwd⟩

/-- What is on the disk, but for the bitmap. -/
@[ext] structure Disk where
  dino : Inum → Dinode
  blk : Nat → Block

/-- The disk of a state. -/
def State.disk (s : State) : Disk := ⟨s.dino, s.blk⟩

theorem Quiet.disk (h : Quiet s t) : t.disk = s.disk := Disk.ext h.dino h.blk

/-- One inode is changed. -/
def Disk.edit (i : Inum) (f : Dinode → Dinode) (d : Disk) : Disk :=
  { d with dino := Function.update d.dino i (f (d.dino i)) }

/-- Inodes without links are freed. -/
structure Freed (d e : Disk) : Prop where
  blk : e.blk = d.blk
  dino : ∀ j, e.dino j = d.dino j ∨ ((d.dino j).type ≠ .free ∧ (d.dino j).nlink = 0 ∧
    e.dino j = { (d.dino j).empty with type := .free })

theorem Freed.refl (d : Disk) : Freed d d := ⟨rfl, fun _ => Or.inl rfl⟩

theorem Quiet.freed (h : Quiet s t) : Freed s.disk t.disk := h.disk ▸ .refl _

theorem Freed.trans {d e f : Disk} (h : Freed d e) (h' : Freed e f) : Freed d f := by
  refine ⟨h'.blk.trans h.blk, fun j => ?_⟩
  rcases h.dino j with hj | ⟨ht, hn, hj⟩
  · rw [← hj]
    exact h'.dino j
  · rcases h'.dino j with hj' | ⟨ht', _, _⟩
    · exact Or.inr ⟨ht, hn, hj'.trans hj⟩
    · -- a free inode is not freed again
      rw [hj] at ht'
      exact absurd rfl ht'

theorem Put.freed (hs : Clean sb s) (h : Put i s t) : Freed s.disk t.disk := by
  refine ⟨h.blk, fun j => ?_⟩
  show t.dino j = s.dino j ∨ _
  rcases h.inode with ⟨hd, _⟩ | ⟨hlast, hd⟩
  · exact Or.inl (by rw [hd])
  · rcases eq_or_ne j i with rfl | hj
    · obtain ⟨hco, hal⟩ := hs.coherent j hlast.2.1
      have hn : (s.dino j).nlink = 0 := hco ▸ hlast.2.2
      exact Or.inr ⟨hal, hn, by rw [show t.disk.dino j = t.dino j from rfl, hd, Function.update_self]; rfl⟩
    · exact Or.inl (by rw [hd, Function.update_of_ne hj])

/-- The bytes `src` are written to inode `i` from offset `off` on. -/
structure Stored (i : Inum) (off : Nat) (src : List Byte) (d e : Disk) : Prop where
  inode : ∃ a, e.dino = Function.update d.dino i
    { d.dino i with size := max (d.dino i).size (off + src.length), addrs := a }
  others : ∀ j, j ≠ i → (d.dino j).type ≠ .free → Retains d.blk (d.dino j) e.blk (d.dino j)
  bytes : ∀ k, k < (e.dino i).size → byteAt e.blk (e.dino i) k =
    if off ≤ k ∧ k < off + src.length then src.getD (k - off) 0 else byteAt d.blk (d.dino i) k
  full : ∀ j, (e.dino j).type ≠ .free → Full e.blk (e.dino j)

theorem WroteFile.stored {off : Nat} {src : List Byte} (h : WroteFile i off src s t)
    (hc : Clean sb t) : Stored i off src s.disk t.disk := ⟨h.inode, h.others, h.bytes, hc.full⟩

/-- The inode is referenced, locked and in the cache. -/
structure Held (i : Inum) (s : State) : Prop where
  ref : 1 ≤ (s.icache i).ref
  busy : (s.icache i).busy = true
  valid : (s.icache i).valid = true

theorem Held.of_eq (h : Held i s) (he : t.icache i = s.icache i) : Held i t :=
  ⟨he ▸ h.ref, he ▸ h.busy, he ▸ h.valid⟩

theorem Held.of_din (h : Held i s) {d : Dinode} (he : t.icache i = { s.icache i with din := d }) :
    Held i t := by
  refine ⟨?_, ?_, ?_⟩ <;> rw [he]
  · exact h.ref
  · exact h.busy
  · exact h.valid

/-! ## 2. The inode cache -/

theorem clean_setInode {n : Inode} (h : Clean sb s)
    (hn : n.valid = true → (s.icache i).valid = true ∧ n.din = (s.icache i).din) :
    Clean sb (s.setInode i n) := by
  refine h.of_icache rfl rfl rfl fun j hj => ?_
  rcases eq_or_ne j i with rfl | hne
  · simp only [State.setInode, Function.update_self] at hj ⊢
    exact hn hj
  · simp only [State.setInode, Function.update_of_ne hne] at hj ⊢
    exact ⟨hj, trivial⟩

/-- **`iget`** loses no inode that is held. -/
theorem spec_iget : Spec sb p (Clean sb) (iget i) fun s _ t =>
    Clean sb t ∧ Quiet s t ∧ (∀ j, j ≠ i → t.icache j = s.icache j) ∧
      ∀ j, Held j s → Held j t := by
  refine .intro ((stubborn sb).silent (passive_iget i).silent) fun s _ hs => ?_
  simp only [iget, Code.wp_bind, Code.wp_gets, Code.wp_ite, Code.wp_modify, Code.wp_panicIf]
  refine ⟨fun hpos _ => ?_, fun hzero => ⟨fun _ => notFreed (by decide) _, fun _ _ => ?_⟩⟩
  · refine ⟨clean_setInode hs fun h => ⟨h, rfl⟩, ⟨rfl, rfl, rfl⟩, fun j hj => ?_, fun j hj => ?_⟩
    · simp only [State.setInode, Function.update_of_ne hj]
    · rcases eq_or_ne j i with rfl | hne
      · refine ⟨?_, ?_, ?_⟩ <;> simp only [State.setInode, Function.update_self]
        · omega
        · exact hj.busy
        · exact hj.valid
      · exact hj.of_eq (by simp only [State.setInode, Function.update_of_ne hne])
  · have hc : Clean sb (s.setInode i { s.icache i with ref := 1, busy := false, valid := false }) :=
      clean_setInode hs fun h => (by cases h)
    refine ⟨⟨hc.agrees, hc.full, hc.coherent⟩, ⟨rfl, rfl, rfl⟩, fun j hj => ?_, fun j hj => ?_⟩
    · simp only [State.setInode, Function.update_of_ne hj]
    · have hne : j ≠ i := by
        rintro rfl
        exact hzero hj.ref
      exact hj.of_eq (by simp only [State.setInode, Function.update_of_ne hne])

theorem spec_idup : Spec sb p (Clean sb) (idup i) fun s _ t => Clean sb t ∧ Quiet s t :=
  .modify (fun _ => rfl) fun _ hs => ⟨clean_setInode hs fun h => ⟨h, rfl⟩, rfl, rfl, rfl⟩

/-- **`ilock`** waits for the lock. -/
theorem spec_ilock : Spec sb p (Clean sb) (ilock i) fun s _ t =>
    Clean sb t ∧ Quiet s t ∧ Held i t ∧ (s.icache i).busy = false ∧
      ∀ j, j ≠ i → t.icache j = s.icache j := by
  refine .intro ((stubborn sb).silent (silent_ilock i)) fun s _ hs => ?_
  refine wp_ilock.mpr ⟨fun _ => notFreed (by decide) _, fun href hbusy => ?_⟩
  split
  · exact notFreed (by decide) _
  · rename_i htype
    intro _
    have hi : s.inode i = s.dino i ∧ (s.dino i).type ≠ .free := by
      unfold State.inode
      cases hv : (s.icache i).valid with
      | true => simpa using hs.coherent i hv
      | false => simpa [hv] using htype
    refine ⟨⟨hs.agrees, hs.full, fun j hj => ?_⟩, ⟨rfl, rfl, rfl⟩, ⟨?_, ?_, ?_⟩, hbusy, fun j hj => ?_⟩
    · rcases eq_or_ne j i with rfl | hne
      · simp only [State.locked, State.setInode, Function.update_self]
        exact hi
      · simp only [State.locked, State.setInode, Function.update_of_ne hne] at hj ⊢
        exact hs.coherent j hj
    · simp only [State.locked, State.setInode, Function.update_self]
      omega
    · simp only [State.locked, State.setInode, Function.update_self]
    · simp only [State.locked, State.setInode, Function.update_self]
    · simp only [State.locked, State.setInode, Function.update_of_ne hj]

theorem spec_iunlock : Spec sb p (Clean sb) (iunlock i) fun s _ t =>
    Clean sb t ∧ Quiet s t ∧ ∀ j, j ≠ i → t.icache j = s.icache j := by
  refine .intro ((stubborn sb).silent (passive_iunlock i).silent) fun s _ hs => ?_
  simp only [iunlock, Code.wp_bind, Code.wp_gets, Code.wp_panicIf, Code.wp_modify]
  refine ⟨fun _ => notFreed (by decide) _, fun _ _ => ⟨clean_setInode hs fun h => ⟨h, rfl⟩,
    ⟨rfl, rfl, rfl⟩, fun j hj => ?_⟩⟩
  simp only [State.setInode, Function.update_of_ne hj]

theorem spec_iput_freed : Spec sb p (Clean sb) (iput i).whole fun s _ t =>
    Clean sb t ∧ Freed s.disk t.disk ∧ ∀ j, j ≠ i → t.icache j = s.icache j :=
  spec_iput.conseq (fun _ h => h) fun _ _ _ hs h => ⟨h.1, h.2.freed hs, h.2.icache⟩

theorem spec_iunlockput : Spec sb p (Clean sb) (iunlockput i) fun s _ t =>
    Clean sb t ∧ Freed s.disk t.disk ∧ ∀ j, j ≠ i → t.icache j = s.icache j :=
  .bind spec_iunlock fun _ _ => spec_iput_freed.conseq (fun _ h => h.2.1) fun _ _ _ ht hu =>
    ⟨hu.1, ht.2.2.1.freed.trans hu.2.1, fun j hj => (hu.2.2 j hj).trans (ht.2.2.2 j hj)⟩

/-- Fields of a held inode that say nothing about its blocks have been changed, in the cache and
on disk. -/
structure Updated (i : Inum) (f : Dinode → Dinode) (s t : State) : Prop where
  dino : t.dino = Function.update s.dino i (f (s.dino i))
  blk : t.blk = s.blk
  cwd : t.cwd = s.cwd
  icache : t.icache = Function.update s.icache i { s.icache i with din := f (s.dino i) }

theorem Updated.held {f : Dinode → Dinode} (h : Updated i f s t) (hj : Held j s) : Held j t := by
  rcases eq_or_ne j i with rfl | hne
  · exact hj.of_din (by rw [h.icache, Function.update_self])
  · exact hj.of_eq (by rw [h.icache, Function.update_of_ne hne])

theorem Updated.disk {f : Dinode → Dinode} (h : Updated i f s t) : t.disk = s.disk.edit i f :=
  Disk.ext h.dino h.blk

/-- `ip->... = ...; iupdate(ip)`. -/
theorem spec_relink {f : Dinode → Dinode}
    (hf : ∀ d, (f d).type = d.type ∧ (f d).size = d.size ∧ (f d).addrs = d.addrs) :
    Spec sb p (fun s => Clean sb s ∧ Held i s) (do
      setCopy i f
      iupdate i) fun s _ t => Clean sb t ∧ Updated i f s t := by
  refine fun s hs => wp_setCopy_iupdate fun hl => ?_
  obtain ⟨hc, hh⟩ := hs hl
  have hco := (hc.coherent i hh.valid).1
  rw [hco]
  exact ⟨hl, hc.put hh.valid (hf _).1 (hf _).2.1 (hf _).2.2, rfl, rfl, rfl, rfl⟩

/-- The same, followed by `rest`. -/
theorem spec_update {f : Dinode → Dinode} {Pre : State → Prop} {rest : K α}
    {Post : State → α → State → Prop}
    (hf : ∀ d, (f d).type = d.type ∧ (f d).size = d.size ∧ (f d).addrs = d.addrs)
    (hpre : ∀ s, Pre s → Clean sb s ∧ Held i s)
    (h : ∀ s, Spec sb p (fun t => Pre s ∧ Clean sb t ∧ Updated i f s t) rest fun _ a u =>
      Post s a u) :
    Spec sb p Pre (do
      setCopy i f
      iupdate i
      rest) Post := by
  intro s hs
  have hboth := SpecOf.bind ((spec_relink hf).pre hpre) (fun s _ => h s) s hs
  simpa only [Code.wp_bind] using hboth

/-- A free inode is given a type. -/
theorem Clean.allocate (h : Clean sb s) (hfree : (s.dino i).type = .free) (type : FileType) :
    Clean sb ((s.setDino i { Dinode.zero with type := type }).logged p (iblock i)) where
  agrees := by
    show Agrees sb.Data (refs (Function.update s.dino i _) s.blk) s.bit
    rw [refs_update_empty (Or.inl hfree) (Or.inr fun _ => rfl)]
    exact h.agrees
  full j hj := by
    rcases eq_or_ne j i with rfl | hne
    · simp only [State.setDino, State.logged, Function.update_self]
      exact ⟨Nat.zero_le _, fun bn _ hlt => absurd hlt (Nat.not_lt_zero _)⟩
    · simp only [State.setDino, State.logged, Function.update_of_ne hne] at hj ⊢
      exact h.full j hj
  coherent j hj := by
    have hne : j ≠ i := by
      rintro rfl
      exact (h.coherent j hj).2 hfree
    simp only [State.setDino, State.logged, Function.update_of_ne hne] at hj ⊢
    exact h.coherent j hj

/-- What `ialloc` does. -/
structure Allocated (i : Inum) (type : FileType) (s t : State) : Prop where
  free : (s.dino i).type = .free
  dino : t.dino = Function.update s.dino i { Dinode.zero with type := type }
  blk : t.blk = s.blk
  icache : ∀ j, j ≠ i → t.icache j = s.icache j
  held : ∀ j, Held j s → Held j t ∧ j ≠ i

/-- **`ialloc`** finds a free inode in the table. -/
theorem spec_ialloc (type : FileType) : Spec sb p (Clean sb) (ialloc sb type) fun s i t =>
    Clean sb t ∧ Allocated i type s t ∧ 1 ≤ i ∧ i < sb.ninodes := by
  refine .intro (basic_ialloc (stubborn sb) sb type) fun s hl hs => ?_
  simp only [ialloc, Code.wp_bind, Code.wp_gets]
  cases hf : s.freeInode sb with
  | none => exact notFreed (by decide) _
  | some i =>
    have hfree : (s.dino i).type = .free := by
      have := List.find?_some hf
      simpa using this
    have hmem := List.mem_of_find?_eq_some hf
    rw [List.mem_range'_1] at hmem
    have hlt : i < sb.ninodes := Nat.lt_of_lt_of_le hmem.2 (by omega)
    simp only [Code.wp_bind, Code.wp_modify, Code.wp_pure]
    refine wp_logWrite (Code.wp_imp (spec_iget _ fun _ => hs.allocate hfree type)
      fun _ t ht hl' => ?_)
    obtain ⟨_, hc, hq, hic, hheld⟩ := ht hl'
    refine ⟨hc, ⟨hfree, hq.dino, hq.blk, hic, fun j hj => ⟨hheld j (hj.of_eq rfl), ?_⟩⟩,
      hmem.1, hlt⟩
    rintro rfl
    exact (hs.coherent j hj.valid).2 hfree

/-! ## 3. Directories -/

/-- A held inode can be read. -/
theorem Clean.readable (h : Clean sb s) (hv : Held i s) :
    (s.icache i).din = s.dino i ∧ NoHole s.blk (s.icache i).din := by
  obtain ⟨hco, hal⟩ := h.coherent i hv.valid
  exact ⟨hco, hco ▸ (h.full i hal).2⟩

/-- The first of some offsets of a directory whose entry passes a test. -/
def firstEntry (blk : Nat → Block) (d : Dinode) (test : List Byte → Bool) (offs : List Nat) :
    Option Nat := offs.find? fun off => test (contents blk d off 16)

theorem spec_scan {test : List Byte → Bool} {err : Panic} (herr : err ≠ .freeingFreeBlock)
    (herr' : err ≠ .writeOutsideTrans) (offs : List Nat) :
    Spec sb p (fun s => Clean sb s ∧ Held i s) (scan sb i test err offs) fun s r t =>
      t = s ∧ r = (firstEntry s.blk (s.dino i) test offs).map fun off =>
        (off, contents s.blk (s.dino i) off 16) := by
  refine .intro (basic_scan (stubborn sb) sb i test herr' offs) fun s _ ⟨hs, hh⟩ => ?_
  obtain ⟨hco, hn⟩ := hs.readable hh
  refine wp_scan hn (notFreed (by decide) s) (notFreed herr s) offs _ fun _ => ⟨rfl, ?_⟩
  rw [hco]
  rfl

/-- **`dirlookup`** finds the first entry with the name. -/
theorem spec_dirlookup (name : List Byte) :
    Spec sb p (fun s => Clean sb s ∧ Held i s) (dirlookup sb i name) fun s r t =>
      Clean sb t ∧ Quiet s t ∧ (∀ j, Held j s → Held j t) ∧ (s.dino i).type = .dir ∧
        match r with
        | none => findName s.blk (s.dino i) name = none ∧ t = s
        | some (j, off) => ∃ de, findName s.blk (s.dino i) name = some (off, de) ∧ j = deInum de := by
  refine .intro (basic_dirlookup (stubborn sb) sb i name) fun s hl ⟨hs, hh⟩ => ?_
  obtain ⟨hco, hn⟩ := hs.readable hh
  by_cases hdir : (s.dino i).type = .dir
  · refine wp_dirlookup hn (notFreed (by decide) s) (notFreed (by decide) s)
      (fun _ => notFreed (by decide) s) (fun hf _ => ?_) fun off de hf => ?_
    · exact ⟨hs, .refl s, fun _ h => h, hdir, hco ▸ hf, rfl⟩
    · refine Code.wp_imp (spec_iget s fun _ => hs) fun _ t ht hlt => ?_
      obtain ⟨_, hc, hq, _, hheld⟩ := ht hlt
      exact ⟨hc, hq, hheld, hdir, de, hco ▸ hf, rfl⟩
  · -- not a directory
    simp only [dirlookup, Code.wp_bind, wp_copy, Code.wp_panicIf]
    exact ⟨fun _ => notFreed (by decide) s, fun h => absurd (hco ▸ not_not.mp h) hdir⟩

/-- Where `dirlink` puts a new entry: in the first unused one, or at the end. -/
def freeOffset (blk : Nat → Block) (d : Dinode) : Nat :=
  (firstEntry blk d (fun de => deInum de = 0) (offsets 0 d.size)).getD (16 * entries d.size)

theorem length_dirent (name : List Byte) (inum : Nat) : (dirent name inum).length = 16 := by
  have h : (cstr (name.take 14)).length ≤ 14 :=
    Nat.le_trans (List.takeWhile_sublist _).length_le (List.length_take_le _ _)
  simp only [dirent, padName, List.length_append, length_leBytes, List.length_replicate]
  omega

/-- A directory entry is written. -/
theorem spec_writeEntry (de : List Byte) (off : Nat) {err : Panic}
    (herr : err ≠ .freeingFreeBlock) :
    Spec sb p (fun s => Clean sb s ∧ Held i s) (writeEntry sb i de off err) fun s _ t =>
      Clean sb t ∧ off ≤ (s.dino i).size ∧ WroteFile i off de s t := by
  refine .bind ((spec_writei (fun _ h => h) de off).conseq (fun s hs => ⟨hs.1, hs.2.valid⟩) fun _ _ _ _ h => h)
    fun s r => .panicIf herr fun t ht hr => ?_
  obtain ⟨_, hc, ⟨rfl, _⟩ | ⟨_, hoff, hw⟩⟩ := ht
  · exact absurd (by simp) hr
  · exact ⟨hc, hoff, hw⟩

theorem WroteFile.held {off : Nat} {src : List Byte} (h : WroteFile i off src s t)
    (hj : Held j s) : Held j t := by
  rcases eq_or_ne j i with rfl | hne
  · exact hj.of_din (by rw [h.icache, Function.update_self])
  · exact hj.of_eq (by rw [h.icache, Function.update_of_ne hne])

/-- **`dirlink`** adds an entry, unless there is one with the name. -/
theorem spec_dirlink (name : List Byte) (inum : Inum) :
    Spec sb p (fun s => Clean sb s ∧ Held i s) (dirlink sb i name inum) fun s ok t =>
      Clean sb t ∧ (s.dino i).type = .dir ∧
        if ok then findName s.blk (s.dino i) name = none ∧
          WroteFile i (freeOffset s.blk (s.dino i)) (dirent name inum) s t
        else Freed s.disk t.disk := by
  refine .bind (spec_dirlookup name) fun s r => ?_
  cases r with
  | some e =>
    -- the name is there
    refine .bind (spec_iput_freed.conseq (fun t ht => ht.2.1) fun _ _ _ _ h => h) fun t _ => ?_
    refine .pure fun u hu => ?_
    obtain ⟨⟨_, _, hq, _, hdir, _⟩, hc, hf, _⟩ := hu
    refine ⟨hc, hdir, ?_⟩
    rw [if_neg (by simp)]
    exact hq.freed.trans hf
  | none =>
    refine .bind (R := fun t d t' => t' = t ∧ d = (t.icache i).din) (.gets fun _ _ => ⟨rfl, rfl⟩)
      fun t d => ?_
    refine .bind ((spec_scan (by decide) (by decide) (offsets 0 d.size)).conseq ?_
      fun _ _ _ _ h => h) fun t' hole => ?_
    · rintro t' ⟨⟨hs, hc, _, hheld, _⟩, rfl, _⟩
      exact ⟨hc, hheld i hs.2⟩
    · refine .bind ((spec_writeEntry (dirent name inum) _ (by decide)).conseq ?_
        fun _ _ _ _ h => h) fun t'' _ => .pure ?_
      · rintro t'' ⟨⟨⟨hs, hc, _, hheld, _⟩, rfl, _⟩, rfl, _⟩
        exact ⟨hc, hheld i hs.2⟩
      · rintro u ⟨⟨⟨⟨hs, hc, _, hheld, hdir, hnone, rfl⟩, rfl, rfl⟩, rfl, rfl⟩, hcu, _, hw⟩
        refine ⟨hcu, hdir, ?_⟩
        rw [if_pos rfl]
        refine ⟨hnone, ?_⟩
        have hco := (hc.readable (hheld i hs.2)).1
        rw [hco] at hw
        convert hw using 1
        unfold freeOffset
        cases firstEntry t''.blk (t''.dino i) (fun de => deInum de = 0)
          (offsets 0 (t''.dino i).size) <;> rfl

/-! ## 4. Paths -/

/-- One round of a lookup goes to an inode that an entry of the directory names. -/
theorem spec_lookup (ip : Inum) (name : List Byte) (last : Bool) :
    Spec sb p (Clean sb) (lookup sb ip name last) fun s r t => Clean sb t ∧ Quiet s t ∧
      ∀ j, r = .next j → (s.dino ip).type = .dir ∧
        ∃ off de, findName s.blk (s.dino ip) name = some (off, de) ∧ j = deInum de := by
  -- every branch ends by unlocking the directory
  have hend : ∀ (s : State) (r : Look) (R : State → Prop), (∀ t, R t → Clean sb t ∧ Quiet s t ∧
        ∀ j, r = .next j → (s.dino ip).type = .dir ∧
          ∃ off de, findName s.blk (s.dino ip) name = some (off, de) ∧ j = deInum de) →
      Spec sb p R (do
        iunlock ip
        pure r) fun _ r' u => Clean sb u ∧ Quiet s u ∧
          ∀ j, r' = .next j → (s.dino ip).type = .dir ∧
            ∃ off de, findName s.blk (s.dino ip) name = some (off, de) ∧ j = deInum de := by
    intro s r R hR
    refine .bind (spec_iunlock.conseq (fun t ht => (hR t ht).1) fun _ _ _ _ h => h) fun t _ => ?_
    exact .pure fun u hu => ⟨hu.2.1, (hR t hu.1).2.1.trans hu.2.2.1, (hR t hu.1).2.2⟩
  refine .bind spec_ilock fun s _ => ?_
  refine .bind (R := fun t d t' => t' = t) (.gets fun _ _ => rfl) fun t d => ?_
  refine .ite (fun _ => ?_) fun _ => .ite (fun _ => ?_) fun _ => ?_
  · exact hend s _ _ fun t' ht => ht.2 ▸ ⟨ht.1.2.1, ht.1.2.2.1, fun _ h => (by cases h)⟩
  · exact hend s _ _ fun t' ht => ht.2 ▸ ⟨ht.1.2.1, ht.1.2.2.1, fun _ h => (by cases h)⟩
  · refine .bind ((spec_dirlookup name).conseq ?_ fun _ _ _ _ h => h) fun t' r => ?_
    · rintro t' ⟨⟨_, hc, _, hh, _⟩, rfl⟩
      exact ⟨hc, hh⟩
    · cases r with
      | none =>
        refine hend s _ _ fun u hu => ⟨hu.2.1, (hu.1.2 ▸ hu.1.1.2.2.1).trans hu.2.2.1, ?_⟩
        exact fun _ h => (by cases h)
      | some e =>
        refine hend s _ _ ?_
        rintro u ⟨⟨⟨_, _, hq, _⟩, rfl⟩, hc, hq', _, hdir, de, hf, hj⟩
        refine ⟨hc, hq.trans hq', fun j h => ?_⟩
        cases h
        rw [hq.dino] at hdir hf
        rw [hq.blk] at hf
        exact ⟨hdir, e.2, de, hf, hj⟩

/-- A property of inodes that a walk along directory entries keeps. -/
structure Walk (L : Disk → Inum → Prop) : Prop where
  freed : ∀ d e i, Freed d e → L d i → L e i
  entry : ∀ d i name off de, L d i → (d.dino i).type = .dir →
    findName d.blk (d.dino i) name = some (off, de) → L d (deInum de)

variable {L : Disk → Inum → Prop}

theorem spec_namexEnd (parent : Bool) (ip : Inum) :
    Spec sb p (Clean sb) (namexLoop.namexEnd parent ip).whole fun s r t =>
      Clean sb t ∧ Freed s.disk t.disk ∧ ∀ e ∈ r, L s.disk ip → L t.disk e.1 := by
  cases parent with
  | true =>
    refine .wholeBind spec_iput_freed fun s _ => .pure fun t ht => ⟨ht.2.1, ht.2.2.1, ?_⟩
    exact fun e he => (by cases he)
  | false =>
    refine .pure fun s hs => ⟨hs, .refl _, fun e he hip => ?_⟩
    cases he
    exact hip

variable (hL : Walk L)
include hL

theorem spec_namexLoop (parent : Bool) : ∀ (rounds : Nat) (ip : Inum) (path : List Byte),
    Spec sb p (Clean sb) (namexLoop sb parent rounds ip path).whole fun s r t =>
      Clean sb t ∧ Freed s.disk t.disk ∧ ∀ e ∈ r, L s.disk ip → L t.disk e.1
  | 0, ip, _ => spec_namexEnd parent ip
  | rounds + 1, ip, path => by
    unfold namexLoop
    split
    · exact spec_namexEnd parent ip
    · rename_i name rest _
      refine .wholeBind (.wholeAtomic (spec_lookup ip name _)) fun s r => ?_
      cases r with
      | fail =>
        refine .wholeBind (spec_iput_freed.conseq (fun t ht => ht.2.1) fun _ _ _ _ h => h)
          fun t _ => .pure fun u hu => ⟨hu.2.1, hu.1.2.2.1.freed.trans hu.2.2.1, ?_⟩
        exact fun e he => (by cases he)
      | stop =>
        refine .pure fun t ht => ⟨ht.2.1, ht.2.2.1.freed, fun e he hip => ?_⟩
        cases he
        exact hL.freed _ _ ip ht.2.2.1.freed hip
      | next j =>
        refine .wholeBind (spec_iput_freed.conseq (fun t ht => ht.2.1) fun _ _ _ _ h => h)
          fun t _ => ?_
        refine (spec_namexLoop parent rounds j rest).conseq (fun u hu => hu.2.1) ?_
        rintro u r v ⟨⟨_, _, hq, hnext⟩, _, hf, _⟩ ⟨hc, hf', hr⟩
        have hsu : Freed s.disk u.disk := hq.freed.trans hf
        refine ⟨hc, hsu.trans hf', fun e he hip => hr e he (hL.freed _ _ j hsu ?_)⟩
        obtain ⟨hdir, off, de, hfind, rfl⟩ := hnext j rfl
        exact hL.entry s.disk ip name off de hip hdir hfind

/-- **A path lookup**, run whole, frees inodes without links at most, and stays where the walk
along directory entries stays. -/
theorem spec_namex (path : List Byte) (parent : Bool) :
    Spec sb p (Clean sb) (namex sb path parent).whole fun s r t => Clean sb t ∧ Freed s.disk t.disk ∧
      ∀ e ∈ r, L s.disk (if path.head? = some slash then 1 else s.cwd p) → L t.disk e.1 := by
  refine .wholeBind (.wholeAtomic (.ite (fun habs => ?_) fun hrel => ?_))
    (R := fun s i t => Clean sb t ∧ Quiet s t ∧
      i = if path.head? = some slash then 1 else s.cwd p) fun s i => ?_
  · exact .bind spec_iget fun s _ => .pure fun t ht => ⟨ht.2.1, ht.2.2.1, (if_pos habs).symm⟩
  · refine .bind (R := fun s q t => t = s ∧ q = p) ?_ fun s q => ?_
    · exact fun s hs hl => ⟨hl, rfl, rfl⟩
    · refine .bind (R := fun t i t' => t' = t ∧ i = t.cwd q) (.gets fun _ _ => ⟨rfl, rfl⟩)
        fun t i => ?_
      refine .bind (spec_idup.conseq ?_ fun _ _ _ _ h => h) fun t' _ => .pure ?_
      · rintro t' ⟨⟨hs, rfl, rfl⟩, rfl, rfl⟩
        exact hs
      · rintro u ⟨⟨⟨_, rfl, rfl⟩, rfl, rfl⟩, hc, hq⟩
        exact ⟨hc, hq, (if_neg hrel).symm⟩
  · refine (spec_namexLoop hL parent _ _ _).conseq (fun t ht => ht.2.1) ?_
    rintro t r u ⟨_, _, hq, rfl⟩ ⟨hc, hf, hr⟩
    exact ⟨hc, hq.freed.trans hf, fun e he hstart => hr e he (hL.freed _ _ _ hq.freed hstart)⟩

end Xv6.Fs
