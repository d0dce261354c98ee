/-
# What a transaction does

The code between `begin_trans` and `commit_trans` of each call, specified by what it does to the
disk.  Each transaction is a chain of a few steps: inodes without links are freed, a link count
changes, an inode is allocated, a directory entry is written.  All of them keep the bitmap in
agreement (`Clean`).
-/
import Xv6.Fs.Holds
import Xv6.Fs.Layers

namespace Xv6.Fs

open Xv6.Bytes Xv6.Threads

variable {i j ip dp : Inum} {sb : Super} {s t u : State} {p : Pid} {L : Disk → Inum → Prop}

/-! ## 1. Steps -/

/-- `ip->nlink++`. -/
def addLink (d : Dinode) : Dinode := { d with nlink := d.nlink + 1 }

/-- `ip->nlink--`. -/
def dropLink (d : Dinode) : Dinode := { d with nlink := d.nlink - 1 }

/-- The entry `name` for `inum` is added to a directory that has no entry of that name. -/
structure Entered (dp : Inum) (name : List Byte) (inum : Inum) (d e : Disk) : Prop where
  dir : (d.dino dp).type = .dir
  unused : findName d.blk (d.dino dp) name = none
  stored : Stored dp (freeOffset d.blk (d.dino dp)) (dirent name inum) d e

/-- Where a path lookup by `p` starts. -/
def lookupStart (p : Pid) (path : List Byte) (s : State) : Inum :=
  if path.head? = some slash then 1 else s.cwd p

/-- A link to `ip` is made or not. -/
inductive LinkEffect (L : Disk → Inum → Prop) (start ip : Inum) (d e : Disk) : Prop where
  | idle (h : Freed d e)
  | undone (d' : Disk) (kind : (d.dino ip).type ≠ .dir ∧ (d.dino ip).type ≠ .free)
      (added : Freed (d.edit ip addLink) d') (dropped : Freed (d'.edit ip dropLink) e)
  | done (d' e' : Disk) (dp : Inum) (name : List Byte)
      (kind : (d.dino ip).type ≠ .dir ∧ (d.dino ip).type ≠ .free)
      (added : Freed (d.edit ip addLink) d') (parent : L (d.edit ip addLink) start → L d' dp)
      (entered : Entered dp name ip d' e') (after : Freed e' e)

/-- The entry of `ip` at offset `off` of `dp` is removed or not. -/
inductive UnlinkEffect (dp : Inum) (name : List Byte) (d e : Disk) : Prop where
  | idle (h : Freed d e)
  | done (ip : Inum) (off : Nat) (de : List Byte) (d' e' : Disk)
      (dir : (d.dino dp).type = .dir) (notDot : nameEq name dot = false ∧ nameEq name dotdot = false)
      (found : findName d.blk (d.dino dp) name = some (off, de)) (names : ip = deInum de)
      (other : ip ≠ dp) (allocated : (d.dino ip).type ≠ .free)
      (empty : (d.dino ip).type = .dir →
        firstEntry d.blk (d.dino ip) (fun de => deInum de ≠ 0) (offsets 2 (d.dino ip).size) = none)
      (cleared : Stored dp off (List.replicate 16 0) d d')
      (dropped : Freed (if (d.dino ip).type = .dir then d'.edit dp dropLink else d') e')
      (after : Freed (e'.edit ip dropLink) e)

/-- The new inode. -/
def newInode (type : FileType) (major minor : BitVec 16) : Dinode :=
  { Dinode.zero with type := type, major := major, minor := minor, nlink := 1 }

/-- A new inode is entered in `dp`. -/
inductive Created (sb : Super) (dp : Inum) (name : List Byte) (d e : Disk) : Prop where
  | file (ip : Inum) (type : FileType) (major minor : BitVec 16) (e' : Disk)
      (kind : type ≠ .dir ∧ type ≠ .free) (free : (d.dino ip).type = .free)
      (range : 1 ≤ ip ∧ ip < sb.ninodes)
      (entered : Entered dp name ip (d.edit ip fun _ => newInode type major minor) e')
      (after : Freed e' e)
  | dir (ip : Inum) (major minor : BitVec 16) (d₁ d₂ e' : Disk)
      (free : (d.dino ip).type = .free) (range : 1 ≤ ip ∧ ip < sb.ninodes)
      (self : Entered ip dot ip
        ((d.edit ip fun _ => newInode .dir major minor).edit dp addLink) d₁)
      (parent : Entered ip dotdot dp d₁ d₂) (entered : Entered dp name ip d₂ e')
      (after : Freed e' e)

/-- A file, a directory or a device is made, or not. -/
inductive CreateEffect (sb : Super) (L : Disk → Inum → Prop) (start : Inum) (d e : Disk) : Prop where
  | idle (h : Freed d e)
  | done (d' : Disk) (dp : Inum) (name : List Byte) (before : Freed d d')
      (parent : L d start → L d' dp) (created : Created sb dp name d' e)

/-! ## 2. `sys_link` -/

theorem spec_linkBad : Spec sb p (Clean sb) (linkBad ip) fun s _ t =>
    Clean sb t ∧ Freed (s.disk.edit ip dropLink) t.disk := by
  refine .bind spec_ilock fun s _ => spec_update (f := dropLink) (fun _ => ⟨rfl, rfl, rfl⟩)
    (fun t ht => ⟨ht.2.1, ht.2.2.2.1⟩) fun t => ?_
  refine spec_iunlockput.conseq (fun u hu => hu.2.1) ?_
  rintro u _ v ⟨⟨_, _, hq, _⟩, _, hu⟩ ⟨hc, hf, _⟩
  rw [hu.disk, hq.disk] at hf
  exact ⟨hc, hf⟩

/-- **`sys_link`.** -/
theorem spec_linkBody (hL : Walk L) (new : List Byte) :
    Spec sb p (Clean sb) (linkBody sb ip new) fun s _ t =>
      Clean sb t ∧ LinkEffect L (lookupStart p new s) ip s.disk t.disk := by
  refine .bind spec_ilock fun s _ => ?_
  refine .bind (R := fun t d t' => t' = t ∧ d = (t.icache ip).din) (.gets fun _ _ => ⟨rfl, rfl⟩)
    fun t d => .ite (fun _ => ?_) fun hdir => ?_
  · -- a directory is not linked
    refine spec_iunlockput.conseq (fun u hu => hu.2.1 ▸ hu.1.2.1) ?_
    rintro u _ v ⟨⟨_, _, hq, _⟩, rfl, _⟩ ⟨hc, hf, _⟩
    exact ⟨hc, .idle (hq.freed.trans hf)⟩
  · refine spec_update (f := addLink) (fun _ => ⟨rfl, rfl, rfl⟩)
      (fun u hu => hu.2.1 ▸ ⟨hu.1.2.1, hu.1.2.2.2.1⟩) fun u => ?_
    refine .bind (spec_iunlock.pre fun v hv => hv.2.1) fun v _ => ?_
    refine .bind ((spec_namex hL new true).pre fun w hw => hw.2.1) fun w r => ?_
    -- what is known when the parent has been looked up
    refine .knowing (fun x => ((s.disk.dino ip).type ≠ .dir ∧ (s.disk.dino ip).type ≠ .free) ∧
      Clean sb x ∧ Freed (s.disk.edit ip addLink) x.disk ∧
      ∀ e ∈ r, L (s.disk.edit ip addLink) (lookupStart p new s) → L x.disk e.1) ?_ ?_
    · rintro x ⟨⟨⟨⟨⟨hs, hct, hq, hh, _⟩, rfl, rfl⟩, _, hup⟩, _, hq', _⟩, hcx, hf, hr⟩
      have hdisk : w.disk = s.disk.edit ip addLink := by rw [hq'.disk, hup.disk, hq.disk]
      have hcwd : w.cwd = s.cwd := by rw [hq'.cwd, hup.cwd, hq.cwd]
      obtain ⟨hco, hal⟩ := hct.coherent ip hh.valid
      rw [hco, hq.dino] at hdir
      rw [hq.dino] at hal
      rw [hdisk] at hf hr
      rw [hcwd] at hr
      exact ⟨⟨hdir, hal⟩, hcx, hf, hr⟩
    cases r with
    | none =>
      refine spec_linkBad.conseq (fun x hx => hx.2.1) ?_
      rintro x _ y ⟨hkind, _, hf, _⟩ hy
      exact ⟨hy.1, .undone x.disk hkind hf hy.2⟩
    | some e =>
      obtain ⟨dp, name⟩ := e
      refine .bind (spec_ilock.pre fun x hx => hx.2.1) fun x _ => ?_
      refine .bind ((spec_dirlink name ip).pre fun y hy => ⟨hy.2.1, hy.2.2.2.1⟩) fun y ok => ?_
      cases ok with
      | true =>
        refine .bind (spec_iunlockput.pre fun z hz => hz.2.1) fun z _ => ?_
        refine spec_iput_freed.conseq (fun z' hz => hz.2.1) ?_
        rintro z' _ w' ⟨⟨⟨⟨hkind, _, hf, hr⟩, _, hq, _⟩, hcz, hdir', hw⟩, _, hf', _⟩ ⟨hc, hf'', _⟩
        rw [if_pos rfl] at hw
        refine ⟨hc, .done x.disk z.disk dp name hkind hf (hr _ rfl) ?_ (hf'.trans hf'')⟩
        rw [← hq.disk]
        exact ⟨hdir', hw.1, hw.2.stored hcz⟩
      | false =>
        refine .bind (spec_iunlockput.pre fun z hz => hz.2.1) fun z _ => ?_
        refine spec_linkBad.conseq (fun z' hz => hz.2.1) ?_
        rintro z' _ w' ⟨⟨⟨⟨hkind, _, hf, _⟩, _, hq, _⟩, _, _, hw⟩, _, hf', _⟩ ⟨hc, hf''⟩
        rw [if_neg (by simp)] at hw
        exact ⟨hc, .undone z'.disk hkind (((hf.trans hq.freed).trans hw).trans hf') hf''⟩

/-! ## 3. `sys_unlink` -/

theorem spec_removable : Spec sb p (fun s => Clean sb s ∧ Held ip s) (removable sb ip) fun s ok t =>
    t = s ∧ (ok = true → (s.dino ip).type = .dir →
      firstEntry s.blk (s.dino ip) (fun de => deInum de ≠ 0) (offsets 2 (s.dino ip).size) = none) := by
  refine .bind (R := fun s d t => t = s ∧ d = s.dino ip) (.gets fun s hs => ⟨rfl, ?_⟩) fun s d => ?_
  · exact (hs.1.readable hs.2).1
  refine .ite (fun _ => ?_) fun hdir => .pure ?_
  · refine .bind (R := fun s d t => t = s ∧ d = s.dino ip) (.gets fun t ht => ⟨rfl, ?_⟩) fun t d' => ?_
    · exact ht.2.1 ▸ (ht.1.1.readable ht.1.2).1
    refine .bind ((spec_scan (by decide) (by decide) _).pre ?_) fun t' found => .pure ?_
    · rintro t' ⟨⟨hs, rfl, _⟩, rfl, _⟩
      exact hs
    · rintro u ⟨⟨⟨_, rfl, _⟩, rfl, rfl⟩, rfl, rfl⟩
      refine ⟨rfl, fun hnone _ => ?_⟩
      simpa using hnone
  · rintro t ⟨_, rfl, rfl⟩
    exact ⟨rfl, fun _ h => absurd h hdir⟩

/-- `dp->nlink--; iupdate(dp)`, if a directory is removed. -/
theorem spec_dropParent {c : Prop} [Decidable c] :
    Spec sb p (fun s => Clean sb s ∧ Held dp s) (Code.when c (do
        setCopy dp fun d => { d with nlink := d.nlink - 1 }
        iupdate dp)) fun s _ t => Clean sb t ∧ (∀ j, Held j s → Held j t) ∧
      t.disk = if c then s.disk.edit dp dropLink else s.disk := by
  refine .when (fun hc => ?_) fun hc s hs => ⟨hs.1, fun _ h => h, (if_neg hc).symm⟩
  refine (spec_relink (f := dropLink) fun _ => ⟨rfl, rfl, rfl⟩).conseq (fun _ h => h) ?_
  rintro s _ t _ ⟨hc', hup⟩
  exact ⟨hc', fun _ hj => hup.held hj, by rw [if_pos hc, hup.disk]⟩

/-- `sys_unlink` from the check of the inode on. -/
theorem spec_unlinkEntryRet {off : Nat} (hne : ip ≠ dp) :
    Spec sb p (fun s => Clean sb s ∧ Held dp s ∧ Held ip s) (unlinkEntryRet sb dp ip off)
      fun s ok t => Clean sb t ∧ if ok then ∃ d' e',
        ((s.dino ip).type = .dir → firstEntry s.blk (s.dino ip) (fun de => deInum de ≠ 0)
          (offsets 2 (s.dino ip).size) = none) ∧
        Stored dp off (List.replicate 16 0) s.disk d' ∧
        Freed (if (s.dino ip).type = .dir then d'.edit dp dropLink else d') e' ∧
        Freed (e'.edit ip dropLink) t.disk else Freed s.disk t.disk := by
  refine .bind (R := fun s d t => t = s ∧ d = s.dino ip)
    (.gets fun s hs => ⟨rfl, (hs.1.readable hs.2.2).1⟩) fun s d => ?_
  refine .bind (R := fun t _ t' => t' = t) (.panicIf (by decide) fun _ _ _ => rfl) fun t _ => ?_
  refine .bind (spec_removable.pre ?_) fun u ok => ?_
  · rintro u ⟨⟨hs, rfl, _⟩, rfl⟩
    exact ⟨hs.1, hs.2.2⟩
  refine .knowing (fun u => (Clean sb s ∧ Held dp s ∧ Held ip s) ∧ d = s.dino ip ∧ u = s ∧
    (ok = true → (s.dino ip).type = .dir → firstEntry s.blk (s.dino ip) (fun de => deInum de ≠ 0)
      (offsets 2 (s.dino ip).size) = none)) ?_ (.ite (fun _ => ?_) fun hok => ?_)
  · rintro v ⟨⟨⟨hs, rfl, rfl⟩, rfl⟩, rfl, hempty⟩
    exact ⟨hs, rfl, rfl, hempty⟩
  · -- a directory that is not empty stays
    refine .bind (spec_iunlockput.pre fun v hv => hv.2.2.1 ▸ hv.1.1) fun v _ => ?_
    refine .bind (spec_iunlockput.pre fun w hw => hw.2.1) fun w _ => .pure ?_
    rintro x ⟨⟨⟨_, _, rfl, _⟩, _, hf, _⟩, hc, hf', _⟩
    exact ⟨hc, hf.trans hf'⟩
  · refine .bind ((spec_writeEntry _ off (by decide)).pre fun v hv =>
      hv.2.2.1 ▸ ⟨hv.1.1, hv.1.2.1⟩) fun v _ => ?_
    refine .bind (spec_dropParent.pre ?_) fun w _ => ?_
    · rintro w ⟨⟨⟨_, hdp, _⟩, _, rfl, _⟩, hc, _, hw⟩
      exact ⟨hc, hw.held hdp⟩
    refine .bind (spec_iunlockput.pre fun x hx => hx.2.1) fun x _ => ?_
    refine spec_update (f := dropLink) (fun _ => ⟨rfl, rfl, rfl⟩) ?_ fun y => ?_
    · rintro y ⟨⟨⟨⟨⟨_, _, hip⟩, _, rfl, _⟩, _, _, hw⟩, _, hheld, _⟩, hc, _, hic⟩
      exact ⟨hc, (hheld ip (hw.held hip)).of_eq (hic ip hne)⟩
    · refine .bind (spec_iunlockput.pre fun z hz => hz.2.1) fun z _ => .pure ?_
      rintro z' ⟨⟨⟨⟨⟨⟨_, rfl, rfl, hempty⟩, hcw, _, hw⟩, _, _, hdisk⟩, _, hf, _⟩, _, hup⟩, hc, hf', _⟩
      rw [hup.disk] at hf'
      rw [hdisk] at hf
      exact ⟨hc, w.disk, y.disk, hempty (by simpa using hok), hw.stored hcw, hf, hf'⟩

/-- What is so when `sys_unlink` removes the entry `name` of `dp`: it is neither `.` nor `..`, and
`isdirempty` has found nothing in the directory `ip` that it names. -/
structure Removes (dp : Inum) (name : List Byte) (ip : Inum) (d : Disk) : Prop where
  dir : (d.dino dp).type = .dir
  notDot : nameEq name dot = false ∧ nameEq name dotdot = false
  found : ∃ off de, findName d.blk (d.dino dp) name = some (off, de) ∧ ip = deInum de
  empty : (d.dino ip).type = .dir →
    firstEntry d.blk (d.dino ip) (fun de => deInum de ≠ 0) (offsets 2 (d.dino ip).size) = none

/-- **`sys_unlink`**, with what it returns. -/
theorem spec_unlinkBodyRet (name : List Byte) :
    Spec sb p (Clean sb) (unlinkBodyRet sb dp name) fun s ok t =>
      Clean sb t ∧ UnlinkEffect dp name s.disk t.disk ∧
        if ok then ∃ ip, Removes dp name ip s.disk else Freed s.disk t.disk := by
  -- where nothing is removed
  have hkeep : ∀ {s t u : State}, Quiet s t → Clean sb u ∧ Freed t.disk u.disk ∧
        (∀ j, j ≠ dp → u.icache j = t.icache j) → Clean sb u ∧ UnlinkEffect dp name s.disk u.disk ∧
        if false = true then ∃ ip, Removes dp name ip s.disk else Freed s.disk u.disk :=
    fun hq ⟨hc, hf, _⟩ => ⟨hc, .idle (hq.freed.trans hf), hq.freed.trans hf⟩
  refine .bind spec_ilock fun s _ => .ite (fun _ => ?_) fun hdots => ?_
  · refine .bind (spec_iunlockput.pre fun t ht => ht.2.1) fun t _ => .pure ?_
    rintro u ⟨⟨_, _, hq, _⟩, hu⟩
    exact hkeep hq hu
  · refine .bind ((spec_dirlookup name).pre fun t ht => ⟨ht.2.1, ht.2.2.2.1⟩) fun t r => ?_
    cases r with
    | none =>
      refine .bind (spec_iunlockput.pre fun u hu => hu.2.1) fun u _ => .pure ?_
      rintro v ⟨⟨⟨_, _, hq, _⟩, _, hq', _⟩, hv⟩
      exact hkeep (hq.trans hq') hv
    | some e =>
      obtain ⟨ip, off⟩ := e
      refine .bind (spec_ilock.pre fun u hu => hu.2.1) fun u _ => ?_
      -- the directory is locked, so the inode is another one
      rcases eq_or_ne ip dp with heq | hne
      · refine .knowing (fun _ => False) ?_ (.intro (.of_discard (unlinkEntry_eq .. ▸
          basic_unlinkEntry (stubborn sb) sb dp ip off)) fun _ _ h => h.elim)
        · rintro v ⟨⟨⟨_, _, _, hh, _⟩, _, _, hheld, _⟩, _, _, _, hbusy, _⟩
          rw [heq, (hheld dp hh).busy] at hbusy
          cases hbusy
      · refine (spec_unlinkEntryRet hne).conseq ?_ ?_
        · rintro v ⟨⟨⟨_, _, _, hh, _⟩, _, _, hheld, _⟩, hc, _, hip, _, hic⟩
          exact ⟨hc, (hheld dp hh).of_eq (hic dp hne.symm), hip⟩
        · rintro v ok w ⟨⟨⟨_, _, hq, _⟩, _, hq', _, hdir, de, hfind, hnum⟩, hcv, hq'', hip, _⟩ ⟨hc, h⟩
          have hdisk : v.disk = s.disk := by rw [hq''.disk, hq'.disk, hq.disk]
          have hdino : v.dino = s.dino := congrArg Disk.dino hdisk
          have hblk : v.blk = s.blk := congrArg Disk.blk hdisk
          have hal := (hcv.coherent ip hip.valid).2
          rw [hq.dino] at hdir hfind
          rw [hq.blk] at hfind
          rw [hdino] at hal
          rw [hdisk, hdino, hblk] at h
          simp only [Bool.not_eq_true, Bool.or_eq_false_iff] at hdots
          cases ok with
          | false => exact ⟨hc, .idle h, h⟩
          | true =>
            obtain ⟨d', e', hempty, hst, hf, hf'⟩ := h
            exact ⟨hc, .done ip off de d' e' hdir hdots hfind hnum hne hal hempty hst hf hf', ip, hdir,
              hdots, ⟨off, de, hfind, hnum⟩, hempty⟩

/-- Without it. -/
theorem spec_unlinkBody (name : List Byte) :
    Spec sb p (Clean sb) (unlinkBody sb dp name) fun s _ t =>
      Clean sb t ∧ UnlinkEffect dp name s.disk t.disk := by
  rw [unlinkBody_eq]
  exact .bind (spec_unlinkBodyRet name) fun s _ => .pure fun t ht => ⟨ht.2.1, ht.2.2.1⟩

/-! ## 4. `create` -/

theorem Disk.edit_edit (d : Disk) (i : Inum) (f g : Dinode → Dinode) :
    (d.edit i f).edit i g = d.edit i fun x => g (f x) := by
  simp only [Disk.edit, Function.update_self, Function.update_idem]

theorem Allocated.disk {type : FileType} (h : Allocated i type s t) :
    t.disk = s.disk.edit i fun _ => { Dinode.zero with type := type } := Disk.ext h.dino h.blk

/-- `dirlink`, where it has to succeed. -/
theorem spec_enter {name : List Byte} {inum : Inum} {err : Panic} (herr : err ≠ .freeingFreeBlock) :
    Spec sb p (fun s => Clean sb s ∧ Held i s) (do
      let ok ← dirlink sb i name inum
      Code.panicIf (ok = false) err) fun s _ t =>
        Clean sb t ∧ Entered i name inum s.disk t.disk ∧ ∀ j, Held j s → Held j t := by
  refine .bind (spec_dirlink name inum) fun s ok => .panicIf herr fun t ht hok => ?_
  obtain ⟨_, hc, hdir, h⟩ := ht
  rw [if_pos (by simpa using hok)] at h
  exact ⟨hc, ⟨hdir, h.1, h.2.stored hc⟩, fun _ hj => h.2.held hj⟩

/-- The same, followed by `rest`. -/
theorem spec_enterThen {α : Type} {name : List Byte} {inum : Inum} {err : Panic}
    {Pre : State → Prop} {rest : K α} {Post : State → α → State → Prop}
    (herr : err ≠ .freeingFreeBlock) (hpre : ∀ s, Pre s → Clean sb s ∧ Held i s)
    (h : ∀ s, Spec sb p (fun t => Pre s ∧ Clean sb t ∧ Entered i name inum s.disk t.disk ∧
      ∀ j, Held j s → Held j t) rest fun _ a u => Post s a u) :
    Spec sb p Pre (do
      let ok ← dirlink sb i name inum
      Code.panicIf (ok = false) err
      rest) Post := by
  intro s hs
  have hboth := SpecOf.bind ((spec_enter herr).pre hpre) (fun s _ => h s) s hs
  simpa only [Code.wp_bind] using hboth

/-- The entries `.` and `..` of a new directory. -/
theorem spec_createDots {c : Prop} [Decidable c] :
    Spec sb p (fun s => Clean sb s ∧ Held dp s ∧ Held ip s) (Code.when c (do
        setCopy dp fun d => { d with nlink := d.nlink + 1 }
        iupdate dp
        let ok ← dirlink sb ip dot ip
        Code.panicIf (ok = false) .createDots
        let ok ← dirlink sb ip dotdot dp
        Code.panicIf (ok = false) .createDots)) fun s _ t =>
      Clean sb t ∧ Held dp t ∧ if c then ∃ d₁, Entered ip dot ip (s.disk.edit dp addLink) d₁ ∧
        Entered ip dotdot dp d₁ t.disk else t.disk = s.disk := by
  refine .when (fun hc => ?_) fun hc s hs => ⟨hs.1, hs.2.1, by rw [if_neg hc]⟩
  refine spec_update (f := addLink) (fun _ => ⟨rfl, rfl, rfl⟩) (fun s hs => ⟨hs.1, hs.2.1⟩)
    fun s => ?_
  refine spec_enterThen (by decide) (fun t ht => ⟨ht.2.1, ht.2.2.held ht.1.2.2⟩) fun t => ?_
  refine (spec_enter (by decide)).conseq ?_ ?_
  · rintro u ⟨⟨hs, _, hup⟩, hc', _, hheld⟩
    exact ⟨hc', hheld ip (hup.held hs.2.2)⟩
  · rintro u _ v ⟨⟨hs, _, hup⟩, _, hen, hheld⟩ ⟨hc', hen', hheld'⟩
    rw [hup.disk] at hen
    refine ⟨hc', hheld' dp (hheld dp (hup.held hs.2.1)), ?_⟩
    rw [if_pos hc]
    exact ⟨u.disk, hen, hen'⟩

/-- `create` when there is no entry of the name. -/
theorem spec_createNew (name : List Byte) {type : FileType} (htype : type ≠ .free)
    (major minor : BitVec 16) :
    Spec sb p (fun s => Clean sb s ∧ Held dp s) (createNew sb dp name type major minor)
      fun s _ t => Clean sb t ∧ Created sb dp name s.disk t.disk := by
  refine .bind ((spec_ialloc type).pre fun s hs => hs.1) fun s ip => ?_
  refine .bind (spec_ilock.pre fun t ht => ht.2.1) fun t _ => ?_
  refine spec_update (f := fun d => { d with major := major, minor := minor, nlink := 1 })
    (fun _ => ⟨rfl, rfl, rfl⟩) (fun u hu => ⟨hu.2.1, hu.2.2.2.1⟩) fun u => ?_
  -- the new inode is in place
  refine .knowing (fun v => (Clean sb v ∧ Held dp v ∧ Held ip v) ∧ (s.disk.dino ip).type = .free ∧
    (1 ≤ ip ∧ ip < sb.ninodes) ∧ v.disk = s.disk.edit ip fun _ => newInode type major minor) ?_ ?_
  · rintro v ⟨⟨⟨⟨_, hdp⟩, _, hal, hrange⟩, _, hq, hip, _, hic⟩, hc, hup⟩
    obtain ⟨hdp', hne⟩ := hal.held dp hdp
    refine ⟨⟨hc, hup.held (hdp'.of_eq (hic dp hne)), hup.held hip⟩, hal.free, hrange, ?_⟩
    rw [hup.disk, hq.disk, hal.disk, Disk.edit_edit]
    rfl
  refine .bind (spec_createDots.pre fun v hv => hv.1) fun v _ => ?_
  refine spec_enterThen (by decide) (fun w hw => ⟨hw.2.1, hw.2.2.1⟩) fun w => ?_
  refine .bind (spec_iunlockput.pre fun x hx => hx.2.1) fun x _ => .pure ?_
  rintro y ⟨⟨⟨⟨_, hfree, hrange, hnew⟩, _, _, hdots⟩, _, hen, _⟩, hc, hf, _⟩
  by_cases hdir : type = .dir
  · subst hdir
    rw [if_pos rfl, hnew] at hdots
    obtain ⟨d₁, hself, hparent⟩ := hdots
    exact ⟨hc, .dir ip major minor d₁ w.disk x.disk hfree hrange hself hparent hen hf⟩
  · rw [if_neg hdir, hnew] at hdots
    rw [hdots] at hen
    exact ⟨hc, .file ip type major minor x.disk ⟨hdir, htype⟩ hfree hrange hen hf⟩

/-- **`create`.** -/
theorem spec_create (hL : Walk L) (path : List Byte) {type : FileType} (htype : type ≠ .free)
    (major minor : BitVec 16) :
    Spec sb p (Clean sb) (create sb path type major minor) fun s _ t =>
      Clean sb t ∧ CreateEffect sb L (lookupStart p path s) s.disk t.disk := by
  refine .bind (spec_namex hL path true) fun s r => ?_
  cases r with
  | none => exact .pure fun t ht => ⟨ht.2.1, .idle ht.2.2.1⟩
  | some e =>
    obtain ⟨dp, name⟩ := e
    refine .bind (spec_ilock.pre fun t ht => ht.2.1) fun t _ => ?_
    refine .bind ((spec_dirlookup name).pre fun u hu => ⟨hu.2.1, hu.2.2.2.1⟩) fun u r => ?_
    refine .knowing (fun v => Clean sb v ∧ Held dp v ∧ Freed s.disk v.disk ∧
      (L s.disk (lookupStart p path s) → L v.disk dp)) ?_ ?_
    · rintro v ⟨⟨⟨_, _, hf, hr⟩, _, hq, hh, _⟩, hc, hq', hheld, _⟩
      have hdisk : v.disk = t.disk := by rw [hq'.disk, hq.disk]
      rw [hdisk]
      exact ⟨hc, hheld dp hh, hf, hr _ rfl⟩
    cases r with
    | some e =>
      -- the name is there
      obtain ⟨ip, off⟩ := e
      refine .bind (spec_iunlockput.pre fun v hv => hv.1) fun v _ => ?_
      refine .bind (spec_ilock.pre fun w hw => hw.2.1) fun w _ => ?_
      refine .bind (R := fun x _ x' => x' = x) (.gets fun _ _ => rfl) fun x d => ?_
      refine .knowing (fun y => Clean sb y ∧ Freed s.disk y.disk) ?_ (.ite (fun _ => ?_) fun _ => ?_)
      · rintro y ⟨⟨⟨hv, _, hf, _⟩, hc, hq, _⟩, rfl⟩
        exact ⟨hc, (hv.2.2.1.trans hf).trans hq.freed⟩
      · exact .pure fun y hy => ⟨hy.1, .idle hy.2⟩
      · refine .bind (spec_iunlockput.pre fun y hy => hy.1) fun y _ => .pure ?_
        exact fun z hz => ⟨hz.2.1, .idle (hz.1.2.trans hz.2.2.1)⟩
    | none =>
      refine .bind ((spec_createNew name htype major minor).pre fun v hv => ⟨hv.1, hv.2.1⟩)
        fun v ip => .pure ?_
      rintro w ⟨⟨_, _, hf, hr⟩, hc, hcr⟩
      exact ⟨hc, .done v.disk dp name hf hr hcr⟩

/-! ## 5. `filewrite` -/

/-- The bytes `src` have been written to the file `i` from offset `off` on. -/
structure WroteBytes (i : Inum) (off : Nat) (src : List Byte) (d e : Disk) : Prop where
  inode : ∃ a, e.dino = Function.update d.dino i
    { d.dino i with size := max (d.dino i).size (off + src.length), addrs := a }
  others : ∀ j, j ≠ i → (d.dino j).type ≠ .free → Retains d.blk (d.dino j) e.blk (d.dino j)
  bytes : ∀ k, k < (e.dino i).size → byteAt e.blk (e.dino i) k =
    if off ≤ k ∧ k < off + src.length then src.getD (k - off) 0 else byteAt d.blk (d.dino i) k

theorem WroteFile.disk {off : Nat} {src : List Byte} (h : WroteFile i off src s t) :
    WroteBytes i off src s.disk t.disk := ⟨h.inode, h.others, h.bytes⟩

/-- One round of `filewrite` has written `src`, or nothing, and then there is a reason. -/
def RoundOnDisk (f : FileId) (i : Inum) (src : List Byte) (s : State) (r : Option Nat) (t : State) :
    Prop :=
  r = none ∧ t.disk = s.disk ∧ ((s.dino i).type = .dev ∨ (s.dino i).size < (s.file f).off ∨
      140 * 512 < (s.file f).off + src.length) ∨
    r = some src.length ∧ (s.file f).off ≤ (s.dino i).size ∧
      WroteBytes i (s.file f).off src s.disk t.disk

theorem spec_fwriteInode_disk (f : FileId) (src : List Byte) :
    Spec sb p (Clean sb) (fwriteInode sb f ip src) fun s r t =>
      Clean sb t ∧ RoundOnDisk f ip src s r t := by
  refine .bind (spec_ilock.also ((stubborn sb).silent (silent_ilock ip)) (R := fun s _ t =>
    t.file = s.file) fun s _ => ?_) fun s _ => ?_
  · refine wp_ilock.mpr ⟨fun _ => trivial, fun _ _ => ?_⟩
    split
    · trivial
    · rfl
  refine .bind (R := fun t x t' => t' = t ∧ x = t.file f) (.gets fun _ _ => ⟨rfl, rfl⟩) fun t x => ?_
  refine .bind (((spec_writei (fun _ h => h) src x.off).pre ?_).also
    (basic_writei (stubborn sb) sb ip src x.off) fun u _ => wp_writei_none) fun u r => ?_
  · rintro u ⟨⟨_, ⟨hc, _, hh, _⟩, _⟩, rfl, _⟩
    exact ⟨hc, hh.valid⟩
  refine .bind (R := fun v _ w => Clean sb w ∧ w.disk = v.disk)
    (.modify (fun _ => rfl) fun v hv => ?_) fun v _ => ?_
  · exact ⟨⟨hv.2.1.1.agrees, hv.2.1.1.full, hv.2.1.1.coherent⟩, rfl⟩
  refine .bind (spec_iunlock.pre fun w hw => hw.2.1) fun w _ => .pure fun w' hw' => ?_
  obtain ⟨⟨⟨⟨⟨_, ⟨hlocked, hq, hh, _⟩, hfile⟩, rfl, rfl⟩, ⟨_, hwrote⟩, hnone⟩, _, hdisk⟩, hclean, hq', _⟩ :=
    hw'
  refine ⟨hclean, ?_⟩
  rw [hfile] at hwrote hnone
  rw [(hlocked.coherent ip hh.valid).1, hq.dino] at hnone
  rw [RoundOnDisk, hq'.disk, hdisk]
  rcases hwrote with ⟨rfl, rfl⟩ | ⟨rfl, hle, hw⟩
  · exact .inl ⟨rfl, hq.disk, hnone rfl⟩
  · refine .inr ⟨rfl, hq.dino ▸ hle, ?_⟩
    have hbytes := hw.disk
    rwa [hq.disk] at hbytes

/-- What one round of `filewrite` does. -/
structure Round (f : FileId) (i : Inum) (src : List Byte) (s : State) (r : Option Nat) (t : State) :
    Prop where
  file : t.file = (s.setFile f { s.file f with off := (s.file f).off + r.getD 0 }).file
  disk : RoundOnDisk f i src s r t

/-- **One round of `filewrite`.** -/
theorem spec_fwriteInode (f : FileId) (src : List Byte) :
    Spec sb p (Clean sb) (fwriteInode sb f ip src) fun s r t => Clean sb t ∧ Round f ip src s r t :=
  ((spec_fwriteInode_disk f src).also (basic_fwriteInode (stubborn sb) sb f ip src)
    fun _ _ => wp_fwriteInode_file).conseq (fun _ h => h) fun _ _ _ _ h => ⟨h.1.1, h.2, h.1.2⟩

end Xv6.Fs
