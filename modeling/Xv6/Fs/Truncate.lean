/-
# Freeing an inode keeps the bitmap in agreement (`itrunc`, `iput`)

`itrunc` clears the bits of an inode's blocks one by one: the direct ones, each with its slot, then
those named in the indirect block, all before the slot of the indirect block itself is cleared.
In that second loop the bitmap agrees with the places that are not yet behind the loop (`mask`).
The blocks' contents are not touched.
-/
import Xv6.Fs.Write

namespace Xv6.Fs

open Xv6.Bytes Xv6.Threads Xv6.Allocation

variable {i j : Inum} {b : Nat} {sb : Super} {s t u : State} {p : Pid} {d : Dinode}

/-! ## 1. Direct slots -/

/-- Slots of inode `i` have been cleared, in the cache. -/
structure Cleared (i : Inum) (s t : State) : Prop where
  dino : t.dino = s.dino
  blk : t.blk = s.blk
  entry : ∃ a, t.icache = Function.update s.icache i
    { s.icache i with din := { (s.icache i).din with addrs := a } }

theorem Cleared.refl (i : Inum) (s : State) : Cleared i s s :=
  ⟨rfl, rfl, _, (Function.update_eq_self i s.icache).symm⟩

theorem Cleared.trans (h : Cleared i s t) (h' : Cleared i t u) : Cleared i s u := by
  obtain ⟨a, ha⟩ := h.entry
  obtain ⟨a', ha'⟩ := h'.entry
  refine ⟨h'.dino.trans h.dino, h'.blk.trans h.blk, a', ?_⟩
  rw [ha', ha, Function.update_idem, Function.update_self]

theorem Cleared.ahead (h : Cleared i s t) (hs : Ahead i s) : Ahead i t := by
  obtain ⟨a, ha⟩ := h.entry
  refine ⟨fun j hj ht => ?_, fun j hj hv => ?_, ?_, ?_⟩
  · rw [h.dino] at ht ⊢
    rw [h.blk]
    exact hs.full j hj ht
  · rw [ha, Function.update_of_ne hj] at hv ⊢
    rw [h.dino]
    exact hs.coherent j hj hv
  · rw [ha, Function.update_self]
    exact hs.valid
  · rw [ha, Function.update_self]
    exact hs.allocated

/-- The state after the block in slot `n` has been freed and the slot cleared. -/
def State.unslot (p : Pid) (i : Inum) (n : Fin 13) (s : State) : State :=
  (s.freed p ((s.icache i).din.addrs n)).setCopy i
    { (s.icache i).din with addrs := Function.update (s.icache i).din.addrs n 0 }

theorem cleared_unslot (p : Pid) (i : Inum) (n : Fin 13) (s : State) :
    Cleared i s (s.unslot p i n) := ⟨rfl, rfl, _, rfl⟩

theorem addrs_unslot (p : Pid) (i : Inum) (n : Fin 13) (s : State) :
    ((s.unslot p i n).icache i).din.addrs = Function.update (s.icache i).din.addrs n 0 := by
  simp only [State.unslot, State.setCopy, State.setInode, Function.update_self]

theorem table_unslot (p : Pid) (i : Inum) (n : Fin 13) (s : State) :
    (s.unslot p i n).table i = Function.update (s.table i) i
      { s.table i i with addrs := Function.update (s.table i i).addrs n 0 } := by
  rw [table_self]
  simp only [State.unslot, State.table, State.setCopy, State.setInode, State.freed, State.setBit,
    State.logged, Function.update_self, Function.update_idem]

theorem wp_itruncSlot {n : Fin 13} {Q : Unit → State → Prop}
    (hbit : (s.icache i).din.addrs n ≠ 0 → s.bit ((s.icache i).din.addrs n) = true)
    (hno : (s.icache i).din.addrs n = 0 → Q () s)
    (hyes : (s.icache i).din.addrs n ≠ 0 → Q () (s.unslot p i n)) :
    (itruncSlot i n).wp (NotFreed sb) Q p s := by
  simp only [itruncSlot, Code.wp_bind, wp_copy, Code.wp_when]
  refine ⟨fun h => wp_bfree (hbit h) (wp_setCopy.mpr (hyes h)), fun h => hno (not_not.mp h)⟩

/-- **A direct slot is cleared.** -/
theorem spec_itruncSlot {n : Fin 13} (hn : n ≠ 12) :
    Spec sb p (Dirty sb i) (itruncSlot i n) fun s _ t =>
      Dirty sb i t ∧ Cleared i s t ∧
        (t.icache i).din.addrs = Function.update (s.icache i).din.addrs n 0 := by
  refine .intro (basic_itruncSlot (stubborn sb) i n) fun s _ hd => ?_
  have hal : (s.table i i).type ≠ .free := by
    rw [table_self]
    exact hd.allocated
  have href : (s.icache i).din.addrs n ≠ 0 →
      refs (s.table i) s.blk (i, .slot n) = some ((s.icache i).din.addrs n) := fun h =>
    refs_eq_some hal (by rw [table_self]; rfl) h
  refine wp_itruncSlot (fun h => hd.agrees.set _ _ (href h)) (fun h _ => ?_) fun h _ => ?_
  · refine ⟨hd, .refl i s, ?_⟩
    rw [← h, Function.update_eq_self]
  · have hc := cleared_unslot p i n s
    refine ⟨⟨hc.ahead hd.toAhead, ?_⟩, hc, addrs_unslot p i n s⟩
    rw [table_unslot, hc.blk, refs_unslot hn]
    exact hd.agrees.remove (href h)

/-- **The first loop of `itrunc`.** -/
theorem spec_itruncDirect : ∀ ns : List (Fin 13), (12 ∉ ns) →
    Spec sb p (Dirty sb i) (itruncDirect i ns).whole fun s _ t =>
      Dirty sb i t ∧ Cleared i s t ∧
        ∀ n, (t.icache i).din.addrs n = if n ∈ ns then 0 else (s.icache i).din.addrs n
  | [], _ => fun s hs hl => ⟨hl, hs hl, .refl i s, fun n => by simp⟩
  | n :: ns, h12 => by
    intro s hs
    rw [List.mem_cons, not_or] at h12
    refine (Prog.wp_whole_bind _ _).mpr ((Prog.wp_whole_atomic _ _).mpr ?_)
    refine Code.wp_imp (spec_itruncSlot (Ne.symm h12.1) s hs) fun _ t ht => ?_
    refine Code.wp_imp (spec_itruncDirect ns h12.2 t fun hl => (ht hl).2.1) fun _ u hu hl => ?_
    obtain ⟨hlt, hdu, hcu, hau⟩ := hu hl
    obtain ⟨hls, _, hct, hat⟩ := ht hlt
    refine ⟨hls, hdu, hct.trans hcu, fun m => ?_⟩
    rw [hau m, hat]
    by_cases hm : m ∈ ns
    · simp [hm]
    · rcases eq_or_ne m n with rfl | hmn
      · simp [hm]
      · simp [hm, hmn]

/-! ## 2. The indirect block -/

/-- The invariant in the second loop of `itrunc`: the first `k` entries of the indirect block
have been freed. -/
structure Masked (sb : Super) (i : Inum) (k : Nat) (s : State) : Prop extends Ahead i s where
  agrees : Agrees sb.Data (mask i k (refs (s.table i) s.blk)) s.bit

theorem Dirty.masked (h : Dirty sb i s) : Masked sb i 0 s :=
  ⟨h.toAhead, by rw [mask_zero]; exact h.agrees⟩

/-- What the second loop leaves alone. -/
def Unmoved (s t : State) : Prop := t.dino = s.dino ∧ t.blk = s.blk ∧ t.icache = s.icache

theorem Unmoved.trans (h : Unmoved s t) (h' : Unmoved t u) : Unmoved s u :=
  ⟨h'.1.trans h.1, h'.2.1.trans h.2.1, h'.2.2.trans h.2.2⟩

/-- `i` has an indirect block, and its contents are `a`. -/
def Indirect (i : Inum) (a : Block) (s : State) : Prop :=
  (s.icache i).din.addrs 12 ≠ 0 ∧ s.blk ((s.icache i).din.addrs 12) = a

theorem Indirect.of_unmoved {a : Block} (h : Indirect i a s) (hu : Unmoved s t) :
    Indirect i a t := by
  unfold Indirect
  rw [hu.2.1, hu.2.2]
  exact h

/-- What the next entry names is not masked. -/
theorem Masked.entry {a : Block} {k : Fin 128} (h : Masked sb i k s) (ha : Indirect i a s) :
    mask i k (refs (s.table i) s.blk) (i, .via k) = nonzero (ptr a k) := by
  have hal : (s.table i i).type ≠ .free := by
    rw [table_self]
    exact h.allocated
  rw [mask_via_self, refs_of_allocated hal, table_self, named, if_neg ha.1, ha.2]

/-- **One entry of the indirect block.** -/
theorem spec_itruncEntry (a : Block) (k : Fin 128) :
    Spec sb p (fun s => Masked sb i k s ∧ Indirect i a s)
      (Code.when (ptr a k ≠ 0) (bfree (ptr a k))) fun s _ t => Masked sb i (k + 1) t ∧ Unmoved s t := by
  refine .intro (.when (basic_bfree (stubborn sb) _)) fun s _ ⟨hm, ha⟩ => ?_
  have hentry := hm.entry ha
  rw [Code.wp_when]
  refine ⟨fun h => ?_, fun h _ => ?_⟩
  · rw [nonzero_of_ne h] at hentry
    refine wp_bfree (hm.agrees.set _ _ hentry) fun _ => ⟨⟨?_, ?_⟩, rfl, rfl, rfl⟩
    · exact ⟨hm.full, hm.coherent, hm.valid, hm.allocated⟩
    · rw [mask_succ]
      exact hm.agrees.remove hentry
  · rw [not_not.mp h, nonzero_zero] at hentry
    refine ⟨⟨hm.toAhead, ?_⟩, rfl, rfl, rfl⟩
    rw [mask_succ, ← hentry, Function.update_eq_self]
    exact hm.agrees

/-- **The second loop of `itrunc`.** -/
theorem spec_itruncIndirect (a : Block) : ∀ m k : Nat, k + m = 128 →
    Spec sb p (fun s => Masked sb i k s ∧ Indirect i a s)
      (itruncIndirect a (List.range' k m)).whole fun s _ t => Masked sb i 128 t ∧ Unmoved s t
  | 0, k, hk => by
    intro s hs hl
    have : k = 128 := by omega
    subst this
    exact ⟨hl, (hs hl).1, rfl, rfl, rfl⟩
  | m + 1, k, hk => by
    intro s hs
    refine (Prog.wp_whole_bind _ _).mpr ((Prog.wp_whole_atomic _ _).mpr ?_)
    refine Code.wp_imp (spec_itruncEntry a ⟨k, by omega⟩ s hs) fun _ t ht => ?_
    refine Code.wp_imp (spec_itruncIndirect a m (k + 1) (by omega) t fun hl => ?_)
      fun _ u hu hl => ?_
    · obtain ⟨hls, hm, hun⟩ := ht hl
      exact ⟨hm, (hs hls).2.of_unmoved hun⟩
    · obtain ⟨hlt, hm, hun⟩ := hu hl
      obtain ⟨hls, _, hun'⟩ := ht hlt
      exact ⟨hls, hm, hun'.trans hun⟩

/-- **The slot of the indirect block is cleared last.** -/
theorem spec_itruncLast :
    Spec sb p (fun s => Masked sb i 128 s ∧ (s.icache i).din.addrs 12 ≠ 0) (itruncSlot i 12)
      fun s _ t => Dirty sb i t ∧ Cleared i s t ∧
        (t.icache i).din.addrs = Function.update (s.icache i).din.addrs 12 0 := by
  refine .intro (basic_itruncSlot (stubborn sb) i 12) fun s _ ⟨hm, h12⟩ => ?_
  have hal : (s.table i i).type ≠ .free := by
    rw [table_self]
    exact hm.allocated
  have href : mask i 128 (refs (s.table i) s.blk) (i, .slot 12) =
      some ((s.icache i).din.addrs 12) := by
    rw [mask, if_neg (by simp [Place.viaBelow])]
    exact refs_eq_some hal (by rw [table_self]; rfl) h12
  refine wp_itruncSlot (fun _ => hm.agrees.set _ _ href) (fun h => absurd h h12) fun _ _ => ?_
  have hc := cleared_unslot p i 12 s
  refine ⟨⟨hc.ahead hm.toAhead, ?_⟩, hc, addrs_unslot p i 12 s⟩
  rw [table_unslot, hc.blk, refs_unslot_indirect]
  exact hm.agrees.remove href

/-! ## 3. `itrunc` -/

theorem mem_directSlots (n : Fin 13) : n ∈ directSlots ↔ n ≠ 12 := by
  revert n
  decide

/-- **The indirect block is freed**, if there is one. -/
theorem spec_itruncBlock :
    Spec sb p (Dirty sb i) (itruncBlock i).whole fun s _ t =>
      Dirty sb i t ∧ Cleared i s t ∧
        (t.icache i).din.addrs = Function.update (s.icache i).din.addrs 12 0 := by
  intro s hs
  refine (Prog.wp_whole_bind _ _).mpr ((Prog.wp_whole_atomic _ _).mpr ?_)
  rw [Code.wp_gets]
  by_cases h12 : (s.icache i).din.addrs 12 = 0
  · rw [Prog.when, if_neg (not_not.mpr h12)]
    refine fun hl => ⟨hl, hs hl, .refl i s, ?_⟩
    rw [← h12, Function.update_eq_self]
  · rw [Prog.when, if_pos h12]
    refine (Prog.wp_whole_bind _ _).mpr ((Prog.wp_whole_atomic _ _).mpr ?_)
    rw [Code.wp_gets, List.range_eq_range']
    refine (Prog.wp_whole_bind _ _).mpr (Code.wp_imp (spec_itruncIndirect _ 128 0 rfl s
      fun hl => ⟨(hs hl).masked, h12, rfl⟩) fun _ t ht => (Prog.wp_whole_atomic _ _).mpr ?_)
    refine Code.wp_imp (spec_itruncLast t fun hl => ?_) fun _ u hu hl => ?_
    · obtain ⟨_, hm, hun⟩ := ht hl
      exact ⟨hm, by rw [hun.2.2]; exact h12⟩
    · obtain ⟨hlt, hd, hc, ha⟩ := hu hl
      obtain ⟨hls, _, hun⟩ := ht hlt
      rw [hun.2.2] at ha
      refine ⟨hls, hd, ⟨hc.dino.trans hun.1, hc.blk.trans hun.2.1, ?_⟩, ha⟩
      obtain ⟨a, hent⟩ := hc.entry
      exact ⟨a, by rw [hent, hun.2.2]⟩

/-- An inode without blocks. -/
def Dinode.empty (d : Dinode) : Dinode := { d with size := 0, addrs := fun _ => 0 }

/-- **`itrunc`** leaves an inode without blocks, and keeps the invariant. -/
theorem spec_itrunc :
    Spec sb p (fun s => Clean sb s ∧ (s.icache i).valid = true) (itrunc i).whole fun s _ t =>
      Clean sb t ∧ t.blk = s.blk ∧
        t.dino = Function.update s.dino i (s.dino i).empty ∧
        t.icache = Function.update s.icache i { s.icache i with din := (s.dino i).empty } := by
  intro s hs
  refine (Prog.wp_whole_bind _ _).mpr (Code.wp_imp (spec_itruncDirect directSlots (by decide) s
    fun hl => (hs hl).1.dirty (hs hl).2) fun _ t ht => ?_)
  refine (Prog.wp_whole_bind _ _).mpr (Code.wp_imp (spec_itruncBlock t fun hl => (ht hl).2.1)
    fun _ u hu => (Prog.wp_whole_atomic _ _).mpr (wp_setCopy_iupdate fun hl => ?_))
  obtain ⟨hlt, hdu, hcu, hau⟩ := hu hl
  obtain ⟨hls, _, hct, hat⟩ := ht hlt
  obtain ⟨hs, hv⟩ := hs hls
  have hco := (hs.coherent i hv).1
  -- all the slots are empty now
  have hzero : (u.icache i).din.addrs = fun _ => 0 := by
    funext n
    rw [hau]
    rcases eq_or_ne n 12 with rfl | hn
    · exact Function.update_self ..
    · rw [Function.update_of_ne hn, hat n, if_pos ((mem_directSlots n).mpr hn)]
  obtain ⟨a, ha⟩ := (hct.trans hcu).entry
  have hdin : (u.icache i).din = { s.dino i with addrs := fun _ => 0 } := by
    rw [← hzero, ha, Function.update_self, hco]
  have hcl := hct.trans hcu
  have hempty : { (u.icache i).din with size := 0 } = (s.dino i).empty := by rw [hdin]; rfl
  have hclean := (hdu.setCopy (d := { (u.icache i).din with size := 0 }) rfl rfl).iupdate (p := p) (by
    simp only [State.setCopy, State.setInode, Function.update_self]
    exact ⟨Nat.zero_le _, fun bn _ h => absurd h (Nat.not_lt_zero _)⟩)
  refine ⟨hls, ?_, hcl.blk, ?_, ?_⟩
  · simp only [State.setCopy, State.setInode, Function.update_self] at hclean
    exact hclean
  · show Function.update u.dino i _ = _
    rw [hempty, hcl.dino]
  · show Function.update u.icache i _ = _
    rw [hempty, ha, Function.update_idem, Function.update_self]

/-! ## 4. `iput` -/

/-- The state with one reference to `i` less. -/
def State.drop (i : Inum) (s : State) : State :=
  { s.setInode i { s.icache i with ref := (s.icache i).ref - 1 } with
    inUse := if (s.icache i).ref = 1 then s.inUse - 1 else s.inUse }

/-- A change of book-keeping in the inode cache that loses no valid copy. -/
theorem Clean.of_icache (h : Clean sb s) (hdino : t.dino = s.dino) (hblk : t.blk = s.blk)
    (hbit : t.bit = s.bit)
    (hic : ∀ j, (t.icache j).valid = true →
      (s.icache j).valid = true ∧ (t.icache j).din = (s.icache j).din) : Clean sb t := by
  refine ⟨?_, ?_, fun j hj => ?_⟩
  · rw [hdino, hblk, hbit]
    exact h.agrees
  · rw [hdino, hblk]
    exact h.full
  · obtain ⟨hv, hd⟩ := hic j hj
    rw [hd, hdino]
    exact h.coherent j hv

theorem Clean.drop (h : Clean sb s) : Clean sb (s.drop i) := by
  refine h.of_icache rfl rfl rfl fun j hj => ?_
  rcases eq_or_ne j i with rfl | hne
  · simp only [State.drop, State.setInode, Function.update_self] at hj ⊢
    exact ⟨hj, trivial⟩
  · simp only [State.drop, State.setInode, Function.update_of_ne hne] at hj ⊢
    exact ⟨hj, trivial⟩

/-- What `iput` does: it drops a reference, and if that was the last one to an inode without
links, the inode is freed. -/
structure Put (i : Inum) (s t : State) : Prop where
  blk : t.blk = s.blk
  icache : ∀ j, j ≠ i → t.icache j = s.icache j
  inode : (t.dino = s.dino ∧ t.icache i = { s.icache i with ref := (s.icache i).ref - 1 }) ∨
    (s.LastPut i ∧ t.dino = Function.update s.dino i { (s.dino i).empty with type := .free })

/-- The inode is freed: it has no blocks left, and its copy in the cache is given up. -/
theorem Clean.free (h : Clean sb s) (hd : s.dino i = (s.dino i).empty)
    (hdino : t.dino = Function.update s.dino i { (s.dino i).empty with type := .free })
    (hblk : t.blk = s.blk) (hbit : t.bit = s.bit) (hv : (t.icache i).valid = false)
    (hic : ∀ j, j ≠ i → t.icache j = s.icache j) : Clean sb t where
  agrees := by
    rw [hdino, hblk, hbit, refs_update_empty (Or.inr fun n => by rw [hd]; rfl) (Or.inl rfl)]
    exact h.agrees
  full j hj := by
    have hne : j ≠ i := by
      rintro rfl
      rw [hdino, Function.update_self] at hj
      exact hj rfl
    rw [hdino, Function.update_of_ne hne] at hj ⊢
    rw [hblk]
    exact h.full j hj
  coherent j hj := by
    have hne : j ≠ i := by
      rintro rfl
      rw [hv] at hj
      cases hj
    rw [hic j hne] at hj ⊢
    rw [hdino, Function.update_of_ne hne]
    exact h.coherent j hj

/-- The part of `iput` that frees the inode. -/
theorem wp_iputFree (hs : Clean sb s) (hlast : s.LastPut i) (Q : Unit → State → Prop)
    (hQ : ∀ t, (Lawful sb t → Lawful sb s → Clean sb (t.drop i) ∧ Put i s (t.drop i)) → Q () t) :
    (do
      itrunc i
      Prog.atomic .other (do
        setCopy i fun d => { d with type := .free }
        iupdate i)
      Prog.atomic .other (Code.modify fun s =>
        s.setInode i { s.icache i with busy := false, valid := false }) : P Unit).whole.wp
      (NotFreed sb) Q p (s.setInode i { s.icache i with busy := true }) := by
  have hbusy : Clean sb (s.setInode i { s.icache i with busy := true }) := by
    refine hs.of_icache rfl rfl rfl fun j hj => ?_
    rcases eq_or_ne j i with rfl | hne
    · simp only [State.setInode, Function.update_self] at hj ⊢
      exact ⟨hj, trivial⟩
    · simp only [State.setInode, Function.update_of_ne hne] at hj ⊢
      exact ⟨hj, trivial⟩
  have hv : ((s.setInode i { s.icache i with busy := true }).icache i).valid = true := by
    simp only [State.setInode, Function.update_self]
    exact hlast.2.1
  refine (Prog.wp_whole_bind _ _).mpr (Code.wp_imp (spec_itrunc _ fun _ => ⟨hbusy, hv⟩)
    fun _ t ht => (Prog.wp_whole_bind _ _).mpr ((Prog.wp_whole_atomic _ _).mpr
      (wp_setCopy_iupdate ((Prog.wp_whole_atomic _ _).mpr (hQ _ fun hl hls => ?_)))))
  obtain ⟨_, hct, hblk, hdino, hic⟩ := ht hl
  have hic' : ∀ j, j ≠ i → t.icache j = s.icache j := fun j hj => by
    rw [hic]
    simp only [State.setInode, Function.update_of_ne hj]
  have hdi : t.dino i = (s.dino i).empty := by
    rw [hdino]
    exact Function.update_self ..
  have hcopy : (t.icache i).din = (s.dino i).empty := by
    rw [hic]
    simp only [State.setInode, Function.update_self]
  constructor
  · refine hct.free (i := i) ?_ ?_ rfl rfl ?_ fun j hj => ?_
    · rw [hdi]
      rfl
    · simp only [State.drop, State.setInode, State.put, State.setDino, State.setCopy, State.logged,
        hcopy, hdi]
      rfl
    · simp only [State.drop, State.setInode, Function.update_self]
    · simp only [State.drop, State.setInode, State.put, State.setDino, State.setCopy, State.logged,
        Function.update_of_ne hj]
  · refine ⟨hblk, fun j hj => ?_, Or.inr ⟨hlast, ?_⟩⟩
    · simp only [State.drop, State.setInode, State.put, State.setDino, State.setCopy, State.logged,
        Function.update_of_ne hj]
      exact hic' j hj
    · simp only [State.drop, State.setInode, State.put, State.setDino, State.setCopy, State.logged,
        hcopy, hdino, Function.update_idem]

/-- **`iput`** keeps the invariant. -/
theorem spec_iput : Spec sb p (Clean sb) (iput i).whole fun s _ t => Clean sb t ∧ Put i s t := by
  refine .intro (basic_iput (stubborn sb) i) fun s hl hs => ?_
  refine (Prog.wp_whole_bind _ _).mpr ((Prog.wp_whole_atomic _ _).mpr ?_)
  simp only [iputTest, Code.wp_bind, Code.wp_gets, Code.wp_ite, Code.wp_panicIf, Code.wp_modify,
    Code.wp_pure]
  refine ⟨fun hlast => ⟨fun _ => notFreed (by decide) _, fun _ => ?_⟩, fun _ => ?_⟩
  · refine (Prog.wp_whole_bind _ _).mpr ?_
    rw [Prog.when, if_pos trivial]
    refine wp_iputFree hs hlast _ fun t ht => (Prog.wp_whole_atomic _ _).mpr ?_
    exact fun hlt => ht hlt hl
  · refine (Prog.wp_whole_bind _ _).mpr ?_
    rw [Prog.when, if_neg (by simp), Prog.whole_pure, Code.wp_pure]
    refine (Prog.wp_whole_atomic _ _).mpr ?_
    rw [iputDrop, Code.wp_modify]
    refine fun _ => ⟨hs.drop, rfl, fun j hj => ?_, Or.inl ⟨rfl, ?_⟩⟩
    · simp only [State.setInode, Function.update_of_ne hj]
    · simp only [State.setInode, Function.update_self]

end Xv6.Fs
