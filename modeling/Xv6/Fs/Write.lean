/-
# Writing an inode keeps the bitmap in agreement (`bmap`, `writei`)

`bmap` gives an inode a block for an index, with an indirect block in between where needed, and
`writei` fills blocks it gets that way and finally puts the inode on disk.  Both keep the
invariant, and both leave the blocks of every other inode where they are, with their contents.
`Wrote` says what `writei` does to the bytes of the inode it writes.
-/
import Xv6.Fs.Blocks

namespace Xv6.Fs

open Xv6.Bytes Xv6.Threads Xv6.Allocation

variable {T : Inum → Dinode} {blk blk' blk'' : Nat → Block} {i j : Inum} {b : Nat} {sb : Super} {D : Nat → Prop}
  {s t u : State} {p : Pid} {d d' d'' : Dinode}

/-! ## 1. Blocks that stay where they are -/

/-- The blocks an inode names stay where they are, and so do their contents, up to new entries in
its indirect block. -/
def Retains (blk : Nat → Block) (d : Dinode) (blk' : Nat → Block) (d' : Dinode) : Prop :=
  ∀ pl, named blk d pl ≠ 0 → named blk' d' pl = named blk d pl ∧
    (pl ≠ .slot 12 → blk' (named blk d pl) = blk (named blk d pl))

theorem Retains.refl (blk : Nat → Block) (d : Dinode) : Retains blk d blk d :=
  fun _ _ => ⟨rfl, fun _ => rfl⟩

theorem Retains.trans (h : Retains blk d blk' d') (h' : Retains blk' d' blk'' d'') :
    Retains blk d blk'' d'' := by
  intro pl hne
  obtain ⟨h1, h2⟩ := h pl hne
  obtain ⟨h3, h4⟩ := h' pl (h1 ▸ hne)
  exact ⟨h3.trans h1, fun hpl => by rw [← h1, h4 hpl, h1, h2 hpl]⟩

theorem Retains.named_eq (h : Retains blk d blk' d') {pl : Place} (hne : named blk d pl ≠ 0) :
    named blk' d' pl = named blk d pl := (h pl hne).1

theorem Retains.blockAt_eq (h : Retains blk d blk' d') {bn : Nat} (hbn : bn < 140)
    (hne : blockAt blk d bn ≠ 0) : blockAt blk' d' bn = blockAt blk d bn := by
  rw [← named_placeOf hbn] at hne ⊢
  rw [← named_placeOf hbn]
  exact h.named_eq hne

/-- Where blocks stay, bytes stay. -/
theorem Retains.byteAt_eq (h : Retains blk d blk' d') {k : Nat} (hk : k / 512 < 140)
    (hne : blockAt blk d (k / 512) ≠ 0) : byteAt blk' d' k = byteAt blk d k := by
  have hb := h.blockAt_eq hk hne
  rw [← named_placeOf hk] at hne
  have hc := (h _ hne).2 (placeOf_ne_indirect hk)
  rw [named_placeOf hk] at hc
  rw [byteAt, byteAt, hb, hc]

theorem Full.of_retains (h : Full blk d) (hr : Retains blk d blk' d) : Full blk' d :=
  h.of_named fun _ hne => hr.named_eq hne

/-- A change of a block nobody names. -/
theorem retains_of_fresh (ht : (T j).type ≠ .free) (hb : b ≠ 0)
    (hfresh : ∀ x, refs T blk x ≠ some b) (x : Block) :
    Retains blk (T j) (Function.update blk b x) (T j) := by
  intro pl hne
  have hb' : named blk (T j) pl ≠ b := fun h => hfresh (j, pl) (refs_eq_some ht h hb)
  refine ⟨named_congr ?_ pl, fun _ => Function.update_of_ne hb' ..⟩
  exact Function.update_of_ne (indirect_ne_of_fresh hfresh hb ht) ..

/-- An empty slot gets a block. -/
theorem retains_slot {n : Fin 13} (hn : d.addrs n = 0) :
    Retains blk d blk { d with addrs := Function.update d.addrs n b } := by
  intro pl hne
  refine ⟨?_, fun _ => rfl⟩
  cases pl with
  | slot m =>
    have hm : m ≠ n := by
      rintro rfl
      exact hne hn
    simp [named, Function.update_of_ne hm]
  | via k =>
    have h12 : (12 : Fin 13) ≠ n := by
      rintro rfl
      exact hne (by simp [named, hn])
    simp [named, Function.update_of_ne h12]

/-- A change of one block, which is a data block of one inode, as far as other inodes are
concerned. -/
theorem retains_of_once {bit : Nat → Bool} {D : Nat → Prop} (h : Agrees D (refs T blk) bit)
    {pl : Place} (hi : (T i).type ≠ .free) (hj : (T j).type ≠ .free) (hji : j ≠ i)
    (hb : named blk (T i) pl ≠ 0) (x : Block) :
    Retains blk (T j) (Function.update blk (named blk (T i) pl) x) (T j) := by
  have key : ∀ pl', named blk (T j) pl' ≠ named blk (T i) pl := fun pl' he =>
    hji (named_once h pl pl' hi hj hb he.symm).1.symm
  intro pl' _
  refine ⟨named_congr ?_ pl', fun _ => Function.update_of_ne (key pl') ..⟩
  exact Function.update_of_ne (key (.slot 12)) ..

/-- **An entry of an indirect block gets a fresh block**: what any inode names stays, with that
indirect block as the one change. -/
theorem retains_via {bit : Nat → Bool} {D : Nat → Prop} (h : Agrees D (refs T blk) bit)
    (hb : bit b = false) (hb0 : b ≠ 0) (hi : (T i).type ≠ .free) (ha : (T i).addrs 12 ≠ 0)
    {k : Fin 128} (hk : ptr (blk ((T i).addrs 12)) k = 0) (hj : (T j).type ≠ .free) :
    Retains blk (T j) (Function.update (Function.update blk b zeroBlock) ((T i).addrs 12)
      (setPtr (blk ((T i).addrs 12)) k b)) (T j) := by
  have hfresh := h.fresh hb
  refine (retains_of_fresh hj hb0 hfresh zeroBlock).trans fun pl hne => ?_
  have hcong : ∀ pl, named (Function.update blk b zeroBlock) (T j) pl = named blk (T j) pl :=
    named_congr (Function.update_of_ne (indirect_ne_of_fresh hfresh hb0 hj) ..)
  rw [hcong] at hne ⊢
  have hother : pl ≠ .slot 12 → named blk (T j) pl ≠ (T i).addrs 12 := fun hpl he =>
    hpl (named_once h pl (.slot 12) hj hi hne he).2
  refine ⟨?_, fun hpl => Function.update_of_ne (hother hpl) ..⟩
  cases pl with
  | slot m => rfl
  | via m =>
    by_cases hji : j = i
    · subst hji
      have hmk : m ≠ k := by
        rintro rfl
        exact hne (by simp [named, hk])
      simp only [named, Function.update_self]
      rw [ptr_setPtr_of_ne _ m.isLt fun h => hmk (Fin.ext h)]
    · rw [← hcong]
      refine named_congr (Function.update_of_ne (fun he => hji ?_) ..) _
      exact (named_once h (.slot 12) (.slot 12) hj hi
        (by rw [show named blk (T j) (.slot 12) = _ from he]; exact ha) he).1

/-- A data block is nobody's indirect block. -/
theorem indirect_ne_data {bit : Nat → Bool} {D : Nat → Prop} (h : Agrees D (refs T blk) bit)
    {bn : Nat} (hbn : bn < 140) (hi : (T i).type ≠ .free) (hb : blockAt blk (T i) bn ≠ 0)
    (hj : (T j).type ≠ .free) : (T j).addrs 12 ≠ blockAt blk (T i) bn := by
  rw [← named_placeOf hbn] at hb ⊢
  intro he
  exact placeOf_ne_indirect hbn (named_once h (placeOf bn) (.slot 12) hi hj hb he.symm).2

/-! ## 2. Allocating a block for an inode -/

/-- Blocks have been added to inode `i`, in the cache and not yet on disk. -/
structure Grew (i : Inum) (s t : State) : Prop where
  dino : t.dino = s.dino
  entry : ∃ a, t.icache = Function.update s.icache i
    { s.icache i with din := { (s.icache i).din with addrs := a } }
  own : Retains s.blk (s.icache i).din t.blk (t.icache i).din
  others : ∀ j, j ≠ i → (s.dino j).type ≠ .free → Retains s.blk (s.dino j) t.blk (s.dino j)

theorem Grew.refl (i : Inum) (s : State) : Grew i s s where
  dino := rfl
  entry := ⟨(s.icache i).din.addrs, (Function.update_eq_self i s.icache).symm⟩
  own := .refl _ _
  others _ _ _ := .refl _ _

theorem Grew.trans (h : Grew i s t) (h' : Grew i t u) : Grew i s u where
  dino := h'.dino.trans h.dino
  entry := by
    obtain ⟨a, ha⟩ := h.entry
    obtain ⟨a', ha'⟩ := h'.entry
    refine ⟨a', ?_⟩
    rw [ha', ha, Function.update_idem, Function.update_self]
  own := h.own.trans h'.own
  others j hj ht := by
    have h2 := h'.others j hj (by rwa [h.dino])
    rw [h.dino] at h2
    exact (h.others j hj ht).trans h2

/-- Nothing but the slots of the copy has changed. -/
theorem Grew.fields (h : Grew i s t) :
    ∃ a, (t.icache i).din = { (s.icache i).din with addrs := a } := by
  obtain ⟨a, ha⟩ := h.entry
  exact ⟨a, by rw [ha, Function.update_self]⟩

theorem Grew.icache_of_ne (h : Grew i s t) (hj : j ≠ i) : t.icache j = s.icache j := by
  obtain ⟨a, ha⟩ := h.entry
  rw [ha, Function.update_of_ne hj]

theorem Grew.icache_self (h : Grew i s t) :
    ∃ d, t.icache i = { s.icache i with din := d } := by
  obtain ⟨a, ha⟩ := h.entry
  exact ⟨_, by rw [ha, Function.update_self]⟩

/-- The parts of the invariant about other inodes follow. -/
theorem Grew.dirty (h : Grew i s t) (hd : Dirty D i s)
    (ha : Agrees D (refs (t.table i) t.blk) t.bit) : Dirty D i t where
  agrees := ha
  full j hj ht := by
    rw [h.dino] at ht ⊢
    exact (hd.full j hj ht).of_retains (h.others j hj ht)
  coherent j hj hv := by
    rw [h.icache_of_ne hj] at hv ⊢
    rw [h.dino]
    exact hd.coherent j hj hv
  valid := by
    obtain ⟨d, hd'⟩ := h.icache_self
    rw [hd']
    exact hd.valid
  allocated := by
    obtain ⟨a, ha'⟩ := h.fields
    rw [ha']
    exact hd.allocated

/-- **An empty slot gets the block `balloc` handed out.** -/
theorem Dirty.slot (hd : Dirty D i s) {n : Fin 13} (hn : (s.icache i).din.addrs n = 0)
    (hb : s.bit b = false) (hD : D b) (hdata : sb.Data b) :
    let t := (s.given p b).setCopy i
      { (s.icache i).din with addrs := Function.update (s.icache i).din.addrs n b }
    Grew i s t ∧ Dirty D i t := by
  intro t
  have hfresh := hd.agrees.fresh hb
  have hal : (s.table i i).type ≠ .free := by
    rw [table_self]
    exact hd.allocated
  have hgrew : Grew i s t := by
    refine ⟨rfl, ⟨_, rfl⟩, ?_, fun j hj ht => ?_⟩
    · have h1 : Retains s.blk (s.table i i) t.blk (s.table i i) :=
        retains_of_fresh hal hdata.pos hfresh _
      rw [table_self] at h1
      refine h1.trans ?_
      show Retains t.blk _ t.blk (Function.update s.icache i _ i).din
      rw [Function.update_self]
      exact retains_slot hn
    · rw [← table_of_ne s hj] at ht ⊢
      exact retains_of_fresh ht hdata.pos hfresh _
  refine ⟨hgrew, hgrew.dirty hd ?_⟩
  have htab : t.table i = Function.update (s.table i) i
      { s.table i i with addrs := Function.update (s.table i i).addrs n b } := by
    rw [table_self]
    simp only [State.table, Function.update_idem, t, State.setCopy, State.setInode, State.given,
      Function.update_self]
  rw [htab]
  show Agrees D (refs _ (Function.update s.blk b zeroBlock)) (Function.update s.bit b true)
  rw [refs_slot hal (by rwa [table_self]) hdata.pos hfresh]
  refine hd.agrees.add ?_ hb hD
  rw [refs_of_allocated hal, table_self]
  simp [named, hn]

/-- **An empty entry of the indirect block gets the block `balloc` handed out.** -/
theorem Dirty.via (hd : Dirty D i s) {k : Fin 128} (ha : (s.icache i).din.addrs 12 ≠ 0)
    (hk : ptr (s.blk ((s.icache i).din.addrs 12)) k = 0) (hb : s.bit b = false)
    (hD : D b) (hdata : sb.Data b) :
    let t := ((s.given p b).setBlk ((s.icache i).din.addrs 12)
      (setPtr ((s.given p b).blk ((s.icache i).din.addrs 12)) k b)).logged p
      (.block ((s.icache i).din.addrs 12))
    Grew i s t ∧ Dirty D i t := by
  intro t
  have hfresh := hd.agrees.fresh hb
  have hal : (s.table i i).type ≠ .free := by
    rw [table_self]
    exact hd.allocated
  have hind : (s.table i i).addrs 12 = (s.icache i).din.addrs 12 := by rw [table_self]
  have hab : (s.icache i).din.addrs 12 ≠ b := hind ▸ indirect_ne_of_fresh hfresh hdata.pos hal
  have hblk : t.blk = Function.update (Function.update s.blk b zeroBlock)
      ((s.icache i).din.addrs 12) (setPtr (s.blk ((s.icache i).din.addrs 12)) k b) := by
    show Function.update (Function.update s.blk b zeroBlock) ((s.icache i).din.addrs 12)
      (setPtr (Function.update s.blk b zeroBlock ((s.icache i).din.addrs 12)) k b) = _
    rw [Function.update_of_ne hab]
  have hret : ∀ j, (s.table i j).type ≠ .free →
      Retains s.blk (s.table i j) t.blk (s.table i j) := by
    intro j hj
    rw [hblk, ← hind]
    exact retains_via hd.agrees hb hdata.pos hal (hind ▸ ha) (hind ▸ hk) hj
  have hgrew : Grew i s t := by
    refine ⟨rfl, ⟨(s.icache i).din.addrs, (Function.update_eq_self i s.icache).symm⟩, ?_,
      fun j hj ht => ?_⟩
    · have := hret i hal
      rwa [table_self] at this
    · rw [← table_of_ne s hj] at ht ⊢
      exact hret j ht
  refine ⟨hgrew, hgrew.dirty hd ?_⟩
  show Agrees D (refs (s.table i) t.blk) (Function.update s.bit b true)
  rw [hblk, refs_via hal hind ha hk hdata.pos hdata.lt hfresh fun j hj he =>
    (named_once hd.agrees (.slot 12) (.slot 12) hj hal
      (by rw [show named s.blk (s.table i j) (.slot 12) = _ from he]; exact ha)
      (he.trans hind.symm)).1]
  refine hd.agrees.add ?_ hb hD
  rw [refs_of_allocated hal, table_self]
  simp [named, hk]

/-! ## 3. `bmap` -/

theorem wp_setCopy {E : Panic → State → Prop} {Q : Unit → State → Prop} {f : Dinode → Dinode} :
    (setCopy i f).wp E Q p s ↔ Q () (s.setCopy i (f (s.icache i).din)) := Iff.rfl

/-- `bmapSlot` leaves a block in the slot. -/
theorem spec_bmapSlot (hdata : ∀ b, D b → sb.Data b) (n : Fin 13) :
    Spec D p (Dirty D i) (bmapSlot sb i n) fun s b t =>
      Grew i s t ∧ Dirty D i t ∧ (t.icache i).din.addrs n = b ∧ b ≠ 0 := by
  refine .intro (basic_bmapSlot (stubborn D) sb i n) fun s _ hd => ?_
  simp only [bmapSlot, Code.wp_bind, wp_copy, Code.wp_ite, Code.wp_pure]
  refine ⟨fun h _ => ⟨.refl i s, hd, trivial, h⟩, fun h => ?_⟩
  refine wp_balloc fun b hb => wp_setCopy.mpr fun hl => ?_
  have hD : D b := hl b List.mem_cons_self
  have hdata := hdata b hD
  obtain ⟨hg, hd'⟩ := hd.slot (p := p) (not_not.mp h) hb hD hdata
  refine ⟨hg, hd', ?_, hdata.pos⟩
  simp [State.setCopy, State.setInode, State.given]

/-- **`bmap`** leaves a block at the index, and changes nothing if there was one. -/
theorem spec_bmap (hdata : ∀ b, D b → sb.Data b) {bn : Nat} (hbn : bn < 140) :
    Spec D p (Dirty D i) (bmap sb i bn) fun s b t =>
      Grew i s t ∧ Dirty D i t ∧ blockAt t.blk (t.icache i).din bn = b ∧ b ≠ 0 ∧
        (blockAt s.blk (s.icache i).din bn ≠ 0 → t = s) := by
  refine .intro (basic_bmap (stubborn D) sb i bn) fun s _ hd => ?_
  by_cases hat : blockAt s.blk (s.icache i).din bn ≠ 0
  · exact wp_bmap_of_ne_zero hbn hat fun _ => ⟨.refl i s, hd, rfl, hat, fun _ => rfl⟩
  unfold bmap
  by_cases h12 : bn < 12
  · rw [dif_pos h12]
    refine Code.wp_imp (spec_bmapSlot hdata _ s fun _ => hd) fun b t ht hl => ?_
    obtain ⟨hg, hd', hb, hb0⟩ := (ht hl).2
    exact ⟨hg, hd', by rw [blockAt, dif_pos h12, hb], hb0, fun h => absurd h hat⟩
  · rw [dif_neg h12, if_pos (by omega)]
    simp only [Code.wp_bind, Code.wp_gets, Code.wp_ite, Code.wp_pure]
    refine Code.wp_imp (spec_bmapSlot hdata 12 s fun _ => hd) fun a t ht => ?_
    refine ⟨fun hne hl => ?_, fun hz => ?_⟩
    · -- the entry is there
      obtain ⟨hg, hd', ha, ha0⟩ := (ht hl).2
      refine ⟨hg, hd', ?_, hne, fun h => absurd h hat⟩
      rw [blockAt, dif_neg h12, ha, if_neg ha0]
    · refine wp_balloc fun b hb => ?_
      simp only [Code.wp_modify]
      refine wp_logWrite fun hl => ?_
      have hD : D b := hl b List.mem_cons_self
      have hdata := hdata b hD
      obtain ⟨hg, hd', ha, ha0⟩ := (ht fun c hc => hl c (List.mem_cons_of_mem _ hc)).2
      subst ha
      obtain ⟨hg', hd''⟩ := hd'.via (p := p) (k := ⟨bn - 12, by omega⟩) ha0 (not_not.mp hz) hb hD
        hdata
      refine ⟨hg.trans hg', hd'', ?_, hdata.pos, fun h => absurd h hat⟩
      rw [blockAt, dif_neg h12]
      simp only [State.logged, State.setBlk, State.given, Function.update_self]
      rw [if_neg ha0, ptr_setPtr_self _ (by omega) hdata.lt]

/-! ## 4. Bytes written to an inode -/

/-- A data block of inode `i` is overwritten. -/
theorem Dirty.setBlk {c : Sector} (hd : Dirty D i s) {bn : Nat} (hbn : bn < 140)
    (hb : blockAt s.blk (s.icache i).din bn ≠ 0) (x : Block) :
    Dirty D i ((s.setBlk (blockAt s.blk (s.icache i).din bn) x).logged p c) ∧
      (∀ j, j ≠ i → (s.dino j).type ≠ .free → Retains s.blk (s.dino j)
        (Function.update s.blk (blockAt s.blk (s.icache i).din bn) x) (s.dino j)) ∧
      (∀ bn', bn' < 140 → blockAt (Function.update s.blk (blockAt s.blk (s.icache i).din bn) x)
        (s.icache i).din bn' = blockAt s.blk (s.icache i).din bn') := by
  have hal : (s.table i i).type ≠ .free := by
    rw [table_self]
    exact hd.allocated
  have hnamed : named s.blk (s.table i i) (placeOf bn) = blockAt s.blk (s.icache i).din bn := by
    rw [named_placeOf hbn, table_self]
  have hne : named s.blk (s.table i i) (placeOf bn) ≠ 0 := hnamed ▸ hb
  have hind : ∀ j, (s.table i j).type ≠ .free →
      (s.table i j).addrs 12 ≠ blockAt s.blk (s.icache i).din bn := by
    intro j hj
    rw [← table_self i s] at hb ⊢
    exact indirect_ne_data hd.agrees hbn hal hb hj
  have hret : ∀ j, j ≠ i → (s.dino j).type ≠ .free → Retains s.blk (s.dino j)
      (Function.update s.blk (blockAt s.blk (s.icache i).din bn) x) (s.dino j) := by
    intro j hj ht
    rw [← table_of_ne s hj] at ht ⊢
    rw [← hnamed]
    exact retains_of_once hd.agrees hal ht hj hne x
  refine ⟨⟨⟨fun j hj ht => (hd.full j hj ht).of_retains (hret j hj ht), hd.coherent, hd.valid,
    hd.allocated⟩, ?_⟩, hret, fun bn' hbn' => ?_⟩
  · have hrefs : refs (s.table i) (Function.update s.blk (blockAt s.blk (s.icache i).din bn) x) =
        refs (s.table i) s.blk :=
      refs_congr_blk fun j hj => Function.update_of_ne (hind j hj) ..
    show Agrees D (refs (s.table i) (Function.update s.blk _ x)) s.bit
    rw [hrefs]
    exact hd.agrees
  · have h12 := hind i hal
    rw [table_self] at h12
    rw [← named_placeOf hbn', ← named_placeOf hbn']
    exact named_congr (Function.update_of_ne h12 ..) _

/-- The bytes `src` have been written to inode `i` from offset `off` on; blocks may have been
added to it, in the cache and not yet on disk. -/
structure Wrote (i : Inum) (off : Nat) (src : List Byte) (s t : State) : Prop where
  dino : t.dino = s.dino
  entry : ∃ a, t.icache = Function.update s.icache i
    { s.icache i with din := { (s.icache i).din with addrs := a } }
  others : ∀ j, j ≠ i → (s.dino j).type ≠ .free → Retains s.blk (s.dino j) t.blk (s.dino j)
  kept : ∀ bn, bn < 140 → blockAt s.blk (s.icache i).din bn ≠ 0 →
    blockAt t.blk (t.icache i).din bn ≠ 0
  there : ∀ k, off ≤ k → k < off + src.length → blockAt t.blk (t.icache i).din (k / 512) ≠ 0
  bytes : ∀ k, k / 512 < 140 →
    blockAt s.blk (s.icache i).din (k / 512) ≠ 0 ∨ (off ≤ k ∧ k < off + src.length) →
    byteAt t.blk (t.icache i).din k =
      if off ≤ k ∧ k < off + src.length then src.getD (k - off) 0
      else byteAt s.blk (s.icache i).din k
  still : (∀ k, off ≤ k → k < off + src.length →
    blockAt s.blk (s.icache i).din (k / 512) ≠ 0) → t.icache = s.icache

theorem Wrote.nil (i : Inum) (off : Nat) (s : State) : Wrote i off [] s s where
  dino := rfl
  entry := ⟨(s.icache i).din.addrs, (Function.update_eq_self i s.icache).symm⟩
  others _ _ _ := .refl _ _
  kept _ _ h := h
  there k h1 h2 := absurd h2 (by simp; omega)
  bytes k _ _ := by rw [if_neg (by simp)]
  still _ := rfl

/-- Writing some bytes and then those that follow them. -/
theorem Wrote.append {off off' : Nat} {xs ys : List Byte} (h : Wrote i off xs s t)
    (h' : Wrote i off' ys t u) (hoff : off' = off + xs.length) (hmax : off' + ys.length ≤ 140 * 512) :
    Wrote i off (xs ++ ys) s u where
  dino := h'.dino.trans h.dino
  entry := by
    obtain ⟨a, ha⟩ := h.entry
    obtain ⟨a', ha'⟩ := h'.entry
    refine ⟨a', ?_⟩
    rw [ha', ha, Function.update_idem, Function.update_self]
  others j hj ht := by
    have h2 := h'.others j hj (by rwa [h.dino])
    rw [h.dino] at h2
    exact (h.others j hj ht).trans h2
  kept bn hbn hne := h'.kept bn hbn (h.kept bn hbn hne)
  there k h1 h2 := by
    rw [List.length_append] at h2
    by_cases hk : k < off + xs.length
    · exact h'.kept _ (by omega) (h.there k h1 hk)
    · exact h'.there k (by omega) (by omega)
  bytes k hk hor := by
    rw [List.length_append] at hor ⊢
    subst hoff
    by_cases h1 : off + xs.length ≤ k ∧ k < off + xs.length + ys.length
    · -- in the second part
      rw [h'.bytes k hk (Or.inr h1), if_pos h1, if_pos (by omega)]
      rw [List.getD_append_right _ _ _ _ (by omega), Nat.sub_add_eq]
    · have hmid : blockAt s.blk (s.icache i).din (k / 512) ≠ 0 ∨
          (off ≤ k ∧ k < off + xs.length) := hor.imp_right fun h => by omega
      have hkt : blockAt t.blk (t.icache i).din (k / 512) ≠ 0 := by
        rcases hmid with hm | hm
        · exact h.kept _ hk hm
        · exact h.there k hm.1 hm.2
      rw [h'.bytes k hk (Or.inl hkt), if_neg h1, h.bytes k hk hmid]
      by_cases h2 : off ≤ k ∧ k < off + xs.length
      · rw [if_pos h2, if_pos (by omega), List.getD_append _ _ _ _ (by omega)]
      · rw [if_neg h2, if_neg (by omega)]
  still hall := by
    rw [List.length_append] at hall
    have h1 := h.still fun k hk hk' => hall k hk (by omega)
    rw [← h1]
    refine h'.still fun k hk hk' => h.kept _ (by omega) (hall k (by omega) (by omega))

/-- **One round of `writei`**: `bmap` has found or made the block, and part of it is
overwritten. -/
theorem Grew.wrote {c : Sector} {off : Nat} (src : List Byte) (hg : Grew i s t) (hd : Dirty D i t)
    (hbn : off / 512 < 140) (hb : blockAt t.blk (t.icache i).din (off / 512) ≠ 0)
    (hst : blockAt s.blk (s.icache i).din (off / 512) ≠ 0 → t = s) (hpos : 0 < src.length)
    (hlen : off % 512 + src.length ≤ 512) :
    let u := (t.setBlk (blockAt t.blk (t.icache i).din (off / 512))
      (put (t.blk (blockAt t.blk (t.icache i).din (off / 512))) (off % 512) src)).logged p c
    Wrote i off src s u ∧ Dirty D i u := by
  intro u
  obtain ⟨hd', hret, hsame⟩ := hd.setBlk (p := p) hbn hb
    (put (t.blk (blockAt t.blk (t.icache i).din (off / 512))) (off % 512) src)
  have hsame' : ∀ bn, bn < 140 → blockAt u.blk (u.icache i).din bn =
      blockAt t.blk (t.icache i).din bn := hsame
  -- distinct indices have distinct blocks
  have hinj : ∀ bn, bn < 140 → bn ≠ off / 512 → blockAt t.blk (t.icache i).din bn ≠ 0 →
      blockAt t.blk (t.icache i).din bn ≠ blockAt t.blk (t.icache i).din (off / 512) := by
    intro bn hbn' hne hne0 he
    have hal : (t.table i i).type ≠ .free := by
      rw [table_self]
      exact hd.allocated
    rw [← named_placeOf hbn'] at hne0 he
    rw [← named_placeOf hbn, ← table_self] at he
    rw [← table_self] at hne0
    exact hne (placeOf_inj hbn' hbn (named_once hd.agrees _ _ hal hal hne0 he).2)
  refine ⟨⟨hg.dino, hg.entry, fun j hj ht => ?_, fun bn hbn' hne => ?_, fun k h1 h2 => ?_,
    fun k hk hor => ?_, fun hall => ?_⟩, hd'⟩
  · have h2 := hret j hj (by rwa [hg.dino])
    rw [hg.dino] at h2
    exact (hg.others j hj ht).trans h2
  · rw [hsame' bn hbn', hg.own.blockAt_eq hbn' hne]
    exact hne
  · have : k / 512 = off / 512 := by omega
    rw [this, hsame' _ hbn]
    exact hb
  · rw [byteAt, hsame' _ hk]
    show Bytes.get (Function.update t.blk _ _ _) _ = _
    by_cases hkb : k / 512 = off / 512
    · -- the block that is written
      rw [hkb, Function.update_self, get_put _ _ _ (by omega)]
      by_cases hin : off ≤ k ∧ k < off + src.length
      · rw [if_pos hin, if_pos (by omega)]
        have hidx : k % 512 - off % 512 = k - off := by omega
        rw [hidx, List.getElem?_eq_getElem (by omega), Option.getD_some,
          List.getD_eq_getElem _ _ (by omega)]
      · rw [if_neg hin]
        have hold : byteAt s.blk (s.icache i).din k =
            Bytes.get (t.blk (blockAt t.blk (t.icache i).din (off / 512))) (k % 512) := by
          rw [← hg.own.byteAt_eq hk (hor.resolve_right hin), byteAt, hkb]
        rw [hold]
        split
        · rw [List.getElem?_eq_none (by omega), Option.getD_none]
        · rfl
    · have hin : ¬(off ≤ k ∧ k < off + src.length) := by omega
      have hne := hor.resolve_right hin
      rw [if_neg hin, Function.update_of_ne, ← hg.own.byteAt_eq hk hne, byteAt]
      exact hinj _ hk hkb (by rwa [hg.own.blockAt_eq hk hne])
  · rw [← hst (hall off (Nat.le_refl _) (by omega))]
    rfl

/-- **The loop of `writei`.** -/
theorem spec_writeLoop (hdata : ∀ b, D b → sb.Data b) :
    ∀ (rounds off : Nat) (src : List Byte), src.length ≤ rounds →
    off + src.length ≤ 140 * 512 →
    Spec D p (Dirty D i) (writeLoop sb i rounds off src) fun s off' t =>
      off' = off + src.length ∧ Wrote i off src s t ∧ Dirty D i t
  | 0, off, src, hr, _ => by
    have : src = [] := List.length_eq_zero_iff.mp (by omega)
    subst this
    exact fun s hd hl => ⟨hl, rfl, .nil i off s, hd hl⟩
  | rounds + 1, off, src, hr, hmax => by
    refine .intro (basic_writeLoop (stubborn D) sb i _ _ _) fun s _ hd => ?_
    unfold writeLoop
    split
    · rename_i h
      subst h
      exact fun _ => ⟨rfl, .nil i off s, hd⟩
    · rename_i hne
      have hpos : 0 < src.length := List.length_pos_iff.mpr hne
      simp only [Code.wp_bind, Code.wp_modify]
      refine Code.wp_imp (spec_bmap hdata (by omega) s fun _ => hd) fun b t ht => wp_logWrite ?_
      have htake : (src.take (min src.length (512 - off % 512))).length =
          min src.length (512 - off % 512) := by
        rw [List.length_take]
        omega
      -- what the round has done, if `balloc` gave a data block
      have hround : Lawful D t → _ := fun hl => by
        obtain ⟨hg, hd', hb, hb0, hst⟩ := (ht hl).2
        subst hb
        exact hg.wrote (p := p) (c := .block (blockAt t.blk (t.icache i).din (off / 512)))
          (src.take (min src.length (512 - off % 512))) hd' (by omega) hb0 hst
          (by omega) (by omega)
      refine Code.wp_imp (spec_writeLoop hdata rounds _ _ (by rw [List.length_drop]; omega)
        (by rw [List.length_drop]; omega) _ fun hl => ?_) fun off' v hv hl => ?_
      · have hb := (ht hl).2.2.2.1
        subst hb
        exact (hround hl).2
      · obtain ⟨hlu, hoff, hw, hdv⟩ := hv hl
        have hb := (ht hlu).2.2.2.1
        subst hb
        have hw' := (hround hlu).1.append hw (by rw [htake]) (by rw [List.length_drop]; omega)
        rw [List.take_append_drop] at hw'
        refine ⟨?_, hw', hdv⟩
        rw [hoff, List.length_drop]
        omega

/-! ## 5. Putting the inode on disk -/

theorem wp_iupdate {Q : Unit → State → Prop}
    (hQ : Q () ((s.setDino i (s.icache i).din).logged p (iblock i))) :
    (iupdate i).wp (NotFreed D) Q p s := by
  simp only [iupdate, Code.wp_bind, wp_copy, Code.wp_modify]
  exact wp_logWrite hQ

/-- The other fields of an inode say nothing about its blocks. -/
theorem Dirty.setCopy (hd : Dirty D i s) {d : Dinode} (ht : d.type = (s.icache i).din.type)
    (ha : d.addrs = (s.icache i).din.addrs) : Dirty D i (s.setCopy i d) where
  agrees := by
    have htab : (s.setCopy i d).table i = Function.update (s.table i) i d := by
      simp only [State.table, State.setCopy, State.setInode, Function.update_self,
        Function.update_idem]
    rw [htab]
    show Agrees D (refs _ s.blk) s.bit
    rw [refs_update_of_same (by rw [table_self, ht]) (by rw [table_self, ha])]
    exact hd.agrees
  full := hd.full
  coherent j hj hv := by
    simp only [State.setCopy, State.setInode, Function.update_of_ne hj] at hv ⊢
    exact hd.coherent j hj hv
  valid := by
    simp only [State.setCopy, State.setInode, Function.update_self]
    exact hd.valid
  allocated := by
    simp only [State.setCopy, State.setInode, Function.update_self, ht]
    exact hd.allocated

/-- **`iupdate`** ends what was begun in the cache. -/
theorem Dirty.iupdate (hd : Dirty D i s) (hf : Full s.blk (s.icache i).din) :
    Clean D ((s.setDino i (s.icache i).din).logged p (iblock i)) := by
  have hd' : Dirty D i ((s.setDino i (s.icache i).din).logged p (iblock i)) := by
    refine ⟨⟨fun j hj ht => ?_, fun j hj hv => ?_, hd.valid, hd.allocated⟩, ?_⟩
    rotate_right
    · have htab : ((s.setDino i (s.icache i).din).logged p (iblock i)).table i = s.table i := by
        simp only [State.table, State.setDino, State.logged, Function.update_idem]
      rw [htab]
      exact hd.agrees
    · simp only [State.setDino, State.logged, Function.update_of_ne hj] at ht ⊢
      exact hd.full j hj ht
    · simp only [State.setDino, State.logged, Function.update_of_ne hj] at hv ⊢
      exact hd.coherent j hj hv
  refine hd'.clean ?_ hf
  simp only [State.setDino, State.logged, Function.update_self]

/-- The state in which inode `i` is `d`, in the cache and on disk. -/
def State.put (i : Inum) (d : Dinode) (s : State) : State := (s.setCopy i d).setDino i d

/-- Changing fields of an inode that say nothing about its blocks. -/
theorem Clean.put (h : Clean D s) (hv : (s.icache i).valid = true) {d : Dinode}
    (ht : d.type = (s.dino i).type) (hs : d.size = (s.dino i).size)
    (ha : d.addrs = (s.dino i).addrs) : Clean D ((s.put i d).logged p (iblock i)) := by
  have hco := h.coherent i hv
  have hd := (h.dirty hv).setCopy (d := d) (by rw [ht, hco.1]) (by rw [ha, hco.1])
  have hcopy : ((s.setCopy i d).icache i).din = d := by
    simp only [State.setCopy, State.setInode, Function.update_self]
  have hfull : Full s.blk d := by
    have := h.full i hco.2
    unfold Full NoHole blockAt at this ⊢
    rwa [hs, ha]
  have := hd.iupdate (p := p) (by rw [hcopy]; exact hfull)
  rwa [hcopy] at this

/-- `ip->... = ...; iupdate(ip)`. -/
theorem wp_setCopy_iupdate {f : Dinode → Dinode} {Q : Unit → State → Prop}
    (hQ : Q () ((s.put i (f (s.icache i).din)).logged p (iblock i))) :
    (setCopy i f >>= fun _ => iupdate i).wp (NotFreed D) Q p s := by
  rw [Code.wp_bind, wp_setCopy]
  refine wp_iupdate ?_
  simp only [State.setCopy, State.setInode, Function.update_self] at hQ ⊢
  exact hQ

/-! ## 6. `writei` -/

/-- The bytes `src` have been written to the file `i` from offset `off` on. -/
structure WroteFile (i : Inum) (off : Nat) (src : List Byte) (s t : State) : Prop where
  inode : ∃ a, t.dino = Function.update s.dino i
    { s.dino i with size := max (s.dino i).size (off + src.length), addrs := a }
  icache : t.icache = Function.update s.icache i { s.icache i with din := t.dino i }
  others : ∀ j, j ≠ i → (s.dino j).type ≠ .free → Retains s.blk (s.dino j) t.blk (s.dino j)
  bytes : ∀ k, k < (t.dino i).size → byteAt t.blk (t.dino i) k =
    if off ≤ k ∧ k < off + src.length then src.getD (k - off) 0 else byteAt s.blk (s.dino i) k

/-- After the loop, when the inode has grown. -/
theorem Wrote.grown {off : Nat} {src : List Byte} (hs : Clean D s)
    (hv : (s.icache i).valid = true) (hw : Wrote i off src s t) (hd : Dirty D i t)
    (hoff : off ≤ (s.dino i).size) (hmax : off + src.length ≤ 140 * 512)
    (hgt : (s.dino i).size < off + src.length) :
    let u := (t.put i { (t.icache i).din with size := off + src.length }).logged p (iblock i)
    Clean D u ∧ WroteFile i off src s u := by
  intro u
  obtain ⟨hco, hal⟩ := hs.coherent i hv
  have hfull := hs.full i hal
  -- every index below the new size has a block
  have hthere : ∀ k, k < off + src.length → blockAt t.blk (t.icache i).din (k / 512) ≠ 0 := by
    intro k hk
    by_cases hlt : k < off
    · refine hw.kept _ (by omega) ?_
      rw [hco]
      exact hfull.2 _ (by omega) (by omega)
    · exact hw.there k (by omega) hk
  have hcopy : ((t.setCopy i { (t.icache i).din with size := off + src.length }).icache i).din =
      { (t.icache i).din with size := off + src.length } := by
    simp only [State.setCopy, State.setInode, Function.update_self]
  have hclean : Clean D u := by
    have hd' := hd.setCopy (d := { (t.icache i).din with size := off + src.length }) rfl rfl
    have := hd'.iupdate (p := p) (by
      rw [hcopy]
      refine ⟨hmax, fun bn hbn hlt => ?_⟩
      have := hthere (512 * bn) hlt
      rwa [show 512 * bn / 512 = bn by omega] at this)
    rwa [hcopy] at this
  obtain ⟨a, ha⟩ := hw.entry
  have hdin : (t.icache i).din = { s.dino i with addrs := a } := by
    rw [ha, Function.update_self, hco]
  have hui : u.dino i = { s.dino i with size := off + src.length, addrs := a } := by
    simp only [u, State.put, State.setDino, State.logged, Function.update_self, hdin]
  refine ⟨hclean, ⟨a, ?_⟩, ?_, hw.others, fun k hk => ?_⟩
  · simp only [u, State.put, State.setDino, State.logged, State.setCopy, State.setInode, hdin,
      hw.dino, Nat.max_eq_right (Nat.le_of_lt hgt)]
  · rw [hui]
    simp only [u, State.put, State.setDino, State.logged, State.setCopy, State.setInode, ha,
      Function.update_idem, Function.update_self, hco]
  · rw [hui] at hk
    have hbyte := hw.bytes k (by simp only at hk; omega) (by
      by_cases hlt : k < (s.dino i).size
      · left
        rw [hco]
        exact hfull.2 _ (by omega) (by omega)
      · right
        simp only at hk
        omega)
    rw [hco] at hbyte
    rw [← hbyte, hui, hdin]
    rfl

/-- After the loop, when the inode has kept its size: it had all of its blocks. -/
theorem Wrote.kept_size {off : Nat} {src : List Byte} (hs : Clean D s)
    (hv : (s.icache i).valid = true) (hw : Wrote i off src s t) (hd : Dirty D i t)
    (hle : off + src.length ≤ (s.dino i).size) : Clean D t ∧ WroteFile i off src s t := by
  obtain ⟨hco, hal⟩ := hs.coherent i hv
  have hfull := hs.full i hal
  have hat : ∀ k, k < (s.dino i).size → blockAt s.blk (s.icache i).din (k / 512) ≠ 0 := by
    intro k hk
    rw [hco]
    have := hfull.1
    exact hfull.2 _ (by omega) (by omega)
  have hic : t.icache = s.icache := hw.still fun k _ hk => hat k (by omega)
  have hdi : t.dino i = s.dino i := by rw [hw.dino]
  refine ⟨hd.clean (by rw [hdi, hic, hco]) ⟨?_, fun bn hbn hlt => ?_⟩, ⟨(s.dino i).addrs, ?_⟩, ?_,
    hw.others, fun k hk => ?_⟩
  · rw [hic, hco]
    exact hfull.1
  · rw [hic, hco] at hlt
    refine hw.kept bn hbn ?_
    rw [hco]
    exact hfull.2 bn hbn hlt
  · rw [hw.dino, Nat.max_eq_left hle, Function.update_eq_self]
  · rw [hic, hdi, ← hco, Function.update_eq_self]
  · rw [hdi] at hk ⊢
    have := hfull.1
    have hbyte := hw.bytes k (by omega) (Or.inl (hat k hk))
    rw [hic, hco] at hbyte
    exact hbyte

/-- **`writei`** keeps the invariant, and writes the bytes or nothing at all. -/
theorem spec_writei (hdata : ∀ b, D b → sb.Data b) (src : List Byte) (off : Nat) :
    Spec D p (fun s => Clean D s ∧ (s.icache i).valid = true) (writei sb i src off) fun s r t =>
      Clean D t ∧ ((r = none ∧ t = s) ∨
        (r = some src.length ∧ off ≤ (s.dino i).size ∧ WroteFile i off src s t)) := by
  refine .intro (basic_writei (stubborn D) sb i src off) fun s _ hs => ?_
  obtain ⟨hs, hv⟩ := hs
  have hco := (hs.coherent i hv).1
  simp only [writei, Code.wp_bind, wp_copy, Code.wp_ite, Code.wp_pure]
  have hnone : ∀ R : Prop, Lawful D s → Clean D s ∧ (True ∧ True ∨ R) :=
    fun _ _ => ⟨hs, Or.inl ⟨trivial, trivial⟩⟩
  refine ⟨fun _ => hnone _, fun _ => ⟨fun _ => hnone _, fun hsz => ⟨fun _ => hnone _,
    fun hmax => ?_⟩⟩⟩
  rw [hco] at hsz ⊢
  have hoff : off ≤ (s.dino i).size := by omega
  refine Code.wp_imp (spec_writeLoop hdata _ off src (Nat.le_refl _) (by omega) s fun _ =>
    hs.dirty hv) fun off' t ht => ?_
  rw [Code.wp_when]
  refine ⟨fun hgrow => wp_setCopy_iupdate fun hl => ?_, fun hno hl => ?_⟩
  · obtain ⟨_, rfl, hw, hd⟩ := ht hl
    obtain ⟨hc, hf⟩ := hw.grown (p := p) hs hv hd hoff (by omega) hgrow.2
    exact ⟨hc, Or.inr ⟨trivial, hoff, hf⟩⟩
  · obtain ⟨_, rfl, hw, hd⟩ := ht hl
    obtain ⟨hc, hf⟩ := hw.kept_size hs hv hd (by omega)
    exact ⟨hc, Or.inr ⟨trivial, hoff, hf⟩⟩

/-- Why `writei` returns -1. -/
theorem wp_writei_none {src : List Byte} {off : Nat} :
    (writei sb i src off).wp (fun _ _ => True) (fun r _ => r = none → (s.icache i).din.type = .dev ∨
      (s.icache i).din.size < off ∨ 140 * 512 < off + src.length) p s := by
  simp only [writei, Code.wp_bind, wp_copy, Code.wp_ite, Code.wp_pure, Code.wp_when]
  refine ⟨fun hdev _ => .inl hdev, fun _ => ⟨fun hoff _ => ?_, fun _ => ⟨fun hmax _ => ?_, fun _ => ?_⟩⟩⟩
  · omega
  · exact .inr (.inr hmax)
  · exact Code.wp_of_forall (fun _ _ => ⟨fun _ => Code.wp_of_forall (fun _ _ =>
      Code.wp_of_forall (fun _ _ e => by cases e) fun _ _ => trivial) fun _ _ => trivial, fun _ e => by cases e⟩)
      fun _ _ => trivial

end Xv6.Fs
