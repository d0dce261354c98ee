/-
# Writes that end: room on the disk and in the log (`balloc`, `log_write`, `bmap`, `writei`)

`writei` can stop the machine in three ways: `bmap` is out of range, which its own checks rule
out; `balloc` finds no free block; and `log_write` finds the log full.  The log is the narrow one.
A transaction has room for LOGSIZE sectors, or one less than the log has blocks, and `log_write`
asks for room even when the sector is in the log already.

`Room k` is the state in which `k` more blocks can be allocated and logged: there are `k` free data
blocks, and the sectors the log has or will have in any case (the bitmap, the indirect block if
there is one), together with `k` others, leave a place for the inode.  Each function takes what it
needs from `k`, and a write that touches few enough blocks ends (`ends_writei`).
-/
import Xv6.Fs.Write

namespace Xv6.Fs

open Xv6.Bytes Xv6.Threads

variable {sb : Super} {D : Nat → Prop} {i : Inum} {p : Pid} {s t : State} {e k : Nat}

/-! ## 1. Room -/

/-- The most sectors a transaction can log. -/
def State.logRoom (s : State) : Nat := min logsize (s.logSize - 1)

/-- The free data blocks. -/
def State.freeData (sb : Super) (s : State) : Finset Nat :=
  (Finset.Ico sb.dataStart (sb.dataStart + sb.nblocks)).filter fun b => s.bit b = false

/-- The blocks of the bitmap. -/
def bitmapSectors (sb : Super) : Finset Sector :=
  (Finset.range (sb.size / 4096 + 1)).image .bitmap

/-- The indirect block of inode `i`, if there is one. -/
def State.indirect (i : Inum) (s : State) : Finset Sector :=
  if (s.icache i).din.addrs 12 = 0 then ∅ else {.block ((s.icache i).din.addrs 12)}

/-- The sectors the log has, or may have in any case, in a write to inode `i`. -/
def State.known (sb : Super) (i : Inum) (s : State) : Finset Sector :=
  s.sectors.toFinset ∪ (bitmapSectors sb ∪ s.indirect i)

/-- What balloc hands out is a block of `D`: the blocks below the data blocks are marked, and a free
data block is in `D`.  `initlog` has read the size of the log from the superblock. -/
structure Open (sb : Super) (D : Nat → Prop) (s : State) : Prop where
  fits : sb.dataStart + sb.nblocks ≤ sb.size
  low : ∀ b, b < sb.dataStart → s.bit b = true
  avail : ∀ b, sb.Data b → s.bit b = false → D b
  logSize : s.logSize = sb.nlog
  lawful : Lawful D s

/-- `k` more blocks can be allocated and logged, and after them the inode; and `e` data blocks are
free beyond those. -/
structure Room (sb : Super) (D : Nat → Prop) (i : Inum) (e k : Nat) (s : State) : Prop
    extends Open sb D s where
  owner : s.owner ≠ none
  nodup : s.sectors.Nodup
  free : k + e ≤ (s.freeData sb).card
  log : (s.known sb i).card + k < s.logRoom

theorem not_logFull_iff : ¬s.logFull ↔ s.sectors.length < s.logRoom := by
  unfold State.logFull State.logRoom
  omega

theorem mem_absorb {x y : Sector} (h : y ∈ s.sectors) : y ∈ s.absorb x := by
  unfold State.absorb
  split
  · exact h
  · exact List.mem_append_left _ h

theorem nodup_absorb (h : s.sectors.Nodup) (x : Sector) : (s.absorb x).Nodup := by
  unfold State.absorb
  split
  · exact h
  · rename_i hx
    exact h.append (List.nodup_singleton x) (by simpa using hx)

theorem toFinset_absorb (x : Sector) : (s.absorb x).toFinset = insert x s.sectors.toFinset := by
  unfold State.absorb
  split
  · rename_i hx
    rw [Finset.insert_eq_of_mem (List.mem_toFinset.mpr hx)]
  · rw [List.toFinset_append, List.toFinset_cons, List.toFinset_nil, Finset.union_comm,
      Finset.insert_union, Finset.empty_union]

theorem Room.mono {m : Nat} (h : Room sb D i e k s) (hm : m ≤ k) : Room sb D i e m s :=
  ⟨h.toOpen, h.owner, h.nodup, by have := h.free; omega, by have := h.log; omega⟩

/-- There is a place in the log. -/
theorem Room.length_lt (h : Room sb D i e k s) : s.sectors.length < s.logRoom := by
  have hcard : s.sectors.length = s.sectors.toFinset.card :=
    (List.toFinset_card_of_nodup h.nodup).symm
  have hsub : s.sectors.toFinset.card ≤ (s.known sb i).card :=
    Finset.card_le_card Finset.subset_union_left
  have := h.log
  omega

/-! ## 2. `log_write` and `balloc` -/

theorem ends_logWrite {x : Sector} {Q : Unit → State → Prop} (howner : s.owner ≠ none)
    (hlen : s.sectors.length < s.logRoom) (hQ : Q () (s.logged p x)) :
    (logWrite x).ends Q p s := by
  have hfull : ¬State.logFull { s with calls := (p, s.owner) :: s.calls } :=
    not_logFull_iff.mpr hlen
  simp only [logWrite, Code.ends_bind, Code.ends_self, Code.ends_gets, Code.ends_modify,
    Code.ends_panicIf, decide_eq_true_iff]
  exact ⟨hfull, howner, hQ⟩

theorem known_logged (x : Sector) : (s.logged p x).known sb i = insert x (s.known sb i) := by
  show (s.absorb x).toFinset ∪ _ = _
  rw [toFinset_absorb, Finset.insert_union]
  rfl

/-- A sector that the log will have in any case. -/
theorem Room.logged_of_mem (h : Room sb D i e k s) {x : Sector} (hx : x ∈ s.known sb i) :
    Room sb D i e k (s.logged p x) :=
  ⟨⟨h.fits, h.low, h.avail, h.logSize, h.lawful⟩, h.owner, nodup_absorb h.nodup x, h.free, by
    rw [known_logged, Finset.insert_eq_of_mem hx]
    exact h.log⟩

/-- Any other sector. -/
theorem Room.logged (h : Room sb D i e (k + 1) s) (x : Sector) : Room sb D i e k (s.logged p x) :=
  ⟨⟨h.fits, h.low, h.avail, h.logSize, h.lawful⟩, h.owner, nodup_absorb h.nodup x,
    Nat.le_trans (by omega) h.free, by
    have hcard := Finset.card_insert_le x (s.known sb i)
    have hlog := h.log
    rw [known_logged]
    show _ < s.logRoom
    omega⟩

/-- With a free data block there is one that `balloc` finds. -/
theorem Open.firstFree (h : Open sb D s) (hfree : 0 < (s.freeData sb).card) :
    ∃ b, s.firstFree sb = some b ∧ sb.Data b ∧ s.bit b = false ∧ D b := by
  obtain ⟨b₀, hb₀⟩ := Finset.card_pos.mp hfree
  obtain ⟨hmem, hbit₀⟩ := Finset.mem_filter.mp hb₀
  obtain ⟨hge₀, hlt₀⟩ := Finset.mem_Ico.mp hmem
  have hfits := h.fits
  cases hf : s.firstFree sb with
  | none =>
    have hno := List.find?_eq_none.mp hf b₀ (List.mem_range.mpr (by omega))
    rw [hbit₀] at hno
    exact absurd rfl hno
  | some b =>
    obtain ⟨hb, -, hfirst⟩ := List.find?_range_eq_some.mp hf
    have hbit : s.bit b = false := by simpa using hb
    have hdata : sb.Data b := by
      refine ⟨?_, ?_⟩
      · by_contra hlow
        rw [h.low b (by omega)] at hbit
        cases hbit
      · by_contra hhigh
        have := hfirst b₀ (by omega)
        rw [hbit₀] at this
        cases this
    exact ⟨b, rfl, hdata, hbit, h.avail b hdata hbit⟩

theorem freeData_given {b : Nat} (hb : b ∈ s.freeData sb) :
    ((s.given p b).freeData sb).card + 1 = (s.freeData sb).card := by
  have : (s.given p b).freeData sb = (s.freeData sb).erase b := by
    ext c
    rw [State.freeData, Finset.mem_filter, Finset.mem_erase, State.freeData, Finset.mem_filter]
    show _ ∧ Function.update s.bit b true c = false ↔ _
    rcases eq_or_ne c b with rfl | hne
    · simp
    · simp [hne]
  rw [this, Finset.card_erase_add_one hb]

/-- **`balloc`** takes one block from the room. -/
theorem ends_balloc (h : Room sb D i e (k + 1) s) :
    (balloc sb).ends (fun b t => t = s.given p b ∧ Room sb D i e k t ∧ .block b ∈ t.sectors ∧
      b ≠ 0) p s := by
  obtain ⟨b, hf, hdata, hbit, hD⟩ := h.firstFree (by have := h.free; omega)
  have hmem : b ∈ s.freeData sb :=
    Finset.mem_filter.mpr ⟨Finset.mem_Ico.mpr hdata, hbit⟩
  -- the sector of the bitmap is one of those that count in any case
  have hbblock : bblock b ∈ s.known sb i := by
    refine Finset.mem_union_right _ (Finset.mem_union_left _ (Finset.mem_image_of_mem _ ?_))
    have hlt := hdata.2
    have hfits := h.fits
    rw [Finset.mem_range]
    omega
  have hr : Room sb D i e k (s.given p b) := by
    have hlog := ((h.logged_of_mem (p := p) hbblock).logged (p := p) (.block b))
    refine ⟨⟨h.fits, fun c hc => ?_, fun c hc hcbit => h.avail c hc ?_, h.logSize, ?_⟩, h.owner, hlog.nodup,
      ?_, hlog.log⟩
    · simp only [State.given]
      rcases eq_or_ne c b with rfl | hne
      · exact Function.update_self ..
      · rw [Function.update_of_ne hne]
        exact h.low c hc
    · simp only [State.given] at hcbit
      rcases eq_or_ne c b with rfl | hne
      · exact hbit
      · rwa [Function.update_of_ne hne] at hcbit
    · intro c hc
      rcases List.mem_cons.mp hc with rfl | hc
      · exact hD
      · exact h.lawful c hc
    · have hcard := freeData_given (p := p) hmem
      have hfree := h.free
      omega
  have hin : .block b ∈ (s.given p b).sectors := by
    rw [← List.mem_toFinset]
    show _ ∈ ((s.logged p (bblock b)).absorb (.block b)).toFinset
    rw [toFinset_absorb]
    exact Finset.mem_insert_self ..
  simp only [balloc, Code.ends_bind, Code.ends_gets, hf, Code.ends_modify, bzero, Code.ends_pure]
  refine ends_logWrite h.owner h.length_lt (ends_logWrite h.owner ?_ ⟨rfl, hr, hin, hdata.pos⟩)
  exact (h.logged_of_mem (p := p) hbblock).length_lt

/-! ## 3. `bmap` -/

/-- 1 if the indirect block is still to be allocated. -/
def State.pending (i : Inum) (s : State) : Nat := if (s.icache i).din.addrs 12 = 0 then 1 else 0

/-- The copy of the inode changes, but not its indirect block, or only to one that is logged. -/
theorem Room.setCopy (h : Room sb D i e k s) {d : Dinode}
    (hd : d.addrs 12 = (s.icache i).din.addrs 12 ∨ .block (d.addrs 12) ∈ s.sectors) :
    Room sb D i e k (s.setCopy i d) := by
  have hin : ((s.setCopy i d).icache i).din = d := by
    simp [State.setCopy, State.setInode]
  refine ⟨⟨h.fits, h.low, h.avail, h.logSize, h.lawful⟩, h.owner, h.nodup, h.free,
    lt_of_le_of_lt (Nat.add_le_add_right (Finset.card_le_card ?_) k) h.log⟩
  refine Finset.union_subset Finset.subset_union_left (Finset.union_subset ?_ ?_)
  · exact Finset.subset_union_left.trans Finset.subset_union_right
  · unfold State.indirect
    rw [hin]
    split
    · exact Finset.empty_subset _
    · rename_i hne
      rw [Finset.singleton_subset_iff]
      rcases hd with he | hmem
      · refine Finset.mem_union_right _ (Finset.mem_union_right _ ?_)
        unfold State.indirect
        rw [if_neg (he ▸ hne), he]
        exact Finset.mem_singleton_self _
      · exact Finset.mem_union_left _ (List.mem_toFinset.mpr hmem)

theorem ends_bmapSlot (n : Fin 13) (h : Room sb D i e (k + 1) s) :
    (bmapSlot sb i n).ends (fun b t => (t = s ∧ b = (s.icache i).din.addrs n ∧ b ≠ 0) ∨
      ((s.icache i).din.addrs n = 0 ∧ Room sb D i e k t ∧ .block b ∈ t.sectors ∧ b ≠ 0 ∧
        (t.icache i).din.addrs = Function.update (s.icache i).din.addrs n b)) p s := by
  simp only [bmapSlot, copy, Code.ends_bind, Code.ends_gets, Code.ends_ite, Code.ends_pure]
  refine ⟨fun hne => Or.inl ⟨trivial, trivial, hne⟩, fun hz => ?_⟩
  refine Code.ends_imp (ends_balloc h) fun b t ht => ?_
  obtain ⟨rfl, hr, hin, hb0⟩ := ht
  rw [Fs.setCopy, Code.ends_modify]
  refine Or.inr ⟨not_not.mp hz, hr.setCopy ?_, hin, hb0, ?_⟩
  · rcases eq_or_ne n 12 with rfl | hne
    · refine Or.inr ?_
      simpa only [Function.update_self] using hin
    · exact Or.inl (Function.update_of_ne (Ne.symm hne) ..)
  · simp [State.setCopy, State.setInode, State.given]

/-- A round of `writei` takes one block from the room: `bmap` allocates and logs it, or it is there
and is logged when its bytes have been written. -/
def Room.After (sb : Super) (D : Nat → Prop) (i : Inum) (e k b : Nat) (t : State) : Prop :=
  Room sb D i e (k + 1 + t.pending i) t ∨ (Room sb D i e (k + t.pending i) t ∧ .block b ∈ t.sectors)

theorem pending_eq_zero (h : (s.icache i).din.addrs 12 ≠ 0) : s.pending i = 0 := if_neg h

theorem pending_congr (h : (t.icache i).din.addrs 12 = (s.icache i).din.addrs 12) :
    t.pending i = s.pending i := by
  rw [State.pending, State.pending, h]

theorem mem_known_indirect (h : (s.icache i).din.addrs 12 ≠ 0) :
    .block ((s.icache i).din.addrs 12) ∈ s.known sb i := by
  refine Finset.mem_union_right _ (Finset.mem_union_right _ ?_)
  rw [State.indirect, if_neg h]
  exact Finset.mem_singleton_self _

theorem Room.setBlk (h : Room sb D i e k s) (b : Nat) (x : Block) : Room sb D i e k (s.setBlk b x) :=
  ⟨⟨h.fits, h.low, h.avail, h.logSize, h.lawful⟩, h.owner, h.nodup, h.free, h.log⟩

/-- **`bmap`** below MAXFILE ends. -/
theorem ends_bmap {bn : Nat} (hbn : bn < 140) (h : Room sb D i e (k + 1 + s.pending i) s) :
    (bmap sb i bn).ends (fun b t => Room.After sb D i e k b t) p s := by
  unfold bmap
  by_cases h12 : bn < 12
  · rw [dif_pos h12]
    refine Code.ends_imp (ends_bmapSlot ⟨bn, by omega⟩ (k := k + s.pending i)
      (by rwa [Nat.add_right_comm])) fun b t ht => ?_
    rcases ht with ⟨rfl, -, -⟩ | ⟨-, hr, hin, -, haddrs⟩
    · exact Or.inl h
    · refine Or.inr ⟨?_, hin⟩
      rwa [pending_congr (s := s)]
      rw [haddrs, Function.update_of_ne]
      exact fun he => absurd (congrArg Fin.val he) (by simp only []; omega)
  · rw [dif_neg h12, if_pos (by omega)]
    simp only [Code.ends_bind]
    -- first the indirect block
    have hind : (bmapSlot sb i 12).ends (fun a t => Room sb D i e (k + 1) t ∧
        (t.icache i).din.addrs 12 = a ∧ a ≠ 0) p s := by
      refine Code.ends_imp (ends_bmapSlot 12 (k := k + s.pending i)
        (by rwa [Nat.add_right_comm])) fun a t ht => ?_
      rcases ht with ⟨rfl, rfl, hne⟩ | ⟨hz, hr, -, hne, haddrs⟩
      · exact ⟨h.mono (Nat.le_add_right _ _), rfl, hne⟩
      · rw [State.pending, if_pos hz] at hr
        exact ⟨hr, by rw [haddrs, Function.update_self], hne⟩
    refine Code.ends_imp hind fun a t ht => ?_
    obtain ⟨hr, rfl, hne⟩ := ht
    simp only [Code.ends_gets, Code.ends_ite, Code.ends_pure, Code.ends_bind, Code.ends_modify]
    refine ⟨fun _ => Or.inl (by rwa [pending_eq_zero hne]), fun _ => ?_⟩
    -- then an entry of it
    refine Code.ends_imp (ends_balloc hr) fun b u hu => ?_
    obtain ⟨rfl, hr', hin, -⟩ := hu
    have hr'' := hr'.setBlk ((t.icache i).din.addrs 12)
      (setPtr ((t.given p b).blk ((t.icache i).din.addrs 12)) (bn - 12) b)
    refine ends_logWrite hr''.owner hr''.length_lt (Or.inr ⟨?_, mem_absorb hin⟩)
    show Room sb D i e (k + t.pending i) _
    rw [pending_eq_zero hne]
    exact hr''.logged_of_mem (mem_known_indirect hne)

/-! ## 4. `writei` -/

/-- The number of blocks that `n` bytes from `off` on lie in. -/
def touched (off n : Nat) : Nat := if n = 0 then 0 else (off + n - 1) / 512 - off / 512 + 1

theorem touched_step {off n m : Nat} (hn : n ≠ 0) (hm : m = min n (512 - off % 512)) :
    touched off n = touched (off + m) (n - m) + 1 := by
  unfold touched
  rw [if_neg hn]
  split <;> omega

/-- **The loop of `writei`** ends, and takes the blocks it touches from the room. -/
theorem ends_writeLoop : ∀ (rounds off : Nat) (src : List Byte) (s : State),
    src.length ≤ rounds → off + src.length ≤ 140 * 512 →
    Room sb D i e (k + touched off src.length + s.pending i) s →
    (writeLoop sb i rounds off src).ends (fun _ t => Room sb D i e (k + t.pending i) t) p s
  | 0, off, src, s, hr, hmax, h => by
    have hz : src.length = 0 := by omega
    rw [hz] at h
    exact h
  | rounds + 1, off, src, s, hr, hmax, h => by
    unfold writeLoop
    split
    · rename_i hnil
      rw [hnil] at h
      exact h
    · rename_i hne
      have hpos : src.length ≠ 0 := fun hz => hne (List.eq_nil_of_length_eq_zero hz)
      rw [touched_step hpos rfl, ← Nat.add_assoc] at h
      simp only [Code.ends_bind, Code.ends_modify]
      refine Code.ends_imp (ends_bmap (by omega) h) fun b t ht => ?_
      have hdrop : (src.drop (min src.length (512 - off % 512))).length =
          src.length - min src.length (512 - off % 512) := List.length_drop
      have hnext : ∀ u, Room sb D i e
          (k + touched (off + min src.length (512 - off % 512))
            (src.length - min src.length (512 - off % 512)) + u.pending i) u →
          (writeLoop sb i rounds (off + min src.length (512 - off % 512))
            (src.drop (min src.length (512 - off % 512)))).ends
            (fun _ t => Room sb D i e (k + t.pending i) t) p u := fun u hu =>
        ends_writeLoop rounds _ _ u (by omega) (by omega) (by rwa [hdrop])
      rcases ht with hroom | ⟨hroom, hin⟩
      · -- the block was there, and is logged now
        have hroom' := hroom.setBlk b
          (put (t.blk b) (off % 512) (src.take (min src.length (512 - off % 512))))
        refine ends_logWrite hroom'.owner hroom'.length_lt (hnext _ ?_)
        rw [Nat.add_right_comm] at hroom'
        exact hroom'.logged _
      · have hroom' := hroom.setBlk b
          (put (t.blk b) (off % 512) (src.take (min src.length (512 - off % 512))))
        refine ends_logWrite hroom'.owner hroom'.length_lt (hnext _ ?_)
        exact hroom'.logged_of_mem (Finset.mem_union_left _ (List.mem_toFinset.mpr hin))

/-- **`writei` ends** if there is room for the blocks it touches, or if it is refused. -/
theorem ends_writei (off : Nat) (src : List Byte) (hdev : (s.icache i).din.type ≠ .dev)
    (ho : Open sb D s) (he : e ≤ (s.freeData sb).card)
    (h : off ≤ (s.icache i).din.size → off + src.length ≤ 140 * 512 → src ≠ [] →
      Room sb D i e (touched off src.length + s.pending i) s) :
    (writei sb i src off).ends (fun r t => (r = none ↔ (s.icache i).din.size < off ∨
      2 ^ 32 ≤ off + src.length ∨ 140 * 512 < off + src.length) ∧
      Open sb D t ∧ e ≤ (t.freeData sb).card) p s := by
  simp only [writei, copy, Code.ends_bind, Code.ends_gets, Code.ends_ite, Code.ends_pure]
  refine ⟨fun hd => absurd hd hdev, fun _ => ⟨fun hno => ⟨⟨fun _ => by omega, fun _ => trivial⟩,
    ho, he⟩, fun hsz => ⟨fun hno => ⟨⟨fun _ => by omega, fun _ => trivial⟩, ho, he⟩,
    fun hmax => ?_⟩⟩⟩
  have hsome : (some src.length = none) ↔ ((s.icache i).din.size < off ∨
      2 ^ 32 ≤ off + src.length ∨ 140 * 512 < off + src.length) :=
    ⟨fun hc => (by cases hc), fun hc => absurd hc (by omega)⟩
  by_cases hnil : src = []
  · subst hnil
    exact ⟨hsome, ho, he⟩
  refine Code.ends_imp (ends_writeLoop (k := 0) _ off src s (Nat.le_refl _) (by omega)
    (by rw [Nat.zero_add]; exact h (by omega) (by omega) hnil)) fun off' t ht => ?_
  have hfree := ht.free
  rw [Code.ends_when]
  refine ⟨fun _ => ?_, fun _ => ⟨hsome, ht.toOpen, by omega⟩⟩
  simp only [Fs.setCopy, iupdate, copy, Code.ends_bind, Code.ends_modify, Code.ends_gets]
  have hroom' := ht.setCopy (d := { (t.icache i).din with size := off' }) (Or.inl rfl)
  refine ends_logWrite hroom'.owner hroom'.length_lt ⟨hsome, ?_, Nat.le_trans (by omega) hfree⟩
  exact ⟨hroom'.fits, hroom'.low, hroom'.avail, hroom'.logSize, hroom'.lawful⟩

end Xv6.Fs
