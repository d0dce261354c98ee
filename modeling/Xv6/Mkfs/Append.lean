/-
# `iappend`: where the blocks go, and what they hold

Everything `mkfs` puts on the image goes through `iappend`, a few bytes at a time.  It is the
kernel's `bmap` and `writei` once more, with two differences: a new block is simply the next one,
`freeblock`, and the inode is written back once at the end.

The inode it works on HOLDS some bytes (`Holds`): the blocks for them are there and no others.  On
the whole image the blocks from the first data block up to `freeblock` are named by exactly one
place each, and everything from `freeblock` on is still zero (`Space`).  What a file of a given
length needs in blocks is a function of the length alone (`needs`), so `freeblock` is known without
looking at the image.
-/
import Xv6.Fs.Write
import Xv6.Mkfs.Image

namespace Xv6.Mkfs

open Xv6.Bytes Xv6.Fs Xv6.Allocation

/-! ## 1. `struct dinode` on disk -/

/-- The numbers in an inode fit their fields. -/
structure Fits (d : Dinode) : Prop where
  size : d.size < 2 ^ 32
  addrs : ∀ n, d.addrs n < 2 ^ 32

@[simp] theorem length_addrBytes (l : List (Fin 13)) (d : Dinode) :
    (l.flatMap fun n => leBytes 4 (d.addrs n)).length = 4 * l.length := by
  induction l with
  | nil => rfl
  | cons n l ih => simp [ih]; omega

@[simp] theorem length_dinodeBytes (d : Dinode) : (dinodeBytes d).length = 64 := by
  simp only [dinodeBytes, List.length_append, length_leBytes, length_addrBytes,
    List.length_finRange]

theorem leNat_leBytes_of_lt {k v : Nat} (h : v < 256 ^ k) : leNat (leBytes k v) = v := by
  rw [leNat_leBytes, Nat.mod_eq_of_lt h]

/-- A field of the inode reads back: `xs` are the bytes in front of it. -/
theorem field_dinode (x : Block) {off : Nat} (d : Dinode) (xs ys zs : List Byte) {k : Nat}
    (hoff : off + 64 ≤ 512) (h : dinodeBytes d = xs ++ (ys ++ zs)) (hk : xs.length = k) :
    field (put x off (dinodeBytes d)) (off + k) ys.length = ys := by
  have hlen := length_dinodeBytes d
  rw [h] at hlen ⊢
  rw [← hk]
  exact field_put_part x off xs ys zs (by omega)

/-- **An inode reads back as it was written.** -/
theorem dinodeAt_put (x : Block) {off : Nat} {d : Dinode} (hd : Fits d) (hoff : off + 64 ≤ 512) :
    dinodeAt (put x off (dinodeBytes d)) off = d := by
  have htype := field_dinode x d [] (leBytes 2 (typeCode d.type)) _ hoff
    (by simp only [dinodeBytes, List.append_assoc]; rfl) rfl
  have hmajor := field_dinode x d (leBytes 2 (typeCode d.type)) (leBytes 2 d.major.toNat) _ hoff
    (by simp only [dinodeBytes, List.append_assoc]; rfl) (show _ = 2 by simp)
  have hminor := field_dinode x d (leBytes 2 (typeCode d.type) ++ leBytes 2 d.major.toNat)
    (leBytes 2 d.minor.toNat) _ hoff
    (by simp only [dinodeBytes, List.append_assoc]; rfl) (show _ = 4 by simp)
  have hnlink := field_dinode x d
    (leBytes 2 (typeCode d.type) ++ leBytes 2 d.major.toNat ++ leBytes 2 d.minor.toNat)
    (leBytes 2 d.nlink.toNat) _ hoff
    (by simp only [dinodeBytes, List.append_assoc]; rfl) (show _ = 6 by simp)
  have hsize := field_dinode x d
    (leBytes 2 (typeCode d.type) ++ leBytes 2 d.major.toNat ++ leBytes 2 d.minor.toNat ++
      leBytes 2 d.nlink.toNat) (leBytes 4 d.size) _ hoff
    (by simp only [dinodeBytes, List.append_assoc]; rfl) (show _ = 8 by simp)
  have haddrs : ∀ n : Fin 13, field (put x off (dinodeBytes d)) (off + 12 + 4 * n) 4 =
      leBytes 4 (d.addrs n) := by
    intro n
    -- the slots in front of slot `n`, and those behind it
    have hsplit : List.finRange 13 =
        (List.finRange 13).take n ++ n :: (List.finRange 13).drop (n + 1) := by
      revert n
      decide
    have h := field_dinode x d
      ((leBytes 2 (typeCode d.type) ++ leBytes 2 d.major.toNat ++ leBytes 2 d.minor.toNat ++
        leBytes 2 d.nlink.toNat ++ leBytes 4 d.size) ++
        ((List.finRange 13).take n).flatMap fun m => leBytes 4 (d.addrs m))
      (leBytes 4 (d.addrs n))
      (((List.finRange 13).drop (n + 1)).flatMap fun m => leBytes 4 (d.addrs m)) hoff
      (by
        rw [dinodeBytes]
        conv_lhs => rw [hsplit]
        simp only [List.flatMap_append, List.flatMap_cons, List.append_assoc])
      (show _ = 12 + 4 * n.val by
        have hn : ((List.finRange 13).take n).length = n := by simp
        rw [List.length_append, length_addrBytes, hn]
        simp)
    rwa [length_leBytes, ← Nat.add_assoc] at h
  rw [length_leBytes] at htype hmajor hminor hnlink hsize
  have hcode : typeCode d.type < 256 ^ 2 := by cases d.type <;> decide
  have h16 : ∀ v : BitVec 16, BitVec.ofNat 16 (leNat (leBytes 2 v.toNat)) = v := by
    intro v
    rw [leNat_leBytes_of_lt v.isLt, BitVec.ofNat_toNat, BitVec.setWidth_eq]
  rw [List.length_nil, Nat.add_zero] at htype
  rw [dinodeAt, htype, hmajor, hminor, hnlink, hsize, leNat_leBytes_of_lt hcode, codeType_typeCode,
    h16, h16, h16, leNat_leBytes_of_lt hd.size]
  have h32 : ∀ n, leNat (leBytes 4 (d.addrs n)) = d.addrs n := fun n =>
    leNat_leBytes_of_lt (hd.addrs n)
  simp only [haddrs, h32]

/-- Another inode in the sector is untouched. -/
theorem dinodeAt_put_of_ne (x : Block) {off off' : Nat} (d : Dinode) (hoff : off + 64 ≤ 512)
    (h : off + 64 ≤ off' ∨ off' + 64 ≤ off) :
    dinodeAt (put x off' (dinodeBytes d)) off = dinodeAt x off := by
  have hfield : ∀ k len, k + len ≤ 64 →
      field (put x off' (dinodeBytes d)) (off + k) len = field x (off + k) len := by
    intro k len hk
    exact field_put_of_disjoint x _ (by omega) (by rw [length_dinodeBytes]; omega)
  have hzero := hfield 0 2 (by omega)
  rw [Nat.add_zero] at hzero
  have haddrs : ∀ n : Fin 13, field (put x off' (dinodeBytes d)) (off + 12 + 4 * n) 4 =
      field x (off + 12 + 4 * n) 4 := by
    intro n
    have := n.isLt
    rw [Nat.add_assoc]
    exact hfield _ 4 (by omega)
  simp only [dinodeAt, hzero, hfield 2 2 (by omega), hfield 4 2 (by omega), hfield 6 2 (by omega),
    hfield 8 4 (by omega), haddrs]

variable {img : Nat → Block} {i : Nat}

theorem ninodes_eq : superblock.ninodes = 200 := rfl

/-- **`winode` changes one inode of the table.** -/
theorem table_winode {d : Dinode} (hd : Fits d) (hi : i < 200) :
    table (Function.update img (i2b i) (put (img (i2b i)) (i % 8 * 64) (dinodeBytes d))) =
      Function.update (table img) i d := by
  refine funext fun (j : Nat) => ?_
  rcases eq_or_ne j i with rfl | hj
  · rw [Function.update_self, table, ninodes_eq, if_pos hi]
    show dinodeAt (Function.update img (i2b j) _ (i2b j)) _ = d
    rw [Function.update_self]
    exact dinodeAt_put _ hd (by omega)
  · rw [Function.update_of_ne hj, table, table]
    split
    · by_cases hsec : j / 8 + 2 = i2b i
      · rw [hsec, Function.update_self]
        unfold i2b at hsec
        exact dinodeAt_put_of_ne _ d (by omega) (by omega)
      · rw [Function.update_of_ne hsec]
    · rfl

/-- A sector behind the inodes is changed. -/
theorem table_update {b : Nat} (hb : 28 ≤ b) (x : Block) :
    table (Function.update img b x) = table img := by
  refine funext fun (j : Nat) => ?_
  rw [table, table, ninodes_eq]
  split
  · rw [Function.update_of_ne (by omega)]
  · rfl

theorem rinode_eq {s : State} (hi : i < 200) : rinode s i = some (table s.img i) := by
  have hlt : i2b i < size := by
    unfold i2b size
    omega
  simp only [rinode, State.rsect, if_pos hlt, Option.bind_eq_bind, Option.bind_some]
  rw [table, ninodes_eq, if_pos hi]
  rfl

theorem winode_eq {s : State} (hi : i < 200) (d : Dinode) : winode s i d =
    some (s.wsect (i2b i) (put (s.img (i2b i)) (i % 8 * 64) (dinodeBytes d))) := by
  have hlt : i2b i < size := by
    unfold i2b size
    omega
  simp only [winode, State.rsect, if_pos hlt, Option.bind_eq_bind, Option.bind_some]

/-! ## 2. Which blocks are taken -/

/-- The blocks a file of this length takes, with its indirect block. -/
def needs (len : Nat) : Nat := (len + 511) / 512 + if 12 * 512 < len then 1 else 0

/-- The blocks below `free` are named by exactly one place each, those from there on are zero. -/
structure Space (T : Nat → Dinode) (blk : Nat → Block) (free : Nat) : Prop where
  start : 29 ≤ free
  agrees : Agrees (fun b => 29 ≤ b) (refs T blk) (fun b => decide (b < free))
  zero : ∀ b, free ≤ b → blk b = zeroBlock

section

variable {T : Nat → Dinode} {blk : Nat → Block} {free : Nat}

theorem Space.named_range (h : Space T blk free) (hi : (T i).type ≠ .free) (pl : Place)
    (hne : named blk (T i) pl ≠ 0) : 29 ≤ named blk (T i) pl ∧ named blk (T i) pl < free := by
  have hrefs : refs T blk (i, pl) = some _ := refs_eq_some hi rfl hne
  exact ⟨h.agrees.data _ _ hrefs, of_decide_eq_true (h.agrees.set _ _ hrefs)⟩

theorem Space.addrs_lt (h : Space T blk free) (hi : (T i).type ≠ .free) (n : Fin 13) :
    (T i).addrs n < free := by
  by_cases hn : (T i).addrs n = 0
  · have := h.start
    omega
  · exact (h.named_range hi (.slot n) hn).2

/-- The same for the inode that is worked on. -/
theorem Space.own_range {d : Dinode} (h : Space (Function.update T i d) blk free)
    (hd : d.type ≠ .free) (pl : Place) (hne : named blk d pl ≠ 0) :
    29 ≤ named blk d pl ∧ named blk d pl < free := by
  have hself : Function.update T i d i = d := Function.update_self ..
  have hrange := h.named_range (i := i) (by rwa [hself]) pl (by rwa [hself])
  rwa [hself] at hrange

theorem Space.own_block {d : Dinode} (h : Space (Function.update T i d) blk free)
    (hd : d.type ≠ .free) {bn : Nat} (hbn : bn < 140) (hb : blockAt blk d bn ≠ 0) :
    29 ≤ blockAt blk d bn ∧ blockAt blk d bn < free := by
  rw [← named_placeOf hbn] at hb ⊢
  exact h.own_range hd _ hb

theorem Space.own_addrs_lt {d : Dinode} (h : Space (Function.update T i d) blk free)
    (hd : d.type ≠ .free) (n : Fin 13) : d.addrs n < free := by
  have hself : Function.update T i d i = d := Function.update_self ..
  have hlt := h.addrs_lt (i := i) (by rwa [hself]) n
  rwa [hself] at hlt

@[simp] theorem setAddr_self (d : Dinode) (n : Fin 13) (b : Nat) :
    (setAddr d n b).addrs n = b := Function.update_self ..

theorem setAddr_of_ne (d : Dinode) {n m : Fin 13} (b : Nat) (h : m ≠ n) :
    (setAddr d n b).addrs m = d.addrs m := Function.update_of_ne h ..

/-- The next block is nobody's. -/
theorem Space.fresh (h : Space T blk free) (x : Nat × Place) : refs T blk x ≠ some free :=
  h.agrees.fresh (decide_eq_false (Nat.lt_irrefl free)) x

theorem Space.ne_zero (h : Space T blk free) : free ≠ 0 := by
  have := h.start
  omega

theorem Space.blank_next (h : Space T blk free) : Function.update blk free zeroBlock = blk := by
  rw [← h.zero free (Nat.le_refl _), Function.update_eq_self]

theorem bits_succ (free : Nat) :
    Function.update (fun b => decide (b < free)) free true = fun b => decide (b < free + 1) := by
  funext b
  rcases eq_or_ne b free with rfl | hb
  · simp
  · have : b < free ↔ b < free + 1 := by omega
    simp [Function.update_of_ne hb, this]

/-- **A slot gets the next block.** -/
theorem Space.slot (h : Space T blk free) {n : Fin 13} (hi : (T i).type ≠ .free)
    (hn : (T i).addrs n = 0) :
    Space (Function.update T i (setAddr (T i) n free)) blk (free + 1) where
  start := Nat.le_succ_of_le h.start
  agrees := by
    have hrefs : refs (Function.update T i (setAddr (T i) n free)) _ = _ :=
      refs_slot hi hn h.ne_zero h.fresh
    rw [h.blank_next] at hrefs
    rw [hrefs, ← bits_succ]
    refine h.agrees.add ?_ (decide_eq_false (Nat.lt_irrefl free)) h.start
    rw [refs_of_allocated hi]
    simp [named, hn]
  zero := fun b hb => h.zero b (Nat.le_of_succ_le hb)

/-- Two inodes do not share an indirect block. -/
theorem Space.indirect_inj (h : Space T blk free) {j : Nat} (hi : (T i).type ≠ .free)
    (hj : (T j).type ≠ .free) (ha : (T i).addrs 12 ≠ 0) (he : (T j).addrs 12 = (T i).addrs 12) :
    j = i :=
  (named_once h.agrees (.slot 12) (.slot 12) hj hi (show (T j).addrs 12 ≠ 0 from he ▸ ha) he).1

/-- **An entry of the indirect block gets the next block.** -/
theorem Space.via (h : Space T blk free) (hfree : free < 2 ^ 32) {k : Fin 128}
    (hi : (T i).type ≠ .free) (ha : (T i).addrs 12 ≠ 0)
    (hk : ptr (blk ((T i).addrs 12)) k = 0) :
    Space T (Function.update blk ((T i).addrs 12) (setPtr (blk ((T i).addrs 12)) k free))
      (free + 1) where
  start := Nat.le_succ_of_le h.start
  agrees := by
    have hrefs := refs_via hi rfl ha hk h.ne_zero hfree h.fresh
      fun j hj he => h.indirect_inj hi hj ha he
    rw [h.blank_next] at hrefs
    rw [hrefs, ← bits_succ]
    refine h.agrees.add ?_ (decide_eq_false (Nat.lt_irrefl free)) h.start
    rw [refs_of_allocated hi]
    simp [named, hk]
  zero := fun b hb => by
    have hlt := h.addrs_lt hi 12
    rw [Function.update_of_ne (by omega)]
    exact h.zero b (Nat.le_of_succ_le hb)

/-- **A data block is written.** -/
theorem Space.data (h : Space T blk free) (hi : (T i).type ≠ .free) {bn : Nat} (hbn : bn < 140)
    (hb : blockAt blk (T i) bn ≠ 0) (x : Block) :
    Space T (Function.update blk (blockAt blk (T i) bn) x) free where
  start := h.start
  agrees := by
    rw [refs_congr_blk fun j hj =>
      Function.update_of_ne (indirect_ne_data h.agrees hbn hi hb hj) ..]
    exact h.agrees
  zero := fun b hfree => by
    have hlt : blockAt blk (T i) bn < free := by
      rw [← named_placeOf hbn] at hb ⊢
      exact (h.named_range hi _ hb).2
    rw [Function.update_of_ne (by omega)]
    exact h.zero b hfree

/-- A sector in front of the data blocks is written. -/
theorem Space.low (h : Space T blk free) {y : Nat} (hy : y ≠ 0) (hlow : y < 29) (x : Block) :
    Space T (Function.update blk y x) free where
  start := h.start
  agrees := by
    rw [refs_congr_blk fun j hj => ?_]
    · exact h.agrees
    · refine Function.update_of_ne (fun he => ?_) ..
      have hrange := h.named_range hj (.slot 12) (fun hz => hy (he.symm.trans hz))
      have he' : named blk (T j) (.slot 12) = y := he
      omega
  zero := fun b hfree => by
    have := h.start
    rw [Function.update_of_ne (by omega)]
    exact h.zero b hfree

/-- An inode changes, but not its type nor the blocks it names. -/
theorem Space.resize (h : Space T blk free) {d : Dinode} (ht : d.type = (T i).type)
    (ha : d.addrs = (T i).addrs) : Space (Function.update T i d) blk free :=
  ⟨h.start, by rw [refs_update_of_same ht ha]; exact h.agrees, h.zero⟩

/-- A free inode is taken, and names nothing yet. -/
theorem Space.fill (h : Space T blk free) {d : Dinode} (ht : (T i).type = .free)
    (ha : ∀ n, d.addrs n = 0) : Space (Function.update T i d) blk free :=
  ⟨h.start, by rw [refs_update_empty (.inl ht) (.inr ha)]; exact h.agrees, h.zero⟩

end

/-! ## 3. What an inode holds -/

/-- The inode names a block for every block of `c` and no others, and they hold `c`. -/
structure Holds (blk : Nat → Block) (d : Dinode) (c : List Byte) : Prop where
  type : d.type ≠ .free
  fits : c.length ≤ 140 * 512
  shape : ∀ bn, bn < 140 → (blockAt blk d bn ≠ 0 ↔ 512 * bn < c.length)
  indirect : d.addrs 12 ≠ 0 ↔ 12 * 512 < c.length
  bytes : contents blk d 0 c.length = c

/-- The same, with the block behind the last byte allocated as well: `c` can be appended to. -/
structure Opened (blk : Nat → Block) (d : Dinode) (c : List Byte) : Prop where
  type : d.type ≠ .free
  fits : c.length < 140 * 512
  shape : ∀ bn, bn < 140 → (blockAt blk d bn ≠ 0 ↔ 512 * bn ≤ c.length)
  indirect : d.addrs 12 ≠ 0 ↔ 12 * 512 ≤ c.length
  bytes : contents blk d 0 c.length = c

section

variable {T : Nat → Dinode} {blk blk' : Nat → Block} {free : Nat} {d d' : Dinode} {c : List Byte}

theorem contents_congr {off n : Nat}
    (h : ∀ k, off ≤ k → k < off + n → byteAt blk' d' k = byteAt blk d k) :
    contents blk' d' off n = contents blk d off n := by
  refine List.map_congr_left fun j hj => h _ (by omega) ?_
  have := List.mem_range.mp hj
  omega

/-- A block that the inode does not name is written. -/
theorem Holds.update (h : Holds blk d c) {y : Nat} (hy : ∀ pl, named blk d pl ≠ y) (x : Block) :
    Holds (Function.update blk y x) d c := by
  have hnamed : ∀ pl, named (Function.update blk y x) d pl = named blk d pl :=
    named_congr (Function.update_of_ne (hy (.slot 12)) ..)
  have hat : ∀ bn, bn < 140 → blockAt (Function.update blk y x) d bn = blockAt blk d bn := by
    intro bn hbn
    rw [← named_placeOf hbn, hnamed, named_placeOf hbn]
  refine ⟨h.type, h.fits, fun bn hbn => by rw [hat bn hbn]; exact h.shape bn hbn, h.indirect, ?_⟩
  conv_rhs => rw [← h.bytes]
  refine contents_congr fun k _ hk => ?_
  have hfits := h.fits
  have hlt : k / 512 < 140 := by omega
  rw [byteAt, byteAt, hat _ hlt, Function.update_of_ne]
  rw [← named_placeOf hlt]
  exact hy _

/-- Blocks are added, and the block behind the last byte is there now. -/
theorem Holds.opened (h : Holds blk d c) (hr : Retains blk d blk' d') (ht : d'.type = d.type)
    (hfits : c.length < 140 * 512)
    (hshape : ∀ bn, bn < 140 → (blockAt blk' d' bn ≠ 0 ↔ 512 * bn ≤ c.length))
    (hind : d'.addrs 12 ≠ 0 ↔ 12 * 512 ≤ c.length) : Opened blk' d' c := by
  refine ⟨ht ▸ h.type, hfits, hshape, hind, ?_⟩
  conv_rhs => rw [← h.bytes]
  refine contents_congr fun k _ hk => ?_
  have hlt : k / 512 < 140 := by omega
  exact hr.byteAt_eq hlt ((h.shape _ hlt).mpr (by omega))

/-- **Bytes are written behind the last one**, up to the end of its block. -/
theorem Opened.write (h : Opened blk d c) (hs : Space (Function.update T i d) blk free)
    {p : List Byte} (hp : p ≠ []) (hroom : c.length % 512 + p.length ≤ 512) :
    Holds (Function.update blk (blockAt blk d (c.length / 512))
      (put (blk (blockAt blk d (c.length / 512))) (c.length % 512) p)) d (c ++ p) := by
  have hfits := h.fits
  have hlen : 0 < p.length := List.length_pos_iff.mpr hp
  have hlast : c.length / 512 < 140 := by omega
  have hne : blockAt blk d (c.length / 512) ≠ 0 := (h.shape _ hlast).mpr (by omega)
  have hself : Function.update T i d i = d := Function.update_self ..
  have hal : (Function.update T i d i).type ≠ .free := by rw [hself]; exact h.type
  -- the block is neither the indirect block nor the block of another index
  have hind : d.addrs 12 ≠ blockAt blk d (c.length / 512) := by
    have := indirect_ne_data hs.agrees (i := i) (j := i) hlast hal (by rwa [hself]) hal
    rwa [hself] at this
  have hother : ∀ bn, bn < 140 → bn ≠ c.length / 512 → blockAt blk d bn ≠ 0 →
      blockAt blk d bn ≠ blockAt blk d (c.length / 512) := by
    intro bn hbn hbnne hbn0 he
    rw [← named_placeOf hbn] at hbn0 he
    rw [← named_placeOf hlast] at he
    rw [← hself] at hbn0 he
    exact hbnne (placeOf_inj hbn hlast (named_once hs.agrees _ _ hal hal hbn0 he).2)
  have hat : ∀ bn, bn < 140 → blockAt (Function.update blk (blockAt blk d (c.length / 512))
      (put (blk (blockAt blk d (c.length / 512))) (c.length % 512) p)) d bn = blockAt blk d bn := by
    intro bn hbn
    rw [← named_placeOf hbn, named_congr (Function.update_of_ne hind ..), named_placeOf hbn]
  refine ⟨h.type, ?_, fun bn hbn => ?_, ?_, ?_⟩
  · rw [List.length_append]
    omega
  · rw [hat bn hbn, h.shape bn hbn, List.length_append]
    omega
  · rw [h.indirect, List.length_append]
    omega
  · rw [List.length_append, contents_add, Nat.zero_add]
    congr 1
    · conv_rhs => rw [← h.bytes]
      refine contents_congr fun k _ hk => ?_
      have hlt : k / 512 < 140 := by omega
      rw [byteAt, byteAt, hat _ hlt]
      by_cases hsame : k / 512 = c.length / 512
      · rw [hsame, Function.update_self, get_put _ _ _ (by omega), if_neg (by omega)]
      · rw [Function.update_of_ne (hother _ hlt hsame ((h.shape _ hlt).mpr (by omega)))]
    · rw [contents_eq_field _ _ (by omega), hat _ hlast, Function.update_self]
      exact field_put_self _ _ _ (by omega)

end

/-! ## 4. `iappend` -/

/-- Something has been appended to inode `i`, which was `d` and is `d'` now.  The inode is in
memory and not yet on disk. -/
structure Appended (T : Nat → Dinode) (i : Nat) (s : State) (d : Dinode) (s' : State)
    (d' : Dinode) : Prop where
  space : Space (Function.update T i d') s'.img s'.freeblock
  /-- the other inodes hold what they held -/
  others : ∀ j, j ≠ i → (T j).type ≠ .free → ∀ c, Holds s.img (T j) c → Holds s'.img (T j) c
  /-- the sectors of the inodes are as they were -/
  low : ∀ b, b < 29 → s'.img b = s.img b
  used : s'.usedblocks + s.freeblock = s.usedblocks + s'.freeblock
  inodes : s'.freeinode = s.freeinode
  fields : d' = { d with addrs := d'.addrs }

section

variable {T : Nat → Dinode} {s s' s'' : State} {d d' d'' : Dinode} {c p : List Byte}

theorem Appended.refl (h : Space (Function.update T i d) s.img s.freeblock) :
    Appended T i s d s d :=
  ⟨h, fun _ _ _ _ => id, fun _ _ => rfl, rfl, rfl, rfl⟩

theorem Appended.trans (h : Appended T i s d s' d') (h' : Appended T i s' d' s'' d'') :
    Appended T i s d s'' d'' where
  space := h'.space
  others := fun j hj ht c hc => h'.others j hj ht c (h.others j hj ht c hc)
  low := fun b hb => (h'.low b hb).trans (h.low b hb)
  used := by
    have := h.used
    have := h'.used
    omega
  inodes := h'.inodes.trans h.inodes
  fields := by
    rw [h'.fields, h.fields]

/-- The other inodes hold what they held, where a block of inode `i` is written. -/
theorem others_of_own {blk : Nat → Block} {free : Nat}
    (h : Space (Function.update T i d) blk free) (ht : d.type ≠ .free) (pl : Place)
    (hne : named blk d pl ≠ 0) (x : Block) (j : Nat) (hj : j ≠ i) (htj : (T j).type ≠ .free)
    (c : List Byte) (hc : Holds blk (T j) c) :
    Holds (Function.update blk (named blk d pl) x) (T j) c := by
  have hself : Function.update T i d i = d := Function.update_self ..
  have hother : Function.update T i d j = T j := Function.update_of_ne hj ..
  refine hc.update (fun pl' he => hj ?_) x
  refine (named_once h.agrees (i := j) (j := i) pl' pl (by rwa [hother]) (by rwa [hself]) ?_ ?_).1
  · rw [hother, he]
    exact hne
  · rw [hother, hself]
    exact he

/-- A slot gets the next block. -/
theorem appended_slot (h : Space (Function.update T i d) s.img s.freeblock) (ht : d.type ≠ .free)
    {n : Fin 13} (hn : d.addrs n = 0) :
    Appended T i s d s.take (setAddr d n s.freeblock) where
  space := by
    have hself : Function.update T i d i = d := Function.update_self ..
    have := h.slot (i := i) (n := n) (by rwa [hself]) (by rwa [hself])
    rwa [hself, Function.update_idem] at this
  others := fun _ _ _ _ => id
  low := fun _ _ => rfl
  used := by
    simp only [State.take]
    omega
  inodes := rfl
  fields := rfl

/-- An entry of the indirect block gets the next block. -/
theorem appended_via (h : Space (Function.update T i d) s.img s.freeblock) (ht : d.type ≠ .free)
    (hfree : s.freeblock < 2 ^ 32) {k : Fin 128} (ha : d.addrs 12 ≠ 0)
    (hk : ptr (s.img (d.addrs 12)) k = 0) :
    Appended T i s d
      (s.take.wsect (d.addrs 12) (setPtr (s.img (d.addrs 12)) k s.freeblock)) d where
  space := by
    have hself : Function.update T i d i = d := Function.update_self ..
    have := h.via (i := i) (k := k) hfree (by rwa [hself]) (by rwa [hself]) (by rwa [hself])
    rwa [hself] at this
  others := fun j hj htj c => others_of_own h ht (.slot 12) ha _ j hj htj c
  low := fun b hb => by
    have hge : 29 ≤ d.addrs 12 := (h.own_range ht (.slot 12) ha).1
    exact Function.update_of_ne (by omega) ..
  used := by
    simp only [State.take, State.wsect]
    omega
  inodes := rfl
  fields := rfl

/-- A data block is written. -/
theorem appended_data (h : Space (Function.update T i d) s.img s.freeblock) (ht : d.type ≠ .free)
    {bn : Nat} (hbn : bn < 140) (hb : blockAt s.img d bn ≠ 0) (x : Block) :
    Appended T i s d (s.wsect (blockAt s.img d bn) x) d where
  space := by
    have hself : Function.update T i d i = d := Function.update_self ..
    have := h.data (i := i) (by rwa [hself]) hbn (by rwa [hself]) x
    rwa [hself] at this
  others := fun j hj htj c hc => by
    rw [← named_placeOf hbn] at hb
    have := others_of_own h ht _ hb x j hj htj c hc
    rwa [named_placeOf hbn] at this
  low := fun b hlow => by
    have hge := (h.own_block ht hbn hb).1
    exact Function.update_of_ne (by omega) ..
  used := rfl
  inodes := rfl
  fields := rfl

theorem needs_succ (n : Nat) : needs (n + 1) =
    needs n + if n % 512 = 0 then (if n = 12 * 512 then 2 else 1) else 0 := by
  unfold needs
  split <;> split <;> split <;> (try split) <;> omega

/-- There is a block for the index already. -/
theorem blockFor_of_ne_zero {fbn : Nat} (hne : blockAt s.img d fbn ≠ 0)
    (hlt : d.addrs 12 < size) :
    blockFor s d fbn = some (s, d, blockAt s.img d fbn) := by
  unfold blockAt at hne ⊢
  unfold blockFor slotFor
  by_cases h12 : fbn < 12
  · rw [dif_pos h12] at hne ⊢
    rw [dif_pos h12, if_neg hne]
  · rw [dif_neg h12] at hne ⊢
    split at hne
    · exact absurd rfl hne
    · rename_i ha
      simp only [dif_neg h12, if_neg ha, State.rsect, if_pos hlt, Option.bind_eq_bind,
        Option.bind_some, if_neg hne]

/-- There is none, and the index is that of a slot. -/
theorem blockFor_slot {fbn : Nat} (h12 : fbn < 12) (hz : blockAt s.img d fbn = 0) :
    blockFor s d fbn = some (s.take, setAddr d ⟨fbn, by omega⟩ s.freeblock, s.freeblock) := by
  rw [blockAt, dif_pos h12] at hz
  simp only [blockFor, dif_pos h12, slotFor, if_pos hz, setAddr_self]

/-- There is none, but there is an indirect block: `d` and `s` are those after `slotFor`. -/
theorem blockFor_via {fbn : Nat} {s₀ : State} {d₀ : Dinode} (h12 : ¬fbn < 12)
    (hslot : slotFor s₀ d₀ 12 = (s, d)) (hlt : d.addrs 12 < size)
    (hz : ptr (s.img (d.addrs 12)) (fbn - 12) = 0) :
    blockFor s₀ d₀ fbn =
      some (s.take.wsect (d.addrs 12) (setPtr (s.img (d.addrs 12)) (fbn - 12) s.freeblock), d,
        s.freeblock) := by
  simp only [blockFor, dif_neg h12, hslot, State.rsect, if_pos hlt, Option.bind_eq_bind,
    Option.bind_some, if_pos hz]

/-- The shape of an inode with one more block, at index `m`. -/
theorem shape_of_added {blk blk' : Nat → Block} {m : Nat} (hd : Holds blk d c)
    (hm : 512 * m = c.length) (hat : blockAt blk' d' m ≠ 0)
    (hrest : ∀ bn, bn < 140 → bn ≠ m → blockAt blk' d' bn = blockAt blk d bn) (bn : Nat)
    (hbn : bn < 140) : blockAt blk' d' bn ≠ 0 ↔ 512 * bn ≤ c.length := by
  rcases eq_or_ne bn m with rfl | hne
  · exact ⟨fun _ => by omega, fun _ => hat⟩
  · rw [hrest bn hbn hne, hd.shape bn hbn]
    omega

/-- **An entry of the indirect block is filled.** -/
theorem opened_via (h : Space (Function.update T i d) s.img s.freeblock) {blk : Nat → Block}
    {d₀ : Dinode} (hd : Holds blk d₀ c) (hr : Retains blk d₀ s.img d) (ht : d.type = d₀.type)
    (hsame : ∀ bn, bn < 140 → blockAt s.img d bn = blockAt blk d₀ bn)
    (hfits : c.length < 140 * 512) (hm : 512 * (c.length / 512) = c.length)
    (h12 : ¬c.length / 512 < 12) (ha : d.addrs 12 ≠ 0) (hfree : s.freeblock < size) :
    let s' := s.take.wsect (d.addrs 12)
      (setPtr (s.img (d.addrs 12)) (c.length / 512 - 12) s.freeblock)
    ptr (s.img (d.addrs 12)) (c.length / 512 - 12) = 0 ∧ Appended T i s d s' d ∧
      blockAt s'.img d (c.length / 512) = s.freeblock ∧ Opened s'.img d c := by
  intro s'
  have hself : Function.update T i d i = d := Function.update_self ..
  have hal : d.type ≠ .free := ht ▸ hd.type
  have hlast : c.length / 512 < 140 := by omega
  have hfree32 : s.freeblock < 2 ^ 32 := by
    unfold size at hfree
    omega
  have hzero : blockAt s.img d (c.length / 512) = 0 := by
    rw [hsame _ hlast]
    by_contra hne
    have := (hd.shape _ hlast).mp hne
    omega
  have hptr : ptr (s.img (d.addrs 12)) (c.length / 512 - 12) = 0 := by
    rwa [blockAt, dif_neg h12, if_neg ha] at hzero
  have hfin : c.length / 512 - 12 < 128 := by omega
  have happ := appended_via h hal hfree32 (k := ⟨c.length / 512 - 12, hfin⟩) ha hptr
  have himg : s'.img = Function.update s.img (d.addrs 12)
      (setPtr (s.img (d.addrs 12)) (c.length / 512 - 12) s.freeblock) := rfl
  have hat : blockAt s'.img d (c.length / 512) = s.freeblock := by
    rw [blockAt, dif_neg h12, if_neg ha, himg, Function.update_self,
      ptr_setPtr_self _ hfin hfree32]
  refine ⟨hptr, happ, hat, ?_⟩
  have hrest : ∀ bn, bn < 140 → bn ≠ c.length / 512 → blockAt s'.img d bn = blockAt blk d₀ bn := by
    intro bn hbn hne
    rw [← hsame bn hbn, blockAt, blockAt]
    by_cases hlow : bn < 12
    · rw [dif_pos hlow, dif_pos hlow]
    · rw [dif_neg hlow, dif_neg hlow, if_neg ha, if_neg ha, himg, Function.update_self,
        ptr_setPtr_of_ne _ (by omega) (by omega)]
  have hret : Retains s.img d s'.img d := by
    have := retains_via h.agrees (decide_eq_false (Nat.lt_irrefl _)) h.ne_zero (i := i) (j := i)
      (k := ⟨c.length / 512 - 12, hfin⟩) (by rwa [hself]) (by rwa [hself]) (by rwa [hself])
      (by rwa [hself])
    rwa [h.blank_next, hself] at this
  refine hd.opened (hr.trans hret) ht hfits (shape_of_added hd hm (hat ▸ h.ne_zero) hrest) ?_
  exact ⟨fun _ => by omega, fun _ => ha⟩

/-- What `blockFor` is for: the block behind the last byte is there, with what it takes. -/
def Opens (T : Nat → Dinode) (i : Nat) (s : State) (d : Dinode) (c : List Byte) : Prop :=
  ∃ s' d', blockFor s d (c.length / 512) = some (s', d', blockAt s'.img d' (c.length / 512)) ∧
    Appended T i s d s' d' ∧ Opened s'.img d' c ∧
    s'.freeblock + needs c.length = s.freeblock + needs (c.length + 1)

/-- There is room in the last block. -/
theorem opens_inside (h : Space (Function.update T i d) s.img s.freeblock)
    (hd : Holds s.img d c) (hfits : c.length < 140 * 512) (hfree : s.freeblock ≤ size)
    (hm : 512 * (c.length / 512) ≠ c.length) : Opens T i s d c := by
  have hlast : c.length / 512 < 140 := by omega
  have hne : blockAt s.img d (c.length / 512) ≠ 0 := (hd.shape _ hlast).mpr (by omega)
  have hlt := h.own_addrs_lt hd.type 12
  refine ⟨s, d, blockFor_of_ne_zero hne (by omega), .refl h,
    hd.opened (.refl _ _) rfl hfits (fun bn hbn => ?_) ?_, ?_⟩
  · rw [hd.shape bn hbn]
    omega
  · rw [hd.indirect]
    omega
  · rw [needs_succ, if_neg (by omega), Nat.add_zero]

/-- The block goes into a slot. -/
theorem opens_slot (h : Space (Function.update T i d) s.img s.freeblock) (hd : Holds s.img d c)
    (hm : 512 * (c.length / 512) = c.length) (h12 : c.length / 512 < 12) : Opens T i s d c := by
  have hzero : blockAt s.img d (c.length / 512) = 0 := by
    by_contra hne
    have := (hd.shape _ (by omega)).mp hne
    omega
  have hn : d.addrs ⟨c.length / 512, by omega⟩ = 0 := by rwa [blockAt, dif_pos h12] at hzero
  have hn12 : (12 : Fin 13) ≠ ⟨c.length / 512, by omega⟩ := by
    intro e
    have := congrArg Fin.val e
    simp at this
    omega
  have hat : blockAt s.take.img (setAddr d ⟨c.length / 512, by omega⟩ s.freeblock)
      (c.length / 512) = s.freeblock := by
    rw [blockAt, dif_pos h12, setAddr_self]
  refine ⟨_, _, ?_, appended_slot h hd.type hn, hd.opened (retains_slot hn) rfl (by omega)
    (shape_of_added hd hm ?_ fun bn _ hne => ?_) ?_, ?_⟩
  · rw [blockFor_slot h12 hzero, hat]
  · rw [hat]
    exact h.ne_zero
  · rw [blockAt, blockAt]
    by_cases hlow : bn < 12
    · rw [dif_pos hlow, dif_pos hlow]
      exact setAddr_of_ne d _ fun e => hne (congrArg Fin.val e)
    · rw [dif_neg hlow, dif_neg hlow]
      show (if (setAddr d _ s.freeblock).addrs 12 = 0 then 0 else
        ptr (s.img ((setAddr d _ s.freeblock).addrs 12)) (bn - 12)) = _
      rw [setAddr_of_ne d _ hn12]
  · show (setAddr d _ s.freeblock).addrs 12 ≠ 0 ↔ _
    rw [setAddr_of_ne d _ hn12, hd.indirect]
    omega
  · rw [needs_succ, if_pos (by omega), if_neg (by omega)]
    simp only [State.take]
    omega

/-- The block goes into the indirect block. -/
theorem opens_via (h : Space (Function.update T i d) s.img s.freeblock) (hd : Holds s.img d c)
    (hfits : c.length < 140 * 512) (hfree : s.freeblock < size)
    (hm : 512 * (c.length / 512) = c.length) (h12 : ¬c.length / 512 < 12)
    (ha : d.addrs 12 ≠ 0) : Opens T i s d c := by
  have hlt := h.own_addrs_lt hd.type 12
  have hlen := hd.indirect.mp ha
  obtain ⟨hptr, happ, hat, hop⟩ := opened_via h hd (.refl _ _) rfl (fun _ _ => rfl) hfits hm h12
    ha hfree
  refine ⟨_, _, ?_, happ, hop, ?_⟩
  · rw [hat]
    exact blockFor_via h12 (by rw [slotFor, if_neg ha]) (by omega) hptr
  · rw [needs_succ, if_pos (by omega), if_neg (by omega)]
    simp only [State.take, State.wsect]
    omega

/-- The first block that goes into the indirect block, which is allocated with it. -/
theorem opens_first (h : Space (Function.update T i d) s.img s.freeblock) (hd : Holds s.img d c)
    (hfree : s.freeblock + 1 < size) (hlen : c.length = 12 * 512) : Opens T i s d c := by
  have ha : d.addrs 12 = 0 := by
    by_contra hne
    have := hd.indirect.mp hne
    omega
  have hslot := appended_slot h hd.type ha
  have hsame : ∀ bn, bn < 140 →
      blockAt s.take.img (setAddr d 12 s.freeblock) bn = blockAt s.img d bn := by
    intro bn hbn
    rw [blockAt, blockAt]
    by_cases hlow : bn < 12
    · rw [dif_pos hlow, dif_pos hlow]
      refine setAddr_of_ne d _ fun e => ?_
      have := congrArg Fin.val e
      simp at this
      omega
    · rw [dif_neg hlow, dif_neg hlow, setAddr_self, if_neg h.ne_zero, if_pos ha]
      show ptr (s.img s.freeblock) _ = 0
      rw [h.zero _ (Nat.le_refl _), ptr_zeroBlock]
  have h12 : ¬c.length / 512 < 12 := by omega
  obtain ⟨hptr, happ, hat, hop⟩ := opened_via hslot.space hd (retains_slot ha) rfl hsame (by omega)
    (by omega) h12 (by rw [setAddr_self]; exact h.ne_zero) hfree
  refine ⟨_, _, ?_, hslot.trans happ, hop, ?_⟩
  · rw [hat]
    refine blockFor_via h12 (by rw [slotFor, if_pos ha]) ?_ hptr
    rw [setAddr_self]
    omega
  · rw [needs_succ, if_pos (by omega), if_pos hlen]
    simp only [State.take, State.wsect]
    omega

/-- **`blockFor`**, as long as there is room. -/
theorem blockFor_spec (h : Space (Function.update T i d) s.img s.freeblock)
    (hd : Holds s.img d c) (hfits : c.length < 140 * 512)
    (hroom : s.freeblock + needs (c.length + 1) ≤ size + needs c.length) : Opens T i s d c := by
  rw [needs_succ] at hroom
  by_cases hm : 512 * (c.length / 512) = c.length
  · rw [if_pos (by omega)] at hroom
    by_cases h12 : c.length / 512 < 12
    · exact opens_slot h hd hm h12
    · by_cases hlen : c.length = 12 * 512
      · rw [if_pos hlen] at hroom
        exact opens_first h hd (by omega) hlen
      · rw [if_neg hlen] at hroom
        exact opens_via h hd hfits (by omega) hm h12 (hd.indirect.mpr (by omega))
  · exact opens_inside h hd hfits (by omega) hm

theorem needs_mono {m n : Nat} (h : m ≤ n) : needs m ≤ needs n := by
  unfold needs
  split <;> split <;> omega

/-- One round of the loop: the bytes up to the end of the last block go to block `x`. -/
structure Round (T : Nat → Dinode) (i : Nat) (s : State) (d : Dinode) (c p : List Byte)
    (s₁ : State) (d₁ : Dinode) (x : Nat) : Prop where
  block : blockFor s d (c.length / 512) = some (s₁, d₁, x)
  opened : Appended T i s d s₁ d₁
  /-- the block is one of the inode's -/
  own : x = blockAt s₁.img d₁ (c.length / 512) ∧ x ≠ 0
  below : x < s₁.freeblock
  type : d₁.type ≠ .free
  indirect : ¬c.length / 512 < 12 → d₁.addrs 12 ≠ 0
  appended : Appended T i s d
    (s₁.wsect x (put (s₁.img x) (c.length % 512) (p.take (512 - c.length % 512)))) d₁
  holds : Holds (s₁.wsect x (put (s₁.img x) (c.length % 512) (p.take (512 - c.length % 512)))).img d₁
    (c ++ p.take (512 - c.length % 512))
  free : s₁.freeblock + needs c.length =
    s.freeblock + needs (c ++ p.take (512 - c.length % 512)).length

theorem round_spec (h : Space (Function.update T i d) s.img s.freeblock)
    (hd : Holds s.img d c) (hp : p ≠ []) (hfits : c.length < 140 * 512)
    (hroom : s.freeblock + needs (c.length + 1) ≤ size + needs c.length) :
    ∃ s₁ d₁ x, Round T i s d c p s₁ d₁ x := by
  obtain ⟨s₁, d₁, hblock, happ, hop, hfree⟩ := blockFor_spec h hd hfits hroom
  have hlast : c.length / 512 < 140 := by omega
  have hat : blockAt s₁.img d₁ (c.length / 512) ≠ 0 := (hop.shape _ hlast).mpr (by omega)
  have hlen : 0 < p.length := List.length_pos_iff.mpr hp
  refine ⟨s₁, d₁, _, hblock, happ, ⟨rfl, hat⟩, (happ.space.own_block hop.type hlast hat).2,
    hop.type, fun h12 => hop.indirect.mpr (by omega),
    happ.trans (appended_data happ.space hop.type hlast hat _),
    hop.write happ.space (p := p.take (512 - c.length % 512)) ?_ ?_, ?_⟩
  · intro e
    have := congrArg List.length e
    rw [List.length_take, List.length_nil] at this
    omega
  · rw [List.length_take]
    omega
  · -- the bytes up to the end of the block need no block beyond the first byte's
    have hsame : needs (c ++ p.take (512 - c.length % 512)).length = needs (c.length + 1) := by
      rw [List.length_append, List.length_take]
      unfold needs
      split <;> split <;> omega
    rw [hsame]
    exact hfree

/-- What the source computes for the bytes of one round. -/
theorem round_bytes (c p : List Byte) :
    c.length + min p.length ((c.length / 512 + 1) * 512 - c.length) =
        (c ++ p.take (512 - c.length % 512)).length ∧
      p.take (min p.length ((c.length / 512 + 1) * 512 - c.length)) =
        p.take (512 - c.length % 512) ∧
      p.drop (min p.length ((c.length / 512 + 1) * 512 - c.length)) =
        p.drop (512 - c.length % 512) ∧
      c.length - c.length / 512 * 512 = c.length % 512 := by
  have hmin : min (min p.length ((c.length / 512 + 1) * 512 - c.length)) p.length =
      min (512 - c.length % 512) p.length := by omega
  refine ⟨?_, List.take_eq_take_iff.mpr hmin, List.drop_eq_drop_iff.mpr hmin, by omega⟩
  rw [List.length_append, List.length_take]
  omega

theorem appendLoop_round (rounds : Nat) {s₁ : State} {d₁ : Dinode} {x : Nat}
    (h : Round T i s d c p s₁ d₁ x) (hp : p ≠ []) (hfits : c.length < 140 * 512)
    (hx : x < size) :
    appendLoop (rounds + 1) s d c.length p =
      appendLoop rounds
        (s₁.wsect x (put (s₁.img x) (c.length % 512) (p.take (512 - c.length % 512)))) d₁
        (c ++ p.take (512 - c.length % 512)).length (p.drop (512 - c.length % 512)) := by
  obtain ⟨hlen, htake, hdrop, hoff⟩ := round_bytes c p
  rw [appendLoop, if_neg hp, if_pos (by omega), h.block, ← hlen, ← htake, ← hdrop, ← hoff]
  simp only [Option.bind_eq_bind, Option.bind_some, State.rsect, if_pos hx]

/-- **The loop of `iappend`.** -/
theorem appendLoop_spec (rounds : Nat) (h : Space (Function.update T i d) s.img s.freeblock)
    (hd : Holds s.img d c) (hrounds : p.length ≤ rounds) (hfits : (c ++ p).length ≤ 140 * 512)
    (hroom : s.freeblock + needs (c ++ p).length ≤ size + needs c.length) :
    ∃ s' d', appendLoop rounds s d c.length p = some (s', d', (c ++ p).length) ∧
      Appended T i s d s' d' ∧ Holds s'.img d' (c ++ p) ∧
      s'.freeblock + needs c.length = s.freeblock + needs (c ++ p).length := by
  induction rounds generalizing s d c p with
  | zero =>
    have hp : p = [] := List.eq_nil_of_length_eq_zero (by omega)
    subst hp
    rw [List.append_nil]
    exact ⟨s, d, rfl, .refl h, hd, rfl⟩
  | succ rounds ih =>
    by_cases hp : p = []
    · subst hp
      rw [List.append_nil]
      exact ⟨s, d, by rw [appendLoop, if_pos rfl], .refl h, hd, rfl⟩
    · have hlen : 0 < p.length := List.length_pos_iff.mpr hp
      have hall : c ++ p.take (512 - c.length % 512) ++ p.drop (512 - c.length % 512) = c ++ p := by
        rw [List.append_assoc, List.take_append_drop]
      have hneeds := needs_mono (show c.length + 1 ≤ (c ++ p).length by
        rw [List.length_append]
        omega)
      have hshort : c.length < 140 * 512 := by
        rw [List.length_append] at hfits
        omega
      obtain ⟨s₁, d₁, x, hround⟩ := round_spec h hd hp hshort (by omega)
      have hfree := hround.free
      have hbelow := hround.below
      have hle := needs_mono (show (c ++ p.take (512 - c.length % 512)).length ≤ (c ++ p).length by
        rw [List.length_append, List.length_append, List.length_take]
        omega)
      have hless : (p.drop (512 - c.length % 512)).length ≤ rounds := by
        rw [List.length_drop]
        omega
      rw [appendLoop_round rounds hround hp hshort (by omega)]
      obtain ⟨s₂, d₂, hrest, happ₂, hd₂, hfree₂⟩ :=
        ih hround.appended.space hround.holds hless (by rwa [hall])
          (by rw [hall]; simp only [State.wsect]; omega)
      rw [hall] at hrest hd₂ hfree₂
      simp only [State.wsect] at hfree₂
      exact ⟨s₂, d₂, hrest, hround.appended.trans happ₂, hd₂, by omega⟩

end

end Xv6.Mkfs
