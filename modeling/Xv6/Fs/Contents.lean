/-
# What an inode contains, and reading it (`bmap`, `readi`, `dirlookup` on allocated blocks)

`blockAt` is the block an inode names for a block index, through a direct slot or through its
indirect block, and `contents` are the bytes at some offsets.  An inode has NO HOLE if every block
index below its size is allocated.  Reading an inode without holes changes nothing, and in
particular writes nothing to the log: `bmap` allocates only where it finds a 0.  The rules below
give the result of each reading function in those terms.
-/
import Xv6.Fs.Sysfile

namespace Xv6.Fs

open Xv6.Bytes Xv6.Threads

/-! ## 1. Blocks and bytes of an inode -/

/-- The block an inode names for block index `bn`; 0 if there is none. -/
def blockAt (blk : Nat → Block) (d : Dinode) (bn : Nat) : Nat :=
  if h : bn < 12 then d.addrs ⟨bn, lt_of_direct h⟩
  else if d.addrs 12 = 0 then 0
  else ptr (blk (d.addrs 12)) (bn - 12)

/-- Every block index below the size is allocated. -/
def NoHole (blk : Nat → Block) (d : Dinode) : Prop :=
  ∀ bn, bn < 140 → 512 * bn < d.size → blockAt blk d bn ≠ 0

instance (blk : Nat → Block) (d : Dinode) : Decidable (NoHole blk d) :=
  inferInstanceAs (Decidable (∀ bn, bn < 140 → 512 * bn < d.size → blockAt blk d bn ≠ 0))

/-- The byte at offset `k`. -/
def byteAt (blk : Nat → Block) (d : Dinode) (k : Nat) : Byte :=
  get (blk (blockAt blk d (k / 512))) (k % 512)

/-- `n` bytes from offset `off` on. -/
def contents (blk : Nat → Block) (d : Dinode) (off n : Nat) : List Byte :=
  (List.range n).map fun j => byteAt blk d (off + j)

@[simp] theorem length_contents (blk : Nat → Block) (d : Dinode) (off n : Nat) :
    (contents blk d off n).length = n := by
  simp [contents]

theorem contents_add (blk : Nat → Block) (d : Dinode) (off m k : Nat) :
    contents blk d off (m + k) = contents blk d off m ++ contents blk d (off + m) k := by
  simp [contents, List.range_add, Function.comp_def, Nat.add_assoc]

/-- Inside one block, the contents are a field of that block. -/
theorem contents_eq_field (blk : Nat → Block) (d : Dinode) {off n : Nat}
    (h : off % 512 + n ≤ 512) :
    contents blk d off n = field (blk (blockAt blk d (off / 512))) (off % 512) n := by
  simp only [contents, field]
  apply List.map_congr_left
  intro j hj
  have hj' : j < n := List.mem_range.mp hj
  have hdiv : (off + j) / 512 = off / 512 := by omega
  have hmod : (off + j) % 512 = off % 512 + j := by omega
  rw [byteAt, hdiv, hmod]

/-- What `readi` returns. -/
def readOf (blk : Nat → Block) (d : Dinode) (off n : Nat) : Option (List Byte) :=
  if d.type = .dev then none
  else if d.size < off ∨ 2 ^ 32 ≤ off + n then none
  else some (contents blk d off (min n (d.size - off)))

/-! ## 2. Reading an inode without holes -/

variable {sb : Super} {i : Inum} {p : Pid} {s : State} {E : Panic → State → Prop}

@[simp] theorem wp_copy (i : Inum) (Q : Dinode → State → Prop) :
    (copy i).wp E Q p s ↔ Q (s.icache i).din s := Iff.rfl

/-- The inode as `ilock` will show it. -/
def State.inode (s : State) (i : Inum) : Dinode :=
  if (s.icache i).valid then (s.icache i).din else s.dino i

/-- The state after `ilock`. -/
def State.locked (i : Inum) (s : State) : State :=
  s.setInode i { s.icache i with busy := true, valid := true, din := s.inode i }

/-- `ilock` waits for the lock, and shows the inode. -/
theorem wp_ilock {Q : Unit → State → Prop} :
    (ilock i).wp E Q p s ↔ ((s.icache i).ref < 1 → E .ilock s) ∧
      (¬(s.icache i).ref < 1 → (s.icache i).busy = false →
        if (s.icache i).valid = false ∧ (s.dino i).type = .free then E .ilockNoType (s.locked i)
        else Q () (s.locked i)) := by
  simp only [ilock, Code.wp_bind, Code.wp_gets, Code.wp_panicIf, Code.wp_await, Code.wp_modify,
    Code.wp_when, wp_copy, State.setInode, Function.update_self, Function.update_idem,
    Bool.not_eq_true']
  refine and_congr_right fun _ => imp_congr_right fun _ => imp_congr_right fun _ => ?_
  cases hv : (s.icache i).valid with
  | true =>
    have hl : s.locked i = s.setInode i { s.icache i with busy := true } := by
      simp only [State.locked, State.inode, hv, if_true]
    simp [hl, State.setInode, hv]
  | false =>
    have hl : s.locked i =
        s.setInode i { s.icache i with busy := true, valid := true, din := s.dino i } := by
      simp only [State.locked, State.inode, hv, Bool.false_eq_true, if_false]
    by_cases ht : (s.dino i).type = .free <;> simp [hl, State.setInode, ht]

theorem ends_ilock {Q : Unit → State → Prop} (href : 0 < (s.icache i).ref)
    (hbusy : (s.icache i).busy = false) (htype : (s.inode i).type ≠ .free)
    (hQ : Q () (s.locked i)) : (ilock i).ends Q p s := by
  simp only [ilock, copy, Code.ends_bind, Code.ends_gets, Code.ends_panicIf, Code.ends_await,
    Code.ends_modify, Code.ends_when, State.setInode, Function.update_self, Function.update_idem]
  refine ⟨by omega, by rw [hbusy]; rfl, fun hv => ⟨?_, ?_⟩, fun hv => ?_⟩
  · rwa [State.inode, hv] at htype
  · rwa [State.locked, State.inode, hv] at hQ
  · rw [Bool.not_eq_false] at hv
    rw [State.locked, State.inode, hv] at hQ
    rwa [hv]

theorem ends_iunlock {Q : Unit → State → Prop} (href : 0 < (s.icache i).ref)
    (hbusy : (s.icache i).busy = true)
    (hQ : Q () (s.setInode i { s.icache i with busy := false })) : (iunlock i).ends Q p s := by
  simp only [iunlock, Code.ends_bind, Code.ends_gets, Code.ends_panicIf, Code.ends_modify, hbusy]
  exact ⟨by simp; omega, hQ⟩

/-- `iget` starts an entry for an inode that is not in the cache. -/
theorem ends_iget_fresh {Q : Unit → State → Prop} (href : (s.icache i).ref = 0)
    (huse : s.inUse < ninode)
    (hQ : Q () { s.setInode i { s.icache i with ref := 1, busy := false, valid := false } with
      inUse := s.inUse + 1 }) : (iget i).ends Q p s := by
  simp only [iget, Code.ends_bind, Code.ends_gets, Code.ends_ite, Code.ends_panicIf,
    Code.ends_modify]
  exact ⟨fun h => by omega, fun _ => ⟨by omega, hQ⟩⟩

/-- An `iput` would free the inode: this is the last reference to it, and it has no links. -/
def State.LastPut (s : State) (i : Inum) : Prop :=
  (s.icache i).ref = 1 ∧ (s.icache i).valid = true ∧ (s.icache i).din.nlink = 0

instance (s : State) (i : Inum) : Decidable (s.LastPut i) :=
  inferInstanceAs (Decidable (_ ∧ _ ∧ _))

/-- `bmap` finds an allocated block. -/
theorem ends_bmap_of_ne_zero {bn : Nat} {Q : Nat → State → Prop} (hbn : bn < 140)
    (h : blockAt s.blk (s.icache i).din bn ≠ 0) (hQ : Q (blockAt s.blk (s.icache i).din bn) s) :
    (bmap sb i bn).ends Q p s := by
  unfold blockAt at h hQ
  unfold bmap
  by_cases h12 : bn < 12
  · rw [dif_pos h12] at h hQ ⊢
    simp only [bmapSlot, copy, Code.ends_bind, Code.ends_gets, Code.ends_ite, Code.ends_pure]
    exact ⟨fun _ => hQ, fun hz => absurd (not_not.mp hz) h⟩
  · rw [dif_neg h12] at h hQ ⊢
    split at h
    · exact absurd rfl h
    · rename_i ha
      rw [if_neg ha] at hQ
      simp only [bmapSlot, copy, Code.ends_bind, Code.ends_ite, Code.ends_pure, Code.ends_gets]
      exact ⟨fun _ => ⟨fun _ => ⟨fun _ => hQ, fun hz => absurd (not_not.mp hz) h⟩,
        fun hz => absurd (not_not.mp hz) ha⟩, fun hlt => absurd (by omega) hlt⟩

theorem wp_bmap_of_ne_zero {bn : Nat} {Q : Nat → State → Prop} (hbn : bn < 140)
    (h : blockAt s.blk (s.icache i).din bn ≠ 0) (hQ : Q (blockAt s.blk (s.icache i).din bn) s) :
    (bmap sb i bn).wp E Q p s := Code.wp_of_ends (ends_bmap_of_ne_zero hbn h hQ)

/-- The loop of `readi` ends, and returns the contents, if the blocks up to `top` are there. -/
theorem ends_readLoop {top : Nat} (htop : top ≤ 140 * 512)
    (hb : ∀ bn, 512 * bn < top → blockAt s.blk (s.icache i).din bn ≠ 0) :
    ∀ (rounds off rem : Nat) (Q : List Byte → State → Prop), rem ≤ rounds → off + rem ≤ top →
      Q (contents s.blk (s.icache i).din off rem) s → (readLoop sb i rounds off rem).ends Q p s
  | 0, _, rem, _, hr, _, hQ => by
    obtain rfl : rem = 0 := by omega
    exact hQ
  | rounds + 1, off, rem, Q, hr, hsz, hQ => by
    unfold readLoop
    split
    · rename_i h
      subst h
      exact hQ
    · simp only [Code.ends_bind]
      refine ends_bmap_of_ne_zero (by omega) (hb _ (by omega)) ?_
      rw [Code.ends_gets]
      refine ends_readLoop htop hb rounds _ _ _ (by omega) (by omega) ?_
      rw [Code.ends_pure, ← contents_eq_field _ _ (by omega), ← contents_add,
        Nat.add_sub_cancel' (Nat.min_le_left _ _)]
      exact hQ

/-- `readi` below `top`. -/
theorem ends_readi_below {top off n : Nat} {Q : Option (List Byte) → State → Prop}
    (htop : top ≤ 140 * 512) (hb : ∀ bn, 512 * bn < top → blockAt s.blk (s.icache i).din bn ≠ 0)
    (hoff : off ≤ (s.icache i).din.size → off + min n ((s.icache i).din.size - off) ≤ top)
    (hQ : Q (readOf s.blk (s.icache i).din off n) s) : (readi sb i off n).ends Q p s := by
  unfold readOf at hQ
  simp only [readi, copy, Code.ends_bind, Code.ends_gets, Code.ends_ite, Code.ends_pure]
  refine ⟨fun h => by rwa [if_pos h] at hQ, fun h => ?_⟩
  rw [if_neg h] at hQ
  refine ⟨fun h => by rwa [if_pos h] at hQ, fun h => ?_⟩
  rw [if_neg h] at hQ
  exact ends_readLoop htop hb _ _ _ _ (Nat.le_refl _) (hoff (by omega)) hQ

/-- The first `top` bytes of a file or directory can be read: their blocks are there. -/
structure Backed (blk : Nat → Block) (d : Dinode) (top : Nat) : Prop where
  small : top ≤ 140 * 512
  size : top ≤ d.size
  type : d.type ≠ .dev
  block : ∀ bn, 512 * bn < top → blockAt blk d bn ≠ 0

/-- One round of `scan`. -/
theorem ends_scan_round {top off : Nat} {test : List Byte → Bool} {err : Panic} {rest : List Nat}
    {Q : Option (Nat × List Byte) → State → Prop} (hb : Backed s.blk (s.icache i).din top)
    (hoff : off + 16 ≤ top)
    (hQ : (if test (contents s.blk (s.icache i).din off 16) then
        pure (some (off, contents s.blk (s.icache i).din off 16))
      else scan sb i test err rest : K _).ends Q p s) :
    (scan sb i test err (off :: rest)).ends Q p s := by
  have hsize := hb.size
  have hsmall := hb.small
  have hread : readOf s.blk (s.icache i).din off 16 =
      some (contents s.blk (s.icache i).din off 16) := by
    rw [readOf, if_neg hb.type, if_neg (by omega), Nat.min_eq_left (by omega)]
  simp only [scan, Code.ends_bind]
  refine ends_readi_below hb.small hb.block (fun _ => by omega) ?_
  rw [hread]
  simp only [length_contents, ne_eq, not_true_eq_false, if_false]
  exact hQ

/-- `scan` goes past the entries that do not pass the test.  What is behind the first one that does
need not be there. -/
theorem ends_scan_skip {top : Nat} {test : List Byte → Bool} {err : Panic} {rest : List Nat}
    {Q : Option (Nat × List Byte) → State → Prop} (hb : Backed s.blk (s.icache i).din top)
    (before : List Nat) (hbefore : ∀ off ∈ before, off + 16 ≤ top ∧
      test (contents s.blk (s.icache i).din off 16) = false)
    (hQ : (scan sb i test err rest).ends Q p s) :
    (scan sb i test err (before ++ rest)).ends Q p s := by
  induction before with
  | nil => exact hQ
  | cons off before ih =>
    obtain ⟨hoff, hfalse⟩ := hbefore off List.mem_cons_self
    refine ends_scan_round hb hoff ?_
    rw [hfalse]
    exact ih fun o ho => hbefore o (List.mem_cons_of_mem _ ho)

theorem ends_scan_found {top off : Nat} {test : List Byte → Bool} {err : Panic} {rest : List Nat}
    {Q : Option (Nat × List Byte) → State → Prop} (hb : Backed s.blk (s.icache i).din top)
    (hoff : off + 16 ≤ top) (htest : test (contents s.blk (s.icache i).din off 16) = true)
    (hQ : Q (some (off, contents s.blk (s.icache i).din off 16)) s) :
    (scan sb i test err (off :: rest)).ends Q p s := by
  refine ends_scan_round hb hoff ?_
  rw [htest]
  exact hQ

/-- A round of `bmap` in a read: it finds the block, or is out of range. -/
theorem wp_bmap_of_noHole {off : Nat} {Q : Nat → State → Prop}
    (hn : NoHole s.blk (s.icache i).din) (hoff : off < (s.icache i).din.size)
    (hE : E .bmapOutOfRange s) (hQ : Q (blockAt s.blk (s.icache i).din (off / 512)) s) :
    (bmap sb i (off / 512)).wp E Q p s := by
  by_cases hbn : off / 512 < 140
  · exact wp_bmap_of_ne_zero hbn (hn _ hbn (by omega)) hQ
  · unfold bmap
    rw [dif_neg (by omega), if_neg (by omega)]
    exact hE

/-- The loop of `readi` returns the contents. -/
theorem wp_readLoop (hn : NoHole s.blk (s.icache i).din) (hE : E .bmapOutOfRange s) :
    ∀ (rounds off rem : Nat) (Q : List Byte → State → Prop), rem ≤ rounds →
      off + rem ≤ (s.icache i).din.size → Q (contents s.blk (s.icache i).din off rem) s →
      (readLoop sb i rounds off rem).wp E Q p s
  | 0, off, rem, Q, hr, _, hQ => by
    have : rem = 0 := by omega
    subst this
    exact hQ
  | rounds + 1, off, rem, Q, hr, hsz, hQ => by
    unfold readLoop
    split
    · rename_i h
      subst h
      exact hQ
    · rename_i hrem
      simp only [Code.wp_bind]
      refine wp_bmap_of_noHole hn (by omega) hE ?_
      simp only [Code.wp_gets]
      refine wp_readLoop hn hE rounds _ _ _ (by omega) (by omega) ?_
      simp only [Code.wp_pure]
      rw [← contents_eq_field _ _ (by omega), ← contents_add]
      rwa [Nat.add_sub_cancel' (Nat.min_le_left _ _)]

/-- **`readi` on an inode without holes** changes nothing and returns the contents. -/
theorem wp_readi {off n : Nat} {Q : Option (List Byte) → State → Prop}
    (hn : NoHole s.blk (s.icache i).din) (hE : E .bmapOutOfRange s)
    (hQ : Q (readOf s.blk (s.icache i).din off n) s) : (readi sb i off n).wp E Q p s := by
  unfold readOf at hQ
  simp only [readi, Code.wp_bind, wp_copy, Code.wp_ite, Code.wp_pure]
  refine ⟨fun h => by rwa [if_pos h] at hQ, fun h => ?_⟩
  rw [if_neg h] at hQ
  refine ⟨fun h => by rwa [if_pos h] at hQ, fun h => ?_⟩
  rw [if_neg h] at hQ
  exact wp_readLoop hn hE _ _ _ _ (Nat.le_refl _) (by omega) hQ

/-- **`scan` on an inode without holes** changes nothing and finds the first entry that passes
the test. -/
theorem wp_scan {test : List Byte → Bool} {err : Panic} (hn : NoHole s.blk (s.icache i).din)
    (hE : E .bmapOutOfRange s) (herr : E err s) :
    ∀ (offs : List Nat) (Q : Option (Nat × List Byte) → State → Prop),
      Q ((offs.find? fun off => test (contents s.blk (s.icache i).din off 16)).map fun off =>
        (off, contents s.blk (s.icache i).din off 16)) s →
      (scan sb i test err offs).wp E Q p s
  | [], _, hQ => hQ
  | off :: offs, Q, hQ => by
    simp only [scan, Code.wp_bind]
    refine wp_readi hn hE ?_
    cases hr : readOf s.blk (s.icache i).din off 16 with
    | none => exact herr
    | some de =>
      simp only [Code.wp_ite, Code.wp_panic, Code.wp_pure]
      refine ⟨fun _ => herr, fun hlen => ?_⟩
      -- all 16 bytes were there
      have hde : de = contents s.blk (s.icache i).din off 16 := by
        unfold readOf at hr
        split at hr
        · cases hr
        · split at hr
          · cases hr
          · cases hr
            have h16 := not_not.mp hlen
            rw [length_contents] at h16
            rw [h16]
      subst hde
      rw [List.find?_cons] at hQ
      refine ⟨fun ht => ?_, fun ht => ?_⟩
      · rw [ht] at hQ
        exact hQ
      · rw [Bool.not_eq_true] at ht
        rw [ht] at hQ
        exact wp_scan hn hE herr offs Q hQ

/-- The first entry of a directory with a given name: its offset and its bytes. -/
def findName (blk : Nat → Block) (d : Dinode) (name : List Byte) : Option (Nat × List Byte) :=
  ((offsets 0 d.size).find? fun off => deInum (contents blk d off 16) ≠ 0 &&
    nameEq name (deName (contents blk d off 16))).map fun off => (off, contents blk d off 16)

/-- **`dirlookup` on a directory without holes** finds the first entry with the name and takes a
reference to its inode. -/
theorem wp_dirlookup {name : List Byte} {Q : Option (Inum × Nat) → State → Prop}
    (hn : NoHole s.blk (s.icache i).din) (hE : E .bmapOutOfRange s) (herr : E .dirlinkRead s)
    (hdir : (s.icache i).din.type ≠ .dir → E .dirlookupNotDir s)
    (hnone : findName s.blk (s.icache i).din name = none → Q none s)
    (hsome : ∀ off de, findName s.blk (s.icache i).din name = some (off, de) →
      (iget (deInum de)).wp E (fun _ t => Q (some (deInum de, off)) t) p s) :
    (dirlookup sb i name).wp E Q p s := by
  simp only [dirlookup, Code.wp_bind, wp_copy, Code.wp_panicIf]
  refine ⟨hdir, fun _ => wp_scan hn hE herr _ _ ?_⟩
  rw [← findName]
  cases hf : findName s.blk (s.icache i).din name with
  | none => exact hnone hf
  | some e =>
    simp only [Code.wp_bind, Code.wp_pure]
    exact hsome e.1 e.2 hf

end Xv6.Fs
