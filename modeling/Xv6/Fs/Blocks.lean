/-
# The blocks that inodes name, and the bitmap

A block is named by a place: a slot of an inode's `addrs`, or an entry of its indirect block.  The
invariant is that the bitmap agrees with what the places name, on the data blocks, and that no
inode has a hole.  It is about the inodes ON DISK; while `writei` or `itrunc` works on an inode its
copy in memory is ahead of the disk, and then the invariant holds with that copy in the place of
the inode (`Dirty`).

`balloc` hands out the first block whose bit is clear, and the bits of the log's blocks are clear
on a disk from mkfs.  So everything below is about states in which it has handed out data blocks
only (`Lawful`): the specifications of this file and the next promise nothing otherwise.
-/
import Xv6.Allocation
import Xv6.Fs.Frame

namespace Xv6.Fs

open Xv6.Bytes Xv6.Threads Xv6.Allocation

/-! ## 1. Places and what they name -/

/-- Where an inode names a block. -/
inductive Place where
  | slot (n : Fin 13)
  | via (j : Fin 128)
deriving DecidableEq

/-- The block named at a place of an inode; 0 if none is. -/
def named (blk : Nat → Block) (d : Dinode) : Place → Nat
  | .slot n => d.addrs n
  | .via j => if d.addrs 12 = 0 then 0 else ptr (blk (d.addrs 12)) j

/-- A block number, where 0 stands for none. -/
def nonzero (b : Nat) : Option Nat := if b = 0 then none else some b

@[simp] theorem nonzero_zero : nonzero 0 = none := rfl

theorem nonzero_of_ne {b : Nat} (h : b ≠ 0) : nonzero b = some b := if_neg h

theorem nonzero_eq_some {b c : Nat} : nonzero b = some c ↔ b = c ∧ c ≠ 0 := by
  unfold nonzero
  split
  · simp_all
  · simp only [Option.some.injEq]
    constructor
    · rintro rfl
      exact ⟨rfl, by assumption⟩
    · exact fun h => h.1

/-- What the places of all the inodes in a table name. -/
def refs (T : Inum → Dinode) (blk : Nat → Block) (x : Inum × Place) : Option Nat :=
  if (T x.1).type = .free then none else nonzero (named blk (T x.1) x.2)

variable {T : Inum → Dinode} {blk : Nat → Block} {i : Inum} {b : Nat}

theorem refs_of_allocated (ht : (T i).type ≠ .free) (pl : Place) :
    refs T blk (i, pl) = nonzero (named blk (T i) pl) := if_neg ht

theorem refs_eq_some {pl : Place} (ht : (T i).type ≠ .free) (hb : named blk (T i) pl = b)
    (h0 : b ≠ 0) : refs T blk (i, pl) = some b := by
  rw [refs_of_allocated ht, nonzero_eq_some]
  exact ⟨hb, h0⟩

/-- An allocated inode whose indirect block is `b` names `b`. -/
theorem indirect_ne_of_fresh (hfresh : ∀ x, refs T blk x ≠ some b) (hb : b ≠ 0)
    (ht : (T i).type ≠ .free) : (T i).addrs 12 ≠ b :=
  fun h => hfresh (i, .slot 12) (refs_eq_some ht h hb)

/-- `named` looks at one block only. -/
theorem named_congr {blk' : Nat → Block} {d : Dinode} (h : blk' (d.addrs 12) = blk (d.addrs 12))
    (pl : Place) : named blk' d pl = named blk d pl := by
  cases pl with
  | slot n => rfl
  | via j => simp only [named, h]

/-- A change of blocks that are no inode's indirect block changes nothing. -/
theorem refs_congr_blk {blk' : Nat → Block}
    (h : ∀ j, (T j).type ≠ .free → blk' ((T j).addrs 12) = blk ((T j).addrs 12)) :
    refs T blk' = refs T blk := by
  funext ⟨j, pl⟩
  simp only [refs]
  split
  · rfl
  · rename_i ht
    rw [named_congr (h j ht)]

/-- The table with another inode for `i`, as far as other inodes are concerned. -/
theorem refs_update_of_ne {d : Dinode} {j : Inum} (hj : j ≠ i) (pl : Place) :
    refs (Function.update T i d) blk (j, pl) = refs T blk (j, pl) := by
  simp only [refs, Function.update_of_ne hj]

/-! ## 2. Changes of what the places name -/

theorem ptr_zeroBlock (n : Nat) : ptr zeroBlock n = 0 := by
  have : field zeroBlock (4 * n) 4 = [0, 0, 0, 0] := by
    simp [field, Bytes.get, zeroBlock, List.range_succ]
  rw [ptr, this]
  rfl

/-- **A slot gets a fresh block.** -/
theorem refs_slot {n : Fin 13} (ht : (T i).type ≠ .free) (hn : (T i).addrs n = 0) (hb : b ≠ 0)
    (hfresh : ∀ x, refs T blk x ≠ some b) :
    refs (Function.update T i { T i with addrs := Function.update (T i).addrs n b })
      (Function.update blk b zeroBlock) =
      Function.update (refs T blk) (i, .slot n) (some b) := by
  -- nobody's indirect block is `b`
  have hne : ∀ j, (T j).type ≠ .free →
      Function.update blk b zeroBlock ((T j).addrs 12) = blk ((T j).addrs 12) := fun j hj =>
    Function.update_of_ne (indirect_ne_of_fresh hfresh hb hj) ..
  funext ⟨j, pl⟩
  rcases eq_or_ne j i with rfl | hj
  · have hal : (Function.update T j { T j with addrs := Function.update (T j).addrs n b } j).type ≠
        .free := by rwa [Function.update_self]
    rw [refs_of_allocated hal, Function.update_self]
    cases pl with
    | slot m =>
      rcases eq_or_ne m n with rfl | hm
      · rw [Function.update_self]
        simp [named, nonzero_of_ne hb]
      · have hp : (j, Place.slot m) ≠ (j, Place.slot n) := by simpa using hm
        rw [Function.update_of_ne hp, refs_of_allocated ht]
        simp [named, Function.update_of_ne hm]
    | via k =>
      rw [Function.update_of_ne (by simp), refs_of_allocated ht]
      rcases eq_or_ne 12 n with rfl | h12
      · -- the new indirect block is empty
        simp [named, hn, hb, ptr_zeroBlock]
      · simp only [named, Function.update_of_ne h12]
        rw [hne j ht]
  · have hp : (j, pl) ≠ (i, Place.slot n) := fun h => hj (congrArg Prod.fst h)
    rw [refs_update_of_ne hj, Function.update_of_ne hp, refs_congr_blk hne]

/-- **An entry of an indirect block gets a fresh block.** -/
theorem refs_via {a : Nat} {k : Fin 128} (ht : (T i).type ≠ .free) (ha : (T i).addrs 12 = a)
    (ha0 : a ≠ 0) (hk : ptr (blk a) k = 0) (hb : b ≠ 0) (hlt : b < 2 ^ 32)
    (hfresh : ∀ x, refs T blk x ≠ some b)
    (honce : ∀ j, (T j).type ≠ .free → (T j).addrs 12 = a → j = i) :
    refs T (Function.update (Function.update blk b zeroBlock) a (setPtr (blk a) k b)) =
      Function.update (refs T blk) (i, .via k) (some b) := by
  have hab : a ≠ b := ha ▸ indirect_ne_of_fresh hfresh hb ht
  funext ⟨j, pl⟩
  by_cases hj : (T j).type = .free
  · -- a free inode names nothing before and after
    have hji : (j, pl) ≠ (i, Place.via k) := by
      intro h
      cases h
      exact ht hj
    rw [Function.update_of_ne hji]
    simp [refs, hj]
  · rw [refs_of_allocated hj]
    rcases eq_or_ne j i with rfl | hji
    · cases pl with
      | slot m =>
        rw [Function.update_of_ne (by simp), refs_of_allocated ht]
        rfl
      | via m =>
        rcases eq_or_ne m k with rfl | hm
        · rw [Function.update_self]
          simp only [named, ha, ha0, if_false, Function.update_self]
          rw [ptr_setPtr_self _ m.isLt hlt, nonzero_of_ne hb]
        · have hp : (j, Place.via m) ≠ (j, Place.via k) := by simpa using hm
          rw [Function.update_of_ne hp, refs_of_allocated ht]
          simp only [named, ha, ha0, if_false, Function.update_self]
          rw [ptr_setPtr_of_ne _ m.isLt (fun h => hm (Fin.ext h))]
    · have hp : (j, pl) ≠ (i, Place.via k) := fun h => hji (congrArg Prod.fst h)
      rw [Function.update_of_ne hp, refs_of_allocated hj]
      have h1 : (T j).addrs 12 ≠ a := fun h => hji (honce j hj h)
      have h2 : (T j).addrs 12 ≠ b := indirect_ne_of_fresh hfresh hb hj
      rw [named_congr]
      rw [Function.update_of_ne h1, Function.update_of_ne h2]

/-- **A direct slot gives its block up.** -/
theorem refs_unslot {n : Fin 13} (hn : n ≠ 12) :
    refs (Function.update T i { T i with addrs := Function.update (T i).addrs n 0 }) blk =
      Function.update (refs T blk) (i, .slot n) none := by
  funext ⟨j, pl⟩
  rcases eq_or_ne j i with rfl | hj
  · cases pl with
    | slot m =>
      rcases eq_or_ne m n with rfl | hm
      · simp [refs, named]
      · have hp : (j, Place.slot m) ≠ (j, Place.slot n) := by simpa using hm
        rw [Function.update_of_ne hp]
        simp [refs, named, Function.update_of_ne hm]
    | via k =>
      rw [Function.update_of_ne (by simp)]
      simp [refs, named, Function.update_of_ne (Ne.symm hn)]
  · have hp : (j, pl) ≠ (i, Place.slot n) := fun h => hj (congrArg Prod.fst h)
    rw [refs_update_of_ne hj, Function.update_of_ne hp]

/-- One of the first `k` entries of an indirect block. -/
def Place.viaBelow (k : Nat) : Place → Bool
  | .slot _ => false
  | .via j => j.val < k

/-- Without the first `k` entries of the indirect block of `i`. -/
def mask (i : Inum) (k : Nat) (R : Inum × Place → Option Nat) (x : Inum × Place) : Option Nat :=
  if x.1 = i ∧ x.2.viaBelow k = true then none else R x

theorem mask_zero (i : Inum) (R : Inum × Place → Option Nat) : mask i 0 R = R := by
  funext ⟨j, pl⟩
  cases pl <;> simp [mask, Place.viaBelow]

theorem mask_succ (i : Inum) (R : Inum × Place → Option Nat) (k : Fin 128) :
    mask i (k + 1) R = Function.update (mask i k R) (i, .via k) none := by
  funext ⟨j, pl⟩
  cases pl with
  | slot m => rw [Function.update_of_ne (by simp)]; simp [mask, Place.viaBelow]
  | via m =>
    by_cases h : (j, Place.via m) = (i, Place.via k)
    · rw [h, Function.update_self]
      simp [mask, Place.viaBelow]
    · rw [Function.update_of_ne h]
      have hmk : j = i → m.val ≠ k.val := by
        rintro rfl hm
        exact h (by rw [Fin.ext hm])
      simp only [mask, Place.viaBelow, decide_eq_true_eq]
      by_cases hj : j = i
      · have := hmk hj
        by_cases hlt : m.val < k.val
        · simp [hj, hlt, Nat.lt_succ_of_lt hlt]
        · have : ¬m.val < k.val + 1 := by omega
          simp [hlt, this]
      · simp [hj]

theorem mask_via_self (i : Inum) (R : Inum × Place → Option Nat) (k : Fin 128) :
    mask i k R (i, .via k) = R (i, .via k) := by
  simp [mask, Place.viaBelow]

/-- **The indirect block is given up**, after all of its entries. -/
theorem refs_unslot_indirect :
    refs (Function.update T i { T i with addrs := Function.update (T i).addrs 12 0 }) blk =
      Function.update (mask i 128 (refs T blk)) (i, .slot 12) none := by
  funext ⟨j, pl⟩
  rcases eq_or_ne j i with rfl | hj
  · cases pl with
    | slot m =>
      rcases eq_or_ne m 12 with rfl | hm
      · simp [refs, named]
      · have hp : (j, Place.slot m) ≠ (j, Place.slot 12) := by simpa using hm
        rw [Function.update_of_ne hp]
        simp [refs, named, mask, Place.viaBelow, Function.update_of_ne hm]
    | via k =>
      rw [Function.update_of_ne (by simp)]
      simp [refs, named, mask, Place.viaBelow, k.isLt]
  · have hp : (j, pl) ≠ (i, Place.slot 12) := fun h => hj (congrArg Prod.fst h)
    rw [refs_update_of_ne hj, Function.update_of_ne hp]
    simp [mask, hj]

/-- An inode that is free, or names nothing, can be replaced by one that does the same. -/
theorem refs_update_empty {d : Dinode} (h : (T i).type = .free ∨ ∀ n, (T i).addrs n = 0)
    (h' : d.type = .free ∨ ∀ n, d.addrs n = 0) : refs (Function.update T i d) blk = refs T blk := by
  have key : ∀ (U : Inum → Dinode) (pl : Place),
      (U i).type = .free ∨ (∀ n, (U i).addrs n = 0) → refs U blk (i, pl) = none := by
    intro U pl hU
    rcases hU with hU | hU
    · simp [refs, hU]
    · cases pl <;> simp [refs, named, hU]
  funext ⟨j, pl⟩
  rcases eq_or_ne j i with rfl | hj
  · rw [key T pl h, key _ pl (by rwa [Function.update_self])]
  · exact refs_update_of_ne hj pl

/-- The references depend on the types and the slots only. -/
theorem refs_update_of_same {d : Dinode} (ht : d.type = (T i).type) (ha : d.addrs = (T i).addrs) :
    refs (Function.update T i d) blk = refs T blk := by
  funext ⟨j, pl⟩
  rcases eq_or_ne j i with rfl | hj
  · simp only [refs, Function.update_self, ht]
    cases pl <;> simp [named, ha]
  · exact refs_update_of_ne hj pl

/-! ## 3. Places and block indices -/

/-- The place of a block index. -/
def placeOf (bn : Nat) : Place :=
  if h : bn < 12 then .slot ⟨bn, lt_of_direct h⟩
  else if h' : bn - 12 < 128 then .via ⟨bn - 12, h'⟩ else .slot 12

theorem named_placeOf {d : Dinode} {bn : Nat} (h : bn < 140) :
    named blk d (placeOf bn) = blockAt blk d bn := by
  unfold placeOf blockAt
  split
  · rfl
  · rw [dif_pos (by omega)]
    rfl

theorem placeOf_ne_indirect {bn : Nat} (h : bn < 140) : placeOf bn ≠ .slot 12 := by
  unfold placeOf
  split
  · intro hc
    simp only [Place.slot.injEq] at hc
    have := congrArg Fin.val hc
    simp at this
    omega
  · rw [dif_pos (by omega)]
    simp

theorem placeOf_inj {bn bn' : Nat} (h : bn < 140) (h' : bn' < 140)
    (he : placeOf bn = placeOf bn') : bn = bn' := by
  by_cases h1 : bn < 12 <;> by_cases h2 : bn' < 12
  · simpa [placeOf, h1, h2] using he
  · simp [placeOf, h1, h2, show bn' - 12 < 128 by omega] at he
  · simp [placeOf, h1, h2, show bn - 12 < 128 by omega] at he
  · simp [placeOf, h1, h2, show bn - 12 < 128 by omega, show bn' - 12 < 128 by omega] at he
    omega

/-- An inode of a possible size, without holes. -/
def Full (blk : Nat → Block) (d : Dinode) : Prop := d.size ≤ 140 * 512 ∧ NoHole blk d

/-- An inode whose places keep their blocks stays without holes. -/
theorem Full.of_named {blk' : Nat → Block} {d : Dinode} (h : Full blk d)
    (hk : ∀ pl, named blk d pl ≠ 0 → named blk' d pl = named blk d pl) : Full blk' d := by
  refine ⟨h.1, fun bn hbn hsz => ?_⟩
  have hne := h.2 bn hbn hsz
  rw [← named_placeOf hbn] at hne ⊢
  rwa [hk _ hne]

/-! ## 4. The invariant -/

/-- `balloc` has handed out only blocks of `D`: the data blocks, as a rule. -/
def Lawful (D : Nat → Prop) (s : State) : Prop := ∀ b ∈ s.handed, D b

instance (D : Nat → Prop) [DecidablePred D] (s : State) : Decidable (Lawful D s) :=
  inferInstanceAs (Decidable (∀ b ∈ s.handed, D b))

/-- **The bitmap agrees with the references, and no inode has a hole**; and the copies in the
inode cache are those on disk. -/
structure Clean (D : Nat → Prop) (s : State) : Prop where
  agrees : Agrees D (refs s.dino s.blk) s.bit
  full : ∀ i, (s.dino i).type ≠ .free → Full s.blk (s.dino i)
  coherent : ∀ i, (s.icache i).valid = true →
    (s.icache i).din = s.dino i ∧ (s.dino i).type ≠ .free

/-- The inodes on disk, except that `i` is as in the cache. -/
def State.table (i : Inum) (s : State) : Inum → Dinode := Function.update s.dino i (s.icache i).din

@[simp] theorem table_self (i : Inum) (s : State) : s.table i i = (s.icache i).din :=
  Function.update_self ..

theorem table_of_ne {i j : Inum} (s : State) (h : j ≠ i) : s.table i j = s.dino j :=
  Function.update_of_ne h ..

/-- What is known of all inodes but `i`, whose copy in the cache is ahead of the disk. -/
structure Ahead (i : Inum) (s : State) : Prop where
  full : ∀ j, j ≠ i → (s.dino j).type ≠ .free → Full s.blk (s.dino j)
  coherent : ∀ j, j ≠ i → (s.icache j).valid = true →
    (s.icache j).din = s.dino j ∧ (s.dino j).type ≠ .free
  valid : (s.icache i).valid = true
  allocated : (s.icache i).din.type ≠ .free

/-- The invariant while the copy of inode `i` in the cache is ahead of the disk. -/
structure Dirty (D : Nat → Prop) (i : Inum) (s : State) : Prop extends Ahead i s where
  agrees : Agrees D (refs (s.table i) s.blk) s.bit

variable {sb : Super} {D : Nat → Prop} {s t u : State} {p : Pid} {α : Type}

theorem Clean.table_eq (h : Clean D s) (hv : (s.icache i).valid = true) :
    s.table i = s.dino := by
  rw [State.table, (h.coherent i hv).1, Function.update_eq_self]

theorem Clean.dirty (h : Clean D s) (hv : (s.icache i).valid = true) : Dirty D i s where
  agrees := by
    rw [h.table_eq hv]
    exact h.agrees
  full j _ := h.full j
  coherent j _ := h.coherent j
  valid := hv
  allocated := by
    rw [(h.coherent i hv).1]
    exact (h.coherent i hv).2

/-- The invariant when the copy is on disk again. -/
theorem Dirty.clean (h : Dirty D i s) (hd : s.dino i = (s.icache i).din)
    (hf : Full s.blk (s.icache i).din) : Clean D s where
  agrees := by
    have : s.table i = s.dino := by rw [State.table, ← hd, Function.update_eq_self]
    rw [← this]
    exact h.agrees
  full j hj := by
    rcases eq_or_ne j i with rfl | hne
    · rwa [hd]
    · exact h.full j hne hj
  coherent j hj := by
    rcases eq_or_ne j i with rfl | hne
    · exact ⟨hd.symm, hd ▸ h.allocated⟩
    · exact h.coherent j hne hj

/-- Two places that name the same block are the same. -/
theorem named_once {bit : Nat → Bool} (h : Agrees D (refs T blk) bit)
    {i j : Inum} (pl pl' : Place) (hi : (T i).type ≠ .free) (hj : (T j).type ≠ .free)
    (hb : named blk (T i) pl ≠ 0) (he : named blk (T i) pl = named blk (T j) pl') :
    i = j ∧ pl = pl' := by
  have := h.once (i, pl) (j, pl') (named blk (T i) pl) (refs_eq_some hi rfl hb)
    (refs_eq_some hj he.symm hb)
  exact ⟨congrArg Prod.fst this, congrArg Prod.snd this⟩

theorem Super.Data.pos {b : Nat} (h : sb.Data b) : b ≠ 0 := by
  have := h.1
  unfold Super.dataStart at this
  omega

theorem Super.Data.lt {b : Nat} (h : sb.Data b) : b < 2 ^ 32 := by
  have h1 := h.2
  have h2 := sb.small
  unfold Super.dataStart at h1
  omega

/-! ## 5. Specifications -/

/-- A panic is not `x`, as long as `balloc` has handed out only blocks of `D`. -/
def Avoids (x : Panic) (D : Nat → Prop) (e : Panic) (s : State) : Prop := Lawful D s → e ≠ x

/-- A panic is not `freeing free block`, as long as `balloc` has handed out only blocks of
`D`. -/
abbrev NotFreed (D : Nat → Prop) (e : Panic) (s : State) : Prop := Avoids .freeingFreeBlock D e s

theorem notFreed {e : Panic} (he : e ≠ .freeingFreeBlock) (s : State) : NotFreed D e s :=
  fun _ => he

/-- `Pre` before and `Post` after the code, and never the panic `x`, where all are asked only if
`balloc` has handed out only blocks of `D`. -/
def SpecOf (x : Panic) (D : Nat → Prop) (p : Pid) (Pre : State → Prop) (m : K α)
    (Post : State → α → State → Prop) : Prop :=
  ∀ s, (Lawful D s → Pre s) →
    m.wp (Avoids x D) (fun a t => Lawful D t → Lawful D s ∧ Post s a t) p s

/-- The same for the panic `freeing free block`. -/
abbrev Spec (D : Nat → Prop) (p : Pid) (Pre : State → Prop) (m : K α)
    (Post : State → α → State → Prop) : Prop := SpecOf .freeingFreeBlock D p Pre m Post

/-- What has been handed out stays handed out. -/
theorem stubborn (D : Nat → Prop) :
    Basic (fun _ s => ¬Lawful D s) fun _ s => ¬Lawful D s where
  keep _ s t ht hs hl := hs fun b hb => hl b (ht.handed ▸ hb)
  write := by
    intro b p s hs
    simp only [logWrite, Code.wp_bind, Code.wp_self, Code.wp_gets, Code.wp_modify,
      Code.wp_panicIf]
    exact ⟨fun _ => hs, fun _ => ⟨fun _ => hs, fun _ => hs⟩⟩
  hand _ _ _ hs hl := hs fun b hb => hl b (List.mem_cons_of_mem _ hb)
  stop _ _ _ _ hs := hs

/-- A specification is proved for lawful states. -/
theorem SpecOf.intro {x : Panic} {Pre : State → Prop} {m : K α} {Post : State → α → State → Prop}
    (hm : m.Preserves (fun _ s => ¬Lawful D s) fun _ s => ¬Lawful D s)
    (h : ∀ s, Lawful D s → Pre s →
      m.wp (Avoids x D) (fun a t => Lawful D t → Post s a t) p s) : SpecOf x D p Pre m Post := by
  intro s hpre
  by_cases hl : Lawful D s
  · exact Code.wp_imp (h s hl (hpre hl)) fun a t ht hlt => ⟨hl, ht hlt⟩
  · exact Code.wp_mono (hm p s hl) (fun _ _ ht hlt => absurd hlt ht) fun _ _ ht hlt => absurd hlt ht

section Rules

variable {β : Type} {x : Panic} {Pre Pre' : State → Prop} {Post Post' : State → α → State → Prop}

theorem SpecOf.pure {a : α} (h : ∀ s, Pre s → Post s a s) : SpecOf x D p Pre (Pure.pure a) Post :=
  fun s hs hl => ⟨hl, h s (hs hl)⟩

theorem SpecOf.gets {f : State → α} (h : ∀ s, Pre s → Post s (f s) s) :
    SpecOf x D p Pre (Code.gets f) Post := fun s hs hl => ⟨hl, h s (hs hl)⟩

theorem SpecOf.modify {f : State → State} {Post : State → Unit → State → Prop}
    (hf : ∀ s, (f s).handed = s.handed) (h : ∀ s, Pre s → Post s () (f s)) :
    SpecOf x D p Pre (Code.modify f) Post := by
  intro s hs hl
  have hl' : Lawful D s := fun b hb => hl b (by rw [hf]; exact hb)
  exact ⟨hl', h s (hs hl')⟩

theorem SpecOf.panicIf {c : Prop} [Decidable c] {e : Panic} {Post : State → Unit → State → Prop}
    (he : e ≠ x) (h : ∀ s, Pre s → ¬c → Post s () s) :
    SpecOf x D p Pre (Code.panicIf c e) Post := by
  intro s hs
  rw [Code.wp_panicIf]
  exact ⟨fun _ => fun _ => he, fun hc hl => ⟨hl, h s (hs hl) hc⟩⟩

theorem SpecOf.ite {c : Prop} [Decidable c] {m m' : K α} (h : c → SpecOf x D p Pre m Post)
    (h' : ¬c → SpecOf x D p Pre m' Post) : SpecOf x D p Pre (if c then m else m') Post := by
  by_cases hc : c
  · rw [if_pos hc]
    exact h hc
  · rw [if_neg hc]
    exact h' hc

theorem SpecOf.when {c : Prop} [Decidable c] {m : K Unit} {Post : State → Unit → State → Prop}
    (h : c → SpecOf x D p Pre m Post) (h' : ¬c → ∀ s, Pre s → Post s () s) :
    SpecOf x D p Pre (Code.when c m) Post := SpecOf.ite h fun hc => SpecOf.pure (h' hc)

/-- Sequence.  The second half may use what was known at the start. -/
theorem SpecOf.bind {m : K α} {f : α → K β} {R : State → α → State → Prop}
    {Post : State → β → State → Prop} (hm : SpecOf x D p Pre m R)
    (hf : ∀ s a, SpecOf x D p (fun t => Pre s ∧ R s a t) (f a) fun _ b u => Post s b u) :
    SpecOf x D p Pre (m >>= f) Post := by
  intro s hs
  rw [Code.wp_bind]
  refine Code.wp_imp (hm s hs) fun a t ht => ?_
  refine Code.wp_imp (hf s a t fun hl => ⟨hs (ht hl).1, (ht hl).2⟩) fun b u hu hl => ?_
  exact ⟨(ht (hu hl).1).1, (hu hl).2⟩

/-- Sequence of programs that are run whole. -/
theorem SpecOf.wholeBind {m : P α} {f : α → P β} {R : State → α → State → Prop}
    {Post : State → β → State → Prop} (hm : SpecOf x D p Pre m.whole R)
    (hf : ∀ s a, SpecOf x D p (fun t => Pre s ∧ R s a t) (f a).whole fun _ b u => Post s b u) :
    SpecOf x D p Pre (m >>= f).whole Post := by
  intro s hs
  exact (Prog.wp_whole_bind m f).mpr ((Code.wp_bind m.whole (fun a => (f a).whole) _).mp
    (SpecOf.bind hm hf s hs))

theorem SpecOf.wholeAtomic {l : Label} {m : K α} (h : SpecOf x D p Pre m Post) :
    SpecOf x D p Pre (Prog.atomic l m).whole Post :=
  fun s hs => (Prog.wp_whole_atomic l m).mpr (h s hs)

theorem SpecOf.conseq {m : K α} (h : SpecOf x D p Pre m Post) (hpre : ∀ s, Pre' s → Pre s)
    (hpost : ∀ s a t, Pre' s → Post s a t → Post' s a t) : SpecOf x D p Pre' m Post' :=
  fun s hs => Code.wp_imp (h s fun hl => hpre s (hs hl)) fun a t ht hl =>
    ⟨(ht hl).1, hpost s a t (hs (ht hl).1) (ht hl).2⟩

/-- What else is known of the code, by other means. -/
theorem SpecOf.also {m : K α} {R : State → α → State → Prop}
    (hm : m.Preserves (fun _ s => ¬Lawful D s) fun _ s => ¬Lawful D s)
    (h : SpecOf x D p Pre m Post)
    (hR : ∀ s, Pre s → m.wp (fun _ _ => True) (fun a t => R s a t) p s) :
    SpecOf x D p Pre m fun s a t => Post s a t ∧ R s a t :=
  .intro hm fun s _ hs => Code.wp_imp (Code.wp_and (h s fun _ => hs) (hR s hs))
    fun _ _ ht hl => ⟨(ht.1 hl).2, ht.2⟩

theorem SpecOf.pre {m : K α} (h : SpecOf x D p Pre m Post) (hpre : ∀ s, Pre' s → Pre s) :
    SpecOf x D p Pre' m Post := h.conseq hpre fun _ _ _ _ h => h

/-- Only `Known` matters from here on. -/
theorem SpecOf.knowing {m : K α} (Known : State → Prop) (hknown : ∀ s, Pre s → Known s)
    (h : SpecOf x D p Known m Post) : SpecOf x D p Pre m Post := h.pre hknown

end Rules

/-- The state after `log_write` of sector `b`. -/
def State.logged (p : Pid) (b : Sector) (s : State) : State :=
  { s with calls := (p, s.owner) :: s.calls, sectors := s.absorb b }

theorem wp_logWrite {b : Sector} {Q : Unit → State → Prop} (hQ : Q () (s.logged p b)) :
    (logWrite b).wp (NotFreed D) Q p s := by
  simp only [logWrite, Code.wp_bind, Code.wp_self, Code.wp_gets, Code.wp_modify, Code.wp_panicIf]
  exact ⟨fun _ => notFreed (by decide) _, fun _ => ⟨fun _ => notFreed (by decide) _, fun _ => hQ⟩⟩

/-- The state after `balloc` has handed out `b`. -/
def State.given (p : Pid) (b : Nat) (s : State) : State :=
  { s with
    bit := Function.update s.bit b true
    blk := Function.update s.blk b zeroBlock
    sectors := (s.logged p (bblock b)).absorb (.block b)
    handed := b :: s.handed
    calls := (p, s.owner) :: (p, s.owner) :: s.calls }

/-- `balloc` hands out a block whose bit was clear. -/
theorem wp_balloc {Q : Nat → State → Prop} (hQ : ∀ b, s.bit b = false → Q b (s.given p b)) :
    (balloc sb).wp (NotFreed D) Q p s := by
  simp only [balloc, Code.wp_bind, Code.wp_gets]
  cases hf : s.firstFree sb with
  | none => exact notFreed (by decide) _
  | some b =>
    have hb : s.bit b = false := by
      have := List.find?_some hf
      simpa using this
    simp only [Code.wp_bind, Code.wp_modify, bzero, Code.wp_pure]
    exact wp_logWrite (wp_logWrite (hQ b hb))

/-- The state after `bfree` of `b`. -/
def State.freed (p : Pid) (b : Nat) (s : State) : State := (s.setBit b false).logged p (bblock b)

/-- `bfree` of a block whose bit is set. -/
theorem wp_bfree {Q : Unit → State → Prop} (hb : s.bit b = true) (hQ : Q () (s.freed p b)) :
    (bfree b).wp (NotFreed D) Q p s := by
  simp only [bfree, Code.wp_bind, Code.wp_gets, hb, if_true, Code.wp_modify]
  exact wp_logWrite hQ

end Xv6.Fs
