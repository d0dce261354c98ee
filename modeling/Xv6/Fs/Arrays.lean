/-
# Files are byte arrays (`readi`, `writei`)

The abstract file is a list of bytes.  A read is a slice of it, a write overwrites some of its bytes
and may make it longer, and both are refused when they start behind the end or when the offset and
the length together do not fit into 32 bits; a write also when it would go beyond MAXFILE blocks.

The disk spreads the list over direct blocks, an indirect block and blocks that `balloc` hands out
in the middle of a write.  Results: from every well-formed disk, every sequence of reads and writes
on any inodes ends and returns what it returns on the lists, and afterwards every inode's contents
are its list (`files_are_byte_arrays`).  This asks for two things: free blocks for what the writes
add, and a LOG that has room for each write.  The second one is needed, because a write of eight
blocks in one transaction panics (`long_write_overflows_log`).
-/
import Xv6.Fs.Room
import Xv6.Fs.Usage

namespace Xv6.Fs

open Xv6.Bytes Xv6.Threads Xv6.Allocation

/-! ## 1. Byte arrays -/

/-- A read of `n` bytes from `off` on. -/
def sliceOf (xs : List Byte) (off n : Nat) : Option (List Byte) :=
  if xs.length < off ∨ 2 ^ 32 ≤ off + n then none else some ((xs.drop off).take n)

/-- A write of `n` bytes from `off` on is refused. -/
def Refused (xs : List Byte) (off n : Nat) : Prop :=
  xs.length < off ∨ 2 ^ 32 ≤ off + n ∨ 140 * 512 < off + n

instance (xs : List Byte) (off n : Nat) : Decidable (Refused xs off n) :=
  inferInstanceAs (Decidable (_ ∨ _ ∨ _))

/-- The bytes from `off` on are overwritten with `src`. -/
def overwrite (xs : List Byte) (off : Nat) (src : List Byte) : List Byte :=
  xs.take off ++ src ++ xs.drop (off + src.length)

/-- What every inode contains. -/
abbrev Arrays := Inum → List Byte

/-- A call of `readi` or `writei`. -/
inductive Transfer where
  | read (i : Inum) (off n : Nat)
  | write (i : Inum) (off : Nat) (src : List Byte)

/-- What it returns; `none` is -1. -/
inductive Answer where
  | bytes (r : Option (List Byte))
  | count (r : Option Nat)
deriving DecidableEq

namespace Transfer

/-- The inode. -/
def inum : Transfer → Inum
  | .read i _ _ => i
  | .write i _ _ => i

/-- What the call returns on byte arrays. -/
def answer (A : Arrays) : Transfer → Answer
  | .read i off n => .bytes (sliceOf (A i) off n)
  | .write i off src => .count (if Refused (A i) off src.length then none else some src.length)

/-- What the call makes of them. -/
def next (A : Arrays) : Transfer → Arrays
  | .read _ _ _ => A
  | .write i off src =>
    if Refused (A i) off src.length then A else Function.update A i (overwrite (A i) off src)

/-- The blocks the call writes to. -/
def blocks (A : Arrays) : Transfer → Nat
  | .read _ _ _ => 0
  | .write i off src => if Refused (A i) off src.length then 0 else touched off src.length

/-- The blocks it may take from the disk: those, and an indirect block. -/
def cost (A : Arrays) (op : Transfer) : Nat := if op.blocks A = 0 then 0 else op.blocks A + 1

end Transfer

/-- The answers of a sequence of calls. -/
def answers : Arrays → List Transfer → List Answer
  | _, [] => []
  | A, op :: ops => op.answer A :: answers (op.next A) ops

/-- The arrays after a sequence of calls. -/
def final : Arrays → List Transfer → Arrays
  | A, [] => A
  | A, op :: ops => final (op.next A) ops

/-- What a sequence of calls may take from the disk. -/
def totalCost : Arrays → List Transfer → Nat
  | _, [] => 0
  | A, op :: ops => op.cost A + totalCost (op.next A) ops

/-- The log has room for each of the calls: for the blocks it writes to, the bitmap, the indirect
block and the inode. -/
def FitLog (sb : Super) : Arrays → List Transfer → Prop
  | _, [] => True
  | A, op :: ops =>
    (op.blocks A = 0 ∨ op.blocks A + (sb.size / 4096 + 1) + 2 ≤ min logsize (sb.nlog - 1)) ∧
      FitLog sb (op.next A) ops

instance decidableFitLog (sb : Super) : ∀ (A : Arrays) (ops : List Transfer),
    Decidable (FitLog sb A ops)
  | _, [] => isTrue trivial
  | A, op :: ops =>
    have := decidableFitLog sb (op.next A) ops
    inferInstanceAs (Decidable (_ ∧ _))

/-! ## 2. The calls -/

/-- One call; a write is a transaction of its own. -/
def transfer (sb : Super) : Transfer → K Answer
  | .read i off n => do
    let r ← readi sb i off n
    pure (.bytes r)
  | .write i off src => do
    let r ← (transaction .tx (writei sb i src off)).whole
    pure (.count r)

/-- One call after the other. -/
def transfers (sb : Super) : List Transfer → K (List Answer)
  | [] => pure []
  | op :: ops => do
    let a ← transfer sb op
    let as ← transfers sb ops
    pure (a :: as)

/-- What the inodes of a state contain. -/
def State.arrays (s : State) : Arrays := fun i => contents s.blk (s.dino i) 0 (s.dino i).size

/-- The inode is in the cache, and is not a device. -/
def Transfer.Allowed (s : State) (op : Transfer) : Prop :=
  (s.icache op.inum).valid = true ∧ (s.dino op.inum).type ≠ .dev

instance (s : State) (op : Transfer) : Decidable (op.Allowed s) :=
  inferInstanceAs (Decidable (_ ∧ _))

/-- **A well-formed disk** between transactions: referenced blocks are data blocks, marked in the
bitmap and referenced once, the blocks in front of the data are marked, no inode has a hole, and the
inodes in the cache are those on disk. -/
structure WellFormed (sb : Super) (s : State) : Prop where
  geometry : sb.dataStart + sb.nblocks ≤ sb.size
  data : ∀ x b, refs s.dino s.blk x = some b → sb.Data b
  marked : ∀ x b, refs s.dino s.blk x = some b → s.bit b = true
  distinct : ∀ x y b, refs s.dino s.blk x = some b → refs s.dino s.blk y = some b → x = y
  metadata : ∀ b, b < sb.dataStart → s.bit b = true
  full : ∀ i, (s.dino i).type ≠ .free → Full s.blk (s.dino i)
  coherent : ∀ i, (s.icache i).valid = true →
    (s.icache i).din = s.dino i ∧ (s.dino i).type ≠ .free
  logSize : s.logSize = sb.nlog
  idle : s.owner = none ∧ s.sectors = []
  handed : s.handed = []

/-! ## 3. Lists -/

variable {sb : Super} {D : Nat → Prop} {i : Inum} {p : Pid} {s t : State} {e : Nat} {A : Arrays}

theorem take_contents (blk : Nat → Block) (d : Dinode) (off m n : Nat) :
    (contents blk d off m).take n = contents blk d off (min n m) := by
  rw [contents, ← List.map_take, List.take_range, contents]

theorem drop_contents (blk : Nat → Block) (d : Dinode) {off m : Nat} (h : off ≤ m) :
    (contents blk d 0 m).drop off = contents blk d off (m - off) := by
  conv_lhs => rw [show m = off + (m - off) by omega, contents_add]
  rw [List.drop_left' (length_contents ..), Nat.zero_add]

/-- What `readi` returns is a slice of the contents. -/
theorem readOf_eq {blk : Nat → Block} {d : Dinode} (hd : d.type ≠ .dev) (off n : Nat) :
    readOf blk d off n = sliceOf (contents blk d 0 d.size) off n := by
  rw [readOf, if_neg hd, sliceOf, length_contents]
  split
  · rfl
  · rw [drop_contents blk d (by omega), take_contents]

theorem getElem?_contents (blk : Nat → Block) (d : Dinode) (m k : Nat) :
    (contents blk d 0 m)[k]? = if k < m then some (byteAt blk d k) else none := by
  by_cases hk : k < m
  · simp [contents, hk]
  · simp [contents, hk]

theorem getElem?_overwrite {xs : List Byte} {off : Nat} (hoff : off ≤ xs.length) (src : List Byte)
    (k : Nat) : (overwrite xs off src)[k]? =
      if off ≤ k ∧ k < off + src.length then src[k - off]? else xs[k]? := by
  have hlen : (xs.take off).length = off := List.length_take_of_le hoff
  rw [overwrite, List.append_assoc]
  rcases Nat.lt_or_ge k off with hk | hk
  · rw [if_neg (by omega), List.getElem?_append_left (by omega), List.getElem?_take_of_lt hk]
  · rw [List.getElem?_append_right (by omega), hlen]
    by_cases hin : k < off + src.length
    · rw [if_pos ⟨hk, hin⟩, List.getElem?_append_left (by omega)]
    · rw [if_neg (by omega), List.getElem?_append_right (by omega), List.getElem?_drop]
      congr 1
      omega

/-- What `writei` leaves is the contents, overwritten. -/
theorem contents_overwrite {blk blk' : Nat → Block} {d d' : Dinode} {off : Nat} {src : List Byte}
    (hoff : off ≤ d.size) (hsize : d'.size = max d.size (off + src.length))
    (h : ∀ k, k < d'.size → byteAt blk' d' k =
      if off ≤ k ∧ k < off + src.length then src.getD (k - off) 0 else byteAt blk d k) :
    contents blk' d' 0 d'.size = overwrite (contents blk d 0 d.size) off src := by
  apply List.ext_getElem?
  intro k
  rw [getElem?_overwrite (by rwa [length_contents]), getElem?_contents, getElem?_contents]
  by_cases hk : k < d'.size
  · rw [if_pos hk, h k hk]
    split
    · rename_i hin
      rw [List.getD_eq_getElem _ _ (by omega), List.getElem?_eq_getElem]
    · rw [if_pos (by omega)]
  · rw [if_neg hk, if_neg (by omega), if_neg (by omega)]

/-! ## 4. One call -/

theorem ends_readi {off n : Nat} {Q : Option (List Byte) → State → Prop}
    (hf : Full s.blk (s.icache i).din) (hQ : Q (readOf s.blk (s.icache i).din off n) s) :
    (readi sb i off n).ends Q p s := by
  have hsize := hf.1
  exact ends_readi_below hf.1 (fun bn hbn => hf.2 bn (by omega) hbn) (fun _ => by omega) hQ

/-- Between two calls: the disk is clean, what `balloc` hands out is a block of `D`, and no
transaction is open. -/
structure Ready (sb : Super) (D : Nat → Prop) (s : State) : Prop where
  clean : Clean D s
  alloc : Open sb D s
  owner : s.owner = none
  sectors : s.sectors = []

/-- The arrays are what the allocated inodes contain. -/
def Shows (s : State) (A : Arrays) : Prop := ∀ i, (s.dino i).type ≠ .free → A i = s.arrays i

/-- What a call leaves of the inodes. -/
structure Same (s t : State) : Prop where
  valid : ∀ i, (t.icache i).valid = (s.icache i).valid
  type : ∀ i, (t.dino i).type = (s.dino i).type

theorem Same.allowed (h : Same s t) {op : Transfer} (ho : op.Allowed s) : op.Allowed t :=
  ⟨(h.valid _).trans ho.1, by rw [h.type]; exact ho.2⟩

/-- What is known after a call. -/
def After (sb : Super) (D : Nat → Prop) (e : Nat) (A : Arrays) (s t : State) : Prop :=
  Ready sb D t ∧ Shows t A ∧ Same s t ∧ e ≤ (t.freeData sb).card

theorem ends_read {off n : Nat} (hr : Ready sb D s) (hA : Shows s A)
    (hop : (Transfer.read i off n).Allowed s) (he : e ≤ (s.freeData sb).card) :
    (transfer sb (.read i off n)).ends (fun a t =>
      a = Transfer.answer A (.read i off n) ∧ After sb D e A s t) p s := by
  obtain ⟨hv, hdev⟩ := hop
  obtain ⟨hco, hal⟩ := hr.clean.coherent i hv
  rw [transfer, Code.ends_bind]
  refine ends_readi (hco ▸ hr.clean.full i hal) ?_
  rw [Code.ends_pure]
  refine ⟨?_, hr, hA, ⟨fun _ => rfl, fun _ => rfl⟩, he⟩
  rw [Transfer.answer, hA i hal, hco, readOf_eq (d := s.dino i) hdev]
  rfl

/-- There is room for a write that fits into the log. -/
theorem Ready.room (hr : Ready sb D s) {n : Nat}
    (hfits : n + (sb.size / 4096 + 1) + 2 ≤ min logsize (sb.nlog - 1))
    (hfree : n + 1 + e ≤ (s.freeData sb).card) :
    Room sb D i e (n + s.pending i) { s with owner := some p } := by
  have hpend : s.pending i ≤ 1 := by
    unfold State.pending
    split <;> omega
  have hind : (s.indirect i).card + s.pending i = 1 := by
    unfold State.indirect State.pending
    split <;> simp
  have hmap : (bitmapSectors sb).card ≤ sb.size / 4096 + 1 :=
    Finset.card_image_le.trans (Finset.card_range _).le
  have ho := hr.alloc
  refine ⟨⟨ho.fits, ho.low, ho.avail, ho.logSize, ho.lawful⟩, by simp, ?_, ?_, ?_⟩
  · show s.sectors.Nodup
    rw [hr.sectors]
    exact List.nodup_nil
  · show n + s.pending i + e ≤ (s.freeData sb).card
    omega
  · show (s.sectors.toFinset ∪ (bitmapSectors sb ∪ s.indirect i)).card + _ <
      min logsize (s.logSize - 1)
    rw [hr.sectors, List.toFinset_nil, Finset.empty_union, ho.logSize]
    have hunion := Finset.card_union_le (bitmapSectors sb) (s.indirect i)
    omega

/-- A write leaves the contents of the inode overwritten and those of the others alone. -/
theorem WroteFile.arrays {off : Nat} {src : List Byte} (h : WroteFile i off src s t)
    (hc : Clean D s) (hoff : off ≤ (s.dino i).size) :
    t.arrays i = overwrite (s.arrays i) off src ∧
      ∀ j, j ≠ i → (s.dino j).type ≠ .free → t.arrays j = s.arrays j := by
  obtain ⟨a, ha⟩ := h.inode
  refine ⟨contents_overwrite hoff ?_ h.bytes, fun j hj hal => ?_⟩
  · rw [ha, Function.update_self]
  · have hsame : t.dino j = s.dino j := by rw [ha, Function.update_of_ne hj]
    obtain ⟨hsize, hno⟩ := hc.full j hal
    rw [State.arrays, State.arrays, hsame, contents, contents]
    refine List.map_congr_left fun k hk => ?_
    have hk' : k < (s.dino j).size := List.mem_range.mp hk
    rw [Nat.zero_add]
    exact (h.others j hj hal).byteAt_eq (by omega) (hno _ (by omega) (by omega))

theorem ends_transaction {α : Type} {l : Label} {body : K α} {Q : α → State → Prop}
    (howner : s.owner = none)
    (h : body.ends (fun a t => Q a { t with owner := none, sectors := [] }) p
      { s with owner := some p }) : (transaction l body).whole.ends Q p s := by
  show ((do
    Code.await fun s => s.owner.isNone
    let p ← Code.self
    Code.modify fun s => { s with owner := some p } : K Unit) >>= fun _ => body >>= fun a =>
      Code.modify (fun s => { s with owner := none, sectors := [] }) >>= fun _ => pure a).ends Q p s
  simp only [Code.ends_bind, Code.ends_await, Code.ends_self, Code.ends_modify, Code.ends_pure]
  exact ⟨by rw [howner]; rfl, h⟩

/-- The end of a transaction. -/
theorem Ready.commit (hc : Clean D t) (ho : Open sb D t) :
    Ready sb D { t with owner := none, sectors := [] } :=
  ⟨⟨hc.agrees, hc.full, hc.coherent⟩, ⟨ho.fits, ho.low, ho.avail, ho.logSize, ho.lawful⟩, rfl, rfl⟩

theorem WroteFile.same {off : Nat} {src : List Byte} (h : WroteFile i off src s t) : Same s t := by
  obtain ⟨a, ha⟩ := h.inode
  refine ⟨fun j => ?_, fun j => ?_⟩
  · rw [h.icache]
    rcases eq_or_ne j i with rfl | hne
    · rw [Function.update_self]
    · rw [Function.update_of_ne hne]
  · rw [ha]
    rcases eq_or_ne j i with rfl | hne
    · rw [Function.update_self]
    · rw [Function.update_of_ne hne]

/-- `writei` on a disk that is ready for it. -/
theorem ends_write {off : Nat} {src : List Byte} (hr : Ready sb D s) (hA : Shows s A)
    (hdata : ∀ b, D b → sb.Data b) (hop : (Transfer.write i off src).Allowed s)
    (hfits : Transfer.blocks A (.write i off src) = 0 ∨
      Transfer.blocks A (.write i off src) + (sb.size / 4096 + 1) + 2 ≤ min logsize (sb.nlog - 1))
    (hfree : Transfer.cost A (.write i off src) + e ≤ (s.freeData sb).card) :
    (transfer sb (.write i off src)).ends (fun a t =>
      a = Transfer.answer A (.write i off src) ∧
        After sb D e (Transfer.next A (.write i off src)) s t) p s := by
  obtain ⟨hv, hdev⟩ : (s.icache i).valid = true ∧ (s.dino i).type ≠ .dev := hop
  obtain ⟨hco, hal⟩ := hr.clean.coherent i hv
  have hsize : (A i).length = (s.dino i).size := by rw [hA i hal, State.arrays, length_contents]
  have hrefused : Refused (A i) off src.length ↔ (s.icache i).din.size < off ∨
      2 ^ 32 ≤ off + src.length ∨ 140 * 512 < off + src.length := by
    rw [Refused, hsize, hco]
  have ho := hr.alloc
  rw [transfer, Code.ends_bind]
  refine ends_transaction hr.owner ?_
  have hclean : Clean D { s with owner := some p } :=
    ⟨hr.clean.agrees, hr.clean.full, hr.clean.coherent⟩
  have hspec := spec_writei (p := p) (i := i) hdata src off _ fun _ => ⟨hclean, hv⟩
  have hopen : Open sb D { s with owner := some p } :=
    ⟨ho.fits, ho.low, ho.avail, ho.logSize, ho.lawful⟩
  have hends := ends_writei (p := p) (e := e) (i := i) off src (by rw [hco]; exact hdev) hopen
    (Nat.le_trans (Nat.le_add_left _ _) hfree) fun hoff hmax hne => ?_
  · refine Code.ends_imp (Code.ends_and_wp hends hspec) fun r t ht => ?_
    obtain ⟨⟨hnone, ho', he⟩, hpost⟩ := ht
    obtain ⟨-, hc, hcase⟩ := hpost ho'.lawful
    have hready := Ready.commit hc ho'
    rw [Code.ends_pure]
    rcases hcase with ⟨rfl, rfl⟩ | ⟨rfl, hoff, hwrote⟩
    · -- refused
      have hno := hrefused.mpr (hnone.mp rfl)
      rw [Transfer.answer, Transfer.next, if_pos hno, if_pos hno]
      exact ⟨rfl, hready, hA, ⟨fun _ => rfl, fun _ => rfl⟩, he⟩
    · have hgo : ¬Refused (A i) off src.length := fun hc => by
        have := hnone.mpr (hrefused.mp hc)
        cases this
      rw [Transfer.answer, Transfer.next, if_neg hgo, if_neg hgo]
      obtain ⟨hown, hothers⟩ := hwrote.arrays hclean hoff
      have hsame : Same s { t with owner := none, sectors := [] } :=
        ⟨hwrote.same.valid, hwrote.same.type⟩
      refine ⟨rfl, hready, fun j hj => ?_, hsame, he⟩
      rcases eq_or_ne j i with rfl | hne
      · rw [Function.update_self, hA j hal]
        exact hown.symm
      · have hj' : (s.dino j).type ≠ .free := hsame.type j ▸ hj
        rw [Function.update_of_ne hne, hA j hj']
        exact (hothers j hne hj').symm
  · -- there is room
    have hgo : ¬Refused (A i) off src.length := by
      rw [hrefused]
      show ¬(_ ∨ _)
      have : off ≤ (s.icache i).din.size := hoff
      omega
    have hpos : src.length ≠ 0 := fun hz => hne (List.eq_nil_of_length_eq_zero hz)
    have hblocks : Transfer.blocks A (.write i off src) = touched off src.length := if_neg hgo
    have htouched : touched off src.length ≠ 0 := by
      rw [touched, if_neg hpos]
      omega
    rw [Transfer.cost, hblocks, if_neg htouched] at hfree
    rw [hblocks] at hfits
    exact hr.room (hfits.resolve_left htouched) hfree

/-! ## 5. Sequences of calls -/

/-- Every sequence of calls ends. -/
theorem ends_transfers (hdata : ∀ b, D b → sb.Data b) : ∀ (ops : List Transfer) (A : Arrays)
    (s : State), Ready sb D s → Shows s A → (∀ op ∈ ops, op.Allowed s) → FitLog sb A ops →
    totalCost A ops ≤ (s.freeData sb).card →
    (transfers sb ops).ends (fun as t => as = answers A ops ∧ Shows t (final A ops) ∧ Same s t) p s
  | [], A, s, _, hA, _, _, _ => ⟨rfl, hA, fun _ => rfl, fun _ => rfl⟩
  | op :: ops, A, s, hr, hA, hops, hfit, hcost => by
    obtain ⟨hop, hops⟩ := List.forall_mem_cons.mp hops
    have hone : (transfer sb op).ends (fun a t =>
        a = op.answer A ∧ After sb D (totalCost (op.next A) ops) (op.next A) s t) p s := by
      cases op with
      | read i off n => exact ends_read hr hA hop (Nat.le_trans (Nat.le_add_left _ _) hcost)
      | write i off src => exact ends_write hr hA hdata hop hfit.1 hcost
    rw [transfers, Code.ends_bind]
    refine Code.ends_imp hone fun a t ht => ?_
    obtain ⟨rfl, hr', hA', hsame, hcost'⟩ := ht
    rw [Code.ends_bind]
    refine Code.ends_imp (ends_transfers hdata ops _ t hr' hA' (fun op ho => hsame.allowed (hops op ho))
      hfit.2 hcost') fun as u hu => ?_
    obtain ⟨rfl, hAu, hsame'⟩ := hu
    exact ⟨rfl, hAu, fun j => (hsame'.valid j).trans (hsame.valid j),
      fun j => (hsame'.type j).trans (hsame.type j)⟩

/-- The blocks a well-formed disk may hand out or has referenced. -/
def usable (sb : Super) (s : State) (b : Nat) : Prop :=
  sb.Data b ∧ (s.bit b = true → ∃ x, refs s.dino s.blk x = some b)

theorem WellFormed.ready (h : WellFormed sb s) : Ready sb (usable sb s) s where
  clean :=
    { agrees :=
        { data := fun x b hx => ⟨h.data x b hx, fun _ => ⟨x, hx⟩⟩
          set := h.marked
          ref := fun _ hb hbit => hb.2 hbit
          once := h.distinct }
      full := h.full
      coherent := h.coherent }
  alloc :=
    { fits := h.geometry
      low := h.metadata
      avail := fun b hb hbit => ⟨hb, fun ht => by rw [hbit] at ht; cases ht⟩
      logSize := h.logSize
      lawful := fun b hb => by rw [h.handed] at hb; cases hb }
  owner := h.idle.1
  sectors := h.idle.2

/-- **Files are byte arrays.**  From every well-formed disk, every sequence of reads and writes, with
any offsets and lengths and on any inodes in the cache, for whose writes there are free blocks and
room in the log, ends; it returns what it returns on the byte arrays; and every inode then contains
what its byte array does. -/
theorem files_are_byte_arrays (sb : Super) (p : Pid) (s : State) (hw : WellFormed sb s)
    (ops : List Transfer) (hops : ∀ op ∈ ops, op.Allowed s) (hfit : FitLog sb s.arrays ops)
    (hfree : totalCost s.arrays ops ≤ (s.freeData sb).card) :
    ∃ t, transfers sb ops p s = .ok (answers s.arrays ops) t ∧
      ∀ i, (s.dino i).type ≠ .free → t.arrays i = final s.arrays ops i := by
  obtain ⟨as, t, ht, rfl, hA, hsame⟩ := Code.ends_iff.mp (ends_transfers (p := p) (fun _ h => h.1)
    ops s.arrays s hw.ready (fun _ _ => rfl) hops hfit hfree)
  refine ⟨t, ht, fun i hi => (hA i ?_).symm⟩
  rwa [hsame.type]

/-! ## 6. A disk with one file -/

/-- The inode of an empty file. -/
def emptyFile : Dinode := { Dinode.zero with type := .file, nlink := 1 }

/-- The small disk with an empty file, inode 2, that is open and locked. -/
def oneFile : State :=
  { mkfs smallDisk with
    dino := Function.update (mkfs smallDisk).dino 2 emptyFile
    icache := Function.update (mkfs smallDisk).icache 2 ⟨1, true, true, emptyFile⟩ }

theorem wellFormed_oneFile : WellFormed smallDisk oneFile := by
  have hclean : Clean smallDisk (mkfs smallDisk) := clean_mkfs (by decide)
  have hrefs : refs oneFile.dino oneFile.blk = refs (mkfs smallDisk).dino (mkfs smallDisk).blk :=
    refs_update_empty (Or.inl rfl) (Or.inr fun _ => rfl)
  refine ⟨by decide, ?_, ?_, ?_, fun b hb => ?_, fun i hi => ?_, fun i hi => ?_, rfl, ⟨rfl, rfl⟩, rfl⟩
  · rw [hrefs]
    exact hclean.agrees.data
  · rw [hrefs]
    exact hclean.agrees.set
  · rw [hrefs]
    exact hclean.agrees.once
  · exact decide_eq_true (Nat.le_of_lt hb)
  · rcases eq_or_ne i 2 with rfl | hne
    · exact ⟨Nat.zero_le _, fun bn _ hlt => absurd hlt (Nat.not_lt_zero _)⟩
    · have hsame : oneFile.dino i = (mkfs smallDisk).dino i := Function.update_of_ne hne ..
      rw [hsame] at hi ⊢
      exact hclean.full i hi
  · rcases eq_or_ne i 2 with rfl | hne
    · exact ⟨rfl, by decide⟩
    · have hsame : oneFile.icache i = (mkfs smallDisk).icache i := Function.update_of_ne hne ..
      rw [hsame] at hi
      cases hi

/-- Three bytes are written and two of them read; a write behind the end is refused, and so is a
read whose end does not fit into 32 bits. -/
def someTransfers : List Transfer :=
  [.write 2 0 [1, 2, 3], .read 2 1 5, .write 2 9 [0], .read 2 3 (2 ^ 32 - 1)]

theorem files_are_byte_arrays_in_oneFile :
    ∃ t, transfers smallDisk someTransfers 0 oneFile =
        .ok [.count (some 3), .bytes (some [2, 3]), .count none, .bytes none] t ∧
      t.arrays 2 = [1, 2, 3] := by
  obtain ⟨t, ht, harrays⟩ := files_are_byte_arrays smallDisk 0 oneFile wellFormed_oneFile
    someTransfers (by decide) (by decide) (by decide)
  refine ⟨t, ht, ?_⟩
  rw [harrays 2 (by decide)]
  decide

/-- Eight blocks, in one write. -/
def longWrite : Transfer := .write 2 0 (List.replicate (8 * 512) 0)

/-- **A long write overflows the log**: `log_write` panics on the eighth block, on a well-formed disk
with nineteen free blocks. -/
theorem long_write_overflows_log :
    WellFormed smallDisk oneFile ∧ longWrite.Allowed oneFile ∧
      longWrite.cost oneFile.arrays ≤ (oneFile.freeData smallDisk).card ∧
      longWrite.answer oneFile.arrays = .count (some (8 * 512)) ∧
      ∃ t, transfers smallDisk [longWrite] 0 oneFile = .panic .tooBigTransaction t := by
  have hpanic : (match transfers smallDisk [longWrite] 0 oneFile with
      | .panic .tooBigTransaction _ => true
      | _ => false) = true := by decide +kernel
  refine ⟨wellFormed_oneFile, by decide, by decide +kernel, by decide +kernel, ?_⟩
  split at hpanic
  · rename_i t ht
    exact ⟨t, ht⟩
  · cases hpanic

end Xv6.Fs
