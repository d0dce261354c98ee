/-
# Processes that write to one file (file.c)

Processes that share a `struct file` share its offset.  `filewrite` cuts its buffer into pieces and
writes each in a transaction of its own, with the inode locked from the reading of the offset to its
advance; between two pieces others may write theirs.

The runs below are those of any number of processes that all call `filewrite` on the same file,
whose offset is at the end.  The calls and their results are noted.  NOTHING IS LOST: the file is what
it was, followed by pieces; those of one call are the first pieces of its buffer, in order; and a call
returns the length of its buffer exactly if all are there.

What a process has still to write is kept as its account.  The invariant says that the pieces in the
file and the accounts together make up the buffers.  It needs that `balloc` hands out data blocks
only: a file that has the block of the log's header loses four bytes at each `commit_trans`.
-/
import Xv6.Notes
import Xv6.Fs.Header

namespace Xv6.Fs

open Xv6.Bytes Xv6.Threads Xv6.Allocation

/-! ## 1. `filewrite` with its result -/

/-- The loop of `filewrite`; whether `i == n` at its end. -/
def fwriteAll (sb : Super) (f : FileId) (ip : Inum) : (rounds : Nat) → List Byte → P Bool
  | 0, src => pure (src = [])
  | rounds + 1, src =>
    if src = [] then pure true
    else do
      let src1 := src.take maxWrite
      match ← transaction .tx (fwriteInode sb f ip src1) with
      | none => pure false
      | some r =>
        if r ≠ src1.length then do
          Prog.atomic .other (Code.panic .shortFilewrite)
          pure false
        else fwriteAll sb f ip rounds (src.drop maxWrite)

/-- `filewrite(f, addr, n)` with its result, where `none` is -1.  What `pipewrite` does is a
parameter. -/
def filewriteRet (sb : Super) (pipewrite : P (Option Nat)) (f : FileId) (src : List Byte) :
    P (Option Nat) := do
  let x ← Prog.atomic .other (Code.gets fun s => s.file f)
  if x.writable = true then
    match x.type with
    | .pipe => pipewrite
    | .inode => do
      let all ← fwriteAll sb f x.ip src.length src
      pure (if all then some src.length else none)
    | .none => do
      Prog.atomic .other (Code.panic .filewrite)
      pure none
  else pure none

section

variable {sb : Super} {f : FileId} {ip : Inum}

theorem fwriteLoop_eq : ∀ (rounds : Nat) (src : List Byte),
    fwriteLoop sb f ip rounds src = fwriteAll sb f ip rounds src >>= fun _ => pure ()
  | 0, _ => rfl
  | rounds + 1, src => by
    unfold fwriteLoop fwriteAll
    split
    · rfl
    rw [Prog.bind_assoc]
    refine congrArg (transaction .tx (fwriteInode sb f ip (src.take maxWrite)) >>= ·) (funext fun r => ?_)
    cases r with
    | none => rfl
    | some r =>
      simp only
      split
      · rfl
      · exact fwriteLoop_eq rounds _

/-- Without its result it is the `filewrite` of the model. -/
theorem filewrite_eq (f : FileId) (src : List Byte) :
    filewrite sb f src = filewriteRet sb (pure none) f src >>= fun _ => pure () := by
  unfold filewrite filewriteRet
  rw [Prog.bind_assoc]
  refine congrArg _ (funext fun x => ?_)
  rw [Prog.when]
  split
  · cases x.type with
    | none => rfl
    | pipe => rfl
    | inode =>
      simp only
      rw [fwriteLoop_eq, Prog.bind_assoc]
      rfl
  · rfl

end

/-! ## 2. Pieces -/

/-- The pieces in which `filewrite` writes a buffer. -/
def pieces (src : List Byte) : List (List Byte) :=
  if src = [] then [] else src.take maxWrite :: pieces (src.drop maxWrite)
termination_by src.length
decreasing_by
  have := List.length_pos_iff.mpr ‹_›
  rw [List.length_drop, maxWrite]
  omega

theorem pieces_nil : pieces [] = [] := by
  rw [pieces, if_pos rfl]

theorem pieces_of_ne {src : List Byte} (h : src ≠ []) :
    pieces src = src.take maxWrite :: pieces (src.drop maxWrite) := by
  rw [pieces, if_neg h]

theorem flatten_pieces (src : List Byte) : (pieces src).flatten = src := by
  fun_induction pieces src with
  | case1 => rfl
  | case2 src h ih => rw [List.flatten_cons, ih, List.take_append_drop]

theorem pieces_eq_nil {src : List Byte} (h : pieces src = []) : src = [] := by
  rw [← flatten_pieces src, h]
  rfl

/-- Pieces written to the file, each with the number of its call. -/
abbrev Chunks := List (Nat × List Byte)

/-- The pieces of call `k`. -/
def chunksOf (k : Nat) (chunks : Chunks) : List (List Byte) :=
  (chunks.filter fun c => c.1 = k).map Prod.snd

/-- All bytes. -/
def bytesOf (chunks : Chunks) : List Byte := (chunks.map Prod.snd).flatten

section

variable {k j : Nat} {chunks : Chunks} {c : List Byte}

theorem chunksOf_append_self : chunksOf k (chunks ++ [(k, c)]) = chunksOf k chunks ++ [c] := by
  simp [chunksOf]

theorem chunksOf_append_ne (h : k ≠ j) : chunksOf j (chunks ++ [(k, c)]) = chunksOf j chunks := by
  simp [chunksOf, h]

theorem bytesOf_append : bytesOf (chunks ++ [(k, c)]) = bytesOf chunks ++ c := by
  simp [bytesOf]

theorem chunksOf_eq_nil {n : Nat} (h : ∀ c ∈ chunks, c.1 < n) (hk : n ≤ k) : chunksOf k chunks = [] := by
  rw [chunksOf, List.map_eq_nil_iff, List.filter_eq_nil_iff]
  intro c hc
  have := h c hc
  simp
  omega

/-- Every byte is one of some call. -/
theorem length_bytesOf {n : Nat} (h : ∀ c ∈ chunks, c.1 < n) :
    (bytesOf chunks).length = ∑ k ∈ Finset.range n, (chunksOf k chunks).flatten.length := by
  induction chunks with
  | nil => exact (Finset.sum_eq_zero fun _ _ => rfl).symm
  | cons c cs ih =>
    have hsplit : ∀ k, (chunksOf k (c :: cs)).flatten.length =
        (if c.1 = k then c.2.length else 0) + (chunksOf k cs).flatten.length := by
      intro k
      by_cases hk : c.1 = k
      · simp [chunksOf, hk]
      · simp [chunksOf, hk]
    have hc : c.1 ∈ Finset.range n := Finset.mem_range.mpr (h c (List.mem_cons_self ..))
    rw [Finset.sum_congr rfl fun k _ => hsplit k, Finset.sum_add_distrib, Finset.sum_ite_eq,
      if_pos hc, ← ih fun c' hc' => h c' (List.mem_cons_of_mem _ hc')]
    simp [bytesOf]

end

/-! ## 3. What has been written and what is still to come -/

/-- The calls of `filewrite` and their results. -/
abbrev WriteNotes := Notes (List Byte) (Option Nat)

/-- How many bytes the calls so far want to write. -/
def wanted (n : WriteNotes) : Nat := (n.calls.map List.length).sum

theorem sum_buffers (bufs : List (List Byte)) :
    ∑ k ∈ Finset.range bufs.length, (bufs.getD k []).length = (bufs.map List.length).sum := by
  induction bufs with
  | nil => rfl
  | cons b bufs ih =>
    rw [List.length_cons, Finset.sum_range_succ', List.map_cons, List.sum_cons, ← ih, Nat.add_comm]
    rfl

/-- A process in a call: the number of the call, its buffer, what of that it has not yet written, and
whether a round has failed. -/
structure Writer where
  call : Nat
  buf : List Byte
  rest : List Byte
  stuck : Bool

/-- The calls want more than a file can have. -/
def Over (m : State) (f : FileId) (n : WriteNotes) : Prop :=
  140 * 512 < (m.dino (m.file f).ip).size + wanted n

/-- No two processes are in the same call. -/
def Alone (γ : Pid → Option Writer) : Prop :=
  ∀ p q w v, γ p = some w → γ q = some v → w.call = v.call → p = q

/-- The pieces in the file and the accounts of the processes make up the buffers. -/
structure Ordered (m : State) (f : FileId) (γ : Pid → Option Writer) (n : WriteNotes)
    (chunks : Chunks) : Prop where
  known : ∀ c ∈ chunks, c.1 < n.calls.length
  order : ∀ k src, n.calls[k]? = some src → chunksOf k chunks <+: pieces src
  running : ∀ p w, γ p = some w → n.calls[w.call]? = some w.buf ∧
    pieces w.buf = chunksOf w.call chunks ++ pieces w.rest ∧ n.returned w.call = none
  alone : Alone γ
  stuck : ∀ p w, γ p = some w → w.stuck = true → Over m f n
  results : ∀ k r, n.returned k = some r → ∃ src, n.calls[k]? = some src ∧
    r = (if (m.file f).writable = true ∧ chunksOf k chunks = pieces src then some src.length else none) ∧
    (r = none → (m.file f).writable = true → Over m f n)
  readonly : (m.file f).writable = false → chunks = []

section

variable {sb : Super} {m s t : State} {f : FileId} {γ : Pid → Option Writer} {n : WriteNotes}
  {chunks : Chunks} {r : Pid} {w : Writer} {src : List Byte} {g : Option Writer}

theorem wanted_start (n : WriteNotes) (src : List Byte) :
    wanted (n.start src) = wanted n + src.length := by
  simp [wanted, Notes.start]

theorem Over.start (h : Over m f n) (src : List Byte) : Over m f (n.start src) := by
  unfold Over at h ⊢
  rw [wanted_start]
  omega

theorem calls_start {k : Nat} (h : n.calls[k]? = some src) (src' : List Byte) :
    (n.start src').calls[k]? = some src := by
  rw [Notes.start, List.getElem?_append_left (List.getElem?_eq_some_iff.mp h).1]
  exact h

/-- Whose account it is, when one has changed. -/
theorem account_cases {p : Pid} (h : Function.update γ r g p = some w) :
    p = r ∧ g = some w ∨ p ≠ r ∧ γ p = some w := by
  rcases eq_or_ne p r with rfl | hne
  · rw [Function.update_self] at h
    exact .inl ⟨rfl, h⟩
  · rw [Function.update_of_ne hne] at h
    exact .inr ⟨hne, h⟩

theorem Alone.update (h : Alone γ) (hg : ∀ w, g = some w → ∀ q v, q ≠ r → γ q = some v → v.call ≠ w.call) :
    Alone (Function.update γ r g) := by
  intro p q w v hp hq hcall
  rcases account_cases hp with ⟨rfl, hw⟩ | ⟨hpr, hp'⟩
  · rcases account_cases hq with ⟨rfl, _⟩ | ⟨hqr, hq'⟩
    · rfl
    · exact absurd hcall.symm (hg w hw q v hqr hq')
  · rcases account_cases hq with ⟨rfl, hv⟩ | ⟨_, hq'⟩
    · exact absurd hcall (hg v hv p w hpr hp')
    · exact h p q w v hp' hq' hcall

namespace Ordered

/-- A call that is running has been started. -/
theorem call_lt (h : Ordered m f γ n chunks) {p : Pid} (hp : γ p = some w) :
    w.call < n.calls.length :=
  (List.getElem?_eq_some_iff.mp (h.running p w hp).1).1

/-- The others are in other calls. -/
theorem call_ne (h : Ordered m f γ n chunks) (hr : γ r = some w) {p : Pid} {v : Writer} (hne : p ≠ r)
    (hp : γ p = some v) : v.call ≠ w.call := fun e => hne (h.alone p r v w hp hr e)

/-- The next call is started. -/
theorem start (h : Ordered m f γ n chunks) (src : List Byte) :
    Ordered m f (Function.update γ r (some ⟨n.calls.length, src, src, false⟩)) (n.start src)
      chunks := by
  have hnone : chunksOf n.calls.length chunks = [] := chunksOf_eq_nil h.known (Nat.le_refl _)
  refine ⟨fun c hc => ?_, fun k src' hk => ?_, fun p w hp => ?_, h.alone.update fun w hw q v _ hq => ?_,
    fun p w hp hstuck => ?_, fun k res hk => ?_, h.readonly⟩
  · have := h.known c hc
    simp only [Notes.start, List.length_append, List.length_singleton]
    omega
  · rcases Nat.lt_or_ge k n.calls.length with hlt | hge
    · rw [Notes.start, List.getElem?_append_left hlt] at hk
      exact h.order k src' hk
    · rw [chunksOf_eq_nil h.known hge]
      exact List.nil_prefix
  · rcases account_cases hp with ⟨rfl, hw⟩ | ⟨_, hp⟩
    · cases hw
      refine ⟨by simp [Notes.start], by rw [hnone, List.nil_append], ?_⟩
      -- no result can have been noted under the new number
      cases hret : n.returned n.calls.length with
      | none => exact hret
      | some res =>
        obtain ⟨src', hsrc', _⟩ := h.results _ _ hret
        have := (List.getElem?_eq_some_iff.mp hsrc').1
        omega
    · obtain ⟨hsrc', hrest, hret⟩ := h.running p w hp
      exact ⟨calls_start hsrc' src, hrest, hret⟩
  · cases hw
    have := h.call_lt hq
    simp only
    omega
  · rcases account_cases hp with ⟨rfl, hw⟩ | ⟨_, hp⟩
    · cases hw
      cases hstuck
    · exact (h.stuck p w hp hstuck).start src
  · obtain ⟨src', hsrc', hres, hover⟩ := h.results k res hk
    exact ⟨src', calls_start hsrc' src, hres, fun hn hw => (hover hn hw).start src⟩

/-- A process writes its next piece. -/
theorem write (h : Ordered m f γ n chunks) (hr : γ r = some w) (hrest : w.rest ≠ [])
    (hw : (m.file f).writable = true) (hstuck : w.stuck = false) :
    Ordered m f (Function.update γ r (some { w with rest := w.rest.drop maxWrite })) n
      (chunks ++ [(w.call, w.rest.take maxWrite)]) := by
  obtain ⟨hbuf, hpieces, hret⟩ := h.running r w hr
  rw [pieces_of_ne hrest] at hpieces
  have hsame : ∀ k, k ≠ w.call →
      chunksOf k (chunks ++ [(w.call, w.rest.take maxWrite)]) = chunksOf k chunks :=
    fun k hk => chunksOf_append_ne hk.symm
  refine ⟨fun c hc => ?_, fun k src' hk => ?_, fun p v hp => ?_, h.alone.update fun v hv q u hq hu => ?_,
    fun p v hp hv => ?_, fun k res hk => ?_, fun hro => ?_⟩
  · rcases List.mem_append.mp hc with hc | hc
    · exact h.known c hc
    · rw [List.mem_singleton.mp hc]
      exact h.call_lt hr
  · rcases eq_or_ne k w.call with rfl | hne
    · rw [hbuf, Option.some.injEq] at hk
      subst hk
      rw [chunksOf_append_self, hpieces]
      exact ⟨pieces (w.rest.drop maxWrite), by simp⟩
    · rw [hsame k hne]
      exact h.order k src' hk
  · rcases account_cases hp with ⟨rfl, hv⟩ | ⟨hne, hp⟩
    · cases hv
      exact ⟨hbuf, by rw [chunksOf_append_self, hpieces]; simp, hret⟩
    · rw [hsame _ (h.call_ne hr hne hp)]
      exact h.running p v hp
  · cases hv
    exact h.call_ne hr hq hu
  · rcases account_cases hp with ⟨rfl, hv'⟩ | ⟨_, hp⟩
    · cases hv'
      simp [hstuck] at hv
    · exact h.stuck p v hp hv
  · have hne : k ≠ w.call := by
      rintro rfl
      rw [hret] at hk
      cases hk
    rw [hsame k hne]
    exact h.results k res hk
  · rw [hw] at hro
    cases hro

/-- A round fails. -/
theorem fail (h : Ordered m f γ n chunks) (hr : γ r = some w) (hover : Over m f n) :
    Ordered m f (Function.update γ r (some { w with stuck := true })) n chunks := by
  refine ⟨h.known, h.order, fun p v hp => ?_, h.alone.update fun v hv q u hq hu => ?_, fun _ _ _ _ => hover,
    h.results, h.readonly⟩
  · rcases account_cases hp with ⟨rfl, hv⟩ | ⟨_, hp⟩
    · cases hv
      exact h.running p w hr
    · exact h.running p v hp
  · cases hv
    exact h.call_ne hr hq hu

/-- A call returns. -/
theorem finish (h : Ordered m f γ n chunks) (hr : γ r = some w) {res : Option Nat}
    (hres : res = if (m.file f).writable = true ∧ w.rest = [] then some w.buf.length else none)
    (hstuck : w.rest ≠ [] → (m.file f).writable = true → w.stuck = true) :
    Ordered m f (Function.update γ r none) (n.finish w.call res) chunks := by
  obtain ⟨hbuf, hpieces, _⟩ := h.running r w hr
  have hall : chunksOf w.call chunks = pieces w.buf ↔ w.rest = [] := by
    rw [hpieces, List.self_eq_append_right]
    exact ⟨pieces_eq_nil, fun e => e ▸ pieces_nil⟩
  refine ⟨h.known, h.order, fun p v hp => ?_, h.alone.update (fun v hv => by cases hv), fun p v hp hv => ?_,
    fun k res' hk => ?_, h.readonly⟩
  · rcases account_cases hp with ⟨_, hv⟩ | ⟨hne, hp⟩
    · cases hv
    · obtain ⟨hbuf', hpieces', hret'⟩ := h.running p v hp
      exact ⟨hbuf', hpieces', (n.finish_of_ne (h.call_ne hr hne hp) res).trans hret'⟩
  · rcases account_cases hp with ⟨_, hv'⟩ | ⟨_, hp⟩
    · cases hv'
    · exact h.stuck p v hp hv
  · rcases eq_or_ne k w.call with rfl | hne
    · rw [Notes.finish_self, Option.some.injEq] at hk
      subst hk
      refine ⟨w.buf, hbuf, by simp only [hall]; exact hres, fun hnone hw => ?_⟩
      refine h.stuck r w hr (hstuck (fun hrest => ?_) hw)
      rw [hres, if_pos ⟨hw, hrest⟩] at hnone
      cases hnone
    · rw [n.finish_of_ne hne] at hk
      exact h.results k res' hk

/-- The calls want all that has been written, and all that one of them has still to write. -/
theorem le_wanted (h : Ordered m f γ n chunks) (hr : γ r = some w) :
    (bytesOf chunks).length + w.rest.length ≤ wanted n := by
  obtain ⟨hbuf, hpieces, _⟩ := h.running r w hr
  have hbuffer : ∀ k ∈ Finset.range n.calls.length, (chunksOf k chunks).flatten.length +
      (if w.call = k then w.rest.length else 0) ≤ (n.calls.getD k []).length := by
    intro k hk
    have hlt := Finset.mem_range.mp hk
    have hsome : n.calls[k]? = some (n.calls.getD k []) := by simp [hlt]
    by_cases hw : w.call = k
    · subst hw
      rw [hbuf, Option.some.injEq] at hsome
      rw [if_pos rfl, ← hsome, ← flatten_pieces w.buf, hpieces, List.flatten_append, List.length_append,
        flatten_pieces]
    · obtain ⟨later, hlater⟩ := h.order k _ hsome
      rw [if_neg hw, ← flatten_pieces (n.calls.getD k []), ← hlater, List.flatten_append,
        List.length_append]
      omega
  have hsum := Finset.sum_le_sum hbuffer
  rw [Finset.sum_add_distrib, ← length_bytesOf h.known, Finset.sum_ite_eq,
    if_pos (Finset.mem_range.mpr (h.call_lt hr))] at hsum
  rwa [sum_buffers] at hsum

end Ordered

/-- The file `i` of `t` is that of `m`, with `bs` behind it. -/
structure Extended (i : Inum) (bs : List Byte) (m t : State) : Prop where
  size : (t.dino i).size = (m.dino i).size + bs.length
  bytes : ∀ j < (t.dino i).size, byteAt t.blk (t.dino i) j =
    if j < (m.dino i).size then byteAt m.blk (m.dino i) j else bs.getD (j - (m.dino i).size) 0

/-- More bytes are written at the end. -/
theorem Extended.append {i : Inum} {bs c : List Byte} (h : Extended i bs m s)
    (hw : WroteBytes i (s.dino i).size c s.disk t.disk) : Extended i (bs ++ c) m t := by
  have hsize : (t.dino i).size = (s.dino i).size + c.length := by
    obtain ⟨a, ha⟩ := hw.inode
    have := congrArg Dinode.size (congrFun ha i)
    simp only [Function.update_self, State.disk] at this
    omega
  have hs := h.size
  refine ⟨by rw [hsize, h.size, List.length_append, Nat.add_assoc], fun j hj => ?_⟩
  have hbyte := hw.bytes j hj
  simp only [State.disk] at hbyte
  rw [hbyte]
  by_cases hnew : (s.dino i).size ≤ j
  · rw [if_pos ⟨hnew, by omega⟩, if_neg (by omega), List.getD_append_right _ _ _ _ (by omega)]
    congr 1
    omega
  · rw [if_neg fun e => hnew e.1, h.bytes j (by omega)]
    split
    · rfl
    · rw [List.getD_append _ _ _ _ (by omega)]

theorem Extended.of_disk {i : Inum} {bs : List Byte} (h : Extended i bs m s) (hd : t.dino i = s.dino i)
    (hb : ∀ j < (s.dino i).size, byteAt t.blk (t.dino i) j = byteAt s.blk (s.dino i) j) :
    Extended i bs m t :=
  ⟨by rw [hd]; exact h.size, fun j hj => by
    rw [hd] at hj
    rw [hb j hj]
    exact h.bytes j hj⟩

/-- As long as `balloc` has handed out data blocks only: the state is clean, and the file has grown
by the pieces `chunks`. -/
structure Written (sb : Super) (m : State) (f : FileId) (γ : Pid → Option Writer) (n : WriteNotes)
    (chunks : Chunks) (s : State) : Prop where
  ordered : Ordered m f γ n chunks
  clean : Clean sb s
  type : (s.dino (m.file f).ip).type = .file
  atEnd : (s.file f).off = (s.dino (m.file f).ip).size
  file : Extended (m.file f).ip (bytesOf chunks) m s

/-- **The invariant.** -/
structure WriteInv (sb : Super) (m : State) (f : FileId) (γ : Pid → Option Writer)
    (x : State × WriteNotes) : Prop where
  same : ∃ off, x.1.file f = { m.file f with off := off }
  written : Lawful sb x.1 → ∃ chunks, Written sb m f γ x.2 chunks x.1

/-! ## 4. The pieces of the program -/

/-- The account after a round. -/
def Writer.after (w : Writer) : Option Nat → Writer
  | none => { w with stuck := true }
  | some _ => { w with rest := w.rest.drop maxWrite }

/-- **One round.** -/
theorem wp_round (hs : WriteInv sb m f γ (s, n)) (hr : γ r = some w) (hrest : w.rest ≠ [])
    (hw : (m.file f).writable = true) (hstuck : w.stuck = false) :
    (fwriteInode sb f (m.file f).ip (w.rest.take maxWrite)).wp (fun _ _ => True)
      (fun res t => WriteInv sb m f (Function.update γ r (some (w.after res))) (t, n)) r s := by
  have hrule : Spec sb r (Clean sb) (fwriteInode sb f (m.file f).ip (w.rest.take maxWrite))
      fun s res t => Clean sb t ∧ Round f (m.file f).ip (w.rest.take maxWrite) s res t :=
    spec_fwriteInode f _
  have hspec := hrule s fun hl => (hs.written hl).choose_spec.clean
  refine Code.wp_imp (Code.wp_and wp_fwriteInode_file hspec) fun res t ⟨hfile, ht⟩ => ⟨?_, fun hl => ?_⟩
  · obtain ⟨off, hoff⟩ := hs.same
    refine ⟨(s.file f).off + res.getD 0, ?_⟩
    simp only [hfile, State.setFile, Function.update_self]
    rw [show s.file f = _ from hoff]
  obtain ⟨hls, hclean, hround⟩ := ht hl
  obtain ⟨chunks, (hwr : Written sb m f γ n chunks s)⟩ := hs.written hls
  have hat := hwr.atEnd
  have hoff : (t.file f).off = (s.file f).off + res.getD 0 := by
    rw [hround.file]
    simp [State.setFile]
  rcases hround.disk with ⟨rfl, hdisk, hwhy⟩ | ⟨rfl, _, hbytes⟩
  · have hdino : t.dino = s.dino := congrArg Disk.dino hdisk
    have hblk : t.blk = s.blk := congrArg Disk.blk hdisk
    have hover : Over m f n := by
      have hle := hwr.ordered.le_wanted hr
      have hsize := hwr.file.size
      have htake : (w.rest.take maxWrite).length ≤ w.rest.length := List.length_take_le' ..
      rw [hwr.type] at hwhy
      unfold Over
      rcases hwhy with hdev | hlt | hmax
      · cases hdev
      · omega
      · omega
    refine ⟨chunks, hwr.ordered.fail hr hover, hclean, hdino ▸ hwr.type, ?_, hwr.file.of_disk (by rw [hdino])
      fun _ _ => by rw [hdino, hblk]⟩
    rw [hoff, hdino, ← hat]
    rfl
  · rw [hat] at hbytes
    obtain ⟨a, ha⟩ := hbytes.inode
    have hi : t.dino (m.file f).ip = _ := congrFun ha (m.file f).ip
    rw [Function.update_self] at hi
    refine ⟨chunks ++ [(w.call, w.rest.take maxWrite)], hwr.ordered.write hr hrest hw hstuck, hclean,
      by rw [hi]; exact hwr.type, ?_, ?_⟩
    · rw [hoff, hi, hat]
      simp [State.disk]
    · rw [bytesOf_append]
      exact hwr.file.append hbytes

/-- The invariant does not mind a transaction's beginning and end. -/
theorem WriteInv.owner (h : WriteInv sb m f γ (s, n)) (o : Option Pid) (c : List Sector) :
    WriteInv sb m f γ ({ s with owner := o, sectors := c }, n) :=
  ⟨h.same, fun hl => (h.written hl).imp fun _ hw => ⟨hw.ordered,
    ⟨hw.clean.agrees, hw.clean.full, hw.clean.coherent⟩, hw.type, hw.atEnd, hw.file.size, hw.file.bytes⟩⟩

/-- Nor what `commit_trans` does to the log's header. -/
theorem WriteInv.onDisk (hlaid : sb.Laid) {x : State × WriteNotes} (h : WriteInv sb m f γ x) (l : Label) :
    WriteInv sb m f γ (onDisk sb l x.1, x.2) := by
  obtain ⟨b, hb⟩ := onDisk_eq sb l x.1
  rw [hb]
  refine ⟨h.same, fun hl => (h.written hl).imp fun _ hw => ?_⟩
  obtain ⟨hd, hbytes⟩ := hw.clean.sameBytes_setBlk (i := (m.file f).ip) hlaid.not_data b
    (by simp [hw.type])
  exact ⟨hw.ordered, hw.clean.setBlk hlaid.not_data b, hw.type, hw.atEnd, hw.file.of_disk hd hbytes⟩

/-- Nothing has changed in the accounts. -/
theorem WriteInv.idle {x : State × WriteNotes} (h : WriteInv sb m f γ x) (hr : γ r = g) :
    WriteInv sb m f (Function.update γ r g) x := by
  rw [← hr, Function.update_eq_self]
  exact h

/-- The program keeps the invariant. -/
abbrev Writes (sb : Super) (m : State) (f : FileId) {α : Type} (r : Pid) (g : Option Writer)
    (pr : Prog Pid Panic (State × WriteNotes) Label α) (Q : Option Writer → α → Prop) : Prop :=
  Carries (WriteInv sb m f) (fun _ _ => True) r g pr Q

/-- One round in its transaction. -/
theorem writes_round (hrest : w.rest ≠ []) (hw : (m.file f).writable = true) (hstuck : w.stuck = false) :
    Writes sb m f r (some w)
      (transaction .tx (fwriteInode sb f (m.file f).ip (w.rest.take maxWrite))).beside
      fun g' res => g' = some (w.after res) := by
  unfold transaction
  rw [Prog.beside_bind]
  refine .seq (e := fun _ => some w) (Carries.beside fun γ s n hr hs => ?_) fun _ => ?_
  · rw [Code.wp_bind, Code.wp_await]
    exact fun _ => ⟨trivial, _, (hs.owner (some r) s.sectors).idle hr, rfl⟩
  rw [Prog.beside_bind]
  refine .seq (e := fun res => some (w.after res)) (Carries.beside fun γ s n hr hs => ?_) fun res => ?_
  · exact Code.wp_imp (wp_round hs hr hrest hw hstuck) fun res t ht => ⟨trivial, _, ht, rfl⟩
  rw [Prog.beside_bind]
  refine .seq (e := fun _ => some (w.after res)) (Carries.beside fun γ s n hr hs => ?_) fun _ =>
    Carries.pure rfl
  exact ⟨trivial, _, (hs.owner none []).idle hr, rfl⟩

/-- A panic ends all. -/
theorem writes_panic {α : Type} {e : Panic} {a : α} {Q : Option Writer → α → Prop} :
    Writes sb m f r g (do
      Prog.atomic .other (Code.panic e : K Unit)
      pure a : P α).beside Q := by
  rw [Prog.beside_bind]
  exact Carries.bind _ _ (Carries.beside fun γ s n _ _ => trivial)

/-- **The loop.**  It is left with nothing to write, or after a round that failed. -/
theorem writes_fwriteAll (hw : (m.file f).writable = true) {k : Nat} {buf : List Byte} :
    ∀ (rounds : Nat) (src : List Byte), src.length ≤ rounds →
      Writes sb m f r (some ⟨k, buf, src, false⟩) (fwriteAll sb f (m.file f).ip rounds src).beside
        fun g' all => ∃ w, g' = some w ∧ w.call = k ∧ w.buf = buf ∧ (all = true ↔ w.rest = []) ∧
          (w.rest ≠ [] → w.stuck = true)
  | 0, src, hle => by
    have hnil : src = [] := List.eq_nil_of_length_eq_zero (by omega)
    subst hnil
    exact Carries.pure ⟨_, rfl, rfl, rfl, by simp, fun h => absurd rfl h⟩
  | rounds + 1, src, hle => by
    unfold fwriteAll
    split
    · rename_i hnil
      subst hnil
      exact Carries.pure ⟨_, rfl, rfl, rfl, by simp, fun h => absurd rfl h⟩
    rename_i hne
    rw [Prog.beside_bind]
    refine .seq (writes_round hne hw rfl) fun res => ?_
    cases res with
    | none => exact Carries.pure ⟨_, rfl, rfl, rfl, by simpa [Writer.after] using hne, fun _ => rfl⟩
    | some c =>
      simp only
      split
      · exact writes_panic
      · refine writes_fwriteAll hw rounds _ ?_
        have hpos := List.length_pos_iff.mpr hne
        show (src.drop maxWrite).length ≤ rounds
        rw [List.length_drop, maxWrite]
        omega

/-- **`filewrite`**. -/
theorem writes_filewrite (htype : (m.file f).type = .inode) (pipewrite : P (Option Nat)) {k : Nat}
    (src : List Byte) :
    Writes sb m f r (some ⟨k, src, src, false⟩) (filewriteRet sb pipewrite f src).beside
      fun g' res => ∃ w, g' = some w ∧ w.call = k ∧
        res = (if (m.file f).writable = true ∧ w.rest = [] then some w.buf.length else none) ∧
        (w.rest ≠ [] → (m.file f).writable = true → w.stuck = true) := by
  unfold filewriteRet
  rw [Prog.beside_bind]
  have hlook : Writes sb m f r (some ⟨k, src, src, false⟩)
      (Prog.atomic .other (Code.gets fun s => s.file f) : P File).beside fun g' x =>
        g' = some ⟨k, src, src, false⟩ ∧ ∃ off, x = { m.file f with off := off } :=
    Carries.beside fun γ s n hr hs => ⟨trivial, _, hs.idle hr, rfl, hs.same⟩
  refine Carries.bind _ _ (Carries.imp (fun g' x hx => ?_) _ _ hlook)
  obtain ⟨rfl, off, rfl⟩ := hx
  simp only [htype]
  split
  · rename_i hw
    rw [Prog.beside_bind]
    refine Carries.bind _ _ (Carries.imp (fun g' all hall => ?_) _ _
      (writes_fwriteAll hw _ src (Nat.le_refl _)))
    obtain ⟨w, rfl, hcall, hbuf, hiff, hstuck⟩ := hall
    refine Carries.pure ⟨w, rfl, hcall, ?_, fun hrest _ => hstuck hrest⟩
    simp only [hiff, hw, true_and, hbuf]
  · rename_i hw
    exact Carries.pure ⟨_, rfl, rfl, by rw [if_neg fun h => hw h.1], fun _ h => absurd h hw⟩

/-! ## 5. Whole runs -/

/-- The program of a call of `filewrite` on the shared file, on the disk, with notes. -/
def sharedWrite (sb : Super) (pipewrite : P (Option Nat)) (f : FileId) (src : List Byte) :
    Prog Pid Panic (State × WriteNotes) Label Unit :=
  (noted .other (filewriteRet sb pipewrite f) src).before fun l x => (onDisk sb l x.1, x.2)

/-- One move of the processes that share the file. -/
abbrev sharedStep (sb : Super) (pipewrite : P (Option Nat)) (f : FileId) :
    Sys Pid Panic (State × WriteNotes) Label → Act Pid (List Byte) →
      Option (Sys Pid Panic (State × WriteNotes) Label) :=
  Sys.step (sharedWrite sb pipewrite f) fun p x => x.1.alive p

/-- Nobody is in a call. -/
def sharedStart (m : State) : Sys Pid Panic (State × WriteNotes) Label :=
  ⟨(m, Notes.none), fun _ => none, none⟩

theorem opens_shared (hlaid : sb.Laid) (htype : (m.file f).type = .inode) (pipewrite : P (Option Nat)) :
    Opens (WriteInv sb m f) (fun _ _ _ => True) (· = none) (sharedWrite sb pipewrite f)
      fun p x => x.1.alive p := by
  intro γ x r src hx hr _
  refine ⟨none, hx.idle hr, Carries.before (fun l _ _ h => h.onDisk hlaid l) (fun _ _ _ _ => trivial) _ _
    (.seq (e := fun k => some ⟨k, src, src, false⟩) (Carries.atomic fun γ x hr hx => ?_) fun k =>
      Carries.bind _ _ (Carries.imp (fun g' res hres => ?_) _ _ (writes_filewrite htype pipewrite src)))⟩
  · simp only [Code.wp_bind, Code.wp_gets, Code.wp_modify, Code.wp_pure]
    exact ⟨trivial, _, ⟨hx.same, fun hl => (hx.written hl).imp fun _ hw =>
      ⟨hw.ordered.start src, hw.clean, hw.type, hw.atEnd, hw.file⟩⟩, rfl⟩
  · obtain ⟨w, rfl, rfl, hres, hstuck⟩ := hres
    exact Carries.atomic fun γ x hr hx => ⟨trivial, _, ⟨hx.same, fun hl => (hx.written hl).imp fun _ hw =>
      ⟨hw.ordered.finish hr hres hstuck, hw.clean, hw.type, hw.atEnd, hw.file⟩⟩, rfl⟩

/-- What has become of the writes noted in `n`, when the state was `m` and is `t`: the file is what
it was, followed by the pieces `chunks`. -/
structure LosesNothing (m : State) (f : FileId) (t : State) (n : WriteNotes) (chunks : Chunks) :
    Prop where
  known : ∀ c ∈ chunks, c.1 < n.calls.length
  file : Extended (m.file f).ip (bytesOf chunks) m t
  /-- the pieces of each call are the first of its buffer, in order -/
  order : ∀ k src, n.calls[k]? = some src → chunksOf k chunks <+: pieces src
  /-- a call returns the length of its buffer if all its pieces are there, and else -1 -/
  results : ∀ k src r, n.calls[k]? = some src → n.returned k = some r →
    r = if (m.file f).writable = true ∧ chunksOf k chunks = pieces src then some src.length else none
  /-- if there is room for all, the size has grown by what the calls have returned -/
  size : (m.dino (m.file f).ip).size + wanted n ≤ 140 * 512 →
    (∀ k < n.calls.length, (n.returned k).isSome = true) →
      (t.dino (m.file f).ip).size = (m.dino (m.file f).ip).size +
        ∑ k ∈ Finset.range n.calls.length, (n.returned k).join.getD 0

theorem Ordered.sum_returned (h : Ordered m f γ n chunks)
    (hroom : (m.dino (m.file f).ip).size + wanted n ≤ 140 * 512)
    (hall : ∀ k < n.calls.length, (n.returned k).isSome = true) :
    (bytesOf chunks).length = ∑ k ∈ Finset.range n.calls.length, (n.returned k).join.getD 0 := by
  rw [length_bytesOf h.known]
  refine Finset.sum_congr rfl fun k hk => ?_
  obtain ⟨res, hres⟩ := Option.isSome_iff_exists.mp (hall k (Finset.mem_range.mp hk))
  obtain ⟨src, _, hres', hover⟩ := h.results k res hres
  rw [hres, Option.join_some]
  by_cases hw : (m.file f).writable = true
  · have hpieces : chunksOf k chunks = pieces src := by
      by_contra hne
      have := hover (by rw [hres', if_neg fun e => hne e.2]) hw
      unfold Over at this
      omega
    rw [hres', if_pos ⟨hw, hpieces⟩, hpieces, flatten_pieces]
    rfl
  · rw [hres', if_neg fun e => hw e.1, h.readonly (by simpa using hw)]
    rfl

/-- **Shared descriptors lose no writes.**  Any processes call `filewrite` on one file with any
buffers, the calls interleaved in any way.  If the offset was at the end of the file and `balloc`
hands out data blocks only, the file is in the end what it was, followed by the pieces written. -/
theorem shared_writes_lose_nothing (sb : Super) (hlaid : sb.Laid) (pipewrite : P (Option Nat))
    (m : State) (f : FileId) (hm : Clean sb m) (htype : (m.file f).type = .inode)
    (hfile : (m.dino (m.file f).ip).type = .file)
    (hend : (m.file f).off = (m.dino (m.file f).ip).size) (es : List (Act Pid (List Byte)))
    (t : Sys Pid Panic (State × WriteNotes) Label)
    (hr : Runs.run (sharedStep sb pipewrite f) (sharedStart m) es = some t) (hh : t.halted = none)
    (hl : Lawful sb t.mem.1) : ∃ chunks, LosesNothing m f t.mem.1 t.mem.2 chunks := by
  have hempty : Ordered m f (fun _ => none) Notes.none [] :=
    ⟨nofun, fun k src hk => (by cases hk), nofun, nofun, nofun, nofun, fun _ => rfl⟩
  have hstart : WriteInv sb m f (fun _ => none) (m, Notes.none) :=
    ⟨⟨_, rfl⟩, fun _ => ⟨[], hempty, hm, hfile, hend, rfl, fun j hj => by rw [if_pos hj]⟩⟩
  obtain ⟨γ, hacc⟩ := accounted_run (opens_shared hlaid htype pipewrite) (fun _ _ => trivial) es _ t
    (fun _ => none) ⟨fun _ => none, fun _ => hstart, fun _ _ => rfl⟩ hr
  obtain ⟨chunks, hw⟩ := (hacc.holds hh).written hl
  refine ⟨chunks, hw.ordered.known, hw.file, hw.ordered.order, fun k src r hk hret => ?_,
    fun hroom hall => ?_⟩
  · obtain ⟨src', hsrc', hres, _⟩ := hw.ordered.results k r hret
    rw [hk, Option.some.injEq] at hsrc'
    rw [hres, hsrc']
  · rw [hw.file.size, hw.ordered.sum_returned hroom hall]

end

/-- Process 0 makes the file `f`. -/
def openNew : List Event := .call 0 (.open [102] 0x202) :: moves 0 5

/-- Processes 0 and 1 write three and two bytes; process 1 is the first to begin its transaction. -/
def twoWriters : List (Act Pid (List Byte)) :=
  [.call 0 [1, 2, 3], .call 1 [4, 5], .move 0, .move 1, .move 0, .move 1, .move 1, .move 1, .move 1,
    .move 0, .move 0, .move 0, .move 0, .move 1]

/-- The theorem applies to a file shared by `fork`: both calls return what they wrote. -/
theorem two_writers_lose_nothing :
    ∃ s t, Runs.run (stepOnDisk smallDisk) (System.at (mkfs smallDisk))
        (openNew ++ .call 0 (.fork 1) :: moves 0 2) = some s ∧
      Runs.run (sharedStep smallDisk (pure none) 0) (sharedStart s.mem) twoWriters = some t ∧
      t.mem.2.returned 0 = some (some 3) ∧ t.mem.2.returned 1 = some (some 2) ∧
      ∃ chunks, LosesNothing s.mem 0 t.mem.1 t.mem.2 chunks := by
  have hrun : ((Runs.run (stepOnDisk smallDisk) (System.at (mkfs smallDisk))
      (openNew ++ .call 0 (.fork 1) :: moves 0 2)).any fun s =>
        (Runs.run (sharedStep smallDisk (pure none) 0) (sharedStart s.mem) twoWriters).any fun t =>
          s.halted = none ∧ s.mem.handed = [] ∧ (s.mem.file 0).type = .inode ∧
          (s.mem.dino (s.mem.file 0).ip).type = .file ∧
          (s.mem.file 0).off = (s.mem.dino (s.mem.file 0).ip).size ∧ t.halted = none ∧
          t.mem.1.handed = [7] ∧ t.mem.2.returned 0 = some (some 3) ∧
          t.mem.2.returned 1 = some (some 2)) = true := by decide +kernel
  obtain ⟨s, hs, hrest⟩ := Option.any_eq_true _ _ |>.mp hrun
  obtain ⟨t, ht, h⟩ := Option.any_eq_true _ _ |>.mp hrest
  obtain ⟨hh, hhanded, htype, hfile, hend, hht, hhanded', hret0, hret1⟩ := of_decide_eq_true h
  have hm : Clean smallDisk s.mem := by
    refine clean_run_onDisk (by decide) (clean_mkfs (by decide)) (by decide +kernel) hs ?_ hh
    unfold Lawful
    rw [hhanded]
    decide
  refine ⟨s, t, hs, ht, hret0, hret1, shared_writes_lose_nothing smallDisk (by decide) (pure none) s.mem 0
    hm htype hfile hend twoWriters t ht hht ?_⟩
  unfold Lawful
  rw [hhanded']
  decide

/-- A disk whose only data block is that of the root directory. -/
def fullDisk : Super := ⟨17, 1, 16, 10, by decide⟩

/-- Process 0 writes five bytes. -/
def oneWriter : List (Act Pid (List Byte)) := .call 0 [1, 2, 3, 4, 5] :: List.replicate 7 (.move 0)

/-- **Four bytes are lost**: the file has been given the block of the log's header, and `commit_trans`
writes a 0 at its beginning.  The call returns 5. -/
theorem commit_loses_written_bytes :
    fullDisk.Laid ∧ ∃ s t, Runs.run (stepOnDisk fullDisk) (System.at (mkfs fullDisk)) openNew = some s ∧
      Clean fullDisk s.mem ∧ (s.mem.file 0).type = .inode ∧
      (s.mem.dino (s.mem.file 0).ip).type = .file ∧
      (s.mem.file 0).off = (s.mem.dino (s.mem.file 0).ip).size ∧
      Runs.run (sharedStep fullDisk (pure none) 0) (sharedStart s.mem) oneWriter = some t ∧
      t.halted = none ∧ t.mem.2.calls = [[1, 2, 3, 4, 5]] ∧ t.mem.2.returned 0 = some (some 5) ∧
      ¬∃ chunks, LosesNothing s.mem 0 t.mem.1 t.mem.2 chunks := by
  have hrun : ((Runs.run (stepOnDisk fullDisk) (System.at (mkfs fullDisk)) openNew).any fun s =>
      (Runs.run (sharedStep fullDisk (pure none) 0) (sharedStart s.mem) oneWriter).any fun t =>
        s.halted = none ∧ s.mem.handed = [] ∧ (s.mem.file 0).type = .inode ∧
        (s.mem.dino (s.mem.file 0).ip).type = .file ∧
        (s.mem.file 0).off = (s.mem.dino (s.mem.file 0).ip).size ∧
        (s.mem.dino (s.mem.file 0).ip).size = 0 ∧ t.halted = none ∧
        t.mem.2.calls = [[1, 2, 3, 4, 5]] ∧ t.mem.2.returned 0 = some (some 5) ∧
        (t.mem.1.dino (s.mem.file 0).ip).size = 5 ∧
        byteAt t.mem.1.blk (t.mem.1.dino (s.mem.file 0).ip) 0 = 0) = true := by decide +kernel
  obtain ⟨s, hs, hrest⟩ := Option.any_eq_true _ _ |>.mp hrun
  obtain ⟨t, ht, h⟩ := Option.any_eq_true _ _ |>.mp hrest
  obtain ⟨hh, hhanded, htype, hfile, hend, hzero, hht, hcalls, hret, hsize, hbyte⟩ := of_decide_eq_true h
  have hm : Clean fullDisk s.mem := by
    refine clean_run_onDisk (by decide) (clean_mkfs (by decide)) (by decide +kernel) hs ?_ hh
    unfold Lawful
    rw [hhanded]
    decide
  refine ⟨by decide, s, t, hs, hm, htype, hfile, hend, ht, hht, hcalls, hret, ?_⟩
  rintro ⟨chunks, hn⟩
  -- all pieces are of call 0, which has returned 5
  have hself : chunksOf 0 chunks = chunks.map Prod.snd := by
    rw [chunksOf, List.filter_eq_self.mpr]
    intro c hc
    have := hn.known c hc
    rw [hcalls] at this
    simpa using this
  have hpieces : chunksOf 0 chunks = pieces [1, 2, 3, 4, 5] := by
    have hres := hn.results 0 [1, 2, 3, 4, 5] _ (by rw [hcalls]; rfl) hret
    split at hres
    · rename_i hall
      exact hall.2
    · cases hres
  have hbytes := hn.file.bytes 0 (by rw [hsize]; decide)
  rw [bytesOf, ← hself, hpieces, flatten_pieces, hbyte, hzero, if_neg (by decide)] at hbytes
  revert hbytes
  decide

end Xv6.Fs
