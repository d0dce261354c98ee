/-
# The log, and crashes (log.c)

The log is a header block at `log.start` and the `log.size - 1` blocks behind it.  A transaction
copies every block it changes into the log (`log_write`); the first `write_head` of `commit_trans`
puts the number of these blocks and their home sectors into the header, which is ONE write, and the
commit; `install_trans` copies the blocks home, and the last `write_head` empties the header.  After
a crash `recover_from_log` copies home whatever the header names.

The machine below does at most one disk write in a step, so a crash between any two writes is a
step like the others, and so is a crash in the middle of a recovery.  What it is for is said by a
second machine, a store with atomic transactions (`Store`), on which copying, erasing and recovering
do nothing at all.

A clean buffer holds what its block holds on the disk, whether it is in the cache or not, so of the
buffer cache only the DIRTY buffers are state.
-/
import Xv6.Runs
import Xv6.Bytes

namespace Xv6.Log

open Xv6.Bytes Xv6.Runs

/-! ## 1. The header block -/

abbrev Block := Blob 512

/-- Where the log is, as `initlog` finds it in the super block. -/
structure Geometry where
  start : Nat
  size : Nat
  pos : 0 < size

/-- The blocks a transaction may write: any outside the log. -/
def Geometry.Home (g : Geometry) (b : Nat) : Prop :=
  b < 2 ^ 32 ∧ (b < g.start ∨ g.start + g.size ≤ b)

/-- `lh->n`, an int: the loops over the sectors do nothing if it is negative. -/
def count (b : Block) : Nat := if word b 0 < 2 ^ 31 then word b 0 else 0

/-- The first `n` of `lh->sector`. -/
def header (b : Block) : List Nat := (List.range (count b)).map fun i => word b (i + 1)

/-- The loop of `write_head`, from `i` on. -/
def putSectors (b : Block) : Nat → List Nat → Block
  | _, [] => b
  | i, s :: ss => putSectors (setWord b (i + 1) s) (i + 1) ss

/-- `hb->n = log.lh.n` and the loop.  The entries behind the first `n` stay as they were. -/
def putHeader (b : Block) (lh : List Nat) : Block := putSectors (setWord b 0 lh.length) 0 lh

theorem word_putSectors (lh : List Nat) : ∀ (b : Block) (i j : Nat), i + lh.length < 128 →
    j < 128 → (∀ s ∈ lh, s < 2 ^ 32) → word (putSectors b i lh) j =
      if i < j then (lh[j - i - 1]?).getD (word b j) else word b j := by
  induction lh with
  | nil =>
    intro b i j _ _ _
    simp [putSectors]
  | cons s ss ih =>
    intro b i j hi hj hs
    rw [List.length_cons] at hi
    rw [putSectors, ih _ _ _ (by omega) hj fun t ht => hs t (List.mem_cons_of_mem s ht)]
    rcases Nat.lt_trichotomy j (i + 1) with h | rfl | h
    · rw [if_neg (by omega), if_neg (by omega), word_setWord_of_ne b (by omega) (by omega)]
    · rw [if_neg (by omega), if_pos (by omega), word_setWord_self b (by omega) (hs s (by simp))]
      simp
    · rw [if_pos h, if_pos (by omega), word_setWord_of_ne b (by omega) (by omega),
        show j - i - 1 = (j - (i + 1) - 1) + 1 by omega, List.getElem?_cons_succ]

/-- **The header reads back as it was written.** -/
theorem header_putHeader (b : Block) {lh : List Nat} (hlen : lh.length < 128)
    (hs : ∀ s ∈ lh, s < 2 ^ 32) : header (putHeader b lh) = lh := by
  have hcount : count (putHeader b lh) = lh.length := by
    have hzero : word (putHeader b lh) 0 = lh.length := by
      rw [putHeader, word_putSectors lh _ _ _ (by omega) (by omega) hs, if_neg (by omega),
        word_setWord_self b (by omega) (by omega)]
    rw [count, hzero, if_pos (by omega)]
  refine List.ext_getElem (by simp [header, hcount]) fun i h₁ h₂ => ?_
  simp only [header, List.getElem_map, List.getElem_range]
  rw [putHeader, word_putSectors lh _ _ _ (by omega) (by omega) hs, if_pos (by omega)]
  simp [h₂]

/-! ## 2. The machine -/

/-- Where the code is: in the loop of `install_trans`, or not. -/
inductive Pc
  | out
  | install (tail : Nat)
  deriving DecidableEq

/-- The disk, and what a crash loses. -/
structure State where
  disk : Nat → Block
  /-- The buffers with `B_DIRTY`, and their data. -/
  dirty : Nat → Option Block
  /-- The first `n` of `log.lh.sector`. -/
  lh : List Nat
  busy : Bool
  pc : Pc

inductive Act
  | begin
  /-- Change the data of a buffer, and `log_write` it. -/
  | write (b : Nat) (f : Block → Block)
  /-- `commit_trans`, up to its first write. -/
  | commit
  /-- One round of `install_trans`. -/
  | copy
  /-- What follows `install_trans`. -/
  | erase
  /-- The machine stops and starts again, with `read_head`. -/
  | crash

/-- `log.lh` after `log_write`.  `idxOf` is the loop for absorption: it comes to `n` if the sector
is new. -/
def absorb (lh : List Nat) (b : Nat) : List Nat :=
  if lh.idxOf b = lh.length then lh ++ [b] else lh

namespace State

/-- The data that `bread` gives. -/
def bread (s : State) (b : Nat) : Block := (s.dirty b).getD (s.disk b)

def bwrite (s : State) (b : Nat) (x : Block) : State :=
  { s with disk := Function.update s.disk b x, dirty := Function.update s.dirty b none }

/-- `write_head` -/
def writeHead (g : Geometry) (s : State) : State :=
  s.bwrite g.start (putHeader (s.bread g.start) s.lh)

/-- `log_write`; `none` are its two panics. -/
def logWrite (g : Geometry) (s : State) (b : Nat) (x : Block) : Option State :=
  if 10 ≤ s.lh.length ∨ g.size - 1 ≤ s.lh.length then none
  else if s.busy = false then none
  else
    let t := s.bwrite (g.start + s.lh.idxOf b + 1) x
    some { t with lh := absorb s.lh b, dirty := Function.update t.dirty b (some x) }

/-- `recover_from_log`, behind `read_head`.  Until then nothing is written. -/
def boot (g : Geometry) (d : Nat → Block) : State :=
  ⟨d, fun _ => none, header (d g.start), false, .install 0⟩

end State

/-- `none`: the code is elsewhere, or it panics, and then a crash is all that can follow. -/
def step (g : Geometry) (s : State) : Act → Option State
  | .begin => if s.pc = .out ∧ s.busy = false then some { s with busy := true } else none
  | .write b f => if s.pc = .out then s.logWrite g b (f (s.bread b)) else none
  | .commit =>
    if s.pc = .out ∧ s.busy = true then
      if 0 < s.lh.length then some { s.writeHead g with pc := .install 0 }
      else some { s with busy := false }
    else none
  | .copy =>
    match s.pc with
    | .install tail => (s.lh[tail]?).map fun b =>
        { s.bwrite b (s.bread (g.start + tail + 1)) with pc := .install (tail + 1) }
    | _ => none
  | .erase =>
    -- `recover_from_log` ends here too; there `busy` is 0 already
    if s.pc = .install s.lh.length then
      some { State.writeHead g { s with lh := [] } with pc := .out, busy := false }
    else none
  | .crash => some (.boot g s.disk)

/-- **What the log is for**: blocks that are changed by whole transactions only. -/
structure Store where
  committed : Nat → Block
  pending : Nat → Block

def Store.next (v : Store) : Act → Store
  | .write b f => { v with pending := Function.update v.pending b (f (v.pending b)) }
  | .commit => { v with committed := v.pending }
  | .crash => { v with pending := v.committed }
  | .begin | .copy | .erase => v

/-! ## 3. What is on the disk, and what is in memory -/

section

variable {g : Geometry} {s t : State} {v : Store} {d : Nat → Block} {L : List Nat} {b tail : Nat}

/-- The header names the blocks `L`, and the disk has the contents `w` if these are taken from the
log. -/
structure Durable (g : Geometry) (d : Nat → Block) (L : List Nat) (w : Nat → Block) : Prop where
  head : header (d g.start) = L
  room : L.length < g.size
  home : ∀ b ∈ L, g.Home b
  logged : ∀ i b, L[i]? = some b → d (g.start + i + 1) = w b
  rest : ∀ b, g.Home b → b ∉ L → d b = w b

/-- Between transactions and in one: the header is empty, and the blocks the transaction has written
are in the log, in dirty buffers, and nowhere else. -/
structure Open (g : Geometry) (s : State) (v : Store) : Prop where
  durable : Durable g s.disk [] v.committed
  room : s.lh.length < g.size ∧ s.lh.length ≤ 10
  nodup : s.lh.Nodup
  home : ∀ b ∈ s.lh, g.Home b
  logged : ∀ i b, s.lh[i]? = some b → s.disk (g.start + i + 1) = v.pending b
  dirty : ∀ b, s.dirty b = if b ∈ s.lh then some (v.pending b) else none
  rest : ∀ b, g.Home b → b ∉ s.lh → v.pending b = v.committed b

/-- In `install_trans`: the blocks before `tail` are at home. -/
structure Copying (g : Geometry) (s : State) (v : Store) (tail : Nat) : Prop where
  durable : Durable g s.disk s.lh v.committed
  dirty : ∀ b, s.dirty b ≠ none → b ∈ s.lh.drop tail
  done : ∀ b ∈ s.lh.take tail, s.disk b = v.committed b
  same : ∀ b, g.Home b → v.pending b = v.committed b

def Inv (g : Geometry) (s : State) (v : Store) : Prop :=
  match s.pc with
  | .out => Open g s v
  | .install tail => Copying g s v tail

theorem Inv.out (h : Inv g s v) (hpc : s.pc = .out) : Open g s v := by
  rwa [Inv, hpc] at h

theorem Inv.install (h : Inv g s v) (hpc : s.pc = .install tail) : Copying g s v tail := by
  rwa [Inv, hpc] at h

/-- A disk on which `recover_from_log` finds the contents `w`. -/
theorem Durable.boot {w : Nat → Block} (h : Durable g d L w) : Copying g (.boot g d) ⟨w, w⟩ 0 where
  durable := by
    rw [State.boot, h.head]
    exact h
  dirty b hb := absurd rfl hb
  done := by simp
  same _ _ := rfl

theorem Geometry.Home.ne_start (h : g.Home b) : b ≠ g.start := by
  have hpos := g.pos
  obtain ⟨-, h⟩ := h
  omega

theorem Geometry.Home.ne_logged {i : Nat} (h : g.Home b) (hi : i + 1 < g.size) :
    b ≠ g.start + i + 1 := by
  obtain ⟨-, h⟩ := h
  omega

/-- With an empty header, everything is at home. -/
theorem Durable.at_home {w : Nat → Block} (h : Durable g d [] w) (hb : g.Home b) : d b = w b :=
  h.rest b hb List.not_mem_nil

theorem durable_nil {w : Nat → Block} (hd : header (d g.start) = [])
    (h : ∀ b, g.Home b → d b = w b) : Durable g d [] w where
  head := hd
  room := g.pos
  home := by simp
  logged := by simp
  rest b hb _ := h b hb

/-! ## 4. The steps -/

/-- In a transaction, `bread` shows what the transaction has written. -/
theorem Open.bread_home (h : Open g s v) (hb : g.Home b) : s.bread b = v.pending b := by
  rw [State.bread, h.dirty]
  split
  · rfl
  · rename_i hnot
    rw [Option.getD_none, h.durable.at_home hb, h.rest b hb hnot]

/-- What `log_write` does to `log.lh`: the sector is in it ONCE, at the place that was written. -/
theorem absorb_spec {lh : List Nat} (b : Nat) (h : lh.Nodup) :
    (absorb lh b).Nodup ∧ (absorb lh b).length ≤ lh.length + 1 ∧
      (∀ c, c ∈ absorb lh b ↔ c ∈ lh ∨ c = b) ∧
      ∀ i c, (absorb lh b)[i]? = some c →
        i = lh.idxOf b ∧ c = b ∨ i ≠ lh.idxOf b ∧ c ≠ b ∧ lh[i]? = some c := by
  unfold absorb
  by_cases hb : b ∈ lh
  · have hlt : lh.idxOf b < lh.length := List.idxOf_lt_length_of_mem hb
    have hat : lh[lh.idxOf b]? = some b := List.getElem?_idxOf hb
    rw [if_neg (by omega)]
    refine ⟨h, by omega, fun c => ⟨Or.inl, ?_⟩, fun i c hc => ?_⟩
    · rintro (hc | rfl)
      · exact hc
      · exact hb
    · by_cases hi : i = lh.idxOf b
      · rw [hi, hat, Option.some.injEq] at hc
        exact Or.inl ⟨hi, hc.symm⟩
      · refine Or.inr ⟨hi, ?_, hc⟩
        rintro rfl
        exact hi ((List.getElem?_inj hlt h).1 (hat.trans hc.symm)).symm
  · have hidx : lh.idxOf b = lh.length := List.idxOf_eq_length hb
    rw [if_pos hidx]
    refine ⟨?_, by simp, by simp, fun i c hc => ?_⟩
    · rw [List.nodup_append_comm]
      exact List.nodup_cons.2 ⟨hb, h⟩
    · rw [List.getElem?_append] at hc
      split at hc
      · refine Or.inr ⟨by omega, ?_, hc⟩
        rintro rfl
        exact hb (List.mem_of_getElem? hc)
      · rw [List.getElem?_singleton, Option.ite_none_right_eq_some, Option.some.injEq] at hc
        exact Or.inl ⟨by omega, hc.2.symm⟩

/-- **`log_write`**, of a block that is in the log already or not. -/
theorem Open.logWrite {x : Block} (h : Open g s v) (hb : g.Home b)
    (ht : s.logWrite g b x = some t) :
    t.pc = s.pc ∧ Open g t ⟨v.committed, Function.update v.pending b x⟩ := by
  obtain ⟨hdurable, hroom, hnodup, hhome, hlogged, hdirty, hrest⟩ := h
  obtain ⟨hnodup', hlen', hmem', hget'⟩ := absorb_spec b hnodup
  unfold State.logWrite at ht
  split at ht
  · cases ht
  split at ht
  · cases ht
  cases ht
  have hi : s.lh.idxOf b ≤ s.lh.length := List.idxOf_le_length
  have hslot : s.lh.idxOf b + 1 < g.size := by omega
  refine ⟨rfl, durable_nil ?_ fun c hc => ?_, ⟨by dsimp; omega, by dsimp; omega⟩, hnodup',
    fun c hc => ?_, fun j c hj => ?_, fun c => ?_, fun c hc hnot => ?_⟩
  · simp only [State.bwrite]
    rw [Function.update_of_ne (by omega), hdurable.head]
  · exact (Function.update_of_ne (hc.ne_logged hslot) _ _).trans (hdurable.at_home hc)
  · rcases (hmem' c).1 hc with hc | rfl
    · exact hhome c hc
    · exact hb
  · simp only [State.bwrite]
    rcases hget' j c hj with ⟨rfl, rfl⟩ | ⟨hj', hcb, hget⟩
    · rw [Function.update_self, Function.update_self]
    · rw [Function.update_of_ne (by omega), Function.update_of_ne hcb]
      exact hlogged j c hget
  · simp only [State.bwrite, hmem']
    by_cases hcb : c = b
    · simp [hcb]
    · rw [Function.update_of_ne hcb, Function.update_of_ne hcb]
      by_cases hcs : c = g.start + s.lh.idxOf b + 1
      · -- the log block: its buffer is written through
        have hnot : c ∉ s.lh := fun hc => (hhome c hc).ne_logged hslot hcs
        rw [if_neg (by simp [hnot, hcb]), hcs, Function.update_self]
      · rw [Function.update_of_ne hcs, hdirty c]
        simp [hcb]
  · have hcb : c ≠ b := fun e => hnot ((hmem' c).2 (Or.inr e))
    dsimp only
    rw [Function.update_of_ne hcb]
    exact hrest c hc fun hmem => hnot ((hmem' c).2 (Or.inl hmem))

/-- **The commit**: one write, and the disk has the contents of the transaction. -/
theorem Open.commit (h : Open g s v) :
    Copying g { s.writeHead g with pc := .install 0 } (v.next .commit) 0 := by
  refine ⟨⟨?_, h.room.1, h.home, fun i b hi => ?_, fun b hb hnot => ?_⟩, fun b hb => ?_, by simp,
    fun _ _ => rfl⟩
  · have hroom := h.room
    simp only [State.writeHead, State.bwrite, Function.update_self]
    exact header_putHeader _ (by omega) fun c hc => (h.home c hc).1
  · exact (Function.update_of_ne (by omega) _ _).trans (h.logged i b hi)
  · calc Function.update s.disk g.start (putHeader (s.bread g.start) s.lh) b
        = s.disk b := Function.update_of_ne hb.ne_start _ _
      _ = v.committed b := h.durable.at_home hb
      _ = v.pending b := (h.rest b hb hnot).symm
  · by_contra hnot
    refine hb ?_
    simp only [State.writeHead, State.bwrite, Function.update_apply, h.dirty]
    split
    · rfl
    · exact if_neg hnot

/-- A block of the log that is copied home can be copied again. -/
theorem Durable.copied {w : Nat → Block} (h : Durable g d L w) (hb : g.Home b) :
    Durable g (Function.update d b (w b)) L w := by
  refine ⟨?_, h.room, h.home, fun i c hi => ?_, fun c hc hnot => ?_⟩
  · rw [Function.update_of_ne hb.ne_start.symm, h.head]
  · have hlt := (List.getElem?_eq_some_iff.1 hi).1
    have hroom := h.room
    rw [Function.update_of_ne (hb.ne_logged (by omega)).symm, h.logged i c hi]
  · by_cases hcb : c = b
    · rw [hcb, Function.update_self]
    · rw [Function.update_of_ne hcb, h.rest c hc hnot]

/-- **One round of `install_trans`.** -/
theorem Copying.copy (h : Copying g s v tail) (hb : s.lh[tail]? = some b) :
    Copying g { s.bwrite b (s.bread (g.start + tail + 1)) with pc := .install (tail + 1) } v
      (tail + 1) := by
  obtain ⟨hlt, hat⟩ := List.getElem?_eq_some_iff.1 hb
  have hhome : g.Home b := h.durable.home b (List.mem_of_getElem? hb)
  have hroom := h.durable.room
  -- the log block is not dirty, so what is copied is what is on the disk
  have hclean : s.dirty (g.start + tail + 1) = none := by
    by_contra hne
    have hmem := List.mem_of_mem_drop (h.dirty _ hne)
    exact (h.durable.home _ hmem).ne_logged (by omega) rfl
  have hx : s.bread (g.start + tail + 1) = v.committed b := by
    rw [State.bread, hclean, Option.getD_none, h.durable.logged tail b hb]
  rw [hx]
  refine ⟨h.durable.copied hhome, fun c hcd => ?_, fun c hcd => ?_, h.same⟩
  · have hcb : c ≠ b := by
      rintro rfl
      exact hcd (Function.update_self _ _ _)
    have hmem := h.dirty c fun e => hcd ((Function.update_of_ne hcb _ _).trans e)
    rw [List.drop_eq_getElem_cons hlt, List.mem_cons] at hmem
    exact hmem.resolve_left fun e => hcb (e.trans hat)
  · by_cases hcb : c = b
    · rw [hcb]
      exact Function.update_self _ _ _
    · refine (Function.update_of_ne hcb _ _).trans (h.done c ?_)
      have hmem : c ∈ s.lh.take (tail + 1) := hcd
      rw [List.take_add_one, hb, List.mem_append] at hmem
      exact hmem.resolve_right (by simpa using hcb)

/-- The end of `install_trans`: everything is at home, and the log can be emptied. -/
theorem Copying.erase (h : Copying g s v s.lh.length) :
    Open g { State.writeHead g { s with lh := [] } with pc := .out, busy := false } v := by
  refine ⟨durable_nil ?_ fun b hb => ?_, ⟨g.pos, Nat.zero_le _⟩, List.nodup_nil, ?_, ?_,
    fun b => ?_, fun b hb _ => h.same b hb⟩
  · simp only [State.writeHead, State.bwrite, Function.update_self]
    exact header_putHeader _ (by simp) (by simp)
  · refine (Function.update_of_ne hb.ne_start _ _).trans ?_
    by_cases hmem : b ∈ s.lh
    · exact h.done b (by rwa [List.take_length])
    · exact h.durable.rest b hb hmem
  · exact fun b hb => absurd hb List.not_mem_nil
  · exact fun i b hi => absurd hi (by simp [State.writeHead, State.bwrite])
  · have hclean : s.dirty b = none := by
      by_contra hne
      simpa using h.dirty b hne
    simp [State.writeHead, State.bwrite, Function.update_apply, hclean]

/-- A transaction writes blocks outside the log. -/
def Act.Home (g : Geometry) : Act → Prop
  | .write b _ => g.Home b
  | _ => True

/-- **Every step** keeps the disk and the memory in line with the store. -/
theorem Inv.step {a : Act} (h : Inv g s v) (ha : a.Home g) (ht : step g s a = some t) :
    Inv g t (v.next a) := by
  cases a with
  | begin =>
    rw [Log.step, Option.ite_none_right_eq_some] at ht
    obtain ⟨⟨hpc, -⟩, ⟨⟩⟩ := ht
    rw [Inv, hpc]
    exact { h.out hpc with }
  | write b f =>
    rw [Log.step, Option.ite_none_right_eq_some] at ht
    obtain ⟨hpc, ht⟩ := ht
    rw [(h.out hpc).bread_home ha] at ht
    obtain ⟨hpc', ht⟩ := (h.out hpc).logWrite ha ht
    rwa [Inv, hpc', hpc]
  | commit =>
    rw [Log.step, Option.ite_none_right_eq_some] at ht
    obtain ⟨⟨hpc, -⟩, ht⟩ := ht
    have ho := h.out hpc
    split at ht
    · cases ht
      exact ho.commit
    · -- nothing was written, so there is nothing to commit
      rename_i hpos
      cases ht
      have hlh : s.lh = [] := List.eq_nil_of_length_eq_zero (by omega)
      rw [Inv, hpc]
      refine { ho with
        durable := durable_nil ho.durable.head fun b hb => ?_, rest := fun _ _ _ => rfl }
      rw [ho.durable.at_home hb]
      exact (ho.rest b hb (by rw [hlh]; exact List.not_mem_nil)).symm
  | copy =>
    rw [Log.step] at ht
    split at ht
    · rename_i tail hpc
      obtain ⟨b, hb, rfl⟩ := Option.map_eq_some_iff.1 ht
      exact (h.install hpc).copy hb
    · cases ht
  | erase =>
    rw [Log.step, Option.ite_none_right_eq_some] at ht
    obtain ⟨hpc, ⟨⟩⟩ := ht
    exact (h.install hpc).erase
  | crash =>
    cases ht
    cases hpc : s.pc with
    | out => exact (h.out hpc).durable.boot
    | install tail => exact (h.install hpc).durable.boot

/-! ## 5. Runs -/

/-- A loop of `install_trans` that is left to end does so, and then the log is empty. -/
theorem Copying.ends (k : Nat) : ∀ {s : State} {tail : Nat}, Copying g s v tail →
    s.pc = .install tail → tail + k = s.lh.length →
    ∃ t, run (Log.step g) s (List.replicate k .copy ++ [.erase]) = some t ∧ Open g t v ∧
      t.pc = .out ∧ t.busy = false := by
  induction k with
  | zero =>
    intro s tail h hpc hk
    obtain rfl : tail = s.lh.length := by omega
    refine ⟨_, ?_, h.erase, rfl, rfl⟩
    simp [run, Log.step, hpc]
  | succ k ih =>
    intro s tail h hpc hk
    have hb : s.lh[tail]? = some s.lh[tail] := List.getElem?_eq_getElem (by omega)
    obtain ⟨t, hrun, hend⟩ := ih (h.copy hb) rfl (by simp only [State.bwrite]; omega)
    refine ⟨t, ?_, hend⟩
    rw [List.replicate_succ, List.cons_append, run_cons_iff]
    refine ⟨_, ?_, hrun⟩
    simp [Log.step, hpc, hb]

end

/-- **The log makes transactions atomic.**  In any run, with crashes anywhere: outside log.c's loops
the disk has what was committed, and `bread` shows what the open transaction has written on top of
that; and if the machine crashes NOW, in whatever state, then a recovery that is left to end brings
the disk to what was committed. -/
theorem log_refines_atomic_store (g : Geometry) (d : Nat → Block) (as : List Act) (s : State)
    (hn : word (d g.start) 0 = 0) (ha : ∀ a ∈ as, a.Home g)
    (hrun : run (step g) (.boot g d) as = some s) :
    (s.pc = .out → ∀ b, g.Home b → s.disk b = (as.foldl Store.next ⟨d, d⟩).committed b ∧
      s.bread b = (as.foldl Store.next ⟨d, d⟩).pending b) ∧
    ∃ t, run (step g) s (.crash ::
        (List.replicate (header (s.disk g.start)).length .copy ++ [.erase])) = some t ∧
      t.pc = .out ∧ t.busy = false ∧
      ∀ b, g.Home b → t.disk b = (as.foldl Store.next ⟨d, d⟩).committed b := by
  have h : Inv g s (as.foldl Store.next ⟨d, d⟩) := by
    refine run_refines (fun _ _ _ _ h hc ht => h.step hc ht) as _ _ s ?_ ha hrun
    exact (durable_nil (by simp [header, count, hn]) fun _ _ => rfl).boot
  generalize as.foldl Store.next ⟨d, d⟩ = v at h ⊢
  constructor
  · intro hpc b hb
    exact ⟨(h.out hpc).durable.at_home hb, (h.out hpc).bread_home hb⟩
  · have hcrash := (h.step (a := .crash) trivial rfl).install rfl
    obtain ⟨t, hend, ht, hpc, hbusy⟩ := hcrash.ends (header (s.disk g.start)).length rfl
      (Nat.zero_add _)
    refine ⟨t, ?_, hpc, hbusy, fun b hb => ht.durable.at_home hb⟩
    rw [run_cons_iff]
    exact ⟨_, rfl, hend⟩

/-- A log of three blocks behind the header, at sector 10. -/
def smallLog : Geometry := ⟨10, 4, by decide⟩

/-- Two blocks, one of them written twice; the first has been copied home. -/
def cutShort : List Act :=
  [.erase, .begin, .write 3 fun _ _ => 7, .write 5 fun _ _ => 9,
    .write 3 fun x i => x i + 1, .commit, .copy]

theorem cutShort_recovers : ∃ s,
    run (step smallLog) (.boot smallLog fun _ _ => 0) cutShort = some s ∧
    s.disk 3 0 = 8 ∧ s.disk 5 0 = 0 ∧
    ∃ t, run (step smallLog) s (.crash ::
        (List.replicate (header (s.disk 10)).length .copy ++ [.erase])) = some t ∧
      t.disk 5 0 = 9 := by
  have hcut : (run (step smallLog) (.boot smallLog fun _ _ => 0) cutShort).map
      (fun s => (s.disk 3 0, s.disk 5 0)) = some (8, 0) := by decide +kernel
  obtain ⟨s, hs, hdisk⟩ := Option.map_eq_some_iff.1 hcut
  obtain ⟨h3, h5⟩ := Prod.mk.inj hdisk
  obtain ⟨-, t, ht, -, -, hhome⟩ := log_refines_atomic_store smallLog (fun _ _ => 0) cutShort s
    (by decide +kernel) (by simp [cutShort, Act.Home, Geometry.Home, smallLog]) hs
  refine ⟨s, hs, h3, h5, t, ht, ?_⟩
  rw [hhome 5 ⟨by decide, .inl (by decide)⟩]
  decide +kernel

end Xv6.Log
