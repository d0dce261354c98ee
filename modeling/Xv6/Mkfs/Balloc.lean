/-
# The blocks that `balloc` hands out on an image of `mkfs`

The bitmap of a new image marks the blocks below `freeblock` and nothing else.  So the blocks in
front of the data area are marked, and stay so: only `bfree` clears a bit, and it is given blocks
that files had.  The log comes AFTER the data area, and its blocks are not marked.  `balloc` searches
up to `sb.size`, and when no data block is free it goes on into the log.
-/
import Xv6.Fs.Room
import Xv6.Mkfs.Volume

namespace Xv6.Mkfs

open Xv6.Bytes Xv6.Fs Xv6.Threads

/-! ## 1. Every image marks the blocks in front of the data area -/

/-- A loop whose rounds never lower `m`. -/
theorem foldlM_le {α : Type} {f : State → α → Option State} {m : State → Nat}
    (hf : ∀ s a t, f s a = some t → m s ≤ m t) (as : List α) {s t : State}
    (h : as.foldlM f s = some t) : m s ≤ m t := by
  induction as generalizing s with
  | nil =>
    cases h
    exact Nat.le_refl _
  | cons a as ih =>
    rw [List.foldlM_cons] at h
    obtain ⟨u, hu, ht⟩ := Option.bind_eq_some_iff.mp h
    exact Nat.le_trans (hf s a u hu) (ih ht)

section

variable {s t : State}

theorem usedblocks_winode {i : Nat} {d : Dinode} (h : winode s i d = some t) :
    t.usedblocks = s.usedblocks := by
  obtain ⟨buf, -, ht⟩ := Option.bind_eq_some_iff.mp h
  cases ht
  rfl

theorem usedblocks_ialloc {type : FileType} {i : Nat} (h : ialloc s type = some (i, t)) :
    t.usedblocks = s.usedblocks := by
  obtain ⟨u, hu, ht⟩ := Option.bind_eq_some_iff.mp h
  cases ht
  have hsame := usedblocks_winode hu
  exact hsame

theorem usedblocks_slotFor (s : State) (d : Dinode) (n : Fin 13) :
    s.usedblocks ≤ (slotFor s d n).1.usedblocks := by
  unfold slotFor
  split
  · exact Nat.le_succ _
  · exact Nat.le_refl _

theorem usedblocks_blockFor {d d' : Dinode} {fbn x : Nat} (h : blockFor s d fbn = some (t, d', x)) :
    s.usedblocks ≤ t.usedblocks := by
  unfold blockFor at h
  split at h
  · cases h
    exact usedblocks_slotFor ..
  · obtain ⟨indirect, -, ht⟩ := Option.bind_eq_some_iff.mp h
    have hslot := usedblocks_slotFor s d 12
    split at ht
    · cases ht
      exact Nat.le_succ_of_le hslot
    · cases ht
      exact hslot

theorem usedblocks_appendLoop {rounds off off' : Nat} {d d' : Dinode} {p : List Byte}
    (h : appendLoop rounds s d off p = some (t, d', off')) : s.usedblocks ≤ t.usedblocks := by
  induction rounds generalizing s d off p with
  | zero =>
    cases h
    exact Nat.le_refl _
  | succ rounds ih =>
    rw [appendLoop] at h
    split at h
    · cases h
      exact Nat.le_refl _
    · split at h
      · obtain ⟨⟨u, d₁, x⟩, hu, h⟩ := Option.bind_eq_some_iff.mp h
        obtain ⟨buf, -, h⟩ := Option.bind_eq_some_iff.mp h
        have hrest := ih h
        exact Nat.le_trans (usedblocks_blockFor hu) hrest
      · cases h

theorem usedblocks_iappend {i : Nat} {p : List Byte} (h : iappend s i p = some t) :
    s.usedblocks ≤ t.usedblocks := by
  obtain ⟨d, -, h⟩ := Option.bind_eq_some_iff.mp h
  obtain ⟨⟨u, d', off⟩, hu, h⟩ := Option.bind_eq_some_iff.mp h
  rw [usedblocks_winode h]
  exact usedblocks_appendLoop hu

theorem usedblocks_addFile {f : InputFile} (h : addFile s f = some t) :
    s.usedblocks ≤ t.usedblocks := by
  unfold addFile at h
  split at h
  · cases h
  · obtain ⟨⟨inum, u⟩, hu, h⟩ := Option.bind_eq_some_iff.mp h
    obtain ⟨v, hv, h⟩ := Option.bind_eq_some_iff.mp h
    rw [← usedblocks_ialloc hu]
    exact Nat.le_trans (usedblocks_iappend hv)
      (foldlM_le (fun _ _ _ => usedblocks_iappend) f.chunks h)

/-- **Whatever files `mkfs` is given**, the bitmap of the image marks a first part of the disk, with
all blocks in front of the data area in it. -/
theorem bitAt_main {files : List InputFile} (h : main files = some s) :
    superblock.dataStart ≤ s.usedblocks ∧
      ∀ b, b < 4096 → bitAt s.img b = decide (b < s.usedblocks) := by
  simp only [main, Option.bind_eq_bind, Option.bind_eq_some_iff] at h
  obtain ⟨s₁, h₁, s₂, h₂, s₃, h₃, h⟩ := h
  have hroot : firstBlock ≤ s₁.usedblocks := by
    rw [makeRoot] at h₁
    obtain ⟨⟨rootino, u⟩, hu, h⟩ := Option.bind_eq_some_iff.mp h₁
    have hblank : u.usedblocks = firstBlock := usedblocks_ialloc hu
    dsimp only at h
    split at h
    · obtain ⟨v, hv, h⟩ := Option.bind_eq_some_iff.mp h
      rw [← hblank]
      exact Nat.le_trans (usedblocks_iappend hv) (usedblocks_iappend h)
    · cases h
  have hfiles := foldlM_le (m := State.usedblocks) (fun _ _ _ => usedblocks_addFile) files h₂
  have hfix : s₃.usedblocks = s₂.usedblocks := by
    rw [fixRoot] at h₃
    obtain ⟨d, -, h⟩ := Option.bind_eq_some_iff.mp h₃
    exact usedblocks_winode h
  unfold balloc at h
  split at h
  · cases h
    rename_i hused
    refine ⟨?_, fun b hb => ?_⟩
    · show firstBlock ≤ s₃.usedblocks
      omega
    · exact bitAt_markBits (by omega) hb
  · cases h

end

/-! ## 2. Runs -/

/-- What happens to the bitmap, a call at a time.  The blocks below `used` are those that `mkfs` has
marked.  `bfree` is called for blocks that inodes name, and an inode has a block from `mkfs` or from
`balloc`.  All other code of the file system leaves the bitmap alone. -/
inductive Move (sb : Super) (used : Nat) : Fs.State → Fs.State → Prop
  | balloc {p : Pid} {s t : Fs.State} {b : Nat} (h : Fs.balloc sb p s = .ok b t) : Move sb used s t
  | bfree {p : Pid} {s t : Fs.State} {b : Nat}
      (hb : sb.dataStart ≤ b ∧ b < used ∨ b ∈ s.handed) (h : Fs.bfree b p s = .ok () t) :
      Move sb used s t
  | other {s t : Fs.State} (hbit : t.bit = s.bit) (hhanded : t.handed = s.handed) : Move sb used s t

/-- The blocks in front of the data area are marked, and no file has one of them. -/
structure Marked (sb : Super) (s : Fs.State) : Prop where
  low : ∀ b, b < sb.dataStart → s.bit b = true
  handed : ∀ b, b ∈ s.handed → sb.dataStart ≤ b

section

variable {sb : Super} {used : Nat} {s t : Fs.State} {p : Pid} {b : Nat}

/-- What `balloc` leaves. -/
theorem balloc_ok (h : Fs.balloc sb p s = .ok b t) :
    s.bit b = false ∧ t.bit = Function.update s.bit b true ∧ t.handed = b :: s.handed := by
  have hwp : (Fs.balloc sb).wp (fun _ _ => True) (fun b t => s.bit b = false ∧
      t.bit = Function.update s.bit b true ∧ t.handed = b :: s.handed) p s := by
    simp only [Fs.balloc, Code.wp_bind, Code.wp_gets]
    cases hf : s.firstFree sb with
    | none => trivial
    | some b =>
      have hb : s.bit b = false := by
        have := List.find?_some hf
        simpa using this
      simp only [bzero, logWrite, Code.wp_bind, Code.wp_modify, Code.wp_self, Code.wp_gets,
        Code.wp_panicIf, Code.wp_pure, State.setBit, State.setBlk]
      exact ⟨fun _ => trivial, fun _ => ⟨fun _ => trivial, fun _ => ⟨fun _ => trivial,
        fun _ => ⟨fun _ => trivial, fun _ => ⟨hb, trivial, trivial⟩⟩⟩⟩⟩
  unfold Code.wp at hwp
  rwa [h] at hwp

/-- What `bfree` leaves. -/
theorem bfree_ok (h : Fs.bfree b p s = .ok () t) :
    t.bit = Function.update s.bit b false ∧ t.handed = s.handed := by
  have hwp : (Fs.bfree b).wp (fun _ _ => True) (fun _ t => t.bit = Function.update s.bit b false ∧
      t.handed = s.handed) p s := by
    simp only [Fs.bfree, logWrite, Code.wp_bind, Code.wp_gets, Code.wp_ite, Code.wp_modify,
      Code.wp_self, Code.wp_panicIf, Code.wp_panic, State.setBit]
    exact ⟨fun _ => ⟨fun _ => trivial, fun _ => ⟨fun _ => trivial, fun _ => ⟨trivial, trivial⟩⟩⟩,
      fun _ => trivial⟩
  unfold Code.wp at hwp
  rwa [h] at hwp

/-- **One call keeps the marks.** -/
theorem Marked.move (h : Marked sb s) (hm : Move sb used s t) : Marked sb t := by
  cases hm with
  | @balloc p _ _ b hok =>
    obtain ⟨hfree, hbit, hhanded⟩ := balloc_ok hok
    refine ⟨fun c hc => ?_, fun c hc => ?_⟩
    · rw [hbit]
      rcases eq_or_ne c b with rfl | hne
      · exact Function.update_self ..
      · rw [Function.update_of_ne hne]
        exact h.low c hc
    · rw [hhanded] at hc
      rcases List.mem_cons.mp hc with rfl | hc
      · by_contra hlow
        rw [h.low c (by omega)] at hfree
        cases hfree
      · exact h.handed c hc
  | @bfree p _ _ b hb hok =>
    obtain ⟨hbit, hhanded⟩ := bfree_ok hok
    have hge : sb.dataStart ≤ b := hb.elim And.left (h.handed b)
    refine ⟨fun c hc => ?_, fun c hc => h.handed c (by rwa [hhanded] at hc)⟩
    rw [hbit, Function.update_of_ne (by omega)]
    exact h.low c hc
  | other hbit hhanded =>
    exact ⟨fun c hc => by rw [hbit]; exact h.low c hc,
      fun c hc => h.handed c (by rwa [hhanded] at hc)⟩

/-- **And so does a run.** -/
theorem Marked.run (h : Marked sb s) (hr : Relation.ReflTransGen (Move sb used) s t) :
    Marked sb t := by
  induction hr with
  | refl => exact h
  | tail _ hm ih => exact ih.move hm

/-! ## 3. What `balloc` returns -/

/-- `balloc` returns data blocks only, and panics when there is none. -/
def AsClaimed (sb : Super) (p : Pid) (s : Fs.State) : Prop :=
  (∀ b t, Fs.balloc sb p s = .ok b t → sb.Data b) ∧
    ((∀ b, sb.Data b → s.bit b = true) → ∃ e t, Fs.balloc sb p s = .panic e t)

/-- A transaction is open and has room for the two sectors that `balloc` writes. -/
structure InTransaction (s : Fs.State) : Prop where
  owner : s.owner ≠ none
  room : s.sectors.length + 1 < s.logRoom

/-- In a transaction, `balloc` returns the first free block. -/
theorem balloc_first (h : InTransaction s) (hf : s.firstFree sb = some b) :
    ∃ t, Fs.balloc sb p s = .ok b t := by
  have hroom := h.room
  have hends : (Fs.balloc sb).ends (fun b' _ => b' = b) p s := by
    simp only [Fs.balloc, bzero, Code.ends_bind, Code.ends_gets, hf, Code.ends_modify]
    refine ends_logWrite h.owner (by
      show s.sectors.length < s.logRoom
      omega) ?_
    refine ends_logWrite h.owner ?_ rfl
    show (State.absorb (bblock b) { s.setBit b true with handed := b :: s.handed }).length < s.logRoom
    unfold State.absorb
    split
    · show s.sectors.length < s.logRoom
      omega
    · rw [List.length_append]
      exact hroom
  obtain ⟨_, t, hok, rfl⟩ := Code.ends_iff.mp hends
  exact ⟨t, hok⟩

theorem balloc_none (hf : s.firstFree sb = none) :
    Fs.balloc sb p s = .panic .outOfBlocks s := by
  have hget : (Code.gets (State.firstFree sb) : K (Option Nat)) p s = .ok none s := by
    rw [← hf]
    rfl
  rw [Fs.balloc, Code.run_bind hget]
  rfl

/-- **`balloc` does as claimed exactly if a data block is free, or no block behind the data area
is.** -/
theorem asClaimed_iff (h : Marked sb s) (ht : InTransaction s) :
    AsClaimed sb p s ↔ (∃ b, sb.Data b ∧ s.bit b = false) ∨
      ∀ b, sb.dataStart + sb.nblocks ≤ b → b < sb.size → s.bit b = true := by
  cases hf : s.firstFree sb with
  | none =>
    have hall : ∀ b, b < sb.size → s.bit b = true := by
      intro b hb
      have := List.find?_eq_none.mp hf b (List.mem_range.mpr hb)
      simpa using this
    refine ⟨fun _ => .inr fun b _ hb => hall b hb,
      fun _ => ⟨fun b t hok => ?_, fun _ => ⟨_, _, balloc_none hf⟩⟩⟩
    rw [balloc_none hf] at hok
    cases hok
  | some b =>
    obtain ⟨t, hok⟩ := balloc_first (p := p) ht hf
    obtain ⟨hb, hmem, hfirst⟩ := List.find?_range_eq_some.mp hf
    have hlt : b < sb.size := List.mem_range.mp hmem
    have hbit : s.bit b = false := by simpa using hb
    have hge : sb.dataStart ≤ b := by
      by_contra hlow
      rw [h.low b (by omega)] at hbit
      cases hbit
    by_cases hdata : b < sb.dataStart + sb.nblocks
    · -- a data block
      refine ⟨fun _ => .inl ⟨b, ⟨hge, hdata⟩, hbit⟩, fun _ => ⟨fun b' t' hok' => ?_, fun hnone => ?_⟩⟩
      · rw [hok] at hok'
        cases hok'
        exact ⟨hge, hdata⟩
      · rw [hnone b ⟨hge, hdata⟩] at hbit
        cases hbit
    · -- a block of the log: all data blocks are taken
      have htaken : ∀ c, c < b → s.bit c = true := fun c hc => by
        simpa using hfirst c hc
      refine ⟨fun hc => absurd (hc.1 b t hok).2 hdata, ?_⟩
      rintro (⟨c, hc, hcbit⟩ | hlog)
      · have := hc.2
        rw [htaken c (by omega)] at hcbit
        cases hcbit
      · rw [hlog b (by omega) hlt] at hbit
        cases hbit

end

theorem marked_mount {files : List InputFile} {s : State} (h : main files = some s) :
    Marked superblock (mount s.img) := by
  obtain ⟨hused, hbits⟩ := bitAt_main h
  refine ⟨fun b hb => ?_, fun b hb => absurd hb List.not_mem_nil⟩
  have hlow : superblock.dataStart = 29 := rfl
  show bitAt s.img b = true
  rw [hbits b (by omega), decide_eq_true_iff]
  omega

/-- **On every image of `mkfs`, and in every state that is reached from it**, `balloc` returns data
blocks only, and panics if there is none, exactly if a data block is free or all blocks of the log
are marked. -/
theorem balloc_returns_data_iff {files : List InputFile} {s : State} (h : main files = some s)
    {t : Fs.State} (hr : Relation.ReflTransGen (Move superblock s.usedblocks) (mount s.img) t)
    (ht : InTransaction t) (p : Pid) :
    AsClaimed superblock p t ↔ (∃ b, superblock.Data b ∧ t.bit b = false) ∨
      ∀ b, size - nlog ≤ b → b < size → t.bit b = true :=
  asClaimed_iff ((marked_mount h).run hr) ht

/-- The state after `begin_trans` by the first process. -/
def begun (s : State) : Fs.State := { mount s.img with owner := some 0 }

theorem inTransaction_begun (s : State) : InTransaction (begun s) :=
  ⟨by simp [begun], show 0 + 1 < min logsize (nlog - 1) by decide⟩

theorem move_begun (s : State) :
    Relation.ReflTransGen (Move superblock s.usedblocks) (mount s.img) (begun s) :=
  .single (.other rfl rfl)

theorem balloc_as_claimed_on_empty_disk : ∃ s, main [] = some s ∧
    AsClaimed superblock 0 (begun s) := by
  obtain ⟨s, hmain, -, hblocks, hbits⟩ := main_spec (show Accepted [] by decide).placeable
  refine ⟨s, hmain, (balloc_returns_data_iff hmain (move_begun s) (inTransaction_begun s) 0).mpr
    (.inl ⟨100, by decide, ?_⟩)⟩
  show bitAt s.img 100 = false
  rw [hbits 100 (by decide), hblocks]
  decide

/-- A file of `n` blocks. -/
def filler (name : Byte) (hname : name ≠ 0) (n : Nat) : InputFile where
  name := [name]
  chunks := List.replicate n (List.replicate 512 0)
  nul := by simpa using hname.symm
  read := fun c hc => by
    rw [List.eq_of_mem_replicate hc]
    exact ⟨List.ne_nil_of_length_pos (by rw [List.length_replicate]; decide),
      Nat.le_of_eq List.length_replicate⟩

/-- Six files of 140 blocks and one of `n`. -/
def fillers (n : Nat) : List InputFile :=
  [filler 65 (by decide) 140, filler 66 (by decide) 140, filler 67 (by decide) 140,
    filler 68 (by decide) 140, filler 69 (by decide) 140, filler 70 (by decide) 140,
    filler 71 (by decide) n]

/-- Seven files that take all data blocks. -/
def fullFiles : List InputFile := fillers 137

theorem length_filler {name : Byte} (hname : name ≠ 0) (n : Nat) :
    (filler name hname n).bytes.length = n * 512 := by
  rw [InputFile.bytes, filler, List.flatten_replicate_replicate, List.length_replicate]

theorem blocksFor_fullFiles : blocksFor fullFiles = nblocks := by
  have hsum : (fullFiles.map fun f => needs f.bytes.length) =
      [140, 140, 140, 140, 140, 140, 137].map fun n => needs (n * 512) := by
    simp only [fullFiles, fillers, List.map_cons, List.map_nil, length_filler]
  rw [blocksFor, hsum]
  decide

theorem accepted_fullFiles : Accepted fullFiles := by
  refine ⟨by decide, fun f hf => ?_, Nat.le_of_eq blocksFor_fullFiles, fun f hf => ?_⟩
  · simp only [fullFiles, fillers, List.mem_cons, List.not_mem_nil, or_false] at hf
    rcases hf with rfl | rfl | rfl | rfl | rfl | rfl | rfl <;>
      exact Nat.le_trans (Nat.le_of_eq (length_filler _ _)) (by decide)
  · simp only [fullFiles, fillers, List.mem_cons, List.not_mem_nil, or_false] at hf
    rcases hf with rfl | rfl | rfl | rfl | rfl | rfl | rfl <;> decide

/-- **On the image of `fullFiles` no data block is free, and `balloc` returns the first block of the
log.** -/
theorem balloc_returns_log_block : ∃ s, main fullFiles = some s ∧
    Relation.ReflTransGen (Move superblock s.usedblocks) (mount s.img) (begun s) ∧
    InTransaction (begun s) ∧ (∀ b, superblock.Data b → (begun s).bit b = true) ∧
    (∃ t, Fs.balloc superblock 0 (begun s) = .ok 1014 t) ∧ ¬superblock.Data 1014 := by
  obtain ⟨s, hmain, -, hblocks, hbits⟩ := main_spec accepted_fullFiles.placeable
  rw [blocksFor_fullFiles] at hblocks
  have hbit : ∀ b, b < 1014 → (begun s).bit b = true := by
    intro b hb
    show bitAt s.img b = true
    rw [hbits b (by omega), hblocks, decide_eq_true_iff]
    exact hb
  have hfree : (begun s).firstFree superblock = some 1014 := by
    refine List.find?_range_eq_some.mpr ⟨?_, List.mem_range.mpr (by decide), fun b hb => ?_⟩
    · have hclear : (begun s).bit 1014 = false := by
        show bitAt s.img 1014 = false
        rw [hbits 1014 (by decide), hblocks]
        decide
      rw [hclear]
      rfl
    · rw [hbit b hb]
      rfl
  exact ⟨s, hmain, move_begun s, inTransaction_begun s, fun b hb => hbit b hb.2,
    balloc_first (inTransaction_begun s) hfree, by decide⟩

end Xv6.Mkfs
