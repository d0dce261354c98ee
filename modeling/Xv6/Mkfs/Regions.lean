/-
# `mkfs` and the regions of the disk

The image has an inode table, a bitmap block, a data area and a log.  `mkfs` hands out inodes and
blocks by counting up, `freeinode` and `freeblock`, and compares NEITHER COUNTER with the end of its
region.  The number of files is never looked at; a block past the end of the data area is noticed
only if it is past the end of the IMAGE, because the sector cannot be read then.  So there are ten
blocks, those of the log, that a file can be put into, and with more than 198 files the inodes run
into the part of the table that the kernel does not know, and then into the bitmap.

To say who has written where, `Watch` is `mkfs` once more with a note at each `wsect`: the region on
whose behalf it is made.  Without the notes it is the program of `Image.lean` (`erase_main`).
-/
import Xv6.Mkfs.Balloc
import Xv6.Watched

namespace Xv6.Mkfs

open Xv6.Bytes Xv6.Fs Xv6.Watched

/-! ## 1. The regions -/

inductive Region where
  | inodes
  | bitmap
  | data
  | log
  deriving DecidableEq

/-- The first sector of a region. -/
def Region.first : Region → Nat
  | .inodes => 2
  | .bitmap => ninodes / 8 + 3
  | .data => firstBlock
  | .log => size - nlog

/-- The first sector behind it. -/
def Region.stop : Region → Nat
  | .inodes => ninodes / 8 + 3
  | .bitmap => firstBlock
  | .data => size - nlog
  | .log => size

/-- A sector is written, on behalf of a region. -/
structure Write where
  region : Region
  sector : Nat

/-- It is a sector of the region. -/
def Write.Inside (w : Write) : Prop :=
  w.region.first ≤ w.sector ∧ w.sector < w.region.stop

theorem inside_inode {inum : Nat} (h : inum < 200) : Write.Inside ⟨.inodes, i2b inum⟩ := by
  have hstop : ninodes / 8 + 3 = 28 := rfl
  simp only [Write.Inside, Region.first, Region.stop, i2b, hstop]
  omega

theorem inside_data_iff {b : Nat} : Write.Inside ⟨.data, b⟩ ↔ 29 ≤ b ∧ b < 1014 := Iff.rfl

/-! ## 2. `mkfs`, watched -/

namespace Watch

def winode (s : State) (inum : Nat) (d : Dinode) : Watched Write State := do
  let buf ← lift (s.rsect (i2b inum))
  emit ⟨.inodes, i2b inum⟩
  return s.wsect (i2b inum) (put buf (inum % 8 * 64) (dinodeBytes d))

def ialloc (s : State) (type : FileType) : Watched Write (Nat × State) := do
  let s' ← winode { s with freeinode := s.freeinode + 1 } s.freeinode
    { Dinode.zero with type := type, nlink := 1 }
  return (s.freeinode, s')

def balloc (s : State) (used : Nat) : Watched Write State :=
  if used < 512 * 8 then do
    emit ⟨.bitmap, ninodes / 8 + 3⟩
    return s.wsect (ninodes / 8 + 3) (markBits used)
  else lift none

def blockFor (s : State) (din : Dinode) (fbn : Nat) : Watched Write (State × Dinode × Nat) :=
  if h : fbn < 12 then
    let (s, din) := slotFor s din ⟨fbn, lt_of_direct h⟩
    return (s, din, din.addrs ⟨fbn, lt_of_direct h⟩)
  else do
    let (s, din) := slotFor s din 12
    let indirect ← lift (s.rsect (din.addrs 12))
    if ptr indirect (fbn - 12) = 0 then do
      emit ⟨.data, din.addrs 12⟩
      return (s.take.wsect (din.addrs 12) (setPtr indirect (fbn - 12) s.freeblock), din, s.freeblock)
    else return (s, din, ptr indirect (fbn - 12))

def appendLoop : (rounds : Nat) → State → Dinode → Nat → List Byte →
    Watched Write (State × Dinode × Nat)
  | 0, s, din, off, _ => return (s, din, off)
  | rounds + 1, s, din, off, p =>
    if p = [] then return (s, din, off)
    else if off / 512 < 140 then do
      let (s, din, x) ← blockFor s din (off / 512)
      let n1 := min p.length ((off / 512 + 1) * 512 - off)
      let buf ← lift (s.rsect x)
      emit ⟨.data, x⟩
      appendLoop rounds (s.wsect x (put buf (off - off / 512 * 512) (p.take n1))) din (off + n1)
        (p.drop n1)
    else lift none

def iappend (s : State) (inum : Nat) (p : List Byte) : Watched Write State := do
  let din ← lift (rinode s inum)
  let (s, din, off) ← appendLoop p.length s din din.size p
  winode s inum { din with size := off }

def makeRoot (s : State) : Watched Write State := do
  let (rootino, s) ← ialloc s .dir
  if rootino = 1 then do
    let s ← iappend s rootino (dirent dot rootino)
    iappend s rootino (dirent dotdot rootino)
  else lift none

def addFile (s : State) (f : InputFile) : Watched Write State :=
  if slash ∈ f.name then lift none
  else do
    let (inum, s) ← ialloc s .file
    let s ← iappend s 1 (dirent f.shown inum)
    f.chunks.foldlM (fun s c => iappend s inum c) s

def fixRoot (s : State) : Watched Write State := do
  let din ← lift (rinode s 1)
  winode s 1 { din with size := roundUp din.size }

def main (files : List InputFile) : Watched Write State := do
  let s ← makeRoot blank
  let s ← files.foldlM addFile s
  let s ← fixRoot s
  balloc s s.usedblocks

section

variable (s : State) (inum : Nat)

@[simp] theorem erase_winode (d : Dinode) :
    erase (winode s inum d) = Mkfs.winode s inum d := by
  simp [winode, Mkfs.winode]

@[simp] theorem erase_ialloc (type : FileType) :
    erase (ialloc s type) = Mkfs.ialloc s type := by
  simp [ialloc, Mkfs.ialloc]

@[simp] theorem erase_balloc (used : Nat) : erase (balloc s used) = Mkfs.balloc s used := by
  simp [balloc, Mkfs.balloc]

@[simp] theorem erase_blockFor (din : Dinode) (fbn : Nat) :
    erase (blockFor s din fbn) = Mkfs.blockFor s din fbn := by
  unfold blockFor Mkfs.blockFor
  split
  · rfl
  · simp

@[simp] theorem erase_appendLoop (rounds : Nat) (din : Dinode) (off : Nat) (p : List Byte) :
    erase (appendLoop rounds s din off p) = Mkfs.appendLoop rounds s din off p := by
  induction rounds generalizing s din off p with
  | zero => rfl
  | succ rounds ih => simp [appendLoop, Mkfs.appendLoop, ih]

@[simp] theorem erase_iappend (p : List Byte) :
    erase (iappend s inum p) = Mkfs.iappend s inum p := by
  simp [iappend, Mkfs.iappend]

@[simp] theorem erase_makeRoot : erase (makeRoot s) = Mkfs.makeRoot s := by
  simp [makeRoot, Mkfs.makeRoot]

@[simp] theorem erase_addFile (f : InputFile) : erase (addFile s f) = Mkfs.addFile s f := by
  simp [addFile, Mkfs.addFile, erase_foldlM (fun s c => erase_iappend s _ c)]

@[simp] theorem erase_fixRoot : erase (fixRoot s) = Mkfs.fixRoot s := by
  simp [fixRoot, Mkfs.fixRoot]

end

/-- **Without the notes it is `main`.** -/
@[simp] theorem erase_main (files : List InputFile) : erase (main files) = Mkfs.main files := by
  simp [main, Mkfs.main, erase_foldlM erase_addFile]

end Watch

/-! ## 3. What it takes to come to the end -/

section

variable {T : Nat → Dinode} {s s' : State} {d d' : Dinode} {c p : List Byte} {V : Volume} {i : Nat}

/-- `blockFor` gives a block of the image only if there was room for it. -/
theorem room_of_blockFor {x : Nat} (h : Space (Function.update T i d) s.img s.freeblock)
    (hd : Holds s.img d c) (hfree : s.freeblock ≤ size) (hfits : c.length < 140 * 512)
    (hb : blockFor s d (c.length / 512) = some (s', d', x)) (hx : x < size) :
    s.freeblock + needs (c.length + 1) ≤ size + needs c.length := by
  rw [needs_succ]
  by_cases hm : c.length % 512 = 0
  · have hzero : blockAt s.img d (c.length / 512) = 0 := by
      by_contra hne
      have := (hd.shape _ (by omega)).mp hne
      omega
    rw [if_pos hm]
    by_cases h12 : c.length / 512 < 12
    · rw [blockFor_slot h12 hzero, Option.some.injEq, Prod.mk.injEq, Prod.mk.injEq] at hb
      rw [if_neg (by omega)]
      omega
    · unfold blockFor at hb
      rw [dif_neg h12] at hb
      by_cases hlen : c.length = 12 * 512
      · -- two blocks: the indirect one is read, so it is on the image as well
        have ha : d.addrs 12 = 0 := by
          by_contra hne
          have := hd.indirect.mp hne
          omega
        have hslot : slotFor s d 12 = (s.take, setAddr d 12 s.freeblock) := if_pos ha
        simp only [hslot, setAddr_self, Option.bind_eq_bind, Option.bind_eq_some_iff] at hb
        obtain ⟨indirect, hind, hb⟩ := hb
        unfold State.rsect at hind
        split at hind
        · have hblank : indirect = zeroBlock := by
            rw [← Option.some.inj hind]
            exact h.zero _ (Nat.le_refl _)
          rw [hblank, ptr_zeroBlock, if_pos rfl, Option.some.injEq, Prod.mk.injEq,
            Prod.mk.injEq] at hb
          have hnext : x = s.freeblock + 1 := hb.2.2.symm
          rw [if_pos hlen]
          omega
        · cases hind
      · have ha : d.addrs 12 ≠ 0 := hd.indirect.mpr (by omega)
        have hslot : slotFor s d 12 = (s, d) := if_neg ha
        rw [blockAt, dif_neg h12, if_neg ha] at hzero
        simp only [hslot, Option.bind_eq_bind, Option.bind_eq_some_iff] at hb
        obtain ⟨indirect, hind, hb⟩ := hb
        unfold State.rsect at hind
        split at hind
        · rw [← Option.some.inj hind, if_pos hzero, Option.some.injEq, Prod.mk.injEq,
            Prod.mk.injEq] at hb
          rw [if_neg hlen]
          omega
        · cases hind
  · rw [if_neg hm]
    omega

/-- **The loop of `iappend` comes to its end** only if the bytes fit into the file and onto the
image. -/
theorem room_of_appendLoop {rounds : Nat} {r : State × Dinode × Nat}
    (h : Space (Function.update T i d) s.img s.freeblock) (hd : Holds s.img d c)
    (hfree : s.freeblock ≤ size) (hrounds : p.length ≤ rounds)
    (hr : appendLoop rounds s d c.length p = some r) :
    (c ++ p).length ≤ 140 * 512 ∧ s.freeblock + needs (c ++ p).length ≤ size + needs c.length := by
  have hfits := hd.fits
  induction rounds generalizing s d c p with
  | zero =>
    rw [List.eq_nil_of_length_eq_zero (Nat.le_zero.mp hrounds), List.append_nil]
    omega
  | succ rounds ih =>
    by_cases hp : p = []
    · rw [hp, List.append_nil]
      omega
    · have hlen : 0 < p.length := List.length_pos_iff.mpr hp
      have hloop := hr
      rw [appendLoop, if_neg hp] at hr
      split at hr
      · rename_i hlast
        have hshort : c.length < 140 * 512 := by omega
        simp only [Option.bind_eq_bind, Option.bind_eq_some_iff] at hr
        obtain ⟨⟨s₀, d₀, x₀⟩, hb, buf, hbuf, -⟩ := hr
        have hx₀ : x₀ < size := by
          unfold State.rsect at hbuf
          split at hbuf
          · assumption
          · cases hbuf
        have hroom := room_of_blockFor h hd hfree hshort hb hx₀
        obtain ⟨s₁, d₁, x, hround⟩ := round_spec (p := p) h hd hp hshort hroom
        rw [hround.block, Option.some.injEq, Prod.mk.injEq, Prod.mk.injEq] at hb
        obtain ⟨rfl, rfl, rfl⟩ := hb
        rw [appendLoop_round rounds hround hp hshort hx₀] at hloop
        have hfree₁ := hround.free
        have hsame := (round_bytes c p).1
        have hnext : needs (c ++ p.take (512 - c.length % 512)).length = needs (c.length + 1) := by
          rw [← hsame]
          unfold needs
          split <;> split <;> omega
        have hless : (p.drop (512 - c.length % 512)).length ≤ rounds := by
          rw [List.length_drop]
          omega
        obtain ⟨hsmall, hrest⟩ := ih hround.appended.space hround.holds
          (by simp only [State.wsect]; omega) hless hloop hround.holds.fits
        rw [List.append_assoc, List.take_append_drop] at hsmall hrest
        simp only [State.wsect] at hrest
        exact ⟨hsmall, by omega⟩
      · cases hr

theorem room_of_iappend (h : Laid s V) {t : FileType} (hx : V i = some (.of t c))
    (hs : iappend s i p = some s') :
    (c ++ p).length ≤ 140 * 512 ∧ s.freeblock + needs (c ++ p).length ≤ size + needs c.length := by
  have hkeeps := h.item i _ hx
  have hspace : Space (Function.update (table s.img) i (table s.img i)) s.img s.freeblock := by
    rw [Function.update_eq_self]
    exact h.space
  have hsize : (table s.img i).size = c.length := hkeeps.size
  simp only [iappend, rinode_eq (h.lt_ninodes hx), hsize, Option.bind_eq_bind, Option.bind_some,
    Option.bind_eq_some_iff] at hs
  obtain ⟨r, hr, -⟩ := hs
  exact room_of_appendLoop hspace hkeeps.holds h.room (Nat.le_refl _) hr

theorem room_of_chunks {chunks : List (List Byte)} (h : Laid s V) {t : FileType}
    (hx : V i = some (.of t c)) (hs : chunks.foldlM (fun s c => iappend s i c) s = some s') :
    (c ++ chunks.flatten).length ≤ 140 * 512 ∧
      s.freeblock + needs (c ++ chunks.flatten).length ≤ size + needs c.length := by
  induction chunks generalizing s V c with
  | nil =>
    have := h.room
    have := (h.item i _ hx).holds.fits
    rw [List.flatten_nil, List.append_nil]
    exact ⟨this, by omega⟩
  | cons p chunks ih =>
    rw [List.foldlM_cons, Option.bind_eq_bind, Option.bind_eq_some_iff] at hs
    obtain ⟨s₁, hs₁, hs⟩ := hs
    obtain ⟨hfits, hroom⟩ := room_of_iappend h hx hs₁
    obtain ⟨s₁', hs₁', hlaid, -, hblk⟩ := iappend_spec h hx hfits hroom
    rw [hs₁, Option.some.injEq] at hs₁'
    subst hs₁'
    rw [List.flatten_cons, ← List.append_assoc]
    obtain ⟨hfits', hroom'⟩ := ih hlaid (Function.update_self ..) hs
    exact ⟨hfits', by omega⟩

/-- **A file is added** only if there is room for it. -/
theorem placeable_of_addFile {files : List InputFile} {f : InputFile} (h : Made s files)
    (ha : Placeable files) (hfew : files.length + 3 ≤ 200) (hs : addFile s f = some s') :
    Placeable (files ++ [f]) := by
  unfold addFile at hs
  split at hs
  · cases hs
  · rename_i hplain
    have hino := h.inodes
    have hblocks := h.blocks
    have hsum := blocksFor_append files f
    obtain ⟨s₁, h₁, hlaid₁, hino₁, hblk₁⟩ :=
      ialloc_spec h.laid (by omega) (t := .file) (by decide)
    rw [hino] at h₁ hlaid₁
    simp only [h₁, Option.bind_eq_bind, Option.bind_some, Option.bind_eq_some_iff] at hs
    obtain ⟨s₂, hs₂, hs⟩ := hs
    have hroot : Function.update (volume files) (files.length + 2) (some (.of .file [])) 1 =
        some (.of .dir (rootBytes files)) := Function.update_of_ne (by omega) ..
    obtain ⟨hfits, hroom⟩ := room_of_iappend hlaid₁ hroot hs₂
    obtain ⟨s₂', hs₂', hlaid₂, hino₂, hblk₂⟩ := iappend_spec hlaid₁ hroot hfits hroom
    rw [hs₂, Option.some.injEq] at hs₂'
    subst hs₂'
    have hnew : Function.update (Function.update (volume files) (files.length + 2)
        (some (.of .file []))) 1
        (some (.of .dir (rootBytes files ++ dirent f.shown (files.length + 2))))
        (files.length + 2) = some (.of .file []) := by
      rw [Function.update_of_ne (by omega), Function.update_self]
    obtain ⟨hsmall, hroom₂⟩ := room_of_chunks hlaid₂ hnew hs
    have hbytes : ([] ++ f.chunks.flatten).length = f.bytes.length := rfl
    have hnone : needs ([] : List Byte).length = 0 := by decide
    have hlen : (rootBytes files ++ dirent f.shown (files.length + 2)).length =
        16 * (files.length + 3) := by
      rw [List.length_append, length_rootBytes, length_dirent]
      omega
    rw [hbytes, hnone] at hroom₂
    rw [hlen, length_rootBytes] at hblk₂
    refine ⟨?_, fun g hg => ?_, by omega, fun g hg => ?_⟩
    · rw [List.length_append, List.length_singleton]
      omega
    · rcases List.mem_append.mp hg with hg | hg
      · exact ha.small g hg
      · rw [List.mem_singleton.mp hg]
        exact hsmall
    · rcases List.mem_append.mp hg with hg | hg
      · exact ha.plain g hg
      · rw [List.mem_singleton.mp hg]
        exact hplain

theorem placeable_of_addFiles {files : List InputFile} (rest : List InputFile) (h : Made s files)
    (ha : Placeable files) (hfew : (files ++ rest).length + 2 ≤ 200)
    (hs : rest.foldlM addFile s = some s') : Placeable (files ++ rest) := by
  induction rest generalizing s files with
  | nil =>
    rw [List.append_nil]
    exact ha
  | cons f rest ih =>
    rw [List.foldlM_cons, Option.bind_eq_bind, Option.bind_eq_some_iff] at hs
    obtain ⟨s₁, hs₁, hs⟩ := hs
    have hlen : files.length + 3 ≤ 200 := by
      rw [List.length_append, List.length_cons] at hfew
      omega
    have ha₁ := placeable_of_addFile h ha hlen hs₁
    obtain ⟨s₁', hs₁', hmade⟩ := addFile_spec h ha₁
    rw [hs₁, Option.some.injEq] at hs₁'
    subst hs₁'
    rw [← List.singleton_append, ← List.append_assoc] at hfew ⊢
    exact ih hmade ha₁ hfew hs

theorem placeable_nil : Placeable [] :=
  ⟨by decide, fun _ hf => absurd hf List.not_mem_nil, by decide,
    fun _ hf => absurd hf List.not_mem_nil⟩

/-- **With few enough files, `mkfs` comes to its end only if they can be placed.** -/
theorem placeable_of_main {files : List InputFile} (hfew : files.length + 2 ≤ 200)
    (hs : main files = some s) : Placeable files := by
  obtain ⟨s₁, h₁, hmade⟩ := makeRoot_spec
  simp only [main, h₁, Option.bind_eq_bind, Option.bind_some, Option.bind_eq_some_iff] at hs
  obtain ⟨s₂, h₂, -⟩ := hs
  exact placeable_of_addFiles files hmade placeable_nil hfew h₂

end

/-! ## 4. Where it writes -/

section

variable {T : Nat → Dinode} {s : State} {d : Dinode} {c p : List Byte} {V : Volume} {i : Nat}

theorem leaves_winode (hi : i < 200) (s : State) (d : Dinode) :
    Leaves (Watch.winode s i d) Write.Inside :=
  (leaves_lift _).bind fun _ _ =>
    (leaves_emit (inside_inode hi)).bind fun _ _ => leaves_pure _

theorem leaves_ialloc (hi : s.freeinode < 200) (t : FileType) :
    Leaves (Watch.ialloc s t) Write.Inside :=
  (leaves_winode hi _ _).bind fun _ _ => leaves_pure _

/-- `blockFor` writes the indirect block of the inode that it returns. -/
theorem leaves_blockFor {fbn : Nat} (h : ∀ s' d' x, blockFor s d fbn = some (s', d', x) →
    ¬fbn < 12 → Write.Inside ⟨.data, d'.addrs 12⟩) :
    Leaves (Watch.blockFor s d fbn) Write.Inside := by
  by_cases h12 : fbn < 12
  · rw [Watch.blockFor, dif_pos h12]
    exact leaves_pure _
  · rcases hslot : slotFor s d 12 with ⟨s₁, d₁⟩
    simp only [Watch.blockFor, dif_neg h12, hslot]
    refine (leaves_lift _).bind fun indirect hind => ?_
    rw [erase_lift] at hind
    split
    · rename_i hzero
      have hblock : blockFor s d fbn = some (s₁.take.wsect (d₁.addrs 12)
          (setPtr indirect (fbn - 12) s₁.freeblock), d₁, s₁.freeblock) := by
        simp only [blockFor, dif_neg h12, hslot, hind, Option.bind_eq_bind, Option.bind_some,
          if_pos hzero]
      exact (leaves_emit (h _ _ _ hblock h12)).bind fun _ _ => leaves_pure _
    · exact leaves_pure _

/-- **`iappend` writes its blocks**, if they are in the data area. -/
theorem leaves_appendLoop {rounds : Nat} (h : Space (Function.update T i d) s.img s.freeblock)
    (hd : Holds s.img d c) (hfits : (c ++ p).length ≤ 140 * 512)
    (hroom : s.freeblock + needs (c ++ p).length ≤ 1014 + needs c.length) :
    Leaves (Watch.appendLoop rounds s d c.length p) Write.Inside := by
  induction rounds generalizing s d c p with
  | zero => exact leaves_pure _
  | succ rounds ih =>
    by_cases hp : p = []
    · rw [Watch.appendLoop, if_pos hp]
      exact leaves_pure _
    · have hlen : 0 < p.length := List.length_pos_iff.mpr hp
      have hall : (c ++ p).length = c.length + p.length := List.length_append
      have hshort : c.length < 140 * 512 := by omega
      have hneeds := needs_mono (show c.length + 1 ≤ (c ++ p).length by omega)
      have hsize : size = 1024 := rfl
      obtain ⟨s₁, d₁, x, hround⟩ := round_spec (p := p) h hd hp hshort (by omega)
      obtain ⟨hsame, htake, hdrop, hoff⟩ := round_bytes c p
      have hle := needs_mono (show (c ++ p.take (512 - c.length % 512)).length ≤ (c ++ p).length by
        rw [← hsame]
        omega)
      have hfree := hround.free
      have hbelow : s₁.freeblock ≤ 1014 := by omega
      have hspace := hround.opened.space
      rw [Watch.appendLoop, if_neg hp, if_pos (by omega)]
      refine (leaves_blockFor fun s' d' x' hb h12 => ?_).bind ?_
      · rw [hround.block, Option.some.injEq, Prod.mk.injEq, Prod.mk.injEq] at hb
        obtain ⟨-, rfl, -⟩ := hb
        have hrange := hspace.own_range hround.type (.slot 12) (hround.indirect h12)
        have hslot : named s₁.img d₁ (.slot 12) = d₁.addrs 12 := rfl
        rw [inside_data_iff]
        omega
      · rintro ⟨s', d', x'⟩ hb
        rw [Watch.erase_blockFor, hround.block, Option.some.injEq, Prod.mk.injEq,
          Prod.mk.injEq] at hb
        obtain ⟨rfl, rfl, rfl⟩ := hb
        refine (leaves_lift _).bind fun buf hbuf => ?_
        have himg : buf = s₁.img x := by
          rw [erase_lift, State.rsect] at hbuf
          split at hbuf
          · exact (Option.some.inj hbuf).symm
          · cases hbuf
        obtain ⟨hown, hne⟩ := hround.own
        have hin : Write.Inside ⟨.data, x⟩ := by
          have hge := (hspace.own_block hround.type (by omega) (hown ▸ hne)).1
          have hlt := hround.below
          rw [inside_data_iff]
          omega
        refine (leaves_emit hin).bind fun _ _ => ?_
        rw [himg, hsame, htake, hdrop, hoff]
        refine ih hround.appended.space hround.holds ?_ ?_
        · rwa [List.append_assoc, List.take_append_drop]
        · rw [List.append_assoc, List.take_append_drop]
          simp only [State.wsect]
          omega

theorem leaves_iappend (h : Laid s V) {t : FileType} (hx : V i = some (.of t c))
    (hfits : (c ++ p).length ≤ 140 * 512)
    (hroom : s.freeblock + needs (c ++ p).length ≤ 1014 + needs c.length) :
    Leaves (Watch.iappend s i p) Write.Inside := by
  have hi := h.lt_ninodes hx
  have hkeeps := h.item i _ hx
  have hspace : Space (Function.update (table s.img) i (table s.img i)) s.img s.freeblock := by
    rw [Function.update_eq_self]
    exact h.space
  refine (leaves_lift _).bind fun din hdin => ?_
  rw [erase_lift, rinode_eq hi, Option.some.injEq] at hdin
  subst hdin
  have hsize : (table s.img i).size = c.length := hkeeps.size
  rw [hsize]
  exact (leaves_appendLoop hspace hkeeps.holds hfits hroom).bind fun _ _ => leaves_winode hi _ _

theorem leaves_chunks {chunks : List (List Byte)} (h : Laid s V) {t : FileType}
    (hx : V i = some (.of t c)) (hfits : (c ++ chunks.flatten).length ≤ 140 * 512)
    (hroom : s.freeblock + needs (c ++ chunks.flatten).length ≤ 1014 + needs c.length) :
    Leaves (chunks.foldlM (fun s c => Watch.iappend s i c) s) Write.Inside := by
  induction chunks generalizing s V c with
  | nil => exact leaves_pure _
  | cons p chunks ih =>
    rw [List.flatten_cons, ← List.append_assoc] at hfits hroom
    have hle : (c ++ p).length ≤ (c ++ p ++ chunks.flatten).length := by
      simp only [List.length_append]
      omega
    have hneeds := needs_mono hle
    have hsize : size = 1024 := rfl
    rw [List.foldlM_cons]
    refine (leaves_iappend h hx (by omega) (by omega)).bind fun s₁ hs₁ => ?_
    obtain ⟨s₁', hs₁', hlaid, -, hblk⟩ := iappend_spec h hx (p := p) (by omega) (by omega)
    rw [Watch.erase_iappend, hs₁', Option.some.injEq] at hs₁
    subst hs₁
    exact ih hlaid (Function.update_self ..) hfits (by omega)

theorem leaves_makeRoot : Leaves (Watch.makeRoot blank) Write.Inside := by
  refine (leaves_ialloc (by decide) _).bind fun ⟨rootino, s₁⟩ hs₁ => ?_
  obtain ⟨s₁', hs₁', hlaid₁, -, hblk₁⟩ := ialloc_spec laid_blank (by decide) (t := .dir) (by decide)
  rw [Watch.erase_ialloc, hs₁', Option.some.injEq, Prod.mk.injEq] at hs₁
  obtain ⟨rfl, rfl⟩ := hs₁
  have hfree₁ : s₁'.freeblock = 29 := hblk₁
  have hroot := Function.update_self blank.freeinode (some (Item.of .dir [])) fun _ => none
  have hone : blank.freeinode = 1 := rfl
  rw [hone] at hlaid₁ hroot ⊢
  refine (leaves_iappend hlaid₁ hroot (by decide) (by rw [hfree₁]; decide)).bind fun s₂ hs₂ => ?_
  obtain ⟨s₂', hs₂', hlaid₂, -, hblk₂⟩ := iappend_spec (p := dirent dot 1) hlaid₁ hroot (by decide)
    (by rw [hfree₁]; decide)
  rw [Watch.erase_iappend, hs₂', Option.some.injEq] at hs₂
  subst hs₂
  have hfree₂ : s₂'.freeblock = 30 := by
    have e : needs ([] ++ dirent dot 1).length = 1 := by decide
    have e' : needs ([] : List Byte).length = 0 := by decide
    omega
  exact leaves_iappend hlaid₂ (Function.update_self ..) (by decide) (by rw [hfree₂]; decide)

theorem leaves_addFile {files : List InputFile} {f : InputFile} (h : Made s files)
    (ha : Placeable (files ++ [f])) (hroom : blocksFor (files ++ [f]) ≤ nblocks) :
    Leaves (Watch.addFile s f) Write.Inside := by
  have hfew := ha.few
  have hmem : f ∈ files ++ [f] := List.mem_append_right _ List.mem_cons_self
  have hsum := blocksFor_append files f
  have hino := h.inodes
  have hfree := h.blocks
  have hmono := needs_mono (show 16 * (files.length + 2) ≤ 16 * (files.length + 3) by omega)
  have hsize : size = 1024 := rfl
  rw [List.length_append, List.length_singleton] at hfew
  rw [firstBlock_eq] at hfree
  unfold nblocks at hroom
  rw [Watch.addFile, if_neg (ha.plain f hmem)]
  refine (leaves_ialloc (by omega) _).bind fun ⟨inum, s₁⟩ hs₁ => ?_
  obtain ⟨s₁', hs₁', hlaid₁, -, hblk₁⟩ := ialloc_spec h.laid (by omega) (t := .file) (by decide)
  rw [Watch.erase_ialloc, hs₁', Option.some.injEq, Prod.mk.injEq] at hs₁
  obtain ⟨rfl, rfl⟩ := hs₁
  rw [hino] at hlaid₁ ⊢
  -- its entry
  have hlen : (rootBytes files ++ dirent f.shown (files.length + 2)).length =
      16 * (files.length + 3) := by
    rw [List.length_append, length_rootBytes, length_dirent]
    omega
  have hroot : Function.update (volume files) (files.length + 2) (some (.of .file [])) 1 =
      some (.of .dir (rootBytes files)) := Function.update_of_ne (by omega) ..
  refine (leaves_iappend hlaid₁ hroot (by omega)
    (by rw [hlen, length_rootBytes]; omega)).bind fun s₂ hs₂ => ?_
  obtain ⟨s₂', hs₂', hlaid₂, -, hblk₂⟩ :=
    iappend_spec hlaid₁ hroot (p := dirent f.shown (files.length + 2)) (by omega)
      (by rw [hlen, length_rootBytes]; omega)
  rw [Watch.erase_iappend, hs₂', Option.some.injEq] at hs₂
  subst hs₂
  rw [hlen, length_rootBytes] at hblk₂
  -- its bytes
  have hnew : Function.update (Function.update (volume files) (files.length + 2)
      (some (.of .file []))) 1
      (some (.of .dir (rootBytes files ++ dirent f.shown (files.length + 2)))) (files.length + 2) =
      some (.of .file []) := by
    rw [Function.update_of_ne (by omega), Function.update_self]
  have hbytes : ([] ++ f.chunks.flatten).length = f.bytes.length := rfl
  have hnone : needs ([] : List Byte).length = 0 := by decide
  exact leaves_chunks hlaid₂ hnew (by rw [hbytes]; exact ha.small f hmem)
    (by rw [hbytes, hnone]; omega)

theorem leaves_addFiles {files : List InputFile} (rest : List InputFile) (h : Made s files)
    (ha : Placeable (files ++ rest)) (hroom : blocksFor (files ++ rest) ≤ nblocks) :
    Leaves (rest.foldlM Watch.addFile s) Write.Inside := by
  induction rest generalizing s files with
  | nil => exact leaves_pure _
  | cons f rest ih =>
    rw [← List.singleton_append, ← List.append_assoc] at ha hroom
    rw [List.foldlM_cons]
    refine (leaves_addFile h ha.left (Nat.le_trans (blocksFor_le _ rest) hroom)).bind
      fun s₁ hs₁ => ?_
    obtain ⟨s₁', hs₁', hmade⟩ := addFile_spec h ha.left
    rw [Watch.erase_addFile, hs₁', Option.some.injEq] at hs₁
    subst hs₁
    exact ih hmade ha hroom

/-- **Files that fit in the data area are put there.** -/
theorem leaves_main {files : List InputFile} (ha : Placeable files)
    (hroom : blocksFor files ≤ nblocks) : Leaves (Watch.main files) Write.Inside := by
  refine leaves_makeRoot.bind fun s₁ hs₁ => ?_
  obtain ⟨s₁', hs₁', hmade₁⟩ := makeRoot_spec
  rw [Watch.erase_makeRoot, hs₁', Option.some.injEq] at hs₁
  subst hs₁
  refine (leaves_addFiles files hmade₁ ha hroom).bind fun s₂ _ => ?_
  refine ((leaves_lift _).bind fun _ _ => leaves_winode (by decide) _ _).bind fun s₃ _ => ?_
  unfold Watch.balloc
  split
  · exact (leaves_emit ⟨by decide, by decide⟩).bind fun _ _ => leaves_pure _
  · exact leaves_lift _

end

/-! ## 5. Inside the regions -/

/-- What `mkfs` has made keeps to the regions: the inodes that it has handed out are in the table,
the blocks in the data area, and every sector was written on behalf of its own region. -/
structure Confined (files : List InputFile) (s : State) : Prop where
  inodes : ∀ i, blank.freeinode ≤ i → i < s.freeinode → i < ninodes
  blocks : ∀ b, blank.freeblock ≤ b → b < s.freeblock → Write.Inside ⟨.data, b⟩
  writes : ∃ ws, Watch.main files = some (s, ws) ∧ ∀ w ∈ ws, w.Inside

/-- A run that comes to its end has a trail. -/
theorem watched_of_main {files : List InputFile} {s : State} (h : main files = some s) :
    ∃ ws, Watch.main files = some (s, ws) := by
  rw [← Watch.erase_main] at h
  obtain ⟨⟨s', ws⟩, hws, rfl⟩ := Option.map_eq_some_iff.mp h
  exact ⟨ws, hws⟩

section

variable {s s' : State}

theorem freeinode_winode {i : Nat} {d : Dinode} (h : winode s i d = some s') :
    s'.freeinode = s.freeinode := by
  simp only [winode, Option.bind_eq_bind, Option.bind_eq_some_iff] at h
  obtain ⟨_, -, h⟩ := h
  rw [← Option.some.inj h]
  rfl

theorem freeinode_ialloc {t : FileType} {i : Nat} (h : ialloc s t = some (i, s')) :
    s'.freeinode = s.freeinode + 1 := by
  simp only [ialloc, Option.bind_eq_bind, Option.bind_eq_some_iff] at h
  obtain ⟨s₁, hw, h⟩ := h
  rw [Option.some.injEq, Prod.mk.injEq] at h
  rw [← h.2]
  exact freeinode_winode hw

theorem freeinode_slotFor {d : Dinode} {n : Fin 13} :
    (slotFor s d n).1.freeinode = s.freeinode := by
  unfold slotFor
  split <;> rfl

theorem freeinode_blockFor {d d' : Dinode} {fbn x : Nat}
    (h : blockFor s d fbn = some (s', d', x)) : s'.freeinode = s.freeinode := by
  unfold blockFor at h
  split at h
  · rw [Option.some.injEq, Prod.mk.injEq] at h
    rw [← h.1]
    exact freeinode_slotFor
  · simp only [Option.bind_eq_bind, Option.bind_eq_some_iff] at h
    obtain ⟨indirect, -, h⟩ := h
    split at h
    all_goals
      rw [Option.some.injEq, Prod.mk.injEq] at h
      rw [← h.1]
      exact freeinode_slotFor

theorem freeinode_appendLoop {rounds off : Nat} {d : Dinode} {p : List Byte}
    {r : State × Dinode × Nat} (h : appendLoop rounds s d off p = some r) :
    r.1.freeinode = s.freeinode := by
  induction rounds generalizing s d off p with
  | zero =>
    rw [← Option.some.inj h]
  | succ rounds ih =>
    rw [appendLoop] at h
    split at h
    · rw [← Option.some.inj h]
    · split at h
      · simp only [Option.bind_eq_bind, Option.bind_eq_some_iff] at h
        obtain ⟨⟨s₁, d₁, x⟩, hb, buf, -, h⟩ := h
        have hsame : s₁.freeinode = s.freeinode := freeinode_blockFor hb
        exact (ih h).trans hsame
      · cases h

theorem freeinode_iappend {i : Nat} {p : List Byte} (h : iappend s i p = some s') :
    s'.freeinode = s.freeinode := by
  simp only [iappend, Option.bind_eq_bind, Option.bind_eq_some_iff] at h
  obtain ⟨din, -, ⟨s₁, d₁, off⟩, hloop, hw⟩ := h
  exact (freeinode_winode hw).trans (freeinode_appendLoop hloop)

theorem freeinode_chunks {i : Nat} {chunks : List (List Byte)}
    (h : chunks.foldlM (fun s c => iappend s i c) s = some s') : s'.freeinode = s.freeinode := by
  induction chunks generalizing s with
  | nil => rw [← Option.some.inj h]
  | cons p chunks ih =>
    rw [List.foldlM_cons, Option.bind_eq_bind, Option.bind_eq_some_iff] at h
    obtain ⟨s₁, hs₁, h⟩ := h
    exact (ih h).trans (freeinode_iappend hs₁)

theorem freeinode_addFiles {files : List InputFile} (h : files.foldlM addFile s = some s') :
    s'.freeinode = s.freeinode + files.length := by
  induction files generalizing s with
  | nil => rw [← Option.some.inj h]; rfl
  | cons f files ih =>
    rw [List.foldlM_cons, Option.bind_eq_bind, Option.bind_eq_some_iff] at h
    obtain ⟨s₁, hs₁, h⟩ := h
    unfold addFile at hs₁
    split at hs₁
    · cases hs₁
    · simp only [Option.bind_eq_bind, Option.bind_eq_some_iff] at hs₁
      obtain ⟨⟨i, s₂⟩, hs₂, s₃, hs₃, hs₁⟩ := hs₁
      rw [ih h, freeinode_chunks hs₁, freeinode_iappend hs₃, freeinode_ialloc hs₂, List.length_cons]
      omega

/-- Every file has got an inode, however many there are. -/
theorem freeinode_main {files : List InputFile} (h : main files = some s) :
    s.freeinode = files.length + 2 := by
  obtain ⟨s₁, h₁, hmade⟩ := makeRoot_spec
  simp only [main, h₁, Option.bind_eq_bind, Option.bind_some, Option.bind_eq_some_iff] at h
  obtain ⟨s₂, h₂, s₃, h₃, h₄⟩ := h
  have hfix : s₃.freeinode = s₂.freeinode := by
    simp only [fixRoot, Option.bind_eq_bind, Option.bind_eq_some_iff] at h₃
    obtain ⟨din, -, hw⟩ := h₃
    exact freeinode_winode hw
  have hbit : s.freeinode = s₃.freeinode := by
    unfold balloc at h₄
    split at h₄
    · rw [← Option.some.inj h₄]
      rfl
    · cases h₄
  have hroot : s₁.freeinode = 2 := hmade.inodes
  rw [hbit, hfix, freeinode_addFiles h₂, hroot]
  omega

end

/-- **What has been made keeps to the regions if and only if there are inodes and data blocks for
all of the files.** -/
theorem confined_iff {files : List InputFile} {s : State} (h : main files = some s) :
    Confined files s ↔ files.length + 2 ≤ ninodes ∧ blocksFor files ≤ nblocks := by
  have hino := freeinode_main h
  have hblank : blank.freeinode = 1 := rfl
  have hten : ninodes = 200 := rfl
  have hblocks : files.length + 2 ≤ ninodes → Placeable files ∧ s.freeblock = 29 + blocksFor files :=
    fun hfew => by
      have ha := placeable_of_main hfew h
      obtain ⟨s', hs', -, hblk, -⟩ := main_spec ha
      rw [h, Option.some.injEq] at hs'
      subst hs'
      exact ⟨ha, hblk⟩
  constructor
  · intro hc
    have hfew : files.length + 2 ≤ ninodes := by
      have := hc.inodes (files.length + 1) (by omega) (by omega)
      omega
    refine ⟨hfew, ?_⟩
    obtain ⟨-, hblk⟩ := hblocks hfew
    by_contra hmore
    unfold nblocks at hmore
    have hfirst : blank.freeblock = 29 := rfl
    have := hc.blocks 1014 (by omega) (by omega)
    rw [inside_data_iff] at this
    omega
  · rintro ⟨hfew, hroom⟩
    obtain ⟨ha, hblk⟩ := hblocks hfew
    obtain ⟨ws, hws⟩ := watched_of_main h
    refine ⟨fun i _ hi => by omega, fun b hb hlt => ?_, ws, hws, leaves_main ha hroom s ws hws⟩
    have hfirst : blank.freeblock = 29 := rfl
    unfold nblocks at hroom
    rw [inside_data_iff]
    omega

/-- **`mkfs` keeps to its regions, or stops, exactly for the files for which it is not the case that
it comes to the end although inodes or data blocks have run out.** -/
theorem mkfs_confined_iff (files : List InputFile) :
    (∀ s, main files = some s → Confined files s) ↔
      ((main files).isSome → files.length + 2 ≤ ninodes ∧ blocksFor files ≤ nblocks) := by
  cases h : main files with
  | none => exact ⟨fun _ hsome => (by cases hsome), fun _ s hs => (by cases hs)⟩
  | some s =>
    refine ⟨fun hall _ => (confined_iff h).mp (hall s rfl), fun hroom s' hs' => ?_⟩
    cases hs'
    exact (confined_iff h).mpr (hroom rfl)

/-- Seven files of 140 blocks each. -/
def sevenFiles : List InputFile := fillers 140

theorem blocksFor_sevenFiles : blocksFor sevenFiles = 988 := by
  have hsum : (sevenFiles.map fun f => needs f.bytes.length) =
      [140, 140, 140, 140, 140, 140, 140].map fun n => needs (n * 512) := by
    simp only [sevenFiles, fillers, List.map_cons, List.map_nil, length_filler]
  rw [blocksFor, hsum]
  decide

theorem placeable_sevenFiles : Placeable sevenFiles := by
  refine ⟨by decide, fun f hf => ?_, by rw [blocksFor_sevenFiles]; decide, fun f hf => ?_⟩
  · simp only [sevenFiles, fillers, List.mem_cons, List.not_mem_nil, or_false] at hf
    rcases hf with rfl | rfl | rfl | rfl | rfl | rfl | rfl <;>
      exact Nat.le_of_eq (length_filler _ _)
  · simp only [sevenFiles, fillers, List.mem_cons, List.not_mem_nil, or_false] at hf
    rcases hf with rfl | rfl | rfl | rfl | rfl | rfl | rfl <;> decide

/-- **`mkfs` puts the last of seven files into the log**: three blocks of it are behind the data
area. -/
theorem mkfs_allocates_in_log : ∃ s, main sevenFiles = some s ∧ s.freeblock = 1017 ∧
    size - nlog = 1014 ∧ ¬Confined sevenFiles s := by
  obtain ⟨s, hmain, -, hblk, -⟩ := main_spec placeable_sevenFiles
  rw [blocksFor_sevenFiles] at hblk
  refine ⟨s, hmain, hblk, rfl, fun hc => ?_⟩
  have := ((confined_iff hmain).mp hc).2
  rw [blocksFor_sevenFiles] at this
  exact absurd this (by decide)

end Xv6.Mkfs
