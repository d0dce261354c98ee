/-
# `main` of mkfs: what is on the image

A `Volume` says which inodes there are to be and what is to be in them, with no blocks and no
sectors.  An image is LAID out for a volume if every inode is on it as the volume has it and the
blocks are taken in order.  `ialloc` adds an item to the volume, `iappend` appends to one, and so the
volume of a whole list of files is known in advance (`volume`), together with the number of blocks
it takes (`blocksFor`).

The last step of `main` gives the root directory a size that is a multiple of the block size, so
the SIZE of an item is not always the number of its bytes.
-/
import Xv6.Fs.Layers
import Xv6.Mkfs.Append

namespace Xv6.Mkfs

open Xv6.Bytes Xv6.Fs

/-! ## 1. Volumes -/

/-- An inode as it is to be: its type, the size it says it has, and its bytes. -/
structure Item where
  type : FileType
  size : Nat
  bytes : List Byte

/-- A file that has the size of its bytes. -/
def Item.of (type : FileType) (bytes : List Byte) : Item := ⟨type, bytes.length, bytes⟩

/-- The inodes in use. -/
abbrev Volume := Nat → Option Item

/-- An inode is as it is to be. -/
structure Keeps (blk : Nat → Block) (d : Dinode) (x : Item) : Prop where
  type : d.type = x.type
  nlink : d.nlink = 1
  size : d.size = x.size
  holds : Holds blk d x.bytes

/-- The image is laid out for a volume. -/
structure Laid (s : State) (V : Volume) : Prop where
  used : s.usedblocks = s.freeblock
  room : s.freeblock ≤ size
  space : Space (table s.img) s.img s.freeblock
  empty : ∀ i, V i = none → table s.img i = Dinode.zero
  item : ∀ i x, V i = some x → Keeps s.img (table s.img i) x
  fresh : ∀ i, s.freeinode ≤ i → V i = none
  superblock : s.img 1 = blank.img 1

section

variable {s s' : State} {V : Volume} {i : Nat} {d d' e : Dinode} {x : Item} {c p : List Byte}

theorem Laid.lt_ninodes (h : Laid s V) (hx : V i = some x) : i < 200 := by
  by_contra hge
  refine (h.item i x hx).holds.type ?_
  rw [table, ninodes_eq, if_neg hge]
  rfl

theorem Laid.lt_freeinode (h : Laid s V) (hx : V i = some x) : i < s.freeinode := by
  by_contra hge
  rw [h.fresh i (by omega)] at hx
  cases hx

/-- **An inode is written to its sector**, after something has been appended to it. -/
theorem Laid.store (h : Laid s V) (hi : i < 200) (hfree : i < s.freeinode)
    (happ : Appended (table s.img) i s d s' d') (hroom : s'.freeblock ≤ size)
    (ht : e.type = d'.type) (ha : e.addrs = d'.addrs) (hx : Keeps s'.img e x)
    (hsize : x.size < 2 ^ 32) :
    ∃ s'', winode s' i e = some s'' ∧ Laid s'' (Function.update V i (some x)) ∧
      s''.freeinode = s.freeinode ∧ s''.freeblock = s'.freeblock := by
  have hspace : Space (Function.update (table s.img) i e) s'.img s'.freeblock := by
    have := happ.space.resize (i := i) (d := e) (by rw [Function.update_self, ht])
      (by rw [Function.update_self, ha])
    rwa [Function.update_idem] at this
  have htable : table s'.img = table s.img := by
    refine funext fun (j : Nat) => ?_
    rw [table, table, ninodes_eq]
    split
    · rw [happ.low _ (by omega)]
    · rfl
  have hself : Function.update (table s.img) i e i = e := Function.update_self ..
  have hfits : Fits e := by
    refine ⟨by rw [hx.size]; exact hsize, fun n => ?_⟩
    have := hspace.own_addrs_lt hx.holds.type n
    unfold size at hroom
    omega
  have hsec : 2 ≤ i2b i ∧ i2b i < 29 := by
    unfold i2b
    omega
  have hnew : table (Function.update s'.img _ _) = _ := table_winode hfits hi
  rw [htable] at hnew
  -- no inode names the sector of an inode
  have hother : ∀ j, (Function.update (table s.img) i e j).type ≠ .free → ∀ pl,
      named s'.img (Function.update (table s.img) i e j) pl ≠ i2b i := by
    intro j hj pl he
    have := hspace.named_range hj pl (by omega)
    omega
  refine ⟨_, winode_eq hi e, ?_, happ.inodes, rfl⟩
  refine ⟨?_, hroom, ?_, fun j hj => ?_, fun j y hj => ?_, fun j hj => ?_, ?_⟩
  · have := happ.used
    have := h.used
    show s'.usedblocks = s'.freeblock
    omega
  · show Space (table (Function.update s'.img _ _)) (Function.update s'.img _ _) s'.freeblock
    rw [hnew]
    exact hspace.low (by omega) hsec.2 _
  · show table (Function.update s'.img _ _) j = _
    have hne : j ≠ i := by
      rintro rfl
      rw [Function.update_self] at hj
      cases hj
    rw [hnew, Function.update_of_ne hne]
    rw [Function.update_of_ne hne] at hj
    exact h.empty j hj
  · show Keeps (Function.update s'.img _ _) (table (Function.update s'.img _ _) j) y
    rw [hnew]
    rcases eq_or_ne j i with rfl | hne
    · rw [Function.update_self] at hj
      cases hj
      have hpl := hother j
      rw [hself] at hpl ⊢
      exact ⟨hx.type, hx.nlink, hx.size, hx.holds.update (hpl hx.holds.type) _⟩
    · rw [Function.update_of_ne hne] at hj
      have hkeeps := h.item j y hj
      have hpl := hother j
      rw [Function.update_of_ne hne] at hpl ⊢
      exact ⟨hkeeps.type, hkeeps.nlink, hkeeps.size,
        (happ.others j hne hkeeps.holds.type _ hkeeps.holds).update (hpl hkeeps.holds.type) _⟩
  · have hge : s.freeinode ≤ j := by
      rw [← happ.inodes]
      exact hj
    rw [Function.update_of_ne (by omega)]
    exact h.fresh j hge
  · simp only [State.wsect]
    rw [Function.update_of_ne (by omega), happ.low 1 (by omega)]
    exact h.superblock

/-- **`ialloc`** -/
theorem ialloc_spec (h : Laid s V) (hfew : s.freeinode < 200) {t : FileType} (ht : t ≠ .free) :
    ∃ s', ialloc s t = some (s.freeinode, s') ∧
      Laid s' (Function.update V s.freeinode (some (.of t []))) ∧
      s'.freeinode = s.freeinode + 1 ∧ s'.freeblock = s.freeblock := by
  have hnext : Laid { s with freeinode := s.freeinode + 1 } V :=
    ⟨h.used, h.room, h.space, h.empty, h.item, fun j hj => h.fresh j (Nat.le_of_succ_le hj),
      h.superblock⟩
  have hzero := h.empty _ (h.fresh _ (Nat.le_refl _))
  have hblocks : ∀ bn, blockAt s.img { Dinode.zero with type := t, nlink := 1 } bn = 0 := by
    intro bn
    unfold blockAt
    split
    · rfl
    · exact if_pos rfl
  have hkeeps : Keeps s.img { Dinode.zero with type := t, nlink := 1 } (.of t []) := by
    refine ⟨rfl, rfl, rfl, ht, Nat.zero_le _, fun bn _ => ?_, ?_, rfl⟩
    · rw [hblocks]
      exact ⟨fun hne => absurd rfl hne, fun hlt => absurd hlt (Nat.not_lt_zero _)⟩
    · exact ⟨fun hne => absurd rfl hne, fun hlt => absurd hlt (Nat.not_lt_zero _)⟩
  have hfill : Space (Function.update (table s.img) s.freeinode
      { Dinode.zero with type := t, nlink := 1 }) s.img s.freeblock :=
    h.space.fill (by rw [hzero]; rfl) fun _ => rfl
  obtain ⟨s', hw, hlaid, hino, hblk⟩ := hnext.store hfew (Nat.lt_succ_self _)
    (.refl hfill) h.room rfl rfl hkeeps (Nat.two_pow_pos 32)
  refine ⟨s', ?_, hlaid, hino, hblk⟩
  rw [ialloc, hw]
  rfl

/-- **`iappend`** -/
theorem iappend_spec (h : Laid s V) {t : FileType} (hx : V i = some (.of t c))
    (hfits : (c ++ p).length ≤ 140 * 512)
    (hroom : s.freeblock + needs (c ++ p).length ≤ size + needs c.length) :
    ∃ s', iappend s i p = some s' ∧ Laid s' (Function.update V i (some (.of t (c ++ p)))) ∧
      s'.freeinode = s.freeinode ∧
      s'.freeblock + needs c.length = s.freeblock + needs (c ++ p).length := by
  have hi := h.lt_ninodes hx
  have hkeeps := h.item i _ hx
  have hspace : Space (Function.update (table s.img) i (table s.img i)) s.img s.freeblock := by
    rw [Function.update_eq_self]
    exact h.space
  have hholds : Holds s.img (table s.img i) c := hkeeps.holds
  obtain ⟨s₁, d₁, hloop, happ, hd₁, hfree⟩ :=
    appendLoop_spec p.length hspace hholds (Nat.le_refl _) hfits hroom
  have hfields := happ.fields
  have hnew : Keeps s₁.img { d₁ with size := (c ++ p).length } (.of t (c ++ p)) := by
    refine ⟨?_, ?_, rfl, ⟨hd₁.type, hd₁.fits, hd₁.shape, hd₁.indirect, hd₁.bytes⟩⟩
    · show d₁.type = t
      rw [hfields]
      exact hkeeps.type
    · show d₁.nlink = 1
      rw [hfields]
      exact hkeeps.nlink
  have hsmall : (Item.of t (c ++ p)).size < 2 ^ 32 := by
    show (c ++ p).length < 2 ^ 32
    omega
  obtain ⟨s₂, hw, hlaid, hino, hblk⟩ :=
    h.store (e := { d₁ with size := (c ++ p).length }) hi (h.lt_freeinode hx) happ (by omega)
      rfl rfl hnew hsmall
  refine ⟨s₂, ?_, hlaid, hino, by omega⟩
  have hsize : (table s.img i).size = c.length := hkeeps.size
  simp only [iappend, rinode_eq hi, hsize, Option.bind_eq_bind, Option.bind_some, hloop]
  exact hw

/-- A file is read chunk by chunk. -/
theorem iappend_chunks (chunks : List (List Byte)) (h : Laid s V) {t : FileType}
    (hx : V i = some (.of t c)) (hfits : (c ++ chunks.flatten).length ≤ 140 * 512)
    (hroom : s.freeblock + needs (c ++ chunks.flatten).length ≤ size + needs c.length) :
    ∃ s', chunks.foldlM (fun s c => iappend s i c) s = some s' ∧
      Laid s' (Function.update V i (some (.of t (c ++ chunks.flatten)))) ∧
      s'.freeinode = s.freeinode ∧
      s'.freeblock + needs c.length = s.freeblock + needs (c ++ chunks.flatten).length := by
  induction chunks generalizing s V c with
  | nil =>
    rw [List.flatten_nil, List.append_nil]
    refine ⟨s, rfl, ?_, rfl, rfl⟩
    rwa [← hx, Function.update_eq_self]
  | cons p chunks ih =>
    rw [List.flatten_cons, ← List.append_assoc] at hfits hroom ⊢
    have hle : (c ++ p).length ≤ (c ++ p ++ chunks.flatten).length := by
      simp only [List.length_append]
      omega
    have hneeds := needs_mono hle
    obtain ⟨s₁, hs₁, hlaid₁, hino₁, hblk₁⟩ :=
      iappend_spec h hx (p := p) (by omega) (by omega)
    obtain ⟨s₂, hs₂, hlaid₂, hino₂, hblk₂⟩ :=
      ih hlaid₁ (Function.update_self ..) hfits (by omega)
    rw [Function.update_idem] at hlaid₂
    refine ⟨s₂, ?_, hlaid₂, hino₂.trans hino₁, by omega⟩
    rw [List.foldlM_cons, hs₁]
    exact hs₂

end

/-! ## 2. The volume of a list of files -/

/-- The entries of the files in the root directory; the first of them gets inode `inum`. -/
def fileEntries : Nat → List InputFile → List Byte
  | _, [] => []
  | inum, f :: files => dirent f.shown inum ++ fileEntries (inum + 1) files

/-- The bytes of the root directory. -/
def rootBytes (files : List InputFile) : List Byte :=
  dirent dot 1 ++ dirent dotdot 1 ++ fileEntries 2 files

/-- The root directory is inode 1, the files are the inodes after it. -/
def volume (files : List InputFile) : Volume
  | 0 => none
  | 1 => some (.of .dir (rootBytes files))
  | k + 2 => files[k]?.map fun f => .of .file f.bytes

/-- The number of blocks that it takes. -/
def blocksFor (files : List InputFile) : Nat :=
  needs (16 * (files.length + 2)) + (files.map fun f => needs f.bytes.length).sum

/-- The files fit on the disk behind the bitmap and in the inode table, each has at most MAXFILE
blocks, and there is no `/` in a name. -/
structure Placeable (files : List InputFile) : Prop where
  few : files.length + 2 ≤ 200
  small : ∀ f ∈ files, f.bytes.length ≤ 140 * 512
  room : firstBlock + blocksFor files ≤ size
  plain : ∀ f ∈ files, slash ∉ f.name

/-- They fit in the DATA AREA, in front of the log. -/
structure Accepted (files : List InputFile) : Prop where
  few : files.length + 2 ≤ 200
  small : ∀ f ∈ files, f.bytes.length ≤ 140 * 512
  room : blocksFor files ≤ nblocks
  plain : ∀ f ∈ files, slash ∉ f.name

theorem firstBlock_eq : firstBlock = 29 := rfl

theorem Accepted.placeable {files : List InputFile} (h : Accepted files) : Placeable files := by
  have hroom := h.room
  unfold nblocks at hroom
  refine ⟨h.few, h.small, ?_, h.plain⟩
  rw [firstBlock_eq]
  unfold size
  omega

instance (files : List InputFile) : Decidable (Accepted files) :=
  decidable_of_iff (files.length + 2 ≤ 200 ∧ (∀ f ∈ files, f.bytes.length ≤ 140 * 512) ∧
      blocksFor files ≤ nblocks ∧ ∀ f ∈ files, slash ∉ f.name)
    ⟨fun ⟨a, b, c, d⟩ => ⟨a, b, c, d⟩, fun h => ⟨h.few, h.small, h.room, h.plain⟩⟩

@[simp] theorem length_fileEntries (inum : Nat) (files : List InputFile) :
    (fileEntries inum files).length = 16 * files.length := by
  induction files generalizing inum with
  | nil => rfl
  | cons f files ih =>
    rw [fileEntries, List.length_append, length_dirent, ih, List.length_cons]
    omega

@[simp] theorem length_rootBytes (files : List InputFile) :
    (rootBytes files).length = 16 * (files.length + 2) := by
  simp only [rootBytes, List.length_append, length_dirent, length_fileEntries]
  omega

theorem fileEntries_append (inum : Nat) (files : List InputFile) (f : InputFile) :
    fileEntries inum (files ++ [f]) =
      fileEntries inum files ++ dirent f.shown (inum + files.length) := by
  induction files generalizing inum with
  | nil => simp [fileEntries]
  | cons g files ih =>
    rw [List.cons_append, fileEntries, fileEntries, ih, List.append_assoc, List.length_cons,
      Nat.add_assoc, Nat.add_comm 1]

theorem volume_fresh {files : List InputFile} {i : Nat} (h : files.length + 2 ≤ i) :
    volume files i = none := by
  obtain ⟨k, rfl⟩ : ∃ k, i = k + 2 := ⟨i - 2, by omega⟩
  simp only [volume, Option.map_eq_none_iff, List.getElem?_eq_none_iff]
  omega

/-- What `ialloc`, the new entry and the bytes of a file make of a volume. -/
theorem volume_append (files : List InputFile) (f : InputFile) :
    Function.update (Function.update (Function.update (volume files) (files.length + 2)
        (some (.of .file []))) 1
      (some (.of .dir (rootBytes files ++ dirent f.shown (files.length + 2)))))
      (files.length + 2) (some (.of .file f.bytes)) = volume (files ++ [f]) := by
  refine funext fun (i : Nat) => ?_
  match i with
  | 0 => rfl
  | 1 =>
    rw [Function.update_of_ne (by omega), Function.update_self]
    simp only [volume, rootBytes, fileEntries_append, List.append_assoc, Nat.add_comm 2]
  | k + 2 =>
    rcases Nat.lt_trichotomy k files.length with hk | rfl | hk
    · rw [Function.update_of_ne (by omega), Function.update_of_ne (by omega),
        Function.update_of_ne (by omega)]
      simp only [volume, List.getElem?_append_left hk]
    · rw [Function.update_self]
      simp only [volume, List.getElem?_concat_length, Option.map_some]
    · rw [Function.update_of_ne (by omega), Function.update_of_ne (by omega),
        Function.update_of_ne (by omega), volume_fresh (by omega), volume_fresh]
      rw [List.length_append]
      simp only [List.length_cons, List.length_nil]
      omega

theorem blocksFor_append (files : List InputFile) (f : InputFile) :
    blocksFor (files ++ [f]) + needs (16 * (files.length + 2)) =
      blocksFor files + needs (16 * (files.length + 3)) + needs f.bytes.length := by
  simp only [blocksFor, List.map_append, List.sum_append, List.length_append, List.map_cons,
    List.map_nil, List.sum_cons, List.sum_nil, List.length_cons, List.length_nil, Nat.zero_add,
    Nat.add_assoc, Nat.reduceAdd]
  omega

/-- A part of the files takes no more blocks. -/
theorem blocksFor_le (files rest : List InputFile) :
    blocksFor files ≤ blocksFor (files ++ rest) := by
  have := needs_mono (show 16 * (files.length + 2) ≤ 16 * ((files ++ rest).length + 2) by
    rw [List.length_append]
    omega)
  simp only [blocksFor, List.map_append, List.sum_append]
  omega

/-! ## 3. `main` -/

/-- The image of some files, before the size of the root directory is fixed. -/
structure Made (s : State) (files : List InputFile) : Prop where
  laid : Laid s (volume files)
  inodes : s.freeinode = files.length + 2
  blocks : s.freeblock = firstBlock + blocksFor files

theorem leNat_of_zeros {xs : List Byte} (h : ∀ x ∈ xs, x = 0) : leNat xs = 0 := by
  induction xs with
  | nil => rfl
  | cons x xs ih =>
    rw [leNat, h x List.mem_cons_self, ih fun y hy => h y (List.mem_cons_of_mem _ hy)]
    rfl

theorem dinodeAt_zeroBlock (off : Nat) : dinodeAt zeroBlock off = Dinode.zero := by
  have hfield : ∀ off n, leNat (field zeroBlock off n) = 0 := by
    intro off n
    refine leNat_of_zeros fun x hx => ?_
    obtain ⟨j, -, rfl⟩ := List.mem_map.mp hx
    unfold Bytes.get
    split <;> rfl
  simp only [dinodeAt, hfield, Dinode.zero]
  rfl

/-- There is nothing on an image of zeros. -/
theorem laid_blank : Laid blank fun _ => none := by
  have hzero : ∀ b, b ≠ 1 → blank.img b = zeroBlock := by
    intro b hb
    simp only [blank, Function.update_of_ne hb]
  have htable : ∀ i, table blank.img i = Dinode.zero := by
    intro i
    rw [table, ninodes_eq]
    split
    · have hsec : blank.img (i / 8 + 2) = zeroBlock := hzero _ (by omega)
      rw [hsec, dinodeAt_zeroBlock]
    · rfl
  have hrefs : ∀ x b, refs (table blank.img) blank.img x ≠ some b := by
    intro x b hx
    simp only [refs, htable, Dinode.zero, if_true] at hx
    cases hx
  refine ⟨rfl, by decide, ⟨Nat.le_refl _, ⟨?_, ?_, ?_, ?_⟩, ?_⟩, fun i _ => htable i,
    fun _ _ hx => (by cases hx), fun _ _ => rfl, rfl⟩
  · exact fun x b hx => absurd hx (hrefs x b)
  · exact fun x b hx => absurd hx (hrefs x b)
  · intro b hb hlt
    have : b < 29 := of_decide_eq_true hlt
    omega
  · exact fun x _ b hx => absurd hx (hrefs x b)
  · intro b hb
    have : 29 ≤ b := hb
    exact hzero b (by omega)

/-- **The root directory, with its two entries.** -/
theorem makeRoot_spec : ∃ s, makeRoot blank = some s ∧ Made s [] := by
  obtain ⟨s₁, h₁, hlaid₁, hino₁, hblk₁⟩ := ialloc_spec laid_blank (by decide) (t := .dir) (by decide)
  have hfree₁ : s₁.freeblock = 29 := hblk₁
  obtain ⟨s₂, h₂, hlaid₂, hino₂, hblk₂⟩ := iappend_spec (p := dirent dot 1) hlaid₁
    (Function.update_self ..) (by decide) (by rw [hfree₁]; decide)
  have hfree₂ : s₂.freeblock = 30 := by
    have e : needs ([] ++ dirent dot 1).length = 1 := by decide
    have e' : needs ([] : List Byte).length = 0 := by decide
    omega
  obtain ⟨s₃, h₃, hlaid₃, hino₃, hblk₃⟩ := iappend_spec (p := dirent dotdot 1) hlaid₂
    (Function.update_self ..) (by decide) (by rw [hfree₂]; decide)
  refine ⟨s₃, ?_, ?_, ?_, ?_⟩
  · simp only [makeRoot, h₁, Option.bind_eq_bind, Option.bind_some]
    rw [if_pos (show blank.freeinode = 1 from rfl)]
    exact (congrArg (Option.bind · fun s => iappend s 1 (dirent dotdot 1)) h₂).trans h₃
  · rw [Function.update_idem, Function.update_idem] at hlaid₃
    have hvol : Function.update (fun _ => none) blank.freeinode
        (some (.of .dir ([] ++ dirent dot 1 ++ dirent dotdot 1))) = volume [] := by
      refine funext fun (i : Nat) => ?_
      match i with
      | 0 => rfl
      | 1 => rfl
      | k + 2 => rfl
    rwa [hvol] at hlaid₃
  · rw [hino₃, hino₂, hino₁]
    rfl
  · have e : needs ([] ++ dirent dot 1 ++ dirent dotdot 1).length = 1 := by decide
    have e' : needs ([] ++ dirent dot 1).length = 1 := by decide
    have e'' : firstBlock + blocksFor [] = 30 := by decide
    omega

/-- **One file.** -/
theorem addFile_spec {s : State} {files : List InputFile} {f : InputFile} (h : Made s files)
    (ha : Placeable (files ++ [f])) : ∃ s', addFile s f = some s' ∧ Made s' (files ++ [f]) := by
  have hfew := ha.few
  have hroom := ha.room
  have hblocks := blocksFor_append files f
  rw [List.length_append, List.length_singleton] at hfew
  have hmem : f ∈ files ++ [f] := List.mem_append_right _ List.mem_cons_self
  have hfree := h.blocks
  rw [firstBlock_eq] at hfree hroom
  unfold size at hroom
  have hmono := needs_mono (show 16 * (files.length + 2) ≤ 16 * (files.length + 3) by omega)
  have hino := h.inodes
  obtain ⟨s₁, h₁, hlaid₁, hino₁, hblk₁⟩ :=
    ialloc_spec h.laid (by omega) (t := .file) (by decide)
  rw [hino] at h₁ hlaid₁
  -- its entry
  have hlen : (rootBytes files ++ dirent f.shown (files.length + 2)).length =
      16 * (files.length + 3) := by
    rw [List.length_append, length_rootBytes, length_dirent]
    omega
  have hroot : Function.update (volume files) (files.length + 2) (some (.of .file [])) 1 =
      some (.of .dir (rootBytes files)) := Function.update_of_ne (by omega) ..
  obtain ⟨s₂, h₂, hlaid₂, hino₂, hblk₂⟩ :=
    iappend_spec hlaid₁ hroot (p := dirent f.shown (files.length + 2)) (by omega)
      (by rw [hlen, length_rootBytes]; unfold size; omega)
  rw [hlen, length_rootBytes] at hblk₂
  -- its bytes
  have hnew : Function.update (Function.update (volume files) (files.length + 2)
      (some (.of .file []))) 1
      (some (.of .dir (rootBytes files ++ dirent f.shown (files.length + 2)))) (files.length + 2) =
      some (.of .file []) := by
    rw [Function.update_of_ne (by omega), Function.update_self]
  have hbytes : ([] ++ f.chunks.flatten).length = f.bytes.length := rfl
  have hnone : needs ([] : List Byte).length = 0 := by decide
  obtain ⟨s₃, h₃, hlaid₃, hino₃, hblk₃⟩ := iappend_chunks f.chunks hlaid₂ hnew
    (by rw [hbytes]; exact ha.small f hmem) (by rw [hbytes, hnone]; unfold size; omega)
  rw [hbytes, hnone] at hblk₃
  refine ⟨s₃, ?_, ?_, ?_, ?_⟩
  · rw [addFile, if_neg (ha.plain f hmem)]
    simp only [h₁, h₂, Option.bind_eq_bind, Option.bind_some]
    exact h₃
  · rw [← volume_append]
    exact hlaid₃
  · rw [hino₃, hino₂, hino₁, hino, List.length_append, List.length_singleton]
  · rw [firstBlock_eq]
    omega

theorem Placeable.left {files rest : List InputFile} (h : Placeable (files ++ rest)) :
    Placeable files := by
  have hle := blocksFor_le files rest
  have hroom := h.room
  refine ⟨?_, fun f hf => h.small f (List.mem_append_left _ hf), by omega,
    fun f hf => h.plain f (List.mem_append_left _ hf)⟩
  have := h.few
  rw [List.length_append] at this
  omega

/-- **The loop over the files.** -/
theorem addFiles_spec {s : State} {files : List InputFile} (rest : List InputFile)
    (h : Made s files) (ha : Placeable (files ++ rest)) :
    ∃ s', rest.foldlM addFile s = some s' ∧ Made s' (files ++ rest) := by
  induction rest generalizing s files with
  | nil =>
    rw [List.append_nil]
    exact ⟨s, rfl, h⟩
  | cons f rest ih =>
    rw [← List.singleton_append, ← List.append_assoc] at ha ⊢
    obtain ⟨s₁, h₁, hmade₁⟩ := addFile_spec h ha.left
    obtain ⟨s₂, h₂, hmade₂⟩ := ih hmade₁ ha
    refine ⟨s₂, ?_, hmade₂⟩
    rw [List.singleton_append, List.foldlM_cons, h₁]
    exact h₂

/-- The volume, with the size that the root directory is given in the end. -/
def finished (files : List InputFile) : Volume :=
  Function.update (volume files) 1 (some ⟨.dir, roundUp (rootBytes files).length, rootBytes files⟩)

/-- **"fix size of root inode dir"** -/
theorem fixRoot_spec {s : State} {files : List InputFile} (h : Made s files)
    (hfew : files.length + 2 ≤ 200) :
    ∃ s', fixRoot s = some s' ∧ Laid s' (finished files) ∧ s'.freeblock = s.freeblock := by
  have hkeeps := h.laid.item 1 _ (show volume files 1 = some (.of .dir (rootBytes files)) from rfl)
  have hsize : (table s.img 1).size = (rootBytes files).length := hkeeps.size
  have hspace : Space (Function.update (table s.img) 1 (table s.img 1)) s.img s.freeblock := by
    rw [Function.update_eq_self]
    exact h.laid.space
  have hnew : Keeps s.img { table s.img 1 with size := roundUp (rootBytes files).length }
      ⟨.dir, roundUp (rootBytes files).length, rootBytes files⟩ :=
    ⟨hkeeps.type, hkeeps.nlink, rfl, hkeeps.holds.type, hkeeps.holds.fits, hkeeps.holds.shape,
      hkeeps.holds.indirect, hkeeps.holds.bytes⟩
  have hsmall : roundUp (rootBytes files).length < 2 ^ 32 := by
    rw [length_rootBytes, roundUp]
    omega
  obtain ⟨s', hw, hlaid, -, hblk⟩ := h.laid.store
    (e := { table s.img 1 with size := roundUp (rootBytes files).length }) (by omega)
    (by rw [h.inodes]; omega) (.refl hspace) h.laid.room rfl rfl hnew hsmall
  refine ⟨s', ?_, hlaid, hblk⟩
  rw [fixRoot, rinode_eq (by omega)]
  simp only [Option.bind_eq_bind, Option.bind_some, hsize]
  exact hw

/-- Bit `j` of byte `k` of the bitmap is that of block `8 * k + j`. -/
theorem getLsbD_markBits {used k j : Nat} (hused : used ≤ 4096) (hk : k < 512) (hj : j < 8) :
    (get (markBits used) k).getLsbD j = decide (8 * k + j < used) := by
  induction used with
  | zero =>
    have : get (markBits 0) k = 0 := by
      unfold Bytes.get
      split <;> rfl
    rw [this]
    simp
  | succ i ih =>
    have ih := ih (by omega)
    rw [markBits, get_put _ _ _ hk]
    rcases Nat.lt_trichotomy k (i / 8) with hlt | rfl | hgt
    · rw [if_neg (by omega), ih]
      exact decide_eq_decide.mpr (by omega)
    · rw [if_pos (Nat.le_refl _), Nat.sub_self, List.getElem?_cons_zero, Option.getD_some,
        BitVec.getLsbD_or, ih]
      have hone : ∀ m, m < 8 → ∀ j, j < 8 →
          BitVec.getLsbD ((1 <<< m : Nat) : Byte) j = decide (j = m) := by decide
      rw [hone _ (Nat.mod_lt _ (by decide)) j hj, ← Bool.decide_or]
      exact decide_eq_decide.mpr (by omega)
    · rw [if_pos (by omega), List.getElem?_eq_none (by simp; omega), Option.getD_none, ih]
      exact decide_eq_decide.mpr (by omega)

/-- **The kernel finds the bits where `balloc` puts them.** -/
theorem bitAt_markBits {s : State} {used b : Nat} (hused : used ≤ 4096) (hb : b < 4096) :
    bitAt (s.wsect (ninodes / 8 + 3) (markBits used)).img b = decide (b < used) := by
  have hsec : b / 4096 + superblock.ninodes / 8 + 3 = ninodes / 8 + 3 := by
    rw [Nat.div_eq_of_lt hb]
    rfl
  rw [bitAt, hsec]
  simp only [State.wsect, Function.update_self]
  rw [getLsbD_markBits hused (by omega) (by omega)]
  exact decide_eq_decide.mpr (by omega)

/-- The blocks below `freeblock` are marked, and no other. -/
theorem balloc_spec {s : State} {V : Volume} (h : Laid s V) :
    ∃ s', balloc s s.usedblocks = some s' ∧ Laid s' V ∧ s'.freeblock = s.freeblock ∧
      ∀ b, b < 4096 → bitAt s'.img b = decide (b < s'.freeblock) := by
  have hroom := h.room
  have hused := h.used
  unfold size at hroom
  have htable : table (s.wsect (ninodes / 8 + 3) (markBits s.usedblocks)).img = table s.img :=
    table_update (by decide) _
  refine ⟨_, if_pos (by omega), ⟨h.used, h.room, ?_, fun i hi => ?_, fun i x hi => ?_, h.fresh, ?_⟩,
    rfl, fun b hb => ?_⟩
  · rw [htable]
    exact h.space.low (by decide) (by decide) _
  · rw [htable]
    exact h.empty i hi
  · have hkeeps := h.item i x hi
    rw [htable]
    refine ⟨hkeeps.type, hkeeps.nlink, hkeeps.size, hkeeps.holds.update (fun pl he => ?_) _⟩
    have hsec : ninodes / 8 + 3 = 28 := rfl
    have := h.space.named_range hkeeps.holds.type pl (by omega)
    omega
  · exact h.superblock
  · rw [bitAt_markBits (by omega) hb, hused]
    rfl

/-- **`main`**: the image holds the volume of the files. -/
theorem main_spec {files : List InputFile} (h : Placeable files) :
    ∃ s, main files = some s ∧ Laid s (finished files) ∧
      s.freeblock = firstBlock + blocksFor files ∧
      ∀ b, b < 4096 → bitAt s.img b = decide (b < s.freeblock) := by
  obtain ⟨s₁, h₁, hmade₁⟩ := makeRoot_spec
  obtain ⟨s₂, h₂, hmade₂⟩ := addFiles_spec files hmade₁ h
  obtain ⟨s₃, h₃, hlaid₃, hblk₃⟩ := fixRoot_spec hmade₂ h.few
  obtain ⟨s₄, h₄, hlaid₄, hblk₄, hbits⟩ := balloc_spec hlaid₃
  refine ⟨s₄, ?_, hlaid₄, ?_, hbits⟩
  · simp only [main, h₁, h₂, h₃, Option.bind_eq_bind, Option.bind_some]
    exact h₄
  · rw [hblk₄, hblk₃]
    exact hmade₂.blocks

end Xv6.Mkfs
