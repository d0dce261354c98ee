/-
# The kernel on an image of `mkfs`

`mount` is the kernel's view of the bytes.  The kernel finds every file by its name in the root
directory and reads its bytes, because both sides agree where an inode, a block and an entry lie.

One number does not agree.  `main` ends by rounding the size of the root directory UP to a multiple
of the block size, and it rounds a size that is such a multiple already up to the next one.  Then the
directory ends with a block that is not there, the only HOLE there can be on an image.
-/
import Xv6.Fs.Arrays
import Xv6.Fs.Entries
import Xv6.Mkfs.Volume

namespace Xv6.Mkfs

open Xv6.Bytes Xv6.Fs Xv6.Threads

/-! ## 1. The entries of the root directory -/

/-- Entry `k` of the root directory: its inode and its name. -/
def rootEntry (files : List InputFile) : Nat → Option (Nat × List Byte)
  | 0 => some (1, dot)
  | 1 => some (1, dotdot)
  | k + 2 => files[k]?.map fun f => (k + 2, f.shown)

theorem drop_fileEntries {inum k : Nat} {files : List InputFile} {f : InputFile}
    (h : files[k]? = some f) :
    ((fileEntries inum files).drop (16 * k)).take 16 = dirent f.shown (inum + k) := by
  induction files generalizing inum k with
  | nil => cases h
  | cons g files ih =>
    have hlen := length_dirent g.shown inum
    cases k with
    | zero =>
      cases h
      rw [fileEntries, Nat.mul_zero, List.drop_zero, List.take_left' hlen, Nat.add_zero]
    | succ k =>
      rw [fileEntries, show 16 * (k + 1) = 16 + 16 * k by omega, ← List.drop_drop,
        List.drop_left' hlen, ih h]
      congr 1
      omega

/-- The 16 bytes of entry `k`. -/
theorem drop_rootBytes {files : List InputFile} {k inum : Nat} {name : List Byte}
    (h : rootEntry files k = some (inum, name)) :
    ((rootBytes files).drop (16 * k)).take 16 = dirent name inum := by
  have hdot : (dirent dot 1).length = 16 := length_dirent ..
  have hdotdot : (dirent dotdot 1).length = 16 := length_dirent ..
  rw [rootBytes, List.append_assoc]
  rcases k with _ | _ | k
  · cases h
    rw [Nat.mul_zero, List.drop_zero, List.take_left' hdot]
  · cases h
    rw [Nat.mul_one, List.drop_left' hdot, List.take_left' hdotdot]
  · obtain ⟨f, hf, he⟩ := Option.map_eq_some_iff.mp h
    cases he
    rw [show 16 * (k + 2) = 16 + (16 + 16 * k) by omega, ← List.drop_drop, ← List.drop_drop,
      List.drop_left' hdot, List.drop_left' hdotdot, drop_fileEntries hf, Nat.add_comm]

/-- The names are distinct, from each other and from `.` and `..`, when they are cut to DIRSIZ
bytes. -/
def Distinct (files : List InputFile) : Prop :=
  ((dot :: dotdot :: files.map InputFile.shown).map (List.take 14)).Nodup

instance (files : List InputFile) : Decidable (Distinct files) :=
  inferInstanceAs (Decidable (List.Nodup _))

theorem nul_shown (f : InputFile) : 0 ∉ f.shown := by
  unfold InputFile.shown
  split
  · rename_i rest he
    intro h
    exact f.nul (he ▸ List.mem_cons_of_mem _ h)
  · exact f.nul

theorem nameKey_of_nul {name : List Byte} (h : 0 ∉ name) : nameKey name = name.take 14 := by
  refine List.takeWhile_eq_self_iff.mpr fun x hx => ?_
  simp only [decide_eq_true_eq]
  rintro rfl
  exact h (List.mem_of_mem_take hx)

/-- An entry of the root directory, in the list of names. -/
theorem rootEntry_name {files : List InputFile} {k inum : Nat} {name : List Byte}
    (h : rootEntry files k = some (inum, name)) :
    (dot :: dotdot :: files.map InputFile.shown)[k]? = some name ∧ 0 ∉ name ∧
      inum ≠ 0 ∧ inum ≤ files.length + 1 := by
  match k, h with
  | 0, h => cases h; exact ⟨rfl, by decide, by decide, by omega⟩
  | 1, h => cases h; exact ⟨rfl, by decide, by decide, by omega⟩
  | k + 2, h =>
    obtain ⟨f, hf, he⟩ := Option.map_eq_some_iff.mp h
    cases he
    have := (List.getElem?_eq_some_iff.mp hf).1
    refine ⟨?_, nul_shown f, by omega, by omega⟩
    show (files.map InputFile.shown)[k]? = _
    rw [List.getElem?_map, hf]
    rfl

/-- **A name finds its own entry only.** -/
theorem nameEq_rootEntry {files : List InputFile} (hd : Distinct files) {j k i' i'' : Nat}
    {name name' : List Byte} (h : rootEntry files j = some (i', name))
    (h' : rootEntry files k = some (i'', name')) (he : nameKey name = nameKey name') : j = k := by
  obtain ⟨hj, hnul, -⟩ := rootEntry_name h
  obtain ⟨hk, hnul', -⟩ := rootEntry_name h'
  rw [nameKey_of_nul hnul, nameKey_of_nul hnul'] at he
  have hlt := (List.getElem?_eq_some_iff.mp hj).1
  refine (List.getElem?_inj (by rwa [List.length_map]) hd).mp ?_
  rw [List.getElem?_map, List.getElem?_map, hj, hk, Option.map_some, Option.map_some, he]

/-! ## 2. Looking up a name and reading the file -/

/-- The 16 bytes of an entry, read from the image. -/
theorem contents_rootEntry {blk : Nat → Block} {d : Dinode} {files : List InputFile}
    (h : Holds blk d (rootBytes files)) {k inum : Nat} {name : List Byte}
    (he : rootEntry files k = some (inum, name)) (hk : k < files.length + 2) :
    contents blk d (16 * k) 16 = dirent name inum := by
  have hlen := length_rootBytes files
  rw [← drop_rootBytes he, ← h.bytes, drop_contents _ _ (by omega), take_contents,
    Nat.min_eq_left (by omega)]

theorem rootEntry_of_lt {files : List InputFile} {k : Nat} (hk : k < files.length + 2) :
    ∃ inum name, rootEntry files k = some (inum, name) := by
  match k with
  | 0 => exact ⟨_, _, rfl⟩
  | 1 => exact ⟨_, _, rfl⟩
  | k + 2 =>
    have hlt : k < files.length := by omega
    exact ⟨k + 2, files[k].shown, by rw [rootEntry, List.getElem?_eq_getElem hlt]; rfl⟩

theorem offsets_split {size k : Nat} (h : k < entries size) :
    offsets 0 size = (List.range' 0 k).map (16 * ·) ++ 16 * k ::
      (List.range' (k + 1) (entries size - k - 1)).map (16 * ·) := by
  obtain ⟨m, hm⟩ : ∃ m, entries size = k + (m + 1) := ⟨entries size - k - 1, by omega⟩
  have hrest : k + (m + 1) - k - 1 = m := by omega
  rw [offsets, hm, Nat.sub_zero, hrest, ← List.range'_append_1, List.map_append, Nat.zero_add,
    List.range'_succ, List.map_cons]

/-- **`dirlookup` in the root directory finds the entry of a name.** -/
theorem ends_dirlookup_root {files : List InputFile} {p : Pid} {s : Fs.State}
    (hfew : files.length + 2 ≤ 200) (hd : Distinct files)
    (hroot : Keeps s.blk (s.icache 1).din
      ⟨.dir, roundUp (rootBytes files).length, rootBytes files⟩)
    {k inum : Nat} {name : List Byte} (he : rootEntry files k = some (inum, name))
    (hk : k < files.length + 2) {Q : Option (Inum × Nat) → Fs.State → Prop}
    (hQ : (iget inum).ends (fun _ t => Q (some (inum, 16 * k)) t) p s) :
    (dirlookup superblock 1 (name.take 14)).ends Q p s := by
  have hlen := length_rootBytes files
  have hsize : (s.icache 1).din.size = roundUp (16 * (files.length + 2)) := by
    rw [hroot.size, hlen]
  have htype : (s.icache 1).din.type = .dir := hroot.type
  have hcut : nameKey (name.take 14) = nameKey name := by
    rw [nameKey, List.take_take, Nat.min_self, nameKey]
  -- the test of an entry
  have htest : ∀ j inum' name', rootEntry files j = some (inum', name') → j < files.length + 2 →
      (decide (deInum (contents s.blk (s.icache 1).din (16 * j) 16) ≠ 0) &&
        nameEq (name.take 14) (deName (contents s.blk (s.icache 1).din (16 * j) 16))) =
        decide (j = k) := by
    intro j inum' name' hj hlt
    obtain ⟨-, -, hne, hle⟩ := rootEntry_name hj
    rw [contents_rootEntry hroot.holds hj hlt]
    have hentry := entryOf_dirent name' (show inum' < 2 ^ 16 by omega)
    have hinum : deInum (dirent name' inum') = inum' := congrArg Prod.fst hentry
    have hname : nameKey (deName (dirent name' inum')) = nameKey name' := congrArg Prod.snd hentry
    have hiff : nameEq (name.take 14) (deName (dirent name' inum')) = true ↔ j = k := by
      rw [nameEq_iff, hname, hcut]
      refine ⟨fun h => (nameEq_rootEntry hd he hj h).symm, fun h => ?_⟩
      subst h
      rw [he] at hj
      cases hj
      rfl
    rw [hinum, decide_eq_true hne, Bool.true_and, Bool.eq_iff_iff, hiff, decide_eq_true_iff]
  have hle : k < entries (roundUp (16 * (files.length + 2))) := by
    unfold entries roundUp
    omega
  simp only [dirlookup, copy, Code.ends_bind, Code.ends_gets, Code.ends_panicIf]
  refine ⟨not_not.mpr htype, ?_⟩
  rw [hsize, offsets_split hle]
  have hback : Backed s.blk (s.icache 1).din (16 * (files.length + 2)) := by
    refine ⟨by omega, ?_, by rw [htype]; decide, fun bn hbn => ?_⟩
    · rw [hsize, roundUp]
      omega
    · rw [hroot.holds.shape bn (by omega), hlen]
      exact hbn
  refine ends_scan_skip hback _ (fun o ho => ?_) (ends_scan_found hback (by omega)
    (by rw [htest k inum name he hk, decide_eq_true rfl]) ?_)
  · obtain ⟨j, hj, rfl⟩ := List.mem_map.mp ho
    have hlt : j < k := by
      have := List.mem_range'_1.mp hj
      omega
    obtain ⟨inum', name', hj'⟩ := rootEntry_of_lt (show j < files.length + 2 by omega)
    exact ⟨by omega, by rw [htest j inum' name' hj' (by omega), decide_eq_false (by omega)]⟩
  · have hentry := entryOf_dirent name (show inum < 2 ^ 16 by
      have := (rootEntry_name he).2.2.2
      omega)
    rw [contents_rootEntry hroot.holds he hk]
    have hinum : deInum (dirent name inum) = inum := congrArg Prod.fst hentry
    simp only [hinum, Code.ends_bind, Code.ends_pure]
    exact hQ

/-- **`readi` on a file of the image returns its bytes** and changes nothing. -/
theorem ends_readi_item {i : Nat} {p : Pid} {s : Fs.State} {t : FileType} {c : List Byte}
    (h : Keeps s.blk (s.icache i).din (.of t c)) (ht : t ≠ .dev) (off n : Nat)
    {Q : Option (List Byte) → Fs.State → Prop} (hQ : Q (sliceOf c off n) s) :
    (readi superblock i off n).ends Q p s := by
  have hsize : (s.icache i).din.size = c.length := h.size
  have htype : (s.icache i).din.type = t := h.type
  have hfits : c.length ≤ 140 * 512 := h.holds.fits
  refine ends_readi_below hfits (fun bn hbn => (h.holds.shape bn (by omega)).mpr hbn)
    (fun _ => by omega) ?_
  rw [readOf_eq (by rwa [htype]), hsize]
  exact (congrArg (sliceOf · off n) h.holds.bytes).symm ▸ hQ

/-- The kernel looks up a name in the root directory and reads `n` bytes at `off` of the file it
finds: its inode, its size and what `readi` returns. -/
def fetch (name : List Byte) (off n : Nat) : K (Option (Nat × Nat × Option (List Byte))) := do
  ilock 1
  match ← dirlookup superblock 1 name with
  | none =>
    iunlock 1
    pure none
  | some (ip, _) =>
    iunlock 1
    ilock ip
    let d ← copy ip
    let bs ← readi superblock ip off n
    pure (some (ip, d.size, bs))

theorem ends_fetch {files : List InputFile} {s : State} (hs : Laid s (finished files))
    (hfew : files.length + 2 ≤ 200) (hd : Distinct files) {k : Nat} {f : InputFile}
    (hf : files[k]? = some f) (p : Pid) {off n : Nat} (hoff : off ≤ f.bytes.length)
    (hn : off + n < 2 ^ 32) :
    (fetch (f.shown.take 14) off n).ends
      (fun r _ => r = some (k + 2, f.bytes.length, some ((f.bytes.drop off).take n))) p
      (mount s.img) := by
  have hroot := hs.item 1 _ (Function.update_self ..)
  have hfile := hs.item (k + 2) (.of .file f.bytes) (by
    rw [finished, Function.update_of_ne (by omega)]
    simp only [volume, hf, Option.map_some])
  have hlt : k < files.length := (List.getElem?_eq_some_iff.mp hf).1
  have htype : (table s.img 1).type = .dir := hroot.type
  have htype' : (table s.img (k + 2)).type = .file := hfile.type
  have hsize : (table s.img (k + 2)).size = f.bytes.length := hfile.size
  have hne : k + 2 ≠ 1 := by omega
  have hentry : rootEntry files (k + 2) = some (k + 2, f.shown) := by
    rw [rootEntry, hf]
    rfl
  simp only [fetch, Code.ends_bind]
  refine ends_ilock Nat.one_pos rfl (show (table s.img 1).type ≠ .free by rw [htype]; decide) ?_
  refine ends_dirlookup_root hfew hd hroot hentry (by omega) ?_
  -- the inode of the file comes into the cache, and the root directory is unlocked
  refine ends_iget_fresh ?_ (show 1 < ninode by decide) ?_
  · simp only [State.locked, State.setInode, Function.update_of_ne hne]
    show (if k + 2 = 1 then 1 else 0) = 0
    exact if_neg hne
  simp only [Code.ends_bind]
  refine ends_iunlock ?_ ?_ ?_
  · simp only [State.locked, State.setInode, Function.update_of_ne hne.symm, Function.update_self]
    exact Nat.one_pos
  · simp only [State.locked, State.setInode, Function.update_of_ne hne.symm, Function.update_self]
  refine ends_ilock ?_ ?_ ?_ ?_
  · simp only [State.setInode, Function.update_of_ne hne, Function.update_self]
    exact Nat.one_pos
  · simp only [State.setInode, Function.update_of_ne hne, Function.update_self]
  · simp only [State.inode, State.setInode, Function.update_of_ne hne, Function.update_self]
    show (table s.img (k + 2)).type ≠ .free
    rw [htype']
    decide
  · simp only [copy, Code.ends_gets]
    refine ends_readi_item (t := .file) (c := f.bytes) ?_ (by decide) off n ?_
    · simp only [State.locked, State.inode, State.setInode, Function.update_of_ne hne,
        Function.update_self]
      exact hfile
    · simp only [Code.ends_pure, State.locked, State.inode, State.setInode,
        Function.update_of_ne hne, Function.update_self, sliceOf, if_neg (show
        ¬(f.bytes.length < off ∨ 2 ^ 32 ≤ off + n) by omega)]
      rw [← hsize]
      rfl

/-- The superblock that the kernel reads. -/
theorem readsb_eq {s : State} {V : Volume} (h : Laid s V) :
    readsb s.img = [superblock.size, superblock.nblocks, superblock.ninodes, superblock.nlog] := by
  rw [readsb, h.superblock]
  decide

/-- **mkfs and the kernel agree on file contents.** -/
theorem kernel_reads_what_mkfs_wrote {files : List InputFile} (h : Accepted files)
    (hd : Distinct files) :
    ∃ s, main files = some s ∧
      readsb s.img = [superblock.size, superblock.nblocks, superblock.ninodes, superblock.nlog] ∧
      (∀ k f, files[k]? = some f → ∀ p off n, off ≤ f.bytes.length → off + n < 2 ^ 32 →
        (fetch (f.shown.take 14) off n).ends
          (fun r _ => r = some (k + 2, f.bytes.length, some ((f.bytes.drop off).take n))) p
          (mount s.img)) ∧
      (∀ x y b, refs (table s.img) s.img x = some b → refs (table s.img) s.img y = some b →
        x = y) ∧
      ∀ b, b < 4096 → (bitAt s.img b = true ↔ b < s.freeblock) := by
  obtain ⟨s, hmain, hlaid, -, hbits⟩ := main_spec h.placeable
  refine ⟨s, hmain, readsb_eq hlaid,
    fun k f hf p off n hoff hn => ends_fetch hlaid h.few hd hf p hoff hn,
    hlaid.space.agrees.once, fun b hb => ?_⟩
  rw [hbits b hb, decide_eq_true_iff]

/-- `_ab`, read in two chunks, and `c`, which is empty. -/
def twoFiles : List InputFile :=
  [⟨[95, 97, 98], [[1, 2], [3]], by decide, by decide⟩, ⟨[99], [], by decide, by decide⟩]

theorem kernel_reads_twoFiles : Accepted twoFiles ∧ Distinct twoFiles ∧
    ∃ s, main twoFiles = some s ∧
      (fetch [97, 98] 1 10).ends (fun r _ => r = some (2, 3, some [2, 3])) 0 (mount s.img) ∧
      (fetch [99] 0 10).ends (fun r _ => r = some (3, 0, some [])) 0 (mount s.img) := by
  have ha : Accepted twoFiles := by decide
  have hd : Distinct twoFiles := by decide
  obtain ⟨s, hmain, -, hfetch, -⟩ := kernel_reads_what_mkfs_wrote ha hd
  exact ⟨ha, hd, s, hmain, hfetch 0 _ rfl 0 1 10 (by decide) (by decide),
    hfetch 1 _ rfl 0 0 10 (by decide) (by decide)⟩

/-! ## 3. Holes -/

/-- Every inode in use has a block for each block index below `ceil(size/BSIZE)`. -/
def NoHoles (img : Nat → Block) : Prop :=
  ∀ i, (table img i).type ≠ .free → ∀ bn, bn < ((table img i).size + 511) / 512 →
    blockAt img (table img i) bn ≠ 0

/-- `readi` on any inode of the image ends and changes nothing: `bmap` allocates no block and calls
no `log_write`. -/
def ReadsOnly (img : Nat → Block) : Prop :=
  ∀ i, (table img i).type ≠ .free → ∀ (p : Pid) (off n : Nat) (s : Fs.State), s.blk = img →
    (s.icache i).din = table img i → (readi superblock i off n).ends (fun _ t => t = s) p s

section

variable {s : State} {files : List InputFile}

/-- The root directory has no block behind its last entry. -/
theorem root_block_iff (h : Laid s (finished files)) {bn : Nat} (hbn : bn < 140) :
    blockAt s.img (table s.img 1) bn ≠ 0 ↔ bn < (16 * (files.length + 2) + 511) / 512 := by
  have hroot := h.item 1 _ (Function.update_self ..)
  rw [hroot.holds.shape bn hbn]
  show 512 * bn < (rootBytes files).length ↔ _
  rw [length_rootBytes]
  omega

theorem item_of_allocated (h : Laid s (finished files)) {i : Nat}
    (hi : (table s.img i).type ≠ .free) : ∃ x, finished files i = some x := by
  cases hx : finished files i with
  | none =>
    rw [h.empty i hx] at hi
    exact absurd rfl hi
  | some x => exact ⟨x, rfl⟩

/-- The size of an item other than the root directory. -/
theorem finished_size {i : Nat} {x : Item} (hi : i ≠ 1) (hx : finished files i = some x) :
    x.size = x.bytes.length ∧ x.type = .file := by
  rw [finished, Function.update_of_ne hi] at hx
  match i with
  | 0 => cases hx
  | k + 2 =>
    obtain ⟨f, -, rfl⟩ := Option.map_eq_some_iff.mp hx
    exact ⟨rfl, rfl⟩

/-- **The only hole is behind the last entry of the root directory**, if the entries fill their last
block. -/
theorem noHoles_iff (h : Laid s (finished files)) (hfew : files.length + 2 ≤ 200) :
    NoHoles s.img ↔ (files.length + 2) % 32 ≠ 0 := by
  have hroot := h.item 1 _ (Function.update_self ..)
  have hsize : (table s.img 1).size = roundUp (16 * (files.length + 2)) := by
    rw [hroot.size, length_rootBytes]
  constructor
  · intro hno hz
    have hb := hno 1 hroot.holds.type (16 * (files.length + 2) / 512) (by
      rw [hsize, roundUp]
      omega)
    have := (root_block_iff h (by omega)).mp hb
    omega
  · intro hz i hi bn hbn
    by_cases h1 : i = 1
    · subst h1
      rw [hsize, roundUp] at hbn
      exact (root_block_iff h (by omega)).mpr (by omega)
    · obtain ⟨x, hx⟩ := item_of_allocated h hi
      have hkeeps := h.item i x hx
      have hfits := hkeeps.holds.fits
      rw [hkeeps.size, (finished_size h1 hx).1] at hbn
      exact (hkeeps.holds.shape bn (by omega)).mpr (by omega)

/-- Without holes, reading never allocates. -/
theorem readsOnly_of_noHoles (h : Laid s (finished files)) (hfew : files.length + 2 ≤ 200)
    (hno : NoHoles s.img) : ReadsOnly s.img := by
  intro i hi p off n t hblk hdin
  have hsmall : (table s.img i).size ≤ 140 * 512 := by
    obtain ⟨x, hx⟩ := item_of_allocated h hi
    have hkeeps := h.item i x hx
    rw [hkeeps.size]
    by_cases h1 : i = 1
    · subst h1
      rw [finished, Function.update_self] at hx
      cases hx
      show roundUp (rootBytes files).length ≤ _
      rw [length_rootBytes, roundUp]
      omega
    · rw [(finished_size h1 hx).1]
      exact hkeeps.holds.fits
  refine ends_readi ?_ rfl
  rw [hblk, hdin]
  exact ⟨hsmall, fun bn _ hbn => hno i hi bn (by omega)⟩

end

/-- **An image has no holes, and reading it allocates nothing, exactly if the entries of the root
directory do not fill their last block.** -/
theorem no_holes_unless_root_full {files : List InputFile} (h : Accepted files) :
    ∃ s, main files = some s ∧
      (NoHoles s.img ∧ ReadsOnly s.img ↔ (files.length + 2) % 32 ≠ 0) := by
  obtain ⟨s, hmain, hlaid, -, -⟩ := main_spec h.placeable
  have hiff := noHoles_iff hlaid h.few
  exact ⟨s, hmain, fun hno => hiff.mp hno.1,
    fun hz => ⟨hiff.mpr hz, readsOnly_of_noHoles hlaid h.few (hiff.mpr hz)⟩⟩

theorem no_holes_twoFiles : Accepted twoFiles ∧
    ∃ s, main twoFiles = some s ∧ (NoHoles s.img ∧ ReadsOnly s.img ↔ (2 + 2) % 32 ≠ 0) :=
  have ha : Accepted twoFiles := by decide
  ⟨ha, no_holes_unless_root_full ha⟩

/-- Thirty empty files, named `A`, `B` and so on: with `.` and `..` their entries fill one block. -/
def thirtyFiles : List InputFile :=
  (List.finRange 30).map fun (k : Fin 30) =>
    ⟨[65 + BitVec.ofNat 8 k.val], [], by revert k; decide, fun _ h => absurd h List.not_mem_nil⟩

/-- `balloc` outside a transaction. -/
theorem wp_balloc_outside {sb : Super} {p : Pid} {s : Fs.State} (howner : s.owner = none)
    (hfull : ¬s.logFull) {b : Nat} (hfree : s.firstFree sb = some b) :
    (Fs.balloc sb).wp (fun e _ => e = Panic.writeOutsideTrans) (fun _ _ => False) p s := by
  simp only [Fs.balloc, Code.wp_bind, Code.wp_gets, hfree, Code.wp_modify, logWrite, Code.wp_self,
    Code.wp_panicIf, State.setBit]
  exact ⟨fun h => absurd (of_decide_eq_true h) hfull, fun _ => ⟨fun _ => trivial,
    fun h => absurd howner h⟩⟩

/-- A process that reads behind the first block of a directory, where there is no block, stops the
machine. -/
theorem wp_readi_hole {sb : Super} {p : Pid} {s : Fs.State} (htype : (s.icache 1).din.type = .dir)
    (hsize : (s.icache 1).din.size = 1024) (haddr : (s.icache 1).din.addrs ⟨1, by omega⟩ = 0)
    (howner : s.owner = none) (hfull : ¬s.logFull) {b : Nat}
    (hfree : s.firstFree sb = some b) :
    (readi sb 1 512 16).wp (fun e _ => e = Panic.writeOutsideTrans) (fun _ _ => False) p
      s := by
  simp only [readi, Code.wp_bind, wp_copy, Code.wp_ite, htype, hsize]
  refine ⟨fun h => (by cases h), fun _ => ⟨fun h => absurd h (by omega), fun _ => ?_⟩⟩
  -- the first round of the loop asks `bmap` for block 1
  rw [show min 16 (1024 - 512) = 15 + 1 from rfl, readLoop, if_neg (by decide), Code.wp_bind,
    show 512 / 512 = 1 from rfl, bmap, dif_pos (by decide), bmapSlot, Code.wp_bind, wp_copy,
    if_neg (not_not.mpr haddr), Code.wp_bind]
  exact Code.wp_imp (wp_balloc_outside howner hfull hfree) fun _ _ h => h.elim

/-- **The root directory of `thirtyFiles` ends with a block that is not there**, and a process that
reads it stops the machine. -/
theorem root_of_thirtyFiles_has_hole : Accepted thirtyFiles ∧
    ∃ s, main thirtyFiles = some s ∧ ¬NoHoles s.img ∧
      blockAt s.img (table s.img 1) 1 = 0 ∧ (table s.img 1).size = 1024 ∧
      ∀ p, (readi superblock 1 512 16).wp (fun e _ => e = Panic.writeOutsideTrans)
        (fun _ _ => False) p ((mount s.img).locked 1) := by
  have ha : Accepted thirtyFiles := by decide
  obtain ⟨s, hmain, hlaid, hblocks, hbits⟩ := main_spec ha.placeable
  have hlen : thirtyFiles.length = 30 := rfl
  have hblock : blockAt s.img (table s.img 1) 1 = 0 := by
    by_contra hne
    have := (root_block_iff hlaid (by decide)).mp hne
    rw [hlen] at this
    omega
  have hroot := hlaid.item 1 _ (Function.update_self ..)
  have hsize : (table s.img 1).size = 1024 := by
    rw [hroot.size, length_rootBytes, hlen]
    rfl
  refine ⟨ha, s, hmain, ?_, hblock, hsize, fun p => ?_⟩
  · rw [noHoles_iff hlaid ha.few, hlen]
    decide
  · have hdin : (((mount s.img).locked 1).icache 1).din = table s.img 1 := by
      simp only [State.locked, State.setInode, Function.update_self]
      rfl
    have hfree : ∃ b, ((mount s.img).locked 1).firstFree superblock = some b := by
      cases hf : ((mount s.img).locked 1).firstFree superblock with
      | some b => exact ⟨b, rfl⟩
      | none =>
        have hmarked := List.find?_eq_none.mp hf 30 (List.mem_range.mpr (by decide))
        have hbit : bitAt s.img 30 = false := by
          rw [hbits 30 (by decide), hblocks]
          decide
        exact absurd (show (!bitAt s.img 30) = true by rw [hbit]; rfl) hmarked
    obtain ⟨b, hb⟩ := hfree
    refine wp_readi_hole ?_ ?_ ?_ rfl ?_ hb
    · rw [hdin]
      exact hroot.type
    · rw [hdin, hsize]
    · rw [hdin]
      exact hblock
    · show ¬(logsize ≤ 0 ∨ nlog ≤ 1)
      decide

end Xv6.Mkfs
