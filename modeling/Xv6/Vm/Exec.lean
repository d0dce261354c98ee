/-
# Loading a program: `exec` (exec.c)

`exec` builds the new image in a directory of its own, beside the one that the process runs in, and
gives the old one up at the end.  Whatever fails before that, it frees the new directory.

What the file holds is a parameter, and so is what each `readi` returns: a device may return
something else each time it is read.  Three comparisons of the source are kept as they are: the
result of the first `readi` is compared with the size of the header as an UNSIGNED number, so that
-1 passes and the header is what was on the stack (`stale`); `vaddr + memsz` is computed modulo 2^32;
and `allocuvm` with a smaller size than before is a success.
-/
import Xv6.Vm.Fork

namespace Xv6.Vm

open Xv6.Bytes Xv6.Threads Xv6.Threads.Code
open Xv6.Ptable (Slot NPROC ProcState)

/-! ## 1. The file -/

/-- What `exec` gets to see of a file: the inode that `namei` returns, and what `readi` returns for
the header, for program header `i` at an offset, and for the pages of segment `i`. -/
structure ExecFile where
  inode : Option Nat
  header : Option (List Byte)
  stale : List Byte
  proghdr : Nat → Nat → Option (List Byte)
  segment : Nat → Nat → Nat → Nat → Option (List Byte)
  segment_le : ∀ i j off n b, segment i j off n = some b → b.length ≤ n

/-- A field of a header. -/
def fieldAt (b : List Byte) (off len : Nat) : Nat := leNat ((b.drop off).take len)

/-- `elf.entry`, `elf.phoff`, `elf.phnum` -/
def elfEntry (b : List Byte) : Nat := fieldAt b 24 4
def elfPhoff (b : List Byte) : Nat := fieldAt b 28 4
def elfPhnum (b : List Byte) : Nat := fieldAt b 44 2

/-- `ph.type`, `ph.off`, `ph.vaddr`, `ph.filesz`, `ph.memsz` -/
def phType (b : List Byte) : Nat := fieldAt b 0 4
def phOff (b : List Byte) : Nat := fieldAt b 4 4
def phVaddr (b : List Byte) : Nat := fieldAt b 8 4
def phFilesz (b : List Byte) : Nat := fieldAt b 16 4
def phMemsz (b : List Byte) : Nat := fieldAt b 20 4

/-- The header, if `exec` goes on with it. -/
def ExecFile.elf (file : ExecFile) : Option (List Byte) :=
  let b := file.header.getD file.stale
  if (file.header.isSome ∧ b.length < 52) ∨ fieldAt b 0 4 ≠ 0x464C457F then none else some b

/-! ## 2. The image -/

/-- One round of the loop over the program headers: the size, or `goto bad`. -/
def loadProghdr (file : ExecFile) (d i off sz : Nat) : V (Option Nat) :=
  match file.proghdr i off with
  | none => return none
  | some b =>
    if b.length ≠ 32 then return none
    else if phType b ≠ 1 then return some sz
    else if phMemsz b < phFilesz b then return none
    else do
      let sz ← allocuvm d sz ((phVaddr b + phMemsz b) % 2 ^ 32)
      if sz = 0 then return none
      else if ← loaduvm (file.segment i) d (phVaddr b) (phOff b) (phFilesz b) then return some sz
      else return none

/-- The loop. -/
def loadProghdrs (file : ExecFile) : (n d i off sz : Nat) → V (Option Nat)
  | 0, _, _, _, sz => return some sz
  | n + 1, d, i, off, sz => do
    match ← loadProghdr file d i off sz with
    | none => return none
    | some sz => loadProghdrs file n d (i + 1) ((off + 32) % 2 ^ 32) sz

/-- `exec` from `setupkvm` to the end of the loop: `pgdir`, and the size unless it is bad. -/
def execLoad (file : ExecFile) (elf : List Byte) : V (Option Nat × Option Nat) := do
  match ← setupkvm with
  | none => return (none, none)
  | some d =>
    let sz ← allocuvm d 0 4096
    if sz = 0 then return (some d, none)
    else return (some d, ← loadProghdrs file (elfPhnum elf) d 0 (elfPhoff elf) sz)

/-- Two pages more, at the next page boundary: the new size, or 0. -/
def execStack (d sz : Nat) : V Nat := allocuvm d (4096 * pageUp sz) (4096 * pageUp sz + 8192)

/-! ## 3. The arguments -/

/-- `sp = (sp - (strlen(s) + 1)) & ~3` -/
def pushSp (sp : Nat) (s : List Byte) : Nat := (sp + 2 ^ 32 - (s.length + 1)) % 2 ^ 32 / 4 * 4

/-- The loop over the arguments.  `us` is what has been stored in `ustack` from index 3 on, and its
length is `argc`. -/
def pushStrings (d : Nat) : List (List Byte) → (sp : Nat) → (us : List Nat) →
    V (Option (Nat × List Nat))
  | [], sp, us => return some (sp, us)
  | s :: argv, sp, us =>
    if 32 ≤ us.length then return none
    else do
      if ← copyout d (pushSp sp s) (s ++ [0]) then
        panicIf (36 ≤ 3 + us.length) .ustack
        pushStrings d argv (pushSp sp s) (us ++ [pushSp sp s])
      else return none

/-- The words of `ustack`. -/
def ustack (sp : Nat) (us : List Nat) : List Nat :=
  [2 ^ 32 - 1, us.length, (sp + 2 ^ 32 - 4 * (us.length + 1)) % 2 ^ 32] ++ us ++ [0]

/-- Words as bytes. -/
def wordBytes (ws : List Nat) : List Byte := ws.flatMap (leBytes 4)

/-- `sp -= (3+argc+1) * 4` -/
def ustackSp (sp argc : Nat) : Nat := (sp + 2 ^ 32 - 4 * (3 + argc + 1)) % 2 ^ 32

/-- `ustack` is copied below the strings: `sp`, or `goto bad`. -/
def pushUstack (d sp : Nat) (us : List Nat) : V (Option Nat) := do
  panicIf (36 ≤ 3 + us.length) .ustack
  if ← copyout d (ustackSp sp us.length) (wordBytes (ustack sp us)) then
    return some (ustackSp sp us.length)
  else return none

/-- Everything that `exec` puts on the stack. -/
def pushArgs (d sz : Nat) (argv : List (List Byte)) : V (Option Nat) := do
  match ← pushStrings d argv sz [] with
  | none => return none
  | some (sp, us) => pushUstack d sp us

/-! ## 4. `exec` -/

/-- `ip` is referred to once more, -/
def iget (ip : Nat) : K Unit :=
  modify fun k => { k with inodeRef := Function.update k.inodeRef ip (k.inodeRef ip + 1) }

/-- and once less: `iunlockput(ip)`. -/
def iput (ip : Nat) : K Unit :=
  modify fun k => { k with inodeRef := Function.update k.inodeRef ip (k.inodeRef ip - 1) }

/-- What follows the last `/` of a path. -/
def lastPart (path : List Byte) : List Byte := (path.reverse.takeWhile (· ≠ 47)).reverse

/-- `exec` commits to the image. -/
def execCommit (elf path : List Byte) (d sz sp : Nat) : K Bool := do
  let me ← self
  let p ← myproc
  upd me.proc fun x =>
    { x with
      name := safestrcpy (lastPart path) 16, pgdir := d, sz := sz,
      tf := { x.tf with eip := elfEntry elf, esp := sp } }
  switchuvm me.proc
  onMem (freevm p.pgdir)
  return true

/-- `exec` with the stack in place. -/
def execArgs (elf path : List Byte) (argv : List (List Byte)) (d sz : Nat) : K Bool := do
  let me ← self
  upd me.proc fun x => { x with pstack := sz }
  onMem (clearpteu d (sz - 8192))
  match ← onMem (pushArgs d sz argv) with
  | none =>
    onMem (freevm d)
    return false
  | some sp => execCommit elf path d sz sp

/-- `exec(path, argv)`, for the file that `path` names: `false` is -1. -/
def exec (file : ExecFile) (path : List Byte) (argv : List (List Byte)) : K Bool :=
  match file.inode with
  | none => return false
  | some ip => do
    iget ip
    match file.elf with
    | none =>
      iput ip
      return false
    | some elf =>
      match ← onMem (execLoad file elf) with
      | (none, _) =>
        iput ip
        return false
      | (some d, none) =>
        onMem (freevm d)
        iput ip
        return false
      | (some d, some sz) =>
        iput ip
        let sz ← onMem (execStack d sz)
        if sz = 0 then
          onMem (freevm d)
          return false
        else execArgs elf path argv d sz

/-! ## 5. The image as it grows -/

/-- A new directory, with nothing mapped from `PGROUNDUP(sz)` on. -/
structure Image (l : Layout) (m : Mem) (own : Nat → Owner) (d sz : Nat) (m' : Mem)
    (own' : Nat → Owner) : Prop where
  grows : Grows l d (fun _ => True) m own m' own'
  before : own d = .free
  after : own' d = .dir
  size : sz < 2 ^ 31
  below : ∀ u, u < 2 ^ 19 → Present (m'.pteOf d u) → u < pageUp sz
  count : (m'.denied = m.denied ∧ ¬Lost own own') ∨ (m.denied < m'.denied ∧ Lost own own')

/-- Where `exec` may stop: at anything but an index of `ustack`. -/
def InBounds : Stop → Mem → Prop := fun e _ => e ≠ .ustack

section

variable {l : Layout} {m m₁ m₂ : Mem} {own own₁ own₂ : Nat → Owner} {d f u v w sz : Nat}

/-- The pages of the image come from the free list. -/
theorem Image.free_of_page (h : Image l m own d sz m₁ own₁) (hw : Wf l m own)
    (hf : own₁ f = .page d u) : own f = .free := by
  by_contra hne
  rw [h.grows.keep f hne] at hf
  have hdir := ((hw.tables.page d u f).mp hf).1
  rw [h.before] at hdir
  cases hdir

/-- A page of the image is written. -/
theorem Image.write (h : Image l m own d sz m₁ own₁) (hw : Wf l m own) (hf : own₁ f = .page d u)
    (x : Page) : Image l m own d sz (m₁.setPage f x) own₁ := by
  have hfree := h.free_of_page hw hf
  have hno : ¬(own₁ f).IsTable := by
    rw [hf]
    exact id
  have hpte : ∀ d' u, own₁ d' = .dir → (m₁.setPage f x).pteOf d' u = m₁.pteOf d' u :=
    fun d' u hd' => h.grows.wf.tables.pteOf_setPage hno x hd'
  refine ⟨⟨h.grows.wf.fill hno x, h.grows.keep, fun g hg => ?_, fun d' u hd' hu => ?_,
    fun d' u hd' ht => ?_, h.grows.taken⟩, h.before, h.after, h.size, fun u hu hp => ?_, h.count⟩
  · rw [Mem.page_setPage_of_ne, h.grows.data g hg]
    rintro rfl
    exact hg.ne_free hfree
  · rw [hpte d' u (h.grows.dir hd'), h.grows.pte d' u hd' hu]
  · unfold Mem.HasTable
    rw [pde_setPage hno x (h.grows.dir hd')]
    exact h.grows.table d' u hd' ht
  · rw [hpte d u h.after] at hp
    exact h.below u hu hp

/-- The flags of a page of the image change. -/
theorem Image.reflag (h : Image l m own d sz m₁ own₁) (ht : m₁.HasTable d v) (hv : v < 2 ^ 19)
    (hwlt : w < 2 ^ 32) (hp : Present w ↔ Present (m₁.pteOf d v))
    (hfr : frame w = frame (m₁.pteOf d v)) : Image l m own d sz (m₁.setPte d v w) own₁ := by
  have hpte := fun {d' u : Nat} (hd' : own₁ d' = .dir) =>
    pteOf_setPte h.grows.wf h.after ht hwlt (u := u) hd'
  refine ⟨⟨h.grows.wf.reflag h.after ht hwlt hv hp hfr, h.grows.keep, fun g hg => ?_,
    fun d' u hd' hu => ?_, fun d' u hd' hu => ?_, h.grows.taken⟩, h.before, h.after, h.size,
    fun u hu hpu => ?_, h.count⟩
  · rw [page_setPte h.grows.wf h.after ht, h.grows.data g hg]
    rw [h.grows.keep g hg.ne_free]
    exact hg.not_isTable
  · have hne : d' ≠ d := by
      rintro rfl
      rw [h.before] at hd'
      cases hd'
    rw [hpte (h.grows.dir hd'), if_neg fun e => hne e.1, h.grows.pte d' u hd' hu]
  · rw [hasTable_setPte h.grows.wf h.after ht (h.grows.dir hd')]
    exact h.grows.table d' u hd' hu
  · rw [hpte h.after] at hpu
    split at hpu
    · rename_i he
      obtain ⟨-, rfl⟩ := he
      exact h.below u hu (hp.mp hpu)
    · exact h.below u hu hpu

/-- Nothing is in the way of new pages. -/
theorem Image.none (h : Image l m own d sz m₁ own₁) (hu : u < 2 ^ 19) (hge : pageUp sz ≤ u) :
    ¬Present (m₁.pteOf d u) := fun hp => absurd (h.below u hu hp) (by omega)

theorem pageUp_le_top {sz : Nat} (h : sz < 2 ^ 31) : pageUp sz ≤ 2 ^ 19 := by
  unfold pageUp
  omega

/-- **`allocuvm` in an image**, whatever size is asked for. -/
theorem Image.alloc (h : Image l m own d sz m₁ own₁) (new : Nat) :
    ∃ r sz' m₂ own₂, allocuvm d sz new l m₁ = .ok r m₂ ∧ Image l m own d sz' m₂ own₂ ∧
      (r = 0 ∨ r = sz' ∧ sz' = max sz new) := by
  by_cases hhigh : 2 ^ 31 ≤ new
  · exact ⟨0, sz, m₁, own₁, allocuvm_of_ge hhigh, h, .inl rfl⟩
  · by_cases hless : new < sz
    · refine ⟨sz, sz, m₁, own₁, ?_, h, .inr ⟨rfl, by omega⟩⟩
      unfold allocuvm
      rw [if_neg hhigh, if_pos hless]
      rfl
    · have htop := pageUp_le_top (show new < 2 ^ 31 by omega)
      have hups := pageUp_le (show sz ≤ new by omega) (by omega)
      obtain ⟨m₂, own₂, ⟨hrun, k, hfilled, -⟩ | ⟨-, hrun, -, hundone⟩⟩ :=
        allocuvm_spec h.grows.wf h.after (show sz ≤ new by omega) (by omega) fun u hlo hhi =>
          h.none (by omega) hlo
      · have hkn := hfilled.le
        refine ⟨new, new, m₂, own₂, hrun, ⟨h.grows.trans hfilled.grows (fun _ _ => trivial)
          fun _ _ => trivial, h.before, hfilled.grows.dir h.after, by omega, fun u hu hp => ?_, ?_⟩,
          .inr ⟨rfl, by omega⟩⟩
        · by_contra hge
          rw [hfilled.grows.pte d u h.after fun e => by omega] at hp
          exact h.none hu (by omega) hp
        · rw [h.grows.lost_iff hfilled.grows]
          rcases h.count with ⟨hden, hno⟩ | ⟨hden, hyes⟩ <;>
            rcases hfilled.count with ⟨hden', hno'⟩ | ⟨hden', hyes', -⟩
          · exact .inl ⟨hden'.trans hden, fun e => e.elim hno hno'⟩
          · exact .inr ⟨by omega, .inr hyes'⟩
          · exact .inr ⟨by omega, .inl hyes⟩
          · exact .inr ⟨by omega, .inl hyes⟩
      · refine ⟨0, sz, m₂, own₂, hrun, ⟨h.grows.trans hundone.grows (fun _ _ => trivial)
          fun _ _ => trivial, h.before, hundone.grows.dir h.after, h.size, fun u hu hp => ?_, ?_⟩,
          .inl rfl⟩
        · by_contra hge
          by_cases hin : pageUp sz ≤ u ∧ u < pageUp new
          · exact hundone.none u hin hp
          · rw [hundone.grows.pte d u h.after fun e => hin e.2] at hp
            exact h.none hu (by omega) hp
        · rw [h.grows.lost_iff hundone.grows]
          rcases h.count with ⟨hden, hno⟩ | ⟨hden, hyes⟩ <;>
            rcases hundone.count with ⟨hden', hno'⟩ | ⟨hden', hyes'⟩
          · exact .inl ⟨hden'.trans hden, fun e => e.elim hno hno'⟩
          · exact .inr ⟨by omega, .inr hyes'⟩
          · exact .inr ⟨by omega, .inl hyes⟩
          · exact .inr ⟨by omega, .inl hyes⟩

/-- The stack is mapped above the image. -/
theorem Image.stack (h : Image l m own d sz m₁ own₁) :
    ends (execStack d sz) (fun r m₂ => ∃ sz' own₂, Image l m own d sz' m₂ own₂ ∧
      (r = 0 ∨ r = sz' ∧ r = 4096 * pageUp sz + 8192)) l m₁ := by
  rw [ends_iff, execStack]
  by_cases hhigh : 2 ^ 31 ≤ 4096 * pageUp sz + 8192
  · exact ⟨0, m₁, allocuvm_of_ge hhigh, sz, own₁, h, .inl rfl⟩
  · have hup : pageUp (4096 * pageUp sz) = pageUp sz := by
      unfold pageUp
      omega
    have hround : Image l m own d (4096 * pageUp sz) m₁ own₁ :=
      ⟨h.grows, h.before, h.after, by omega, by rw [hup]; exact h.below, h.count⟩
    obtain ⟨r, sz', m₂, own₂, hrun, h₂, hr⟩ := hround.alloc (4096 * pageUp sz + 8192)
    exact ⟨r, m₂, hrun, sz', own₂, h₂, hr.imp_right fun e => ⟨e.1, by omega⟩⟩

/-- **One round of `loaduvm`** writes to a page of the image, or nothing. -/
theorem Image.loadPage (h : Image l m own d sz m₁ own₁) (hw : Wf l m own) {n : Nat}
    {r : Option (List Byte)} :
    wp (loadPage d v n r) InBounds (fun _ m₂ => Image l m own d sz m₂ own₁) l m₁ := by
  unfold Vm.loadPage
  rw [wp_bind]
  unfold wp
  rw [walkpgdir_look]
  by_cases ht : m₁.HasTable d v
  · rw [if_pos ht]
    simp only
    rw [run_bind (gets_pte l ht)]
    cases r with
    | none => exact h
    | some bytes =>
      by_cases hwild : bytes ≠ [] ∧ (2 ^ 19 ≤ v ∨ ¬Present (m₁.pteOf d v))
      · simp only
        rw [run_bind_panic (panicIf_of hwild _ l m₁)]
        rintro ⟨⟩
      · simp only
        rw [run_bind (panicIf_of_not hwild _ l m₁)]
        show Image l m own d sz (m₁.setPage _ _) own₁
        by_cases hbytes : bytes = []
        · -- nothing was read
          have hsame : m₁.setPage (frame (m₁.pteOf d v))
              (put (m₁.page (frame (m₁.pteOf d v))) 0 bytes) = m₁ := by
            have hput : put (m₁.page (frame (m₁.pteOf d v))) 0 bytes =
                m₁.page (frame (m₁.pteOf d v)) := by
              funext i
              simp [put, hbytes]
            rw [hput, Mem.setPage, Function.update_eq_self]
          rw [hsame]
          exact h
        · rw [not_and, not_or, not_not] at hwild
          obtain ⟨hv, hp⟩ := hwild hbytes
          exact h.write hw ((h.grows.wf.tables.page d v _).mpr ⟨h.after, by omega, hp, rfl⟩) _
  · rw [if_neg ht]
    rintro ⟨⟩

theorem Image.loadLoop (h : Image l m own d sz m₁ own₁) (hw : Wf l m own)
    (read : Nat → Nat → Nat → Option (List Byte)) {rounds offset n j : Nat} :
    wp (loadLoop read rounds d v offset n j) InBounds
      (fun _ m₂ => Image l m own d sz m₂ own₁) l m₁ := by
  induction rounds generalizing m₁ j with
  | zero => exact h
  | succ rounds ih =>
    rw [Vm.loadLoop, wp_ite]
    refine ⟨fun _ => h, fun _ => ?_⟩
    rw [wp_bind]
    refine wp_imp (h.loadPage hw) fun r m₂ h₂ => ?_
    rw [wp_ite]
    exact ⟨fun _ => ih h₂, fun _ => h₂⟩

theorem Image.loaduvm (h : Image l m own d sz m₁ own₁) (hw : Wf l m own)
    (read : Nat → Nat → Nat → Option (List Byte)) {addr offset n : Nat} :
    wp (loaduvm read d addr offset n) InBounds
      (fun _ m₂ => Image l m own d sz m₂ own₁) l m₁ := by
  unfold Vm.loaduvm
  rw [wp_bind, wp_panicIf]
  exact ⟨fun _ => nofun, fun _ => h.loadLoop hw read⟩

/-- The image is there, with this size or, when something was bad, with some size. -/
def IsImage (l : Layout) (m : Mem) (own : Nat → Owner) (d : Nat) (r : Option Nat) (m' : Mem) : Prop :=
  ∃ sz own', Image l m own d sz m' own' ∧ ∀ sz', r = some sz' → sz' = sz

theorem Image.loadProghdr (h : Image l m own d sz m₁ own₁) (hw : Wf l m own) (file : ExecFile)
    (i off : Nat) :
    wp (loadProghdr file d i off sz) InBounds (IsImage l m own d) l m₁ := by
  have hbad : IsImage l m own d Option.none m₁ := ⟨sz, own₁, h, nofun⟩
  unfold Vm.loadProghdr
  cases file.proghdr i off with
  | none => exact hbad
  | some b =>
    simp only [wp_ite]
    refine ⟨fun _ => hbad, fun _ => ⟨fun _ => ⟨sz, own₁, h, fun _ e => by cases e; rfl⟩,
      fun _ => ⟨fun _ => hbad, fun _ => ?_⟩⟩⟩
    obtain ⟨r, sz', m₂, own₂, hrun, h₂, hr⟩ := h.alloc ((phVaddr b + phMemsz b) % 2 ^ 32)
    rw [wp_bind]
    unfold wp
    rw [hrun]
    show wp _ _ _ l m₂
    rw [wp_ite]
    refine ⟨fun _ => ⟨sz', own₂, h₂, nofun⟩, fun hne => ?_⟩
    obtain ⟨rfl, -⟩ := hr.resolve_left hne
    rw [wp_bind]
    refine wp_imp (h₂.loaduvm hw _) fun ok m₃ h₃ => ?_
    rw [wp_ite]
    exact ⟨fun _ => ⟨r, own₂, h₃, fun _ e => by cases e; rfl⟩, fun _ => ⟨r, own₂, h₃, nofun⟩⟩

theorem Image.loadProghdrs (h : Image l m own d sz m₁ own₁) (hw : Wf l m own) (file : ExecFile)
    (n i off : Nat) :
    wp (loadProghdrs file n d i off sz) InBounds (IsImage l m own d) l m₁ := by
  induction n generalizing i off sz m₁ own₁ with
  | zero => exact ⟨sz, own₁, h, fun _ e => by cases e; rfl⟩
  | succ n ih =>
    rw [Vm.loadProghdrs, wp_bind]
    refine wp_imp (h.loadProghdr hw file i off) fun r m₂ h₂ => ?_
    obtain ⟨sz', own₂, h₂, hr⟩ := h₂
    cases r with
    | none => exact ⟨sz', own₂, h₂, nofun⟩
    | some s =>
      obtain rfl := hr s rfl
      exact ih h₂ _ _

/-- The kernel writes to the image through `copyout`. -/
theorem Image.copyLoop (h : Image l m own d sz m₁ own₁) (hw : Wf l m own) {rounds va : Nat}
    {buf : List Byte} :
    wp (copyLoop rounds d va buf) InBounds (fun _ m₂ => Image l m own d sz m₂ own₁) l m₁ := by
  induction rounds generalizing m₁ va buf with
  | zero => exact h
  | succ rounds ih =>
    rw [Vm.copyLoop, wp_ite]
    refine ⟨fun _ => h, fun _ => ?_⟩
    rw [wp_bind]
    unfold wp
    rw [uva2ka_eq]
    by_cases ht : m₁.HasTable d (va / 4096)
    · rw [if_pos ht]
      by_cases ha : m₁.Accessible d (va / 4096)
      · rw [if_pos ha]
        exact ih (h.write hw (h.grows.wf.own_accessible h.after ha) _)
      · rw [if_neg ha]
        exact h
    · rw [if_neg ht]
      rintro ⟨⟩

theorem Image.copyout (h : Image l m own d sz m₁ own₁) (hw : Wf l m own) {va : Nat}
    {buf : List Byte} :
    wp (copyout d va buf) InBounds (fun _ m₂ => Image l m own d sz m₂ own₁) l m₁ :=
  h.copyLoop hw

/-- `ustack` has room for 32 arguments and the four words around them. -/
theorem Image.pushStrings (h : Image l m own d sz m₁ own₁) (hw : Wf l m own)
    (argv : List (List Byte)) (sp : Nat) {us : List Nat} (hus : us.length ≤ 32) :
    wp (pushStrings d argv sp us) InBounds
      (fun r m₂ => Image l m own d sz m₂ own₁ ∧ ∀ sp' us', r = some (sp', us') → us'.length ≤ 32)
      l m₁ := by
  induction argv generalizing m₁ sp us with
  | nil => exact ⟨h, fun sp' us' e => by cases e; exact hus⟩
  | cons s argv ih =>
    rw [Vm.pushStrings, wp_ite]
    refine ⟨fun _ => ⟨h, nofun⟩, fun hlt => ?_⟩
    rw [wp_bind]
    refine wp_imp (h.copyout hw) fun r m₂ h₂ => ?_
    rw [wp_ite]
    refine ⟨fun _ => ?_, fun _ => ⟨h₂, nofun⟩⟩
    rw [wp_bind, wp_panicIf]
    refine ⟨fun _ => by omega, fun _ => ih h₂ _ ?_⟩
    rw [List.length_append, List.length_singleton]
    omega

theorem Image.pushUstack (h : Image l m own d sz m₁ own₁) (hw : Wf l m own) (sp : Nat)
    {us : List Nat} (hus : us.length ≤ 32) :
    wp (pushUstack d sp us) InBounds (fun _ m₂ => Image l m own d sz m₂ own₁) l m₁ := by
  unfold Vm.pushUstack
  rw [wp_bind, wp_panicIf]
  refine ⟨fun _ => by omega, fun _ => ?_⟩
  rw [wp_bind]
  refine wp_imp (h.copyout hw) fun r m₂ h₂ => ?_
  rw [wp_ite]
  exact ⟨fun _ => h₂, fun _ => h₂⟩

theorem Image.pushArgs (h : Image l m own d sz m₁ own₁) (hw : Wf l m own) (n : Nat)
    (argv : List (List Byte)) :
    wp (pushArgs d n argv) InBounds (fun _ m₂ => Image l m own d sz m₂ own₁) l m₁ := by
  unfold Vm.pushArgs
  rw [wp_bind]
  refine wp_imp (h.pushStrings hw argv n (Nat.zero_le 32)) fun r m₂ ⟨h₂, hr⟩ => ?_
  cases r with
  | none => exact h₂
  | some r => exact h₂.pushUstack hw r.1 (hr r.1 r.2 rfl)

/-- **`clearpteu`** takes `PTE_U` from one entry. -/
theorem clearpteu_eq {va : Nat} (ht : m₁.HasTable d (va / 4096)) :
    clearpteu d va l m₁ = .ok () (m₁.setPte d (va / 4096)
      (m₁.pteOf d (va / 4096) / 8 * 8 + m₁.pteOf d (va / 4096) % 4)) := by
  unfold clearpteu
  rw [run_bind (walkpgdir_look l m₁ d (va / 4096)), if_pos ht, pteOf_of_hasTable ht]
  rfl

theorem Image.clearpteu (h : Image l m own d sz m₁ own₁) {va : Nat} (hva : va < 2 ^ 31) :
    wp (clearpteu d va) InBounds (fun _ m₂ => Image l m own d sz m₂ own₁) l m₁ := by
  by_cases ht : m₁.HasTable d (va / 4096)
  · have hlt := pteOf_lt m₁ d (va / 4096)
    unfold wp
    rw [clearpteu_eq ht]
    refine h.reflag ht (by omega) (by omega) ?_ ?_
    · unfold Present
      omega
    · unfold frame
      omega
  · unfold Vm.clearpteu
    rw [wp_bind]
    unfold wp
    rw [walkpgdir_look, if_neg ht]
    exact nofun

/-- **A bad image is thrown away.** -/
theorem Image.discard (h : Image l m own d sz m₁ own₁) (hw : Wf l m own) :
    ∃ m₂ own₂, freevm d l m₁ = .ok () m₂ ∧ Failed l m own m₂ own₂ := by
  obtain ⟨m₂, own₂, hrun, hfreed⟩ := freevm_spec h.grows.wf h.after
  obtain ⟨hkept, hback, hlost⟩ := h.grows.discard hw h.before hfreed
  refine ⟨m₂, own₂, hrun, hkept, ?_⟩
  rw [hfreed.denied]
  refine h.count.imp (fun ⟨hden, hno⟩ => ⟨hden, fun f hf => (hback f hf).resolve_right fun e =>
    hno (hlost.mp ⟨f, hf, e⟩)⟩) fun ⟨hden, hyes⟩ => ⟨hden, ?_⟩
  obtain ⟨f, hf, e⟩ := hlost.mpr hyes
  exact ⟨f, hf, by rw [e]; exact nofun⟩

/-- A new directory is an image of size 0. -/
theorem SetUp.image (h : SetUp l d m own true m₁ own₁) : Image l m own d 0 m₁ own₁ := by
  have hcount := h.mapped.count.resolve_right fun e => absurd e.1 nofun
  exact ⟨h.mapped.grows.mono fun _ _ => trivial, h.before, h.after, by decide,
    fun u hu hp => absurd hp (h.none u hu), .inl ⟨hcount.2, h.mapped.lost⟩⟩

end

/-! ## 6. `exec` as a whole -/

-- it is a sum with a large number in it, and must not be evaluated
attribute [local irreducible] execStack

/-- The process runs in the new image. -/
def Proc.committed (x : Proc) (elf path : List Byte) (d sz sp : Nat) : Proc :=
  { x with
    name := safestrcpy (lastPart path) 16, pgdir := d, sz := sz,
    tf := { x.tf with eip := elfEntry elf, esp := sp } }

/-- `exec` of this file comes as far as the stack, in directory `d`: the size is `sz`, and the memory
`m'`. -/
def StackAt (file : ExecFile) (l : Layout) (m : Mem) (elf : List Byte) (d sz : Nat) (m' : Mem) : Prop :=
  ∃ sz₀ m₁, file.inode ≠ none ∧ file.elf = some elf ∧
    execLoad file elf l m = .ok (some d, some sz₀) m₁ ∧ execStack d sz₀ l m₁ = .ok sz m' ∧
    sz = 4096 * pageUp sz₀ + 8192

section

variable {me : Me} {k : Kernel} {own own₁ : Nat → Owner} {elf path : List Byte}
  {argv : List (List Byte)} {d sz sp : Nat} {m : Mem}

theorem upd_upd (k : Kernel) (p : Slot) (f g : Proc → Proc) :
    (k.upd p f).upd p g = k.upd p fun x => g (f x) := by
  unfold Kernel.upd
  simp only [Function.update_self, Function.update_idem]

/-- One reference more and one less. -/
theorem update_add_sub (r : Nat → Nat) (ip : Nat) :
    Function.update (Function.update r ip (r ip + 1)) ip
      (Function.update r ip (r ip + 1) ip - 1) = r := by
  rw [Function.update_self, Nat.add_sub_cancel, Function.update_idem, Function.update_eq_self]

/-- The inode is referred to while it is read. -/
theorem iput_iget (k : Kernel) (ip : Nat) (m : Mem) :
    { k with
      mem := m
      inodeRef := Function.update (Function.update k.inodeRef ip (k.inodeRef ip + 1)) ip
        (Function.update k.inodeRef ip (k.inodeRef ip + 1) ip - 1) } = { k with mem := m } := by
  rw [update_add_sub]

theorem ends_iget {ip : Nat} {Q : Unit → Kernel → Prop} :
    ends (iget ip) Q me k ↔ Q () { k with
      inodeRef := Function.update k.inodeRef ip (k.inodeRef ip + 1) } := Iff.rfl

theorem ends_iput {ip : Nat} {Q : Unit → Kernel → Prop} :
    ends (iput ip) Q me k ↔ Q () { k with
      inodeRef := Function.update k.inodeRef ip (k.inodeRef ip - 1) } := Iff.rfl

/-- There is one such stack. -/
theorem StackAt.unique {file : ExecFile} {l : Layout} {elf' : List Byte} {d' sz' : Nat}
    {m₁ m₁' : Mem} (h : StackAt file l m elf d sz m₁) (h' : StackAt file l m elf' d' sz' m₁') :
    sz = sz' := by
  obtain ⟨sz₀, m₀, -, helf, hload, hstack, -⟩ := h
  obtain ⟨sz₀', m₀', -, helf', hload', hstack', -⟩ := h'
  cases helf.symm.trans helf'
  cases hload.symm.trans hload'
  cases hstack.symm.trans hstack'
  rfl

end

end Xv6.Vm
