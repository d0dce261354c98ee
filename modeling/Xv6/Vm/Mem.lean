/-
# Physical pages and page tables (kalloc.c, vm.c)

Memory is a number of pages of 4096 bytes, named by their FRAME NUMBER, the physical address divided
by the page size.  A page directory and a page table are pages like all others, read as 1024 words;
which page is what is nowhere written down, so nothing stops the code from freeing a page twice or
from mapping the same page at two places, other than that it does not do so.  `Owner.lean` says what
that means.

A virtual address is a page number, `v` below 2^20, and an offset; the user's pages are those below
2^19 (KERNBASE).  An entry is a number below 2^32: the frame, times 4096, and the flags.  `|` of an
address with flags is a sum, since the low bits of the address are zero.

The free list is a list of frame numbers: the link that `kfree` stores in a free page is not kept in
the page, which holds ones.  `denied` is not in the source: it counts the page tables that
`walkpgdir` could not get.

Where the kernel itself goes astray, the model stops: `nullPte`, `nullProc` and `nullInode` are
reads through a null pointer, `ustack` is a write past the end of an array, and `wild` a write of
`loaduvm` to a page that is no user page.
-/
import Xv6.Bytes
import Xv6.Threads

namespace Xv6.Vm

open Xv6.Bytes Xv6.Threads Xv6.Threads.Code

/-! ## 1. Pages -/

abbrev Page := Blob 4096

/-- Memory, as far as `kalloc` and the page tables are concerned. -/
structure Mem where
  page : Nat → Page
  free : List Nat
  denied : Nat

/-- The panics, and what else ends a run. -/
inductive Stop
  | kfree
  | remap
  | freevm
  | clearpteu
  | copyuvmPte
  | copyuvmPresent
  | loaduvmAligned
  | loaduvmExist
  | switchuvm
  | filedup
  | ustack
  | nullPte
  | nullProc
  | nullInode
  | wild
  deriving DecidableEq, Repr

/-- Where the kernel is: the frame of `data`, which is page-aligned, and the first frame at or above
`end`. -/
structure Layout where
  data : Nat
  first : Nat
  text : 256 < data
  room : data < 57344
  above : 0 < first

/-- Code on memory. -/
abbrev V := Code Layout Stop Mem

namespace Mem

variable (m : Mem)

/-- A page is written. -/
def setPage (f : Nat) (x : Page) : Mem := { m with page := Function.update m.page f x }

/-- Word `j` of a page is written. -/
def setWord (f j w : Nat) : Mem := m.setPage f (Bytes.setWord (m.page f) j w)

/-- Entry `i` of a page directory. -/
def pde (d i : Nat) : Nat := word (m.page d) i

end Mem

/-- `*pte & PTE_P` -/
def Present (w : Nat) : Prop := w % 2 = 1

/-- `*pte & PTE_U` -/
def User (w : Nat) : Prop := w / 4 % 2 = 1

instance (w : Nat) : Decidable (Present w) := inferInstanceAs (Decidable (_ = _))
instance (w : Nat) : Decidable (User w) := inferInstanceAs (Decidable (_ = _))

/-- The frame of `PTE_ADDR(pte)`. -/
def frame (w : Nat) : Nat := w / 4096

/-- `PTE_FLAGS(pte)` -/
def flags (w : Nat) : Nat := w % 4096

/-- `pa | perm | PTE_P` -/
def entry (f perm : Nat) : Nat := 4096 * f + (perm / 2 * 2 + 1)

/-- `PGROUNDUP(sz) / PGSIZE` -/
def pageUp (sz : Nat) : Nat := (sz + 4095) % 2 ^ 32 / 4096

/-! ## 2. kalloc.c -/

/-- `memset(p, b, PGSIZE)` -/
def memset (f : Nat) (b : Byte) : V Unit := modify (·.setPage f fun _ => b)

/-- `kfree(v)`; the address is that of a page.  PHYSTOP is frame 57344. -/
def kfree (f : Nat) : V Unit := do
  let l ← self
  panicIf (f < l.first ∨ 57344 ≤ f) .kfree
  memset f 1
  modify fun m => { m with free := f :: m.free }

/-- `kalloc()` -/
def kalloc : V (Option Nat) := do
  match ← gets Mem.free with
  | [] => return none
  | f :: rest =>
    modify fun m => { m with free := rest }
    return some f

/-! ## 3. Page tables -/

/-- `walkpgdir(pgdir, va, alloc)`: the table and the index of the entry for page `v`. -/
def walkpgdir (d v : Nat) (alloc : Bool) : V (Option (Nat × Nat)) := do
  let e ← gets (·.pde d (v / 1024))
  if Present e then return some (frame e, v % 1024)
  else if alloc = false then return none
  else
    match ← kalloc with
    | none =>
      modify fun m => { m with denied := m.denied + 1 }
      return none
    | some f =>
      memset f 0
      modify (·.setWord d (v / 1024) (4096 * f + 7))
      return some (f, v % 1024)

/-- `mappages(pgdir, va, size, pa, perm)` for `n` pages from page `v` on: every call in the source is
for whole pages.  `false` is -1. -/
def mappages : (n : Nat) → (d v f perm : Nat) → V Bool
  | 0, _, _, _, _ => return true
  | n + 1, d, v, f, perm => do
    match ← walkpgdir d v true with
    | none => return false
    | some (t, j) =>
      let w ← gets fun m => word (m.page t) j
      panicIf (Present w) .remap
      modify (·.setWord t j (entry f perm))
      mappages n d (v + 1) (f + 1) perm

/-- `struct kmap`, in pages. -/
structure Kmap where
  virt : Nat
  physStart : Nat
  physEnd : Nat
  perm : Nat

/-- `kmap[]`: KERNBASE is page 0x80000, EXTMEM frame 0x100, PHYSTOP frame 0xE000 and DEVSPACE page
0xFE000, up to 2^32. -/
def kmap (l : Layout) : List Kmap :=
  [⟨0x80000, 0, 0x100, 2⟩, ⟨0x80100, 0x100, l.data, 0⟩, ⟨0x80000 + l.data, l.data, 0xE000, 2⟩,
    ⟨0xFE000, 0xFE000, 0x100000, 2⟩]

/-- The loop of `setupkvm`. -/
def kmapLoop (d : Nat) : List Kmap → V Bool
  | [] => return true
  | k :: ks => do
    if ← mappages (k.physEnd - k.physStart) d k.virt k.physStart k.perm then kmapLoop d ks
    else return false

/-- `setupkvm()`.  PHYSTOP is not too high. -/
def setupkvm : V (Option Nat) := do
  match ← kalloc with
  | none => return none
  | some d =>
    memset d 0
    if ← kmapLoop d (kmap (← self)) then return some d else return none

/-! ## 4. The user's part -/

/-- One round of `deallocuvm`, and the page at which the next one is.  Where there is no page table
it skips 1024 pages FROM WHERE IT IS. -/
def deallocPage (d v : Nat) : V Nat := do
  match ← walkpgdir d v false with
  | none => return v + 1024
  | some (t, j) =>
    let w ← gets fun m => word (m.page t) j
    when (Present w) do
      panicIf (frame w = 0) .kfree
      kfree (frame w)
      modify (·.setWord t j 0)
    return v + 1

/-- The loop of `deallocuvm`. -/
def deallocLoop : (rounds : Nat) → (d oldsz v : Nat) → V Unit
  | 0, _, _, _ => return ()
  | rounds + 1, d, oldsz, v =>
    if oldsz ≤ 4096 * v then return ()
    else do
      let v ← deallocPage d v
      deallocLoop rounds d oldsz v

/-- `deallocuvm(pgdir, oldsz, newsz)`.  Every round is at least one page further. -/
def deallocuvm (d oldsz newsz : Nat) : V Nat :=
  if oldsz ≤ newsz then return oldsz
  else do
    deallocLoop (oldsz / 4096 + 1) d oldsz (pageUp newsz)
    return newsz

/-- One round of `allocuvm`: `false` if there is no page left. -/
def allocPage (d v : Nat) : V Bool := do
  match ← kalloc with
  | none => return false
  | some f =>
    memset f 0
    -- what `mappages` returns is not looked at
    let _ ← mappages 1 d v f 6
    return true

/-- The loop of `allocuvm`, with `n` pages to go. -/
def allocLoop : (n : Nat) → (d v : Nat) → V Bool
  | 0, _, _ => return true
  | n + 1, d, v => do
    if ← allocPage d v then allocLoop n d (v + 1) else return false

/-- `allocuvm(pgdir, oldsz, newsz)`: the new size, or 0. -/
def allocuvm (d oldsz newsz : Nat) : V Nat :=
  if 2 ^ 31 ≤ newsz then return 0
  else if newsz < oldsz then return oldsz
  else do
    if ← allocLoop (pageUp newsz - pageUp oldsz) d (pageUp oldsz) then return newsz
    else
      let _ ← deallocuvm d newsz oldsz
      return 0

/-- The loop of `freevm`, from entry `i` of the directory on. -/
def freeTables : (n : Nat) → (d i : Nat) → V Unit
  | 0, _, _ => return ()
  | n + 1, d, i => do
    let e ← gets (·.pde d i)
    when (Present e) (kfree (frame e))
    freeTables n d (i + 1)

/-- `freevm(pgdir)` -/
def freevm (d : Nat) : V Unit := do
  panicIf (d = 0) .freevm
  let _ ← deallocuvm d (2 ^ 31) 0
  freeTables 1024 d 0
  kfree d

/-- `clearpteu(pgdir, uva)` -/
def clearpteu (d va : Nat) : V Unit := do
  match ← walkpgdir d (va / 4096) false with
  | none => panic .clearpteu
  | some (t, j) => modify fun m => m.setWord t j (word (m.page t) j / 8 * 8 + word (m.page t) j % 4)

/-- One round of `copyuvm`: `false` is `goto bad`. -/
def copyPage (d d' v : Nat) : V Bool := do
  match ← walkpgdir d v false with
  | none => panic .copyuvmPte
  | some (t, j) =>
    let w ← gets fun m => word (m.page t) j
    panicIf (¬Present w) .copyuvmPresent
    match ← kalloc with
    | none => return false
    | some f =>
      modify fun m => m.setPage f (m.page (frame w))
      mappages 1 d' v f (flags w)

/-- The loop of `copyuvm`, with `n` pages to go. -/
def copyuvmLoop : (n : Nat) → (d d' v : Nat) → V Bool
  | 0, _, _, _ => return true
  | n + 1, d, d', v => do
    if ← copyPage d d' v then copyuvmLoop n d d' (v + 1) else return false

/-- `copyuvm(pgdir, sz)`.  The loop begins at page 1. -/
def copyuvm (d sz : Nat) : V (Option Nat) := do
  match ← setupkvm with
  | none => return none
  | some d' =>
    if ← copyuvmLoop (pageUp sz - 1) d d' 1 then return some d'
    else
      freevm d'
      return none

/-! ## 5. The kernel writes to the user's pages -/

/-- `uva2ka(pgdir, uva)`: the frame.  The entry is read without a look at the pointer. -/
def uva2ka (d v : Nat) : V (Option Nat) := do
  match ← walkpgdir d v false with
  | none => panic .nullPte
  | some (t, j) =>
    let w ← gets fun m => word (m.page t) j
    if ¬Present w then return none
    else if ¬User w then return none
    else return some (frame w)

/-- The loop of `copyout`.  Every round takes at least one byte. -/
def copyLoop : (rounds : Nat) → (d va : Nat) → List Byte → V Bool
  | 0, _, _, _ => return true
  | rounds + 1, d, va, buf =>
    if buf = [] then return true
    else do
      match ← uva2ka d (va / 4096) with
      | none => return false
      | some f =>
        let n := min buf.length (4096 - va % 4096)
        modify fun m => m.setPage f (put (m.page f) (va % 4096) (buf.take n))
        copyLoop rounds d ((va / 4096 * 4096 + 4096) % 2 ^ 32) (buf.drop n)

/-- `copyout(pgdir, va, p, len)`, for the bytes at `p`: `false` is -1. -/
def copyout (d va : Nat) (buf : List Byte) : V Bool := copyLoop buf.length d va buf

/-- One round of `loaduvm`: what `readi` returns for `n` bytes goes to page `v`. -/
def loadPage (d v n : Nat) (r : Option (List Byte)) : V Bool := do
  match ← walkpgdir d v false with
  | none => panic .loaduvmExist
  | some (t, j) =>
    let w ← gets fun m => word (m.page t) j
    match r with
    | none => return false
    | some bytes =>
      panicIf (bytes ≠ [] ∧ (2 ^ 19 ≤ v ∨ ¬Present w)) .wild
      modify fun m => m.setPage (frame w) (put (m.page (frame w)) 0 bytes)
      return bytes.length = n

/-- The loop of `loaduvm`: `read j off n` is what `readi` returns in round `j`. -/
def loadLoop (read : Nat → Nat → Nat → Option (List Byte)) :
    (rounds : Nat) → (d v offset sz j : Nat) → V Bool
  | 0, _, _, _, _, _ => return true
  | rounds + 1, d, v, offset, sz, j =>
    if sz ≤ 4096 * j then return true
    else do
      let n := min (sz - 4096 * j) 4096
      if ← loadPage d ((v + j) % 2 ^ 20) n (read j ((offset + 4096 * j) % 2 ^ 32) n) then
        loadLoop read rounds d v offset sz (j + 1)
      else return false

/-- `loaduvm(pgdir, addr, ip, offset, sz)`: `false` is -1. -/
def loaduvm (read : Nat → Nat → Nat → Option (List Byte)) (d addr offset sz : Nat) : V Bool := do
  panicIf (addr % 4096 ≠ 0) .loaduvmAligned
  loadLoop read (sz / 4096 + 1) d (addr / 4096) offset sz 0

end Xv6.Vm
