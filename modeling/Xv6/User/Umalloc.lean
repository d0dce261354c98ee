/-
# The allocator of user programs (umalloc.c)

A block is a header and the bytes behind it; its size counts units of one header, the header
included.  The free blocks are a circular list through a static header `base` of size 0.  `malloc`
goes round the list from `freep` and takes what it needs from the END of the first block that is
large enough, or all of it; when it is back at `freep` it asks the kernel for memory, which it
`free`s and finds on its way on.  `free` looks for the place of a block in the list, which is in the
order of the addresses, and joins it to its neighbours.

Memory is the two words of the header at each address.  Addresses and sizes are 32 bits wide and
wrap around (`plus`, `minus`, `add`).  The loops have no bound in the source; here they take FUEL and
answer `none` when it is used up, and no result depends on how much there was.

`brk` and `got` are not in the source: the end of the memory the kernel has given, and the units of
it.  The program that uses the allocator may write into the blocks it has (`store`).
-/
import Xv6.Runs

namespace Xv6.Umalloc

/-- The memory as the allocator sees it: a header at every address, and `freep` (0 is NULL). -/
structure Heap where
  ptr : Nat → Nat
  size : Nat → Nat
  freep : Nat
  brk : Nat
  got : Nat

namespace Heap

def setPtr (h : Heap) (p q : Nat) : Heap := { h with ptr := Function.update h.ptr p q }

def setSize (h : Heap) (p : Nat) (n : Nat) : Heap := { h with size := Function.update h.size p n }

end Heap

/-- `p + n` for a header `p`. -/
def plus (p : Nat) (n : Nat) : Nat := (p + 8 * n) % 2 ^ 32

/-- `(Header*)ap - 1`. -/
def minus (ap : Nat) : Nat := (ap + 2 ^ 32 - 8) % 2 ^ 32

/-- The sum of two unsigned words. -/
def add (m n : Nat) : Nat := (m + n) % 2 ^ 32

/-- The loop of `free`: the block behind which `bp` belongs. -/
def freeLoop (h : Heap) (bp : Nat) : Nat → Nat → Option Nat
  | 0, _ => none
  | fuel + 1, p =>
    if p < bp ∧ bp < h.ptr p then some p
    else if h.ptr p ≤ p ∧ (p < bp ∨ bp < h.ptr p) then some p
    else freeLoop h bp fuel (h.ptr p)

/-- `free`: join `bp` to the block behind it, or link it to that block. -/
def joinNext (h : Heap) (bp p : Nat) : Heap :=
  if plus bp (h.size bp) = h.ptr p then
    (h.setSize bp (add (h.size bp) (h.size (h.ptr p)))).setPtr bp (h.ptr (h.ptr p))
  else
    h.setPtr bp (h.ptr p)

/-- `free`: join `p` to `bp`, or link it to `bp`. -/
def joinPrev (h : Heap) (bp p : Nat) : Heap :=
  if plus p (h.size p) = bp then
    (h.setSize p (add (h.size p) (h.size bp))).setPtr p (h.ptr bp)
  else
    h.setPtr p bp

/-- `free(ap)`. -/
def free (fuel : Nat) (h : Heap) (ap : Nat) : Option Heap :=
  let bp := minus ap
  (freeLoop h bp fuel h.freep).map fun p =>
    { joinPrev (joinNext h bp p) bp p with freep := p }

/-- The kernel's `sbrk`: it refuses (-1), or gives fresh memory above all it has given before, whose
end is an address too. -/
structure Kernel where
  sbrk : Heap → Nat → Option Nat
  fresh : ∀ h n a, sbrk h n = some a → 8 ∣ a ∧ h.brk ≤ a ∧ a + n < 2 ^ 32

/-- `morecore(nu)`: the block `malloc` goes on from, 0 if there is no memory. -/
def morecore (k : Kernel) (fuel : Nat) (h : Heap) (nu : Nat) : Option (Heap × Nat) :=
  let nu := if nu < 4096 then 4096 else nu
  match k.sbrk h (nu * 8 % 2 ^ 32) with
  | none => some (h, 0)
  | some hp =>
    let h := { h with brk := hp + nu * 8 % 2 ^ 32, got := h.got + nu }
    (free fuel (h.setSize hp nu) (plus hp 1)).map fun h => (h, h.freep)

/-- `malloc` takes `nunits` from the block `p` behind `prevp`, from its end or all of it. -/
def carve (h : Heap) (prevp p nunits : Nat) : Heap × Nat :=
  if h.size p = nunits then
    ({ h.setPtr prevp (h.ptr p) with freep := prevp }, plus p 1)
  else
    let h := h.setSize p (h.size p - nunits)
    let p := plus p (h.size p)
    ({ h.setSize p nunits with freep := prevp }, plus p 1)

/-- The loop of `malloc`. -/
def mallocLoop (k : Kernel) (nunits : Nat) : Nat → Heap → Nat → Nat → Option (Heap × Nat)
  | 0, _, _, _ => none
  | fuel + 1, h, prevp, p =>
    if nunits ≤ h.size p then some (carve h prevp p nunits)
    else if p = h.freep then
      (morecore k fuel h nunits).bind fun (h, q) =>
        if q = 0 then some (h, 0) else mallocLoop k nunits fuel h q (h.ptr q)
    else
      mallocLoop k nunits fuel h p (h.ptr p)

/-- `malloc(nbytes)`. -/
def malloc (base : Nat) (k : Kernel) (fuel : Nat) (h : Heap) (nbytes : Nat) :
    Option (Heap × Nat) :=
  let nunits := (nbytes + 8 - 1) % 2 ^ 32 / 8 + 1
  let h := if h.freep = 0 then
    ({ h.setPtr base base with freep := base }).setSize base 0 else h
  mallocLoop k nunits fuel h h.freep (h.ptr h.freep)

/-! ## The program -/

/-- The memory, and the blocks the program has: what `malloc` returned, and the bytes asked for. -/
structure World where
  heap : Heap
  live : List (Nat × Nat)

/-- What the program does; the kernel may be another one at each call. -/
inductive Event where
  | malloc (nbytes : Nat) (k : Kernel)
  | free (ap : Nat)
  | store (a ptr size : Nat)

/-- The header at `a` lies in the bytes of a block that the program has. -/
def World.Owns (w : World) (a : Nat) : Prop :=
  8 ∣ a ∧ ∃ b ∈ w.live, b.1 ≤ a ∧ a < b.1 - 8 + 8 * w.heap.size (b.1 - 8)

instance (w : World) (a : Nat) : Decidable (w.Owns a) :=
  inferInstanceAs (Decidable (_ ∧ ∃ b ∈ w.live, _ ∧ _))

/-- The calls the allocator is made for. -/
def Event.Allowed (w : World) : Event → Prop
  | .malloc n _ => n + 32768 < 2 ^ 31
  | .free ap => ∃ b ∈ w.live, b.1 = ap
  | .store a _ _ => w.Owns a

/-- One call, or one write. -/
def step (base : Nat) (fuel : Nat) (w : World) : Event → Option World
  | .malloc n k =>
    if n + 32768 < 2 ^ 31 then
      (malloc base k fuel w.heap n).map fun (h, ap) =>
        if ap = 0 then ⟨h, w.live⟩ else ⟨h, (ap, n) :: w.live⟩
    else none
  | .free ap =>
    match w.live.find? (·.1 = ap) with
    | some b => (free fuel w.heap ap).map fun h => ⟨h, w.live.erase b⟩
    | none => none
  | .store a ptr size =>
    if w.Owns a then some ⟨(w.heap.setPtr a ptr).setSize a size, w.live⟩ else none

/-- The program starts: `freep` is NULL. -/
def start (base : Nat) : World :=
  ⟨⟨fun _ => 0, fun _ => 0, 0, base + 8, 0⟩, []⟩

end Xv6.Umalloc
