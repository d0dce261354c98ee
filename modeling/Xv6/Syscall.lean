/-
# The arguments of a system call (syscall.c)

The arguments lie on the caller's stack, in memory that the caller controls, and are 32-bit words.
What is an `int` to one function is a `uint` to the next: a word is a number below `2 ^ 32` here, and
`asInt` is the number that an `int` with the same bits stands for.
-/
import Xv6.Bytes

namespace Xv6.Syscall

open Xv6.Bytes

/-- The value of an `int` with the bits of `w`. -/
def asInt (w : Nat) : Int := if w < 2 ^ 31 then w else (w : Int) - 2 ^ 32

/-- What the kernel sees of the process that makes a system call: its memory, `proc->sz` and
`proc->tf->esp`.  No process has memory at KERNBASE or above. -/
structure Caller where
  mem : Nat → Byte
  sz : Nat
  esp : Nat
  below : sz ≤ 2 ^ 31

namespace Caller

variable (u : Caller)

/-- The word at `addr`. -/
def word (addr : Nat) : Nat := leNat ((List.range 4).map fun j => u.mem (addr + j))

/-- `fetchint(addr, &i)` -/
def fetchint (addr : Nat) : Option Nat :=
  if u.sz ≤ addr ∨ u.sz < (addr + 4) % 2 ^ 32 ∨ addr = 0 then none else some (u.word addr)

/-- `argint(n, &i)` -/
def argint (n : Nat) : Option Nat := u.fetchint ((u.esp + 4 + 4 * n) % 2 ^ 32)

/-- `argptr(n, &p, size)`: the test is made on the word that `size` is. -/
def argptr (n size : Nat) : Option Nat := do
  let i ← u.argint n
  if u.sz ≤ i ∨ u.sz < (i + size) % 2 ^ 32 ∨ i = 0 then none else some i

end Caller

end Xv6.Syscall
