/-
# The sizes of the kernel's tables (param.h, fs.h)

A table of the kernel is a function from its indices, the numbers below its size.  No table is empty,
so each has an entry `0`; this is said here once, for the sizes that several modules use.
-/
import Mathlib

namespace Xv6

/-- `NPROC` -/
instance neZero_nproc : NeZero 64 := ⟨by decide⟩

/-- `NDIRECT + 1` -/
instance neZero_addrs : NeZero 13 := ⟨by decide⟩

end Xv6
