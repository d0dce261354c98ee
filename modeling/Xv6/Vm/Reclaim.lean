/-
# What `fork` and `exec` give back when they fail

Both throw away what they have built, with `freevm`.  That is everything, unless a page table was
refused on the way: then `setupkvm` leaves its directory behind, or a page that was to be mapped is
lost.  And `exec` sets `pstack` before it knows whether the arguments fit.
-/
import Xv6.Vm.Exec

namespace Xv6.Vm

open Xv6.Bytes Xv6.Threads Xv6.Threads.Code
open Xv6.Ptable (Slot NPROC ProcState)

variable {me : Me} {k k' : Kernel} {own : Nat → Owner}

end Xv6.Vm
