import Xv6.Umalloc.Code
import Xv6.Vm.Process

/-!
# The allocator on the kernel's `sbrk`

`malloc` as in `Xv6.Umalloc.Code`, with `sbrk` being the system call. `morecore` computes the number of
bytes in 64 bits and passes it as an `int`.
-/

namespace Xv6.Umalloc

open Vm

end Xv6.Umalloc
