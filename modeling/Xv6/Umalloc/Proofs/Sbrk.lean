import Xv6.Umalloc.Proofs.Calls
import Xv6.Umalloc.Sbrk
import Xv6.Vm.Proofs.Growing

/-!
# The heap and the break

When `morecore` asks for less than `2 ^ 31` bytes, `sbrk` moves the break by what it is asked for or
fails, and all memory of the heap is below the break.
-/

namespace Xv6.Umalloc

open Vm
open BitVec (ofNat toNat_ofNat)

/-! ## `malloc` and what it is told -/

section

variable {n fuel : Nat} {h : Heap} {prevp p : Nat} {out : Out} {got : List Block} {pr : Process}

end

/-! ## The kernel's answer -/

variable {T O : Multiset Nat} {w : KWorld} {t : PageTable} {pr : Process} {b : Block}

variable {segs : List Block} {brk : Nat}

variable {free : List Block}

section

variable {h : Heap} {live : List Alloc} {nbytes : Nat} {out : Out} {pr' : Process} {w' : KWorld}

end

end Xv6.Umalloc
