import Mathlib.Logic.Function.Basic

/-!
# `memmove`

The kernel's `memmove` of `string.c` and the one of the user library, `ulib.c`. Both copy upwards or
downwards, and choose the direction differently. A pointer is a word of 64 bits and may wrap around.
-/

namespace Xv6.Str

open Function

abbrev Mem := BitVec 64 → BitVec 8

/-- `while(n-- > 0) *d++ = *s++;` -/
def copyUp : Nat → Mem → BitVec 64 → BitVec 64 → Mem
  | 0, m, _, _ => m
  | n + 1, m, d, s => copyUp n (update m d (m s)) (d + 1) (s + 1)

/-- `while(n-- > 0) *--d = *--s;` -/
def copyDown : Nat → Mem → BitVec 64 → BitVec 64 → Mem
  | 0, m, _, _ => m
  | n + 1, m, d, s => copyDown n (update m (d - 1) (m (s - 1))) (d - 1) (s - 1)

/-- `memmove` of the kernel. `n` is a `uint`. -/
def memmove (m : Mem) (dst src : BitVec 64) (n : BitVec 32) : Mem :=
  if src < dst ∧ src + n.setWidth 64 > dst then
    copyDown n.toNat m (dst + n.setWidth 64) (src + n.setWidth 64)
  else copyUp n.toNat m dst src

/-- `memmove` of the user library. `n` is an `int`. -/
def memmoveUser (m : Mem) (dst src : BitVec 64) (n : BitVec 32) : Mem :=
  if src > dst then copyUp n.toInt.toNat m dst src
  else copyDown n.toInt.toNat m (dst + n.signExtend 64) (src + n.signExtend 64)

end Xv6.Str
