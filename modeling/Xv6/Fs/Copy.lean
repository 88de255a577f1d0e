import Xv6.Param

/-!
# Copying between blocks and memory

`copyin` and `copyout` of `vm.c` go page by page and stop at the first page that is not mapped;
what they have copied until then stays. A user address space is given by what `walkaddr` finds for
each of its pages.
-/

namespace Xv6

abbrev PGSIZE : Nat := 4096

/-- The memory that `either_copyin` and `either_copyout` reach. -/
inductive Space
  | user (page : Nat → Option (Bytes PGSIZE))
  | kernel (mem : Nat → BitVec 8)

/-- Copy from user to kernel: `len` bytes from `srcva` to offset `doff` of a block. The answer is
whether all were copied, how many were, and the block; `fuel` bounds the number of pages, and `len`
is enough. -/
def copyin (page : Nat → Option (Bytes PGSIZE)) :
    Nat → Block → Nat → Nat → Nat → Bool × Nat × Block
  | 0, dst, _, _, len => (len = 0, 0, dst)
  | fuel + 1, dst, doff, srcva, len =>
    if len = 0 then (true, 0, dst)
    else
      let va0 := srcva / PGSIZE * PGSIZE
      match page (srcva / PGSIZE) with
      | none => (false, 0, dst)
      | some pg =>
        let n := min (PGSIZE - (srcva - va0)) len
        let r := copyin page fuel (dst.copy doff pg (srcva - va0) n) (doff + n) (va0 + PGSIZE)
          (len - n)
        (r.1, n + r.2.1, r.2.2)

/-- Copy from kernel to user: `len` bytes from offset `soff` of a block to `dstva`. -/
def copyout (src : Block) :
    Nat → (Nat → Option (Bytes PGSIZE)) → Nat → Nat → Nat → Bool × (Nat → Option (Bytes PGSIZE))
  | 0, page, _, _, len => (len = 0, page)
  | fuel + 1, page, dstva, soff, len =>
    if len = 0 then (true, page)
    else
      let va0 := dstva / PGSIZE * PGSIZE
      match page (dstva / PGSIZE) with
      | none => (false, page)
      | some pg =>
        let n := min (PGSIZE - (dstva - va0)) len
        copyout src fuel
          (Function.update page (dstva / PGSIZE) (some (pg.copy (dstva - va0) src soff n)))
          (va0 + PGSIZE) (soff + n) (len - n)

/-- Copy from either a user address, or kernel address. -/
def eitherCopyin (sp : Space) (dst : Block) (doff src len : Nat) : Bool × Nat × Block :=
  match sp with
  | .user page => copyin page len dst doff src len
  | .kernel mem =>
    (true, len,
      fun j => if doff ≤ j.val ∧ j.val < doff + len then mem (src + (j.val - doff)) else dst j)

/-- Copy to either a user address, or kernel address. -/
def eitherCopyout (sp : Space) (dst : Nat) (src : Block) (soff len : Nat) : Bool × Space :=
  match sp with
  | .user page =>
    let r := copyout src len page dst soff len
    (r.1, .user r.2)
  | .kernel mem =>
    (true, .kernel fun a => if dst ≤ a ∧ a < dst + len then src.byte (soff + (a - dst)) else mem a)

end Xv6
