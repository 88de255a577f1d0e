import Xv6.Lib.Word
import Xv6.Sv39.Code

/-!
# Copying between kernel and user

`copyout`, `copyin` and `copyinstr` of `vm.c`, with `fetchstr` and `argstr` of `syscall.c`, on the words
of physical memory. Buffers of the kernel are lists of bytes. The loops take a bound on the number of rounds; one for
each byte is enough.
-/

namespace Xv6.Sv39

/-- The address of the word that has the byte at `a`. -/
def wordAt (a : BitVec 64) : BitVec 64 := a &&& ~~~7

def getByte (m : PhysMem) (a : BitVec 64) : BitVec 8 := Word.byte (m.word (wordAt a)) (a.toNat % 8)

def setByte (m : PhysMem) (a : BitVec 64) (b : BitVec 8) : PhysMem :=
  store m (wordAt a) (Word.setByte (m.word (wordAt a)) (a.toNat % 8) b)

/-- `memmove` from a buffer of the kernel. -/
def setBytes : PhysMem → BitVec 64 → List (BitVec 8) → PhysMem
  | m, _, [] => m
  | m, a, b :: bs => setBytes (setByte m a b) (a + 1) bs

/-- `memmove` of `n` bytes to a buffer of the kernel. -/
def getBytes (m : PhysMem) : BitVec 64 → Nat → List (BitVec 8)
  | _, 0 => []
  | a, n + 1 => getByte m a :: getBytes m (a + 1) n

/-- The loop of `copyout`. The answer is whether it returns 0. -/
def copyoutLoop (pagetable : BitVec 64) :
    Nat → PhysMem → BitVec 64 → List (BitVec 8) → Except String (Bool × PhysMem)
  | 0, m, _, _ => .ok (true, m)
  | fuel + 1, m, dstva, src =>
    if src.length = 0 then .ok (true, m)
    else do
      let va0 := PGROUNDDOWN dstva
      let pa0 ← walkaddr m pagetable va0
      if pa0 = 0 then .ok (false, m)
      else
        let n := min (PGSIZE - (dstva - va0)).toNat src.length
        let m := setBytes m (pa0 + (dstva - va0)) (src.take n)
        copyoutLoop pagetable fuel m (va0 + PGSIZE) (src.drop n)

/-- Copy from kernel to user: the bytes `src` to virtual address `dstva` in a given page table. -/
def copyout (m : PhysMem) (pagetable dstva : BitVec 64) (src : List (BitVec 8)) :
    Except String (Bool × PhysMem) :=
  copyoutLoop pagetable src.length m dstva src

/-- The loop of `copyin`: whether it returns 0, and the bytes that it writes to `dst`. -/
def copyinLoop (m : PhysMem) (pagetable : BitVec 64) :
    Nat → BitVec 64 → Nat → Except String (Bool × List (BitVec 8))
  | 0, _, _ => .ok (true, [])
  | fuel + 1, srcva, len =>
    if len = 0 then .ok (true, [])
    else do
      let va0 := PGROUNDDOWN srcva
      let pa0 ← walkaddr m pagetable va0
      if pa0 = 0 then .ok (false, [])
      else
        let n := min (PGSIZE - (srcva - va0)).toNat len
        let (ok, rest) ← copyinLoop m pagetable fuel (va0 + PGSIZE) (len - n)
        .ok (ok, getBytes m (pa0 + (srcva - va0)) n ++ rest)

/-- Copy from user to kernel: `len` bytes from virtual address `srcva` in a given page table. -/
def copyin (m : PhysMem) (pagetable srcva : BitVec 64) (len : Nat) :
    Except String (Bool × List (BitVec 8)) :=
  copyinLoop m pagetable len srcva len

/-- The inner loop of `copyinstr`: the bytes that it writes to `dst`, and `got_null`. -/
def copyUntilNul (m : PhysMem) : Nat → BitVec 64 → List (BitVec 8) × Bool
  | 0, _ => ([], false)
  | n + 1, p =>
    if getByte m p = 0 then ([0], true)
    else
      let (bs, gotNull) := copyUntilNul m n (p + 1)
      (getByte m p :: bs, gotNull)

/-- The outer loop of `copyinstr`: whether it returns 0, and the bytes that it writes to `dst`. -/
def copyinstrLoop (m : PhysMem) (pagetable : BitVec 64) :
    Nat → BitVec 64 → Nat → Except String (Bool × List (BitVec 8))
  | 0, _, _ => .ok (false, [])
  | fuel + 1, srcva, max =>
    if max = 0 then .ok (false, [])
    else do
      let va0 := PGROUNDDOWN srcva
      let pa0 ← walkaddr m pagetable va0
      if pa0 = 0 then .ok (false, [])
      else
        let n := min (PGSIZE - (srcva - va0)).toNat max
        let (bs, gotNull) := copyUntilNul m n (pa0 + (srcva - va0))
        if gotNull then .ok (true, bs)
        else
          let (ok, rest) ← copyinstrLoop m pagetable fuel (va0 + PGSIZE) (max - n)
          .ok (ok, bs ++ rest)

/-- Copy a null-terminated string from user to kernel, until a NUL or `max` bytes. -/
def copyinstr (m : PhysMem) (pagetable srcva : BitVec 64) (max : Nat) :
    Except String (Bool × List (BitVec 8)) :=
  copyinstrLoop m pagetable max srcva max

/-- `strlen` of the buffer that begins with `bs`. -/
def strlen (bs : List (BitVec 8)) : Nat := (bs.takeWhile (· ≠ 0)).length

/-- Fetch the nul-terminated string at `addr`: its length, or -1. -/
def fetchstr (m : PhysMem) (pagetable addr : BitVec 64) (max : Nat) : Except String Int := do
  let (ok, buf) ← copyinstr m pagetable addr max
  if ok then .ok (strlen buf) else .ok (-1)

/-- An argument of a system call, from the registers `a0` to `a5` of the trapframe. -/
def argraw (trapframe : Fin 6 → BitVec 64) (n : Nat) : Except String (BitVec 64) :=
  if h : n < 6 then .ok (trapframe ⟨n, h⟩) else .error "argraw"

/-- Fetch the nth word-sized system call argument as a null-terminated string. -/
def argstr (m : PhysMem) (pagetable : BitVec 64) (trapframe : Fin 6 → BitVec 64) (n max : Nat) :
    Except String Int := do
  let addr ← argraw trapframe n
  fetchstr m pagetable addr max

end Xv6.Sv39
