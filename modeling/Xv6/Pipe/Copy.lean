import Xv6.Pipe.Code
import Xv6.Sv39.Copy

/-!
# Reading a pipe into a user buffer

`piperead` of `pipe.c` with the `copyout` of each byte, which fails where the buffer is not mapped. The
lock is held from the last test of the `while` loop to the return, so that no other thread comes between.
-/

namespace Xv6

open Sv39

variable {Tid : Type}

/-- The `for` loop of `piperead`: `k` bytes are left to read, and `i` is the variable of the source. -/
def pipereadLoop (pagetable addr : BitVec 64) :
    Nat → Nat → PhysMem → Pipe Tid → Except String (Nat × PhysMem × Pipe Tid)
  | 0, i, m, pi => .ok (i, m, pi)
  | k + 1, i, m, pi =>
    if pi.nread = pi.nwrite then .ok (i, m, pi)
    else do
      let ch := pi.data (RingBuffer.slot PIPESIZE pi.nread)
      let pi := { pi with nread := pi.nread + 1 }
      let (ok, m) ← Sv39.copyout m pagetable (addr + BitVec.ofNat 64 i) [ch]
      if ok then pipereadLoop pagetable addr k (i + 1) m pi else .ok (i, m, pi)

/-- What `piperead` does when it has the lock. -/
inductive PipereadTurn (Tid : Type)
  /-- It goes to sleep, and comes back to any other state of the pipe. -/
  | sleep
  | ret (r : Int) (m : PhysMem) (pi : Pipe Tid)

/-- One turn of the `while` loop of `piperead`, and the rest when there is no other. -/
def piperead (killed : Bool) (m : PhysMem) (pagetable : BitVec 64) (pi : Pipe Tid) (addr : BitVec 64)
    (n : Int) : Except String (PipereadTurn Tid) :=
  if pi.nread = pi.nwrite ∧ pi.writeopen = true then
    if killed then .ok (.ret (-1) m pi) else .ok .sleep
  else do
    let (i, m, pi) ← pipereadLoop pagetable addr n.toNat 0 m pi
    .ok (.ret i m pi)

end Xv6
