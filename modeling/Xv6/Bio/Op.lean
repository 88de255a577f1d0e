import Xv6.Lib.Prog
import Xv6.Param

/-!
# Atomic steps of the block layer

The kernel code above the disk driver (`bio.c`, `log.c`, `fs.c`) is written as programs over the
operations below. Each operation is one critical section of the source, or one access to data that
the caller has locked. A process names a buffer it has obtained by the block number it asked for;
the pointer itself (`struct buf *`) is kept by the machine that runs the program.
-/

namespace Xv6

inductive BOp : Type → Type
  /-- `bget` under `bcache.lock`: find or recycle a buffer and take a reference. -/
  | bget (b : Nat) : BOp Unit
  /-- `acquiresleep(&b->lock)`. -/
  | acquiresleep (b : Nat) : BOp Unit
  /-- `if (!b->valid) { virtio_disk_rw(b, 0); b->valid = 1; }` on a locked buffer. The answer is
  `b->data`, which nobody else changes while the lock is held. -/
  | fill (b : Nat) : BOp Block
  /-- Overwrite `b->data` of a locked buffer. -/
  | setData (b : Nat) (d : Block) : BOp Unit
  /-- `bwrite(b)`: write a locked buffer to disk. -/
  | bwrite (b : Nat) : BOp Unit
  /-- The first half of `brelse`: the `holdingsleep` test and `releasesleep(&b->lock)`. -/
  | releasesleep (b : Nat) : BOp Unit
  /-- The second half of `brelse`, under `bcache.lock`: drop the reference, move to the front. -/
  | unref (b : Nat) : BOp Unit
  /-- `bunpin(b)`. -/
  | bunpin (b : Nat) : BOp Unit
  /-- The two tests at the head of `log_write`, made without holding `log.lock`. -/
  | logCheck : BOp Unit
  /-- The rest of `log_write`, under `log.lock`: absorb, or append and `bpin`. -/
  | logAppend (b : Nat) : BOp Unit
  /-- `begin_op`, at the iteration of its loop that does not sleep. -/
  | beginOp : BOp Unit
  /-- The first critical section of `end_op`; the answer is `do_commit`. -/
  | endOp : BOp Bool
  /-- The last critical section of `end_op`: `log.committing = 0`. -/
  | endCommit : BOp Unit
  /-- Read `log.lh`: the block numbers `log.lh.block[0..n)`. -/
  | logHeader : BOp (List Nat)
  /-- Assign `log.lh`. -/
  | setLogHeader (lh : List Nat) : BOp Unit
  /-- `panic(msg)`. -/
  | panic (msg : String) : BOp Empty

/-- A kernel program over the block layer. -/
abbrev BProg := Prog BOp

/-- `panic(msg)` in a context that expects a value. -/
def panic {α : Type} (msg : String) : BProg α := .op (.panic msg) Empty.elim

/-- Return a locked buffer with the contents of the indicated block. -/
def bread (b : Nat) : BProg Block := do
  .lift (.bget b)
  .lift (.acquiresleep b)
  .lift (.fill b)

def brelse (b : Nat) : BProg Unit := do
  .lift (.releasesleep b)
  .lift (.unref b)

end Xv6
