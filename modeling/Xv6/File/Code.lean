import Xv6.Fs.Code
import Xv6.Pipe.Code

/-!
# Writing open files

`filewrite` of `file.c` for a file on disk, and the state of the console's input. `n` is an `int`, kept as
its 32-bit pattern.
-/

namespace Xv6.Rw

inductive FileType
  | none
  | pipe
  | inode
  | device
  deriving DecidableEq

/-- The fields of `struct file` that reading and writing look at. -/
structure File where
  type : FileType
  readable : Bool
  writable : Bool
  off : BitVec 32
  major : BitVec 16

abbrev INPUT_BUF : Nat := 128

instance : NeZero INPUT_BUF := ⟨by decide⟩

/-- The console's input; the read, write and edit indices run freely. -/
structure Cons where
  buf : Fin INPUT_BUF → BitVec 8
  r : BitVec 32
  w : BitVec 32
  e : BitVec 32

def Cons.next (c : Cons) : BitVec 8 := c.buf (Fin.ofNat INPUT_BUF c.r.toNat)

def ctrl (x : Char) : BitVec 8 := BitVec.ofNat 8 (x.toNat - '@'.toNat)

/-! ## Writing -/

/-- The most that `filewrite` gives to one operation. -/
abbrev maxChunk : Nat := (MAXOPBLOCKS - 1 - 1 - 2) / 2 * BSIZE

end Xv6.Rw
