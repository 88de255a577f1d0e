import Xv6.Lib.Bytes

/-!
# Kernel parameters and the on-disk layout

The constants of `kernel/param.h` and `kernel/fs.h`, the disk block, and the superblock that
describes an image. Block numbers are `uint` in the source; they are natural numbers here.
-/

namespace Xv6

abbrev NPROC : Nat := 64

instance : NeZero NPROC := ⟨by decide⟩

/-- The processes: the slots of `proc[NPROC]`. -/
abbrev Proc := Fin NPROC
abbrev NOFILE : Nat := 16
abbrev NFILE : Nat := 100
abbrev NINODE : Nat := 50
abbrev NDEV : Nat := 10
/-- Device number of the file system root disk. -/
abbrev ROOTDEV : Nat := 1
/-- Maximum number of blocks any file-system operation writes. -/
abbrev MAXOPBLOCKS : Nat := 10
/-- Maximum number of data blocks in the on-disk log. -/
abbrev LOGSIZE : Nat := MAXOPBLOCKS * 3
abbrev NBUF : Nat := MAXOPBLOCKS * 3
abbrev BSIZE : Nat := 1024

abbrev Block := Bytes BSIZE

/-- The super block. `mkfs` computes it and the kernel reads it at boot. -/
structure Superblock where
  /-- Size of file system image (blocks). -/
  size : Nat
  ninodes : Nat
  nlog : Nat
  logstart : Nat
  /-- Block number of first inode block. -/
  inodestart : Nat
  /-- Block number of first free map block. -/
  bmapstart : Nat
  deriving DecidableEq, Repr

/-- The superblock that `mkfs` writes: `FSSIZE` is 1000 and `NINODES` is 200, which take thirteen
inode blocks and one bitmap block. -/
def mkfsSuperblock : Superblock where
  size := 1000
  ninodes := 200
  nlog := LOGSIZE
  logstart := 2
  inodestart := 2 + LOGSIZE
  bmapstart := 2 + LOGSIZE + 13

/-- The blocks `[logstart, logstart + nlog)` that hold the log header and the logged blocks. -/
def Superblock.InLog (sb : Superblock) (b : Nat) : Prop :=
  sb.logstart ≤ b ∧ b < sb.logstart + sb.nlog

instance (sb : Superblock) (b : Nat) : Decidable (sb.InLog b) :=
  inferInstanceAs (Decidable (_ ∧ _))

end Xv6
