import Xv6.Fs.Op
import Xv6.Fs.Layout
import Xv6.Fs.Copy

/-!
# `kernel/fs.c`: blocks and inode contents

The functions that allocate and free blocks and inodes and that read and write the contents of an
inode. A function that works on a `struct inode *` takes the fields that live on disk and returns
them as it leaves them.
-/

namespace Xv6

variable (sb : Superblock)

/-! ## Blocks -/

def bzero (b : Nat) : FProg Unit := do
  let _ ← .lift (.bread b)
  .lift (.setData b fun _ => 0)
  .lift (.logWrite b)
  .lift (.brelse b)

/-- The inner loop of `balloc` in the bitmap block that begins with the bit of block `b`: the first
free bit among the `k` bits from `bi` on. -/
def freeBit (b : Nat) (d : Block) : (k bi : Nat) → Option Nat
  | 0, _ => none
  | k + 1, bi =>
    if b + bi < sb.size then
      if d.testBit bi then freeBit b d k (bi + 1) else some bi
    else none

/-- The outer loop of `balloc`, over the first bits of the bitmap blocks that are left. -/
def ballocFrom : List Nat → FProg Nat
  | [] => .op (.panic "balloc: out of blocks") Empty.elim
  | b :: bs => do
    let d ← .lift (.bread (sb.bblock b))
    match freeBit sb b d BPB 0 with
    | some bi =>
      .lift (.setData (sb.bblock b) (d.setBit bi))
      .lift (.logWrite (sb.bblock b))
      .lift (.brelse (sb.bblock b))
      bzero (b + bi)
      return b + bi
    | none =>
      .lift (.brelse (sb.bblock b))
      ballocFrom bs

def balloc : FProg Nat :=
  ballocFrom sb ((List.range ((sb.size + BPB - 1) / BPB)).map (· * BPB))

def bfree (b : Nat) : FProg Unit := do
  let d ← .lift (.bread (sb.bblock b))
  if d.testBit (b % BPB) then
    .lift (.setData (sb.bblock b) (d.clearBit (b % BPB)))
    .lift (.logWrite (sb.bblock b))
    .lift (.brelse (sb.bblock b))
  else .op (.panic "freeing free block") Empty.elim

/-! ## Inodes -/

/-- The loop of `ialloc`, over the inode numbers that are left. -/
def iallocFrom (type : BitVec 16) : List Nat → FProg Nat
  | [] => .op (.panic "ialloc: no inodes") Empty.elim
  | inum :: inums => do
    let d ← .lift (.bread (sb.iblock inum))
    if (Dinode.read d (inum % IPB)).type = 0 then
      .lift (.setData (sb.iblock inum) (Dinode.init type d (inum % IPB)))
      .lift (.logWrite (sb.iblock inum))
      .lift (.brelse (sb.iblock inum))
      return inum
    else
      .lift (.brelse (sb.iblock inum))
      iallocFrom type inums

/-- Allocate an inode: mark it as allocated by giving it type `type`. -/
def ialloc (type : BitVec 16) : FProg Nat :=
  iallocFrom sb type (List.range' 1 (sb.ninodes - 1))

/-- Copy a modified in-memory inode to disk. -/
def iupdate (inum : Nat) (ip : Dinode) : FProg Unit := do
  let d ← .lift (.bread (sb.iblock inum))
  .lift (.setData (sb.iblock inum) (ip.write d (inum % IPB)))
  .lift (.logWrite (sb.iblock inum))
  .lift (.brelse (sb.iblock inum))

/-- The part of `ilock` that reads the inode from disk. -/
def iread (inum : Nat) : FProg Dinode := do
  let d ← .lift (.bread (sb.iblock inum))
  .lift (.brelse (sb.iblock inum))
  return Dinode.read d (inum % IPB)

/-! ## Contents -/

/-- `ip->addrs[i]`, allocated if it is zero. -/
def bmapSlot (ip : Dinode) (i : Fin (NDIRECT + 1)) : FProg (Nat × Dinode) :=
  if ip.addrs i = 0 then do
    let b ← balloc sb
    return (b, ip.setAddr i (BitVec.ofNat 32 b))
  else return ((ip.addrs i).toNat, ip)

/-- Return the disk block address of the `bn`th block in an inode. If there is no such block, bmap
allocates one. -/
def bmap (ip : Dinode) (bn : Nat) : FProg (Nat × Dinode) :=
  if h : bn < NDIRECT then bmapSlot sb ip ⟨bn, Nat.lt_succ_of_lt h⟩
  else if bn - NDIRECT < NINDIRECT then do
    let (addr, ip) ← bmapSlot sb ip (Fin.last NDIRECT)
    let a ← .lift (.bread addr)
    if a.word32 (4 * (bn - NDIRECT)) = 0 then
      let b ← balloc sb
      .lift (.setData addr (a.setUint 4 (4 * (bn - NDIRECT)) b))
      .lift (.logWrite addr)
      .lift (.brelse addr)
      return (b, ip)
    else
      .lift (.brelse addr)
      return ((a.word32 (4 * (bn - NDIRECT))).toNat, ip)
  else .op (.panic "bmap: out of range") Empty.elim

/-- The loop of `itrunc` over the direct blocks. -/
def truncDirect (ip : Dinode) : List (Fin (NDIRECT + 1)) → FProg Dinode
  | [] => return ip
  | i :: is =>
    if ip.addrs i = 0 then truncDirect ip is
    else do
      bfree sb (ip.addrs i).toNat
      truncDirect (ip.setAddr i 0) is

/-- The loop of `itrunc` over the entries of the indirect block. -/
def truncEntries (a : Block) : FProg Unit :=
  .forEach (fun j => if a.word32 (4 * j) = 0 then return () else bfree sb (a.word32 (4 * j)).toNat)
    (List.range NINDIRECT)

/-- The part of `itrunc` that discards the indirect block. -/
def truncIndirect (ip : Dinode) : FProg Dinode :=
  if ip.addrs (Fin.last NDIRECT) = 0 then return ip
  else do
    let a ← .lift (.bread (ip.addrs (Fin.last NDIRECT)).toNat)
    truncEntries sb a
    .lift (.brelse (ip.addrs (Fin.last NDIRECT)).toNat)
    bfree sb (ip.addrs (Fin.last NDIRECT)).toNat
    return ip.setAddr (Fin.last NDIRECT) 0

def itrunc (inum : Nat) (ip : Dinode) : FProg Dinode := do
  let ip ← truncDirect sb ip ((List.finRange NDIRECT).map Fin.castSucc)
  let ip ← truncIndirect sb ip
  iupdate sb inum { ip with size := 0 }
  return { ip with size := 0 }

/-- The loop of `readi`. The answer is `tot`, with the inode and the memory. -/
def readLoop : Nat → Dinode → Space → (dst off tot n : Nat) → FProg (Nat × Dinode × Space)
  | 0, ip, sp, _, _, tot, _ => return (tot, ip, sp)
  | fuel + 1, ip, sp, dst, off, tot, n =>
    if tot < n then do
      let (b, ip) ← bmap sb ip (off / BSIZE)
      let d ← .lift (.bread b)
      let m := min (n - tot) (BSIZE - off % BSIZE)
      let (ok, sp) := eitherCopyout sp dst d (off % BSIZE) m
      .lift (.brelse b)
      if ok then readLoop fuel ip sp (dst + m) (off + m) (tot + m) n
      else return (tot, ip, sp)
    else return (tot, ip, sp)

def readi (ip : Dinode) (sp : Space) (dst : Nat) (off n : BitVec 32) :
    FProg (Nat × Dinode × Space) :=
  if ip.size.toNat < off.toNat ∨ (off + n).toNat < off.toNat then return (0, ip, sp)
  else
    let n := if ip.size.toNat < (off + n).toNat then ip.size.toNat - off.toNat else n.toNat
    readLoop sb n ip sp dst off.toNat 0 n

/-- `either_copyin` into the data of a locked buffer. A copy that fails at its first page writes
nothing; one that fails later has written what came before. -/
def copyinBuf (sp : Space) (b : Nat) (d : Block) (doff src len : Nat) : FProg Bool :=
  let (ok, moved, d') := eitherCopyin sp d doff src len
  if 0 < moved then do
    .lift (.setData b d')
    return ok
  else return ok

/-- The loop of `writei`. The answer is the final `off`, with the inode. -/
def writeLoop (sp : Space) : Nat → Dinode → (src off tot n : Nat) → FProg (Nat × Dinode)
  | 0, ip, _, off, _, _ => return (off, ip)
  | fuel + 1, ip, src, off, tot, n =>
    if tot < n then do
      let (b, ip) ← bmap sb ip (off / BSIZE)
      let d ← .lift (.bread b)
      let m := min (n - tot) (BSIZE - off % BSIZE)
      let ok ← copyinBuf sp b d (off % BSIZE) src m
      if ok then
        .lift (.logWrite b)
        .lift (.brelse b)
        writeLoop sp fuel ip (src + m) (off + m) (tot + m) n
      else
        .lift (.brelse b)
        return (off, ip)
    else return (off, ip)

/-- The inode with its size raised to `off`. -/
def Dinode.growTo (ip : Dinode) (off : Nat) : Dinode :=
  if ip.size.toNat < off then { ip with size := BitVec.ofNat 32 off } else ip

def writei (inum : Nat) (ip : Dinode) (sp : Space) (src : Nat) (off n : BitVec 32) :
    FProg (Int × Dinode) :=
  if ip.size.toNat < off.toNat ∨ (off + n).toNat < off.toNat then return (-1, ip)
  else if MAXFILE * BSIZE < (off + n).toNat then return (-1, ip)
  else do
    let (off', ip) ← writeLoop sb sp n.toNat ip src off.toNat 0 n.toNat
    if 0 < n.toNat then
      iupdate sb inum (ip.growTo off')
      return (n.toNat, ip.growTo off')
    else return (n.toNat, ip)

end Xv6
