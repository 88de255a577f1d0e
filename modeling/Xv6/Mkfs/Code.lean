import Xv6.Dir.Op
import Xv6.Fs.Volume

/-!
# `mkfs/mkfs.c`: the initial file system

`mkfs` zeroes an image, and appends a directory entry and the contents of each input file. It reads
every sector back from the image before it changes it; a sector behind the end of the image cannot be
read. The host's calls on the image otherwise succeed. On the image integers are in Intel byte order,
which is what `xshort` and `xint` arrange, and `Dinode.read` and `Dinode.write` have it built in.
-/

namespace Xv6.Mkfs

open Dir

abbrev FSSIZE : Nat := 1000
abbrev NINODES : Nat := 200
abbrev FSMAGIC : Nat := 0x10203040

def nbitmap : Nat := FSSIZE / (BSIZE * 8) + 1
def ninodeblocks : Nat := NINODES / IPB + 1
def nlog : Nat := LOGSIZE
/-- Number of meta blocks (boot, sb, nlog, inode, bitmap). -/
def nmeta : Nat := 2 + nlog + ninodeblocks + nbitmap
def nblocks : Nat := FSSIZE - nmeta

def sb : Superblock where
  size := FSSIZE
  ninodes := NINODES
  nlog := nlog
  logstart := 2
  inodestart := 2 + nlog
  bmapstart := 2 + nlog + ninodeblocks

/-! ## The host -/

inductive Exit
  /-- A message and status 1. -/
  | failure
  /-- A failed assertion. -/
  | abort
  deriving DecidableEq

inductive Caller
  | main
  | winode
  | balloc
  | iappend
  deriving DecidableEq

/-- The calls on the image, and the global variables. -/
inductive MOp : Type → Type
  /-- `lseek` to a sector and `read` of one. -/
  | read (sec : Nat) : MOp (Option Block)
  /-- `lseek` to a sector and `write` of one. -/
  | write (caller : Caller) (sec : Nat) (buf : Block) : MOp Unit
  /-- `freeinode++`. -/
  | nextInode : MOp Nat
  /-- `freeblock++`. -/
  | nextBlock : MOp Nat
  | freeblock : MOp Nat
  | setFreeblock (b : Nat) : MOp Unit
  | exit (e : Exit) : MOp Empty

abbrev MProg := Prog MOp

def MProg.exit {α : Type} (e : Exit) : MProg α := .op (.exit e) Empty.elim

def MProg.assert (p : Prop) [Decidable p] : MProg Unit :=
  if p then return () else .exit .abort

/-- The image of `len` sectors, the global variables, who has written to which sector, and how the
program has ended. -/
structure World where
  img : Store
  len : Nat
  freeinode : Nat
  freeblock : Nat
  writes : List (Caller × Nat)
  status : Option Exit

/-- The image has been opened and truncated. -/
def World.start : World where
  img := fun _ _ => 0
  len := 0
  freeinode := 1
  freeblock := 0
  writes := []
  status := none

def World.write (w : World) (caller : Caller) (sec : Nat) (buf : Block) : World :=
  { w with
    img := Function.update w.img sec buf
    len := max w.len (sec + 1)
    writes := (caller, sec) :: w.writes }

def MOp.exec : ∀ γ, MOp γ → World → Option γ × World
  | _, .read sec, w => (some (if sec < w.len then some (w.img sec) else none), w)
  | _, .write caller sec buf, w => (some (), w.write caller sec buf)
  | _, .nextInode, w => (some w.freeinode, { w with freeinode := w.freeinode + 1 })
  | _, .nextBlock, w => (some w.freeblock, { w with freeblock := w.freeblock + 1 })
  | _, .freeblock, w => (some w.freeblock, w)
  | _, .setFreeblock b, w => (some (), { w with freeblock := b })
  | _, .exit e, w => (none, { w with status := some e })

/-! ## Sectors and inodes -/

def rsect (sec : Nat) : MProg Block := do
  match ← .lift (.read sec) with
  | some buf => return buf
  | none => .exit .failure

def wsect (caller : Caller) (sec : Nat) (buf : Block) : MProg Unit := .lift (.write caller sec buf)

def winode (inum : Nat) (ip : Dinode) : MProg Unit := do
  let buf ← rsect (sb.iblock inum)
  wsect .winode (sb.iblock inum) (ip.write buf (inum % IPB))

def rinode (inum : Nat) : MProg Dinode := do
  let buf ← rsect (sb.iblock inum)
  return Dinode.read buf (inum % IPB)

def ialloc (type : BitVec 16) : MProg Nat := do
  let inum ← .lift .nextInode
  winode inum { Dinode.fresh type with nlink := 1 }
  return inum

/-- The bitmap block in which the first `used` bits are set. -/
def bitmap : Nat → Block
  | 0 => fun _ => 0
  | i + 1 => (bitmap i).setBit i

def balloc (used : Nat) : MProg Unit := do
  .assert (used < BSIZE * 8)
  wsect .balloc sb.bmapstart (bitmap used)

/-! ## Appending -/

/-- The branch of `iappend` for a block that the inode addresses itself. -/
def directBlock (din : Dinode) (i : Fin (NDIRECT + 1)) : MProg (Nat × Dinode) :=
  if din.addrs i = 0 then do
    let x ← .lift .nextBlock
    return (x, din.setAddr i (BitVec.ofNat 32 x))
  else return ((din.addrs i).toNat, din)

/-- The branch of `iappend` for an entry of the indirect block. -/
def indirectBlock (din : Dinode) (j : Nat) : MProg (Nat × Dinode) := do
  let (addr, din) ← directBlock din (Fin.last NDIRECT)
  let indirect ← rsect addr
  if indirect.word32 (4 * j) = 0 then
    let x ← .lift .nextBlock
    wsect .iappend addr (indirect.setUint 4 (4 * j) x)
    return (x, din)
  else return ((indirect.word32 (4 * j)).toNat, din)

/-- The block of a file with number `fbn`, allocated if there is none. -/
def fileBlock (din : Dinode) (fbn : Nat) : MProg (Nat × Dinode) :=
  if h : fbn < NDIRECT then directBlock din ⟨fbn, Nat.lt_succ_of_lt h⟩
  else indirectBlock din (fbn - NDIRECT)

/-- The loop of `iappend`, for the bytes that are left. The number of bytes is enough fuel. -/
def iappendLoop : Nat → Dinode → List (BitVec 8) → Nat → MProg (Dinode × Nat)
  | 0, din, _, off => return (din, off)
  | fuel + 1, din, p, off =>
    if 0 < p.length then do
      let fbn := off / BSIZE
      .assert (fbn < MAXFILE)
      let (x, din) ← fileBlock din fbn
      let n1 := min p.length ((fbn + 1) * BSIZE - off)
      let buf ← rsect x
      wsect .iappend x (buf.blit (off - fbn * BSIZE) (p.take n1))
      iappendLoop fuel din (p.drop n1) (off + n1)
    else return (din, off)

def iappend (inum : Nat) (p : List (BitVec 8)) : MProg Unit := do
  let din ← rinode inum
  let (din, off) ← iappendLoop p.length din p din.size.toNat
  winode inum { din with size := BitVec.ofNat 32 off }

/-! ## The program -/

def dirent (inum : Nat) (name : CString) : List (BitVec 8) :=
  BitVec.ofNat 8 inum :: BitVec.ofNat 8 (inum / 256) ::
    (name.take DIRSIZ ++ List.replicate (DIRSIZ - name.length) 0)

/-- An input file: its path on the command line and what `open` and the calls of `read` give. Each
`read` but the last gives at least one byte and at most `BSIZE`. -/
structure Input where
  path : CString
  reads : Option (List (List (BitVec 8)))
  nul : 0 ∉ path
  chunk : ∀ cs, reads = some cs → ∀ c ∈ cs, c ≠ [] ∧ c.length ≤ BSIZE

def userSlash : CString := [0x75, 0x73, 0x65, 0x72, 0x2f]

def Input.shortname (f : Input) : CString :=
  if f.path.take 5 = userSlash then f.path.drop 5 else f.path

/-- The name in the root directory: without a leading `_`. -/
def Input.name (f : Input) : CString :=
  match f.shortname with
  | 0x5f :: rest => rest
  | name => name

/-- The body of the loop over the input files. -/
def addFile (rootino : Nat) (f : Input) : MProg Unit := do
  .assert (0x2f ∉ f.shortname)
  match f.reads with
  | none => .exit .failure
  | some chunks =>
    let inum ← ialloc T_FILE
    iappend rootino (dirent inum f.name)
    Prog.forEach (iappend inum) chunks

/-- The super block as it is written to block 1. -/
def superBlock : Block :=
  Bytes.putWords (fun _ => 0) 0
    ([FSMAGIC, sb.size, nblocks, sb.ninodes, sb.nlog, sb.logstart, sb.inodestart, sb.bmapstart].map
      (BitVec.ofNat 32))

/-- Round the size of the root directory up. -/
def fixRoot (rootino : Nat) : MProg Unit := do
  let din ← rinode rootino
  winode rootino { din with size := BitVec.ofNat 32 ((din.size.toNat / BSIZE + 1) * BSIZE) }

/-- The program for an image that could be opened. -/
@[irreducible] def build (files : List Input) : MProg Unit := do
  .lift (.setFreeblock nmeta)
  Prog.forEach (fun i => wsect .main i fun _ => 0) (List.range FSSIZE)
  wsect .main 1 superBlock
  let rootino ← ialloc T_DIR
  .assert (rootino = ROOTINO)
  iappend rootino (dirent rootino [0x2e])
  iappend rootino (dirent rootino [0x2e, 0x2e])
  Prog.forEach (addFile rootino) files
  fixRoot rootino
  let used ← .lift .freeblock
  balloc used

/-- `mkfs`, with the image it names, if any, which can or cannot be opened, and the input files. -/
def main (image : Option Bool) (files : List Input) : MProg Unit :=
  match image with
  | none | some false => .exit .failure
  | some true => build files

def run (image : Option Bool) (files : List Input) : Option Unit × World :=
  (main image files).run MOp.exec .start

end Xv6.Mkfs
