import Xv6.Lib.Pool
import Xv6.Fs.Layout

/-!
# What directories and system calls ask of the inode layer

The directory functions of `fs.c` and the calls of `sysfile.c` work on in-memory inodes, on the
entries of directories, on the file table and on the current directory and descriptors of a process.
Each operation here is one critical section of the source, under an inode's sleep-lock,
`icache.lock`, `ftable.lock`, the lock of a pipe or `log.lock`, or an access to the process's own
fields. A directory is read and
written one `struct dirent` at a time; the contents of other files are not looked at.
-/

namespace Xv6.Dir

abbrev ROOTINO : Nat := 1
abbrev DIRSIZ : Nat := 14

abbrev T_DIR : BitVec 16 := 1
abbrev T_FILE : BitVec 16 := 2
abbrev T_DEVICE : BitVec 16 := 3

abbrev CString := List (BitVec 8)

/-- `struct dirent`; a free entry has inode number 0. -/
structure Dirent where
  inum : BitVec 16
  name : CString
  deriving DecidableEq

/-- The fields of `struct inode` that live on disk, other than those that locate its contents. -/
structure Attr where
  type : BitVec 16
  major : BitVec 16
  minor : BitVec 16
  nlink : BitVec 16
  deriving DecidableEq

/-- What a `struct file` is: its `type`, with the fields that go with it. Of a pipe there is the page
and which end it is. -/
inductive FileKind
  | none
  | pipe (pi : Nat) (writable : Bool)
  | inode (ip : Fin NINODE)
  | device (ip : Fin NINODE)
  deriving DecidableEq

/-- The inode to which such a file has a reference. -/
def FileKind.ips : FileKind → List (Fin NINODE)
  | .none | .pipe _ _ => []
  | .inode ip | .device ip => [ip]

/-- The end of a pipe that such a file is. -/
def FileKind.ends : FileKind → List (Nat × Bool)
  | .pipe pi writable => [(pi, writable)]
  | .none | .inode _ | .device _ => []

inductive IOp : Type → Type
  /-- A system call begins; the process is running. -/
  | enter : IOp Unit
  /-- `myproc()`. -/
  | myproc : IOp Proc
  /-- Find the inode with number `inum` in the cache, or take a free entry for it. -/
  | iget (inum : Nat) : IOp (Fin NINODE)
  | idup (ip : Fin NINODE) : IOp Unit
  /-- The check of `ilock` and `acquiresleep`. -/
  | acquiresleep (ip : Fin NINODE) : IOp Unit
  /-- `ip->valid`. -/
  | valid (ip : Fin NINODE) : IOp Bool
  /-- Copy the inode from disk and set `ip->valid`. The answer is the type. -/
  | load (ip : Fin NINODE) : IOp (BitVec 16)
  /-- The check of `iunlock` and `releasesleep`. -/
  | iunlock (ip : Fin NINODE) : IOp Unit
  /-- The first section of `iput` under `icache.lock`: is this the last reference to an inode
  without links? If so, lock it; otherwise drop the reference. -/
  | lastRef (ip : Fin NINODE) : IOp Bool
  /-- `ip->valid = 0` and `releasesleep`, when `iput` has freed the inode. -/
  | invalidate (ip : Fin NINODE) : IOp Unit
  /-- `ip->ref--`, when `iput` has freed the inode. -/
  | deref (ip : Fin NINODE) : IOp Unit
  /-- `sb.ninodes`. -/
  | ninodes : IOp Nat
  /-- One turn of `ialloc`: if the inode is free, mark it as allocated. -/
  | claim (inum : Nat) (type : BitVec 16) : IOp Bool
  | itrunc (ip : Fin NINODE) : IOp Unit
  | inum (ip : Fin NINODE) : IOp Nat
  | attr (ip : Fin NINODE) : IOp Attr
  /-- Assign to fields of the inode and `iupdate`. -/
  | update (ip : Fin NINODE) (a : Attr) : IOp Unit
  /-- `dp->size / sizeof(struct dirent)`. -/
  | size (dp : Fin NINODE) : IOp Nat
  /-- `readi` of the entry with index `k`; it fails behind the end. -/
  | readDirent (dp : Fin NINODE) (k : Nat) : IOp (Option Dirent)
  /-- `writei` of the entry with index `k`, and whether it could be written. -/
  | writeDirent (dp : Fin NINODE) (k : Nat) (de : Dirent) : IOp Bool
  /-- `p->cwd`. -/
  | cwd : IOp (Fin NINODE)
  | setCwd (ip : Option (Fin NINODE)) : IOp Unit
  /-- `p->ofile[fd]`. -/
  | ofile (fd : Fin NOFILE) : IOp (Option (Fin NFILE))
  | setOfile (fd : Fin NOFILE) (f : Option (Fin NFILE)) : IOp Unit
  | filealloc : IOp (Option (Fin NFILE))
  | filedup (f : Fin NFILE) : IOp Unit
  /-- What the file is. -/
  | file (f : Fin NFILE) : IOp FileKind
  /-- Assign to the fields of a file. -/
  | setFile (f : Fin NFILE) (kind : FileKind) : IOp Unit
  /-- The part of `fileclose` under `ftable.lock`: what the file was, if it is closed now. -/
  | fileUnref (f : Fin NFILE) : IOp (Option FileKind)
  /-- `kalloc` has answered the page `pi`, which becomes a pipe with both ends open. -/
  | pipeNew (pi : Nat) : IOp Unit
  /-- Close one end of a pipe. If that was the last one, free the page. -/
  | pipeclose (pi : Nat) (writable : Bool) : IOp Unit
  /-- `begin_op` and `end_op`. -/
  | beginOp : IOp Unit
  | endOp : IOp Unit
  /-- `allocproc`, and whether the slot `np` could be taken. -/
  | allocproc (np : Proc) : IOp Bool
  /-- `np->ofile[fd] = f` and `np->cwd = ip` in `fork`. -/
  | forkOfile (np : Proc) (fd : Fin NOFILE) (f : Fin NFILE) : IOp Unit
  | forkCwd (np : Proc) (ip : Fin NINODE) : IOp Unit
  /-- `np->state = RUNNABLE`. -/
  | runnable (np : Proc) : IOp Unit
  /-- The process has exited. -/
  | zombie : IOp Unit
  | panic (msg : String) : IOp Empty

abbrev IProg := Prog IOp

def IProg.panic {α : Type} (msg : String) : IProg α := .op (.panic msg) Empty.elim

end Xv6.Dir
