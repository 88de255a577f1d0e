import Xv6.Dir.Sysfile

/-!
# The state of the directory layer

Inodes on disk, the inode cache, the file table and the processes, and what the operations do to
them.
-/

namespace Xv6.Dir

open Function (update)

/-- An inode on disk. `entries` are the contents of a directory. -/
structure DInode where
  attr : Attr
  entries : List Dirent

structure CInode where
  ref : Nat
  inum : Nat
  valid : Bool
  lock : Option Proc
  attr : Attr

structure File where
  ref : Nat
  kind : FileKind

structure PipeEnds where
  readopen : Bool
  writeopen : Bool
  deriving DecidableEq

def PipeEnds.isOpen (x : PipeEnds) (writable : Bool) : Bool :=
  if writable then x.writeopen else x.readopen

def PipeEnds.shut (x : PipeEnds) (writable : Bool) : PipeEnds :=
  if writable then { x with writeopen := false } else { x with readopen := false }

/-- What a slot of the process table holds. A process that has exited is gone here, whether or not
its parent has waited for it. -/
inductive Life
  | unused
  /-- `fork` is setting the process up. -/
  | embryo
  | running
  deriving DecidableEq

structure DState where
  inode : Nat → DInode
  icache : Fin NINODE → CInode
  file : Fin NFILE → File
  cwd : Proc → Option (Fin NINODE)
  ofile : Proc → Fin NOFILE → Option (Fin NFILE)
  life : Proc → Life
  pipe : Nat → Option PipeEnds
  outstanding : Nat

/-- Number of entries of the largest directory. -/
abbrev MAXDIRENTS : Nat := MAXFILE * BSIZE / 16

/-- `writei` of a directory entry: replace it, or append it if there is room. -/
def DInode.put (d : DInode) (k : Nat) (de : Dirent) : Option DInode :=
  if k < d.entries.length then some { d with entries := d.entries.set k de }
  else if k = d.entries.length ∧ k < MAXDIRENTS then some { d with entries := d.entries ++ [de] }
  else none

namespace DState

def setIcache (s : DState) (e : Fin NINODE) (ip : CInode) : DState :=
  { s with icache := update s.icache e ip }

/-- The state with another inode on disk. -/
def setInode (s : DState) (i : Nat) (d : DInode) : DState :=
  { s with inode := update s.inode i d }

def setFile (s : DState) (f : Fin NFILE) (x : File) : DState :=
  { s with file := update s.file f x }

/-- Find the inode in the cache, or recycle an entry. -/
def iget (s : DState) (inum : Nat) : Outcome (Fin NINODE) DState :=
  match (List.finRange NINODE).find? fun e => 0 < (s.icache e).ref ∧ (s.icache e).inum = inum with
  | some e => .done e (s.setIcache e { s.icache e with ref := (s.icache e).ref + 1 })
  | none =>
    match (List.finRange NINODE).find? fun e => (s.icache e).ref = 0 with
    | some e =>
      .done e (s.setIcache e { s.icache e with inum := inum, ref := 1, valid := false })
    | none => .panic "iget: no inodes"

def claim (s : DState) (inum : Nat) (type : BitVec 16) : Outcome Bool DState :=
  if (s.inode inum).attr.type = 0 then .done true (s.setInode inum ⟨⟨type, 0, 0, 0⟩, []⟩)
  else .done false s

/-- The check of `ilock` and `acquiresleep`. -/
def acquiresleep (s : DState) (t : Proc) (e : Fin NINODE) : Outcome Unit DState :=
  if (s.icache e).ref < 1 then .panic "ilock"
  else if (s.icache e).lock ≠ none then .blocked
  else .done () (s.setIcache e { s.icache e with lock := some t })

def lastRef (s : DState) (t : Proc) (e : Fin NINODE) : Outcome Bool DState :=
  if (s.icache e).ref = 1 ∧ (s.icache e).valid = true ∧ (s.icache e).attr.nlink = 0 then
    if (s.icache e).lock ≠ none then .blocked
    else .done true (s.setIcache e { s.icache e with lock := some t })
  else .done false (s.setIcache e { s.icache e with ref := (s.icache e).ref - 1 })

def filealloc (s : DState) : Outcome (Option (Fin NFILE)) DState :=
  match (List.finRange NFILE).find? fun f => (s.file f).ref = 0 with
  | some f => .done (some f) (s.setFile f { s.file f with ref := 1 })
  | none => .done none s

/-- The part of `fileclose` under `ftable.lock`. -/
def fileUnref (s : DState) (f : Fin NFILE) : Outcome (Option FileKind) DState :=
  if (s.file f).ref < 1 then .panic "fileclose"
  else if 1 < (s.file f).ref then
    .done none (s.setFile f { s.file f with ref := (s.file f).ref - 1 })
  else .done (some (s.file f).kind) (s.setFile f { ref := 0, kind := .none })

/-- The state with another pipe, or none, at a page. -/
def setPipe (s : DState) (pi : Nat) (x : Option PipeEnds) : DState :=
  { s with pipe := update s.pipe pi x }

/-- A new pipe. `kalloc` does not answer a page that is in use. -/
def pipeNew (s : DState) (pi : Nat) : Outcome Unit DState :=
  match s.pipe pi with
  | none => .done () (s.setPipe pi (some ⟨true, true⟩))
  | some _ => .blocked

/-- Close one end of a pipe. There is nothing at a page that has been freed. -/
def pipeclose (s : DState) (pi : Nat) (writable : Bool) : Outcome Unit DState :=
  match s.pipe pi with
  | none => .panic "pipeclose: freed"
  | some x =>
    let x := x.shut writable
    if x.readopen = false ∧ x.writeopen = false then .done () (s.setPipe pi none)
    else .done () (s.setPipe pi (some x))

/-- The state with another descriptor of a process. -/
def setOfile (s : DState) (p : Proc) (fd : Fin NOFILE) (f : Option (Fin NFILE)) : DState :=
  { s with ofile := update s.ofile p (update (s.ofile p) fd f) }

/-- The state with another current directory of a process. -/
def setCwd (s : DState) (p : Proc) (e : Option (Fin NINODE)) : DState :=
  { s with cwd := update s.cwd p e }

/-- The state with another kind of slot. -/
def setLife (s : DState) (p : Proc) (l : Life) : DState :=
  { s with life := update s.life p l }

/-- What process `t` does to the state with an operation. -/
def exec (ninodes : Nat) (t : Proc) : ∀ γ, IOp γ → DState → Outcome γ DState
  | _, .enter, s => if s.life t = .running then .done () s else .blocked
  | _, .myproc, s => .done t s
  | _, .iget inum, s => s.iget inum
  | _, .idup e, s => .done () (s.setIcache e { s.icache e with ref := (s.icache e).ref + 1 })
  | _, .acquiresleep e, s => s.acquiresleep t e
  | _, .valid e, s => .done (s.icache e).valid s
  | _, .load e, s =>
    .done (s.inode (s.icache e).inum).attr.type
      (s.setIcache e { s.icache e with valid := true, attr := (s.inode (s.icache e).inum).attr })
  | _, .iunlock e, s =>
    if (s.icache e).lock ≠ some t ∨ (s.icache e).ref < 1 then .panic "iunlock"
    else .done () (s.setIcache e { s.icache e with lock := none })
  | _, .lastRef e, s => s.lastRef t e
  | _, .invalidate e, s =>
    .done () (s.setIcache e { s.icache e with valid := false, lock := none })
  | _, .deref e, s => .done () (s.setIcache e { s.icache e with ref := (s.icache e).ref - 1 })
  | _, .ninodes, s => .done ninodes s
  | _, .claim inum type, s => s.claim inum type
  | _, .itrunc e, s =>
    .done () (s.setInode (s.icache e).inum { s.inode (s.icache e).inum with entries := [] })
  | _, .inum e, s => .done (s.icache e).inum s
  | _, .attr e, s => .done (s.icache e).attr s
  | _, .update e a, s =>
    .done () ((s.setIcache e { s.icache e with attr := a }).setInode (s.icache e).inum
      { s.inode (s.icache e).inum with attr := a })
  | _, .size e, s => .done (s.inode (s.icache e).inum).entries.length s
  | _, .readDirent e k, s => .done (s.inode (s.icache e).inum).entries[k]? s
  | _, .writeDirent e k de, s =>
    match (s.inode (s.icache e).inum).put k de with
    | some d => .done true (s.setInode (s.icache e).inum d)
    | none => .done false s
  | _, .cwd, s =>
    match s.cwd t with
    | some e => .done e s
    | none => .blocked
  | _, .setCwd e, s => .done () (s.setCwd t e)
  | _, .ofile fd, s => .done (s.ofile t fd) s
  | _, .setOfile fd f, s => .done () (s.setOfile t fd f)
  | _, .filealloc, s => s.filealloc
  | _, .filedup f, s =>
    if (s.file f).ref < 1 then .panic "filedup"
    else .done () (s.setFile f { s.file f with ref := (s.file f).ref + 1 })
  | _, .file f, s => .done (s.file f).kind s
  | _, .setFile f kind, s => .done () (s.setFile f { s.file f with kind := kind })
  | _, .fileUnref f, s => s.fileUnref f
  | _, .pipeNew pi, s => s.pipeNew pi
  | _, .pipeclose pi writable, s => s.pipeclose pi writable
  | _, .beginOp, s => .done () { s with outstanding := s.outstanding + 1 }
  | _, .endOp, s => .done () { s with outstanding := s.outstanding - 1 }
  | _, .allocproc np, s =>
    if s.life np = .unused then .done true (s.setLife np .embryo) else .done false s
  | _, .forkOfile np fd f, s => .done () (s.setOfile np fd (some f))
  | _, .forkCwd np e, s => .done () (s.setCwd np (some e))
  | _, .runnable np, s => .done () (s.setLife np .running)
  | _, .zombie, s => .done () (s.setLife t .unused)
  | _, .panic msg, _ => .panic msg

/-- The kernel after boot: process 0 runs in the root directory. -/
def boot (inode : Nat → DInode) : DState where
  inode := inode
  icache := fun e => ⟨if e = 0 then 1 else 0, ROOTINO, false, none, ⟨0, 0, 0, 0⟩⟩
  file := fun _ => ⟨0, .none⟩
  cwd := fun p => if p = 0 then some 0 else none
  ofile := fun _ _ => none
  life := fun p => if p = 0 then .running else .unused
  pipe := fun _ => none
  outstanding := 0

end DState

/-! ## Runs -/

/-- The effect of a call that process `p` makes while no other call is in progress. -/
def Call.step (ninodes : Nat) (p : Proc) (c : Call) (s : DState) : Outcome Int DState :=
  c.prog.finish (DState.exec ninodes p) s

/-- The processes, each of which makes one call after another. Operations may be restricted. -/
def dirMachine (ninodes : Nat) (guard : Proc → ∀ γ, IOp γ → DState → Prop) :
    Pool.Machine Proc IOp DState where
  exec := DState.exec ninodes
  starts := fun _ p => ∃ c : Call, p = c.prog >>= fun _ => .pure ()
  guard := guard

end Xv6.Dir
