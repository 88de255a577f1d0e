import Xv6.Dir.State

/-!
# References and locks of a process

What a process has while it runs the code of a system call: references to in-memory inodes and to
files that no table knows of, locks, and what it knows of its own descriptors and current directory.
The operations ask for what they need of this, and change it.
-/

namespace Xv6.Dir

abbrev Table := Fin NOFILE → Option (Fin NFILE)

structure Hold where
  /-- It knows its descriptors and its current directory. -/
  on : Bool
  tab : Table
  cwd : Option (Fin NINODE)
  /-- The reference of the current directory has been dropped, or is among `refs`. -/
  gone : Bool
  /-- A descriptor without a reference of its own. -/
  hidden : Option (Fin NOFILE)
  refs : List (Fin NINODE)
  /-- Inodes that are kept by its open files. -/
  lent : List (Fin NINODE)
  locks : Finset (Fin NINODE)
  files : List (Fin NFILE)
  /-- New files that nobody else has, without a type yet. -/
  blank : List (Fin NFILE)
  ends : List (Nat × Bool)
  /-- File-system operations that it has begun. -/
  ops : List Unit
  /-- The process that `fork` is setting up, with its descriptors and current directory. -/
  child : Option (Proc × Table × Option (Fin NINODE))

namespace Hold

structure Clear (h : Hold) : Prop where
  gone : h.gone = false
  hidden : h.hidden = none
  refs : h.refs = []
  locks : h.locks = ∅
  files : h.files = []
  blank : h.blank = []
  ends : h.ends = []
  child : h.child = none

structure Idle (h : Hold) : Prop extends Clear h where
  ops : h.ops = []

def empty : Hold where
  on := false
  tab := fun _ => none
  cwd := none
  gone := false
  hidden := none
  refs := []
  lent := []
  locks := ∅
  files := []
  blank := []
  ends := []
  ops := []
  child := none

def take (h : Hold) (e : Fin NINODE) : Hold := { h with refs := e :: h.refs }

def drop (h : Hold) (e : Fin NINODE) : Hold := { h with refs := h.refs.erase e }

def lock (h : Hold) (e : Fin NINODE) : Hold := { h with locks := insert e h.locks }

def unlock (h : Hold) (e : Fin NINODE) : Hold := { h with locks := h.locks.erase e }

/-- The reference of the current directory is its own now. -/
def leave (h : Hold) (e : Fin NINODE) : Hold := { h with gone := true, refs := e :: h.refs }

def takeFile (h : Hold) (f : Fin NFILE) : Hold := { h with files := f :: h.files }

def newFile (h : Hold) (f : Fin NFILE) : Hold :=
  { h with files := f :: h.files, blank := f :: h.blank }

def dropFile (h : Hold) (f : Fin NFILE) : Hold :=
  { h with files := h.files.erase f, blank := h.blank.erase f }

/-- The reference of a descriptor is its own now. -/
def hide (h : Hold) (fd : Fin NOFILE) (f : Fin NFILE) : Hold :=
  { h with hidden := some fd, files := f :: h.files }

/-- Another entry of the table of descriptors. -/
def setTab (h : Hold) (fd : Fin NOFILE) (f : Option (Fin NFILE)) : Hold :=
  { h with tab := Function.update h.tab fd f }

def typed (h : Hold) (f : Fin NFILE) : Hold := { h with blank := h.blank.erase f }

/-- One of its open files keeps the inodes. -/
def borrow (h : Hold) (es : List (Fin NINODE)) : Hold := { h with lent := es ++ h.lent }

def gain (h : Hold) (kind : FileKind) : Hold :=
  { h with refs := kind.ips ++ h.refs, ends := kind.ends ++ h.ends }

def newPipe (h : Hold) (pi : Nat) : Hold := { h with ends := (pi, false) :: (pi, true) :: h.ends }

def dropEnd (h : Hold) (x : Nat × Bool) : Hold := { h with ends := h.ends.erase x }

def beginOp (h : Hold) : Hold := { h with ops := () :: h.ops }

def endOp (h : Hold) : Hold := { h with ops := h.ops.erase () }

def Has (h : Hold) (e : Fin NINODE) : Prop := e ∈ h.refs ∨ e ∈ h.lent

/-- There is a reference to drop, and a locked inode stays. -/
def Droppable (h : Hold) (e : Fin NINODE) : Prop := e ∈ h.refs ∧ (e ∈ h.locks → (h.drop e).Has e)

/-- Descriptor `fd` has a reference to `f`. -/
def Slot (h : Hold) (fd : Fin NOFILE) (f : Fin NFILE) : Prop :=
  h.on = true ∧ h.tab fd = some f ∧ h.hidden ≠ some fd

/-- The process has a reference to the file. -/
def HasFile (h : Hold) (f : Fin NFILE) : Prop := f ∈ h.files ∨ ∃ fd, h.Slot fd f

end Hold

open Hold

/-- `lastRef`, of a reference that is no longer the current directory's. -/
def lastRefWp (e : Fin NINODE) (Q : Bool → Hold → Prop) (h : Hold) : Prop :=
  h.Droppable e ∧ (e ∉ h.locks → Q true (h.lock e)) ∧ Q false (h.drop e)

/-- `fileUnref`, of a reference that is no longer a descriptor's. -/
def fileUnrefWp (f : Fin NFILE) (Q : Option FileKind → Hold → Prop) (h : Hold) : Prop :=
  f ∈ h.files ∧ Q none (h.dropFile f) ∧ ∀ kind, Q (some kind) ((h.dropFile f).gain kind)

/-- `setFile`. An inode that becomes an open file is kept by a descriptor. -/
def setFileWp (f : Fin NFILE) (Q : Unit → Hold → Prop) (h : Hold) : FileKind → Prop
  | .none => False
  | .pipe pi writable => (pi, writable) ∈ h.ends ∧ Q () ((h.dropEnd (pi, writable)).typed f)
  | .inode ip | .device ip =>
    ip ∈ h.refs ∧ (∃ fd, h.Slot fd f) ∧ Q () (((h.drop ip).borrow [ip]).typed f)

/-- The panics that tell of a wrong count. -/
def countPanics : List String := ["ilock", "iunlock", "filedup", "fileclose", "pipeclose: freed"]

/-- What an operation asks for, and what the process has afterwards. -/
def iopWp : ∀ γ, IOp γ → (γ → Hold → Prop) → Hold → Prop
  | _, .enter, Q, h => h.locks = ∅ ∧
    ∀ tab cwd, Q () { h with on := true, tab := tab, cwd := cwd, lent := [] }
  | _, .myproc, Q, h => ∀ p, Q p h
  | _, .iget _, Q, h => ∀ e, Q e (h.take e)
  | _, .idup e, Q, h =>
    (h.Has e ∨ (h.on = true ∧ h.cwd = some e ∧ h.gone = false)) ∧ Q () (h.take e)
  | _, .acquiresleep e, Q, h => h.Has e ∧ h.child = none ∧ (e ∉ h.locks → Q () (h.lock e))
  | _, .valid e, Q, h => e ∈ h.locks ∧ ∀ b, Q b h
  | _, .load e, Q, h => e ∈ h.locks ∧ h.child = none ∧ ∀ type, Q type h
  | _, .iunlock e, Q, h => e ∈ h.locks ∧ Q () (h.unlock e)
  | _, .lastRef e, Q, h => h.child = none ∧
    (lastRefWp e Q h ∨
      (h.on = true ∧ h.cwd = some e ∧ h.gone = false ∧ lastRefWp e Q (h.leave e)))
  | _, .invalidate e, Q, h => e ∈ h.locks ∧ Q () (h.unlock e)
  | _, .deref e, Q, h => h.Droppable e ∧ Q () (h.drop e)
  | _, .ninodes, Q, h => ∀ n, Q n h
  | _, .claim _ _, Q, h => h.child = none ∧ ∀ b, Q b h
  | _, .itrunc e, Q, h => e ∈ h.locks ∧ h.child = none ∧ Q () h
  | _, .inum _, Q, h => ∀ n, Q n h
  | _, .attr e, Q, h => e ∈ h.locks ∧ ∀ a, Q a h
  | _, .update e _, Q, h => e ∈ h.locks ∧ h.child = none ∧ Q () h
  | _, .size e, Q, h => e ∈ h.locks ∧ ∀ n, Q n h
  | _, .readDirent e _, Q, h => e ∈ h.locks ∧ h.child = none ∧ ∀ de, Q de h
  | _, .writeDirent e _ _, Q, h => e ∈ h.locks ∧ h.child = none ∧ ∀ b, Q b h
  | _, .cwd, Q, h => h.on = true ∧ ∀ e, h.cwd = some e → Q e h
  | _, .setCwd (some e), Q, h => h.on = true ∧ h.gone = true ∧ h.Droppable e ∧
    Q () { h.drop e with cwd := some e, gone := false }
  | _, .setCwd none, Q, h => h.on = true ∧ h.gone = true ∧ Q () { h with cwd := none, gone := false }
  | _, .ofile fd, Q, h => h.on = true ∧ Q (h.tab fd) h
  | _, .setOfile fd (some f), Q, h => h.on = true ∧ h.hidden = none ∧ h.tab fd = none ∧
    ((f ∈ h.files ∧ Q () ({ h with files := h.files.erase f }.setTab fd (some f))) ∨
      Q () ({ h with hidden := some fd }.setTab fd (some f)))
  | _, .setOfile fd none, Q, h => h.on = true ∧ h.lent = [] ∧
    ((h.hidden = some fd ∧ Q () ({ h with hidden := none }.setTab fd none)) ∨
      ∃ f, h.Slot fd f ∧ Q () ((h.takeFile f).setTab fd none))
  | _, .filealloc, Q, h => (∀ f, Q (some f) (h.newFile f)) ∧ Q none h
  | _, .filedup f, Q, h => h.HasFile f ∧ f ∉ h.blank ∧
    (Q () (h.takeFile f) ∨
      ∃ fd, h.hidden = some fd ∧ h.tab fd = some f ∧ Q () { h with hidden := none })
  | _, .file f, Q, h => (∃ fd, h.Slot fd f) ∧ ∀ kind, Q kind (h.borrow kind.ips)
  | _, .setFile f kind, Q, h => f ∈ h.blank ∧ setFileWp f Q h kind
  | _, .fileUnref f, Q, h => h.lent = [] ∧
    (fileUnrefWp f Q h ∨ ∃ fd, h.Slot fd f ∧ h.hidden = none ∧ fileUnrefWp f Q (h.hide fd f))
  | _, .pipeNew pi, Q, h => Q () (h.newPipe pi)
  | _, .pipeclose pi writable, Q, h => (pi, writable) ∈ h.ends ∧ Q () (h.dropEnd (pi, writable))
  | _, .beginOp, Q, h => Q () h.beginOp
  | _, .endOp, Q, h => () ∈ h.ops ∧ Q () h.endOp
  | _, .allocproc np, Q, h => h.on = true ∧ h.child = none ∧ h.locks = ∅ ∧
    Q true { h with child := some (np, fun _ => none, none) } ∧ Q false h
  | _, .forkOfile np fd f, Q, h => h.on = true ∧ ∃ tab cwd, h.child = some (np, tab, cwd) ∧ tab fd = none ∧
    f ∈ h.files ∧ f ∉ h.blank ∧
    Q () { h with files := h.files.erase f, child := some (np, Function.update tab fd (some f), cwd) }
  | _, .forkCwd np e, Q, h => h.on = true ∧ ∃ tab, h.child = some (np, tab, none) ∧ h.Droppable e ∧
    Q () { h.drop e with child := some (np, tab, some e) }
  | _, .runnable np, Q, h => ∃ tab cwd, h.child = some (np, tab, cwd) ∧ Q () { h with child := none }
  | _, .zombie, Q, h => h.on = true ∧ (∀ fd, h.tab fd = none) ∧ h.cwd = none ∧ h.gone = false ∧
    h.hidden = none ∧ h.child = none ∧ h.locks = ∅ ∧ Q () { h with on := false, lent := [] }
  | _, .panic msg, _, _ => msg ∉ countPanics

end Xv6.Dir
