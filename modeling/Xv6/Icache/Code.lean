import Xv6.Lib.Pool
import Xv6.Fs.Layout

/-!
# The inode cache under concurrency

`ialloc`, `iupdate`, `iget`, `idup`, `ilock`, `iunlock` and `iput` of `fs.c` as programs whose
operations are the critical sections of the source: under `icache.lock`, under the lock of a buffer of
inodes, and accesses to the fields of an inode by the holder of its sleep-lock.

The processes are clients of these functions. A client has a reference to an inode that it locks or
drops, holds the lock of an inode whose fields it uses, and calls `iupdate` after it has changed
them. Otherwise it may do anything. References can be handed over, as with open files and the
current directory of a child: a process may give one away, take it over later, or use it while
nobody can take it over.
-/

namespace Xv6.Icache

open Function

/-! ## Critical sections -/

inductive COp : Type → Type
  /-- `iget`, under `icache.lock`. -/
  | iget (inum : Nat) : COp (Fin NINODE)
  /-- `ip->ref++`, under `icache.lock`. -/
  | idup (e : Fin NINODE) : COp Unit
  /-- The check of `ilock` and `acquiresleep`. -/
  | acquiresleep (e : Fin NINODE) : COp Unit
  /-- `ip->valid`. -/
  | valid (e : Fin NINODE) : COp Bool
  /-- Copy the inode from its buffer and set `ip->valid`. The answer is the type. -/
  | load (e : Fin NINODE) : COp (BitVec 16)
  /-- The check of `iunlock` and `releasesleep`. -/
  | iunlock (e : Fin NINODE) : COp Unit
  /-- Read the fields of the in-memory inode. -/
  | copy (e : Fin NINODE) : COp Dinode
  /-- Assign to the fields of the in-memory inode. -/
  | assign (e : Fin NINODE) (d : Dinode) : COp Unit
  /-- `iupdate`, under the lock of the buffer. -/
  | iupdate (e : Fin NINODE) : COp Unit
  /-- The first section of `iput` under `icache.lock`: is this the last reference to an inode
  without links? If so, lock it. -/
  | lastRef (e : Fin NINODE) : COp Bool
  /-- `ip->valid = 0`. -/
  | invalidate (e : Fin NINODE) : COp Unit
  | releasesleep (e : Fin NINODE) : COp Unit
  /-- `ip->ref--`, under `icache.lock`. -/
  | deref (e : Fin NINODE) : COp Unit
  /-- One turn of `ialloc`, under the lock of the buffer: if the inode is free, mark it. -/
  | claim (inum : Nat) (type : BitVec 16) : COp Bool
  /-- Put a reference where other processes find it, such as `f->ip`. -/
  | give (e : Fin NINODE) : COp Unit
  /-- Take over such a reference. -/
  | adopt (e : Fin NINODE) : COp Unit
  /-- Begin to use such a reference. -/
  | borrow (e : Fin NINODE) : COp Unit
  /-- Stop to use it. -/
  | giveBack (e : Fin NINODE) : COp Unit
  | panic (msg : String) : COp Empty

abbrev CProg := Prog COp

def CProg.panic {α : Type} (msg : String) : CProg α := .op (.panic msg) Empty.elim

/-! ## The functions -/

/-- The loop of `ialloc` over the inodes that are left. -/
def iallocFrom (type : BitVec 16) : List Nat → CProg (Fin NINODE)
  | [] => .panic "ialloc: no inodes"
  | inum :: rest => do
    if ← .lift (.claim inum type) then .lift (.iget inum) else iallocFrom type rest

/-- Allocate an inode and mark it as allocated by giving it type `type`. -/
def ialloc (ninodes : Nat) (type : BitVec 16) : CProg (Fin NINODE) :=
  iallocFrom type (List.range' 1 (ninodes - 1))

/-- Lock the given inode. Reads the inode from disk if necessary. -/
def ilock (e : Fin NINODE) : CProg Unit := do
  .lift (.acquiresleep e)
  if ← .lift (.valid e) then return ()
  else
    let type ← .lift (.load e)
    if type = 0 then .panic "ilock: no type" else return ()

/-- Truncate inode (discard contents). The blocks are left out here. -/
def itrunc (e : Fin NINODE) : CProg Unit := do
  let d ← .lift (.copy e)
  .lift (.assign e { d with size := 0, addrs := fun _ => 0 })
  .lift (.iupdate e)

/-- The part of `iput` that frees an inode. -/
def free (e : Fin NINODE) : CProg Unit := do
  itrunc e
  let d ← .lift (.copy e)
  .lift (.assign e { d with type := 0 })
  .lift (.iupdate e)
  .lift (.invalidate e)
  .lift (.releasesleep e)

/-- Drop a reference to an in-memory inode. -/
def iput (e : Fin NINODE) : CProg Unit := do
  if ← .lift (.lastRef e) then
    free e
    .lift (.deref e)
  else .lift (.deref e)

/-! ## Clients -/

inductive Use : Type → Type
  | ialloc (type : BitVec 16) : Use (Fin NINODE)
  | iget (inum : Nat) : Use (Fin NINODE)
  | idup (e : Fin NINODE) : Use Unit
  | ilock (e : Fin NINODE) : Use Unit
  | iunlock (e : Fin NINODE) : Use Unit
  | iput (e : Fin NINODE) : Use Unit
  /-- Read the fields of a locked inode. -/
  | copy (e : Fin NINODE) : Use Dinode
  /-- Assign to the fields of a locked inode. -/
  | assign (e : Fin NINODE) (d : Dinode) : Use Unit
  | iupdate (e : Fin NINODE) : Use Unit
  /-- Put a reference where other processes find it, such as `f->ip`. -/
  | give (e : Fin NINODE) : Use Unit
  /-- Take over such a reference. -/
  | adopt (e : Fin NINODE) : Use Unit
  /-- Begin to use such a reference. -/
  | borrow (e : Fin NINODE) : Use Unit
  /-- Stop to use it. -/
  | giveBack (e : Fin NINODE) : Use Unit

def Use.code (ninodes : Nat) : ∀ γ, Use γ → CProg γ
  | _, .ialloc type => Icache.ialloc ninodes type
  | _, .iget inum => .lift (.iget inum)
  | _, .idup e => .lift (.idup e)
  | _, .ilock e => Icache.ilock e
  | _, .iunlock e => .lift (.iunlock e)
  | _, .iput e => Icache.iput e
  | _, .copy e => .lift (.copy e)
  | _, .assign e d => .lift (.assign e d)
  | _, .iupdate e => .lift (.iupdate e)
  | _, .give e => .lift (.give e)
  | _, .adopt e => .lift (.adopt e)
  | _, .borrow e => .lift (.borrow e)
  | _, .giveBack e => .lift (.giveBack e)

/-- What a client may do with an inode whose lock it has. -/
inductive Lock
  /-- It has just got the lock. -/
  | taken
  /-- The inode has to be read from disk. -/
  | unread
  /-- The copy agrees with the disk. -/
  | clean
  /-- The copy has been changed. -/
  | dirty
  /-- `iput` has set the type to 0. -/
  | dying
  /-- The inode is free on disk. -/
  | dead
  /-- The copy is no longer valid. -/
  | cleared
  deriving DecidableEq

/-- The references and the locks of a client. -/
structure Hold where
  refs : List (Fin NINODE)
  /-- The references of others that it uses. -/
  lent : List (Fin NINODE)
  lock : Fin NINODE → Option Lock

namespace Hold

def empty : Hold := ⟨[], [], fun _ => none⟩

def take (h : Hold) (e : Fin NINODE) : Hold := { h with refs := e :: h.refs }

def drop (h : Hold) (e : Fin NINODE) : Hold := { h with refs := h.refs.erase e }

def borrow (h : Hold) (e : Fin NINODE) : Hold := { h with lent := e :: h.lent }

def giveBack (h : Hold) (e : Fin NINODE) : Hold := { h with lent := h.lent.erase e }

def set (h : Hold) (e : Fin NINODE) (l : Option Lock) : Hold :=
  { h with lock := update h.lock e l }

/-- The fields of the inode may be used. -/
def Usable (h : Hold) (e : Fin NINODE) : Prop :=
  h.lock e = some .clean ∨ h.lock e = some .dirty

/-- There is a reference, of its own or borrowed. -/
def Has (h : Hold) (e : Fin NINODE) : Prop := e ∈ h.refs ∨ e ∈ h.lent

/-- There is a reference to drop, and one is left to an inode whose lock is held. -/
def Droppable (h : Hold) (e : Fin NINODE) : Prop :=
  e ∈ h.refs ∧ (h.lock e = none ∨ (h.drop e).Has e)

/-- There is a reference to give back, and one is left to an inode whose lock is held. -/
def Returnable (h : Hold) (e : Fin NINODE) : Prop :=
  e ∈ h.lent ∧ (h.lock e = none ∨ (h.giveBack e).Has e)

end Hold

/-- What is asked of a client, and what it has afterwards. An inode is not given type 0 by hand. -/
def useWp : ∀ γ, Use γ → (γ → Hold → Prop) → Hold → Prop
  | _, .ialloc type, Q, h => type ≠ 0 ∧ ∀ e, Q e (h.take e)
  | _, .iget _, Q, h => ∀ e, Q e (h.take e)
  | _, .idup e, Q, h => h.Has e ∧ Q () (h.take e)
  | _, .ilock e, Q, h => h.Has e ∧ h.lock e = none ∧ Q () (h.set e (some .clean))
  | _, .iunlock e, Q, h => h.lock e = some .clean ∧ Q () (h.set e none)
  | _, .iput e, Q, h => h.Droppable e ∧ Q () (h.drop e)
  | _, .copy e, Q, h => h.Usable e ∧ ∀ d : Dinode, d.type ≠ 0 → Q d h
  | _, .assign e d, Q, h => h.Usable e ∧ d.type ≠ 0 ∧ Q () (h.set e (some .dirty))
  | _, .iupdate e, Q, h => h.Usable e ∧ Q () (h.set e (some .clean))
  | _, .give e, Q, h => h.Droppable e ∧ Q () (h.drop e)
  | _, .adopt e, Q, h => Q () (h.take e)
  | _, .borrow e, Q, h => Q () (h.borrow e)
  | _, .giveBack e, Q, h => h.Returnable e ∧ Q () (h.giveBack e)

/-- A client has nothing at its beginning and at its end. -/
def Client (q : Prog Use Unit) : Prop := q.wp useWp (fun _ h => h = .empty) .empty

/-! ## The machine -/

structure Entry (Tid : Type) where
  ref : Nat
  inum : Nat
  valid : Bool
  lock : Option Tid
  copy : Dinode
  /-- Not in the source: how often the inode had been allocated when it was read from disk. -/
  gen : Nat

/-- The inode cache, and the inodes as the buffer cache shows them. The last two fields are not in
the source: they count how often an inode has been allocated and freed. -/
structure IState (Tid : Type) where
  entry : Fin NINODE → Entry Tid
  disk : Nat → Dinode
  /-- The references that have been given away. -/
  given : List (Fin NINODE)
  lent : List (Fin NINODE)
  allocs : Nat → Nat
  frees : Nat → Nat

namespace IState

variable {Tid : Type}

def set (s : IState Tid) (e : Fin NINODE) (x : Entry Tid) : IState Tid :=
  { s with entry := update s.entry e x }

/-- Is the inode already cached? If not, recycle an inode cache entry. -/
def iget (s : IState Tid) (inum : Nat) : Outcome (Fin NINODE) (IState Tid) :=
  match (List.finRange NINODE).find? fun e => 0 < (s.entry e).ref ∧ (s.entry e).inum = inum with
  | some e => .done e (s.set e { s.entry e with ref := (s.entry e).ref + 1 })
  | none =>
    match (List.finRange NINODE).find? fun e => (s.entry e).ref = 0 with
    | some e => .done e (s.set e { s.entry e with inum := inum, ref := 1, valid := false })
    | none => .panic "iget: no inodes"

def iupdate (s : IState Tid) (e : Fin NINODE) : IState Tid :=
  { s with
    disk := update s.disk (s.entry e).inum (s.entry e).copy
    frees := if (s.entry e).copy.type = 0 then
        update s.frees (s.entry e).inum (s.frees (s.entry e).inum + 1)
      else s.frees }

def claim (s : IState Tid) (inum : Nat) (type : BitVec 16) : Outcome Bool (IState Tid) :=
  if (s.disk inum).type = 0 then
    .done true { s with
      disk := update s.disk inum (.fresh type)
      allocs := update s.allocs inum (s.allocs inum + 1) }
  else .done false s

variable [DecidableEq Tid]

/-- What thread `t` does to the state in a critical section. -/
def exec (t : Tid) : ∀ γ, COp γ → IState Tid → Outcome γ (IState Tid)
  | _, .iget inum, s => s.iget inum
  | _, .idup e, s => .done () (s.set e { s.entry e with ref := (s.entry e).ref + 1 })
  | _, .acquiresleep e, s =>
    if (s.entry e).ref < 1 then .panic "ilock"
    else if (s.entry e).lock ≠ none then .blocked
    else .done () (s.set e { s.entry e with lock := some t })
  | _, .valid e, s => .done (s.entry e).valid s
  | _, .load e, s => .done (s.disk (s.entry e).inum).type (s.set e { s.entry e with
      copy := s.disk (s.entry e).inum, valid := true, gen := s.allocs (s.entry e).inum })
  | _, .iunlock e, s =>
    if (s.entry e).lock ≠ some t ∨ (s.entry e).ref < 1 then .panic "iunlock"
    else .done () (s.set e { s.entry e with lock := none })
  | _, .copy e, s => .done (s.entry e).copy s
  | _, .assign e d, s => .done () (s.set e { s.entry e with copy := d })
  | _, .iupdate e, s => .done () (s.iupdate e)
  | _, .lastRef e, s =>
    if (s.entry e).ref = 1 ∧ (s.entry e).valid = true ∧ (s.entry e).copy.nlink = 0 then
      if (s.entry e).lock ≠ none then .blocked
      else .done true (s.set e { s.entry e with lock := some t })
    else .done false s
  | _, .invalidate e, s => .done () (s.set e { s.entry e with valid := false })
  | _, .releasesleep e, s => .done () (s.set e { s.entry e with lock := none })
  | _, .deref e, s => .done () (s.set e { s.entry e with ref := (s.entry e).ref - 1 })
  | _, .claim inum type, s => s.claim inum type
  | _, .give e, s => .done () { s with given := e :: s.given }
  | _, .adopt e, s =>
    -- the last one is not taken from those who use it
    if e ∈ s.given ∧ (e ∈ s.lent → e ∈ s.given.erase e) then
      .done () { s with given := s.given.erase e }
    else .blocked
  | _, .borrow e, s => if e ∈ s.given then .done () { s with lent := e :: s.lent } else .blocked
  | _, .giveBack e, s => .done () { s with lent := s.lent.erase e }
  | _, .panic msg, _ => .panic msg

def boot (disk : Nat → Dinode) : IState Tid where
  entry := fun _ => ⟨0, 0, false, none, .fresh 0, 0⟩
  disk := disk
  given := []
  lent := []
  allocs := fun _ => 0
  frees := fun _ => 0

end IState

/-- The machine: the threads are clients. -/
def machine (Tid : Type) [DecidableEq Tid] (ninodes : Nat) : Pool.Machine Tid COp (IState Tid) where
  exec := IState.exec
  starts := fun _ p => ∃ q : Prog Use Unit, Client q ∧ p = q.subst (Use.code ninodes)
  guard := fun _ _ _ _ => True

end Xv6.Icache
