import Xv6.Fs.Store

/-!
# The inode cache and sequences of calls

`iget`, `idup`, `ilock` and `iput` of `fs.c` over the table of in-memory inodes, and the calls that
the rest of the kernel makes of `fs.c`, one after another.
-/

namespace Xv6

/-- `struct inode`: an entry of the inode cache. `copy` holds the fields that live on disk. -/
structure Inode where
  ref : Nat
  inum : Nat
  valid : Bool
  copy : Dinode

structure FsState where
  disk : Store
  inode : Fin NINODE → Inode

namespace FsState

variable (sb : Superblock) (s : FsState)

def exec {α : Type} (p : FProg α) : Except String (α × Store) :=
  match p.run FOp.exec ⟨s.disk, none⟩ with
  | (some a, w) => .ok (a, w.disk)
  | (none, w) => .error (w.msg.getD "")

def setInode (e : Fin NINODE) (ip : Inode) : FsState :=
  { s with inode := Function.update s.inode e ip }

/-- Find the inode with number `inum` and return the in-memory copy. Does not lock the inode and
does not read it from disk. -/
def iget (inum : Nat) : Except String (Fin NINODE × FsState) :=
  match (List.finRange NINODE).find? fun e => 0 < (s.inode e).ref ∧ (s.inode e).inum = inum with
  | some e => .ok (e, s.setInode e { s.inode e with ref := (s.inode e).ref + 1 })
  | none =>
    match (List.finRange NINODE).find? fun e => (s.inode e).ref = 0 with
    | some e => .ok (e, s.setInode e { s.inode e with inum := inum, ref := 1, valid := false })
    | none => .error "iget: no inodes"

def idup (e : Fin NINODE) : FsState := s.setInode e { s.inode e with ref := (s.inode e).ref + 1 }

/-- Lock the given inode. Reads the inode from disk if necessary. -/
def ilock (e : Fin NINODE) : Except String FsState :=
  if (s.inode e).ref < 1 then .error "ilock"
  else if (s.inode e).valid then .ok s
  else do
    let (ip, _) ← s.exec (iread sb (s.inode e).inum)
    if ip.type = 0 then .error "ilock: no type"
    else .ok (s.setInode e { s.inode e with valid := true, copy := ip })

/-- The state after code that returns the inode it worked on. -/
def settle (e : Fin NINODE) (ip : Dinode) (disk : Store) : FsState :=
  { s.setInode e { s.inode e with copy := ip } with disk := disk }

/-- Drop a reference to an in-memory inode. If that was the last reference and the inode has no
links to it, free the inode (and its content) on disk. -/
def iput (e : Fin NINODE) : Except String FsState :=
  if (s.inode e).ref = 1 ∧ (s.inode e).valid = true ∧ (s.inode e).copy.nlink = 0 then do
    let (ip, disk) ← s.exec (itrunc sb (s.inode e).inum (s.inode e).copy)
    let s := s.settle e ip disk
    let ((), disk) ← s.exec (iupdate sb (s.inode e).inum { ip with type := 0 })
    let s := s.settle e { ip with type := 0 } disk
    .ok (s.setInode e { s.inode e with valid := false, ref := (s.inode e).ref - 1 })
  else .ok (s.setInode e { s.inode e with ref := (s.inode e).ref - 1 })

end FsState

/-- A call of `fs.c`. `update` stands for an assignment to fields of a locked inode followed by
`iupdate`, as `sysfile.c` does it. -/
inductive FsCall
  | ialloc (type : BitVec 16)
  | iget (inum : Nat)
  | idup (e : Fin NINODE)
  | ilock (e : Fin NINODE)
  | update (e : Fin NINODE) (major minor nlink : BitVec 16)
  | itrunc (e : Fin NINODE)
  | readi (e : Fin NINODE) (sp : Space) (dst : Nat) (off n : BitVec 32)
  | writei (e : Fin NINODE) (sp : Space) (src : Nat) (off n : BitVec 32)
  | iput (e : Fin NINODE)

namespace FsCall

variable (sb : Superblock) (s : FsState)

/-- What the callers of `fs.c` see to: inode numbers come from directories, an entry is used by
those that have a reference, and its contents by those that have locked it. -/
def Allowed : FsCall → Prop
  | .ialloc _ => True
  | .iget inum => 1 ≤ inum ∧ inum < sb.ninodes
  | .idup e | .ilock e | .iput e => 1 ≤ (s.inode e).ref
  | .update e .. | .itrunc e | .readi e .. | .writei e .. =>
    1 ≤ (s.inode e).ref ∧ (s.inode e).valid = true

instance (c : FsCall) : Decidable (c.Allowed sb s) := by
  cases c <;> simp only [Allowed] <;> infer_instance

def step : FsCall → Except String FsState
  | .ialloc type => do
    let (inum, disk) ← s.exec (Xv6.ialloc sb type)
    let (_, s) ← ({ s with disk := disk } : FsState).iget inum
    .ok s
  | .iget inum => do
    let (_, s) ← s.iget inum
    .ok s
  | .idup e => .ok (s.idup e)
  | .ilock e => s.ilock sb e
  | .update e major minor nlink => do
    let ip := { (s.inode e).copy with major := major, minor := minor, nlink := nlink }
    let ((), disk) ← s.exec (iupdate sb (s.inode e).inum ip)
    .ok (s.settle e ip disk)
  | .itrunc e => do
    let (ip, disk) ← s.exec (Xv6.itrunc sb (s.inode e).inum (s.inode e).copy)
    .ok (s.settle e ip disk)
  | .readi e sp dst off n => do
    let ((_, ip, _), disk) ← s.exec (Xv6.readi sb (s.inode e).copy sp dst off n)
    .ok (s.settle e ip disk)
  | .writei e sp src off n => do
    let ((_, ip), disk) ← s.exec (Xv6.writei sb (s.inode e).inum (s.inode e).copy sp src off n)
    .ok (s.settle e ip disk)
  | .iput e => s.iput sb e

end FsCall

/-- The states that sequences of calls lead to. -/
inductive FsRun (sb : Superblock) (s₀ : FsState) : FsState → Prop
  | refl : FsRun sb s₀ s₀
  | call {s s' : FsState} (c : FsCall) (h : FsRun sb s₀ s) (hc : c.Allowed sb s)
      (hs : c.step sb s = .ok s') : FsRun sb s₀ s'

/-- The state that a list of calls leads to, if the caller may make them and none panics. -/
def FsCall.run (sb : Superblock) : List FsCall → FsState → Option FsState
  | [], s => some s
  | c :: cs, s =>
    if c.Allowed sb s then
      match c.step sb s with
      | .ok s' => run sb cs s'
      | .error _ => none
    else none

theorem FsRun.of_run {sb : Superblock} {s₀ s s' : FsState} (h : FsRun sb s₀ s) (cs : List FsCall)
    (hs : FsCall.run sb cs s = some s') : FsRun sb s₀ s' := by
  induction cs generalizing s with
  | nil =>
    cases hs
    exact h
  | cons c cs ih =>
    simp only [FsCall.run] at hs
    split at hs
    next hc =>
      split at hs
      next s₁ hstep => exact ih (h.call c hc hstep) hs
      · cases hs
    · cases hs

/-! ## Consistent images -/

/-- A consistent image. A block is marked if it is a metadata block or named by exactly one slot; a
name is that of a data block, belongs to an allocated inode and is no other slot's; files have no
holes. -/
structure Consistent (sb : Superblock) (disk : Store) : Prop where
  marked : ∀ b < sb.size, (vol sb disk).used b = true ↔
    b < sb.datastart ∨ ∃! x, (vol sb disk).ref x = some b
  once : ∀ x y b, (vol sb disk).ref x = some b → (vol sb disk).ref y = some b → x = y
  named : ∀ x b, (vol sb disk).ref x = some b → sb.Data b ∧ ((vol sb disk).ino x.inum).type ≠ 0
  whole : ∀ n bn, bn * BSIZE < ((vol sb disk).ino n).size.toNat → (vol sb disk).block n bn ≠ none

end Xv6
