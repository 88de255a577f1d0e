import Xv6.Dir.Code
import Xv6.Fs.Icache
import Xv6.Fs.Proofs.Reading

/-!
# Looking up paths on a disk

The programs that walk a path, on the inode cache and the disk: an entry of a directory is read with
`readi` and taken apart. One process runs alone, and it is not in a transaction, so a walk that would
have to change the disk panics.
-/

namespace Xv6.Dir

open Prog (execWp lift_bind wp_op run pure_eq wp_pure)

def direntAt (mem : Nat → BitVec 8) : Dirent where
  inum := BitVec.ofNat 16 ((mem 0).toNat + 256 * (mem 1).toNat)
  name := ((List.range DIRSIZ).map fun i => mem (2 + i)).takeWhile (· ≠ 0)

/-- Run code of `fs.c` on the disk, outside of a transaction. -/
def onFs {α : Type} (s : FsState) (p : FProg α) (k : α → FsState → Option γ × FsState) :
    Option γ × FsState :=
  match p.run FOp.outside ⟨s.disk, none⟩ with
  | (some a, w) => k a { s with disk := w.disk }
  | (none, w) => (none, { s with disk := w.disk })

/-- `readi` of the entry with index `k` of a directory. -/
def readEntry (sb : Superblock) (s : FsState) (dp : Fin NINODE) (k : Nat) :
    Option (Option Dirent) × FsState :=
  onFs s (readi sb (s.inode dp).copy (.kernel fun _ => 0) 0 (BitVec.ofNat 32 (16 * k)) 16) fun r s =>
    let s := s.setInode dp { s.inode dp with copy := r.2.1 }
    match r with
    | (16, _, .kernel mem) => (some (some (direntAt mem)), s)
    | _ => (some none, s)

/-- The operations with which a path is walked from the root. The others stop the machine. -/
def IOp.onDisk (sb : Superblock) : ∀ γ, IOp γ → FsState → Option γ × FsState
  | _, .iget n, s =>
    match s.iget n with
    | .ok (e, s') => (some e, s')
    | .error _ => (none, s)
  | _, .acquiresleep ip, s | _, .iunlock ip, s =>
    if (s.inode ip).ref < 1 then (none, s) else (some (), s)
  | _, .valid ip, s => (some (s.inode ip).valid, s)
  | _, .load ip, s =>
    onFs s (iread sb (s.inode ip).inum) fun d s =>
      (some d.type, s.setInode ip { s.inode ip with valid := true, copy := d })
  | _, .lastRef ip, s =>
    if (s.inode ip).ref = 1 ∧ (s.inode ip).valid ∧ (s.inode ip).copy.nlink = 0 then (some true, s)
    else (some false, s.setInode ip { s.inode ip with ref := (s.inode ip).ref - 1 })
  | _, .attr ip, s =>
    (some ⟨(s.inode ip).copy.type, (s.inode ip).copy.major, (s.inode ip).copy.minor,
      (s.inode ip).copy.nlink⟩, s)
  -- the number of offsets below the size at which an entry can start
  | _, .size dp, s => (some (((s.inode dp).copy.size.toNat + 15) / 16), s)
  | _, .readDirent dp k, s => readEntry sb s dp k
  | _, _, s => (none, s)

def lookup (path : CString) : IProg (Option (Fin NINODE)) := do
  match ← namei path with
  | none => return none
  | some ip =>
    ilock ip
    return some ip

def bootState (disk : Store) : FsState where
  disk := disk
  inode := fun _ => ⟨0, 0, false, .fresh 0⟩

/-! ## Rules -/

abbrev diskWp (sb : Superblock) := Prog.execWp (IOp.onDisk sb) fun _ => False

variable {sb : Superblock} {s : FsState} {ip : Fin NINODE} (inum : Nat)

@[simp] theorem setInode_disk (e : Fin NINODE) (i : Inode) : (s.setInode e i).disk = s.disk := rfl

@[simp] theorem setInode_same (e : Fin NINODE) (i : Inode) : (s.setInode e i).inode e = i :=
  Function.update_self ..

variable {e : Fin NINODE} {Q : Unit → FsState → Prop}

theorem setInode_ne {e' : Fin NINODE} (i : Inode) (h : e' ≠ e) :
    (s.setInode e i).inode e' = s.inode e' := Function.update_of_ne h ..

theorem diskWp_iget {n : Nat} {s' : FsState} (h : s.iget n = .ok (e, s'))
    {Q : Fin NINODE → FsState → Prop} (hQ : Q e s') : diskWp sb _ (.iget n) Q s := by
  simp only [diskWp, execWp, IOp.onDisk, h]
  exact hQ

@[simp] theorem diskWp_attr {Q : Attr → FsState → Prop} :
    diskWp sb _ (.attr ip) Q s ↔ Q ⟨(s.inode ip).copy.type, (s.inode ip).copy.major,
      (s.inode ip).copy.minor, (s.inode ip).copy.nlink⟩ s := Iff.rfl

@[simp] theorem diskWp_size {Q : Nat → FsState → Prop} :
    diskWp sb _ (.size ip) Q s ↔ Q (((s.inode ip).copy.size.toNat + 15) / 16) s := Iff.rfl

theorem iget_new (hno : ∀ e, 0 < (s.inode e).ref → (s.inode e).inum ≠ inum)
    (hfree : ∃ e, (s.inode e).ref = 0) :
    ∃ e, (s.inode e).ref = 0 ∧
      s.iget inum = .ok (e, s.setInode e { s.inode e with inum := inum, ref := 1, valid := false }) := by
  have hnone : ((List.finRange NINODE).find? fun e =>
      decide (0 < (s.inode e).ref ∧ (s.inode e).inum = inum)) = none := by
    rw [List.find?_eq_none]
    intro e _ he
    have he := of_decide_eq_true he
    exact hno e he.1 he.2
  obtain ⟨e₀, he₀⟩ := hfree
  have hsome : ((List.finRange NINODE).find? fun e => decide ((s.inode e).ref = 0)).isSome := by
    rw [List.find?_isSome]
    exact ⟨e₀, List.mem_finRange e₀, decide_eq_true he₀⟩
  obtain ⟨e, he⟩ := Option.isSome_iff_exists.mp hsome
  have hzero := List.find?_some he
  refine ⟨e, of_decide_eq_true hzero, ?_⟩
  rw [FsState.iget, hnone, he]

theorem iget_old (he : 0 < (s.inode e).ref ∧ (s.inode e).inum = inum)
    (honce : ∀ e', 0 < (s.inode e').ref ∧ (s.inode e').inum = inum → e' = e) :
    s.iget inum = .ok (e, s.setInode e { s.inode e with ref := (s.inode e).ref + 1 }) := by
  have hsome : ((List.finRange NINODE).find? fun e =>
      decide (0 < (s.inode e).ref ∧ (s.inode e).inum = inum)).isSome := by
    rw [List.find?_isSome]
    exact ⟨e, List.mem_finRange e, decide_eq_true he⟩
  obtain ⟨e', he'⟩ := Option.isSome_iff_exists.mp hsome
  have hfound := List.find?_some he'
  rw [FsState.iget, he', honce e' (of_decide_eq_true hfound)]

theorem wp_ilock_disk (ino : Dinode) (href : 1 ≤ (s.inode ip).ref)
    (hvalid : (s.inode ip).valid = false)
    (hino : Dinode.read (s.disk (sb.iblock (s.inode ip).inum)) ((s.inode ip).inum % IPB) = ino)
    (htype : ino.type ≠ 0)
    (hQ : Q () (s.setInode ip { s.inode ip with valid := true, copy := ino })) :
    (ilock ip).wp (diskWp sb) Q s := by
  have hlock : ¬(s.inode ip).ref < 1 := Nat.not_lt.mpr href
  simp only [ilock, lift_bind, wp_op, execWp, IOp.onDisk, if_neg hlock, hvalid,
    Bool.false_eq_true, if_false, onFs, iread, run, Prog.andThen, FOp.outside, FOp.exec,
    pure_eq, hino, if_neg htype, wp_pure]
  exact hQ

variable (href : 1 ≤ (s.inode ip).ref)
include href

theorem wp_ilock_cached (hvalid : (s.inode ip).valid = true)
    (hQ : Q () s) : (ilock ip).wp (diskWp sb) Q s := by
  have hlock : ¬(s.inode ip).ref < 1 := Nat.not_lt.mpr href
  simp only [ilock, lift_bind, wp_op, execWp, IOp.onDisk, if_neg hlock, hvalid,
    if_true, pure_eq, wp_pure]
  exact hQ

theorem wp_iunlockput_disk (hlink : (s.inode ip).copy.nlink ≠ 0)
    (hQ : Q () (s.setInode ip { s.inode ip with ref := (s.inode ip).ref - 1 })) :
    (iunlockput ip).wp (diskWp sb) Q s := by
  have hlock : ¬(s.inode ip).ref < 1 := Nat.not_lt.mpr href
  have hlast : ¬((s.inode ip).ref = 1 ∧ (s.inode ip).valid = true ∧ (s.inode ip).copy.nlink = 0) :=
    fun h => hlink h.2.2
  simp only [iunlockput, iput, lift_bind, wp_op, execWp, IOp.onDisk, if_neg hlock,
    if_neg hlast, Bool.false_eq_true, if_false, pure_eq, wp_pure]
  exact hQ

end Xv6.Dir
