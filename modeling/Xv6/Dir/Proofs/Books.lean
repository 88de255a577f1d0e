import Xv6.Lib.Refs
import Xv6.Dir.Proofs.Discipline

/-!
# The books of references

The count of an in-memory inode is the number of references that processes, open files and current
directories have to it, and the count of a file is the number of references that processes and
descriptors have. An end of a pipe is open as long as a process or a file has it. Whoever holds the
lock of an inode has a reference to it, or has a file open that has one.
-/

namespace Xv6.Dir

open Hold

/-! ## Who has what -/

/-- The references to in-memory inodes: those that a process has while it runs a call, those of open
files, and those of current directories. -/
def inodeRefs (s : DState) (ts : Proc → Hold) : Proc ⊕ Fin NFILE ⊕ Proc → List (Fin NINODE)
  | .inl t => (ts t).refs
  | .inr (.inl f) => (s.file f).kind.ips
  | .inr (.inr p) => if (ts p).gone then [] else (s.cwd p).toList

/-- The references to files: those that a process has while it runs a call, and those of
descriptors. -/
def fileRefs (s : DState) (ts : Proc → Hold) : Proc ⊕ Proc × Fin NOFILE → List (Fin NFILE)
  | .inl t => (ts t).files
  | .inr (p, fd) => if (ts p).hidden = some fd then [] else (s.ofile p fd).toList

/-- The ends of pipes that processes and files have. -/
def endRefs (s : DState) (ts : Proc → Hold) : Proc ⊕ Fin NFILE → List (Nat × Bool)
  | .inl t => (ts t).ends
  | .inr f => (s.file f).kind.ends

/-- An open end counts as one reference. -/
def openCount : Option PipeEnds → Bool → Nat
  | some x, writable => if x.isOpen writable then 1 else 0
  | none, _ => 0

def DState.endCount (s : DState) (x : Nat × Bool) : Nat := openCount (s.pipe x.1) x.2

structure Counts (s : DState) (ts : Proc → Hold) : Prop where
  inodes : RefCounted (fun e => (s.icache e).ref) (inodeRefs s ts)
  files : RefCounted (fun f => (s.file f).ref) (fileRefs s ts)
  ends : RefCounted s.endCount (endRefs s ts)
  ops : RefCounted (fun _ => s.outstanding) (fun t => (ts t).ops)
  locked : ∀ e t, (s.icache e).lock = some t ↔ e ∈ (ts t).locks

/-- Process `t` has an open file through a descriptor. -/
def Opened (s : DState) (t : Proc) (h : Hold) (f : Fin NFILE) : Prop :=
  ∃ fd, s.ofile t fd = some f ∧ h.hidden ≠ some fd

structure Own (s : DState) (t : Proc) (h : Hold) : Prop where
  held : ∀ e ∈ h.locks, h.Has e
  /-- A borrowed inode is kept by a descriptor. -/
  lent : ∀ e ∈ h.lent, ∃ f, Opened s t h f ∧ e ∈ (s.file f).kind.ips
  blank : ∀ f ∈ h.blank, (s.file f).kind = .none ∧ (s.file f).ref = 1 ∧
    (f ∈ h.files ∨ Opened s t h f)
  nodup : h.blank.Nodup
  on : h.on = true → s.life t = .running ∧ s.ofile t = h.tab ∧ s.cwd t = h.cwd
  off : h.on = false → h.gone = false ∧ h.hidden = none ∧ h.lent = []
  child : ∀ np tab cwd, h.child = some (np, tab, cwd) →
    s.life np = .embryo ∧ s.ofile np = tab ∧ s.cwd np = cwd

structure Tables (s : DState) : Prop where
  closed : ∀ f, (s.file f).ref = 0 → (s.file f).kind = .none
  pages : ∀ pi x, s.pipe pi = some x → x.readopen = true ∨ x.writeopen = true
  unused : ∀ p, s.life p = .unused → (∀ fd, s.ofile p fd = none) ∧ s.cwd p = none

structure Books (s : DState) (ts : Proc → Hold) : Prop where
  counts : Counts s ts
  own : ∀ t, Own s t (ts t)
  tables : Tables s
  oneChild : ∀ t u np tab cwd tab' cwd', (ts t).child = some (np, tab, cwd) →
    (ts u).child = some (np, tab', cwd') → t = u

variable {s s' : DState} {ts : Proc → Hold} {h : Hold} {t u : Proc} {e : Fin NINODE} {f : Fin NFILE}
  {fd : Fin NOFILE}

/-! ## What does not change -/

/-- The two states agree on what the counts are made of, but for what is said separately. -/
structure SameTables (s s' : DState) : Prop where
  file : s'.file = s.file
  cwd : s'.cwd = s.cwd
  ofile : s'.ofile = s.ofile
  life : s'.life = s.life
  pipe : s'.pipe = s.pipe
  outstanding : s'.outstanding = s.outstanding

theorem DState.sameTables_setIcache (s : DState) (e : Fin NINODE) (ip : CInode) :
    SameTables s (s.setIcache e ip) := ⟨rfl, rfl, rfl, rfl, rfl, rfl⟩

theorem DState.sameTables_setInode (s : DState) (i : Nat) (d : DInode) :
    SameTables s (s.setInode i d) := ⟨rfl, rfl, rfl, rfl, rfl, rfl⟩

section

variable (hs : SameTables s s')
include hs

theorem SameTables.inodeRefs (ts : Proc → Hold) : inodeRefs s' ts = inodeRefs s ts := by
  funext x
  rcases x with t | f | p <;> simp [Dir.inodeRefs, hs.file, hs.cwd]

theorem SameTables.fileRefs (ts : Proc → Hold) : fileRefs s' ts = fileRefs s ts := by
  funext x
  rcases x with t | ⟨p, fd⟩ <;> simp [Dir.fileRefs, hs.ofile]

theorem SameTables.endRefs (ts : Proc → Hold) : endRefs s' ts = endRefs s ts := by
  funext x
  rcases x with t | f <;> simp [Dir.endRefs, hs.file]

theorem SameTables.endCount : s'.endCount = s.endCount := by
  funext x
  simp only [DState.endCount, hs.pipe]

theorem SameTables.opened : Opened s' t h f ↔ Opened s t h f := by simp only [Opened, hs.ofile]

theorem Own.congr (ho : Own s t h) : Own s' t h where
  held := ho.held
  lent := by
    intro e he
    obtain ⟨f, hf, hip⟩ := ho.lent e he
    exact ⟨f, hs.opened.mpr hf, by rwa [hs.file]⟩
  blank := by
    intro f hf
    rw [hs.file, hs.opened]
    exact ho.blank f hf
  nodup := ho.nodup
  on := by
    rw [hs.life, hs.ofile, hs.cwd]
    exact ho.on
  off := ho.off
  child := by
    rw [hs.life, hs.ofile, hs.cwd]
    exact ho.child

theorem Tables.congr (ht : Tables s) : Tables s' where
  closed := by
    rw [hs.file]
    exact ht.closed
  pages := by
    rw [hs.pipe]
    exact ht.pages
  unused := by
    rw [hs.life, hs.ofile, hs.cwd]
    exact ht.unused

theorem Books.congr (h : Books s ts) (href : ∀ e, (s'.icache e).ref = (s.icache e).ref)
    (hlock : ∀ e, (s'.icache e).lock = (s.icache e).lock) : Books s' ts where
  counts := {
    inodes := by
      rw [hs.inodeRefs]
      exact h.counts.inodes.congr href fun _ => rfl
    files := by
      rw [hs.fileRefs, hs.file]
      exact h.counts.files
    ends := by
      rw [hs.endRefs, hs.endCount]
      exact h.counts.ends
    ops := by
      rw [hs.outstanding]
      exact h.counts.ops
    locked := by
      intro e t
      rw [hlock]
      exact h.counts.locked e t }
  own := fun t => (h.own t).congr hs
  tables := h.tables.congr hs
  oneChild := h.oneChild

end

/-! ## What a process may rely on -/

namespace Books

theorem blank_none (h : Books s ts) (hf : f ∈ (ts t).blank) : (s.file f).kind = .none :=
  ((h.own t).blank f hf).1

theorem ref_pos (h : Books s ts) (hh : (ts t).Has e) : 0 < (s.icache e).ref := by
  rcases hh with hmem | hmem
  · have hmem : e ∈ inodeRefs s ts (.inl t) := hmem
    exact RefCounted.pos (a := e) h.counts.inodes hmem
  · obtain ⟨f, -, hip⟩ := (h.own t).lent e hmem
    have hip : e ∈ inodeRefs s ts (.inr (.inl f)) := hip
    exact RefCounted.pos (a := e) h.counts.inodes hip

theorem opened_mem (hf : s.ofile t fd = some f) (hhid : (ts t).hidden ≠ some fd) :
    f ∈ fileRefs s ts (.inr (t, fd)) := by
  simp [fileRefs, hhid, hf]

theorem slot_opened (h : Books s ts) (hf : (ts t).Slot fd f) :
    s.ofile t fd = some f ∧ (ts t).hidden ≠ some fd := by
  have htab := ((h.own t).on hf.1).2.1
  exact ⟨by rw [htab]; exact hf.2.1, hf.2.2⟩

theorem hasFile_opened (h : Books s ts) (hf : (ts t).HasFile f) :
    f ∈ (ts t).files ∨ Opened s t (ts t) f :=
  hf.imp_right fun ⟨fd, hslot⟩ => ⟨fd, h.slot_opened hslot⟩

theorem exists_party (hf : f ∈ (ts t).files ∨ Opened s t (ts t) f) :
    ∃ x, f ∈ fileRefs s ts x ∧ (x = .inl t ∨ ∃ fd, x = .inr (t, fd)) := by
  rcases hf with hmem | ⟨fd, hfd, hhid⟩
  · exact ⟨.inl t, hmem, .inl rfl⟩
  · exact ⟨.inr (t, fd), opened_mem hfd hhid, .inr ⟨fd, rfl⟩⟩

theorem file_pos (h : Books s ts) (hf : (ts t).HasFile f) : 0 < (s.file f).ref := by
  obtain ⟨x, hx, -⟩ := exists_party (h.hasFile_opened hf)
  exact RefCounted.pos (a := f) h.counts.files hx

theorem file_last (h : Books s ts) (hone : (s.file f).ref = 1)
    (hf : f ∈ (ts t).files ∨ Opened s t (ts t) f) (hu : f ∈ (ts u).files ∨ Opened s u (ts u) f) :
    u = t := by
  obtain ⟨x, hx, hxt⟩ := exists_party hf
  obtain ⟨y, hy, hyu⟩ := exists_party hu
  have hlast := (RefCounted.last h.counts.files hone hx).2
  have hxy : y = x := by
    by_contra hne
    exact hlast y hne hy
  rcases hxt with rfl | ⟨fd, rfl⟩
  · rcases hyu with rfl | ⟨fd', rfl⟩
    · exact Sum.inl.inj hxy
    · cases hxy
  · rcases hyu with rfl | ⟨fd', rfl⟩
    · cases hxy
    · exact congrArg Prod.fst (Sum.inr.inj hxy)

theorem blank_own (h : Books s ts) (hf : f ∈ (ts t).files ∨ Opened s t (ts t) f)
    (hb : f ∈ (ts u).blank) : u = t := by
  obtain ⟨-, hone, hu⟩ := (h.own u).blank f hb
  exact h.file_last hone hf hu

theorem off_of_not_running (h : Books s ts) (hlife : s.life t ≠ .running) : (ts t).on = false := by
  cases hon : (ts t).on with
  | false => rfl
  | true => exact absurd ((h.own t).on hon).1 hlife

end Books

end Xv6.Dir
