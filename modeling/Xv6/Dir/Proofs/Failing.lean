import Xv6.Dir.Proofs.Exact

/-!
# Calls that fail

A call that answers -1 leaves the file table, the descriptors and the pipes as they were. Most of the
code does not touch them at all. `sys_open` and `sys_pipe` may fail after they have taken files,
descriptors or a page, and give all of them back.
-/

namespace Xv6.Dir

open Prog (wp_seq wp_mono detWp aloneWp wp_alone wp)
open DState (setPipe boot)

/-! ## Code that leaves files alone -/

/-- The operation touches neither the file table nor descriptors nor pipes. -/
def IOp.quiet {γ : Type} : IOp γ → Prop
  | .setOfile _ _ | .filealloc | .filedup _ | .setFile _ _ | .fileUnref _ | .pipeNew _
  | .pipeclose _ _ | .forkOfile _ _ _ => False
  | _ => True

/-- All operations of the program leave files alone. -/
def IProg.Quiet {α : Type} (p : IProg α) : Prop :=
  p.wp (Prog.detWp (fun _ o (_ : Unit) => o.quiet) fun _ _ e => e) (fun _ _ => True) ()

namespace IProg

variable {α β γ : Type}

theorem quiet_op {o : IOp γ} {k : γ → IProg α} (ho : o.quiet) (hk : ∀ r, (k r).Quiet) :
    Quiet (.op o k) := ⟨ho, hk⟩

theorem quiet_panic (msg : String) : (IProg.panic msg : IProg α).Quiet := ⟨trivial, fun r => r.elim⟩

theorem quiet_ite {c : Prop} [Decidable c] {p q : IProg α} (hp : p.Quiet) (hq : q.Quiet) :
    (if c then p else q).Quiet := by
  split
  · exact hp
  · exact hq

theorem Quiet.bind {p : IProg α} {f : α → IProg β} (hp : p.Quiet) (hf : ∀ a, (f a).Quiet) :
    (p >>= f).Quiet :=
  wp_seq (wp_mono (Prog.detWp_mono _ _) _ (fun a _ _ => hf a) hp)

end IProg

open IProg

variable (ip : Fin NINODE) {Q : Unit → DState → Prop} {q : IProg Int} {s'' : DState} {α : Type}
  (fd : Int) (parent : Bool) (r : Int)

theorem freeInode_quiet : (freeInode ip).Quiet :=
  quiet_op trivial fun _ => quiet_op trivial fun _ => quiet_op trivial fun _ =>
    quiet_op trivial fun _ => trivial

theorem iput_quiet : (iput ip).Quiet := by
  refine quiet_op trivial fun last => ?_
  cases last with
  | true => exact (freeInode_quiet ip).bind fun _ => quiet_op trivial fun _ => trivial
  | false => trivial

theorem ilock_quiet : (ilock ip).Quiet := by
  refine quiet_op trivial fun _ => quiet_op trivial fun valid => ?_
  cases valid with
  | true => trivial
  | false =>
    refine quiet_op trivial fun type => ?_
    refine quiet_ite ?_ ?_
    · exact quiet_panic _
    · trivial

theorem iunlockput_quiet : (iunlockput ip).Quiet :=
  quiet_op trivial fun _ => iput_quiet ip

theorem iallocFrom_quiet (type : BitVec 16) (l : List Nat) : (iallocFrom type l).Quiet := by
  induction l with
  | nil => exact quiet_panic _
  | cons inum rest ih =>
    refine quiet_op trivial fun b => ?_
    cases b with
    | true => exact quiet_op trivial fun _ => trivial
    | false => exact ih

variable (dp : Fin NINODE) (name : CString) (fuel k : Nat)

theorem dirlookupFrom_quiet : (dirlookupFrom dp name fuel k).Quiet := by
  induction fuel generalizing k with
  | zero => trivial
  | succ fuel ih =>
    refine quiet_op trivial fun de => ?_
    cases de with
    | none => exact quiet_panic _
    | some de =>
      refine quiet_ite ?_ ?_
      · exact quiet_op trivial fun _ => trivial
      · exact ih (k + 1)

theorem dirlookup_quiet : (dirlookup dp name).Quiet := by
  refine quiet_op trivial fun a => ?_
  refine quiet_ite ?_ ?_
  · exact quiet_panic _
  · exact quiet_op trivial fun _ => dirlookupFrom_quiet dp name _ _

theorem emptyDirent_quiet : (emptyDirent dp fuel k).Quiet := by
  induction fuel generalizing k with
  | zero => trivial
  | succ fuel ih =>
    refine quiet_op trivial fun de => ?_
    cases de with
    | none => exact quiet_panic _
    | some de =>
      refine quiet_ite ?_ ?_
      · trivial
      · exact ih (k + 1)

theorem dirlink_quiet (inum : Nat) : (dirlink dp name inum).Quiet := by
  refine (dirlookup_quiet dp name).bind fun found => ?_
  cases found with
  | some x => exact (iput_quiet x.1).bind fun _ => trivial
  | none =>
    refine quiet_op trivial fun n => (emptyDirent_quiet dp n 0).bind fun k => ?_
    refine quiet_op trivial fun b => ?_
    cases b with
    | true => trivial
    | false => exact quiet_panic _

theorem namexEnd_quiet (ip : Fin NINODE) (name : CString) : (namexEnd parent ip name).Quiet := by
  cases parent with
  | true => exact (iput_quiet ip).bind fun _ => trivial
  | false => trivial

theorem namexFrom_quiet (fuel : Nat) (ip : Fin NINODE) (name path : CString) :
    (namexFrom parent fuel ip name path).Quiet := by
  induction fuel generalizing ip name path with
  | zero => exact namexEnd_quiet parent ip name
  | succ fuel ih =>
    unfold namexFrom
    split
    · exact namexEnd_quiet parent ip name
    refine (ilock_quiet ip).bind fun _ => quiet_op trivial fun a => ?_
    refine quiet_ite ?_ ?_
    · exact (iunlockput_quiet ip).bind fun _ => trivial
    · split
      · exact quiet_op trivial fun _ => trivial
      · refine (dirlookup_quiet ip _).bind fun found => ?_
        cases found with
        | none => exact (iunlockput_quiet ip).bind fun _ => trivial
        | some x => exact (iunlockput_quiet ip).bind fun _ => ih _ _ _

theorem namex_quiet (path : CString) (parent : Bool) : (namex path parent).Quiet := by
  have hstart : (namexStart path).Quiet := by
    unfold namexStart
    split
    · exact quiet_op trivial fun _ => trivial
    · exact quiet_op trivial fun _ => quiet_op trivial fun _ => trivial
  exact hstart.bind fun ip => namexFrom_quiet parent _ ip _ _

theorem namei_quiet (path : CString) : (namei path).Quiet :=
  (namex_quiet path false).bind fun _ => trivial

theorem linkBad_quiet : (linkBad ip).Quiet :=
  (ilock_quiet ip).bind fun _ => quiet_op trivial fun _ => quiet_op trivial fun _ =>
    (iunlockput_quiet ip).bind fun _ => quiet_op trivial fun _ => trivial

theorem putReturn_quiet : (do iunlockput ip; .lift .endOp; return r : IProg Int).Quiet :=
  (iunlockput_quiet ip).bind fun _ => quiet_op trivial fun _ => trivial

theorem sysLink_quiet (old new : Option CString) : (sysLink old new).Quiet := by
  unfold sysLink
  split
  · refine quiet_op trivial fun _ => (namei_quiet _).bind fun found => ?_
    cases found with
    | none => exact quiet_op trivial fun _ => trivial
    | some ip =>
      refine (ilock_quiet ip).bind fun _ => quiet_op trivial fun a => ?_
      refine quiet_ite ?_ ?_
      · exact putReturn_quiet ip (-1)
      · refine quiet_op trivial fun _ => quiet_op trivial fun _ => (namex_quiet _ true).bind ?_
        intro found
        cases found with
        | none => exact linkBad_quiet ip
        | some x =>
          refine (ilock_quiet x.1).bind fun _ => quiet_op trivial fun inum => ?_
          refine (dirlink_quiet x.1 x.2 inum).bind fun b => ?_
          cases b with
          | true =>
            exact (iunlockput_quiet x.1).bind fun _ => (iput_quiet ip).bind fun _ =>
              quiet_op trivial fun _ => trivial
          | false => exact (iunlockput_quiet x.1).bind fun _ => linkBad_quiet ip
  · trivial

theorem removable_quiet (a : Attr) : (removable ip a).Quiet := by
  have hfrom (fuel k : Nat) : (isdiremptyFrom ip fuel k).Quiet := by
    induction fuel generalizing k with
    | zero => trivial
    | succ fuel ih =>
      refine quiet_op trivial fun de => ?_
      cases de with
      | none => exact quiet_panic _
      | some de =>
        refine quiet_ite ?_ ?_
        · trivial
        · exact ih (k + 1)
  unfold removable
  split
  · exact quiet_op trivial fun n => hfrom _ _
  · trivial

theorem unlinkEntry_quiet (dp ip : Fin NINODE) (k : Nat) : (unlinkEntry dp ip k).Quiet := by
  refine (ilock_quiet ip).bind fun _ => quiet_op trivial fun a => ?_
  refine quiet_ite ?_ ?_
  · exact quiet_panic _
  · refine (removable_quiet ip a).bind fun b => ?_
    cases b with
    | true =>
      refine quiet_op trivial fun b => ?_
      cases b with
      | true =>
        have hparent : (dropParentLink dp a).Quiet := by
          unfold dropParentLink
          split
          · exact quiet_op trivial fun _ => quiet_op trivial fun _ => trivial
          · trivial
        exact hparent.bind fun _ => (iunlockput_quiet dp).bind fun _ => quiet_op trivial fun _ =>
          quiet_op trivial fun _ => putReturn_quiet ip 0
      | false => exact quiet_panic _
    | false => exact (iunlockput_quiet ip).bind fun _ => putReturn_quiet dp (-1)

variable (path : Option CString)

theorem sysUnlink_quiet : (sysUnlink path).Quiet := by
  cases path with
  | none => trivial
  | some path =>
    refine quiet_op trivial fun _ => (namex_quiet path true).bind fun found => ?_
    cases found with
    | none => exact quiet_op trivial fun _ => trivial
    | some x =>
      refine (ilock_quiet x.1).bind fun _ => ?_
      refine quiet_ite ?_ ?_
      · exact putReturn_quiet x.1 (-1)
      · refine (dirlookup_quiet x.1 x.2).bind fun found => ?_
        cases found with
        | none => exact putReturn_quiet x.1 (-1)
        | some y => exact unlinkEntry_quiet x.1 y.1 y.2

theorem createDots_quiet (dp ip : Fin NINODE) (type : BitVec 16) : (createDots dp ip type).Quiet := by
  unfold createDots
  split
  · refine quiet_op trivial fun _ => quiet_op trivial fun _ => quiet_op trivial fun inum => ?_
    refine (dirlink_quiet ip dot inum).bind fun b => ?_
    cases b with
    | true =>
      refine quiet_op trivial fun inum => (dirlink_quiet ip dotdot inum).bind fun b => ?_
      cases b with
      | true => trivial
      | false => exact quiet_panic _
    | false => exact quiet_panic _
  · trivial

theorem create_quiet (path : CString) (type major minor : BitVec 16) :
    (create path type major minor).Quiet := by
  refine (namex_quiet path true).bind fun found => ?_
  cases found with
  | none => trivial
  | some x =>
    refine (ilock_quiet x.1).bind fun _ => (dirlookup_quiet x.1 x.2).bind fun found => ?_
    cases found with
    | some y =>
      refine (iunlockput_quiet x.1).bind fun _ => (ilock_quiet y.1).bind fun _ => ?_
      refine quiet_op trivial fun a => ?_
      refine quiet_ite ?_ ?_
      · trivial
      · exact (iunlockput_quiet y.1).bind fun _ => trivial
    | none =>
      refine Quiet.bind (quiet_op trivial fun n => iallocFrom_quiet type _) fun ip => ?_
      refine (ilock_quiet ip).bind fun _ => quiet_op trivial fun _ => quiet_op trivial fun _ => ?_
      refine (createDots_quiet x.1 ip type).bind fun _ => quiet_op trivial fun inum => ?_
      refine (dirlink_quiet x.1 x.2 inum).bind fun b => ?_
      cases b with
      | true => exact (iunlockput_quiet x.1).bind fun _ => trivial
      | false => exact quiet_panic _

theorem createAndPut_quiet (type major minor : BitVec 16) :
    (createAndPut path type major minor).Quiet := by
  refine quiet_op trivial fun _ => ?_
  cases path with
  | none => exact quiet_op trivial fun _ => trivial
  | some path =>
    refine (create_quiet path type major minor).bind fun found => ?_
    cases found with
    | none => exact quiet_op trivial fun _ => trivial
    | some ip => exact putReturn_quiet ip 0

theorem openInode_quiet (path : CString) (omode : BitVec 32) : (openInode path omode).Quiet := by
  refine quiet_ite (create_quiet path T_FILE 0 0) ((namei_quiet path).bind fun found => ?_)
  cases found with
  | none => trivial
  | some ip =>
    refine (ilock_quiet ip).bind fun _ => quiet_op trivial fun a => ?_
    exact quiet_ite ((iunlockput_quiet ip).bind fun _ => trivial) trivial

theorem sysChdir_quiet : (sysChdir path).Quiet := by
  refine quiet_op trivial fun _ => ?_
  cases path with
  | none => exact quiet_op trivial fun _ => trivial
  | some path =>
    refine (namei_quiet path).bind fun found => ?_
    cases found with
    | none => exact quiet_op trivial fun _ => trivial
    | some ip =>
      refine (ilock_quiet ip).bind fun _ => quiet_op trivial fun a => ?_
      refine quiet_ite (putReturn_quiet ip (-1)) ?_
      refine quiet_op trivial fun _ => quiet_op trivial fun old => (iput_quiet old).bind fun _ => ?_
      exact quiet_op trivial fun _ => quiet_op trivial fun _ => trivial

theorem sysExec_quiet (result : ExecResult) : (sysExec path result).Quiet := by
  cases path with
  | none => trivial
  | some path =>
    refine quiet_op trivial fun _ => (namei_quiet path).bind fun found => ?_
    cases found with
    | none => exact quiet_op trivial fun _ => trivial
    | some ip =>
      refine (ilock_quiet ip).bind fun _ => ?_
      cases result with
      | badProgram | badStack => exact putReturn_quiet ip (-1)
      | ok argc => exact putReturn_quiet ip argc

theorem argfd_quiet : (argfd fd).Quiet := by
  unfold argfd
  split
  · exact quiet_op trivial fun _ => trivial
  · trivial

theorem sysFstat_quiet (ok : Bool) : (sysFstat fd ok).Quiet := by
  have hstat (ip : Fin NINODE) :
      (do ilock ip; let _ ← .lift (.attr ip); .lift (.iunlock ip); return if ok then 0 else -1 :
        IProg Int).Quiet :=
    (ilock_quiet ip).bind fun _ => quiet_op trivial fun _ => quiet_op trivial fun _ => trivial
  refine (argfd_quiet fd).bind fun found => ?_
  cases found with
  | none => trivial
  | some x =>
    refine quiet_op trivial fun kind => ?_
    cases kind with
    | none | pipe pi writable => trivial
    | inode ip | device ip => exact hstat ip

/-! ## What a call does alone -/

/-- The file table, the descriptors and the pipes are the same. -/
structure SameFiles (s s' : DState) : Prop where
  file : s'.file = s.file
  ofile : s'.ofile = s.ofile
  pipe : s'.pipe = s.pipe

variable {s s' : DState} {p : Proc} {ninodes : Nat}

theorem SameFiles.refl (s : DState) : SameFiles s s := ⟨rfl, rfl, rfl⟩

theorem SameFiles.trans (h : SameFiles s s') (h' : SameFiles s' s'') : SameFiles s s'' :=
  ⟨h'.file.trans h.file, h'.ofile.trans h.ofile, h'.pipe.trans h.pipe⟩

theorem IOp.sameFiles {γ : Type} {o : IOp γ} {r : γ} (ho : o.quiet)
    (hexec : DState.exec ninodes p γ o s = .done r s') : SameFiles s s' := by
  cases o with
  | setOfile fd f | filealloc | filedup f | setFile f kind | fileUnref f | pipeNew pi
  | pipeclose pi writable | forkOfile np fd f => exact ho.elim
  | iget inum =>
    simp only [DState.exec, DState.iget] at hexec
    split at hexec
    · cases hexec
      exact ⟨rfl, rfl, rfl⟩
    · split at hexec <;> cases hexec
      exact ⟨rfl, rfl, rfl⟩
  | acquiresleep e =>
    simp only [DState.exec, DState.acquiresleep] at hexec
    split at hexec
    · cases hexec
    · split at hexec <;> cases hexec
      exact ⟨rfl, rfl, rfl⟩
  | lastRef e =>
    simp only [DState.exec, DState.lastRef] at hexec
    split at hexec
    · split at hexec <;> cases hexec
      exact ⟨rfl, rfl, rfl⟩
    · cases hexec
      exact ⟨rfl, rfl, rfl⟩
  | enter | iunlock | claim | writeDirent | cwd | allocproc =>
    simp only [DState.exec, DState.claim] at hexec
    split at hexec <;> cases hexec <;> exact ⟨rfl, rfl, rfl⟩
  | panic msg => cases hexec
  | _ =>
    cases hexec
    exact ⟨rfl, rfl, rfl⟩

/-- How a program runs in process `p`, alone. -/
abbrev alone (ninodes : Nat) (p : Proc) : ∀ γ, IOp γ → (γ → DState → Prop) → DState → Prop :=
  Prog.aloneWp (DState.exec ninodes p) fun _ => True

theorem IProg.Quiet.alone {q : IProg α} (hq : q.Quiet) (s : DState) {Q : α → DState → Prop}
    (hQ : ∀ a s', SameFiles s s' → Q a s') : q.wp (Dir.alone ninodes p) Q s := by
  refine wp_mono (Prog.aloneWp_mono _) _ (fun a s' h => hQ a s' h.2)
    (wp_alone SameFiles.refl (fun _ _ _ => SameFiles.trans)
      (fun _ o _ _ _ ho => IOp.sameFiles ho) q hq s)

/-! ### Code that does not fail -/

def IProg.Succeeds (q : IProg Int) : Prop :=
  q.wp (Prog.detWp (fun _ _ (_ : Unit) => True) fun _ _ e => e) (fun r _ => r ≠ -1) ()

theorem IProg.Succeeds.bind (q : IProg α) {f : α → IProg Int}
    (hf : ∀ a, (f a).Succeeds) : (q >>= f).Succeeds := by
  induction q with
  | pure a => exact hf a
  | op o k ih => exact ⟨trivial, ih⟩

/-- If the call fails, nothing has changed. -/
def Unharmed (s : DState) (r : Int) (s' : DState) : Prop := r = -1 → SameFiles s s'

theorem IProg.Succeeds.alone (hq : q.Succeeds) (s0 s : DState) :
    q.wp (Dir.alone ninodes p) (Unharmed s0) s :=
  wp_mono (Prog.aloneWp_mono _) _ (fun _ _ h hr => absurd hr h.1)
    (wp_alone (fun _ => trivial) (fun _ _ _ _ _ => trivial) (fun _ _ _ _ _ _ _ => trivial) q hq s)

theorem IProg.Quiet.unharmed (hq : q.Quiet) {s0 : DState} (hs : SameFiles s0 s) :
    q.wp (Dir.alone ninodes p) (Unharmed s0) s :=
  hq.alone s fun _ _ h _ => hs.trans h

/-! ### Files -/

variable {f : Fin NFILE}

/-- A file without references has no kind. -/
def DState.Closed (s : DState) : Prop := ∀ f, (s.file f).ref = 0 → (s.file f).kind = .none

theorem SameFiles.closed (h : SameFiles s s') (hs : s.Closed) : s'.Closed := by
  unfold DState.Closed
  rw [h.file]
  exact hs

theorem alone_filealloc {Q : Option (Fin NFILE) → DState → Prop} (hs : s.Closed) (hnone : Q none s)
    (hsome : ∀ f, s.file f = ⟨0, .none⟩ → Q (some f) (s.setFile f ⟨1, .none⟩)) :
    alone ninodes p _ .filealloc Q s := by
  unfold alone aloneWp
  simp only [DState.exec, DState.filealloc]
  cases hfind : (List.finRange NFILE).find? fun f => decide ((s.file f).ref = 0) with
  | none => exact hnone
  | some f =>
    have href : (s.file f).ref = 0 := by simpa using List.find?_some hfind
    have hkind := hs f href
    have hfile : s.file f = ⟨0, .none⟩ := by rw [← href, ← hkind]
    have hnew := hsome f hfile
    rw [← hkind] at hnew
    exact hnew

theorem alone_fileclose_blank (hf : s.file f = ⟨1, .none⟩)
    (hQ : Q () (s.setFile f ⟨0, .none⟩)) : (fileclose f).wp (alone ninodes p) Q s := by
  show alone ninodes p _ (.fileUnref f) _ s
  simp only [alone, aloneWp, DState.exec, DState.fileUnref, hf]
  exact hQ

/-- The pipe after one of its ends has been closed. -/
def PipeEnds.closeEnd (x : PipeEnds) (writable : Bool) : Option PipeEnds :=
  if (x.shut writable).readopen = false ∧ (x.shut writable).writeopen = false then none
  else some (x.shut writable)

variable {pi : Nat}

theorem alone_fileclose_pipe {writable : Bool} {x : PipeEnds}
    (hf : s.file f = ⟨1, .pipe pi writable⟩) (hx : s.pipe pi = some x)
    (hQ : Q () ((s.setFile f ⟨0, .none⟩).setPipe pi (x.closeEnd writable))) :
    (fileclose f).wp (alone ninodes p) Q s := by
  show alone ninodes p _ (.fileUnref f) _ s
  simp only [alone, aloneWp, DState.exec, DState.fileUnref, hf]
  show alone ninodes p _ (.pipeclose pi writable) Q (s.setFile f ⟨0, .none⟩)
  have hx' : (s.setFile f ⟨0, .none⟩).pipe pi = some x := hx
  simp only [alone, aloneWp, DState.exec, DState.pipeclose, hx']
  unfold PipeEnds.closeEnd at hQ
  by_cases hclosed : (x.shut writable).readopen = false ∧ (x.shut writable).writeopen = false
  · rw [if_pos hclosed] at hQ ⊢
    exact hQ
  · rw [if_neg hclosed] at hQ ⊢
    exact hQ

theorem alone_fdallocFrom {Q : Option (Fin NOFILE) → DState → Prop} (hnone : Q none s)
    (hsome : ∀ fd, s.ofile p fd = none → Q (some fd) (s.setOfile p fd (some f)))
    (fds : List (Fin NOFILE)) : (fdallocFrom f fds).wp (alone ninodes p) Q s := by
  induction fds with
  | nil => exact hnone
  | cons fd fds ih =>
    simp only [fdallocFrom, Prog.lift_bind, Prog.wp_op, aloneWp, DState.exec]
    cases hfd : s.ofile p fd with
    | none => exact hsome fd hfd
    | some f' => exact ih

theorem DState.setFile_restore {x : File} (hf : s.file f = ⟨0, .none⟩) :
    (s.setFile f x).setFile f ⟨0, .none⟩ = s := by
  unfold DState.setFile
  rw [Function.update_idem, ← hf, Function.update_eq_self]

/-! ### The calls -/

theorem endReturn_quiet : (do .lift .endOp; return r : IProg Int).Quiet :=
  quiet_op trivial fun _ => trivial

theorem openFile_succeeds (f : Fin NFILE) (fd : Fin NOFILE) (omode : BitVec 32) :
    (openFile ip f fd omode).Succeeds := by
  refine ⟨trivial, fun a => ⟨trivial, fun _ => ?_⟩⟩
  refine IProg.Succeeds.bind (openTrunc ip a omode) fun _ => ?_
  refine ⟨trivial, fun _ => ⟨trivial, fun _ => ?_⟩⟩
  show (fd.val : Int) ≠ -1
  omega

theorem sysOpen_unharmed (hs : s.Closed) (path : Option CString) (omode : BitVec 32) :
    (sysOpen path omode).wp (alone ninodes p) (Unharmed s) s := by
  cases path with
  | none => exact fun _ => .refl s
  | some path =>
    show wp _ (openInode path omode >>= _) _ { s with outstanding := s.outstanding + 1 }
    refine wp_seq ((openInode_quiet path omode).alone _ fun ip s1 h₁ => ?_)
    have h₁ : SameFiles s s1 := ⟨h₁.file, h₁.ofile, h₁.pipe⟩
    cases ip with
    | none => exact (endReturn_quiet (-1)).unharmed h₁
    | some ip =>
      show wp _ (if _ then _ else _) _ s1
      split
      · exact (putReturn_quiet ip (-1)).unharmed h₁
      refine alone_filealloc (h₁.closed hs) ((putReturn_quiet ip (-1)).unharmed h₁) fun f hf => ?_
      show wp _ (fdalloc f >>= _) _ _
      refine wp_seq (alone_fdallocFrom ?_ (fun fd _ => ?_) _)
      · refine wp_seq (alone_fileclose_blank (by simp [DState.setFile]) ?_)
        rw [DState.setFile_restore hf]
        exact (putReturn_quiet ip (-1)).unharmed h₁
      · exact (openFile_succeeds ip f fd omode).alone s _

theorem sysDup_unharmed : (sysDup fd).wp (alone ninodes p) (Unharmed s) s := by
  refine wp_seq ((argfd_quiet fd).alone _ fun found s1 h₁ => ?_)
  cases found with
  | none => exact fun _ => h₁
  | some x =>
    refine wp_seq (alone_fdallocFrom (fun _ => h₁) (fun fd' _ => ?_) _)
    refine IProg.Succeeds.alone ?_ s _
    refine ⟨trivial, fun _ => ?_⟩
    show (fd'.val : Int) ≠ -1
    omega

theorem sysClose_unharmed : (sysClose fd).wp (alone ninodes p) (Unharmed s) s := by
  refine wp_seq ((argfd_quiet fd).alone _ fun found s1 h₁ => ?_)
  cases found with
  | none => exact fun _ => h₁
  | some x =>
    refine IProg.Succeeds.alone ?_ s _
    refine ⟨trivial, fun _ => IProg.Succeeds.bind (fileclose x.2) fun _ => ?_⟩
    exact fun h => absurd h (by decide)

theorem fork_unharmed (np : Option Proc) : (fork np).wp (alone ninodes p) (Unharmed s) s := by
  cases np with
  | none => exact fun _ => .refl s
  | some np =>
    show alone ninodes p _ (.allocproc np) _ s
    simp only [alone, aloneWp, DState.exec]
    by_cases hfree : s.life np = .unused
    · rw [if_pos hfree]
      show wp (alone ninodes p) (Prog.forEach (forkDup np) (List.finRange NOFILE) >>= _) _ _
      refine IProg.Succeeds.alone (IProg.Succeeds.bind _ fun _ => ?_) s _
      refine ⟨trivial, fun _ => ⟨trivial, fun _ => ⟨trivial, fun _ => ⟨trivial, fun _ => ?_⟩⟩⟩⟩
      show (np.val : Int) ≠ -1
      omega
    · rw [if_neg hfree]
      exact fun _ => .refl s

theorem exit_unharmed : exit.wp (alone ninodes p) (Unharmed s) s := by
  refine IProg.Succeeds.alone ?_ s s
  refine ⟨trivial, fun q => ?_⟩
  show IProg.Succeeds (if _ then _ else _)
  split
  · exact ⟨trivial, fun r => r.elim⟩
  · refine IProg.Succeeds.bind _ fun _ => ⟨trivial, fun _ => ⟨trivial, fun ip => ?_⟩⟩
    refine IProg.Succeeds.bind (iput ip) fun _ => ⟨trivial, fun _ => ⟨trivial, fun _ => ?_⟩⟩
    exact ⟨trivial, fun _ => fun h => absurd h (by decide)⟩

/-! ### Pipes -/

/-- `s'` is `s` with a new pipe, whose ends are two files that had been free. -/
structure NewPipe (s : DState) (rf wf : Fin NFILE) (pi : Nat) (s' : DState) : Prop where
  ne : rf ≠ wf
  rfile : s.file rf = ⟨0, .none⟩
  wfile : s.file wf = ⟨0, .none⟩
  page : s.pipe pi = none
  file : s'.file = Function.update (Function.update s.file rf ⟨1, .pipe pi false⟩) wf
    ⟨1, .pipe pi true⟩
  ofile : s'.ofile = s.ofile
  pipe : s'.pipe = Function.update s.pipe pi (some ⟨true, true⟩)

theorem alone_pipealloc {Q : Option (Fin NFILE × Fin NFILE) → DState → Prop} (hs : s.Closed)
    (page : Option Nat) (hnone : ∀ s', SameFiles s s' → Q none s')
    (hsome : ∀ rf wf pi s', NewPipe s rf wf pi s' → Q (some (rf, wf)) s') :
    (pipealloc page).wp (alone ninodes p) Q s := by
  refine alone_filealloc hs (hnone s (.refl s)) fun f0 h0 => ?_
  have hs1 : (s.setFile f0 ⟨1, .none⟩).Closed := by
    intro f hf
    by_cases heq : f = f0
    · simp [DState.setFile, heq] at hf
    · simp only [DState.setFile, Function.update_of_ne heq] at hf ⊢
      exact hs f hf
  refine alone_filealloc hs1 ?_ fun f1 h1 => ?_
  · -- only one file could be had
    show wp _ (fileclose f0 >>= _) _ _
    refine wp_seq (alone_fileclose_blank (by simp [DState.setFile]) ?_)
    rw [DState.setFile_restore h0]
    exact hnone s (.refl s)
  · have hne : f0 ≠ f1 := by
      intro heq
      rw [← heq] at h1
      simp [DState.setFile] at h1
    have h1' : s.file f1 = ⟨0, .none⟩ := by simpa [DState.setFile, hne.symm] using h1
    cases page with
    | none =>
      show wp _ (fileclose f0 >>= fun _ => fileclose f1 >>= _) _ _
      refine wp_seq (alone_fileclose_blank (by simp [DState.setFile, hne]) ?_)
      refine wp_seq (alone_fileclose_blank (by simp [DState.setFile, hne.symm]) ?_)
      refine hnone _ ⟨?_, rfl, rfl⟩
      funext f
      by_cases heq1 : f = f1
      · simp [DState.setFile, heq1, h1']
      · by_cases heq0 : f = f0
        · simp [DState.setFile, heq0, hne, h0]
        · simp [DState.setFile, heq0, heq1]
    | some pi =>
      show alone ninodes p _ (.pipeNew pi) _ _
      simp only [alone, aloneWp, DState.exec, DState.pipeNew]
      cases hpage : ((s.setFile f0 ⟨1, .none⟩).setFile f1 ⟨1, .none⟩).pipe pi with
      | some x => trivial
      | none =>
        refine hsome f0 f1 pi _ ⟨hne, h0, h1', hpage, ?_, rfl, rfl⟩
        funext f
        by_cases heq1 : f = f1
        · simp [DState.setFile, setPipe, heq1, hne.symm]
        · by_cases heq0 : f = f0
          · simp [DState.setFile, setPipe, heq0, hne]
          · simp [DState.setFile, setPipe, heq0, heq1]

theorem NewPipe.fail {rf wf : Fin NFILE} (h : NewPipe s rf wf pi s') :
    (pipeFail rf wf).wp (alone ninodes p) (Unharmed s) s' := by
  have hrf : s'.file rf = ⟨1, .pipe pi false⟩ := by simp [h.file, h.ne]
  have hpi : s'.pipe pi = some ⟨true, true⟩ := by simp [h.pipe]
  refine wp_seq (alone_fileclose_pipe hrf hpi ?_)
  have hwf : ((s'.setFile rf ⟨0, .none⟩).setPipe pi (PipeEnds.closeEnd ⟨true, true⟩ false)).file wf =
      ⟨1, .pipe pi true⟩ := by
    simp [h.file, h.ne.symm, DState.setFile, setPipe]
  have hpi' : ((s'.setFile rf ⟨0, .none⟩).setPipe pi (PipeEnds.closeEnd ⟨true, true⟩ false)).pipe pi =
      some ⟨false, true⟩ := by
    simp [setPipe, PipeEnds.closeEnd, PipeEnds.shut]
  refine wp_seq (alone_fileclose_pipe hwf hpi' ?_)
  intro _
  refine ⟨?_, h.ofile, ?_⟩
  · funext f
    by_cases hw : f = wf
    · simp [DState.setFile, setPipe, hw, h.wfile]
    · by_cases hr : f = rf
      · simp [DState.setFile, setPipe, hr, h.ne, h.rfile]
      · simp [DState.setFile, setPipe, hr, hw, h.file]
  · funext pi'
    by_cases hpi : pi' = pi
    · simp [DState.setFile, setPipe, hpi, PipeEnds.closeEnd, PipeEnds.shut, h.page]
    · simp [DState.setFile, setPipe, hpi, h.pipe]

/-- Descriptors do not matter to a new pipe as long as they are what they were. -/
theorem NewPipe.congr {rf wf : Fin NFILE} (h : NewPipe s rf wf pi s') (hfile : s''.file = s'.file)
    (hpipe : s''.pipe = s'.pipe) (hofile : s''.ofile = s'.ofile) : NewPipe s rf wf pi s'' :=
  ⟨h.ne, h.rfile, h.wfile, h.page, hfile.trans h.file, hofile.trans h.ofile, hpipe.trans h.pipe⟩

theorem sysPipe_unharmed (hs : s.Closed) (page : Option Nat) (ok : Bool) :
    (sysPipe page ok).wp (alone ninodes p) (Unharmed s) s := by
  refine wp_seq (alone_pipealloc hs page (fun s' h => fun _ => h) ?_)
  intro rf wf pi s1 h₁
  refine wp_seq (alone_fdallocFrom h₁.fail (fun fd0 hfd0 => ?_) _)
  refine wp_seq (alone_fdallocFrom ?_ (fun fd1 hfd1 => ?_) _)
  · -- the first descriptor is taken back
    have hback : NewPipe s rf wf pi ((s1.setOfile p fd0 (some rf)).setOfile p fd0 none) := by
      refine h₁.congr rfl rfl ?_
      funext q fd
      by_cases hq : q = p
      · by_cases hfd : fd = fd0 <;> simp [DState.setOfile, hq, hfd, hfd0]
      · simp [DState.setOfile, hq]
    exact hback.fail
  · have hne : fd1 ≠ fd0 := by
      intro heq
      rw [heq] at hfd1
      simp [DState.setOfile] at hfd1
    have hfd1 : s1.ofile p fd1 = none := by simpa [DState.setOfile, hne] using hfd1
    cases ok with
    | true => exact fun h => absurd h (by decide)
    | false =>
      -- both descriptors are taken back
      have hback : NewPipe s rf wf pi ((((s1.setOfile p fd0 (some rf)).setOfile p fd1
          (some wf)).setOfile p fd0 none).setOfile p fd1 none) := by
        refine h₁.congr rfl rfl ?_
        funext q fd
        by_cases hq : q = p
        · by_cases h1 : fd = fd1
          · simp [DState.setOfile, hq, h1, hfd1]
          · by_cases h0 : fd = fd0 <;> simp [DState.setOfile, hq, h0, h1, hfd0, hne.symm]
        · simp [DState.setOfile, hq]
      exact hback.fail

/-! ## Every call -/

theorem Call.code_unharmed (hs : s.Closed) (c : Call) :
    c.code.wp (alone ninodes p) (Unharmed s) s := by
  cases c with
  | «open» path omode => exact sysOpen_unharmed hs path omode
  | mkdir path => exact (createAndPut_quiet path T_DIR 0 0).unharmed (.refl s)
  | mknod path major minor => exact (createAndPut_quiet path T_DEVICE major minor).unharmed (.refl s)
  | link old new => exact (sysLink_quiet old new).unharmed (.refl s)
  | unlink path => exact (sysUnlink_quiet path).unharmed (.refl s)
  | chdir path => exact (sysChdir_quiet path).unharmed (.refl s)
  | dup fd => exact sysDup_unharmed fd
  | close fd => exact sysClose_unharmed fd
  | fstat fd ok => exact (sysFstat_quiet fd ok).unharmed (.refl s)
  | pipe page ok => exact sysPipe_unharmed hs page ok
  | exec path result => exact (sysExec_quiet path result).unharmed (.refl s)
  | fork np => exact fork_unharmed np
  | exit => exact exit_unharmed

theorem Call.step_unharmed (hs : s.Closed) (c : Call) (hstep : c.step ninodes p s = .done (-1) s') :
    SameFiles s s' := by
  have hwp : c.prog.wp (alone ninodes p) (Unharmed s) s := by
    show alone ninodes p _ .enter _ s
    simp only [alone, aloneWp, DState.exec]
    by_cases hrun : s.life p = .running
    · rw [if_pos hrun]
      exact c.code_unharmed hs
    · rw [if_neg hrun]
      trivial
  exact (Prog.finish_of_wp _ hwp).1 (-1) s' hstep rfl

/-! ## Counts of files and ends of pipes -/

variable {ts : Proc → Hold} {inode : Nat → DInode} {c : Pool.Conf Proc IOp DState}

theorem Books.freed_closed (h : Books s ts) (hfreed : s.pipe pi = none) (f : Fin NFILE)
    (writable : Bool) : (s.file f).kind ≠ .pipe pi writable := by
  intro hkind
  have hmem : (pi, writable) ∈ endRefs s ts (.inr f) := by simp [endRefs, hkind, FileKind.ends]
  have hpos : 0 < openCount (s.pipe pi) writable :=
    RefCounted.pos (a := (pi, writable)) h.counts.ends hmem
  simp [hfreed, openCount] at hpos

/-- At all times the page of a pipe is there as long as one of its ends is open, and no file is an
end of a page that has been freed; the panics that a wrong count would lead to do not happen. While
no call is in progress, the count of a file is the number of its descriptors, an end of a pipe is
open if an open file is that end, and a call that fails changes nothing. -/
theorem file_refs_exact (ninodes : Nat) (inode : Nat → DInode)
    (hc : Pool.Reach (freeMachine ninodes) (.idle (DState.boot inode)) c) :
    (∀ msg, c.panicked = some msg → msg ∉ countPanics) ∧
      (∀ pi x, c.st.pipe pi = some x → x.readopen = true ∨ x.writeopen = true) ∧
      (∀ pi, c.st.pipe pi = none → ∀ f writable, (c.st.file f).kind ≠ .pipe pi writable) ∧
      (Quiet c →
        (∀ f, (c.st.file f).ref = (c.st.descriptors f).card) ∧
        (∀ pi x, c.st.pipe pi = some x →
          (x.readopen = true ↔
            ∃ f, 0 < (c.st.file f).ref ∧ (c.st.file f).kind = .pipe pi false) ∧
          (x.writeopen = true ↔
            ∃ f, 0 < (c.st.file f).ref ∧ (c.st.file f).kind = .pipe pi true)) ∧
        ∀ p call s', Call.step ninodes p call c.st = .done (-1) s' → SameFiles c.st s') := by
  obtain ⟨ts, hts⟩ := exists_books hc
  refine ⟨fun msg hmsg => ?_, hts.good.tables.pages, fun pi => hts.good.freed_closed, fun hquiet => ?_⟩
  · exact hc.panicked_of_typed (dirMachine_sound ninodes)
      (fun hgood hwp hexec => hgood.panic hwp hexec) (typed_boot inode) rfl hmsg
  · obtain ⟨ts, hbooks, hidle⟩ := exists_idle_books hc hquiet
    have hends (t : Proc) : (ts t).ends = [] := (hidle t).ends
    refine ⟨hbooks.file_ref hidle, fun pi x hx => ⟨?_, ?_⟩, fun p call s' hstep => ?_⟩
    · exact hbooks.end_open_iff hx false hends
    · exact hbooks.end_open_iff hx true hends
    · exact call.step_unharmed hbooks.tables.closed hstep

/-- A pipe is made, and its read end gets a second descriptor. -/
def pipeDup : List Call := [.pipe (some 5) true, .dup 0]

theorem file_refs_exact_pipeDup :
    ((calling 14 pipeDup).st.file 0).ref = 2 ∧
      ((calling 14 pipeDup).st.file 0).ref = ((calling 14 pipeDup).st.descriptors 0).card :=
  ⟨by decide +kernel, ((file_refs_exact 10 rootOnly (calling_reach 14 pipeDup)).2.2.2
    (calling_quiet 14 pipeDup rfl)).1 0⟩

end Xv6.Dir
