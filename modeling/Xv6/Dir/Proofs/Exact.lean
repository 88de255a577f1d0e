import Xv6.Dir.Proofs.Files

/-!
# The counts are exact

Whatever calls the processes make, interleaved in any way, the books are right all the time. While no
call is in progress no process has anything outside the tables, and the counts are those of the
tables.
-/

namespace Xv6.Dir

open Finset (univ sum_eq_zero card_filter sum_congr)
open DState (setIcache acquiresleep claim boot)
open Hold Pool
open Function (update update_idem update_self update_eq_self)
open FileKind (ips)

variable {s s' : DState} {ts : Proc → Hold} {t u : Proc} {e : Fin NINODE} {f : Fin NFILE} {pi : Nat}
  (kind : FileKind) (n : Nat) (calls : List Call)

/-! ## Every operation keeps the books -/

section

variable {γ : Type} (h : Books s ts) {r : γ}
include h

variable {Q : γ → Hold → Prop}

theorem Books.stay (hQ : Q r (ts t)) : ∃ a, Q r a ∧ Books s (update ts t a) := by
  refine ⟨ts t, hQ, ?_⟩
  rwa [update_eq_self]

theorem Books.congr_icache {i : CInode} (hQ : Q r (ts t))
    (href : i.ref = (s.icache e).ref) (hlock : i.lock = (s.icache e).lock) :
    ∃ a, Q r a ∧ Books (s.setIcache e i) (update ts t a) := by
  refine Books.stay (h.congr (s.sameTables_setIcache e i) (fun e' => ?_) fun e' => ?_) hQ
  · by_cases he : e' = e
    · subst he
      simpa [setIcache] using href
    · simp [setIcache, he]
  · by_cases he : e' = e
    · subst he
      simpa [setIcache] using hlock
    · simp [setIcache, he]

theorem Books.congr_inode (i : Nat) (d : DInode) : Books (s.setInode i d) ts :=
  h.congr (s.sameTables_setInode i d) (fun _ => rfl) fun _ => rfl

theorem Books.iget {inum : Nat} (hexec : s.iget inum = .done e s') :
    Books s' (update ts t ((ts t).take e)) := by
  unfold DState.iget at hexec
  cases hfind : (List.finRange NINODE).find?
      fun e => decide (0 < (s.icache e).ref ∧ (s.icache e).inum = inum) with
  | some e' =>
    rw [hfind] at hexec
    cases hexec
    exact h.take rfl rfl
  | none =>
    rw [hfind] at hexec
    cases hfree : (List.finRange NINODE).find? fun e => decide ((s.icache e).ref = 0) with
    | some e' =>
      rw [hfree] at hexec
      cases hexec
      have hzero : (s.icache e).ref = 0 := by simpa using List.find?_some hfree
      exact h.take rfl (by simp [hzero])
    | none =>
      rw [hfree] at hexec
      cases hexec

theorem Books.lastRef {Q : Bool → Hold → Prop} {r : Bool} (hwp : lastRefWp e Q (ts t))
    (hexec : s.lastRef t e = .done r s') : ∃ a, Q r a ∧ Books s' (update ts t a) := by
  obtain ⟨hd, htrue, hfalse⟩ := hwp
  unfold DState.lastRef at hexec
  split at hexec
  · split at hexec
    · cases hexec
    next hfree =>
      cases hexec
      have hlocked := h.lock (i := { s.icache e with lock := some t }) (not_not.mp hfree)
        (.inl hd.1) rfl rfl
      exact ⟨_, htrue hlocked.1, hlocked.2⟩
  · cases hexec
    exact ⟨_, hfalse, h.drop hd rfl rfl⟩

theorem Books.fileUnref {Q : Option FileKind → Hold → Prop} {r : Option FileKind}
    (hlent : (ts t).lent = []) (hwp : fileUnrefWp f Q (ts t)) (hexec : s.fileUnref f = .done r s') :
    ∃ a, Q r a ∧ Books s' (update ts t a) := by
  obtain ⟨hmem, hnone, hsome⟩ := hwp
  unfold DState.fileUnref at hexec
  split at hexec
  · cases hexec
  · split at hexec
    · cases hexec
      exact ⟨_, hnone, h.fileUnref_some hlent hmem (by assumption)⟩
    · cases hexec
      exact ⟨_, hsome _, h.fileUnref_last hlent hmem (by omega)⟩

theorem Books.pipecloseOp {Q : Unit → Hold → Prop} {writable : Bool}
    (hmem : (pi, writable) ∈ (ts t).ends) (hQ : Q () ((ts t).dropEnd (pi, writable)))
    (hexec : s.pipeclose pi writable = .done () s') : ∃ a, Q () a ∧ Books s' (update ts t a) := by
  obtain ⟨x, hx, -⟩ := h.end_open hmem
  simp only [DState.pipeclose, hx] at hexec
  refine ⟨_, hQ, ?_⟩
  split at hexec
  next hclosed =>
    cases hexec
    refine h.pipeclose hmem hx (fun w => ?_) nofun
    cases w <;> simp [openCount, PipeEnds.isOpen, hclosed]
  next hopen =>
    cases hexec
    refine h.pipeclose hmem hx (fun w => rfl) fun z hz => ?_
    cases hz
    cases hr : (x.shut writable).readopen with
    | true => exact .inl rfl
    | false =>
      cases hw : (x.shut writable).writeopen with
      | true => exact .inr rfl
      | false => exact absurd ⟨hr, hw⟩ hopen

/-- An operation that a process may perform keeps the books, with what the process has
afterwards. -/
theorem Books.exec {ninodes : Nat} {o : IOp γ} (hwp : iopWp γ o Q (ts t))
    (hexec : DState.exec ninodes t γ o s = .done r s') : ∃ a, Q r a ∧ Books s' (update ts t a) := by
  cases o with
  | enter =>
    simp only [DState.exec] at hexec
    split at hexec
    · cases hexec
      exact ⟨_, hwp.2 _ _, h.enter (by assumption) hwp.1⟩
    · cases hexec
  | myproc | ninodes | inum e =>
    cases hexec
    exact h.stay (hwp _)
  | iget inum => exact ⟨_, hwp r, h.iget hexec⟩
  | idup e =>
    cases hexec
    exact ⟨_, hwp.2, h.take rfl rfl⟩
  | acquiresleep e =>
    simp only [DState.exec, acquiresleep] at hexec
    split at hexec
    · cases hexec
    split at hexec
    · cases hexec
    next hfree =>
      cases hexec
      have hlocked := h.lock (i := { s.icache e with lock := some t }) (not_not.mp hfree) hwp.1
        rfl rfl
      exact ⟨_, hwp.2.2 hlocked.1, hlocked.2⟩
  | valid e | attr e | size e =>
    cases hexec
    exact h.stay (hwp.2 _)
  | load e =>
    cases hexec
    exact h.congr_icache (hwp.2.2 _) rfl rfl
  | iunlock e =>
    simp only [DState.exec] at hexec
    split at hexec
    · cases hexec
    · cases hexec
      exact ⟨_, hwp.2, h.unlock hwp.1 rfl rfl⟩
  | lastRef e =>
    rcases hwp.2 with hwp | ⟨hon, hcwd, hgone, hwp⟩
    · exact h.lastRef hwp hexec
    · -- the reference of the current directory is taken first
      have hleft := h.leave hon hcwd hgone
      obtain ⟨a, hQ, hbooks⟩ := hleft.lastRef (by simpa using hwp) hexec
      rw [update_idem] at hbooks
      exact ⟨a, hQ, hbooks⟩
  | invalidate e =>
    cases hexec
    exact ⟨_, hwp.2, h.unlock hwp.1 rfl rfl⟩
  | deref e =>
    cases hexec
    exact ⟨_, hwp.2, h.drop hwp.1 rfl rfl⟩
  | claim inum type =>
    simp only [DState.exec, claim] at hexec
    split at hexec
    · cases hexec
      exact (h.congr_inode _ _).stay (hwp.2 _)
    · cases hexec
      exact h.stay (hwp.2 _)
  | itrunc e =>
    cases hexec
    exact (h.congr_inode _ _).stay hwp.2.2
  | update e a =>
    cases hexec
    obtain ⟨b, hb, hbooks⟩ := h.congr_icache (i := { s.icache e with attr := a }) hwp.2.2 rfl rfl
    exact ⟨b, hb, hbooks.congr_inode _ _⟩
  | readDirent e k =>
    cases hexec
    exact h.stay (hwp.2.2 _)
  | writeDirent e k de =>
    simp only [DState.exec] at hexec
    split at hexec
    · cases hexec
      exact (h.congr_inode _ _).stay (hwp.2.2 _)
    · cases hexec
      exact h.stay (hwp.2.2 _)
  | cwd =>
    simp only [DState.exec] at hexec
    split at hexec
    next hcwd =>
      cases hexec
      exact h.stay (hwp.2 _ (((h.own t).on hwp.1).2.2.symm.trans hcwd))
    · cases hexec
  | setCwd x =>
    cases hexec
    cases x with
    | some e => exact ⟨_, hwp.2.2.2, h.setCwd_some hwp.1 hwp.2.1 hwp.2.2.1⟩
    | none => exact ⟨_, hwp.2.2, h.setCwd_none hwp.1 hwp.2.1⟩
  | ofile fd =>
    cases hexec
    refine h.stay ?_
    rw [((h.own t).on hwp.1).2.1]
    exact hwp.2
  | setOfile fd x =>
    cases hexec
    cases x with
    | some f =>
      obtain ⟨hon, hhid, hfree, ⟨hmem, hQ⟩ | hQ⟩ := hwp
      · exact ⟨_, hQ, h.setOfile_give hon hhid hfree hmem⟩
      · exact ⟨_, hQ, h.setOfile_early hon hhid hfree f⟩
    | none =>
      obtain ⟨hon, hlent, ⟨hhid, hQ⟩ | ⟨f, hslot, hQ⟩⟩ := hwp
      · exact ⟨_, hQ, h.setOfile_clear hon hlent hhid⟩
      · exact ⟨_, hQ, h.setOfile_take hlent hslot⟩
  | filealloc =>
    simp only [DState.exec, DState.filealloc] at hexec
    cases hfind : (List.finRange NFILE).find? fun f => decide ((s.file f).ref = 0) with
    | some f =>
      rw [hfind] at hexec
      cases hexec
      exact ⟨_, hwp.1 f, h.filealloc (by simpa using List.find?_some hfind)⟩
    | none =>
      rw [hfind] at hexec
      cases hexec
      exact h.stay hwp.2
  | filedup f =>
    simp only [DState.exec] at hexec
    split at hexec
    · cases hexec
    cases hexec
    obtain ⟨hf, hb, hQ | ⟨fd, hhid, htab, hQ⟩⟩ := hwp
    · exact ⟨_, hQ, h.filedup hf hb⟩
    · have hon : (ts t).on = true := by
        cases hoff : (ts t).on with
        | true => rfl
        | false => exact absurd (((h.own t).off hoff).2.1.symm.trans hhid) nofun
      exact ⟨_, hQ, h.filedup_early hf hb hon hhid htab⟩
  | file f =>
    cases hexec
    obtain ⟨⟨fd, hslot⟩, hQ⟩ := hwp
    exact ⟨_, hQ _, h.borrow hslot⟩
  | setFile f kind =>
    cases hexec
    obtain ⟨hb, hwp⟩ := hwp
    cases kind with
    | none => exact hwp.elim
    | pipe pi writable => exact ⟨_, hwp.2, h.setFile_pipe hb hwp.1⟩
    | inode ip | device ip =>
      obtain ⟨hmem, ⟨fd, hslot⟩, hQ⟩ := hwp
      exact ⟨_, hQ, h.setFile_inode hb rfl rfl hmem hslot⟩
  | fileUnref f =>
    obtain ⟨hlent, hwp | ⟨fd, hslot, hhid, hwp⟩⟩ := hwp
    · exact h.fileUnref hlent hwp hexec
    · -- the reference of the descriptor is taken first
      have hleft := h.hide hlent hslot hhid
      have hlent' : (update ts t ((ts t).hide fd f) t).lent = [] := by
        rw [update_self]
        exact hlent
      obtain ⟨a, hQ, hbooks⟩ := hleft.fileUnref (Q := Q) hlent' (by simpa using hwp) hexec
      rw [update_idem] at hbooks
      exact ⟨a, hQ, hbooks⟩
  | pipeNew pi =>
    simp only [DState.exec, DState.pipeNew] at hexec
    cases hpipe : s.pipe pi with
    | none =>
      rw [hpipe] at hexec
      cases hexec
      exact ⟨_, hwp, h.pipeNew hpipe⟩
    | some x =>
      rw [hpipe] at hexec
      cases hexec
  | pipeclose pi writable => exact h.pipecloseOp hwp.1 hwp.2 hexec
  | beginOp =>
    cases hexec
    exact ⟨_, hwp, h.beginOp⟩
  | endOp =>
    cases hexec
    exact ⟨_, hwp.2, h.endOp hwp.1⟩
  | allocproc np =>
    simp only [DState.exec] at hexec
    split at hexec
    · cases hexec
      exact ⟨_, hwp.2.2.2.1, h.allocproc (by assumption)⟩
    · cases hexec
      exact h.stay hwp.2.2.2.2
  | forkOfile np fd f =>
    cases hexec
    obtain ⟨hon, tab, cwd, hchild, hfree, hmem, hb, hQ⟩ := hwp
    exact ⟨_, hQ, h.forkOfile hon hchild hfree hmem hb⟩
  | forkCwd np e =>
    cases hexec
    obtain ⟨hon, tab, hchild, hd, hQ⟩ := hwp
    exact ⟨_, hQ, h.forkCwd hon hchild hd⟩
  | runnable np =>
    cases hexec
    obtain ⟨tab, cwd, hchild, hQ⟩ := hwp
    exact ⟨_, hQ, h.runnable hchild⟩
  | zombie =>
    cases hexec
    obtain ⟨hon, htab, hcwd, hgone, hhid, hchild, hlocks, hQ⟩ := hwp
    exact ⟨_, hQ, h.zombie hon htab hcwd hgone hhid hchild hlocks⟩
  | panic msg => cases hexec

end

theorem Books.panic {ninodes : Nat} {γ : Type} {o : IOp γ} {Q : γ → Hold → Prop} {msg : String}
    (h : Books s ts) (hwp : iopWp γ o Q (ts t))
    (hexec : DState.exec ninodes t γ o s = .panic msg) : msg ∉ countPanics := by
  cases o with
  | iget inum =>
    simp only [DState.exec, DState.iget] at hexec
    split at hexec
    · cases hexec
    · split at hexec
      · cases hexec
      · cases hexec
        decide
  | acquiresleep e =>
    have hpos := h.ref_pos hwp.1
    simp only [DState.exec, acquiresleep] at hexec
    split at hexec
    · omega
    · split at hexec <;> cases hexec
  | iunlock e =>
    have hpos := h.ref_pos ((h.own t).held e hwp.1)
    have hlock := (h.counts.locked e t).mpr hwp.1
    simp only [DState.exec] at hexec
    split at hexec
    next hbad => exact (hbad.elim (fun hne => hne hlock) (by omega)).elim
    · cases hexec
  | filedup f =>
    have hpos := h.file_pos hwp.1
    simp only [DState.exec] at hexec
    split at hexec
    · omega
    · cases hexec
  | fileUnref f =>
    have hpos : 0 < (s.file f).ref := by
      rcases hwp.2 with hwp | ⟨fd, hslot, -, -⟩
      · exact h.file_pos (.inl hwp.1)
      · exact h.file_pos (.inr ⟨fd, hslot⟩)
    simp only [DState.exec, DState.fileUnref] at hexec
    split at hexec
    · omega
    · split at hexec <;> cases hexec
  | pipeclose pi writable =>
    obtain ⟨x, hx, -⟩ := h.end_open hwp.1
    simp only [DState.exec, DState.pipeclose, hx] at hexec
    split at hexec <;> cases hexec
  | panic msg' =>
    cases hexec
    exact hwp
  | enter | writeDirent e k de | cwd | allocproc np =>
    simp only [DState.exec] at hexec
    split at hexec <;> cases hexec
  | lastRef e =>
    simp only [DState.exec, DState.lastRef] at hexec
    split at hexec
    · split at hexec <;> cases hexec
    · cases hexec
  | claim inum type =>
    simp only [DState.exec, claim] at hexec
    split at hexec <;> cases hexec
  | filealloc =>
    simp only [DState.exec, DState.filealloc] at hexec
    split at hexec <;> cases hexec
  | pipeNew pi =>
    simp only [DState.exec, DState.pipeNew] at hexec
    split at hexec <;> cases hexec
  | _ => cases hexec

/-! ## Runs -/

variable {ninodes : Nat} {inode : Nat → DInode} {c : Conf Proc IOp DState}

/-- The machine without any restriction. -/
abbrev freeMachine (ninodes : Nat) : Machine Proc IOp DState :=
  dirMachine ninodes fun _ _ _ _ => True

theorem dirMachine_sound (ninodes : Nat) : Sound (freeMachine ninodes) iopWp Idle Books where
  start := by
    rintro t p a ⟨c, rfl⟩ ha
    refine Prog.wp_seq (Prog.wp_mono iopWp_mono _ (fun _ h hh => ?_) (c.prog_wp ha))
    exact hh
  op := fun hbooks _ hwp hexec => hbooks.exec hwp hexec

theorem count_toList {α : Type} [DecidableEq α] (x : Option α) (a : α) :
    x.toList.count a = if x = some a then 1 else 0 := by
  cases x with
  | none => simp
  | some b => by_cases h : b = a <;> simp [h]

/-- Nobody has anything after boot but the current directory of the first process. -/
theorem books_boot (inode : Nat → DInode) : Books (boot inode) fun _ => Hold.empty where
  counts := {
    inodes := by
      intro e
      rw [Fintype.sum_sum_type, Fintype.sum_sum_type]
      have hcwd : ∑ p : Proc, ((boot inode).cwd p).toList.count e = if e = 0 then 1 else 0 := by
        rw [Finset.sum_eq_single (0 : Proc) (fun p _ hp => by simp [boot, hp]) (by simp),
          count_toList]
        simp [boot, eq_comm]
      simpa [boot, inodeRefs, Hold.empty, ips] using hcwd.symm
    files := by
      intro f
      simp [boot, fileRefs, Hold.empty]
    ends := by
      intro x
      simp [boot, endRefs, Hold.empty, DState.endCount, openCount, FileKind.ends]
    ops := by
      intro x
      simp [boot, Hold.empty]
    locked := by
      intro e t
      simp [boot, Hold.empty] }
  own := fun t => {
    held := by simp [Hold.empty]
    lent := by simp [Hold.empty]
    blank := by simp [Hold.empty]
    nodup := List.nodup_nil
    on := nofun
    off := fun _ => ⟨rfl, rfl, rfl⟩
    child := nofun }
  tables := {
    closed := fun _ _ => rfl
    pages := nofun
    unused := by
      intro p hp
      refine ⟨fun _ => rfl, ?_⟩
      by_cases h0 : p = 0
      · simp [boot, h0] at hp
      · simp [boot, h0] }
  oneChild := nofun

theorem typed_boot (inode : Nat → DInode) :
    ∃ ts, Typed iopWp Idle Books (.idle (boot inode)) ts :=
  ⟨_, Pool.typed_idle (books_boot inode) fun _ => ⟨⟨rfl, rfl, rfl, rfl, rfl, rfl, rfl, rfl⟩, rfl⟩⟩

theorem exists_books (hc : Reach (freeMachine ninodes) (.idle (boot inode)) c) :
    ∃ ts, Typed iopWp Idle Books c ts :=
  hc.typed (dirMachine_sound ninodes) (typed_boot inode)

def Quiet (c : Conf Proc IOp DState) : Prop := ∀ t, c.prog t = .pure ()

/-- While no call is in progress, nobody has anything outside the tables. -/
theorem exists_idle_books (hc : Reach (freeMachine ninodes) (.idle (boot inode)) c)
    (hquiet : Quiet c) : ∃ ts, Books c.st ts ∧ ∀ t, (ts t).Idle := by
  obtain ⟨ts, hts⟩ := exists_books hc
  refine ⟨ts, hts.good, fun t => ?_⟩
  have hdone := hts.wp t
  rw [hquiet t] at hdone
  exact hdone

theorem count_ips (e : Fin NINODE) :
    kind.ips.count e = if kind = .inode e ∨ kind = .device e then 1 else 0 := by
  cases kind with
  | none | pipe pi writable => simp [ips]
  | inode ip | device ip => by_cases h : ip = e <;> simp [ips, h]

theorem count_ends (pi : Nat) (writable : Bool) :
    kind.ends.count (pi, writable) = if kind = .pipe pi writable then 1 else 0 := by
  cases kind with
  | pipe pi' writable' =>
    by_cases h : (pi', writable') = (pi, writable)
    · cases h
      simp [FileKind.ends]
    have hne : FileKind.pipe pi' writable' ≠ .pipe pi writable := by
      intro heq
      cases heq
      exact h rfl
    rw [if_neg hne]
    simp only [FileKind.ends]
    rw [List.count_cons_of_ne h, List.count_nil]
  | none | inode ip | device ip => simp [FileKind.ends]

/-- The open files of an inode: those with a reference that are that inode or that device. -/
def DState.inodeFiles (s : DState) (e : Fin NINODE) : Finset (Fin NFILE) :=
  univ.filter fun f =>
    0 < (s.file f).ref ∧ ((s.file f).kind = .inode e ∨ (s.file f).kind = .device e)

/-- The processes whose current directory an inode is. -/
def DState.inodeCwds (s : DState) (e : Fin NINODE) : Finset Proc :=
  univ.filter fun p => s.cwd p = some e

def DState.descriptors (s : DState) (f : Fin NFILE) : Finset (Proc × Fin NOFILE) :=
  univ.filter fun x => s.ofile x.1 x.2 = some f

section
variable (h : Books s ts)
include h

theorem Books.file_ref_pos (hkind : (s.file f).kind ≠ .none) : 0 < (s.file f).ref := by
  apply Nat.pos_of_ne_zero
  exact fun hzero => hkind (h.tables.closed f hzero)

theorem Books.inode_ref (hidle : ∀ t, (ts t).Idle) (e : Fin NINODE) :
    (s.icache e).ref = (s.inodeFiles e).card + (s.inodeCwds e).card := by
  have hsum := h.counts.inodes e
  rw [Fintype.sum_sum_type, Fintype.sum_sum_type] at hsum
  have hthreads : ∑ t, (inodeRefs s ts (.inl t)).count e = 0 := by
    refine sum_eq_zero fun t _ => ?_
    simp [inodeRefs, (hidle t).refs]
  have hfiles : ∑ f, (inodeRefs s ts (.inr (.inl f))).count e = (s.inodeFiles e).card := by
    rw [DState.inodeFiles, card_filter]
    refine sum_congr rfl fun f _ => ?_
    rw [inodeRefs, count_ips]
    refine if_congr ⟨fun hkind => ⟨h.file_ref_pos ?_, hkind⟩, And.right⟩ rfl rfl
    rcases hkind with hkind | hkind <;> simp [hkind]
  have hcwds : ∑ p, (inodeRefs s ts (.inr (.inr p))).count e = (s.inodeCwds e).card := by
    rw [DState.inodeCwds, card_filter]
    refine sum_congr rfl fun p _ => ?_
    simp only [inodeRefs, (hidle p).gone, Bool.false_eq_true, if_false]
    exact count_toList _ _
  rw [hthreads, hfiles, hcwds, Nat.zero_add] at hsum
  exact hsum

theorem Books.file_ref (hidle : ∀ t, (ts t).Idle) (f : Fin NFILE) :
    (s.file f).ref = (s.descriptors f).card := by
  have hsum := h.counts.files f
  rw [Fintype.sum_sum_type] at hsum
  have hthreads : ∑ t, (fileRefs s ts (.inl t)).count f = 0 := by
    refine sum_eq_zero fun t _ => ?_
    simp [fileRefs, (hidle t).files]
  have hslots : ∑ x, (fileRefs s ts (.inr x)).count f = (s.descriptors f).card := by
    rw [DState.descriptors, card_filter]
    refine sum_congr rfl fun x _ => ?_
    simp only [fileRefs, (hidle x.1).hidden, reduceCtorEq, if_false]
    exact count_toList _ _
  rw [hthreads, hslots, Nat.zero_add] at hsum
  exact hsum

/-- An end of a pipe that no process has is open exactly if an open file is that end. -/
theorem Books.end_open_iff {x : PipeEnds} (hx : s.pipe pi = some x)
    (writable : Bool) (hidle : ∀ t, (ts t).ends = []) :
    x.isOpen writable = true ↔ ∃ f, 0 < (s.file f).ref ∧ (s.file f).kind = .pipe pi writable := by
  have hsum : openCount (s.pipe pi) writable = _ := h.counts.ends (pi, writable)
  rw [hx, Fintype.sum_sum_type] at hsum
  have hthreads : ∑ t, (endRefs s ts (.inl t)).count (pi, writable) = 0 := by
    refine sum_eq_zero fun t _ => ?_
    simp [endRefs, hidle t]
  rw [hthreads, Nat.zero_add] at hsum
  constructor
  · intro hopen
    simp only [openCount, hopen, if_true] at hsum
    obtain ⟨f, -, hf⟩ := Finset.exists_ne_zero_of_sum_ne_zero (by rw [← hsum]; exact Nat.one_ne_zero)
    rw [endRefs, count_ends] at hf
    have hkind : (s.file f).kind = .pipe pi writable := by
      by_contra hne
      exact hf (if_neg hne)
    exact ⟨f, h.file_ref_pos (by simp [hkind]), hkind⟩
  · rintro ⟨f, -, hkind⟩
    have hmem : (pi, writable) ∈ endRefs s ts (.inr f) := by simp [endRefs, hkind, FileKind.ends]
    have hpos : 0 < openCount (s.pipe pi) writable :=
      RefCounted.pos (a := (pi, writable)) h.counts.ends hmem
    rw [hx] at hpos
    by_contra hclosed
    simp [openCount, hclosed] at hpos

end

/-! ## References to inodes -/

/-- While no call is in progress, the count of every in-memory inode is the number of open files and
current directories that it is, every lock is free, and every operation has ended. -/
theorem inode_refs_exact (ninodes : Nat) (inode : Nat → DInode)
    (hc : Reach (freeMachine ninodes) (.idle (boot inode)) c) (hquiet : Quiet c) :
    (∀ e, (c.st.icache e).ref = (c.st.inodeFiles e).card + (c.st.inodeCwds e).card) ∧
      (∀ e, (c.st.icache e).lock = none) ∧ c.st.outstanding = 0 := by
  obtain ⟨ts, hbooks, hidle⟩ := exists_idle_books hc hquiet
  refine ⟨hbooks.inode_ref hidle, fun e => ?_, ?_⟩
  · cases hlock : (c.st.icache e).lock with
    | none => rfl
    | some t =>
      have hmem := (hbooks.counts.locked e t).mp hlock
      rw [(hidle t).locks] at hmem
      exact absurd hmem (Finset.notMem_empty e)
  · have hops : c.st.outstanding = ∑ t, (ts t).ops.count () := hbooks.counts.ops ()
    rw [hops]
    refine sum_eq_zero fun t _ => ?_
    rw [(hidle t).ops]
    rfl

/-- A disk with an empty root directory. -/
def rootOnly (i : Nat) : DInode :=
  if i = ROOTINO then ⟨⟨T_DIR, 0, 0, 1⟩, [⟨1, dot⟩, ⟨1, dotdot⟩]⟩ else ⟨⟨0, 0, 0, 0⟩, []⟩

/-- The first process makes calls, one after the other, with `n` steps for each. -/
def calling (n : Nat) (calls : List Call) : Conf Proc IOp DState :=
  (Conf.idle (boot rootOnly)).sched (freeMachine 10).exec (fun _ _ _ _ => true)
    (calls.flatMap fun call => (0, .start (call.prog >>= fun _ => .pure ())) ::
      List.replicate n (0, .go))

theorem calling_reach :
    Reach (freeMachine 10) (.idle (boot rootOnly)) (calling n calls) := by
  apply Reach.sched _ (fun _ _ _ _ _ => trivial) .refl
  intro t p hp
  obtain ⟨call, -, hp⟩ := List.mem_flatMap.mp hp
  rcases List.mem_cons.mp hp with hp | hp
  · cases hp
    exact ⟨call, rfl⟩
  · cases List.eq_of_mem_replicate hp

theorem calling_quiet (hdone : (calling n calls).prog 0 = .pure ()) : Quiet (calling n calls) := by
  intro t
  by_cases ht : t = 0
  · subst ht
    exact hdone
  refine Conf.sched_prog_of_not_mem _ _ _ fun a ha heq => ?_
  obtain ⟨call, -, ha⟩ := List.mem_flatMap.mp ha
  rcases List.mem_cons.mp ha with rfl | ha
  · exact ht heq.symm
  · rw [List.eq_of_mem_replicate ha] at heq
    exact ht heq.symm

/-- The root directory is opened, and it is a current directory. -/
def openRoot : List Call := [.open (some [47]) O_RDONLY]

theorem inode_refs_exact_openRoot :
    ((calling 30 openRoot).st.icache 0).ref = 2 ∧ ((calling 30 openRoot).st.icache 0).ref =
      ((calling 30 openRoot).st.inodeFiles 0).card + ((calling 30 openRoot).st.inodeCwds 0).card :=
  ⟨by decide +kernel,
    (inode_refs_exact 10 rootOnly (calling_reach 30 openRoot) (calling_quiet 30 openRoot rfl)).1 0⟩

end Xv6.Dir
