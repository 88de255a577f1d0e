import Xv6.Dir.Hold

/-!
# System calls keep the discipline

The code of every call asks only for what the process has, and leaves nothing behind.
-/

namespace Xv6.Dir

open Prog (wp_seq wp_mono wp lift)
open Hold
open Function (update update_self update_of_ne)
open List (mem_cons_self mem_cons_of_mem erase_cons_head finRange)

variable {h : Hold} {e : Fin NINODE} {f : Fin NFILE} {Q : Unit → Hold → Prop} (a : Attr)
  (f0 f1 : Fin NFILE) (fs : List (Fin NFILE)) (type : BitVec 16)

theorem lastRefWp_mono {P Q : Bool → Hold → Prop}
    (hPQ : ∀ b h', P b h' → Q b h') (hP : lastRefWp e P h) : lastRefWp e Q h :=
  ⟨hP.1, fun hl => hPQ _ _ (hP.2.1 hl), hPQ _ _ hP.2.2⟩

theorem fileUnrefWp_mono {P Q : Option FileKind → Hold → Prop}
    (hPQ : ∀ b h', P b h' → Q b h') (hP : fileUnrefWp f P h) : fileUnrefWp f Q h :=
  ⟨hP.1, hPQ _ _ hP.2.1, fun kind => hPQ _ _ (hP.2.2 kind)⟩

theorem setFileWp_mono {P : Unit → Hold → Prop} {kind : FileKind}
    (hPQ : ∀ b h', P b h' → Q b h') (hP : setFileWp f P h kind) : setFileWp f Q h kind := by
  cases kind with
  | none => exact hP
  | pipe pi writable => exact ⟨hP.1, hPQ _ _ hP.2⟩
  | inode ip | device ip => exact ⟨hP.1, hP.2.1, hPQ _ _ hP.2.2⟩

theorem iopWp_mono : Prog.Mono iopWp := by
  intro γ o P Q h hPQ hP
  cases o with
  | enter => exact ⟨hP.1, fun tab cwd => hPQ _ _ (hP.2 tab cwd)⟩
  | myproc => exact fun p => hPQ _ _ (hP p)
  | iget inum => exact fun e => hPQ _ _ (hP e)
  | idup e | iunlock e | invalidate e | deref e | ofile fd | pipeclose pi writable | endOp =>
    exact ⟨hP.1, hPQ _ _ hP.2⟩
  | acquiresleep e => exact ⟨hP.1, hP.2.1, fun hl => hPQ _ _ (hP.2.2 hl)⟩
  | valid e | claim inum type => exact ⟨hP.1, fun b => hPQ _ _ (hP.2 b)⟩
  | load e => exact ⟨hP.1, hP.2.1, fun type => hPQ _ _ (hP.2.2 type)⟩
  | lastRef e =>
    refine ⟨hP.1, hP.2.imp (lastRefWp_mono hPQ) fun h => ?_⟩
    exact ⟨h.1, h.2.1, h.2.2.1, lastRefWp_mono hPQ h.2.2.2⟩
  | ninodes | inum e => exact fun n => hPQ _ _ (hP n)
  | itrunc e | update e a => exact ⟨hP.1, hP.2.1, hPQ _ _ hP.2.2⟩
  | attr e => exact ⟨hP.1, fun a => hPQ _ _ (hP.2 a)⟩
  | size e => exact ⟨hP.1, fun n => hPQ _ _ (hP.2 n)⟩
  | readDirent e k => exact ⟨hP.1, hP.2.1, fun de => hPQ _ _ (hP.2.2 de)⟩
  | writeDirent e k de => exact ⟨hP.1, hP.2.1, fun b => hPQ _ _ (hP.2.2 b)⟩
  | cwd => exact ⟨hP.1, fun e he => hPQ _ _ (hP.2 e he)⟩
  | setCwd e =>
    cases e with
    | none => exact ⟨hP.1, hP.2.1, hPQ _ _ hP.2.2⟩
    | some e => exact ⟨hP.1, hP.2.1, hP.2.2.1, hPQ _ _ hP.2.2.2⟩
  | setOfile fd f =>
    cases f with
    | none =>
      refine ⟨hP.1, hP.2.1, hP.2.2.imp (fun h => ⟨h.1, hPQ _ _ h.2⟩) fun h => ?_⟩
      exact h.imp fun f hf => ⟨hf.1, hPQ _ _ hf.2⟩
    | some f => exact ⟨hP.1, hP.2.1, hP.2.2.1, hP.2.2.2.imp (fun h => ⟨h.1, hPQ _ _ h.2⟩) (hPQ _ _)⟩
  | filealloc => exact ⟨fun f => hPQ _ _ (hP.1 f), hPQ _ _ hP.2⟩
  | filedup f =>
    refine ⟨hP.1, hP.2.1, hP.2.2.imp (hPQ _ _) fun h => ?_⟩
    exact h.imp fun fd hfd => ⟨hfd.1, hfd.2.1, hPQ _ _ hfd.2.2⟩
  | file f => exact ⟨hP.1, fun kind => hPQ _ _ (hP.2 kind)⟩
  | setFile f kind => exact ⟨hP.1, setFileWp_mono hPQ hP.2⟩
  | fileUnref f =>
    refine ⟨hP.1, hP.2.imp (fileUnrefWp_mono hPQ) fun h => ?_⟩
    exact h.imp fun fd hfd => ⟨hfd.1, hfd.2.1, fileUnrefWp_mono hPQ hfd.2.2⟩
  | pipeNew pi | beginOp => exact hPQ _ _ hP
  | allocproc np => exact ⟨hP.1, hP.2.1, hP.2.2.1, hPQ _ _ hP.2.2.2.1, hPQ _ _ hP.2.2.2.2⟩
  | forkOfile np fd f =>
    obtain ⟨hon, tab, cwd, hc, ht, hf, hb, hQ⟩ := hP
    exact ⟨hon, tab, cwd, hc, ht, hf, hb, hPQ _ _ hQ⟩
  | forkCwd np e =>
    obtain ⟨hon, tab, hc, hd, hQ⟩ := hP
    exact ⟨hon, tab, hc, hd, hPQ _ _ hQ⟩
  | runnable np =>
    obtain ⟨tab, cwd, hc, hQ⟩ := hP
    exact ⟨tab, cwd, hc, hPQ _ _ hQ⟩
  | zombie =>
    obtain ⟨hon, htab, hcwd, hgone, hhid, hch, hl, hQ⟩ := hP
    exact ⟨hon, htab, hcwd, hgone, hhid, hch, hl, hPQ _ _ hQ⟩
  | panic msg => exact hP

/-- A program may panic, as long as it does not complain of a count. -/
theorem wp_panic {α : Type} {Q : α → Hold → Prop} {msg : String}
    (hmsg : msg ∉ countPanics) : (IProg.panic msg : IProg α).wp iopWp Q h :=
  hmsg

/-! ## How the changes combine -/

namespace Hold

variable {e' : Fin NINODE}

@[simp] theorem take_drop : (h.take e).drop e = h := by simp [take, drop]

@[simp] theorem newFile_dropFile : (h.newFile f).dropFile f = h := by simp [newFile, dropFile]

@[simp] theorem beginOp_endOp : h.beginOp.endOp = h := by simp [beginOp, endOp]

theorem lock_unlock (he : e ∉ h.locks) : (h.lock e).unlock e = h := by
  simp [lock, unlock, Finset.erase_insert he]

theorem mem_lock : e ∈ (h.lock e).locks := Finset.mem_insert_self ..

theorem has_take : (h.take e).Has e := .inl (mem_cons_self ..)

theorem Has.take (hh : h.Has e) : (h.take e').Has e := hh.imp_left (mem_cons_of_mem _)

theorem Droppable.held (hd : h.Droppable e) (hh : h.Has e') (he' : e' ∈ h.locks) :
    (h.drop e).Has e' := by
  by_cases heq : e' = e
  · subst heq
    exact hd.2 he'
  · exact hh.imp_left (List.mem_erase_of_ne heq).mpr

theorem droppable_take (hh : e ∈ h.locks → h.Has e) : (h.take e).Droppable e := by
  refine ⟨mem_cons_self .., fun hl => ?_⟩
  rw [take_drop]
  exact hh hl

theorem swap (hl : e ∉ h.locks) : ((((h.take e).lock e).take e').unlock e).drop e = h.take e' := by
  have hrefs : (e' :: e :: h.refs).erase e = e' :: h.refs := by
    by_cases he : e' = e
    · subst he
      exact erase_cons_head ..
    · rw [List.erase_cons_tail (by simpa using he), erase_cons_head]
  simp [take, lock, unlock, drop, Finset.erase_insert hl, hrefs]

theorem swap_lock (hl : e ∉ h.locks) (hl' : e' ∉ ((h.take e).lock e).locks) :
    (((((h.take e).lock e).take e').lock e').unlock e).drop e = (h.take e').lock e' := by
  have hne : e' ≠ e := by
    rintro rfl
    exact hl' (Finset.mem_insert_self ..)
  have hrefs : (e' :: e :: h.refs).erase e = e' :: h.refs := by
    rw [List.erase_cons_tail (by simpa using hne), erase_cons_head]
  simp [take, lock, unlock, drop, hrefs, Finset.erase_insert_of_ne hne, Finset.erase_insert hl]

end Hold

/-! ## Inodes -/

theorem wp_freeInode (hl : e ∈ h.locks) (hc : h.child = none) (hQ : Q () (h.unlock e)) :
    (freeInode e).wp iopWp Q h :=
  ⟨hl, hc, hl, fun _ => ⟨hl, hc, hl, hQ⟩⟩

theorem wp_iput (hd : h.Droppable e) (hc : h.child = none) (hQ : Q () (h.drop e)) :
    (iput e).wp iopWp Q h := by
  refine ⟨hc, .inl ⟨hd, fun hl => ?_, hQ⟩⟩
  -- the inode is freed under its lock, which is then given up
  refine wp_seq (wp_freeInode mem_lock hc ?_)
  rw [lock_unlock hl]
  exact ⟨hd, hQ⟩

theorem wp_iput_cwd (hon : h.on = true) (hcwd : h.cwd = some e) (hgone : h.gone = false)
    (hl : e ∉ h.locks) (hc : h.child = none) (hQ : Q () { h with gone := true }) :
    (iput e).wp iopWp Q h := by
  have hd : (h.leave e).Droppable e := ⟨mem_cons_self .., fun h => absurd h hl⟩
  have hdrop : (h.leave e).drop e = { h with gone := true } := by simp [leave, drop]
  refine ⟨hc, .inr ⟨hon, hcwd, hgone, hd, fun hl' => ?_, ?_⟩⟩
  · refine wp_seq (wp_freeInode mem_lock hc ?_)
    rw [lock_unlock hl']
    refine ⟨hd, ?_⟩
    rw [hdrop]
    exact hQ
  · rw [hdrop]
    exact hQ

theorem wp_ilock (hh : h.Has e) (hc : h.child = none) (hQ : e ∉ h.locks → Q () (h.lock e)) :
    (ilock e).wp iopWp Q h := by
  refine ⟨hh, hc, fun hl => ⟨mem_lock, fun b => ?_⟩⟩
  cases b with
  | true => exact hQ hl
  | false =>
    refine ⟨mem_lock, hc, fun type => ?_⟩
    by_cases htype : type = 0
    · subst htype
      exact wp_panic (by decide)
    · show wp iopWp (if type = 0 then _ else _) Q _
      rw [if_neg htype]
      exact hQ hl

theorem wp_iunlockput (hl : e ∈ h.locks) (hmem : e ∈ h.refs) (hc : h.child = none)
    (hQ : Q () ((h.unlock e).drop e)) : (iunlockput e).wp iopWp Q h := by
  refine ⟨hl, wp_iput ⟨hmem, fun hl' => ?_⟩ hc hQ⟩
  exact absurd hl' (Finset.notMem_erase e h.locks)

theorem wp_iallocFrom {Q : Fin NINODE → Hold → Prop} (hc : h.child = none)
    (hQ : ∀ e, Q e (h.take e)) (l : List Nat) : (iallocFrom type l).wp iopWp Q h := by
  induction l with
  | nil => exact wp_panic (by decide)
  | cons inum rest ih =>
    refine ⟨hc, fun b => ?_⟩
    cases b with
    | true => exact hQ
    | false => exact ih

theorem wp_ialloc {Q : Fin NINODE → Hold → Prop} (hc : h.child = none)
    (hQ : ∀ e, Q e (h.take e)) : (ialloc type).wp iopWp Q h :=
  fun _ => wp_iallocFrom type hc hQ _

/-! ## Directories and paths -/

theorem wp_dirlookupFrom {Q : Option (Fin NINODE × Nat) → Hold → Prop} (name : CString)
    (hl : e ∈ h.locks) (hc : h.child = none) (hnone : Q none h)
    (hsome : ∀ ip k, Q (some (ip, k)) (h.take ip)) (fuel k : Nat) :
    (dirlookupFrom e name fuel k).wp iopWp Q h := by
  induction fuel generalizing k with
  | zero => exact hnone
  | succ fuel ih =>
    refine ⟨hl, hc, fun de => ?_⟩
    cases de with
    | none => exact wp_panic (by decide)
    | some de =>
      show wp iopWp (if _ then _ else _) Q h
      split
      · exact fun ip => hsome ip k
      · exact ih (k + 1)

theorem wp_dirlookup {Q : Option (Fin NINODE × Nat) → Hold → Prop} (name : CString)
    (hl : e ∈ h.locks) (hc : h.child = none) (hnone : Q none h)
    (hsome : ∀ ip k, Q (some (ip, k)) (h.take ip)) : (dirlookup e name).wp iopWp Q h := by
  refine ⟨hl, fun a => ?_⟩
  show wp iopWp (if _ then _ else _) Q h
  split
  · exact wp_panic (by decide)
  · exact ⟨hl, fun n => wp_dirlookupFrom name hl hc hnone hsome n 0⟩

theorem wp_emptyDirent {Q : Nat → Hold → Prop} (hl : e ∈ h.locks) (hc : h.child = none)
    (hQ : ∀ k, Q k h) (fuel k : Nat) : (emptyDirent e fuel k).wp iopWp Q h := by
  induction fuel generalizing k with
  | zero => exact hQ k
  | succ fuel ih =>
    refine ⟨hl, hc, fun de => ?_⟩
    cases de with
    | none => exact wp_panic (by decide)
    | some de =>
      show wp iopWp (if _ then _ else _) Q h
      split
      · exact hQ k
      · exact ih (k + 1)

section
variable (hcover : ∀ e ∈ h.locks, h.Has e) (hc : h.child = none) (parent : Bool) (name : CString)
include hcover hc

/-- `dirlink` drops the reference that it has looked up, which may be to the directory itself. -/
theorem wp_dirlink {Q : Bool → Hold → Prop} (inum : Nat) (hl : e ∈ h.locks) (hQ : ∀ b, Q b h) :
    (dirlink e name inum).wp iopWp Q h := by
  refine wp_seq (wp_dirlookup name hl hc ?_ fun ip k => ?_)
  · refine ⟨hl, fun n => ?_⟩
    show wp iopWp (emptyDirent e n 0 >>= _) Q h
    refine wp_seq (wp_emptyDirent hl hc (fun k => ⟨hl, hc, fun b => ?_⟩) n 0)
    cases b with
    | true => exact hQ true
    | false => exact wp_panic (by decide)
  · refine wp_seq (wp_iput (droppable_take (hcover ip)) hc ?_)
    rw [take_drop]
    exact hQ false

variable {Q : Option (Fin NINODE × CString) → Hold → Prop}

theorem wp_namexEnd (hnone : Q none h) (hsome : ∀ ip name, Q (some (ip, name)) (h.take ip))
    (ip : Fin NINODE) : (namexEnd parent ip name).wp iopWp Q (h.take ip) := by
  cases parent with
  | true =>
    refine wp_seq (wp_iput (droppable_take (hcover ip)) hc ?_)
    rw [take_drop]
    exact hnone
  | false => exact hsome ip name

theorem wp_namexFrom (hnone : Q none h)
    (hsome : ∀ ip name, Q (some (ip, name)) (h.take ip)) (fuel : Nat) (ip : Fin NINODE)
    (name path : CString) : (namexFrom parent fuel ip name path).wp iopWp Q (h.take ip) := by
  induction fuel generalizing ip name path with
  | zero => exact wp_namexEnd hcover hc parent name hnone hsome ip
  | succ fuel ih =>
    unfold namexFrom
    cases hskip : skipelem path with
    | none => exact wp_namexEnd hcover hc parent name hnone hsome ip
    | some r =>
      obtain ⟨name, path⟩ := r
      refine wp_seq (wp_ilock has_take hc fun hl => ⟨mem_lock, fun a => ?_⟩)
      -- giving up the inode leaves what there was before the walk
      have hput {β : Type} {k : Unit → IProg β} {R : β → Hold → Prop} {h' : Hold}
          (hh' : h' = (h.take ip).lock ip) (hk : (k ()).wp iopWp R h) :
          (iunlockput ip >>= k).wp iopWp R h' := by
        subst hh'
        refine wp_seq (wp_iunlockput mem_lock (mem_cons_self ..) hc ?_)
        rw [lock_unlock hl, take_drop]
        exact hk
      show wp iopWp (if _ then _ else _) Q _
      split
      · exact hput rfl hnone
      split
      · refine ⟨mem_lock, ?_⟩
        rw [lock_unlock hl]
        exact hsome ip name
      refine wp_seq (wp_dirlookup name mem_lock hc ?_ fun next k => ?_)
      · exact hput rfl hnone
      · -- the entry that was found is held while the directory is given up
        refine wp_seq (wp_iunlockput mem_lock (mem_cons_of_mem _ (mem_cons_self ..)) hc ?_)
        rw [swap (h := h) hl]
        exact ih next name path

theorem wp_namex (path : CString) (parent : Bool) (hon : h.on = true) (hgone : h.gone = false)
    (hnone : Q none h) (hsome : ∀ ip name, Q (some (ip, name)) (h.take ip)) :
    (namex path parent).wp iopWp Q h := by
  unfold namex namexStart
  split
  · exact fun ip => wp_namexFrom hcover hc parent hnone hsome _ ip [] path
  · refine ⟨hon, fun ip hcwd => ⟨.inr ⟨hon, hcwd, hgone⟩, ?_⟩⟩
    exact wp_namexFrom hcover hc parent hnone hsome _ ip [] path

end

theorem wp_namei {Q : Option (Fin NINODE) → Hold → Prop} (path : CString) (hon : h.on = true)
    (hgone : h.gone = false) (hcover : ∀ e ∈ h.locks, h.Has e) (hc : h.child = none)
    (hnone : Q none h) (hsome : ∀ ip, Q (some ip) (h.take ip)) : (namei path).wp iopWp Q h :=
  wp_seq (wp_namex hcover hc path false hon hgone hnone fun ip _ => hsome ip)

/-! ## Files -/

theorem wp_fdallocFrom {Q : Option (Fin NOFILE) → Hold → Prop} (hon : h.on = true)
    (hnone : Q none h)
    (hset : ∀ fd, h.tab fd = none → iopWp _ (.setOfile fd (some f)) (fun _ => Q (some fd)) h)
    (fds : List (Fin NOFILE)) : (fdallocFrom f fds).wp iopWp Q h := by
  induction fds with
  | nil => exact hnone
  | cons fd fds ih =>
    refine ⟨hon, ?_⟩
    cases htab : h.tab fd with
    | none => exact hset fd htab
    | some f' => exact ih

theorem wp_argfd {Q : Option (Fin NOFILE × Fin NFILE) → Hold → Prop} (fd : Int) (hon : h.on = true)
    (hnone : Q none h) (hsome : ∀ fd f, h.tab fd = some f → Q (some (fd, f)) h) :
    (argfd fd).wp iopWp Q h := by
  unfold argfd
  split
  · refine ⟨hon, ?_⟩
    cases htab : h.tab _ with
    | none => exact hnone
    | some f => exact hsome _ f htab
  · exact hnone

section
variable (hf : f ∈ h.files) (hcover : ∀ e ∈ h.locks, h.Has e) (hc : h.child = none)
  (hQ : Q () (h.dropFile f)) (hlent : h.lent = [])
include hf hcover hc hQ hlent

omit hlent in
theorem fileUnrefWp_close : fileUnrefWp f (fun r => (fileRelease r).wp iopWp Q) h := by
  have hput (ip : Fin NINODE) : (fileRelease (some (.inode ip))).wp iopWp Q
      ((h.dropFile f).take ip) := by
    refine wp_seq (wp_iput (h := (h.dropFile f).beginOp.take ip) (droppable_take (hcover ip)) hc ?_)
    refine ⟨mem_cons_self .., ?_⟩
    rw [take_drop, beginOp_endOp]
    exact hQ
  refine ⟨hf, hQ, fun kind => ?_⟩
  cases kind with
  | none => exact hQ
  | pipe pi writable =>
    refine ⟨mem_cons_self .., ?_⟩
    have hend : ((h.dropFile f).gain (.pipe pi writable)).dropEnd (pi, writable) = h.dropFile f := by
      simp [gain, dropEnd, FileKind.ends, FileKind.ips]
    rw [hend]
    exact hQ
  | inode ip | device ip => exact hput ip

theorem wp_fileclose : (fileclose f).wp iopWp Q h :=
  ⟨hlent, .inl (fileUnrefWp_close hf hcover hc hQ)⟩

omit hf hQ in
/-- `fileclose` of a file that still stands in the table of descriptors. -/
theorem wp_fileclose_slot {fd : Fin NOFILE} (hf : h.Slot fd f)
    (hhid : h.hidden = none) (hQ : Q () ((h.hide fd f).dropFile f)) :
    (fileclose f).wp iopWp Q h := by
  refine ⟨hlent, .inr ⟨fd, hf, hhid, ?_⟩⟩
  exact fileUnrefWp_close (mem_cons_self ..) hcover hc hQ

end

/-! ## The calls -/

/-- A process that runs a call and has nothing outside the tables. -/
structure Hold.Entered (h : Hold) : Prop where
  clear : h.Clear
  on : h.on = true
  lent : h.lent = []

/-- The same, within a file-system operation. -/
structure Hold.InOp (h : Hold) : Prop extends h.Entered where
  ops : h.ops = [()]

namespace Hold.Entered

variable (hh : h.Entered) (path : CString)
include hh

theorem idle (hops : h.ops = []) : h.Idle := ⟨hh.clear, hops⟩

theorem beginOp (hops : h.ops = []) : h.beginOp.InOp := by
  refine ⟨⟨{ hh.clear with }, hh.on, hh.lent⟩, ?_⟩
  simp [Hold.beginOp, hops]

theorem wp_op {β : Type} {k : Unit → IProg β} {Q : β → Hold → Prop} (hops : h.ops = [])
    (hk : ∀ h' : Hold, h'.InOp → (k ()).wp iopWp Q h') : (lift .beginOp >>= k).wp iopWp Q h :=
  hk _ (hh.beginOp hops)

theorem cover : ∀ e ∈ h.locks, h.Has e := by
  rw [hh.clear.locks]
  exact fun e he => absurd he (Finset.notMem_empty e)

theorem notMem (e : Fin NINODE) : e ∉ h.locks := by
  rw [hh.clear.locks]
  exact Finset.notMem_empty e

theorem cover_lock (e : Fin NINODE) : ∀ e' ∈ ((h.take e).lock e).locks, ((h.take e).lock e).Has e' := by
  intro e' he'
  rcases Finset.mem_insert.mp he' with rfl | he'
  · exact has_take
  · exact absurd he' (hh.notMem e')

theorem wp_namei {Q : Option (Fin NINODE) → Hold → Prop} (hnone : Q none h)
    (hsome : ∀ ip, Q (some ip) (h.take ip)) : (namei path).wp iopWp Q h :=
  Dir.wp_namei path hh.on hh.clear.gone hh.cover hh.clear.child hnone hsome

theorem wp_nameiparent {Q : Option (Fin NINODE × CString) → Hold → Prop} (hnone : Q none h)
    (hsome : ∀ ip name, Q (some (ip, name)) (h.take ip)) : (nameiparent path).wp iopWp Q h :=
  wp_namex hh.cover hh.clear.child path true hh.on hh.clear.gone hnone hsome

theorem wp_ilock (hQ : Q () ((h.take e).lock e)) : (ilock e).wp iopWp Q (h.take e) :=
  Dir.wp_ilock has_take hh.clear.child fun _ => hQ

theorem wp_iunlockput (hQ : Q () h) : (iunlockput e).wp iopWp Q ((h.take e).lock e) := by
  refine Dir.wp_iunlockput mem_lock (mem_cons_self ..) hh.clear.child ?_
  rw [lock_unlock (h := h.take e) (hh.notMem e), take_drop]
  exact hQ

theorem wp_iunlock (hQ : Q () (h.take e)) : iopWp _ (.iunlock e) Q ((h.take e).lock e) := by
  refine ⟨mem_lock, ?_⟩
  rw [lock_unlock (h := h.take e) (hh.notMem e)]
  exact hQ

end Hold.Entered

namespace Hold.InOp

variable (hh : h.InOp)
include hh

theorem endOp_idle : h.endOp.Idle := by
  refine ⟨{ hh.clear with }, ?_⟩
  simp [endOp, hh.ops]

theorem mem_ops : () ∈ h.ops := by
  rw [hh.ops]
  exact List.mem_singleton_self ()

theorem wp_return (r : Int) : (do .lift .endOp; return r : IProg Int).wp iopWp (fun _ => Idle) h :=
  ⟨hh.mem_ops, hh.endOp_idle⟩

theorem wp_putReturn (e : Fin NINODE) (r : Int) :
    (do iunlockput e; .lift .endOp; return r : IProg Int).wp iopWp (fun _ => Idle)
      ((h.take e).lock e) :=
  wp_seq (hh.toEntered.wp_iunlockput (hh.wp_return r))

end Hold.InOp

/-! ### Descriptors -/

theorem wp_sysDup (hh : h.Entered) (hops : h.ops = []) (fd : Int) :
    (sysDup fd).wp iopWp (fun _ => Idle) h := by
  have hidle := hh.idle hops
  refine wp_seq (wp_argfd fd hh.on hidle fun fd f hf => ?_)
  refine wp_seq (wp_fdallocFrom hh.on hidle (fun fd' hfd' => ?_) _)
  have hblank : f ∉ h.blank := by
    rw [hh.clear.blank]
    exact List.not_mem_nil
  refine ⟨hh.on, hh.clear.hidden, hfd',
    .inr ⟨.inr ⟨fd, hh.on, ?_, ?_⟩, hblank, .inr ⟨fd', rfl, ?_, ?_⟩⟩⟩
  · have hne : fd ≠ fd' := by
      rintro rfl
      rw [hf] at hfd'
      cases hfd'
    exact (update_of_ne hne ..).trans hf
  · rintro heq
    cases heq
    rw [hf] at hfd'
    cases hfd'
  · exact update_self ..
  · exact ⟨{ hh.clear with hidden := rfl }, hops⟩

theorem wp_sysClose (hh : h.Entered) (hops : h.ops = []) (fd : Int) :
    (sysClose fd).wp iopWp (fun _ => Idle) h := by
  refine wp_seq (wp_argfd fd hh.on (hh.idle hops) fun fd f hf => ?_)
  have hslot : h.Slot fd f := ⟨hh.on, hf, by rw [hh.clear.hidden]; exact nofun⟩
  refine ⟨hh.on, hh.lent, .inr ⟨f, hslot, ?_⟩⟩
  show wp iopWp (fileclose f >>= _) _ _
  refine wp_seq (wp_fileclose (mem_cons_self ..) hh.cover hh.clear.child ?_ hh.lent)
  refine ⟨{ hh.clear with files := ?_, blank := ?_ }, hops⟩
  · simp [dropFile, setTab, takeFile, hh.clear.files]
  · simp [dropFile, setTab, takeFile, hh.clear.blank]

/-! ### Pipes -/

theorem wp_sysFstat (hh : h.Entered) (hops : h.ops = []) (fd : Int) (ok : Bool) :
    (sysFstat fd ok).wp iopWp (fun _ => Idle) h := by
  have hidle := hh.idle hops
  refine wp_seq (wp_argfd fd hh.on hidle fun fd f hf => ?_)
  refine ⟨⟨fd, hh.on, hf, by rw [hh.clear.hidden]; exact nofun⟩, fun kind => ?_⟩
  have hlent (es : List (Fin NINODE)) : (h.borrow es).Idle := ⟨{ hh.clear with }, hops⟩
  have hstat (ip : Fin NINODE) : wp iopWp
      (do ilock ip; let _ ← .lift (.attr ip); .lift (.iunlock ip); return if ok then 0 else -1 :
        IProg Int) (fun _ => Idle) (h.borrow [ip]) := by
    -- the open file keeps the inode while it is locked
    refine wp_seq (wp_ilock (.inr (mem_cons_self ..)) hh.clear.child fun hl => ?_)
    refine ⟨mem_lock, fun a => ⟨mem_lock, ?_⟩⟩
    rw [lock_unlock hl]
    exact hlent [ip]
  cases kind with
  | none | pipe pi writable => exact hlent []
  | inode ip | device ip => exact hstat ip

def Hold.pipeFiles (h : Hold) (rf wf : Fin NFILE) : Hold := (h.takeFile rf).takeFile wf

theorem mem_erase_second : f1 ∈ (f1 :: f0 :: fs).erase f0 := by
  by_cases heq : f1 = f0
  · subst heq
    simp
  · exact (List.mem_erase_of_ne heq).mpr (mem_cons_self ..)

theorem erase_second : ((f1 :: f0 :: fs).erase f0).erase f1 = fs := by
  rw [List.erase_comm]
  simp

theorem Hold.newPipe_typed (pi : Nat) (rf wf : Fin NFILE) :
    ((((((h.newFile rf).newFile wf).newPipe pi).dropEnd (pi, false)).typed rf).dropEnd
      (pi, true)).typed wf = h.pipeFiles rf wf := by
  simp [newFile, newPipe, dropEnd, typed, pipeFiles, takeFile, erase_second]

theorem wp_pipealloc {Q : Option (Fin NFILE × Fin NFILE) → Hold → Prop} (hh : h.Entered)
    (page : Option Nat) (hnone : Q none h) (hsome : ∀ rf wf, Q (some (rf, wf)) (h.pipeFiles rf wf)) :
    (pipealloc page).wp iopWp Q h := by
  have hc := hh.clear.child
  refine ⟨fun f0 => ⟨fun f1 => ?_, ?_⟩, hnone⟩
  · cases page with
    | none =>
      -- no page is left: both files are closed again
      show wp iopWp (fileclose f0 >>= fun _ => fileclose f1 >>= _) _ _
      refine wp_seq (wp_fileclose (mem_cons_of_mem _ (mem_cons_self ..)) hh.cover hc ?_ hh.lent)
      refine wp_seq (wp_fileclose (mem_erase_second f0 f1 _) hh.cover hc ?_ hh.lent)
      have hsame : (((h.newFile f0).newFile f1).dropFile f0).dropFile f1 = h := by
        simp [newFile, dropFile, erase_second]
      rw [hsame]
      exact hnone
    | some pi =>
      refine ⟨mem_cons_of_mem _ (mem_cons_self ..), mem_cons_self .., ?_⟩
      refine ⟨mem_erase_second f0 f1 _, ?_, ?_⟩
      · simp [typed, dropEnd, newPipe]
      · rw [newPipe_typed]
        exact hsome f0 f1
  · show wp iopWp (fileclose f0 >>= _) _ _
    refine wp_seq (wp_fileclose (mem_cons_self ..) hh.cover hc ?_ hh.lent)
    rw [newFile_dropFile]
    exact hnone

theorem wp_pipeFail {rf wf : Fin NFILE} (hh : { h with files := [] }.Idle) (hlent : h.lent = [])
    (hfiles : h.files.Perm [rf, wf]) : (pipeFail rf wf).wp iopWp (fun _ => Idle) h := by
  have hlocks : h.locks = ∅ := hh.locks
  have hcover : ∀ e ∈ h.locks, h.Has e := by
    rw [hlocks]
    exact fun e he => absurd he (Finset.notMem_empty e)
  have hrest : h.files.erase rf = [wf] := by
    have hperm := hfiles.erase rf
    rw [erase_cons_head] at hperm
    exact List.perm_singleton.mp hperm
  refine wp_seq (wp_fileclose (hfiles.mem_iff.mpr (mem_cons_self ..)) hcover hh.child ?_ hlent)
  refine wp_seq (wp_fileclose ?_ hcover hh.child ?_ hlent)
  · show wf ∈ h.files.erase rf
    rw [hrest]
    exact List.mem_singleton_self wf
  · have hblank : h.blank = [] := hh.blank
    refine ⟨⟨hh.gone, hh.hidden, hh.refs, hh.locks, ?_, ?_, hh.ends, hh.child⟩, hh.ops⟩
    · simp [dropFile, hrest]
    · simp [dropFile, hblank]

theorem wp_sysPipe (hh : h.Entered) (hops : h.ops = []) (page : Option Nat) (ok : Bool) :
    (sysPipe page ok).wp iopWp (fun _ => Idle) h := by
  have hfiles := hh.clear.files
  have hhid (fd : Fin NOFILE) : h.hidden ≠ some fd := by
    rw [hh.clear.hidden]
    exact nofun
  have hidle (tab : Table) : { h with files := [], tab := tab }.Idle :=
    ⟨{ hh.clear with files := rfl }, hops⟩
  have hfail {rf wf : Fin NFILE} (files : List (Fin NFILE)) (tab : Table)
      (hperm : files.Perm [rf, wf]) :
      (pipeFail rf wf).wp iopWp (fun _ => Idle) { h with files := files, tab := tab } :=
    wp_pipeFail (hidle tab) hh.lent hperm
  refine wp_seq (wp_pipealloc hh page (hh.idle hops) fun rf wf => ?_)
  have hrest : (wf :: rf :: h.files).erase rf = [wf] := by
    have hperm := (List.Perm.swap rf wf h.files).erase rf
    rw [erase_cons_head, hfiles] at hperm
    rw [hfiles]
    exact List.perm_singleton.mp hperm
  refine wp_seq (wp_fdallocFrom (h := h.pipeFiles rf wf) hh.on ?_ (fun fd0 hfd0 => ?_) _)
  · refine hfail (wf :: rf :: h.files) h.tab ?_
    rw [hfiles]
    exact List.Perm.swap ..
  refine ⟨hh.on, hh.clear.hidden, hfd0, .inl ⟨mem_cons_of_mem _ (mem_cons_self ..), ?_⟩⟩
  refine wp_seq (wp_fdallocFrom ?_ ?_ (fun fd1 hfd1 => ?_) _)
  · exact hh.on
  · -- the first descriptor is taken back
    refine ⟨hh.on, hh.lent, .inr ⟨rf, ⟨hh.on, update_self .., hhid fd0⟩, ?_⟩⟩
    refine hfail (rf :: (wf :: rf :: h.files).erase rf) _ ?_
    rw [hrest]
  · have hne : fd0 ≠ fd1 := by
      intro heq
      subst heq
      exact absurd (hfd1.symm.trans (update_self ..)) nofun
    have hlast : ((wf :: rf :: h.files).erase rf).erase wf = [] := by
      rw [hrest]
      exact erase_cons_head ..
    refine ⟨hh.on, hh.clear.hidden, hfd1, .inl ⟨mem_erase_second rf wf _, ?_⟩⟩
    show wp iopWp (if _ then _ else _) _ _
    split
    · have hdone := hidle (update (update h.tab fd0 (some rf)) fd1 (some wf))
      rw [← hlast] at hdone
      exact hdone
    -- both descriptors are taken back
    refine ⟨hh.on, hh.lent, .inr ⟨rf, ⟨hh.on, ?_, hhid fd0⟩, ?_⟩⟩
    · exact (update_of_ne hne ..).trans (update_self ..)
    refine ⟨hh.on, hh.lent, .inr ⟨wf, ⟨hh.on, ?_, hhid fd1⟩, ?_⟩⟩
    · exact (update_of_ne hne.symm ..).trans (update_self ..)
    refine hfail (wf :: rf :: ((wf :: rf :: h.files).erase rf).erase wf) _ ?_
    rw [hlast]
    exact List.Perm.swap ..

/-! ### Links -/

theorem wp_linkBad (hh : h.InOp) (ip : Fin NINODE) :
    (linkBad ip).wp iopWp (fun _ => Idle) (h.take ip) := by
  refine wp_seq (hh.wp_ilock ⟨mem_lock, fun a => ⟨mem_lock, hh.clear.child, ?_⟩⟩)
  exact hh.wp_putReturn ip (-1)

theorem wp_sysLink (hh : h.Entered) (hops : h.ops = []) (old new : Option CString) :
    (sysLink old new).wp iopWp (fun _ => Idle) h := by
  unfold sysLink
  split
  next old new =>
    refine hh.wp_op hops fun h hh => ?_
    refine wp_seq (hh.wp_namei old (hh.wp_return (-1)) fun ip => ?_)
    refine wp_seq (hh.wp_ilock ⟨mem_lock, fun a => ?_⟩)
    show wp iopWp (if _ then _ else _) _ _
    split
    · exact hh.wp_putReturn ip (-1)
    refine ⟨mem_lock, hh.clear.child, hh.wp_iunlock ?_⟩
    -- the reference to the old inode is kept while the directory is looked up
    show wp iopWp (nameiparent new >>= _) _ _
    have hcover : ∀ e ∈ (h.take ip).locks, (h.take ip).Has e := fun e he => absurd he (hh.notMem e)
    refine wp_seq (wp_namex hcover hh.clear.child new true hh.on hh.clear.gone ?_ fun dp name => ?_)
    · exact wp_linkBad hh ip
    · refine wp_seq (wp_ilock has_take hh.clear.child fun hl => ?_)
      intro inum
      show wp iopWp (dirlink dp name inum >>= _) _ _
      have hcover : ∀ e ∈ (((h.take ip).take dp).lock dp).locks,
          (((h.take ip).take dp).lock dp).Has e := by
        intro e he
        rcases Finset.mem_insert.mp he with rfl | he
        · exact has_take
        · exact absurd he (hh.notMem e)
      have hput {β : Type} {k : Unit → IProg β} {R : β → Hold → Prop}
          (hk : (k ()).wp iopWp R (h.take ip)) :
          (iunlockput dp >>= k).wp iopWp R (((h.take ip).take dp).lock dp) := by
        refine wp_seq (wp_iunlockput mem_lock (mem_cons_self ..) hh.clear.child ?_)
        rw [lock_unlock hl, take_drop]
        exact hk
      refine wp_seq (wp_dirlink hcover hh.clear.child name inum mem_lock fun b => ?_)
      cases b with
      | true =>
        refine hput (wp_seq
          (wp_iput (droppable_take fun he => absurd he (hh.notMem ip)) hh.clear.child ?_))
        rw [take_drop]
        exact hh.wp_return 0
      | false => exact hput (wp_linkBad hh ip)
  · exact hh.idle hops

theorem Hold.Entered.cover_two (hh : h.Entered) (dp ip : Fin NINODE) :
    ∀ e ∈ ((((h.take dp).lock dp).take ip).lock ip).locks,
      ((((h.take dp).lock dp).take ip).lock ip).Has e := by
  intro e he
  rcases Finset.mem_insert.mp he with rfl | he
  · exact has_take
  · exact (hh.cover_lock dp e he).take

theorem wp_isdiremptyFrom {Q : Bool → Hold → Prop} (hl : e ∈ h.locks) (hc : h.child = none)
    (hQ : ∀ b, Q b h) (fuel k : Nat) : (isdiremptyFrom e fuel k).wp iopWp Q h := by
  induction fuel generalizing k with
  | zero => exact hQ true
  | succ fuel ih =>
    refine ⟨hl, hc, fun de => ?_⟩
    cases de with
    | none => exact wp_panic (by decide)
    | some de =>
      show wp iopWp (if _ then _ else _) Q h
      split
      · exact hQ false
      · exact ih (k + 1)

theorem wp_removable {Q : Bool → Hold → Prop} (hl : e ∈ h.locks) (hc : h.child = none)
    (hQ : ∀ b, Q b h) : (removable e a).wp iopWp Q h := by
  unfold removable
  split
  · exact ⟨hl, fun n => wp_isdiremptyFrom hl hc hQ _ _⟩
  · exact hQ true

theorem wp_dropParentLink (hl : e ∈ h.locks) (hc : h.child = none) (hQ : Q () h) :
    (dropParentLink e a).wp iopWp Q h := by
  unfold dropParentLink
  split
  · exact ⟨hl, fun d => ⟨hl, hc, hQ⟩⟩
  · exact hQ

theorem wp_unlinkEntry (hh : h.InOp) (dp ip : Fin NINODE) (k : Nat) :
    (unlinkEntry dp ip k).wp iopWp (fun _ => Idle) (((h.take dp).lock dp).take ip) := by
  have hc := hh.clear.child
  have hdp : dp ∈ ((((h.take dp).lock dp).take ip).lock ip).locks :=
    Finset.mem_insert_of_mem mem_lock
  refine wp_seq (wp_ilock has_take hc fun hl => ⟨mem_lock, fun a => ?_⟩)
  show wp iopWp (if _ then _ else _) _ _
  split
  · exact wp_panic (by decide)
  refine wp_seq (wp_removable a mem_lock hc fun b => ?_)
  cases b with
  | true =>
    refine ⟨hdp, hc, fun b => ?_⟩
    cases b with
    | true =>
      show wp iopWp (dropParentLink dp a >>= _) _ _
      refine wp_seq (wp_dropParentLink a hdp hc ?_)
      have hmem : dp ∈ ((((h.take dp).lock dp).take ip).lock ip).refs :=
        mem_cons_of_mem _ (mem_cons_self ..)
      refine wp_seq (wp_iunlockput hdp hmem hc ?_)
      rw [swap_lock (hh.notMem dp) hl]
      refine ⟨mem_lock, fun a => ⟨mem_lock, hc, ?_⟩⟩
      exact hh.wp_putReturn ip 0
    | false => exact wp_panic (by decide)
  | false =>
    refine wp_seq (wp_iunlockput mem_lock (mem_cons_self ..) hc ?_)
    rw [lock_unlock hl, take_drop]
    exact hh.wp_putReturn dp (-1)

theorem wp_sysUnlink (hh : h.Entered) (hops : h.ops = []) (path : Option CString) :
    (sysUnlink path).wp iopWp (fun _ => Idle) h := by
  cases path with
  | none => exact hh.idle hops
  | some path =>
    refine hh.wp_op hops fun h hh => ?_
    refine wp_seq (hh.wp_nameiparent path (hh.wp_return (-1)) fun dp name => ?_)
    refine wp_seq (hh.wp_ilock ?_)
    split
    · exact hh.wp_putReturn dp (-1)
    · refine wp_seq (wp_dirlookup name mem_lock hh.clear.child (hh.wp_putReturn dp (-1)) ?_)
      exact fun ip k => wp_unlinkEntry hh dp ip k

/-! ### Creating -/

theorem wp_createDots (dp ip : Fin NINODE) (type : BitVec 16) (hdp : dp ∈ h.locks)
    (hip : ip ∈ h.locks) (hcover : ∀ e ∈ h.locks, h.Has e) (hc : h.child = none) (hQ : Q () h) :
    (createDots dp ip type).wp iopWp Q h := by
  unfold createDots
  split
  · refine ⟨hdp, fun d => ⟨hdp, hc, fun inum => ?_⟩⟩
    show wp iopWp (dirlink ip dot inum >>= _) _ _
    refine wp_seq (wp_dirlink hcover hc dot inum hip fun b => ?_)
    cases b with
    | true =>
      intro inum
      show wp iopWp (dirlink ip dotdot inum >>= _) _ _
      refine wp_seq (wp_dirlink hcover hc dotdot inum hip fun b => ?_)
      cases b with
      | true => exact hQ
      | false => exact wp_panic (by decide)
    | false => exact wp_panic (by decide)
  · exact hQ

section
variable (hh : h.Entered)
include hh

theorem wp_createNew {Q : Option (Fin NINODE) → Hold → Prop} (dp : Fin NINODE)
    (name : CString) (type major minor : BitVec 16) (hsome : ∀ ip, Q (some ip) ((h.take ip).lock ip)) :
    (createNew dp name type major minor).wp iopWp Q ((h.take dp).lock dp) := by
  have hc := hh.clear.child
  refine wp_seq (wp_ialloc type hc fun ip => ?_)
  have hdp : dp ∈ ((((h.take dp).lock dp).take ip).lock ip).locks :=
    Finset.mem_insert_of_mem mem_lock
  refine wp_seq (wp_ilock has_take hc fun hl => ?_)
  refine ⟨mem_lock, fun a => ⟨mem_lock, hc, ?_⟩⟩
  show wp iopWp (createDots dp ip type >>= _) _ _
  refine wp_seq (wp_createDots dp ip type hdp mem_lock (hh.cover_two dp ip) hc fun inum => ?_)
  show wp iopWp (dirlink dp name inum >>= _) _ _
  refine wp_seq (wp_dirlink (hh.cover_two dp ip) hc name inum hdp fun b => ?_)
  cases b with
  | true =>
    have hmem : dp ∈ ((((h.take dp).lock dp).take ip).lock ip).refs :=
      mem_cons_of_mem _ (mem_cons_self ..)
    refine wp_seq (wp_iunlockput hdp hmem hc ?_)
    rw [swap_lock (hh.notMem dp) hl]
    exact hsome ip
  | false => exact wp_panic (by decide)

theorem wp_create {Q : Option (Fin NINODE) → Hold → Prop} (path : CString)
    (type major minor : BitVec 16) (hnone : Q none h)
    (hsome : ∀ ip, Q (some ip) ((h.take ip).lock ip)) :
    (create path type major minor).wp iopWp Q h := by
  refine wp_seq (hh.wp_nameiparent path hnone fun dp name => ?_)
  refine wp_seq (hh.wp_ilock ?_)
  refine wp_seq (wp_dirlookup name mem_lock hh.clear.child ?_ fun ip k => ?_)
  · exact wp_createNew hh dp name type major minor hsome
  · -- the directory is given up before the inode that was found is locked
    refine wp_seq (wp_iunlockput mem_lock (mem_cons_of_mem _ (mem_cons_self ..)) hh.clear.child ?_)
    rw [swap (hh.notMem dp)]
    refine wp_seq (hh.wp_ilock ⟨mem_lock, fun a => ?_⟩)
    show wp iopWp (if _ then _ else _) _ _
    split
    · exact hsome ip
    · exact wp_seq (hh.wp_iunlockput hnone)

theorem wp_createAndPut (hops : h.ops = []) (path : Option CString) (type major minor : BitVec 16) :
    (createAndPut path type major minor).wp iopWp (fun _ => Idle) h := by
  refine hh.wp_op hops fun h hh => ?_
  cases path with
  | none => exact hh.wp_return (-1)
  | some path =>
    refine wp_seq (wp_create hh.toEntered path type major minor (hh.wp_return (-1)) fun ip => ?_)
    exact hh.wp_putReturn ip 0

theorem wp_openInode {Q : Option (Fin NINODE) → Hold → Prop} (path : CString)
    (omode : BitVec 32) (hnone : Q none h) (hsome : ∀ ip, Q (some ip) ((h.take ip).lock ip)) :
    (openInode path omode).wp iopWp Q h := by
  unfold openInode
  split
  · exact wp_create hh path T_FILE 0 0 hnone hsome
  refine wp_seq (hh.wp_namei path hnone fun ip => ?_)
  refine wp_seq (hh.wp_ilock ⟨mem_lock, fun a => ?_⟩)
  show wp iopWp (if _ then _ else _) _ _
  split
  · exact wp_seq (hh.wp_iunlockput hnone)
  · exact hsome ip

end

theorem wp_openTrunc (omode : BitVec 32) (hl : e ∈ h.locks) (hc : h.child = none)
    (hQ : Q () h) : (openTrunc e a omode).wp iopWp Q h := by
  unfold openTrunc
  split
  · exact ⟨hl, hc, hQ⟩
  · exact hQ

theorem wp_openFile (ip : Fin NINODE) (f : Fin NFILE) (fd : Fin NOFILE) (omode : BitVec 32)
    (hrefs : h.refs = [ip]) (hlocks : h.locks = {ip}) (hfiles : h.files = [])
    (hblank : h.blank = [f]) (hslot : h.Slot fd f) (hhid : h.hidden = none) (hgone : h.gone = false)
    (hc : h.child = none) (hends : h.ends = []) (hops : h.ops = [()]) :
    (openFile ip f fd omode).wp iopWp (fun _ => Idle) h := by
  have hl : ip ∈ h.locks := by
    rw [hlocks]
    exact Finset.mem_singleton_self ip
  refine ⟨hl, fun a => ?_⟩
  refine ⟨by simp [hblank], ?_⟩
  have hset : wp iopWp
      (do openTrunc ip a omode; .lift (.iunlock ip); .lift .endOp; return fd.val : IProg Int)
      (fun _ => Idle) (((h.drop ip).borrow [ip]).typed f) := by
    refine wp_seq (wp_openTrunc a omode hl hc ⟨hl, ?_, ?_⟩)
    · show () ∈ h.ops
      rw [hops]
      exact List.mem_singleton_self ()
    · refine ⟨⟨hgone, hhid, ?_, ?_, hfiles, ?_, hends, hc⟩, ?_⟩
      · simp [endOp, unlock, typed, borrow, drop, hrefs]
      · simp [endOp, unlock, typed, borrow, drop, hlocks]
      · simp [endOp, unlock, typed, borrow, drop, hblank]
      · simp [endOp, unlock, typed, borrow, drop, hops]
  split
  · exact ⟨by simp [hrefs], ⟨fd, hslot⟩, hset⟩
  · exact ⟨by simp [hrefs], ⟨fd, hslot⟩, hset⟩

theorem wp_sysOpen (hh : h.Entered) (hops : h.ops = []) (path : Option CString) (omode : BitVec 32) :
    (sysOpen path omode).wp iopWp (fun _ => Idle) h := by
  cases path with
  | none => exact hh.idle hops
  | some path =>
    refine hh.wp_op hops fun h hh => ?_
    refine wp_seq (wp_openInode hh.toEntered path omode (hh.wp_return (-1)) fun ip => ?_)
    refine ⟨mem_lock, fun a => ?_⟩
    show wp iopWp (if _ then _ else _) _ _
    split
    · exact hh.wp_putReturn ip (-1)
    refine ⟨fun f => ?_, hh.wp_putReturn ip (-1)⟩
    show wp iopWp (fdalloc f >>= _) _ _
    refine wp_seq
      (wp_fdallocFrom (h := ((h.take ip).lock ip).newFile f) hh.on ?_ (fun fd hfd => ?_) _)
    · -- no descriptor is left: the file is closed again
      refine wp_seq (wp_fileclose (mem_cons_self ..) (hh.cover_lock ip) hh.clear.child ?_ hh.lent)
      rw [newFile_dropFile]
      exact hh.wp_putReturn ip (-1)
    · refine ⟨hh.on, hh.clear.hidden, hfd, .inl ⟨mem_cons_self .., ?_⟩⟩
      refine wp_openFile ip f fd omode ?_ ?_ ?_ ?_ ⟨hh.on, update_self .., ?_⟩
        hh.clear.hidden hh.clear.gone hh.clear.child hh.clear.ends hh.ops
      · simp [setTab, newFile, lock, take, hh.clear.refs]
      · simp [setTab, newFile, lock, take, hh.clear.locks]
      · simp [setTab, newFile, lock, take, hh.clear.files]
      · simp [setTab, newFile, lock, take, hh.clear.blank]
      · show h.hidden ≠ some fd
        rw [hh.clear.hidden]
        exact nofun

/-! ### Processes -/

section
variable (hh : h.Entered) (hops : h.ops = []) (path : Option CString) (fd : Fin NOFILE)
include hh hops

theorem wp_sysChdir : (sysChdir path).wp iopWp (fun _ => Idle) h := by
  refine hh.wp_op hops fun h hh => ?_
  cases path with
  | none => exact hh.wp_return (-1)
  | some path =>
    refine wp_seq (hh.wp_namei path (hh.wp_return (-1)) fun ip => ?_)
    refine wp_seq (hh.wp_ilock ⟨mem_lock, fun a => ?_⟩)
    show wp iopWp (if _ then _ else _) _ _
    split
    · exact hh.wp_putReturn ip (-1)
    refine hh.wp_iunlock ⟨hh.on, fun old hold => ?_⟩
    show wp iopWp (iput old >>= _) _ _
    refine wp_seq (wp_iput_cwd hh.on hold hh.clear.gone (hh.notMem old) hh.clear.child ?_)
    refine ⟨hh.mem_ops, hh.on, rfl, ⟨mem_cons_self .., fun hl => absurd hl (hh.notMem ip)⟩, ?_⟩
    refine ⟨{ hh.clear with gone := rfl, refs := ?_ }, ?_⟩
    · simp [drop, take, endOp, hh.clear.refs]
    · simp [drop, take, endOp, hh.ops]

theorem wp_sysExec (result : ExecResult) : (sysExec path result).wp iopWp (fun _ => Idle) h := by
  cases path with
  | none => exact hh.idle hops
  | some path =>
    refine hh.wp_op hops fun h hh => ?_
    refine wp_seq (hh.wp_namei path (hh.wp_return (-1)) fun ip => ?_)
    refine wp_seq (hh.wp_ilock ?_)
    cases result with
    | badProgram | badStack => exact hh.wp_putReturn ip (-1)
    | ok argc => exact hh.wp_putReturn ip argc

omit hops in
theorem wp_exitClose (hQ : Q () (h.setTab fd none)) : (exitClose fd).wp iopWp Q h := by
  refine ⟨hh.on, ?_⟩
  cases htab : h.tab fd with
  | none =>
    have hsame : h.setTab fd none = h := by
      rw [← htab]
      simp [setTab]
    rw [hsame] at hQ
    exact hQ
  | some f =>
    have hslot : h.Slot fd f := ⟨hh.on, htab, by rw [hh.clear.hidden]; exact nofun⟩
    show wp iopWp (fileclose f >>= _) _ _
    refine wp_seq (wp_fileclose_slot hh.cover hh.clear.child hh.lent hslot hh.clear.hidden ?_)
    refine ⟨hh.on, hh.lent, .inl ⟨rfl, ?_⟩⟩
    have hsame : Hold.setTab { (h.hide fd f).dropFile f with hidden := none } fd none =
        h.setTab fd none := by
      simp [hide, dropFile, setTab, hh.clear.hidden, hh.clear.blank]
    rw [hsame]
    exact hQ

omit hops in
theorem Hold.Entered.setTab (f : Option (Fin NFILE)) : (h.setTab fd f).Entered :=
  ⟨{ hh.clear with }, hh.on, hh.lent⟩

theorem wp_exit : exit.wp iopWp (fun _ => Idle) h := by
  intro p
  show wp iopWp (if _ then _ else _) _ _
  split
  · exact wp_panic (by decide)
  -- the descriptors that are not among those left are closed
  have hloop := Prog.wp_forEach iopWp_mono
    (fun fds h' => h'.Entered ∧ h'.ops = [] ∧ ∀ fd, fd ∉ fds → h'.tab fd = none)
    (fun fd fds h' hI => by
      refine wp_exitClose hI.1 fd ⟨hI.1.setTab fd none, hI.2.1, fun fd' hfd' => ?_⟩
      by_cases heq : fd' = fd
      · subst heq
        exact update_self ..
      · refine (update_of_ne heq ..).trans (hI.2.2 fd' fun hmem => ?_)
        exact (List.mem_cons.mp hmem).elim heq hfd')
    (finRange NOFILE) h ⟨hh, hops, fun fd hfd => absurd (List.mem_finRange fd) hfd⟩
  refine wp_seq (wp_mono iopWp_mono _ (fun _ h' hI => ?_) hloop)
  obtain ⟨hh', hops', htab⟩ := hI
  have hh' := hh'.beginOp hops'
  refine ⟨hh'.on, fun ip hip => ?_⟩
  refine wp_seq (wp_iput_cwd hh'.on hip hh'.clear.gone (hh'.notMem ip) hh'.clear.child ?_)
  refine ⟨hh'.mem_ops, hh'.on, rfl, hh'.on, fun fd => htab fd (List.not_mem_nil), rfl, rfl,
    hh'.clear.hidden, hh'.clear.child, hh'.clear.locks, ?_⟩
  refine ⟨⟨rfl, hh'.clear.hidden, hh'.clear.refs, hh'.clear.locks, hh'.clear.files,
    hh'.clear.blank, hh'.clear.ends, hh'.clear.child⟩, ?_⟩
  simp [Hold.beginOp, endOp, hops']

/-- What `fork` has while it shares the descriptors that are left. -/
structure Forking (h0 : Hold) (np : Proc) (fds : List (Fin NOFILE)) (h : Hold) : Prop where
  entered : { h with child := none } = h0
  child : ∃ tab, h.child = some (np, tab, none) ∧ ∀ fd ∈ fds, tab fd = none

omit hh hops in
theorem wp_forkDup {h0 : Hold} (hh : h0.Entered) (np : Proc) (fd : Fin NOFILE)
    (fds : List (Fin NOFILE)) (hfd : fd ∉ fds) (hf : Forking h0 np (fd :: fds) h) :
    (forkDup np fd).wp iopWp (fun _ => Forking h0 np fds) h := by
  obtain ⟨rfl, tab, hchild, htab⟩ := hf
  refine ⟨hh.on, ?_⟩
  cases hslot : h.tab fd with
  | none => exact ⟨rfl, tab, hchild, fun fd' h' => htab fd' (mem_cons_of_mem _ h')⟩
  | some f =>
    have hhid : h.hidden ≠ some fd := by
      have := hh.clear.hidden
      simp_all
    have hblank : f ∉ h.blank := by
      have := hh.clear.blank
      simp_all
    refine ⟨.inr ⟨fd, hh.on, hslot, hhid⟩, hblank, .inl ?_⟩
    refine ⟨hh.on, tab, none, hchild, htab fd (mem_cons_self ..), mem_cons_self .., hblank, ?_⟩
    refine ⟨?_, _, rfl, fun fd' h' => ?_⟩
    · simp [takeFile]
    · have hne : fd' ≠ fd := by
        rintro rfl
        exact hfd h'
      rw [update_of_ne hne]
      exact htab fd' (mem_cons_of_mem _ h')

theorem wp_fork (np : Option Proc) : (fork np).wp iopWp (fun _ => Idle) h := by
  cases np with
  | none => exact hh.idle hops
  | some np =>
    refine ⟨hh.on, hh.clear.child, hh.clear.locks, ?_, hh.idle hops⟩
    have hloop := Prog.wp_forEach iopWp_mono
      (fun fds h' => fds.Nodup ∧ Forking h np fds h')
      (fun fd fds h' hI => by
        have hnodup := List.nodup_cons.mp hI.1
        refine wp_mono iopWp_mono _ (fun _ h'' hf => ⟨hnodup.2, hf⟩) ?_
        exact wp_forkDup hh np fd fds hnodup.1 hI.2)
      (finRange NOFILE) { h with child := some (np, fun _ => none, none) }
      ⟨List.nodup_finRange NOFILE, by rw [← hh.clear.child], _, rfl, fun _ _ => rfl⟩
    show wp iopWp (Prog.forEach (forkDup np) (finRange NOFILE) >>= _) _ _
    refine wp_seq (wp_mono iopWp_mono _ (fun _ h' hI => ?_) hloop)
    obtain ⟨-, rfl, tab, hchild, -⟩ := hI
    refine ⟨hh.on, fun ip hip => ⟨.inr ⟨hh.on, hip, hh.clear.gone⟩, ?_⟩⟩
    have hd : (h'.take ip).Droppable ip := droppable_take fun he => absurd he (hh.notMem ip)
    refine ⟨hh.on, tab, hchild, hd, tab, some ip, rfl, ?_⟩
    exact ⟨{ hh.clear with refs := by simpa [drop, take] using hh.clear.refs, child := rfl }, hops⟩

theorem Call.code_wp (c : Call) : c.code.wp iopWp (fun _ => Idle) h := by
  cases c with
  | «open» path omode => exact wp_sysOpen hh hops path omode
  | mkdir path => exact wp_createAndPut hh hops path T_DIR 0 0
  | mknod path major minor => exact wp_createAndPut hh hops path T_DEVICE major minor
  | link old new => exact wp_sysLink hh hops old new
  | unlink path => exact wp_sysUnlink hh hops path
  | chdir path => exact wp_sysChdir hh hops path
  | dup fd => exact wp_sysDup hh hops fd
  | close fd => exact wp_sysClose hh hops fd
  | fstat fd ok => exact wp_sysFstat hh hops fd ok
  | pipe page ok => exact wp_sysPipe hh hops page ok
  | exec path result => exact wp_sysExec hh hops path result
  | fork np => exact wp_fork hh hops np
  | exit => exact wp_exit hh hops

end

theorem Hold.Idle.enter (hi : h.Idle) (hQ : ∀ h' : Hold, h'.Entered → h'.ops = [] → Q () h') :
    iopWp _ .enter Q h := by
  refine ⟨hi.locks, fun tab cwd => ?_⟩
  apply hQ
  · exact ⟨⟨hi.gone, hi.hidden, hi.refs, hi.locks, hi.files, hi.blank, hi.ends, hi.child⟩, rfl, rfl⟩
  · exact hi.ops

theorem Call.prog_wp (hi : h.Idle) (c : Call) : c.prog.wp iopWp (fun _ => Idle) h :=
  hi.enter fun _ hh hops => c.code_wp hh hops

end Xv6.Dir
