import Xv6.Dir.Proofs.Books

/-!
# The operations keep the books

Every operation moves references between the lists of the books, takes a new one or drops one.
-/

namespace Xv6.Dir

open Hold
open Function (update update_comm update_idem update_self update_of_ne update_eq_self)
open DState (setFile setIcache)

variable {s s' : DState} {ts : Proc → Hold} {a : Hold} {t u : Proc} {e : Fin NINODE} {f : Fin NFILE}
  {fd : Fin NOFILE} {x : Option (Fin NFILE)} {l : List (Fin NINODE)}

/-! ## The lists after a change -/

theorem inodeRefs_hold (s : DState) (ts : Proc → Hold) (hgone : a.gone = (ts t).gone) :
    inodeRefs s (update ts t a) = update (inodeRefs s ts) (.inl t) a.refs := by
  funext x
  rcases x with u | f | p
  · by_cases hu : u = t <;> simp [inodeRefs, hu]
  · simp [inodeRefs]
  · by_cases hp : p = t <;> simp [inodeRefs, hp, hgone]

theorem inodeRefs_gone (s : DState) (ts : Proc → Hold) :
    inodeRefs s (update ts t a) = update
      (update (inodeRefs s ts) (.inl t) a.refs) (.inr (.inr t))
      (if a.gone then [] else (s.cwd t).toList) := by
  funext x
  rcases x with u | f | p
  · by_cases hu : u = t <;> simp [inodeRefs, hu]
  · simp [inodeRefs]
  · by_cases hp : p = t <;> simp [inodeRefs, hp]

theorem inodeRefs_setFile (s : DState) (ts : Proc → Hold) (f : Fin NFILE) (x : File) :
    inodeRefs (s.setFile f x) ts = update (inodeRefs s ts) (.inr (.inl f)) x.kind.ips := by
  funext y
  rcases y with u | f' | p
  · simp [inodeRefs]
  · by_cases hf : f' = f <;> simp [inodeRefs, setFile, hf]
  · simp [inodeRefs, setFile]

theorem inodeRefs_setCwd (s : DState) (ts : Proc → Hold) (p : Proc) (e : Option (Fin NINODE)) :
    inodeRefs (s.setCwd p e) ts = update (inodeRefs s ts) (.inr (.inr p))
      (if (ts p).gone then [] else e.toList) := by
  funext x
  rcases x with u | f | p'
  · simp [inodeRefs]
  · simp [inodeRefs, DState.setCwd]
  · by_cases hp : p' = p <;> simp [inodeRefs, DState.setCwd, hp]

theorem fileRefs_hold (s : DState) (ts : Proc → Hold) (hhid : a.hidden = (ts t).hidden) :
    fileRefs s (update ts t a) = update (fileRefs s ts) (.inl t) a.files := by
  funext x
  rcases x with u | ⟨p, fd⟩
  · by_cases hu : u = t <;> simp [fileRefs, hu]
  · by_cases hp : p = t <;> simp [fileRefs, hp, hhid]

theorem fileRefs_hide (s : DState) (ts : Proc → Hold) (fd : Fin NOFILE) (hhid : (ts t).hidden = none)
    (ha : a.hidden = some fd) :
    fileRefs s (update ts t a) = update
      (update (fileRefs s ts) (.inl t) a.files) (.inr (t, fd)) [] := by
  funext x
  rcases x with u | ⟨p, fd'⟩
  · by_cases hu : u = t <;> simp [fileRefs, hu]
  · by_cases hp : p = t
    · subst hp
      by_cases hfd : fd' = fd <;> simp [fileRefs, hhid, ha, hfd, update, eq_comm]
    · simp [fileRefs, hp]

theorem fileRefs_unhide (s : DState) (ts : Proc → Hold) (fd : Fin NOFILE) (hhid : (ts t).hidden = some fd)
    (ha : a.hidden = none) :
    fileRefs s (update ts t a) = update
      (update (fileRefs s ts) (.inl t) a.files) (.inr (t, fd)) (s.ofile t fd).toList := by
  funext x
  rcases x with u | ⟨p, fd'⟩
  · by_cases hu : u = t <;> simp [fileRefs, hu]
  by_cases hp : p = t
  · subst hp
    by_cases hfd : fd' = fd
    · subst hfd
      simp [fileRefs, ha]
    · simp [fileRefs, hhid, ha, hfd, Ne.symm hfd, update]
  · simp [fileRefs, hp]

theorem fileRefs_setOfile (s : DState) (ts : Proc → Hold) (p : Proc) (fd : Fin NOFILE)
    (x : Option (Fin NFILE)) :
    fileRefs (s.setOfile p fd x) ts = update (fileRefs s ts) (.inr (p, fd))
      (if (ts p).hidden = some fd then [] else x.toList) := by
  funext y
  rcases y with u | ⟨p', fd'⟩
  · simp [fileRefs]
  · by_cases hp : p' = p
    · subst hp
      by_cases hfd : fd' = fd <;> simp [fileRefs, DState.setOfile, hfd, update]
    · simp [fileRefs, DState.setOfile, hp]

theorem endRefs_hold (s : DState) (ts : Proc → Hold) (t : Proc) (a : Hold) :
    endRefs s (update ts t a) = update (endRefs s ts) (.inl t) a.ends := by
  funext x
  rcases x with u | f
  · by_cases hu : u = t <;> simp [endRefs, hu]
  · simp [endRefs]

theorem endRefs_setFile (s : DState) (ts : Proc → Hold) (f : Fin NFILE) (x : File) :
    endRefs (s.setFile f x) ts = update (endRefs s ts) (.inr f) x.kind.ends := by
  funext y
  rcases y with u | f'
  · simp [endRefs]
  · by_cases hf : f' = f <;> simp [endRefs, setFile, hf]

theorem ops_hold (ts : Proc → Hold) (t : Proc) (a : Hold) :
    (fun u => (update ts t a u).ops) = update (fun u => (ts u).ops) t a.ops := by
  funext u
  by_cases hu : u = t <;> simp [hu]

theorem ref_setIcache (s : DState) (e : Fin NINODE) (ip : CInode) :
    (fun e' => ((s.setIcache e ip).icache e').ref) =
      update (fun e' => (s.icache e').ref) e ip.ref := by
  funext e'
  by_cases he : e' = e <;> simp [setIcache, he]

theorem ref_setFile (s : DState) (f : Fin NFILE) (x : File) :
    (fun f' => ((s.setFile f x).file f').ref) = update (fun f' => (s.file f').ref) f x.ref := by
  funext f'
  by_cases hf : f' = f <;> simp [setFile, hf]

/-! ## What one process does to the others -/

/-- A process is left alone: its table, its current directory and its life stay, and so do the files
it has. -/
theorem Own.frame {h : Hold} (ho : Own s u h) (hofile : s'.ofile u = s.ofile u)
    (hcwd : s'.cwd u = s.cwd u) (hlife : s'.life u = s.life u)
    (hopen : ∀ f, Opened s u h f → (s.file f).kind ≠ .none → (s'.file f).kind = (s.file f).kind)
    (hblank : ∀ f ∈ h.blank, s'.file f = s.file f)
    (hchild : ∀ np tab cwd, h.child = some (np, tab, cwd) →
      s'.life np = s.life np ∧ s'.ofile np = s.ofile np ∧ s'.cwd np = s.cwd np) : Own s' u h where
  held := ho.held
  lent := by
    intro e he
    obtain ⟨f, hf, hip⟩ := ho.lent e he
    refine ⟨f, ?_, ?_⟩
    · rwa [Opened, hofile]
    · rw [hopen f hf fun hnone => by simp [hnone, FileKind.ips] at hip]
      exact hip
  blank := by
    intro f hf
    rw [hblank f hf, Opened, hofile]
    exact ho.blank f hf
  nodup := ho.nodup
  on := by
    rw [hlife, hofile, hcwd]
    exact ho.on
  off := ho.off
  child := by
    intro np tab cwd hc
    obtain ⟨hl, ho', hw⟩ := hchild np tab cwd hc
    rw [hl, ho', hw]
    exact ho.child np tab cwd hc

theorem Own.frame_file {h : Hold} {x : File} (ho : Own s u h)
    (hopen : Opened s u h f → (s.file f).kind ≠ .none → x.kind = (s.file f).kind)
    (hblank : f ∉ h.blank) : Own (s.setFile f x) u h := by
  refine ho.frame rfl rfl rfl (fun f' hf' hkind => ?_) (fun f' hf' => ?_) fun _ _ _ _ => ⟨rfl, rfl, rfl⟩
  · by_cases heq : f' = f
    · subst heq
      simpa [setFile] using hopen hf' hkind
    · simp [setFile, heq]
  · have hne : f' ≠ f := by
      intro heq
      subst heq
      exact hblank hf'
    simp [setFile, hne]

namespace Books

variable (h : Books s ts)
include h

theorem step (hc : Counts s' (update ts t a)) (ha : Own s' t a)
    (hother : ∀ u, u ≠ t → Own s' u (ts u)) (ht : Tables s')
    (hchild : ∀ np tab cwd, a.child = some (np, tab, cwd) → ∀ u, u ≠ t →
      ∀ tab' cwd', (ts u).child ≠ some (np, tab', cwd')) : Books s' (update ts t a) where
  counts := hc
  own := by
    intro u
    by_cases hu : u = t
    · subst hu
      simpa using ha
    · simpa [hu] using hother u hu
  tables := ht
  oneChild := by
    intro u v np tab cwd tab' cwd' hu hv
    by_cases hut : u = t
    · by_cases hvt : v = t
      · exact hut.trans hvt.symm
      · subst hut
        rw [update_self] at hu
        rw [update_of_ne hvt] at hv
        exact absurd hv (hchild np tab cwd hu v hvt tab' cwd')
    · by_cases hvt : v = t
      · subst hvt
        rw [update_self] at hv
        rw [update_of_ne hut] at hu
        exact absurd hu (hchild np tab' cwd' hv u hut tab cwd)
      · rw [update_of_ne hut] at hu
        rw [update_of_ne hvt] at hv
        exact h.oneChild u v np tab cwd tab' cwd' hu hv

theorem child_other (hchild : a.child = (ts t).child) :
    ∀ np tab cwd, a.child = some (np, tab, cwd) → ∀ u, u ≠ t →
      ∀ tab' cwd', (ts u).child ≠ some (np, tab', cwd') := by
  intro np tab cwd ha u hu tab' cwd' hc
  rw [hchild] at ha
  exact hu (h.oneChild u t np tab' cwd' tab cwd hc ha)

theorem locked_hold (hlock : ∀ e, (s'.icache e).lock = (s.icache e).lock)
    (ha : a.locks = (ts t).locks) (e : Fin NINODE) (u : Proc) :
    (s'.icache e).lock = some u ↔ e ∈ (update ts t a u).locks := by
  rw [hlock, h.counts.locked e u]
  by_cases hu : u = t
  · subst hu
    simp [ha]
  · simp [hu]

theorem ops_same (ha : a.ops = (ts t).ops) :
    RefCounted (fun _ => s.outstanding) (fun u => (update ts t a u).ops) := by
  rw [ops_hold, ha, update_eq_self]
  exact h.counts.ops

theorem ends_same (ha : a.ends = (ts t).ends) :
    RefCounted s.endCount (endRefs s (update ts t a)) := by
  rw [endRefs_hold]
  exact h.counts.ends.same ha

theorem files_same (ha : a.files = (ts t).files) (hhid : a.hidden = (ts t).hidden) :
    RefCounted (fun f => (s.file f).ref) (fileRefs s (update ts t a)) := by
  rw [fileRefs_hold s ts hhid]
  exact h.counts.files.same ha

theorem inodes_same (ha : a.refs = (ts t).refs) (hgone : a.gone = (ts t).gone) :
    RefCounted (fun e => (s.icache e).ref) (inodeRefs s (update ts t a)) := by
  rw [inodeRefs_hold s ts hgone]
  exact h.counts.inodes.same ha

/-! ## Inodes -/

variable {ip : CInode}

theorem setRefs (hlock : ip.lock = (s.icache e).lock)
    (hcount : RefCounted (update (fun e' => (s.icache e').ref) e ip.ref)
      (update (inodeRefs s ts) (.inl t) l))
    (hheld : ∀ e ∈ (ts t).locks, { ts t with refs := l }.Has e) :
    Books (s.setIcache e ip) (update ts t { ts t with refs := l }) := by
  have hs := s.sameTables_setIcache e ip
  have hlocks (e' : Fin NINODE) : ((s.setIcache e ip).icache e').lock = (s.icache e').lock := by
    by_cases he : e' = e
    · subst he
      simpa [setIcache] using hlock
    · simp [setIcache, he]
  refine h.step ⟨?_, ?_, ?_, ?_, ?_⟩ { (h.own t).congr hs with held := hheld }
    (fun u _ => (h.own u).congr hs) (h.tables.congr hs) (h.child_other rfl)
  · rw [hs.inodeRefs, inodeRefs_hold s ts (a := { ts t with refs := l }) rfl, ref_setIcache]
    exact hcount
  · exact h.files_same rfl rfl
  · exact h.ends_same rfl
  · exact h.ops_same rfl
  · exact h.locked_hold hlocks rfl

theorem take (hlock : ip.lock = (s.icache e).lock) (href : ip.ref = (s.icache e).ref + 1) :
    Books (s.setIcache e ip) (update ts t ((ts t).take e)) := by
  refine h.setRefs hlock ?_ fun e' he' => ((h.own t).held e' he').take
  rw [href]
  exact h.counts.inodes.take (.inl t) e

theorem drop (hd : (ts t).Droppable e) (hlock : ip.lock = (s.icache e).lock)
    (href : ip.ref = (s.icache e).ref - 1) :
    Books (s.setIcache e ip) (update ts t ((ts t).drop e)) := by
  have hmem : e ∈ inodeRefs s ts (.inl t) := hd.1
  refine h.setRefs hlock ?_ fun e' he' => hd.held ((h.own t).held e' he') he'
  rw [href]
  exact h.counts.inodes.drop hmem

theorem setLocks {l : Finset (Fin NINODE)} (href : ip.ref = (s.icache e).ref)
    (hlock : ∀ u, ip.lock = some u ↔ e ∈ (update ts t { ts t with locks := l } u).locks)
    (hrest : ∀ e', e' ≠ e → (e' ∈ l ↔ e' ∈ (ts t).locks)) (hheld : ∀ e ∈ l, (ts t).Has e) :
    Books (s.setIcache e ip) (update ts t { ts t with locks := l }) := by
  have hs := s.sameTables_setIcache e ip
  refine h.step ⟨?_, ?_, ?_, ?_, fun e' u => ?_⟩ { (h.own t).congr hs with held := hheld }
    (fun u _ => (h.own u).congr hs) (h.tables.congr hs) (h.child_other rfl)
  · rw [hs.inodeRefs, ref_setIcache, href, update_eq_self e fun e => (s.icache e).ref]
    exact h.inodes_same rfl rfl
  · rw [hs.fileRefs]
    exact h.files_same rfl rfl
  · exact h.ends_same rfl
  · exact h.ops_same rfl
  · by_cases he : e' = e
    · subst he
      simpa [setIcache] using hlock u
    · have hold := h.counts.locked e' u
      by_cases hu : u = t
      · subst hu
        simpa [setIcache, he, hrest e' he] using hold
      · simpa [setIcache, he, hu] using hold

theorem lock {i : CInode} (hfree : (s.icache e).lock = none) (hh : (ts t).Has e)
    (href : i.ref = (s.icache e).ref) (hlock : i.lock = some t) :
    e ∉ (ts t).locks ∧ Books (s.setIcache e i) (update ts t ((ts t).lock e)) := by
  have hnot (u : Proc) : e ∉ (ts u).locks := by
    rw [← h.counts.locked e u, hfree]
    exact nofun
  refine ⟨hnot t, h.setLocks href (fun u => ?_) (fun e' he' => ?_) fun e' he' => ?_⟩
  · rw [hlock]
    by_cases hu : u = t
    · subst hu
      simp
    · simp [hu, Ne.symm hu, hnot u]
  · simp [he']
  · rcases Finset.mem_insert.mp he' with rfl | he'
    · exact hh
    · exact (h.own t).held e' he'

theorem unlock (hl : e ∈ (ts t).locks) (href : ip.ref = (s.icache e).ref) (hlock : ip.lock = none) :
    Books (s.setIcache e ip) (update ts t ((ts t).unlock e)) := by
  refine h.setLocks href (fun u => ?_) (fun e' he' => ?_) fun e' he' => ?_
  · rw [hlock]
    by_cases hu : u = t
    · subst hu
      simp
    -- nobody else has it locked
    have hown := (h.counts.locked e t).mpr hl
    have hother : e ∉ (ts u).locks := by
      rw [← h.counts.locked e u, hown]
      exact fun heq => hu (Option.some.inj heq).symm
    simp [hu, hother]
  · simp [he']
  · exact (h.own t).held e' (Finset.mem_of_mem_erase he')

theorem child_ne (hon : (ts t).on = true) {np : Proc} {tab : Table} {cwd : Option (Fin NINODE)}
    (hc : (ts u).child = some (np, tab, cwd)) : np ≠ t := by
  intro heq
  have hrun := ((h.own t).on hon).1
  have hemb := ((h.own u).child np tab cwd hc).1
  rw [heq, hrun] at hemb
  cases hemb

/-! ## Current directories -/

section
variable (hon : (ts t).on = true)
include hon

theorem leave (hcwd : (ts t).cwd = some e) (hgone : (ts t).gone = false) :
    Books s (update ts t ((ts t).leave e)) := by
  have hmem : e ∈ inodeRefs s ts (.inr (.inr t)) := by
    simp [inodeRefs, hgone, ((h.own t).on hon).2.2, hcwd]
  have hone : inodeRefs s ts (.inr (.inr t)) = [e] := by
    simp [inodeRefs, hgone, ((h.own t).on hon).2.2, hcwd]
  refine h.step ⟨?_, h.files_same rfl rfl, h.ends_same rfl, h.ops_same rfl,
    h.locked_hold (fun _ => rfl) rfl⟩ ?_ (fun u _ => h.own u) h.tables (h.child_other rfl)
  · have hmoved := h.counts.inodes.move (u := .inl t) hmem Sum.inl_ne_inr
    rw [hone, List.erase_cons_head, update_comm (by simp)] at hmoved
    rw [inodeRefs_gone]
    exact hmoved
  · exact { h.own t with
      held := fun e' he' => ((h.own t).held e' he').take
      off := fun hoff => Bool.noConfusion (hon.symm.trans hoff) }

theorem setCwd_own (x : Option (Fin NINODE)) (hu : u ≠ t) : Own (s.setCwd t x) u (ts u) := by
  refine (h.own u).frame rfl (by simp [DState.setCwd, hu]) rfl (fun _ _ _ => rfl) (fun _ _ => rfl)
    fun np tab cwd hc => ⟨rfl, rfl, ?_⟩
  simp [DState.setCwd, h.child_ne hon hc]

omit hon in
theorem setCwd_tables (hlife : s.life t ≠ .unused) (x : Option (Fin NINODE)) :
    Tables (s.setCwd t x) where
  closed := h.tables.closed
  pages := h.tables.pages
  unused := by
    intro p hp
    have hne : p ≠ t := by
      intro heq
      subst heq
      exact hlife hp
    obtain ⟨hofile, hcwd⟩ := h.tables.unused p hp
    exact ⟨hofile, by simpa [DState.setCwd, hne] using hcwd⟩

theorem on_not_unused : s.life t ≠ .unused := by
  rw [((h.own t).on hon).1]
  exact nofun

theorem setCwd {x : Option (Fin NINODE)}
    (hcount : RefCounted (fun e => (s.icache e).ref) (update (update
      (inodeRefs s ts) (.inl t) l) (.inr (.inr t)) x.toList))
    (hheld : ∀ e ∈ (ts t).locks, { ts t with refs := l }.Has e) :
    Books (s.setCwd t x) (update ts t { ts t with refs := l, cwd := x, gone := false }) := by
  refine h.step ⟨?_, ?_, ?_, ?_, ?_⟩ ?_ (fun u hu => h.setCwd_own hon x hu)
    (h.setCwd_tables (h.on_not_unused hon) x) (h.child_other rfl)
  · rw [inodeRefs_setCwd, inodeRefs_gone, update_idem]
    simp only [update_self, Bool.false_eq_true, if_false]
    exact hcount
  · exact h.files_same (a := { ts t with refs := l, cwd := x, gone := false }) rfl rfl
  · exact h.ends_same rfl
  · exact h.ops_same rfl
  · exact h.locked_hold (fun _ => rfl) rfl
  · exact { h.own t with
      held := hheld
      on := fun _ => ⟨((h.own t).on hon).1, ((h.own t).on hon).2.1, by simp [DState.setCwd]⟩
      off := fun hoff => absurd (hon.symm.trans hoff) nofun
      child := fun np tab cwd hc => by
        have hne := h.child_ne hon hc
        simpa [DState.setCwd, hne] using (h.own t).child np tab cwd hc }

theorem setCwd_some (hgone : (ts t).gone = true) (hd : (ts t).Droppable e) :
    Books (s.setCwd t (some e))
      (update ts t { (ts t).drop e with cwd := some e, gone := false }) := by
  have hmem : e ∈ inodeRefs s ts (.inl t) := hd.1
  refine h.setCwd hon ?_ fun e' he' => hd.held ((h.own t).held e' he') he'
  have hmoved := h.counts.inodes.move (u := .inr (.inr t)) hmem nofun
  have hnone : inodeRefs s ts (.inr (.inr t)) = [] := by simp [inodeRefs, hgone]
  rw [hnone] at hmoved
  exact hmoved

theorem setCwd_none (hgone : (ts t).gone = true) :
    Books (s.setCwd t none) (update ts t { ts t with cwd := none, gone := false }) := by
  refine h.setCwd hon ?_ (h.own t).held
  have hnone : inodeRefs s ts (.inr (.inr t)) = [] := by simp [inodeRefs, hgone]
  exact (h.counts.inodes.same rfl).same hnone.symm

end

/-! ## Descriptors -/

theorem setOfile_own (hon : (ts t).on = true) (fd : Fin NOFILE) (x : Option (Fin NFILE))
    (hu : u ≠ t) : Own (s.setOfile t fd x) u (ts u) := by
  refine (h.own u).frame (by simp [DState.setOfile, hu]) rfl rfl (fun _ _ _ => rfl) (fun _ _ => rfl)
    fun np tab cwd hc => ⟨rfl, ?_, rfl⟩
  simp [DState.setOfile, h.child_ne hon hc]

theorem setOfile_tables (hlife : s.life t ≠ .unused) (fd : Fin NOFILE) (x : Option (Fin NFILE)) :
    Tables (s.setOfile t fd x) where
  closed := h.tables.closed
  pages := h.tables.pages
  unused := by
    intro p hp
    have hne : p ≠ t := by
      intro heq
      subst heq
      exact hlife hp
    obtain ⟨hofile, hcwd⟩ := h.tables.unused p hp
    exact ⟨by simpa [DState.setOfile, hne] using hofile, hcwd⟩

theorem setOfile (hon : (ts t).on = true) {l : List (Fin NFILE)} {hid : Option (Fin NOFILE)}
    (hcount : RefCounted (fun f => (s.file f).ref) (fileRefs (s.setOfile t fd x)
      (update ts t (Hold.setTab { ts t with files := l, hidden := hid } fd x))))
    (hlent : (ts t).lent = [] ∨ ∀ f, Opened s t (ts t) f →
      Opened (s.setOfile t fd x) t { ts t with files := l, hidden := hid } f)
    (hblank : ∀ f, f ∈ (ts t).files ∨ Opened s t (ts t) f →
      f ∈ l ∨ Opened (s.setOfile t fd x) t { ts t with files := l, hidden := hid } f) :
    Books (s.setOfile t fd x)
      (update ts t (Hold.setTab { ts t with files := l, hidden := hid } fd x)) := by
  refine h.step ⟨?_, hcount, ?_, ?_, ?_⟩ ?_ (fun u hu => h.setOfile_own hon fd x hu)
    (h.setOfile_tables (h.on_not_unused hon) fd x) (h.child_other rfl)
  · exact h.inodes_same rfl rfl
  · exact h.ends_same (a := Hold.setTab { ts t with files := l, hidden := hid } fd x) rfl
  · exact h.ops_same rfl
  · exact h.locked_hold (fun _ => rfl) rfl
  · exact { h.own t with
      lent := fun e he => by
        rcases hlent with hlent | hlent
        · exact absurd he (by rw [setTab, hlent]; exact List.not_mem_nil)
        · obtain ⟨f, hf, hip⟩ := (h.own t).lent e he
          exact ⟨f, hlent f hf, hip⟩
      blank := fun f hf => by
        obtain ⟨hkind, hone, hown⟩ := (h.own t).blank f hf
        exact ⟨hkind, hone, hblank f hown⟩
      on := fun _ => by
        obtain ⟨hrun, htab, hcwd⟩ := (h.own t).on hon
        exact ⟨hrun, by simp [DState.setOfile, setTab, htab], hcwd⟩
      off := fun hoff => absurd (hon.symm.trans hoff) nofun
      child := fun np tab cwd hc => by
        have hne := h.child_ne hon hc
        simpa [DState.setOfile, hne] using (h.own t).child np tab cwd hc }

omit h in
theorem opened_setOfile (hfree : s.ofile t fd = none)
    (hhid : ∀ fd', a.hidden = some fd' → fd' = fd ∨ (ts t).hidden = some fd')
    (hf : Opened s t (ts t) f) : Opened (s.setOfile t fd x) t a f := by
  obtain ⟨fd', hfd', hvis⟩ := hf
  have hne : fd' ≠ fd := by
    intro heq
    rw [heq, hfree] at hfd'
    cases hfd'
  refine ⟨fd', by simpa [DState.setOfile, hne] using hfd', fun heq => ?_⟩
  exact (hhid fd' heq).elim hne hvis

section
variable (hon : (ts t).on = true)
include hon

theorem setOfile_give (hhid : (ts t).hidden = none)
    (hfree : (ts t).tab fd = none) (hf : f ∈ (ts t).files) :
    Books (s.setOfile t fd (some f)) (update ts t
      (Hold.setTab { ts t with files := (ts t).files.erase f } fd (some f))) := by
  have hfree : s.ofile t fd = none := by
    rw [((h.own t).on hon).2.1]
    exact hfree
  have hkeep (f' : Fin NFILE) (hf' : Opened s t (ts t) f') :
      Opened (s.setOfile t fd (some f)) t { ts t with files := (ts t).files.erase f } f' :=
    opened_setOfile hfree (fun fd' heq => .inr heq) hf'
  refine h.setOfile hon ?_ (.inr hkeep) fun f' hf' => ?_
  · rw [fileRefs_hold _ _ (by exact rfl), fileRefs_setOfile, hhid, if_neg (by simp)]
    have hmem : f ∈ fileRefs s ts (.inl t) := hf
    have hnone : fileRefs s ts (.inr (t, fd)) = [] := by simp [fileRefs, hfree]
    have hmoved := h.counts.files.move (u := .inr (t, fd)) hmem Sum.inr_ne_inl
    rw [hnone, update_comm (by simp)] at hmoved
    exact hmoved
  · rcases hf' with hf' | hf'
    · by_cases heq : f' = f
      · refine .inr ⟨fd, by simp [DState.setOfile, heq], ?_⟩
        rw [hhid]
        simp
      · exact .inl ((List.mem_erase_of_ne heq).mpr hf')
    · exact .inr (hkeep f' hf')

theorem setOfile_early (hhid : (ts t).hidden = none)
    (hfree : (ts t).tab fd = none) (f : Fin NFILE) :
    Books (s.setOfile t fd (some f)) (update ts t
      (Hold.setTab { ts t with hidden := some fd } fd (some f))) := by
  have hfree : s.ofile t fd = none := by
    rw [((h.own t).on hon).2.1]
    exact hfree
  have hkeep (f' : Fin NFILE) (hf' : Opened s t (ts t) f') :
      Opened (s.setOfile t fd (some f)) t { ts t with hidden := some fd } f' :=
    opened_setOfile hfree (fun fd' heq => .inl (Option.some.inj heq).symm) hf'
  refine h.setOfile hon ?_ (.inr hkeep) fun f' hf' => hf'.imp_right (hkeep f')
  refine h.counts.files.congr (fun _ => rfl) fun x => ?_
  rw [fileRefs_hide _ _ fd hhid rfl, fileRefs_setOfile]
  rcases x with v | x
  · by_cases hv : v = t <;> simp [hv, setTab, fileRefs]
  · by_cases hx : x = (t, fd) <;> simp [hx, fileRefs, hfree]

theorem setOfile_clear (hlent : (ts t).lent = []) (hhid : (ts t).hidden = some fd) :
    Books (s.setOfile t fd none)
      (update ts t (Hold.setTab { ts t with hidden := none } fd none)) := by
  refine h.setOfile hon ?_ (.inl hlent) fun f' hf' => hf'.imp_right ?_
  · refine h.counts.files.congr (fun _ => rfl) fun x => ?_
    rw [fileRefs_unhide _ _ fd hhid rfl, fileRefs_setOfile]
    rcases x with v | x
    · by_cases hv : v = t <;> simp [hv, setTab, fileRefs]
    · by_cases hx : x = (t, fd) <;> simp [hx, fileRefs, hhid, DState.setOfile]
  · intro hopen
    obtain ⟨fd', hfd', hvis⟩ := hopen
    have hne : fd' ≠ fd := by
      intro heq
      exact hvis (heq ▸ hhid)
    exact ⟨fd', by simpa [DState.setOfile, hne] using hfd', by simp⟩

end

theorem setOfile_take (hlent : (ts t).lent = []) (hslot : (ts t).Slot fd f) :
    Books (s.setOfile t fd none) (update ts t (((ts t).takeFile f).setTab fd none)) := by
  obtain ⟨hofile, hvis⟩ := h.slot_opened hslot
  refine h.setOfile hslot.1 ?_ (.inl hlent) fun f' hf' => ?_
  · rw [fileRefs_hold _ _ (by exact rfl), fileRefs_setOfile, if_neg hvis]
    have hmem : f ∈ fileRefs s ts (.inr (t, fd)) := opened_mem hofile hvis
    have hone : fileRefs s ts (.inr (t, fd)) = [f] := by simp [fileRefs, hvis, hofile]
    have hmoved := h.counts.files.move (u := .inl t) hmem Sum.inl_ne_inr
    rw [hone, List.erase_cons_head] at hmoved
    exact hmoved
  · rcases hf' with hf' | ⟨fd', hfd', hvis'⟩
    · exact .inl (List.mem_cons_of_mem _ hf')
    · by_cases hne : fd' = fd
      · rw [hne, hofile] at hfd'
        cases hfd'
        exact .inl (List.mem_cons_self ..)
      · exact .inr ⟨fd', by simpa [DState.setOfile, hne] using hfd', hvis'⟩

theorem hide (hlent : (ts t).lent = []) (hslot : (ts t).Slot fd f) (hhid : (ts t).hidden = none) :
    Books s (update ts t ((ts t).hide fd f)) := by
  obtain ⟨hofile, hvis⟩ := h.slot_opened hslot
  refine h.step ⟨h.inodes_same rfl rfl, ?_, h.ends_same rfl, h.ops_same rfl,
    h.locked_hold (fun _ => rfl) rfl⟩ ?_ (fun u _ => h.own u) h.tables (h.child_other rfl)
  · rw [fileRefs_hide s ts fd hhid rfl]
    have hmem : f ∈ fileRefs s ts (.inr (t, fd)) := opened_mem hofile hvis
    have hone : fileRefs s ts (.inr (t, fd)) = [f] := by simp [fileRefs, hvis, hofile]
    have hmoved := h.counts.files.move (u := .inl t) hmem Sum.inl_ne_inr
    rw [hone, List.erase_cons_head, update_comm (by simp)] at hmoved
    exact hmoved
  · exact { h.own t with
      lent := fun e he => absurd he (by rw [Hold.hide, hlent]; exact List.not_mem_nil)
      blank := fun f' hf' => by
        obtain ⟨hkind, hone, hown⟩ := (h.own t).blank f' hf'
        refine ⟨hkind, hone, ?_⟩
        rcases hown with hmem | ⟨fd', hfd', hvis'⟩
        · exact .inl (List.mem_cons_of_mem _ hmem)
        · by_cases hne : fd' = fd
          · rw [hne, hofile] at hfd'
            cases hfd'
            exact .inl (List.mem_cons_self ..)
          · exact .inr ⟨fd', hfd', fun heq => hne (Option.some.inj heq).symm⟩
      off := fun hoff => Bool.noConfusion (hslot.1.symm.trans hoff) }

end Books

end Xv6.Dir
