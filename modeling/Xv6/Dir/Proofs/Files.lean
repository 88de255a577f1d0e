import Xv6.Dir.Proofs.Counting

/-!
# Files, pipes and processes in the books

The operations on the file table, on the ends of pipes and on the process table keep the books.
-/

namespace Xv6.Dir

open DState (setFile endCount)
open Hold
open Function (update update_comm update_idem update_self update_of_ne update_eq_self)

variable {s s' : DState} {ts : Proc → Hold} {a : Hold} {t u p : Proc} {e : Fin NINODE}
  {f : Fin NFILE} {fd : Fin NOFILE} {kind : FileKind}

namespace Books

variable (h : Books s ts)
include h

/-! ## Files -/

variable {writable : Bool} {x : File} {pi : Nat} {cwd : Option (Fin NINODE)} {np : Proc}
  {tab : Table}

theorem setFile_tables (hx : x.ref = 0 → x.kind = .none) : Tables (s.setFile f x) where
  closed := by
    intro f' hf'
    by_cases heq : f' = f
    · subst heq
      simp only [setFile, update_self] at hf' ⊢
      exact hx hf'
    · simp only [setFile, update_of_ne heq] at hf' ⊢
      exact h.tables.closed f' hf'
  pages := h.tables.pages
  unused := h.tables.unused

theorem setCount (hkind : x.kind = (s.file f).kind) (hpos : x.ref ≠ 0)
    (hcount : RefCounted (update (fun f' => (s.file f').ref) f x.ref) (fileRefs s (update ts t a)))
    (hsame : a.refs = (ts t).refs ∧ a.gone = (ts t).gone ∧ a.ends = (ts t).ends ∧
      a.ops = (ts t).ops ∧ a.locks = (ts t).locks ∧ a.child = (ts t).child)
    (ha : Own (s.setFile f x) t a) (hblank : ∀ u, u ≠ t → f ∉ (ts u).blank) :
    Books (s.setFile f x) (update ts t a) := by
  obtain ⟨hrefs, hgone, hends, hops, hlocks, hchild⟩ := hsame
  refine h.step ⟨?_, ?_, ?_, h.ops_same hops, h.locked_hold (fun _ => rfl) hlocks⟩ ha
    (fun u hu => (h.own u).frame_file (fun _ _ => hkind) (hblank u hu))
    (h.setFile_tables fun h0 => absurd h0 hpos) (h.child_other hchild)
  · rw [inodeRefs_setFile, hkind]
    exact (h.inodes_same hrefs hgone).same rfl
  · rw [ref_setFile]
    exact hcount
  · rw [endRefs_setFile, hkind]
    exact (h.ends_same hends).same rfl

theorem own_setCount (hkind : x.kind = (s.file f).kind) (hf : f ∉ (ts t).blank) :
    Own (s.setFile f x) t (ts t) :=
  (h.own t).frame_file (fun _ _ => hkind) hf

theorem filealloc (hfree : (s.file f).ref = 0) :
    Books (s.setFile f { s.file f with ref := 1 }) (update ts t ((ts t).newFile f)) := by
  have hblank (u : Proc) : f ∉ (ts u).blank := fun hmem => by
    have hone := ((h.own u).blank f hmem).2.1
    omega
  have hown := h.own_setCount (x := { s.file f with ref := 1 }) rfl (hblank t)
  refine h.setCount rfl Nat.one_ne_zero ?_ ⟨rfl, rfl, rfl, rfl, rfl, rfl⟩ ?_ fun u _ => hblank u
  · rw [fileRefs_hold s ts (a := (ts t).newFile f) rfl]
    exact h.counts.files.first (.inl t) hfree
  · exact { hown with
      blank := fun f' hf' => by
        rcases List.mem_cons.mp hf' with rfl | hf'
        · refine ⟨?_, ?_, .inl (List.mem_cons_self ..)⟩
          · simpa [setFile] using h.tables.closed f' hfree
          · simp [setFile]
        · obtain ⟨hkind, hone, hown⟩ := hown.blank f' hf'
          exact ⟨hkind, hone, hown.imp_left (List.mem_cons_of_mem _)⟩
      nodup := List.nodup_cons.mpr ⟨hblank t, (h.own t).nodup⟩ }

theorem filedup (hf : (ts t).HasFile f) (hb : f ∉ (ts t).blank) :
    Books (s.setFile f { s.file f with ref := (s.file f).ref + 1 })
      (update ts t ((ts t).takeFile f)) := by
  have hother (u : Proc) (hu : u ≠ t) : f ∉ (ts u).blank := fun hmem =>
    hu (h.blank_own (h.hasFile_opened hf) hmem)
  have hown := h.own_setCount (x := { s.file f with ref := (s.file f).ref + 1 }) rfl hb
  refine h.setCount rfl (Nat.succ_ne_zero _) ?_ ⟨rfl, rfl, rfl, rfl, rfl, rfl⟩ ?_ hother
  · rw [fileRefs_hold s ts (a := (ts t).takeFile f) rfl]
    exact h.counts.files.take (.inl t) f
  · exact { hown with
      blank := fun f' hf' => by
        obtain ⟨hkind, hone, hown⟩ := hown.blank f' hf'
        exact ⟨hkind, hone, hown.imp_left (List.mem_cons_of_mem _)⟩ }

theorem filedup_early (hf : (ts t).HasFile f) (hb : f ∉ (ts t).blank) (hon : (ts t).on = true)
    (hhid : (ts t).hidden = some fd) (htab : (ts t).tab fd = some f) :
    Books (s.setFile f { s.file f with ref := (s.file f).ref + 1 })
      (update ts t { ts t with hidden := none }) := by
  have hofile : s.ofile t fd = some f := by
    rw [((h.own t).on hon).2.1]
    exact htab
  have hother (u : Proc) (hu : u ≠ t) : f ∉ (ts u).blank := fun hmem =>
    hu (h.blank_own (h.hasFile_opened hf) hmem)
  have hown := h.own_setCount (x := { s.file f with ref := (s.file f).ref + 1 }) rfl hb
  have hopen {f' : Fin NFILE} (hf' : Opened (s.setFile f { s.file f with ref := (s.file f).ref + 1 })
      t (ts t) f') : Opened (s.setFile f { s.file f with ref := (s.file f).ref + 1 }) t
        { ts t with hidden := none } f' := by
    obtain ⟨fd', hfd', -⟩ := hf'
    exact ⟨fd', hfd', by simp⟩
  refine h.setCount rfl (Nat.succ_ne_zero _) ?_ ⟨rfl, rfl, rfl, rfl, rfl, rfl⟩ ?_ hother
  · have htaken := h.counts.files.take (.inr (t, fd)) f
    have hnone : fileRefs s ts (.inr (t, fd)) = [] := by simp [fileRefs, hhid]
    have hself : update (fileRefs s ts) (.inl t) (ts t).files = fileRefs s ts :=
      update_eq_self (.inl t) (fileRefs s ts)
    rw [hnone] at htaken
    rw [fileRefs_unhide s ts fd hhid rfl, hself, hofile]
    exact htaken
  · exact { hown with
      lent := fun e he => by
        obtain ⟨f', hf', hip⟩ := hown.lent e he
        exact ⟨f', hopen hf', hip⟩
      blank := fun f' hf' => by
        obtain ⟨hkind, hone, hown⟩ := hown.blank f' hf'
        exact ⟨hkind, hone, hown.imp_right hopen⟩
      off := fun hoff => Bool.noConfusion (hon.symm.trans hoff) }

theorem borrow (hslot : (ts t).Slot fd f) :
    Books s (update ts t ((ts t).borrow (s.file f).kind.ips)) := by
  have hopen := h.slot_opened hslot
  refine h.step ⟨h.inodes_same rfl rfl, h.files_same rfl rfl, h.ends_same rfl, h.ops_same rfl,
    h.locked_hold (fun _ => rfl) rfl⟩ ?_ (fun u _ => h.own u) h.tables (h.child_other rfl)
  exact { h.own t with
    held := fun e he => ((h.own t).held e he).imp_right (List.mem_append_right _)
    lent := fun e he => by
      rcases List.mem_append.mp he with he | he
      · exact ⟨f, ⟨fd, hopen⟩, he⟩
      · exact (h.own t).lent e he
    off := fun hoff => absurd (hslot.1.symm.trans hoff) nofun }

/-! ### The kind of a file -/

theorem setKind (hb : f ∈ (ts t).blank)
    (hinodes : RefCounted (fun e => (s.icache e).ref)
      (update (update (inodeRefs s ts) (.inl t) a.refs) (.inr (.inl f)) kind.ips))
    (hends : RefCounted s.endCount
      (update (update (endRefs s ts) (.inl t) a.ends) (.inr f) kind.ends))
    (hsame : a.files = (ts t).files ∧ a.hidden = (ts t).hidden ∧ a.gone = (ts t).gone ∧
      a.ops = (ts t).ops ∧ a.locks = (ts t).locks ∧ a.child = (ts t).child)
    (ha : Own (s.setFile f { s.file f with kind := kind }) t a) :
    Books (s.setFile f { s.file f with kind := kind }) (update ts t a) := by
  obtain ⟨hfiles, hhid, hgone, hops, hlocks, hchild⟩ := hsame
  obtain ⟨hnone, hone, hown⟩ := (h.own t).blank f hb
  refine h.step ⟨?_, ?_, ?_, h.ops_same hops, h.locked_hold (fun _ => rfl) hlocks⟩ ha
    (fun u hu => (h.own u).frame_file (fun _ hkind => absurd hnone hkind) fun hmem => ?_)
    (h.setFile_tables fun h0 => ?_) (h.child_other hchild)
  · rw [inodeRefs_setFile, inodeRefs_hold s ts hgone]
    exact hinodes
  · rw [ref_setFile, update_eq_self f fun f => (s.file f).ref]
    exact h.files_same hfiles hhid
  · rw [endRefs_setFile, endRefs_hold]
    exact hends
  · exact hu (h.blank_own hown hmem)
  · have hzero : (s.file f).ref = 0 := h0
    omega

theorem own_typed (kind : FileKind) (hb : f ∈ (ts t).blank) :
    Own (s.setFile f { s.file f with kind := kind }) t ((ts t).typed f) := by
  have hnone := h.blank_none hb
  have hnodup := (h.own t).nodup
  have hown : Own s t ((ts t).typed f) :=
    { h.own t with
      blank := fun f' hf' => (h.own t).blank f' (List.mem_of_mem_erase hf')
      nodup := hnodup.erase f }
  exact hown.frame_file (fun _ hkind => absurd hnone hkind) (hnodup.not_mem_erase)

theorem setFile_pipe (hb : f ∈ (ts t).blank) (hmem : (pi, writable) ∈ (ts t).ends) :
    Books (s.setFile f { s.file f with kind := .pipe pi writable })
      (update ts t (((ts t).dropEnd (pi, writable)).typed f)) := by
  have hnone := h.blank_none hb
  refine h.setKind hb ?_ ?_ ⟨rfl, rfl, rfl, rfl, rfl, rfl⟩ { h.own_typed _ hb with }
  · have hempty : inodeRefs s ts (.inr (.inl f)) = [] := by simp [inodeRefs, hnone, FileKind.ips]
    exact (h.counts.inodes.same rfl).same hempty.symm
  · have hmem : (pi, writable) ∈ endRefs s ts (.inl t) := hmem
    have hempty : endRefs s ts (.inr f) = [] := by simp [endRefs, hnone, FileKind.ends]
    have hmoved := h.counts.ends.move (u := .inr f) hmem Sum.inr_ne_inl
    rw [hempty] at hmoved
    exact hmoved

theorem setFile_inode (hb : f ∈ (ts t).blank) (hips : kind.ips = [e])
    (hends : kind.ends = []) (hmem : e ∈ (ts t).refs) (hslot : (ts t).Slot fd f) :
    Books (s.setFile f { s.file f with kind := kind })
      (update ts t ((((ts t).drop e).borrow [e]).typed f)) := by
  have hnone := h.blank_none hb
  have hopen := h.slot_opened hslot
  have hown := h.own_typed kind hb
  refine h.setKind hb ?_ ?_ ⟨rfl, rfl, rfl, rfl, rfl, rfl⟩ ?_
  · have hmem : e ∈ inodeRefs s ts (.inl t) := hmem
    have hempty : inodeRefs s ts (.inr (.inl f)) = [] := by simp [inodeRefs, hnone, FileKind.ips]
    have hmoved := h.counts.inodes.move (u := .inr (.inl f)) hmem Sum.inr_ne_inl
    rw [hempty] at hmoved
    rw [hips]
    exact hmoved
  · have hempty : endRefs s ts (.inr f) = [] := by simp [endRefs, hnone, FileKind.ends]
    rw [hends]
    exact (h.counts.ends.same rfl).same hempty.symm
  · exact { hown with
      held := fun e' he' => by
        by_cases heq : e' = e
        · exact .inr (heq ▸ List.mem_cons_self ..)
        · refine ((h.own t).held e' he').imp (fun hmem => ?_) (List.mem_cons_of_mem _)
          exact (List.mem_erase_of_ne heq).mpr hmem
      lent := fun e' he' => by
        rcases List.mem_cons.mp he' with rfl | he'
        · exact ⟨f, ⟨fd, hopen⟩, by simp [setFile, hips]⟩
        · exact hown.lent e' he'
      off := fun hoff => Bool.noConfusion (hslot.1.symm.trans hoff) }

/-! ### Closing a file -/

section
variable (hlent : (ts t).lent = [])
include hlent

/-- What a process knows after it has dropped a reference to a file. -/
theorem own_dropFile : Own (s.setFile f x) t ((ts t).dropFile f) := by
  have hnodup := (h.own t).nodup
  have hown : Own s t ((ts t).dropFile f) :=
    { h.own t with
      blank := fun f' hf' => by
        obtain ⟨hkind, hone, hown⟩ := (h.own t).blank f' (List.mem_of_mem_erase hf')
        have hne : f' ≠ f := by
          intro heq
          subst heq
          exact hnodup.not_mem_erase hf'
        exact ⟨hkind, hone, hown.imp_left (List.mem_erase_of_ne hne).mpr⟩
      nodup := hnodup.erase f }
  have hopen : Own (s.setFile f x) t ((ts t).dropFile f) := by
    refine { hown with
      lent := fun e he => absurd he (by rw [dropFile, hlent]; exact List.not_mem_nil)
      blank := fun f' hf' => ?_ }
    have hne : f' ≠ f := by
      intro heq
      subst heq
      exact hnodup.not_mem_erase hf'
    simpa [setFile, hne, Opened] using hown.blank f' hf'
  exact hopen

theorem fileUnref_some (hf : f ∈ (ts t).files)
    (hmany : 1 < (s.file f).ref) : Books (s.setFile f { s.file f with ref := (s.file f).ref - 1 })
      (update ts t ((ts t).dropFile f)) := by
  refine h.setCount rfl (by simp; omega) ?_ ⟨rfl, rfl, rfl, rfl, rfl, rfl⟩ (h.own_dropFile hlent)
    fun u hu hmem => hu (h.blank_own (.inl hf) hmem)
  have hmem : f ∈ fileRefs s ts (.inl t) := hf
  rw [fileRefs_hold s ts (a := (ts t).dropFile f) rfl]
  exact h.counts.files.drop hmem

theorem fileUnref_last (hf : f ∈ (ts t).files)
    (hone : (s.file f).ref = 1) : Books (s.setFile f { ref := 0, kind := .none })
      (update ts t (((ts t).dropFile f).gain (s.file f).kind)) := by
  have hown := h.own_dropFile (f := f) (x := { ref := 0, kind := .none }) hlent
  refine h.step ⟨?_, ?_, ?_, h.ops_same rfl, h.locked_hold (fun _ => rfl) rfl⟩ ?_ (fun u hu => ?_)
    (h.setFile_tables fun _ => rfl) (h.child_other rfl)
  · rw [inodeRefs_setFile, inodeRefs_hold s ts (a := ((ts t).dropFile f).gain (s.file f).kind) rfl,
      update_comm (by simp)]
    have hmoved := h.counts.inodes.moveAll (t := .inr (.inl f)) (u := .inl t) nofun
    exact hmoved
  · have hmem : f ∈ fileRefs s ts (.inl t) := hf
    have hdrop := h.counts.files.drop hmem
    rw [hone] at hdrop
    rw [ref_setFile]
    show RefCounted _ (fileRefs s _)
    rw [fileRefs_hold s ts (a := ((ts t).dropFile f).gain (s.file f).kind) rfl]
    exact hdrop
  · rw [endRefs_setFile, endRefs_hold, update_comm (by simp)]
    have hmoved := h.counts.ends.moveAll (t := .inr f) (u := .inl t) nofun
    exact hmoved
  · exact { hown with
      held := fun e he => ((h.own t).held e he).imp_left (List.mem_append_right _) }
  · refine (h.own u).frame_file (fun hopen _ => ?_) fun hmem => hu (h.blank_own (.inl hf) hmem)
    exact absurd (h.file_last hone (.inl hf) (.inr hopen)) hu

end

/-! ## Pipes and operations -/

omit h in
theorem endCount_setPipe (s : DState) (pi : Nat) (x : Option PipeEnds) (y : Nat × Bool) :
    (s.setPipe pi x).endCount y = if y.1 = pi then openCount x y.2 else s.endCount y := by
  by_cases hy : y.1 = pi <;> simp [endCount, DState.setPipe, hy]

theorem setPipe {x : Option PipeEnds} {l : List (Nat × Bool)}
    (hcount : RefCounted (s.setPipe pi x).endCount (update (endRefs s ts) (.inl t) l))
    (hx : ∀ y, x = some y → y.readopen = true ∨ y.writeopen = true) :
    Books (s.setPipe pi x) (update ts t { ts t with ends := l }) := by
  have hown (u : Proc) : Own (s.setPipe pi x) u (ts u) :=
    (h.own u).frame rfl rfl rfl (fun _ _ _ => rfl) (fun _ _ => rfl) fun _ _ _ _ => ⟨rfl, rfl, rfl⟩
  refine h.step ⟨?_, ?_, ?_, h.ops_same rfl, h.locked_hold (fun _ => rfl) rfl⟩ { hown t with }
    (fun u _ => hown u) ⟨h.tables.closed, fun pi' y hy => ?_, h.tables.unused⟩ (h.child_other rfl)
  · exact h.inodes_same rfl rfl
  · exact h.files_same rfl rfl
  · rw [endRefs_hold]
    exact hcount
  · by_cases heq : pi' = pi
    · subst heq
      simp only [DState.setPipe, update_self] at hy
      exact hx y hy
    · simp only [DState.setPipe, update_of_ne heq] at hy
      exact h.tables.pages pi' y hy

theorem pipeNew (hfree : s.pipe pi = none) :
    Books (s.setPipe pi (some ⟨true, true⟩)) (update ts t ((ts t).newPipe pi)) := by
  refine h.setPipe ?_ fun y hy => by cases hy; exact .inl rfl
  have hzero (w : Bool) : s.endCount (pi, w) = 0 := by simp [endCount, hfree, openCount]
  have hone := h.counts.ends.first (.inl t) (hzero true)
  have htwo := hone.first (a := (pi, false)) (.inl t) (by simp [hzero])
  rw [update_self, update_idem] at htwo
  refine htwo.congr (fun y => ?_) fun _ => rfl
  obtain ⟨pi', w⟩ := y
  rw [endCount_setPipe]
  by_cases heq : pi' = pi
  · subst heq
    cases w <;> simp [openCount, PipeEnds.isOpen]
  · simp [heq, update]

theorem end_open (hmem : (pi, writable) ∈ (ts t).ends) :
    ∃ x, s.pipe pi = some x ∧ x.isOpen writable = true := by
  have hmem : (pi, writable) ∈ endRefs s ts (.inl t) := hmem
  have hpos : 0 < openCount (s.pipe pi) writable :=
    RefCounted.pos (a := (pi, writable)) h.counts.ends hmem
  cases hx : s.pipe pi with
  | none => simp [hx, openCount] at hpos
  | some x =>
    refine ⟨x, rfl, ?_⟩
    cases hopen : x.isOpen writable with
    | true => rfl
    | false => simp [hx, hopen, openCount] at hpos

omit h in
theorem isOpen_shut (x : PipeEnds) (w w' : Bool) :
    (x.shut w).isOpen w' = if w' = w then false else x.isOpen w' := by
  cases w <;> cases w' <;> simp [PipeEnds.shut, PipeEnds.isOpen]

theorem pipeclose {x : PipeEnds} {y : Option PipeEnds} (hmem : (pi, writable) ∈ (ts t).ends)
    (hx : s.pipe pi = some x) (hshut : ∀ w, openCount y w = openCount (some (x.shut writable)) w)
    (hy : ∀ z, y = some z → z.readopen = true ∨ z.writeopen = true) :
    Books (s.setPipe pi y) (update ts t ((ts t).dropEnd (pi, writable))) := by
  have hmem' : (pi, writable) ∈ endRefs s ts (.inl t) := hmem
  have hcount (w : Bool) : s.endCount (pi, w) = openCount (some x) w := by
    simp [endCount, hx]
  refine h.setPipe ((h.counts.ends.drop hmem').congr (fun z => ?_) fun _ => rfl) hy
  obtain ⟨pi', w⟩ := z
  rw [endCount_setPipe]
  by_cases heq : pi' = pi
  · subst heq
    rw [if_pos rfl, hshut, hcount]
    by_cases hw : w = writable
    · subst hw
      simp [openCount, isOpen_shut]
      split <;> rfl
    · simp [openCount, isOpen_shut, hw, hcount]
  · simp [heq]

theorem setOps {n : Nat} {l : List Unit}
    (hcount : RefCounted (fun _ => n) (update (fun t => (ts t).ops) t l)) :
    Books { s with outstanding := n } (update ts t { ts t with ops := l }) := by
  have hown (u : Proc) : Own { s with outstanding := n } u (ts u) :=
    (h.own u).frame rfl rfl rfl (fun _ _ _ => rfl) (fun _ _ => rfl) fun _ _ _ _ => ⟨rfl, rfl, rfl⟩
  refine h.step ⟨?_, ?_, ?_, ?_, h.locked_hold (fun _ => rfl) rfl⟩ { hown t with }
    (fun u _ => hown u) ⟨h.tables.closed, h.tables.pages, h.tables.unused⟩ (h.child_other rfl)
  · exact h.inodes_same rfl rfl
  · exact h.files_same rfl rfl
  · exact h.ends_same rfl
  · rw [ops_hold]
    exact hcount

theorem beginOp :
    Books { s with outstanding := s.outstanding + 1 } (update ts t (ts t).beginOp) := by
  refine h.setOps ?_
  exact (h.counts.ops.take t ()).congr (fun _ => by simp) fun _ => rfl

theorem endOp (hmem : () ∈ (ts t).ops) :
    Books { s with outstanding := s.outstanding - 1 } (update ts t (ts t).endOp) := by
  refine h.setOps ?_
  have hmem : () ∈ (fun t => (ts t).ops) t := hmem
  exact (h.counts.ops.drop hmem).congr (fun _ => by simp) fun _ => rfl

/-! ## Processes -/

theorem enter (hrun : s.life t = .running) (hlocks : (ts t).locks = ∅) :
    Books s (update ts t
      { ts t with on := true, tab := s.ofile t, cwd := s.cwd t, lent := [] }) := by
  refine h.step ⟨h.inodes_same rfl rfl, h.files_same rfl rfl, h.ends_same rfl, h.ops_same rfl,
    h.locked_hold (fun _ => rfl) rfl⟩ ?_ (fun u _ => h.own u) h.tables (h.child_other rfl)
  exact { h.own t with
    held := fun e he => absurd he (by rw [hlocks]; exact Finset.notMem_empty e)
    lent := nofun
    on := fun _ => ⟨hrun, rfl, rfl⟩
    off := nofun }

theorem setLife {l : Life}
    (hsame : a.refs = (ts t).refs ∧ a.gone = (ts t).gone ∧ a.files = (ts t).files ∧
      a.hidden = (ts t).hidden ∧ a.ends = (ts t).ends ∧ a.ops = (ts t).ops ∧
      a.locks = (ts t).locks)
    (ha : Own (s.setLife p l) t a) (hother : ∀ u, u ≠ t → Own (s.setLife p l) u (ts u))
    (hunused : l = .unused → (∀ fd, s.ofile p fd = none) ∧ s.cwd p = none)
    (hchild : ∀ np tab cwd, a.child = some (np, tab, cwd) → ∀ u, u ≠ t →
      ∀ tab' cwd', (ts u).child ≠ some (np, tab', cwd')) :
    Books (s.setLife p l) (update ts t a) := by
  obtain ⟨hrefs, hgone, hfiles, hhid, hends, hops, hlocks⟩ := hsame
  refine h.step ⟨?_, ?_, ?_, h.ops_same hops, h.locked_hold (fun _ => rfl) hlocks⟩ ha hother
    ⟨h.tables.closed, h.tables.pages, fun p' hp' => ?_⟩ hchild
  · exact h.inodes_same hrefs hgone
  · exact h.files_same hfiles hhid
  · exact h.ends_same hends
  · by_cases heq : p' = p
    · subst heq
      simp only [DState.setLife, update_self] at hp'
      exact hunused hp'
    · simp only [DState.setLife, update_of_ne heq] at hp'
      exact h.tables.unused p' hp'

/-- A process does not notice the life of a slot that it neither is nor sets up. -/
theorem own_setLife (l : Life) (hon : (ts u).on = true → u ≠ p)
    (hchild : ∀ np tab cwd, (ts u).child = some (np, tab, cwd) → np ≠ p) :
    Own (s.setLife p l) u (ts u) :=
  { h.own u with
    on := fun hu => by simpa [DState.setLife, hon hu] using (h.own u).on hu
    child := fun np tab cwd hc => by
      simpa [DState.setLife, hchild np tab cwd hc] using (h.own u).child np tab cwd hc }

theorem on_ne (hlife : s.life p ≠ .running) (hon : (ts u).on = true) : u ≠ p := by
  intro heq
  subst heq
  exact hlife ((h.own u).on hon).1

theorem allocproc (hfree : s.life np = .unused) : Books (s.setLife np .embryo)
      (update ts t { ts t with child := some (np, fun _ => none, none) }) := by
  have hnot (u : Proc) (np' : Proc) (tab : Table) (cwd : Option (Fin NINODE))
      (hc : (ts u).child = some (np', tab, cwd)) : np' ≠ np := by
    intro heq
    have hemb := ((h.own u).child np' tab cwd hc).1
    rw [heq, hfree] at hemb
    cases hemb
  have hidle : s.life np ≠ .running := by
    rw [hfree]
    exact nofun
  have hown (u : Proc) : Own (s.setLife np .embryo) u (ts u) :=
    h.own_setLife .embryo (h.on_ne hidle) (hnot u)
  refine h.setLife ⟨rfl, rfl, rfl, rfl, rfl, rfl, rfl⟩ ?_ (fun u _ => hown u) nofun ?_
  · exact { hown t with
      child := fun np' tab cwd hc => by
        cases hc
        obtain ⟨hofile, hcwd⟩ := h.tables.unused np hfree
        exact ⟨by simp [DState.setLife], funext hofile, hcwd⟩ }
  · intro np' tab cwd hc u _ tab' cwd' hu
    cases hc
    exact hnot u np tab' cwd' hu rfl

theorem runnable (hchild : (ts t).child = some (np, tab, cwd)) :
    Books (s.setLife np .running) (update ts t { ts t with child := none }) := by
  have hemb : s.life np ≠ .running := by
    rw [((h.own t).child np tab cwd hchild).1]
    exact nofun
  refine h.setLife ⟨rfl, rfl, rfl, rfl, rfl, rfl, rfl⟩ ?_ (fun u hu => ?_) nofun nofun
  · exact { h.own t with
      on := fun ht => by
        have hne := h.on_ne hemb ht
        simpa [DState.setLife, hne] using (h.own t).on ht
      child := nofun }
  · refine h.own_setLife .running (h.on_ne hemb) fun np' tab' cwd' hc heq => ?_
    subst heq
    exact hu (h.oneChild u t np' tab' cwd' tab cwd hc hchild)

theorem zombie (hon : (ts t).on = true) (htab : ∀ fd, (ts t).tab fd = none)
    (hcwd : (ts t).cwd = none) (hgone : (ts t).gone = false) (hhid : (ts t).hidden = none)
    (hchild : (ts t).child = none) (hlocks : (ts t).locks = ∅) :
    Books (s.setLife t .unused) (update ts t { ts t with on := false, lent := [] }) := by
  obtain ⟨hrun, hofile, hdir⟩ := (h.own t).on hon
  refine h.setLife ⟨rfl, rfl, rfl, rfl, rfl, rfl, rfl⟩ ?_ (fun u hu => ?_) (fun _ => ?_) ?_
  · exact { h.own t with
      held := fun e he => absurd he (by rw [hlocks]; exact Finset.notMem_empty e)
      lent := nofun
      on := nofun
      off := fun _ => ⟨hgone, hhid, rfl⟩
      child := fun np tab cwd hc => absurd (hchild.symm.trans hc) nofun }
  · exact h.own_setLife .unused (fun _ => hu) fun np tab cwd hc => h.child_ne hon hc
  · exact ⟨fun fd => by rw [hofile]; exact htab fd, by rw [hdir]; exact hcwd⟩
  · exact fun np tab cwd hc => absurd (hchild.symm.trans hc) nofun

/-! ### A process that is being set up -/

/-- Nobody else sees the tables of a process that is being set up. -/
theorem own_child (hchild : (ts t).child = some (np, tab, cwd)) (hu : u ≠ t)
    (hofile : ∀ p, p ≠ np → s'.ofile p = s.ofile p) (hcwd : ∀ p, p ≠ np → s'.cwd p = s.cwd p)
    (hlife : s'.life = s.life) (hfile : s'.file = s.file)
    (hopen : ∀ fd f, s.ofile np fd = some f → s'.ofile np fd = some f) : Own s' u (ts u) := by
  have hemb : s.life np ≠ .running := by
    rw [((h.own t).child np tab cwd hchild).1]
    exact nofun
  have hkids (np' : Proc) (tab' : Table) (cwd' : Option (Fin NINODE))
      (hc : (ts u).child = some (np', tab', cwd')) : np' ≠ np := by
    intro heq
    subst heq
    exact hu (h.oneChild u t np' tab' cwd' tab cwd hc hchild)
  by_cases hnp : u = np
  · subst hnp
    have hoff := h.off_of_not_running hemb
    obtain ⟨-, -, hlent⟩ := (h.own u).off hoff
    exact { h.own u with
      lent := fun e he => absurd he (by rw [hlent]; exact List.not_mem_nil)
      blank := fun f hf => by
        rw [hfile]
        obtain ⟨hkind, hone, hown⟩ := (h.own u).blank f hf
        refine ⟨hkind, hone, hown.imp_right ?_⟩
        exact fun ⟨fd, hfd, hhid⟩ => ⟨fd, hopen fd f hfd, hhid⟩
      on := fun hon => absurd (hon.symm.trans hoff) nofun
      child := fun np' tab' cwd' hc => by
        rw [hlife, hofile np' (hkids np' tab' cwd' hc), hcwd np' (hkids np' tab' cwd' hc)]
        exact (h.own u).child np' tab' cwd' hc }
  · refine (h.own u).frame (hofile u hnp) (hcwd u hnp) (by rw [hlife]) (fun f _ _ => by rw [hfile])
      (fun f _ => by rw [hfile]) fun np' tab' cwd' hc => ?_
    have hne := hkids np' tab' cwd' hc
    exact ⟨by rw [hlife], hofile np' hne, hcwd np' hne⟩

theorem child_facts (hchild : (ts t).child = some (np, tab, cwd)) :
    s.life np ≠ .unused ∧ s.ofile np = tab ∧ s.cwd np = cwd ∧ (ts np).gone = false ∧
      (ts np).hidden = none := by
  obtain ⟨hlife, hofile, hcwd⟩ := (h.own t).child np tab cwd hchild
  have hoff := (h.own np).off (h.off_of_not_running (by rw [hlife]; exact nofun))
  exact ⟨by rw [hlife]; exact nofun, hofile, hcwd, hoff.1, hoff.2.1⟩

theorem forkOfile (hon : (ts t).on = true) (hchild : (ts t).child = some (np, tab, cwd))
    (hfree : tab fd = none) (hmem : f ∈ (ts t).files) (hb : f ∉ (ts t).blank) :
    Books (s.setOfile np fd (some f)) (update ts t { ts t with
      files := (ts t).files.erase f, child := some (np, update tab fd (some f), cwd) }) := by
  obtain ⟨hlife, hofile, hcwd, hgone, hhid⟩ := h.child_facts hchild
  have hnp : np ≠ t := h.child_ne hon hchild
  have hmem' : f ∈ fileRefs s ts (.inl t) := hmem
  have hnone : fileRefs s ts (.inr (np, fd)) = [] := by simp [fileRefs, hofile, hfree]
  refine h.step ⟨?_, ?_, ?_, h.ops_same rfl, h.locked_hold (fun _ => rfl) rfl⟩ ?_ (fun u hu => ?_)
    (h.setOfile_tables hlife fd (some f)) ?_
  · exact h.inodes_same (a := { ts t with
      files := (ts t).files.erase f, child := some (np, update tab fd (some f), cwd) }) rfl rfl
  · have hmoved := h.counts.files.move (u := .inr (np, fd)) hmem' Sum.inr_ne_inl
    rw [hnone, update_comm (by simp)] at hmoved
    rw [fileRefs_hold _ _ (by exact rfl), fileRefs_setOfile, hhid, if_neg (by simp)]
    exact hmoved
  · exact h.ends_same (a := { ts t with
      files := (ts t).files.erase f, child := some (np, update tab fd (some f), cwd) }) rfl
  · have hsame : (s.setOfile np fd (some f)).ofile t = s.ofile t := by
      simp [DState.setOfile, Ne.symm hnp]
    exact { h.own t with
      lent := fun e he => by
        obtain ⟨f', hf', hip⟩ := (h.own t).lent e he
        exact ⟨f', by rwa [Opened, hsame], hip⟩
      blank := fun f' hf' => by
        obtain ⟨hkind, hone, hown⟩ := (h.own t).blank f' hf'
        have hne : f' ≠ f := by
          intro heq
          subst heq
          exact hb hf'
        refine ⟨hkind, hone, hown.imp (List.mem_erase_of_ne hne).mpr fun hopen => ?_⟩
        rwa [Opened, hsame]
      on := by
        rw [hsame]
        exact (h.own t).on
      child := fun np' tab' cwd' hc => by
        cases hc
        refine ⟨((h.own t).child np tab cwd hchild).1, ?_, hcwd⟩
        simp [DState.setOfile, hofile] }
  · refine h.own_child hchild hu (fun p hp => by simp [DState.setOfile, hp]) (fun _ _ => rfl) rfl rfl
      fun fd' f' hf' => ?_
    have hne : fd' ≠ fd := by
      intro heq
      rw [heq, hofile, hfree] at hf'
      cases hf'
    simpa [DState.setOfile, hne] using hf'
  · intro np' tab' cwd' hc u hu tab'' cwd'' hcu
    cases hc
    exact hu (h.oneChild u t np tab'' cwd'' tab cwd hcu hchild)

theorem forkCwd (hon : (ts t).on = true) (hchild : (ts t).child = some (np, tab, none))
    (hd : (ts t).Droppable e) : Books (s.setCwd np (some e))
      (update ts t { (ts t).drop e with child := some (np, tab, some e) }) := by
  obtain ⟨hlife, hofile, hcwd, hgone, hhid⟩ := h.child_facts hchild
  have hnp : np ≠ t := h.child_ne hon hchild
  have hmem : e ∈ inodeRefs s ts (.inl t) := hd.1
  have hnone : inodeRefs s ts (.inr (.inr np)) = [] := by simp [inodeRefs, hcwd]
  refine h.step ⟨?_, ?_, ?_, h.ops_same rfl, h.locked_hold (fun _ => rfl) rfl⟩ ?_ (fun u hu => ?_)
    (h.setCwd_tables hlife (some e)) ?_
  · have hmoved := h.counts.inodes.move (u := .inr (.inr np)) hmem Sum.inr_ne_inl
    rw [hnone, update_comm (by simp)] at hmoved
    rw [inodeRefs_hold _ _ (by exact rfl), inodeRefs_setCwd, hgone]
    exact hmoved
  · exact h.files_same rfl rfl
  · exact h.ends_same rfl
  · exact { h.own t with
      held := fun e' he' => hd.held ((h.own t).held e' he') he'
      on := fun ht => by simpa [DState.setCwd, Ne.symm hnp, Hold.drop] using (h.own t).on ht
      child := fun np' tab' cwd' hc => by
        cases hc
        exact ⟨((h.own t).child np tab none hchild).1, hofile, by simp [DState.setCwd]⟩ }
  · exact h.own_child hchild hu (fun _ _ => rfl) (fun p hp => by simp [DState.setCwd, hp]) rfl rfl
      fun fd f hf => hf
  · intro np' tab' cwd' hc u hu tab'' cwd'' hcu
    cases hc
    exact hu (h.oneChild u t np tab'' cwd'' tab none hcu hchild)

end Books

end Xv6.Dir
