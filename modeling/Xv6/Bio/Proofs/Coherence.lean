import Xv6.Bio.Proofs.RefCount
import Xv6.Fs.Proofs.Tidy

/-!
# Cached blocks agree with the disk

A valid buffer that no process is changing and that is not pinned holds what is on disk. The steps of
tidy programs keep that, so eviction never changes what a reader sees. A torn write breaks it.
-/

namespace Xv6

open Function Pool
open BState (setBuf_ne setBuf_same bufOf mem_ptr exec bget onBuf_eq_done)

variable {sb : Superblock} {s s' : BState Proc} {pinned : List Nat} {marks : Proc → Mark} {t : Proc}
  {b : Nat} {loose : Proc → Option Nat} {ts : Proc → Phase × Option Nat} {m : Mark} {γ : Type}
  {W : Space → Nat → BitVec 32 → BitVec 32 → Prop} {p : BProg Unit}
  {Q : γ → Phase × Option Nat → Prop} {o : BOp γ} {r : γ} {w w' : BWorld Proc}

/-- The invariant. `marks` says what each process owes. -/
structure Coherent (s : BState Proc) (pinned : List Nat) (marks : Proc → Mark) : Prop where
  dev : ∀ i, (s.buf i).valid = true → (s.buf i).dev = ROOTDEV
  clean : ∀ i, (s.buf i).valid = true → (s.buf i).blockno ∉ pinned →
    (∀ t, marks t ≠ .dirty (s.buf i).blockno) → (s.buf i).data = s.disk (s.buf i).blockno
  held : ∀ t b, marks t = .dirty b → ∃ i, s.bufOf t b = some i ∧ (s.buf i).lock = some t
  synced : ∀ t b, marks t = .synced b →
    ∃ i, s.bufOf t b = some i ∧ (s.buf i).lock = some t ∧ (s.buf i).data = s.disk b

namespace Coherent

theorem boot (disk : Nat → Block) : Coherent (.boot disk) [] fun _ => .clean := by
  constructor <;> simp [BState.boot]

variable {f : Buf Proc → Buf Proc} {i : Fin NBUF}

/-- A buffer that is on disk as it is, seen by the processes that do not owe it. -/
theorem clean_of_ne (h : Coherent s pinned marks) (hv : (s.buf i).valid = true)
    (hp : (s.buf i).blockno ∉ pinned) (hm : ∀ u, update marks t m u ≠ .dirty (s.buf i).blockno)
    (ht : marks t ≠ .dirty (s.buf i).blockno) : (s.buf i).data = s.disk (s.buf i).blockno := by
  refine h.clean i hv hp fun u => ?_
  by_cases hu : u = t
  · exact hu ▸ ht
  · simpa [hu] using hm u

/-- What the other processes have locked is still theirs, as it was. -/
def Keeps (s s' : BState Proc) (t : Proc) : Prop :=
  ∀ u b i, u ≠ t → s.bufOf u b = some i → (s.buf i).lock = some u →
    s'.bufOf u b = some i ∧ (s'.buf i).lock = some u ∧ (s'.buf i).data = (s.buf i).data

theorem others (h : Coherent s pinned marks) (hkeep : Keeps s s' t)
    (hdisk : ∀ u b i, u ≠ t → s.bufOf u b = some i → (s.buf i).lock = some u →
      (s.buf i).data = s.disk b → (s.buf i).data = s'.disk b)
    (hd : ∀ b, m = .dirty b → ∃ i, s'.bufOf t b = some i ∧ (s'.buf i).lock = some t)
    (hs : ∀ b, m = .synced b →
      ∃ i, s'.bufOf t b = some i ∧ (s'.buf i).lock = some t ∧ (s'.buf i).data = s'.disk b) :
    (∀ u b, update marks t m u = .dirty b → ∃ i, s'.bufOf u b = some i ∧ (s'.buf i).lock = some u) ∧
    ∀ u b, update marks t m u = .synced b →
      ∃ i, s'.bufOf u b = some i ∧ (s'.buf i).lock = some u ∧ (s'.buf i).data = s'.disk b := by
  constructor
  · intro u b hu
    by_cases hut : u = t
    · subst hut
      exact hd b (by simpa using hu)
    · obtain ⟨i, hi, hl⟩ := h.held u b (by simpa [hut] using hu)
      obtain ⟨hi', hl', -⟩ := hkeep u b i hut hi hl
      exact ⟨i, hi', hl'⟩
  · intro u b hu
    by_cases hut : u = t
    · subst hut
      exact hs b (by simpa using hu)
    · obtain ⟨i, hi, hl, hdata⟩ := h.synced u b (by simpa [hut] using hu)
      obtain ⟨hi', hl', hdata'⟩ := hkeep u b i hut hi hl
      exact ⟨i, hi', hl', hdata'.trans (hdisk u b i hut hi hl hdata)⟩

theorem frame (h : Coherent s pinned marks) (hm : ∀ b, marks t ≠ .dirty b)
    (hdisk : s'.disk = s.disk)
    (hbuf : ∀ j, (s'.buf j).valid = true → (s.buf j).valid = true ∧
      (s'.buf j).dev = (s.buf j).dev ∧ (s'.buf j).blockno = (s.buf j).blockno ∧
      (s'.buf j).data = (s.buf j).data)
    (hkeep : Keeps s s' t) : Coherent s' pinned (update marks t .clean) := by
  obtain ⟨hheld, hsynced⟩ := h.others (m := .clean) hkeep (fun _ _ _ _ _ _ hd => by rwa [hdisk])
    nofun nofun
  refine ⟨fun j hv => ?_, fun j hv hp hno => ?_, hheld, hsynced⟩
  · obtain ⟨hv', hdev, -, -⟩ := hbuf j hv
    rw [hdev]
    exact h.dev j hv'
  · obtain ⟨hv', -, hblk, hdata⟩ := hbuf j hv
    rw [hblk] at hp hno ⊢
    rw [hdata, hdisk]
    exact h.clean_of_ne hv' hp hno (hm _)

/-- Assigning to a buffer that nobody else has locked keeps what the others have. -/
theorem keeps_setBuf (hfree : ∀ u, u ≠ t → (s.buf i).lock ≠ some u) : Keeps s (s.setBuf i f) t := by
  intro u b j hu hj hl
  have hji : j ≠ i := fun e => hfree u hu (e ▸ hl)
  rw [setBuf_ne _ _ hji]
  exact ⟨hj, hl, rfl⟩

theorem keeps_of_same
    (hf : (f (s.buf i)).lock = (s.buf i).lock ∧ (f (s.buf i)).data = (s.buf i).data) :
    Keeps s (s.setBuf i f) t := by
  intro u b j hu hj hl
  by_cases hji : j = i
  · subst hji
    rw [setBuf_same]
    exact ⟨hj, hf.1.trans hl, hf.2⟩
  · rw [setBuf_ne _ _ hji]
    exact ⟨hj, hl, rfl⟩

theorem frame_setBuf (h : Coherent s pinned marks) (hm : ∀ b, marks t ≠ .dirty b)
    (hf : ∀ x, (f x).valid = x.valid ∧ (f x).dev = x.dev ∧ (f x).blockno = x.blockno ∧ (f x).data = x.data)
    (hkeep : Keeps s (s.setBuf i f) t) :
    Coherent (s.setBuf i f) pinned (update marks t .clean) := by
  refine h.frame hm rfl (fun j hv => ?_) hkeep
  by_cases hj : j = i
  · subst hj
    rw [setBuf_same] at hv ⊢
    obtain ⟨hval, hrest⟩ := hf (s.buf j)
    exact ⟨hval ▸ hv, hrest⟩
  · rw [setBuf_ne _ _ hj] at hv ⊢
    exact ⟨hv, rfl, rfl, rfl⟩

theorem keeps_setPtr {s1 : BState Proc} (h : Keeps s s1 t) (l : List (Nat × Fin NBUF)) :
    Keeps s (s1.setPtr t l) t := by
  intro u b j hu hj hl
  obtain ⟨hj', hrest⟩ := h u b j hu hj hl
  refine ⟨?_, hrest⟩
  simpa [bufOf, BState.setPtr, hu] using hj'

section
variable (hcore : RefCore s pinned loose) (h : Coherent s pinned marks)
include hcore h

omit h in
theorem keeps_bget (he : s.bget t b = .done () s') : Keeps s s' t := by
  unfold bget at he
  split at he
  · cases he
    exact keeps_setPtr (keeps_of_same ⟨rfl, rfl⟩) _
  split at he
  next i hvictim =>
    cases he
    refine keeps_setPtr (fun u c j hu hj hl => ?_) _
    -- the recycled buffer is not in use
    have hzero : (s.buf i).refcnt = 0 := by simpa using List.find?_some hvictim
    have hji : j ≠ i := fun e => (hcore.unused hzero).1 u c (e ▸ mem_ptr hj)
    rw [setBuf_ne _ _ hji]
    exact ⟨hj, hl, rfl⟩
  · cases he

omit hcore in
theorem load (hm : ∀ b, marks t ≠ .dirty b)
    (hdev : (s.buf i).dev = ROOTDEV) (hlock : ∀ u, u ≠ t → (s.buf i).lock ≠ some u) :
    Coherent (s.setBuf i fun x => { x with valid := true, data := s.disk x.blockno }) pinned
      (update marks t .clean) := by
  obtain ⟨hheld, hsynced⟩ := h.others (m := .clean) (keeps_setBuf hlock)
    (fun _ _ _ _ _ _ hd => hd) nofun nofun
  refine ⟨fun j hv => ?_, fun j hv hp hno => ?_, hheld, hsynced⟩
  · by_cases hj : j = i
    · subst hj
      simpa using hdev
    · rw [setBuf_ne _ _ hj] at hv ⊢
      exact h.dev j hv
  · by_cases hj : j = i
    · subst hj
      rw [setBuf_same]
      rfl
    · rw [setBuf_ne _ _ hj] at hv hp hno ⊢
      exact h.clean_of_ne hv hp hno (hm _)

omit hcore in
theorem change {d : Block} (hm : ∀ c, marks t = .dirty c → c = b)
    (hblk : (s.buf i).blockno = b) (hi : s.bufOf t b = some i)
    (hlock : (s.buf i).lock = some t ∧ ∀ u, u ≠ t → (s.buf i).lock ≠ some u) :
    Coherent (s.setBuf i fun x => { x with data := d }) pinned (update marks t (.dirty b)) := by
  have hkeep : Keeps s (s.setBuf i fun x => { x with data := d }) t := keeps_setBuf hlock.2
  obtain ⟨hheld, hsynced⟩ := h.others (m := .dirty b) hkeep
    (fun _ _ _ _ _ _ hd => hd) (fun c hc => ⟨i, by cases hc; exact hi, by simpa using hlock.1⟩) nofun
  refine ⟨fun j hv => ?_, fun j hv hp hno => ?_, hheld, hsynced⟩
  · by_cases hj : j = i
    · subst hj
      rw [setBuf_same] at hv ⊢
      exact h.dev j hv
    · rw [setBuf_ne _ _ hj] at hv ⊢
      exact h.dev j hv
  · by_cases hj : j = i
    · subst hj
      exact absurd (by simp [hblk]) (hno t)
    · rw [setBuf_ne _ _ hj] at hv hp hno ⊢
      refine h.clean_of_ne hv hp hno fun hd => ?_
      exact hno t (by simp [hm _ hd])

theorem write
    (hm : marks t = .dirty b) (hi : s.bufOf t b = some i) (hlock : (s.buf i).lock = some t) :
    Coherent { s with disk := update s.disk (s.buf i).blockno (s.buf i).data } pinned
      (update marks t (.synced b)) := by
  have hci := hcore.caches_of_bufOf hi
  have hkeep : Keeps s { s with disk := update s.disk (s.buf i).blockno (s.buf i).data }
      t := fun _ _ _ _ hj hl => ⟨hj, hl, rfl⟩
  obtain ⟨hheld, hsynced⟩ := h.others (m := .synced b) hkeep
    (fun u c j hu hj hl hd => by
      have hc : c ≠ b := by
        rintro rfl
        have hji := hcore.uniq c j i (hcore.caches_of_bufOf hj) hci
        subst hji
        exact hu (by simpa [hlock] using hl.symm)
      simpa [hci.2, hc] using hd)
    nofun fun c hc => ⟨i, by cases hc; exact hi, hlock, by cases hc; simp [hci.2]⟩
  refine ⟨h.dev, fun j hv hp hno => ?_, hheld, hsynced⟩
  by_cases hj : (s.buf j).blockno = b
  · have hji := hcore.uniq b j i ⟨h.dev j hv, hj⟩ hci
    subst hji
    simp
  · simp only [hci.2, update_of_ne hj]
    exact h.clean_of_ne hv hp hno (by rw [hm]; simpa using Ne.symm hj)

theorem unpin (hm : marks t = .synced b) : Coherent s (pinned.erase b) (update marks t .clean) := by
  obtain ⟨i, hi, hl, hdata⟩ := h.synced t b hm
  obtain ⟨hheld, hsynced⟩ := h.others (m := .clean) (fun _ _ _ _ hj hl => ⟨hj, hl, rfl⟩)
    (fun _ _ _ _ _ _ hd => hd) nofun nofun
  refine ⟨h.dev, fun j hv hp hno => ?_, hheld, hsynced⟩
  by_cases hj : (s.buf j).blockno = b
  · have hji := hcore.uniq b j i ⟨h.dev j hv, hj⟩ (hcore.caches_of_bufOf hi)
    rw [hj, hji]
    exact hdata
  · exact h.clean_of_ne hv (fun hmem => hp ((List.mem_erase_of_ne hj).mpr hmem)) hno (by simp [hm])

omit hcore in
theorem log {pinned' : List Nat} (hm : marks t = .dirty b) (hb : b ∈ pinned')
    (hp : ∀ c ∈ pinned, c ∈ pinned') : Coherent s pinned' (update marks t .clean) := by
  obtain ⟨hheld, hsynced⟩ := h.others (m := .clean) (fun _ _ _ _ hj hl => ⟨hj, hl, rfl⟩)
    (fun _ _ _ _ _ _ hd => hd) nofun nofun
  refine ⟨h.dev, fun j hv hj hno => ?_, hheld, hsynced⟩
  refine h.clean_of_ne hv (fun hmem => hj (hp _ hmem)) hno fun hd => hj ?_
  rw [hm] at hd
  cases hd
  exact hb

/-- `log_write` finds the blocks of the header pinned. -/
def LogPinned (w : BWorld Proc) : ∀ γ, BOp γ → Prop
  | _, .logAppend _ => ∀ c ∈ w.st.lh, c ∈ w.gh.pinned
  | _, _ => True

omit hcore h in
theorem op (hcore : RefCore w.st w.gh.pinned loose) (h : Coherent w.st w.gh.pinned marks)
    (hloose : BOp.LooseOk γ o (loose t)) (hpin : LogPinned w γ o) (hok : BOp.MarkOk γ o (marks t))
    (hexec : w.exec sb t γ o = .done r w') :
    Coherent w'.st w'.gh.pinned (update marks t (BOp.markNext γ o (marks t))) := by
  obtain ⟨s', he, rfl⟩ := Outcome.map_eq_done.mp hexec
  have hrefl : Keeps w.st w.st t := fun _ _ _ _ hj hl => ⟨hj, hl, rfl⟩
  -- the buffers of the process that takes the step are locked by it
  have hlock : ∀ {b i}, loose t = none → w.st.bufOf t b = some i →
      (w.st.buf i).lock = some t ∧ ∀ u, u ≠ t → (w.st.buf i).lock ≠ some u := by
    intro b i hl hi
    have := hcore.lock_eq hl hi
    exact ⟨this, fun u hu e => hu (by simpa [this] using e.symm)⟩
  cases o with
  | bget b =>
    refine h.frame hok (BState.bget_disk he) (fun j hv => ?_) (keeps_bget hcore he)
    rcases BState.bget_buf he j with ⟨hinv, -⟩ | ⟨hdev, hblk, hval, hdata⟩
    · simp [hinv] at hv
    · exact ⟨hval ▸ hv, hdev, hblk, hdata⟩
  | acquiresleep b =>
    obtain ⟨i, hi, he⟩ := onBuf_eq_done.mp he
    split at he
    next hfree =>
      cases he
      dsimp only [Ledger.note, BOp.markNext]
      exact h.frame_setBuf hok (fun x => ⟨rfl, rfl, rfl, rfl⟩)
        (keeps_setBuf fun u _ => by rw [hfree]; exact nofun)
    · cases he
  | releasesleep b =>
    obtain ⟨i, hi, he⟩ := onBuf_eq_done.mp he
    split at he
    · cases he
      dsimp only [Ledger.note, BOp.markNext]
      exact h.frame_setBuf hok (fun x => ⟨rfl, rfl, rfl, rfl⟩) (keeps_setBuf (hlock hloose hi).2)
    · cases he
  | unref b =>
    obtain ⟨i, hi, he⟩ := onBuf_eq_done.mp he
    cases he
    obtain ⟨hbuf, hptr, hdisk, -⟩ := w.st.unref_fields t b i
    refine h.frame hok hdisk (fun j hv => ?_) fun u c j hu hj hl => ?_
    · rw [hbuf] at hv ⊢
      by_cases hj : j = i
      · subst hj
        rw [setBuf_same] at hv ⊢
        exact ⟨hv, rfl, rfl, rfl⟩
      · rw [setBuf_ne _ _ hj] at hv ⊢
        exact ⟨hv, rfl, rfl, rfl⟩
    · rw [bufOf, hptr, update_of_ne hu, hbuf]
      exact keeps_of_same ⟨rfl, rfl⟩ u c j hu hj hl
  | fill b =>
    obtain ⟨i, hi, he⟩ := onBuf_eq_done.mp he
    split at he
    · cases he
      exact h.frame hok rfl (fun j hv => ⟨hv, rfl, rfl, rfl⟩) hrefl
    · cases he
      exact h.load hok (hcore.caches_of_bufOf hi).1 (hlock hloose hi).2
  | setData b d =>
    obtain ⟨i, hi, he⟩ := onBuf_eq_done.mp he
    cases he
    exact h.change hok (hcore.caches_of_bufOf hi).2 hi (hlock hloose hi)
  | bwrite b =>
    obtain ⟨i, hi, he⟩ := onBuf_eq_done.mp he
    split at he
    · cases he
      exact h.write hcore hok hi (hlock hloose hi).1
    · cases he
  | bunpin b =>
    obtain ⟨i, hi, he⟩ := onBuf_eq_done.mp he
    cases he
    simp only [Ledger.note, hi, (hcore.caches_of_bufOf hi).2, BOp.markNext]
    rw [← update_idem]
    exact (h.unpin hcore hok).frame_setBuf (by simp) (fun x => ⟨rfl, rfl, rfl, rfl⟩)
      (keeps_of_same ⟨rfl, rfl⟩)
  | logAppend b =>
    obtain ⟨i, hi, he⟩ := onBuf_eq_done.mp he
    cases he
    have hci := hcore.caches_of_bufOf hi
    simp only [Ledger.note, hi, Ledger.log, hci.2, BState.logAppend, BOp.markNext]
    by_cases hlh : b ∈ w.st.lh
    · simp only [if_pos hlh]
      exact h.log hok (hpin b hlh) fun _ hc => hc
    simp only [if_neg hlh]
    have hlogged := h.log hok (List.mem_cons_self ..) fun _ hc => List.mem_cons_of_mem b hc
    have hcount := hlogged.frame_setBuf (t := t) (i := i)
      (f := fun x => { x with refcnt := x.refcnt + 1 }) (by simp)
      (fun x => ⟨rfl, rfl, rfl, rfl⟩) (keeps_of_same ⟨rfl, rfl⟩)
    rw [update_idem] at hcount
    exact ⟨hcount.dev, hcount.clean, hcount.held, hcount.synced⟩
  | logCheck =>
    have hs : s' = w.st := by
      simp only [exec] at he
      split at he
      · cases he
      · split at he <;> cases he
        rfl
    simp only [BOp.markNext, update_eq_self]
    exact hs ▸ h
  | beginOp =>
    simp only [exec] at he
    split at he
    · cases he
    · split at he <;> cases he
      exact h.frame hok rfl (fun j hv => ⟨hv, rfl, rfl, rfl⟩) fun _ _ _ _ hj hl => ⟨hj, hl, rfl⟩
  | endOp =>
    rw [Ledger.note_endOp_pinned]
    simp only [exec] at he
    split at he
    · cases he
    · split at he <;> cases he <;>
        exact h.frame hok rfl (fun j hv => ⟨hv, rfl, rfl, rfl⟩) fun _ _ _ _ hj hl => ⟨hj, hl, rfl⟩
  | endCommit | logHeader | setLogHeader l =>
    cases he
    exact h.frame hok rfl (fun j hv => ⟨hv, rfl, rfl, rfl⟩) fun _ _ _ _ hj hl => ⟨hj, hl, rfl⟩
  | panic msg => cases he

variable (hv : (s.buf i).valid = true)
include hv

theorem clean_of_no_lock (hl : ∀ t b, (b, i) ∈ s.ptr t → (s.buf i).lock ≠ some t)
    (hp : (s.buf i).blockno ∉ pinned) : (s.buf i).data = s.disk (s.buf i).blockno := by
  refine h.clean i hv hp fun t ht => ?_
  obtain ⟨j, hj, hlj⟩ := h.held t _ ht
  obtain rfl := hcore.uniq _ j i (hcore.caches_of_bufOf hj) ⟨h.dev i hv, rfl⟩
  exact hl t _ (mem_ptr hj) hlj

theorem clean_of_unused (hzero : (s.buf i).refcnt = 0) :
    (s.buf i).data = s.disk (s.buf i).blockno := by
  obtain ⟨hptr, hpin⟩ := hcore.unused hzero
  exact h.clean_of_no_lock hcore hv (fun t b hm => absurd hm (hptr t b))
    fun hp => hpin _ hp ⟨h.dev i hv, rfl⟩

end

end Coherent

/-! ## What a reader sees -/

namespace BState

/-- The contents of a block for the next process that reads it. -/
def view (s : BState Proc) (b : Nat) : Block :=
  match s.cached b with
  | some i => if (s.buf i).valid then (s.buf i).data else s.disk b
  | none => s.disk b

theorem view_of_valid (hcore : RefCore s pinned loose) {i : Fin NBUF}
    (h : s.Caches b i) (hv : (s.buf i).valid = true) : s.view b = (s.buf i).data := by
  cases hc : s.cached b with
  | none => exact absurd h (by simpa using List.find?_eq_none.mp hc i (hcore.lru i))
  | some j =>
    have hj : s.Caches b j := by simpa using List.find?_some hc
    obtain rfl := hcore.uniq b j i hj h
    simp only [view, hc, hv, if_true]

/-- A block of which no buffer holds the data is read from disk. -/
theorem view_of_invalid (h : ∀ i, s.Caches b i → (s.buf i).valid = false) :
    s.view b = s.disk b := by
  cases hc : s.cached b with
  | none => simp only [view, hc]
  | some i =>
    have hi : s.Caches b i := by simpa using List.find?_some hc
    simp [view, hc, h i hi]

variable (hcore : RefCore s pinned loose)
include hcore

theorem view_bget (h : Coherent s pinned marks)
    (ht : loose t = none) (he : s.bget t b = .done () s') (c : Nat) : s'.view c = s.view c := by
  -- the buffers that are valid afterwards held the same block before
  have hkept : ∀ j, (s'.buf j).valid = true → s'.Caches c j →
      (s.buf j).valid = true ∧ s.Caches c j := by
    intro j hv hj
    rcases bget_buf he j with ⟨hinv, -⟩ | ⟨hdev, hblk, hval, -⟩
    · simp [hinv] at hv
    · exact ⟨hval ▸ hv, hdev ▸ hj.1, hblk ▸ hj.2⟩
  by_cases hc : ∃ i, (s.buf i).valid = true ∧ s.Caches c i
  · obtain ⟨i, hv, hi⟩ := hc
    rw [view_of_valid hcore hi hv]
    rcases bget_buf he i with ⟨hinv, hzero⟩ | ⟨hdev, hblk, hval, hdata⟩
    · rw [h.clean_of_unused hcore hv hzero, hi.2, ← bget_disk he]
      refine view_of_invalid fun j hj => Bool.eq_false_iff.mpr fun hvj => ?_
      obtain rfl := hcore.uniq c j i (hkept j hvj hj).2 hi
      simp [hinv] at hvj
    · rw [← hdata]
      exact view_of_valid (hcore.bget ht he) ⟨hdev.trans hi.1, hblk.trans hi.2⟩ (hval.trans hv)
  · rw [view_of_invalid fun i hi => Bool.eq_false_iff.mpr fun hv => hc ⟨i, hv, hi⟩, ← bget_disk he]
    exact view_of_invalid fun j hj => Bool.eq_false_iff.mpr fun hv => hc ⟨j, hkept j hv hj⟩

theorem view_fill {r : Block}
    (h : s.exec sb t _ (.fill b) = .done r s') : r = s.view b := by
  obtain ⟨i, hi, he⟩ := onBuf_eq_done.mp h
  have hc := hcore.caches_of_bufOf hi
  split at he
  next hv =>
    cases he
    exact (view_of_valid hcore hc hv).symm
  next hv =>
    cases he
    rw [hc.2, view_of_invalid fun j hj => ?_]
    rw [hcore.uniq b j i hj hc]
    exact Bool.eq_false_iff.mpr hv

end BState

/-! ## Runs -/

theorem fsMachine_calls (h : (fsMachine sb W).starts t p) : Calls sb p := by
  rcases h with ⟨body, -, rfl⟩ | ⟨body, hbody, rfl⟩
  · exact .op body
  · exact .read body hbody

theorem fsMachine_tidy (h : (fsMachine sb Untorn).starts t p) : Tidy p := by
  rcases h with ⟨body, hbody, rfl⟩ | ⟨body, hbody, rfl⟩
  · exact .opCall (FProg.Tidy.body hbody)
  · exact .readOnly hbody

theorem sound_fsMachine_ref (W : Space → Nat → BitVec 32 → BitVec 32 → Prop) :
    Sound (fsMachine sb W : Machine Proc BOp (BWorld Proc)) (holdWp sb)
      (fun a => a.1 = .outside ∧ a.2 = none) RefGood where
  start := fun {t} _ _ hp => sound_callMachine_ref.start (t := t) (fsMachine_calls hp)
  op := fun hgood _ hw he => hgood.op hw he

theorem BootGood.logPinned (h : BootGood sb w ts)
    (hw : holdWp sb γ o Q (ts t)) : Coherent.LogPinned w γ o := by
  cases o with
  | logAppend b =>
    have ht : (ts t).1 = .inOp := hw.2.1
    rcases h with hrec | href
    · by_cases h0 : t = 0
      · rw [h0, hrec.phase] at ht
        cases ht
      · rw [hrec.others t h0] at ht
        cases ht
    · exact fun c hc => (href.pins.idle (LogInv.no_commit href.log ht) c).mpr hc
  | _ => trivial

/-- A step of recovery or of a call, taken with nothing owed that it does not settle. -/
theorem BootGood.coherent
    (h : BootGood sb w ts) (hcoh : Coherent w.st w.gh.pinned marks) (hw : holdWp sb γ o Q (ts t))
    (hok : BOp.MarkOk γ o (marks t)) (hexec : w.exec sb t γ o = .done r w') :
    Coherent w'.st w'.gh.pinned (update marks t (BOp.markNext γ o (marks t))) :=
  Coherent.op h.exact.1 hcoh hw.1 (h.logPinned hw) hok hexec

/-- The reading of programs as calls that take and drop references in pairs and settle what they
change. -/
abbrev tidyWp (sb : Superblock) : ∀ γ, BOp γ → (γ → (Phase × Option Nat) × Mark → Prop) →
    (Phase × Option Nat) × Mark → Prop :=
  Prog.prodWp BOp.MarkOk BOp.markNext (holdWp sb)

/-- A process outside of calls owes nothing. -/
abbrev TidyIdle : (Phase × Option Nat) × Mark → Prop :=
  BothIdle (fun a => a.1 = .outside ∧ a.2 = none) fun m => ∀ b, m ≠ .dirty b

/-- The cache is coherent, beside an invariant of the log and the references. -/
abbrev TidyGood (good : BWorld Proc → (Proc → Phase × Option Nat) → Prop) :
    BWorld Proc → (Proc → (Phase × Option Nat) × Mark) → Prop :=
  BothGood good fun w marks => Coherent w.st w.gh.pinned marks

theorem holdWp_mono (sb : Superblock) : Prog.Mono (holdWp sb) :=
  Prog.prodWp_mono _ _ (phaseWp_mono sb)

theorem sound_recoverMachine_tidy :
    Sound (recoverMachine sb) (tidyWp sb) TidyIdle (TidyGood (BootGood sb)) :=
  sound_recoverMachine.prod (holdWp_mono sb) (fun hp => hp.elim)
    fun hgood hcoh hw hok he => hgood.coherent hcoh hw hok he

theorem sound_fsMachine_tidy :
    Sound (fsMachine sb Untorn : Machine Proc BOp (BWorld Proc)) (tidyWp sb) TidyIdle
      (TidyGood RefGood) :=
  (sound_fsMachine_ref Untorn).prod (holdWp_mono sb) (fun hp hm => fsMachine_tidy hp _ hm)
    fun hgood hcoh hw hok he => BootGood.coherent (.inr hgood) hcoh hw hok he

/-- Every state of a system that boots from an empty log and tears no write. -/
theorem system_tidy {disk : Nat → Block} (hhead : headN (disk sb.logstart) = 0)
    {c : Conf Proc BOp (BWorld Proc)} (h : System (fsMachine sb Untorn) sb disk c) :
    ∃ ts, Typed (tidyWp sb) TidyIdle (TidyGood (BootGood sb)) c ts := by
  have hrec : ∀ {c}, Reach (recoverMachine sb) (bootConf sb disk) c →
      ∃ ts, Typed (tidyWp sb) TidyIdle (TidyGood (BootGood sb)) c ts := by
    intro c h
    obtain ⟨ts, hts⟩ := recover_typed hhead .refl
    have htidy : ∀ t, ((bootConf sb disk).prog t).wp markWp (fun _ m => ∀ b, m ≠ .dirty b)
        .clean := by
      intro t
      by_cases ht : t = 0
      · subst ht
        simpa [bootConf] using Tidy.recoverFromLog .clean (by simp)
      · simp [bootConf, ht]
    exact h.typed sound_recoverMachine_tidy
      ⟨_, hts.prod (holdWp_mono sb) htidy (Coherent.boot disk)⟩
  cases h with
  | recovering h => exact hrec h
  | running h1 hdone h =>
    obtain ⟨ts, ⟨hboot, hcoh⟩, hwp⟩ := hrec h1
    have hidle := hwp 0
    rw [hdone] at hidle
    obtain ⟨ts', ⟨href, hcoh'⟩, hwp'⟩ :=
      h.typed sound_fsMachine_tidy ⟨ts, ⟨hboot.ready hidle.1.1, hcoh⟩, hwp⟩
    exact ⟨ts', ⟨.inr href, hcoh'⟩, hwp'⟩

/-- Buffer-cache coherence, across a boot that finds the log empty, for calls of `fs.c` that tear no
write: in every state a valid buffer that is not locked and whose block is not in the header holds
what is on disk; recycling a buffer changes nothing that a reader sees, and reading a block answers
what a reader sees. -/
theorem cache_coherent (disk : Nat → Block) (hhead : headN (disk sb.logstart) = 0)
    {c : Conf Proc BOp (BWorld Proc)} (h : System (fsMachine sb Untorn) sb disk c) :
    (∀ i, (c.st.st.buf i).valid = true → (c.st.st.buf i).lock = none →
      (c.st.st.buf i).blockno ∉ c.st.st.lh →
        (c.st.st.buf i).data = c.st.st.disk (c.st.st.buf i).blockno) ∧
    (∀ t b k s', c.prog t = .op (.bget b) k → c.st.st.bget t b = .done () s' →
      ∀ x, s'.view x = c.st.st.view x) ∧
    ∀ t b r s', c.st.st.exec sb t _ (.fill b) = .done r s' → r = c.st.st.view b := by
  obtain ⟨ts, ⟨hgood, hcoh⟩, hwp⟩ := system_tidy hhead h
  obtain ⟨hcore, -⟩ := hgood.exact
  refine ⟨fun i hv hl hlh => ?_, fun t b k s' hprog he => ?_, fun t b r s' he => ?_⟩
  · refine hcoh.clean_of_no_lock hcore hv (fun t b _ => by simp [hl]) fun hp => hlh ?_
    exact hgood.listed hp
  · have ht := hwp t
    rw [hprog] at ht
    exact BState.view_bget hcore hcoh ht.2.1 he
  · exact BState.view_fill hcore he

/-- An image with an empty log, on which inode 1 is an empty file with the data block 100. -/
def fileDisk (b : Nat) : Block :=
  if b = 32 then ((Dinode.fresh 2).setAddr 0 100).write (fun _ => 0) 1 else fun _ => 0

def fileBooted : Conf Proc BOp (BWorld Proc) :=
  (bootConf mkfsSuperblock fileDisk).sched (BWorld.exec mkfsSuperblock) (fun t _ _ _ => t = 0)
    (List.replicate 16 (0, .go))

/-- After the boot, process 1 makes `n` steps of an operation. -/
def fileRun (body : FProg Unit) (n : Nat) : Conf Proc BOp (BWorld Proc) :=
  fileBooted.sched (BWorld.exec mkfsSuperblock) (fun _ _ _ _ => true)
    ((1, .start (opCall mkfsSuperblock body)) :: List.replicate n (1, .go))

theorem system_fileRun {body : FProg Unit} (hbody : FsBody mkfsSuperblock W body) (n : Nat) :
    System (fsMachine mkfsSuperblock W) mkfsSuperblock fileDisk (fileRun body n) := by
  have hboot : Reach (recoverMachine mkfsSuperblock) (bootConf mkfsSuperblock fileDisk)
      fileBooted :=
    Reach.sched _ (fun _ _ _ _ ht => by simpa [recoverMachine] using ht) .refl _ (by simp)
  refine .running hboot (fun t => ?_)
    (Reach.sched (fsMachine mkfsSuperblock W) (fun _ _ _ _ _ => trivial) .refl _ ?_)
  · by_cases ht : t = 0
    · subst ht
      rfl
    · rw [fileBooted, Conf.sched_prog_of_not_mem]
      · simp [bootConf, ht]
      · simpa using Ne.symm ht
  · intro t p hp
    obtain ⟨-, rfl⟩ : t = 1 ∧ p = opCall mkfsSuperblock body := by simpa using hp
    exact .inl ⟨body, hbody, rfl⟩

/-- Write ten bytes of sevens to inode 1, from a buffer at `src`. The page behind the first one is not
mapped. -/
def sevens (src : Nat) : FProg Unit := do
  let ip ← iread mkfsSuperblock 1
  let _ ← writei mkfsSuperblock 1 ip (.user fun p => if p = 0 then some fun _ => 7 else none) src 0 10

theorem sevens_body {W : Space → Nat → BitVec 32 → BitVec 32 → Prop} (src : Nat)
    (h : W (.user fun p => if p = 0 then some fun _ => 7 else none) src 0 10) :
    FsBody mkfsSuperblock W (sevens src) :=
  .bind (.iread 1) fun ip => .bind (.writei 1 ip _ src 0 10 h) fun _ => .pure ()

def committed : Conf Proc BOp (BWorld Proc) := fileRun (sevens 0) 100

/-- A process has written to the file and committed: the sevens are on disk, and so is what its buffer
holds. -/
theorem cache_coherent_committed :
    committed.st.st.lh = [] ∧ committed.st.st.disk 100 0 = 7 ∧
      (committed.st.st.buf 2).blockno = 100 ∧
      (committed.st.st.buf 2).data = committed.st.st.disk (committed.st.st.buf 2).blockno := by
  have hwhole : Untorn (.user fun p => if p = 0 then some fun _ => 7 else none) 0 0 10 :=
    fun _ => .inr ⟨by decide, fun h => absurd h (by decide)⟩
  have hsys : System _ mkfsSuperblock fileDisk committed := system_fileRun (sevens_body 0 hwhole) 100
  obtain ⟨hcoh, -⟩ := cache_coherent fileDisk (by decide +kernel) hsys
  exact ⟨by decide +kernel, by decide +kernel, by decide +kernel,
    hcoh 2 (by decide +kernel) (by decide +kernel) (by decide +kernel)⟩

/-- The write fails after six bytes and gives the buffer back without logging it: the buffer is
valid and not locked, its block is not in the header, and it holds what is not on disk. -/
theorem torn_write_incoherent :
    ∃ c, System (fsMachine mkfsSuperblock fun _ _ _ _ => True) mkfsSuperblock fileDisk c ∧
      headN (fileDisk mkfsSuperblock.logstart) = 0 ∧
      (c.st.st.buf 2).valid = true ∧ (c.st.st.buf 2).lock = none ∧
      (c.st.st.buf 2).blockno = 100 ∧ 100 ∉ c.st.st.lh ∧
      (c.st.st.buf 2).data ≠ c.st.st.disk 100 := by
  refine ⟨fileRun (sevens 4090) 12, system_fileRun (sevens_body 4090 trivial) 12, by decide +kernel,
    by decide +kernel, by decide +kernel, by decide +kernel, by decide +kernel, fun h => ?_⟩
  have h0 := congrFun h 0
  revert h0
  decide +kernel

end Xv6
