import Xv6.Pipe.Code

/-!
# Pipes are FIFO channels

The bytes stored so far are the bytes delivered so far, followed by the contents of the ring. A call
changes the ring only with the lock, so each step can be looked at alone.
-/

namespace Xv6

open Option (some)
open Function

variable {Tid : Type} {buf : Nat → BitVec 8} {p : Pipe Tid} {e : PipeEvent} {i : Nat}
  {s' s : PipeState Tid} {u : Tid}

/-- The places where a thread has the lock. -/
def PipePc.Holds : PipePc → Prop
  | .writeLoop _ _ _ | .readWait _ | .readLoop _ _ => True
  | _ => False

def Pipe.contents (p : Pipe Tid) : List (BitVec 8) := RingBuffer.contents p.data p.nread p.nwrite

def PipeEvent.stores : PipeEvent → List (BitVec 8)
  | .stored ch => [ch]
  | _ => []

def PipeEvent.delivers : PipeEvent → List (BitVec 8)
  | .delivered ch => [ch]
  | _ => []

/-! ## The history -/

namespace PipeHist

variable (h : PipeHist Tid) (t : Tid) (e : PipeEvent)

@[simp] theorem note_calls : (h.note t e).calls = h.calls := by
  cases e <;> rfl

theorem note_stored :
    (h.note t e).stored = h.stored ++ e.stores.map fun ch => ((t, h.calls t), ch) := by
  cases e <;> simp [note, PipeEvent.stores]

theorem note_delivered : (h.note t e).delivered = h.delivered ++ e.delivers := by
  cases e <;> simp [note, PipeEvent.delivers]

variable [DecidableEq Tid]

theorem bytesOf_note_same : (h.note t e).bytesOf t = h.bytesOf t ++ e.stores := by
  simp [bytesOf, note_stored, List.filter_append, List.filter_map, comp_def]

theorem bytesOf_note_ne (hu : u ≠ t) : (h.note t e).bytesOf u = h.bytesOf u := by
  simp [bytesOf, note_stored, List.filter_append, List.filter_map, comp_def, Ne.symm hu]

end PipeHist

/-! ## The invariant -/

variable [DecidableEq Tid]

/-- What the call of thread `t` has stored, by the place where it is. -/
def WriteProgress (h : PipeHist Tid) (t : Tid) : PipePc → Prop
  | .writeStart _ _ => h.bytesOf t = []
  | .writeLoop buf _ i | .writeSleep buf _ i => h.bytesOf t = (List.range i).map buf
  | _ => True

/-- A reader leaves the `while` loop with something to read or at the end. -/
def ReadReady (p : Pipe Tid) : PipePc → Prop
  | .readLoop _ 0 => p.nread ≠ p.nwrite ∨ p.writeopen = false
  | _ => True

structure PipeInv (w : PipeWorld Tid) : Prop where
  mutex : ∀ t, (w.st.pc t).Holds → w.st.pipe.lock = some t
  room : (w.st.pipe.nwrite - w.st.pipe.nread).toNat ≤ PIPESIZE
  fifo : w.hist.stored.map Prod.snd = w.hist.delivered ++ w.st.pipe.contents
  tags : ∀ x ∈ w.hist.stored, x.1.2 ≤ w.hist.calls x.1.1
  progress : ∀ t, WriteProgress w.hist t (w.st.pc t)
  ready : ∀ t, ReadReady w.st.pipe (w.st.pc t)

namespace PipeInv

variable {w : PipeWorld Tid} {t : Tid}

theorem new (data : Fin PIPESIZE → BitVec 8) (killed : Tid → Bool) :
    PipeInv (⟨.new data killed, ⟨[], [], fun _ => 0⟩⟩ : PipeWorld Tid) where
  mutex := fun t h => h.elim
  room := by simp [PipeState.new]
  fifo := by simp [PipeState.new, Pipe.contents, RingBuffer.contents]
  tags := nofun
  progress := fun _ => trivial
  ready := fun _ => trivial

section

variable {pc : PipePc} {n : Int} (h : PipeInv w)
include h

section
variable (ht : w.st.pipe.lock = none ∨ w.st.pipe.lock = some t)
include ht

/-- Nobody else has the lock while `t` has it, or while it is free. -/
theorem alone (hu : u ≠ t) : ¬ (w.st.pc u).Holds := by
  intro hold
  rcases ht with hl | hl
  · simp [h.mutex u hold] at hl
  · exact hu (by simpa [h.mutex u hold] using hl)

theorem goto (hlock : pc.Holds → p.lock = some t) (hroom : (p.nwrite - p.nread).toNat ≤ PIPESIZE)
    (hfifo : w.st.pipe.contents ++ e.stores = e.delivers ++ p.contents)
    (hprogress : WriteProgress (w.hist.note t e) t pc) (hready : ReadReady p pc) :
    PipeInv ⟨w.st.goto t pc p, w.hist.note t e⟩ where
  mutex := fun u hu => by
    by_cases hut : u = t
    · subst hut
      simp only [PipeState.goto, update_self] at hu
      exact hlock hu
    · simp only [PipeState.goto, update_of_ne hut] at hu
      exact absurd hu (h.alone ht hut)
  room := hroom
  fifo := by
    simp only [PipeHist.note_stored, PipeHist.note_delivered, List.map_append, List.map_map]
    rw [h.fifo, List.append_assoc, List.append_assoc]
    congr 1
    simpa [comp_def, PipeState.goto] using hfifo
  tags := fun x hx => by
    simp only [PipeHist.note_stored, List.mem_append, List.mem_map] at hx
    simp only [PipeHist.note_calls]
    rcases hx with hx | ⟨ch, -, rfl⟩
    · exact h.tags x hx
    · exact Nat.le_refl _
  progress := fun u => by
    by_cases hut : u = t
    · subst hut
      simpa [PipeState.goto] using hprogress
    · have hold := h.progress u
      simp only [PipeState.goto, update_of_ne hut]
      cases hpc : w.st.pc u <;> simp only [hpc, WriteProgress] at hold ⊢ <;>
        rwa [PipeHist.bytesOf_note_ne _ _ _ hut]
  ready := fun u => by
    by_cases hut : u = t
    · subst hut
      simpa [PipeState.goto] using hready
    · have hno := h.alone ht hut
      simp only [PipeState.goto, update_of_ne hut]
      cases hpc : w.st.pc u <;> simp only [hpc, PipePc.Holds, not_true] at hno <;> trivial

theorem quiet
    (hstores : e.stores = []) (hdelivers : e.delivers = []) (hdata : p.data = w.st.pipe.data)
    (hread : p.nread = w.st.pipe.nread) (hwrite : p.nwrite = w.st.pipe.nwrite)
    (hlock : pc.Holds → p.lock = some t) (hprogress : WriteProgress w.hist t pc)
    (hready : ReadReady p pc) : PipeInv ⟨w.st.goto t pc p, w.hist.note t e⟩ := by
  have hbytes : (w.hist.note t e).bytesOf t = w.hist.bytesOf t := by
    rw [PipeHist.bytesOf_note_same, hstores, List.append_nil]
  refine h.goto ht hlock ?_ ?_ ?_ hready
  · rw [hread, hwrite]
    exact h.room
  · simp only [hstores, hdelivers, Pipe.contents, hdata, hread, hwrite, List.append_nil,
      List.nil_append]
  · cases pc <;> simp only [WriteProgress, hbytes] at hprogress ⊢ <;> exact hprogress

end

theorem acquire (hs : w.st.acquire t pc = some (e, s')) (hprogress : WriteProgress w.hist t pc)
    (hready : ∀ p : Pipe Tid, ReadReady p pc) : PipeInv ⟨s', w.hist.note t e⟩ := by
  unfold PipeState.acquire at hs
  split at hs
  next hfree =>
    cases hs
    exact h.quiet (.inl hfree) rfl rfl rfl rfl rfl (fun _ => rfl) hprogress (hready _)
  · cases hs

theorem writeTurn (hpc : w.st.pc t = .writeLoop buf n i) :
    PipeInv ⟨(w.st.writeTurn t buf n i).2, w.hist.note t (w.st.writeTurn t buf n i).1⟩ := by
  have hlock : w.st.pipe.lock = some t := h.mutex t (by rw [hpc]; trivial)
  have hprogress : w.hist.bytesOf t = (List.range i).map buf := by
    have := h.progress t
    rwa [hpc] at this
  unfold PipeState.writeTurn
  split
  · split
    · split
      · exact h.quiet (.inr hlock) rfl rfl rfl rfl rfl nofun trivial trivial
      · exact h.quiet (.inr hlock) rfl rfl rfl rfl rfl nofun hprogress trivial
    next hfull =>
      have hroom : (w.st.pipe.nwrite - w.st.pipe.nread).toNat < PIPESIZE := by
        refine Nat.lt_of_le_of_ne h.room fun heq => hfull ?_
        exact (RingBuffer.full_iff (by decide)).mpr heq
      have hpush := RingBuffer.toNat_sub_push (by decide) hroom
      refine h.goto (.inr hlock) (fun _ => hlock) ?_ ?_ ?_ trivial
      · exact hpush ▸ hroom
      · exact (RingBuffer.contents_push (by decide) hroom (by decide) (buf i)).symm
      · simp only [WriteProgress, PipeHist.bytesOf_note_same, hprogress, PipeEvent.stores]
        rw [List.range_succ, List.map_append, List.map_singleton]
  · exact h.quiet (.inr hlock) rfl rfl rfl rfl rfl nofun trivial trivial

theorem readTest (hpc : w.st.pc t = .readWait n) :
    PipeInv ⟨(w.st.readTest t n).2, w.hist.note t (w.st.readTest t n).1⟩ := by
  have hlock : w.st.pipe.lock = some t := h.mutex t (by rw [hpc]; trivial)
  unfold PipeState.readTest
  split
  · split
    · exact h.quiet (.inr hlock) rfl rfl rfl rfl rfl nofun trivial trivial
    · exact h.quiet (.inr hlock) rfl rfl rfl rfl rfl nofun trivial trivial
  next hgo =>
    refine h.quiet (.inr hlock) rfl rfl rfl rfl rfl (fun _ => hlock) trivial ?_
    rcases not_and_or.mp hgo with hne | hopen
    · exact .inl hne
    · exact .inr (by simpa using hopen)

theorem readTurn (hpc : w.st.pc t = .readLoop n i) :
    PipeInv ⟨(w.st.readTurn t n i).2, w.hist.note t (w.st.readTurn t n i).1⟩ := by
  have hlock : w.st.pipe.lock = some t := h.mutex t (by rw [hpc]; trivial)
  unfold PipeState.readTurn
  split
  next hgo =>
    have hpop := RingBuffer.toNat_sub_pop hgo.2
    have hroom := h.room
    refine h.goto (.inr hlock) (fun _ => hlock) ?_ ?_ trivial trivial
    · exact (Nat.le_succ _).trans (hpop.le.trans hroom)
    · simp only [PipeEvent.stores, PipeEvent.delivers, List.append_nil, List.singleton_append]
      exact RingBuffer.contents_pop hgo.2
  · exact h.quiet (.inr hlock) rfl rfl rfl rfl rfl False.elim trivial trivial

theorem advance (hs : w.st.advance t = some (e, s')) : PipeInv ⟨s', w.hist.note t e⟩ := by
  have hprogress := h.progress t
  unfold PipeState.advance at hs
  cases hpc : w.st.pc t with
  | idle => simp [hpc] at hs
  | writeStart buf n =>
    rw [hpc] at hs hprogress
    exact h.acquire hs (by simpa [WriteProgress] using hprogress) fun _ => trivial
  | writeSleep buf n i =>
    rw [hpc] at hs hprogress
    exact h.acquire hs hprogress fun _ => trivial
  | readStart n | readSleep n =>
    rw [hpc] at hs
    exact h.acquire hs trivial fun _ => trivial
  | writeLoop buf n i =>
    rw [hpc] at hs
    have hgood := h.writeTurn hpc
    rwa [some.inj hs] at hgood
  | readWait n =>
    rw [hpc] at hs
    have hgood := h.readTest hpc
    rwa [some.inj hs] at hgood
  | readLoop n i =>
    rw [hpc] at hs
    have hgood := h.readTurn hpc
    rwa [some.inj hs] at hgood
  | closeStart writable =>
    rw [hpc] at hs
    simp only [PipeState.close] at hs
    split at hs
    next hfree =>
      cases hs
      cases writable <;> exact h.quiet (.inl hfree) rfl rfl rfl rfl rfl nofun trivial trivial
    · cases hs

end

theorem call (h : PipeInv w) {pc : PipePc} (hpc : PipeState.Entry pc) :
    PipeInv ⟨w.st.goto t pc w.st.pipe,
      { w.hist with calls := update w.hist.calls t (w.hist.calls t + 1) }⟩ := by
  -- no stored byte carries the number of the new call
  have hfresh : ∀ x ∈ w.hist.stored, x.1 ≠ (t, w.hist.calls t + 1) := by
    rintro ⟨⟨u, k⟩, ch⟩ hx heq
    cases heq
    have := h.tags _ hx
    simp at this
  refine ⟨fun u hu => ?_, h.room, h.fifo, fun x hx => ?_, fun u => ?_, fun u => ?_⟩
  · by_cases hut : u = t
    · subst hut
      simp only [PipeState.goto, update_self] at hu
      cases pc <;> first | exact hpc.elim | exact hu.elim
    · simp only [PipeState.goto, update_of_ne hut] at hu
      exact h.mutex u hu
  · have := h.tags x hx
    by_cases hxt : x.1.1 = t
    · rw [hxt] at this ⊢
      simp only [update_self]
      omega
    · simpa [update_of_ne hxt] using this
  · by_cases hut : u = t
    · subst hut
      simp only [PipeState.goto, update_self]
      cases pc with
      | writeStart buf n =>
        simp only [WriteProgress, PipeHist.bytesOf, update_self]
        rw [List.filter_eq_nil_iff.mpr fun x hx => by simpa using hfresh x hx, List.map_nil]
      | readStart n | closeStart c => trivial
      | _ => exact hpc.elim
    · have := h.progress u
      simp only [PipeState.goto, update_of_ne hut]
      cases hu : w.st.pc u <;> simp only [hu, WriteProgress, PipeHist.bytesOf] at this ⊢ <;>
        simpa [update_of_ne hut] using this
  · by_cases hut : u = t
    · subst hut
      simp only [PipeState.goto, update_self]
      cases pc <;> first | exact hpc.elim | trivial
    · simpa [PipeState.goto, update_of_ne hut] using h.ready u

theorem step {w' : PipeWorld Tid} (h : PipeInv w) (hs : PipeStep w w') : PipeInv w' := by
  cases hs with
  | call t pc hidle hpc => exact h.call hpc
  | run t hrun => exact h.advance hrun
  | kill t => exact { h with }

end PipeInv

theorem PipeReach.inv {data : Fin PIPESIZE → BitVec 8} {killed : Tid → Bool} {w : PipeWorld Tid}
    (h : PipeReach data killed w) : PipeInv w := by
  induction h with
  | refl => exact PipeInv.new data killed
  | tail _ hs ih => exact ih.step hs

/-! ## What calls return -/

/-- `piperead` returns from its loop, or because the process is killed. -/
theorem PipeState.advance_read {t : Tid} {n r : Int} (h : s.advance t = some (.read n r, s')) :
    r = -1 ∨ ∃ i : Nat, s.pc t = .readLoop n i ∧ r = i ∧
      ¬ ((i : Int) < n ∧ s.pipe.nread ≠ s.pipe.nwrite) := by
  unfold advance at h
  cases hpc : s.pc t with
  | idle => simp [hpc] at h
  | writeStart | writeSleep | readStart | readSleep => simp [hpc, acquire] at h
  | closeStart => simp [hpc, close] at h
  | writeLoop buf n i =>
    simp only [hpc, writeTurn, some.injEq] at h
    split_ifs at h <;> cases h
  | readWait n =>
    simp only [hpc, readTest, some.injEq] at h
    split_ifs at h <;> cases h
    exact .inl rfl
  | readLoop n i =>
    simp only [hpc, readTurn, some.injEq] at h
    split at h <;> cases h
    exact .inr ⟨i, rfl, rfl, ‹_›⟩

/-- `pipewrite` returns from its loop, or because nobody reads or the process is killed. -/
theorem PipeState.advance_wrote {t : Tid} {n r : Int}
    (h : s.advance t = some (.wrote buf n r, s')) :
    r = -1 ∨ ∃ i : Nat, s.pc t = .writeLoop buf n i ∧ r = i := by
  unfold advance at h
  cases hpc : s.pc t with
  | idle => simp [hpc] at h
  | writeStart | writeSleep | readStart | readSleep => simp [hpc, acquire] at h
  | closeStart => simp [hpc, close] at h
  | writeLoop buf n i =>
    simp only [hpc, writeTurn, some.injEq] at h
    split_ifs at h <;> cases h
    · exact .inl rfl
    · exact .inr ⟨i, rfl, rfl⟩
  | readWait n =>
    simp only [hpc, readTest, some.injEq] at h
    split_ifs at h <;> cases h
  | readLoop n i =>
    simp only [hpc, readTurn, some.injEq] at h
    split at h <;> cases h

/-- Pipes are FIFO channels: in every state the ring has at most `PIPESIZE` bytes, and what writers
have stored is what readers have been given followed by the ring; a `piperead` that returns 0 though
it was asked for more finds the write end closed and the ring empty; and a `pipewrite` that returns
`r ≥ 0` has stored the first `r` bytes of its buffer, in order. -/
theorem pipe_fifo (data : Fin PIPESIZE → BitVec 8) (killed : Tid → Bool) {w : PipeWorld Tid}
    (h : PipeReach data killed w) :
    (w.st.pipe.nwrite - w.st.pipe.nread).toNat ≤ PIPESIZE ∧
    w.hist.stored.map Prod.snd = w.hist.delivered ++ w.st.pipe.contents ∧
    (∀ t n s', w.st.advance t = some (.read n 0, s') → 0 < n →
      w.st.pipe.writeopen = false ∧ w.st.pipe.nread = w.st.pipe.nwrite) ∧
    ∀ t buf n r s', w.st.advance t = some (.wrote buf n r, s') → 0 ≤ r →
      w.hist.bytesOf t = (List.range r.toNat).map buf := by
  have hinv := h.inv
  refine ⟨hinv.room, hinv.fifo, fun t n s' hs hn => ?_, fun t buf n r s' hs hr => ?_⟩
  · rcases PipeState.advance_read hs with hr | ⟨i, hpc, hi, hstop⟩
    · cases hr
    obtain rfl : i = 0 := by omega
    have hempty : w.st.pipe.nread = w.st.pipe.nwrite := by
      by_contra hne
      exact hstop ⟨hn, hne⟩
    have hready := hinv.ready t
    rw [hpc] at hready
    exact ⟨hready.resolve_left fun hne => hne hempty, hempty⟩
  · rcases PipeState.advance_wrote hs with rfl | ⟨i, hpc, rfl⟩
    · simp at hr
    · have hprogress := hinv.progress t
      rw [hpc] at hprogress
      exact hprogress

/-- A thread writes three bytes to a new pipe, and another one reads two of them. -/
theorem pipe_fifo_three_bytes : ∃ w : PipeWorld Bool,
    w.hist.bytesOf true = [7, 8, 9] ∧ w.hist.delivered = [7, 8] ∧
      w.hist.stored.map Prod.snd = w.hist.delivered ++ w.st.pipe.contents := by
  set_option maxRecDepth 4000 in
  have hreach : PipeReach (fun _ => 0) (fun _ : Bool => false) _ :=
    .head (.call true (.writeStart (fun i => .ofNat 8 (7 + i)) 3) rfl trivial) <|
    .head (.run true rfl) <| .head (.run true rfl) <| .head (.run true rfl) <|
    .head (.run true rfl) <| .head (.run true rfl) <| .head (.call false (.readStart 2) rfl trivial) <|
    .head (.run false rfl) <| .head (.run false rfl) <| .head (.run false rfl) <| .single (.run false rfl)
  obtain ⟨-, hfifo, -⟩ := pipe_fifo _ _ hreach
  exact ⟨_, rfl, rfl, hfifo⟩

end Xv6
