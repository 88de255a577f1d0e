import Xv6.File.Console

/-!
# The console follows the line editor

The ring from `r` to `e` holds what the editor has not given out, and `w` divides it into the committed
part and the pending line. Each character and each turn of a call keeps this, whatever the indices are,
so that every run gives the answers of the editor.
-/

namespace Xv6.Rw

open Line (gotBy step start)
open RingBuffer

variable {s : Editor}

theorem Editor.pos_lt {c : BitVec 8} {rest : List (BitVec 8)}
    (h : s.unread = c :: rest) : s.pos < s.stream.length :=
  Nat.lt_of_not_le fun hle => by simp [unread, List.drop_eq_nil_of_le hle] at h

/-! ## The relation -/

structure Follows (cons : Cons) (s : Editor) : Prop where
  stored : contents cons.buf cons.r cons.e = s.unread ++ s.pending
  committed : (cons.w - cons.r).toNat = s.unread.length
  fits : (cons.e - cons.r).toNat ≤ INPUT_BUF
  noLine : 10 ∉ s.pending
  pos_le : s.pos ≤ s.stream.length

namespace Follows

variable {cons : Cons}

section
variable (h : Follows cons s)
include h

theorem length : (cons.e - cons.r).toNat = s.unread.length + s.pending.length := by
  rw [← List.length_append, ← h.stored, length_contents]

theorem w_le_e : (cons.w - cons.r).toNat ≤ (cons.e - cons.r).toNat := by
  rw [h.length, h.committed]
  exact Nat.le_add_right _ _

theorem pending_length : (cons.e - cons.w).toNat = s.pending.length := by
  have hsub : cons.e - cons.w = (cons.e - cons.r) - (cons.w - cons.r) := by simp
  rw [hsub, BitVec.toNat_sub_of_le (BitVec.le_def.mpr h.w_le_e), h.length, h.committed,
    Nat.add_sub_cancel_left]

theorem e_eq_w : cons.e = cons.w ↔ s.pending = [] := by
  rw [← List.length_eq_zero_iff, ← h.pending_length, toNat_sub_eq_zero_iff, eq_comm]

end

/-! ## Characters -/

section
variable (h : Follows cons s) (hroom : (cons.e - cons.r).toNat < INPUT_BUF)
include h hroom

omit hroom in
/-- One character of the pending line goes, and it is no newline. -/
theorem erase (hne : s.pending ≠ []) :
    Follows { cons with e := cons.e - 1 } { s with pending := s.pending.dropLast } ∧
      cons.buf (slot INPUT_BUF (cons.e - 1)) ≠ 10 := by
  have hpos := List.length_pos_iff.mpr hne
  have hlen := h.length
  have hfits := h.fits
  have hre : cons.r ≠ cons.e := fun heq => by
    have hzero := toNat_sub_eq_zero_iff.mpr heq
    omega
  have hback : (cons.e - 1#32 - cons.r).toNat + 1 = (cons.e - cons.r).toNat := by
    rw [sub_right_comm, ← sub_add_eq_sub_sub, toNat_sub_pop hre]
  have hsucc : contents cons.buf cons.r (cons.e - 1#32 + 1#32) =
      contents cons.buf cons.r (cons.e - 1#32) ++ [cons.buf (slot INPUT_BUF (cons.e - 1#32))] :=
    contents_succ (by decide) (by omega)
  rw [sub_add_cancel, h.stored, ← List.dropLast_append_getLast hne, ← List.append_assoc] at hsucc
  obtain ⟨hinit, hlast⟩ := List.append_inj' hsucc rfl
  have hless : (cons.e - 1#32 - cons.r).toNat ≤ INPUT_BUF := by omega
  refine ⟨⟨hinit.symm, h.committed, hless, fun hmem => ?_, h.pos_le⟩, ?_⟩
  · exact h.noLine (List.mem_of_mem_dropLast hmem)
  · intro hten
    have hmem := List.getLast_mem hne
    rw [List.singleton_inj.mp hlast] at hmem
    exact h.noLine (hten ▸ hmem)

omit hroom in
theorem killLine {k : Nat} (hk : k = s.pending.length) :
    Follows (killLine k cons) { s with pending := [] } := by
  induction k generalizing cons s with
  | zero =>
    have hnil : s.pending = [] := List.length_eq_zero_iff.mp hk.symm
    rw [← hnil]
    exact h
  | succ k ih =>
    have hne : s.pending ≠ [] := List.length_pos_iff.mp (by omega)
    obtain ⟨herase, hten⟩ := h.erase hne
    rw [Rw.killLine, if_pos ⟨fun heq => hne (h.e_eq_w.mp heq), hten⟩]
    exact ih (s := { s with pending := s.pending.dropLast }) herase (by simp; omega)

variable (c : BitVec 8)

omit h in
theorem contents_put :
    contents (cons.put c).buf cons.r (cons.put c).e = contents cons.buf cons.r cons.e ++ [c] :=
  contents_push (by decide) hroom (by decide) c

omit h in
theorem length_put : ((cons.put c).e - cons.r).toNat = (cons.e - cons.r).toNat + 1 :=
  toNat_sub_push (by decide) hroom

theorem put {c : BitVec 8}
    (hc : c ≠ 10) : Follows (cons.put c) { s with pending := s.pending ++ [c] } := by
  refine ⟨?_, h.committed, (length_put hroom c).trans_le hroom, ?_, h.pos_le⟩
  · exact (contents_put hroom c).trans (by rw [h.stored, List.append_assoc]; rfl)
  · rw [List.mem_append, List.mem_singleton]
    exact not_or.mpr ⟨h.noLine, Ne.symm hc⟩

theorem commit : Follows { cons.put c with w := (cons.put c).e }
      { s with stream := s.stream ++ (s.pending ++ [c]), pending := [] } := by
  have hunread : Editor.unread { s with stream := s.stream ++ (s.pending ++ [c]), pending := [] } =
      s.unread ++ (s.pending ++ [c]) := List.drop_append_of_le_length h.pos_le
  refine ⟨?_, ?_, (length_put hroom c).trans_le hroom, List.not_mem_nil, ?_⟩
  · refine (contents_put hroom c).trans ?_
    rw [h.stored, hunread, List.append_nil, List.append_assoc]
  · refine (length_put hroom c).trans ?_
    rw [h.length, hunread, List.length_append, List.length_append, add_assoc]
    rfl
  · exact h.pos_le.trans (by simp)

omit hroom in
theorem typed : Follows (consoleintr c cons) (s.typed [0, ctrl 'P'] c) := by
  unfold consoleintr Editor.typed
  by_cases hp : c = ctrl 'P'
  · simpa [hp] using h
  by_cases hzero : c = 0
  · subst hzero
    simpa [ctrl] using h
  have hinput : c ∉ [0, ctrl 'P'] := by simpa [hp] using hzero
  rw [if_neg hp, if_neg hinput]
  by_cases hkill : c = ctrl 'U'
  · rw [if_pos hkill, if_pos hkill]
    exact h.killLine h.pending_length
  rw [if_neg hkill, if_neg hkill]
  by_cases hback : c = ctrl 'H' ∨ c = 0x7f
  · rw [if_pos hback, if_pos hback]
    by_cases hnil : s.pending = []
    · rw [if_neg (not_not.mpr (h.e_eq_w.mpr hnil)), hnil, List.dropLast_nil, ← hnil]
      exact h
    · rw [if_pos (fun heq => hnil (h.e_eq_w.mp heq))]
      exact (h.erase hnil).1
  rw [if_neg hback, if_neg hback]
  by_cases hroom : (cons.e - cons.r).toNat < INPUT_BUF
  · have hless : s.unread.length + s.pending.length < INPUT_BUF := h.length ▸ hroom
    rw [if_pos ⟨hzero, hroom⟩, if_pos hless]
    generalize (if c = 13 then 10 else c) = d
    have hfull : (cons.put d).e = (cons.put d).r + BitVec.ofNat 32 INPUT_BUF ↔
        s.unread.length + (s.pending ++ [d]).length = INPUT_BUF := by
      rw [full_iff (by decide), show (cons.put d).r = cons.r from rfl, length_put hroom, h.length,
        List.length_append, List.length_singleton, add_assoc]
    simp only [hfull]
    split_ifs with hend
    · exact h.commit hroom d
    · exact h.put hroom fun hten => hend (.inl hten)
  · have hless : ¬s.unread.length + s.pending.length < INPUT_BUF := h.length ▸ hroom
    rw [if_neg fun hand => hroom hand.2, if_neg hless]
    exact h

end

/-! ## Turns of calls -/

theorem pop {c : BitVec 8} {rest : List (BitVec 8)} (h : Follows cons s)
    (hunread : s.unread = c :: rest) :
    cons.r ≠ cons.w ∧ cons.next = c ∧
      Follows { cons with r := cons.r + 1 } { s with pos := s.pos + 1 } := by
  have hcommitted := h.committed
  rw [hunread, List.length_cons] at hcommitted
  have hne : cons.r ≠ cons.w := fun heq => by
    have hzero := toNat_sub_eq_zero_iff.mpr heq
    omega
  have hlen := h.length
  have hre : cons.r ≠ cons.e := fun heq => by
    have hzero := toNat_sub_eq_zero_iff.mpr heq
    rw [hunread, List.length_cons] at hlen
    omega
  have hrest : s.stream.drop (s.pos + 1) = rest := by
    rw [← List.tail_drop]
    exact congrArg List.tail hunread
  have hstored := h.stored
  rw [contents_pop hre, hunread, List.cons_append, List.cons.injEq] at hstored
  have hr := toNat_sub_pop hne
  have he := toNat_sub_pop hre
  have hfits := h.fits
  refine ⟨hne, hstored.1, ⟨?_, ?_, ?_, h.noLine, Editor.pos_lt hunread⟩⟩
  · simp only [Editor.unread, hrest]
    exact hstored.2
  · simp only [Editor.unread, hrest]
    exact Nat.succ.inj (hr.trans hcommitted)
  · exact (Nat.le_succ _).trans (he.trans_le hfits)

theorem turn (h : Follows cons s) (target n : Nat) :
    (consolereadTurn target n cons).1 = (s.turn target n).1 ∧
      Follows (consolereadTurn target n cons).2 (s.turn target n).2 := by
  induction n generalizing cons s with
  | zero => exact ⟨rfl, h⟩
  | succ n ih =>
    rw [consolereadTurn, Editor.turn]
    cases hunread : s.unread with
    | nil =>
      have heq : cons.r = cons.w := by
        rw [← toNat_sub_eq_zero_iff, h.committed, hunread, List.length_nil]
      rw [if_pos heq]
      exact ⟨rfl, h⟩
    | cons c rest =>
      obtain ⟨hne, hnext, hpop⟩ := h.pop hunread
      simp only [if_neg hne, hnext]
      split
      · refine ⟨rfl, ?_⟩
        split
        · simpa using h
        · exact hpop
      · split
        · exact ⟨rfl, hpop⟩
        · obtain ⟨hout, hafter⟩ := ih hpop
          exact ⟨by rw [hout], hafter⟩

end Follows

/-! ## What the editor gives out -/

theorem Editor.typed_stream (s : Editor) (ignored : List (BitVec 8)) (c : BitVec 8) :
    ∃ l, (s.typed ignored c).stream = s.stream ++ l ∧ (s.typed ignored c).pos = s.pos := by
  unfold typed
  dsimp only
  split_ifs <;> first | exact ⟨_, rfl, rfl⟩ | exact ⟨[], by simp⟩

structure Editor.Takes (s : Editor) (target n : Nat) (o : Turn) (s' : Editor) : Prop where
  stream : s'.stream = s.stream
  pos_le : s'.pos ≤ s.stream.length
  text : text (s.stream.take s'.pos) = text (s.stream.take s.pos) ++ o.bytes
  line : 10 ∉ o.bytes.dropLast
  sleeps : o.left.isSome → 10 ∉ o.bytes
  /-- A `^D` that ends a call with bytes is still there. -/
  eof : n ≤ target → o.left = none → o.bytes.length < n → o.bytes.getLast? ≠ some 10 →
    n < target ∨ o.bytes ≠ [] → s'.unread.head? = some (ctrl 'D')

theorem Editor.takes (hpos : s.pos ≤ s.stream.length) (target n : Nat) :
    s.Takes target n (s.turn target n).1 (s.turn target n).2 := by
  induction n generalizing s with
  | zero => exact ⟨rfl, hpos, by simp [turn], by simp [turn], by simp [turn], by simp⟩
  | succ n ih =>
    rw [turn]
    cases hunread : s.unread with
    | nil => exact ⟨rfl, hpos, by simp, by simp, by simp, by simp⟩
    | cons c rest =>
      have hlt := pos_lt hunread
      have hget : s.stream[s.pos] = c := by
        rw [unread, List.drop_eq_getElem_cons hlt] at hunread
        exact (List.cons.inj hunread).1
      have htext : text (s.stream.take (s.pos + 1)) =
          text (s.stream.take s.pos) ++ [c].filter (· ≠ ctrl 'D') := by
        rw [text, text, ← List.filter_append, ← List.take_append_getElem hlt, hget]
      dsimp only
      split_ifs with heof hless hten
      · exact ⟨rfl, hpos, by simp, by simp, by simp, fun _ _ _ _ _ => by simp [hunread, heof]⟩
      · exact ⟨rfl, hlt, by simpa [heof] using htext, by simp, by simp,
          fun _ _ _ _ h => absurd h (by simp [hless])⟩
      · exact ⟨rfl, hlt, by simpa [heof] using htext, by simp, by simp,
          fun _ _ _ h => absurd (by simp [hten]) h⟩
      · obtain ⟨hstream, hle, hrest, hline, hsleeps, hkept⟩ := @ih { s with pos := s.pos + 1 } hlt
        refine ⟨hstream, hle, ?_, ?_, ?_, ?_⟩
        · rw [hrest, htext]
          simp [heof]
        · intro hmem
          cases hb : (turn target n { s with pos := s.pos + 1 }).1.bytes with
          | nil => simp [hb] at hmem
          | cons d l =>
            rw [hb] at hmem hline
            exact (List.mem_cons.mp hmem).elim (fun h => hten h.symm) hline
        · intro hsome hmem
          exact (List.mem_cons.mp hmem).elim (fun h => hten h.symm) (hsleeps hsome)
        · intro htarget hnone hshort hlast _
          refine hkept (by omega) hnone (by simpa using hshort) ?_ (.inl htarget)
          intro hlast'
          exact hlast (by simp [List.getLast?_cons, hlast'])

/-! ## Runs -/

section

variable {Tid : Type} [DecidableEq Tid]

structure Line.Alike (s : Line Cons Tid) (s' : Line Editor Tid) : Prop where
  dev : Follows s.dev s'.dev
  calls : s.calls = s'.calls
  log : s.log = s'.log
  taken : s.taken = s'.taken

structure Line.Delivers (s : Line Editor Tid) : Prop where
  pos_le : s.dev.pos ≤ s.dev.stream.length
  text : s.taken.map (·.2) = text (s.dev.stream.take s.dev.pos)
  got : ∀ t, s.gotBy t = (s.taken.filter (·.1 = t)).map (·.2)
  line : ∀ a ∈ s.log, 10 ∉ a.2.dropLast
  calls : ∀ t call, s.calls t = some call → 10 ∉ call.got

variable {s : Line Cons Tid} {s' : Line Editor Tid}

theorem Line.Alike.takeTurn (h : s.Alike s') (t : Tid) (call : Reading) :
    (s.takeTurn consolereadTurn t call).Alike (s'.takeTurn Editor.turn t call) := by
  obtain ⟨hout, hafter⟩ := h.dev.turn call.target call.n
  unfold Line.takeTurn
  generalize consolereadTurn call.target call.n s.dev = r at hout hafter
  generalize s'.dev.turn call.target call.n = r' at hout hafter
  obtain ⟨⟨bytes, left⟩, cons⟩ := r
  obtain ⟨o, ed⟩ := r'
  subst hout
  cases left with
  | none => exact ⟨hafter, by simp [h.calls], by simp [h.log], by simp [h.taken]⟩
  | some n => exact ⟨hafter, by simp [h.calls], h.log, by simp [h.taken]⟩

theorem Line.Delivers.takeTurn (h : s'.Delivers) {t : Tid} {call : Reading}
    (hgot : (s'.calls t).elim [] (·.got) = call.got) (hline : 10 ∉ call.got) :
    (s'.takeTurn Editor.turn t call).Delivers := by
  have htakes := Editor.takes h.pos_le call.target call.n
  have hold := h.got
  have hmine := h.got t
  unfold gotBy at hold hmine
  rw [hgot] at hmine
  unfold Line.takeTurn
  generalize s'.dev.turn call.target call.n = r at htakes
  obtain ⟨⟨bytes, left⟩, dev⟩ := r
  obtain ⟨hstream, hle, htext, hbytes, hsleeps, _⟩ := htakes
  have hall : (s'.taken ++ bytes.map (t, ·)).map (·.2) = Rw.text (dev.stream.take dev.pos) := by
    rw [hstream, htext, ← h.text]
    simp
  have hnew (u : Tid) : ((s'.taken ++ bytes.map (t, ·)).filter (·.1 = u)).map (·.2) =
      (s'.taken.filter (·.1 = u)).map (·.2) ++ if u = t then bytes else [] := by
    by_cases hu : u = t
    · simp [hu, List.filter_map, Function.comp_def]
    · simp [hu, Ne.symm hu, List.filter_map, Function.comp_def]
  cases left with
  | none =>
    refine ⟨hstream ▸ hle, hall, fun u => (Eq.trans ?_ (hnew u).symm), fun a ha => ?_, fun u c hc => ?_⟩
    · by_cases hu : u = t
      · simp [gotBy, hu, ← hmine]
      · simp [gotBy, hu, Ne.symm hu, ← hold]
    · rcases List.mem_append.mp ha with hold | hlast
      · exact h.line a hold
      rw [List.mem_singleton.mp hlast]
      by_cases hnil : bytes = []
      · rw [hnil, List.append_nil]
        exact fun hmem => hline (List.mem_of_mem_dropLast hmem)
      · rw [List.dropLast_append_of_ne_nil hnil, List.mem_append]
        exact not_or.mpr ⟨hline, hbytes⟩
    · by_cases hu : u = t
      · simp [hu] at hc
      · exact h.calls u c (by simpa [hu] using hc)
  | some n =>
    refine ⟨hstream ▸ hle, hall, fun u => (Eq.trans ?_ (hnew u).symm), h.line, fun u c hc => ?_⟩
    · by_cases hu : u = t
      · simp [gotBy, hu, ← hmine]
      · simp [gotBy, hu, ← hold]
    · by_cases hu : u = t
      · simp only [hu, Function.update_self, Option.some.injEq] at hc
        rw [← hc, List.mem_append]
        exact not_or.mpr ⟨hline, hsleeps rfl⟩
      · exact h.calls u c (by simpa [hu] using hc)

theorem Line.Delivers.typed (h : s'.Delivers) (c : BitVec 8) :
    Line.Delivers { s' with dev := s'.dev.typed [0, ctrl 'P'] c } := by
  obtain ⟨l, hstream, hpos⟩ := s'.dev.typed_stream [0, ctrl 'P'] c
  refine ⟨?_, ?_, h.got, h.line, h.calls⟩
  · simp only [hstream, hpos, List.length_append]
    exact h.pos_le.trans (Nat.le_add_right _ _)
  · simp only [hstream, hpos, List.take_append_of_le_length h.pos_le]
    exact h.text

theorem Line.Alike.run (h : s.Alike s') (hdel : s'.Delivers) (inputs : List (Input Tid)) :
    (s.run consoleintr consolereadTurn inputs).Alike
        (s'.run (Editor.typed [0, ctrl 'P']) Editor.turn inputs) ∧
      (s'.run (Editor.typed [0, ctrl 'P']) Editor.turn inputs).Delivers := by
  induction inputs generalizing s s' with
  | nil => exact ⟨h, hdel⟩
  | cons i inputs ih =>
    suffices hstep : (s.step consoleintr consolereadTurn i).Alike
        (s'.step (Editor.typed [0, ctrl 'P']) Editor.turn i) ∧
        (s'.step (Editor.typed [0, ctrl 'P']) Editor.turn i).Delivers from ih hstep.1 hstep.2
    cases i with
    | typed c => exact ⟨⟨h.dev.typed c, h.calls, h.log, h.taken⟩, hdel.typed c⟩
    | read t n =>
      simp only [step, h.calls]
      cases hcall : s'.calls t with
      | none => exact ⟨h.takeTurn t _, hdel.takeTurn (by simp [hcall]) (by simp)⟩
      | some call => exact ⟨h, hdel⟩
    | wake t =>
      simp only [step, h.calls]
      cases hcall : s'.calls t with
      | none => exact ⟨h, hdel⟩
      | some call => exact ⟨h.takeTurn t call, hdel.takeTurn (by simp [hcall]) (hdel.calls t call hcall)⟩

end

/-- A `^D` at the front stays there while characters are typed, and then ends the next call. -/
theorem Follows.eof {cons : Cons} (h : Follows cons s)
    (heof : s.unread.head? = some (ctrl 'D')) (cs : List (BitVec 8)) (m : Nat) :
    (consolereadTurn m m (cs.foldl (fun cons c => consoleintr c cons) cons)).1 = ⟨[], none⟩ := by
  induction cs generalizing cons s with
  | nil =>
    obtain ⟨rest, hunread⟩ := List.head?_eq_some_iff.mp heof
    rw [List.foldl_nil, (h.turn m m).1]
    cases m with
    | zero => rfl
    | succ m => simp [Editor.turn, hunread]
  | cons c cs ih =>
    obtain ⟨l, hstream, hpos⟩ := s.typed_stream [0, ctrl 'P'] c
    refine ih (h.typed c) ?_
    rw [Editor.unread, hstream, hpos, List.drop_append_of_le_length h.pos_le, List.head?_append,
      ← Editor.unread, heof, Option.some_or]

/-- For every order of characters and calls and every first index, the console is at each time the ring
of a line editor that ignores NUL and `^P`, and gives its answers. What was copied out is what was
committed, in order and without its `^D`s, and each process has its part of it; an answer has a newline
only at its end; and a `^D` after some bytes makes the next call return nothing. -/
theorem console_edits {Tid : Type} [DecidableEq Tid] (buf : Fin INPUT_BUF → BitVec 8)
    (i : BitVec 32) (inputs : List (Input Tid)) :
    let s := (start ⟨buf, i, i, i⟩).run consoleintr consolereadTurn inputs
    let ed := (start ⟨[], 0, []⟩).run (Editor.typed [0, ctrl 'P']) Editor.turn inputs
    ((s.dev.w - s.dev.r).toNat ≤ (s.dev.e - s.dev.r).toNat ∧
      (s.dev.e - s.dev.r).toNat ≤ INPUT_BUF) ∧
    (contents s.dev.buf s.dev.r s.dev.e = ed.dev.unread ++ ed.dev.pending ∧
      (s.dev.w - s.dev.r).toNat = ed.dev.unread.length) ∧
    (s.calls = ed.calls ∧ s.log = ed.log ∧ s.taken = ed.taken) ∧
    s.taken.map (·.2) = text (ed.dev.stream.take ed.dev.pos) ∧
    (∀ t, s.gotBy t = (s.taken.filter (·.1 = t)).map (·.2)) ∧
    (∀ a ∈ s.log, 10 ∉ a.2.dropLast) ∧
    ∀ target n, n ≤ target → ∀ o cons, consolereadTurn target n s.dev = (o, cons) →
      o.left = none → o.bytes.length < n → o.bytes.getLast? ≠ some 10 →
      n < target ∨ o.bytes ≠ [] → ∀ (cs : List (BitVec 8)) m,
        (consolereadTurn m m (cs.foldl (fun cons c => consoleintr c cons) cons)).1 = ⟨[], none⟩ := by
  intro s ed
  have hstart : (start ⟨buf, i, i, i⟩ : Line Cons Tid).Alike (start ⟨[], 0, []⟩) := by
    refine ⟨⟨?_, ?_, ?_, ?_, ?_⟩, rfl, rfl, rfl⟩ <;>
      simp [start, Editor.unread, contents_eq_nil_iff]
  obtain ⟨hs, hed⟩ := hstart.run ⟨by simp [start], rfl, fun _ => rfl, by simp [start],
    by simp [start]⟩ inputs
  refine ⟨⟨hs.dev.w_le_e, hs.dev.fits⟩, ⟨hs.dev.stored, hs.dev.committed⟩,
    ⟨hs.calls, hs.log, hs.taken⟩, hs.taken ▸ hed.text, ?_, hs.log ▸ hed.line, ?_⟩
  · intro t
    have hgot := hed.got t
    rw [← hs.taken] at hgot
    rw [← hgot, gotBy, gotBy, hs.calls, hs.log]
  · intro target n hn o cons hturn hnone hshort hlast hsome cs m
    obtain ⟨hout, hafter⟩ := hs.dev.turn target n
    have hkept := (Editor.takes hed.pos_le target n).eof hn
    rw [← hout, hturn] at hkept
    rw [hturn] at hafter
    exact hafter.eof (hkept hnone hshort hlast hsome) cs m

/-- An editor that ignores nothing differs: a NUL is dropped though there is room. -/
theorem console_drops_nul :
    ((start ⟨fun _ => 0, 0, 0, 0⟩).run consoleintr consolereadTurn
        [.typed 0, .typed 10, .read () 5]).log = [((), [10])] ∧
      ((start ⟨[], 0, []⟩).run (Editor.typed []) Editor.turn
        [.typed 0, .typed 10, .read () 5]).log = [((), [0, 10])] := by
  decide +kernel

end Xv6.Rw
