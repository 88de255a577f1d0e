import Mathlib.Data.List.TakeWhile
import Mathlib.Tactic
import Xv6.Grep.Proofs.Match

/-!
# The lines that `grep` prints

The buffer holds the beginning of a line between two calls of `read`. `grep` prints the lines that
match, however `read` cuts the input into pieces, where every line fits into the buffer and the input
does not end in a line without a newline that matches.
-/

namespace Xv6.Grep

open Function
open List (cons_append length_append length_cons append_assoc map_map append_nil flatMap_cons
  replicate mem_cons mem_append)

/-! ## Lines -/

/-- The lines of a text, and what is behind the last newline. -/
def splitLines : List Char → List (List Char) × List Char
  | [] => ([], [])
  | c :: s =>
    let (lines, rest) := splitLines s
    if c = '\n' then ([] :: lines, rest)
    else match lines with
      | [] => ([], c :: rest)
      | l :: lines => ((c :: l) :: lines, rest)

section

variable {l s t u : List Char}

theorem splitLines_line (hl : '\n' ∉ l) (s : List Char) :
    splitLines (l ++ '\n' :: s) = (l :: (splitLines s).1, (splitLines s).2) := by
  induction l with
  | nil => rfl
  | cons c l ih =>
    obtain ⟨hc, hl'⟩ := not_or.mp (mem_cons.not.mp hl)
    rw [cons_append, splitLines, ih hl']
    exact if_neg (Ne.symm hc)

theorem splitLines_rest (ht : '\n' ∉ t) : splitLines t = ([], t) := by
  induction t with
  | nil => rfl
  | cons c t ih =>
    obtain ⟨hc, ht'⟩ := not_or.mp (mem_cons.not.mp ht)
    rw [splitLines, ih ht']
    exact if_neg (Ne.symm hc)

variable (s : List Char)

theorem line_or_rest : (∃ l s', s = l ++ '\n' :: s' ∧ '\n' ∉ l) ∨ '\n' ∉ s := by
  by_cases h : '\n' ∈ s
  · obtain ⟨l, s', rfl, hl⟩ := List.eq_append_cons_of_mem h
    exact .inl ⟨l, s', rfl, hl⟩
  · exact .inr h

theorem lines_induction {P : List Char → Prop} (rest : ∀ t, '\n' ∉ t → P t)
    (line : ∀ l s, '\n' ∉ l → P s → P (l ++ '\n' :: s)) (s : List Char) : P s := by
  induction hn : s.length using Nat.strong_induction_on generalizing s with
  | _ n ih =>
    rcases line_or_rest s with ⟨l, s', rfl, hl⟩ | hs
    · rw [length_append, length_cons] at hn
      exact line l s' hl (ih _ (by omega) s' rfl)
    · exact rest s hs

theorem splitLines_append (s u : List Char) : splitLines (s ++ u) =
    ((splitLines s).1 ++ (splitLines ((splitLines s).2 ++ u)).1,
      (splitLines ((splitLines s).2 ++ u)).2) := by
  induction s using lines_induction with
  | rest t ht =>
    rw [splitLines_rest ht]
    rfl
  | line l s hl ih =>
    rw [append_assoc, cons_append, splitLines_line hl, splitLines_line hl, ih]
    rfl

theorem rest_no_newline : '\n' ∉ (splitLines s).2 := by
  induction s using lines_induction with
  | rest t ht =>
    rw [splitLines_rest ht]
    exact ht
  | line l s hl ih =>
    rw [splitLines_line hl]
    exact ih

theorem rest_suffix : (splitLines s).2 <:+ s := by
  induction s using lines_induction with
  | rest t ht => exact (congrArg (·.2 <:+ t) (splitLines_rest ht)).mpr (List.suffix_refl t)
  | line l s hl ih =>
    rw [splitLines_line hl]
    exact ih.trans ⟨l ++ ['\n'], by rw [append_assoc]; rfl⟩

theorem length_lines_le : (splitLines s).1.length ≤ s.length := by
  induction s using lines_induction with
  | rest t ht =>
    rw [splitLines_rest ht]
    exact Nat.zero_le _
  | line l s hl ih =>
    rw [splitLines_line hl, length_cons, length_append, length_cons]
    omega

theorem length_line_lt : ∀ l ∈ (splitLines s).1, l.length < s.length := by
  induction s using lines_induction with
  | rest t ht =>
    rw [splitLines_rest ht]
    simp
  | line l s hl ih =>
    rw [splitLines_line hl, length_append, length_cons]
    refine List.forall_mem_cons.mpr ⟨by omega, fun l' hl' => ?_⟩
    have := ih l' hl'
    omega

theorem length_le_first (ht : '\n' ∉ t) {lines : List (List Char)}
    (h : (splitLines (t ++ u)).1 = l :: lines) : t.length ≤ l.length := by
  rcases line_or_rest u with ⟨l', u', rfl, hl'⟩ | hu
  · have hline : '\n' ∉ t ++ l' := fun hm => (mem_append.mp hm).elim ht hl'
    rw [← append_assoc, splitLines_line hline] at h
    rw [← (List.cons.inj h).1, length_append]
    omega
  · rw [splitLines_rest fun hm => (mem_append.mp hm).elim ht hu] at h
    cases h

end

/-! ## The buffer -/

/-- The buffer has the characters of `s` from `p` on. -/
def Holds (buf : Nat → Char) : Nat → List Char → Prop
  | _, [] => True
  | p, c :: s => buf p = c ∧ Holds buf (p + 1) s

section

variable {buf buf' : Nat → Char} {p p' n : Nat} {l s t u : List Char}

theorem holds_append : Holds buf p (s ++ u) ↔ Holds buf p s ∧ Holds buf (p + s.length) u := by
  induction s generalizing p with
  | nil => simp [Holds]
  | cons c s ih =>
    rw [cons_append, Holds, Holds, ih, length_cons, and_assoc,
      show p + 1 + s.length = p + (s.length + 1) by omega]

theorem Holds.move (h : Holds buf p s) (heq : ∀ i < s.length, buf' (p' + i) = buf (p + i)) :
    Holds buf' p' s := by
  induction s generalizing p p' with
  | nil => trivial
  | cons c s ih =>
    rw [length_cons] at heq
    refine ⟨(heq 0 (by omega)).trans h.1, ih h.2 fun i hi => ?_⟩
    rw [Nat.add_assoc, Nat.add_assoc, Nat.add_comm 1]
    exact heq (i + 1) (by omega)

theorem Holds.congr (h : Holds buf p s) (heq : ∀ i, p ≤ i → i < p + s.length → buf' i = buf i) :
    Holds buf' p s :=
  h.move fun i hi => heq (p + i) (by omega) (by omega)

theorem holds_fill (buf : Nat → Char) (m : Nat) (s : List Char) : Holds (fill buf m s) m s := by
  induction s generalizing buf m with
  | nil => trivial
  | cons c s ih =>
    refine ⟨by simp [fill], (ih buf (m + 1)).move fun i hi => ?_⟩
    rw [fill, fill, if_pos (by omega), if_pos (by omega), show m + 1 + i - m = i + 1 by omega,
      show m + 1 + i - (m + 1) = i by omega, List.getD_cons_succ]

theorem Holds.slice (h : Holds buf p s) : slice buf p s.length = s := by
  induction s generalizing p with
  | nil => rfl
  | cons c s ih =>
    have hrest := ih h.2
    unfold Grep.slice at hrest ⊢
    rw [length_cons, List.range_succ_eq_map, List.map_cons, map_map, Nat.add_zero, h.1]
    congr 1
    rw [← hrest, List.length_map, List.length_range]
    refine List.map_congr_left fun i _ => ?_
    rw [comp_apply, Nat.succ_eq_add_one, show p + (i + 1) = p + 1 + i by omega]

theorem Holds.stringAt (h : Holds buf p (s ++ [nul])) (hlt : p + s.length < BUFSZ) :
    ∃ y, stringAt buf p = s ++ nul :: y := by
  have hsplit : BUFSZ - p = (s ++ [nul]).length + (BUFSZ - p - (s ++ [nul]).length) := by
    rw [length_append, List.length_singleton]
    omega
  refine ⟨(List.range (BUFSZ - p - (s ++ [nul]).length)).map
    fun i => buf (p + ((s ++ [nul]).length + i)), ?_⟩
  have hslice := h.slice
  unfold Grep.slice at hslice
  rw [Grep.stringAt, hsplit, List.range_add, List.map_append, hslice, map_map, append_assoc]
  simp only [Nat.add_sub_cancel_left]
  rfl

theorem strchr_found (h : Holds buf p (l ++ '\n' :: s)) (hl : '\n' ∉ l) (hnul : nul ∉ l)
    (hlt : l.length < n) : strchr buf '\n' n p = some (some (p + l.length)) := by
  induction l generalizing p n with
  | nil =>
    obtain ⟨n, rfl⟩ := Nat.exists_eq_succ_of_ne_zero (Nat.ne_of_gt hlt)
    rw [strchr, h.1, if_neg (by decide), if_pos rfl]
    rfl
  | cons c l ih =>
    obtain ⟨n, rfl⟩ := Nat.exists_eq_succ_of_ne_zero (show n ≠ 0 by omega)
    obtain ⟨hc, hl'⟩ := not_or.mp (mem_cons.not.mp hl)
    obtain ⟨hcn, hnul'⟩ := not_or.mp (mem_cons.not.mp hnul)
    rw [length_cons] at hlt ⊢
    rw [strchr, h.1, if_neg (Ne.symm hcn), if_neg (Ne.symm hc), ih h.2 hl' hnul' (by omega),
      show p + 1 + l.length = p + (l.length + 1) by omega]

theorem strchr_none (h : Holds buf p (t ++ [nul])) (ht : '\n' ∉ t) (hnul : nul ∉ t)
    (hlt : t.length < n) : strchr buf '\n' n p = some none := by
  induction t generalizing p n with
  | nil =>
    obtain ⟨n, rfl⟩ := Nat.exists_eq_succ_of_ne_zero (Nat.ne_of_gt hlt)
    rw [strchr, h.1, if_pos rfl]
  | cons c t ih =>
    obtain ⟨n, rfl⟩ := Nat.exists_eq_succ_of_ne_zero (show n ≠ 0 by omega)
    obtain ⟨hc, ht'⟩ := not_or.mp (mem_cons.not.mp ht)
    obtain ⟨hcn, hnul'⟩ := not_or.mp (mem_cons.not.mp hnul)
    rw [length_cons] at hlt
    rw [strchr, h.1, if_neg (Ne.symm hcn), if_neg (Ne.symm hc), ih h.2 ht' hnul' (by omega)]

end

/-! ## The loops -/

open Classical in
/-- The lines that match, each with its newline. -/
noncomputable def matching (re : List Char) (lines : List (List Char)) : List Char :=
  lines.flatMap fun l => if (parse re).Matches l then l ++ ['\n'] else []

/-- The line and its newline fit into the buffer. -/
def fits (l : List Char) : Bool := l.length + 1 < BUFSZ

theorem matching_append (re : List Char) (lines lines' : List (List Char)) :
    matching re (lines ++ lines') = matching re lines ++ matching re lines' := by
  exact List.flatMap_append

section

variable {re x input : List Char} (hre : nul ∉ re) {buf : Nat → Char} {fuel : Nat}
include hre

theorem lineLoop_spec {p : Nat} {s : List Char} (out : List Char) (h : Holds buf p (s ++ [nul]))
    (hnul : nul ∉ s) (hlt : p + s.length < BUFSZ) (hfuel : (splitLines s).1.length < fuel) :
    ∃ buf' p', lineLoop (re ++ nul :: x) fuel buf p out =
        some (buf', p', out ++ matching re (splitLines s).1) ∧
      p' + (splitLines s).2.length = p + s.length ∧ Holds buf' p' (splitLines s).2 := by
  induction s using lines_induction generalizing fuel buf p out with
  | rest t ht =>
    obtain ⟨fuel, rfl⟩ := Nat.exists_eq_succ_of_ne_zero (show fuel ≠ 0 by omega)
    rw [splitLines_rest ht, lineLoop, strchr_none h ht hnul (by omega)]
    refine ⟨buf, p, ?_, rfl, (holds_append.mp h).1⟩
    rw [matching, List.flatMap_nil, append_nil]
    rfl
  | line l s hl ih =>
    obtain ⟨fuel, rfl⟩ := Nat.exists_eq_succ_of_ne_zero (show fuel ≠ 0 by omega)
    rw [length_append, length_cons] at hlt
    rw [splitLines_line hl, length_cons] at hfuel
    have hnl : nul ∉ l := fun hm => hnul (List.mem_append_left _ hm)
    have hns : nul ∉ s := fun hm => hnul (List.mem_append_right _ (List.mem_cons_of_mem _ hm))
    rw [append_assoc, cons_append] at h
    obtain ⟨hline, hq, hrest⟩ := holds_append.mp h
    have hfind := strchr_found h hl hnl (show l.length < BUFSZ - p by omega)
    -- a change at the newline leaves the line and what is behind it
    have hset : ∀ c, Holds (update buf (p + l.length) c) p (l ++ [c]) ∧
        ∀ c', Holds (update (update buf (p + l.length) c) (p + l.length) c')
          (p + l.length + 1) (s ++ [nul]) := fun c => by
      refine ⟨holds_append.mpr ⟨hline.congr fun i _ hi => update_of_ne (by omega) .., ?_, trivial⟩,
        fun c' => hrest.congr fun i hi _ => ?_⟩
      · exact update_self ..
      · rw [update_of_ne (by omega), update_of_ne (by omega)]
    obtain ⟨y, hstring⟩ := (hset nul).1.stringAt (by omega)
    obtain ⟨b, hb, hmatch⟩ := matchRe_spec re l x y hre hnl
    rw [lineLoop, hfind, splitLines_line hl, length_append, length_cons]
    simp only [Option.bind_eq_bind, Option.bind_some, hstring, hb]
    cases b with
    | true =>
      have hslice : slice (update (update buf (p + l.length) nul) (p + l.length) '\n')
          p (p + l.length + 1 - p) = l ++ ['\n'] := by
        have hl' := (hset '\n').1.slice
        rw [length_append, List.length_singleton] at hl'
        rw [update_idem, show p + l.length + 1 - p = l.length + 1 by omega]
        exact hl'
      obtain ⟨buf', p', hrun, hp', hbuf'⟩ := ih (out ++ (l ++ ['\n'])) ((hset nul).2 '\n') hns
        (by omega) (Nat.lt_of_succ_lt_succ hfuel)
      refine ⟨buf', p', ?_, by omega, hbuf'⟩
      rw [if_pos rfl, hslice, hrun, matching, matching, flatMap_cons, if_pos (hmatch.mp rfl),
        append_assoc]
    | false =>
      have hno : ¬ (parse re).Matches l := fun hm => by cases hmatch.mpr hm
      obtain ⟨buf', p', hrun, hp', hbuf'⟩ := ih out
        (by have := (hset nul).2 nul; rwa [update_idem] at this) hns (by omega)
        (Nat.lt_of_succ_lt_succ hfuel)
      refine ⟨buf', p', ?_, by omega, hbuf'⟩
      rw [if_neg (by decide), hrun, matching, matching, flatMap_cons, if_neg hno, List.nil_append]

/-- The outer loop prints the lines of what is in the buffer and what is still to come, up to the first
line that does not fit into the buffer. -/
theorem grepLoop_spec (cut : Nat → Nat) {k m : Nat} {pend : List Char}
    (out : List Char) (hfuel : input.length < fuel) (hpend : Holds buf 0 pend) (hm : pend.length = m)
    (hlt : m < BUFSZ) (hline : '\n' ∉ pend) (hnul : nul ∉ pend ++ input) :
    grepLoop (re ++ nul :: x) cut fuel k buf m input out =
      some (out ++ matching re ((splitLines (pend ++ input)).1.takeWhile fits)) := by
  induction fuel generalizing k m buf pend input out with
  | zero => omega
  | succ fuel ih =>
    rw [grepLoop]
    generalize hn : readLen (cut k) (BUFSZ - m - 1) input.length = n
    unfold readLen at hn
    by_cases hpos : 0 < n
    · rw [if_pos hpos]
      have hpiece : (input.take n).length = n := List.length_take_of_le (by omega)
      have hnul' : nul ∉ pend ++ input.take n := fun h => hnul <| by
        rcases mem_append.mp h with h | h
        · exact List.mem_append_left _ h
        · exact List.mem_append_right _ (List.mem_of_mem_take h)
      -- the old and the new characters, and a NUL
      have hbuf : Holds (update (fill buf m (input.take n)) (m + n) nul) 0
          ((pend ++ input.take n) ++ [nul]) := by
        have hold : Holds (fill buf m (input.take n)) 0 pend :=
          hpend.congr fun i _ hi => if_neg (by omega)
        refine holds_append.mpr ⟨(holds_append.mpr ⟨hold, ?_⟩).congr fun i _ hi =>
          update_of_ne ?_ .., ?_, trivial⟩
        · rw [Nat.zero_add, hm]
          exact holds_fill buf m _
        · rw [length_append, hm, hpiece] at hi
          omega
        · rw [length_append, hm, hpiece, Nat.zero_add]
          exact update_self ..
      have hlen : (pend ++ input.take n).length = m + n := by rw [length_append, hm, hpiece]
      obtain ⟨buf', p', hrun, hp', hbuf'⟩ := lineLoop_spec (x := x) hre out hbuf hnul' (by omega)
        (show _ < BUFSZ from (length_lines_le _).trans_lt (by omega))
      have hsplit := splitLines_append (pend ++ input.take n) (input.drop n)
      rw [append_assoc, List.take_append_drop] at hsplit
      have hdrop : nul ∉ (splitLines (pend ++ input.take n)).2 ++ input.drop n := fun h => by
        rcases mem_append.mp h with h | h
        · exact hnul' ((rest_suffix _).subset h)
        · exact hnul (List.mem_append_right _ (List.mem_of_mem_drop h))
      have hfit : ∀ l ∈ (splitLines (pend ++ input.take n)).1, fits l = true := fun l hl => by
        have := length_line_lt _ l hl
        exact decide_eq_true (by omega)
      rw [hsplit]
      rw [List.takeWhile_append_of_pos hfit]
      simp only [Option.bind_eq_bind, hrun, Option.bind_some]
      rw [ih (out ++ matching re (splitLines (pend ++ input.take n)).1)
        (by rw [List.length_drop]; omega) (hbuf'.move fun i hi => ?_) (by omega) (by omega)
        (rest_no_newline _) hdrop, matching_append, append_assoc]
      rw [Nat.zero_add, moveDown, if_pos (by omega)]
    · rw [if_neg hpos]
      have hnone : (splitLines (pend ++ input)).1.takeWhile fits = [] := by
        by_cases hempty : input = []
        · rw [hempty, append_nil, splitLines_rest hline]
          rfl
        -- the buffer is full, and the line does not fit
        have hinput := List.length_pos_iff.mpr hempty
        cases hlines : (splitLines (pend ++ input)).1 with
        | nil => rfl
        | cons l lines =>
          have hle := length_le_first hline hlines
          exact List.takeWhile_cons_of_neg fun hl => absurd (of_decide_eq_true hl) (by omega)
      rw [hnone, matching, List.flatMap_nil, append_nil]
      rfl

theorem grep_spec (hnul : nul ∉ input) (cut : Nat → Nat) (buf : Nat → Char) :
    grep (re ++ nul :: x) cut buf input = some (matching re ((splitLines input).1.takeWhile fits)) := by
  have hempty : Holds buf 0 [] := trivial
  exact grepLoop_spec hre cut [] (Nat.lt_succ_self _) hempty rfl (by decide) (by simp) hnul

end

open Classical in
/-- The lines of the input that match, the last one also without a newline. -/
noncomputable def matchingLines (re input : List Char) : List Char :=
  matching re (splitLines input).1 ++
    if (splitLines input).2 ≠ [] ∧ (parse re).Matches (splitLines input).2 then (splitLines input).2
    else []

/-- Whatever `read` delivers at a time, `grep` prints the lines that match just when no line matches from
the first one on that is longer than 1023 characters with its newline, and no line without a newline. -/
theorem grep_prints {re input : List Char} (hre : nul ∉ re) (hnul : nul ∉ input)
    (x : List Char) (cut : Nat → Nat) (buf : Nat → Char) :
    grep (re ++ nul :: x) cut buf input = some (matchingLines re input) ↔
      (∀ l ∈ (splitLines input).1.dropWhile fits, ¬ (parse re).Matches l) ∧
      ((splitLines input).2 = [] ∨ ¬ (parse re).Matches (splitLines input).2) := by
  have hsplit : matching re (splitLines input).1 = matching re ((splitLines input).1.takeWhile fits) ++
      matching re ((splitLines input).1.dropWhile fits) := by
    rw [← matching_append, List.takeWhile_append_dropWhile]
  rw [grep_spec hre hnul, matchingLines, hsplit, Option.some_inj, List.append_assoc, eq_comm,
    List.append_right_eq_self, List.append_eq_nil_iff, matching, List.flatMap_eq_nil_iff]
  refine and_congr (forall₂_congr fun l _ => ?_) ?_
  · simp
  · simp only [ite_eq_right_iff, or_iff_not_imp_left]
    exact ⟨fun h hne hm => hne (h ⟨hne, hm⟩), fun h hm => absurd hm.2 (h hm.1)⟩

theorem grep_prints_two : grep (['a'] ++ nul :: []) (fun _ => 2) (fun _ => nul)
    ['b', 'a', '\n', 'c', '\n'] = some (matchingLines ['a'] ['b', 'a', '\n', 'c', '\n']) :=
  (grep_prints (by decide) (by decide) [] _ _).mpr
    ⟨fun _ h => absurd h List.not_mem_nil, .inl rfl⟩

theorem matches_a (before after : List Char) : (parse ['a']).Matches (before ++ 'a' :: after) :=
  ⟨before, ['a'], after, by simp, ⟨['a'], [], rfl, ⟨'a', rfl, .inr rfl⟩, rfl⟩, nofun, nofun⟩

/-- A last line without a newline is not printed, and a line of 1023 characters and a newline neither. -/
theorem grep_misses :
    (grep (['a'] ++ nul :: []) (fun _ => 1) (fun _ => nul) ['a'] = some [] ∧
      matchingLines ['a'] ['a'] = ['a']) ∧
    grep (['a'] ++ nul :: []) (fun _ => 1) (fun _ => nul) (replicate 1023 'a' ++ '\n' :: []) =
      some [] ∧
      matchingLines ['a'] (replicate 1023 'a' ++ '\n' :: []) = replicate 1023 'a' ++ ['\n'] := by
  have hline : '\n' ∉ replicate 1023 'a' := fun h => by cases List.eq_of_mem_replicate h
  have hnul : nul ∉ replicate 1023 'a' ++ '\n' :: [] := fun h => by
    rcases mem_append.mp h with h | h
    · cases List.eq_of_mem_replicate h
    · cases List.mem_singleton.mp h
  refine ⟨⟨grep_spec (by decide) (by decide) _ _, ?_⟩, ?_, ?_⟩
  · have hlast : (splitLines ['a']).2 ≠ [] ∧ (parse ['a']).Matches (splitLines ['a']).2 :=
      ⟨by decide, matches_a [] []⟩
    rw [matchingLines, if_pos hlast]
    rfl
  · have hlong : ¬ fits (replicate 1023 'a') = true := by
      rw [fits, List.length_replicate]
      decide
    rw [grep_spec (by decide) hnul, splitLines_line hline, List.takeWhile_cons_of_neg hlong]
    rfl
  · have hmatch : (parse ['a']).Matches (replicate 1023 'a') := by
      rw [List.replicate_succ]
      exact matches_a [] _
    have hlast : ¬ ((splitLines []).2 ≠ [] ∧ (parse ['a']).Matches (splitLines []).2) := fun h => h.1 rfl
    rw [matchingLines, splitLines_line hline, if_neg hlast, matching, flatMap_cons, if_pos hmatch]
    exact (append_nil _).trans (append_nil _)

end Xv6.Grep
