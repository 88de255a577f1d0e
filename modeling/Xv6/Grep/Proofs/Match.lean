import Mathlib.Data.List.Basic
import Xv6.Grep.Code

/-!
# The matcher

A pattern is a sequence of items, and the matcher finds out whether a part of the text matches them.
-/

namespace Xv6.Grep

open List (nil_append mem_cons cons_append cons mem_cons_self)

/-! ## Patterns -/

/-- A character, or a character with a star. `.` stands for any character. -/
inductive Item
  | one (c : Char)
  | star (c : Char)
  deriving Repr, DecidableEq

/-- A pattern: its items, and whether it is anchored at the start and at the end. -/
structure Pattern where
  atStart : Bool
  items : List Item
  atEnd : Bool
  deriving Repr, DecidableEq

/-- The items, and whether a `$` ends them. -/
def parseItems : List Char → List Item × Bool
  | [] => ([], false)
  | [c] => if c = '$' then ([], true) else ([.one c], false)
  | c :: d :: re =>
    if d = '*' then
      let (items, atEnd) := parseItems re
      (.star c :: items, atEnd)
    else
      let (items, atEnd) := parseItems (d :: re)
      (.one c :: items, atEnd)

def parse : List Char → Pattern
  | '^' :: re => ⟨true, (parseItems re).1, (parseItems re).2⟩
  | re => ⟨false, (parseItems re).1, (parseItems re).2⟩

/-- The character `x` is one that `c` stands for. -/
def Fits (c x : Char) : Prop := c = '.' ∨ x = c

def Item.Matches : Item → List Char → Prop
  | .one c, s => ∃ x, s = [x] ∧ Fits c x
  | .star c, s => ∀ x ∈ s, Fits c x

/-- The strings that a sequence of items matches. -/
def ItemsMatch : List Item → List Char → Prop
  | [], s => s = []
  | i :: items, s => ∃ s1 s2, s = s1 ++ s2 ∧ i.Matches s1 ∧ ItemsMatch items s2

/-- Some part of the text matches the pattern. -/
def Pattern.Matches (p : Pattern) (text : List Char) : Prop :=
  ∃ before part after, text = before ++ part ++ after ∧ ItemsMatch p.items part ∧
    (p.atStart = true → before = []) ∧ (p.atEnd = true → after = [])

/-- The beginning of the text matches the items. -/
def Here (items : List Item) (atEnd : Bool) (text : List Char) : Prop :=
  ∃ part after, text = part ++ after ∧ ItemsMatch items part ∧ (atEnd = true → after = [])

section

variable {items : List Item} {atEnd : Bool} {text : List Char} {c : Char}

theorem here_nil : Here [] atEnd text ↔ (atEnd = true → text = []) := by
  constructor
  · rintro ⟨part, after, rfl, rfl, h⟩
    exact h
  · exact fun h => ⟨[], text, rfl, rfl, h⟩

theorem here_one :
    Here (.one c :: items) atEnd text ↔ ∃ x rest, text = x :: rest ∧ Fits c x ∧ Here items atEnd rest := by
  constructor
  · rintro ⟨_, after, rfl, ⟨_, s2, rfl, ⟨x, rfl, hx⟩, h⟩, hend⟩
    exact ⟨x, s2 ++ after, by simp, hx, s2, after, rfl, h, hend⟩
  · rintro ⟨x, rest, rfl, hx, part, after, rfl, h, hend⟩
    exact ⟨x :: part, after, rfl, ⟨[x], part, rfl, ⟨x, rfl, hx⟩, h⟩, hend⟩

theorem here_star : Here (.star c :: items) atEnd text ↔
    ∃ s rest, text = s ++ rest ∧ (∀ x ∈ s, Fits c x) ∧ Here items atEnd rest := by
  constructor
  · rintro ⟨_, after, rfl, ⟨s1, s2, rfl, hs, h⟩, hend⟩
    exact ⟨s1, s2 ++ after, by simp, hs, s2, after, rfl, h, hend⟩
  · rintro ⟨s, rest, rfl, hs, part, after, rfl, h, hend⟩
    exact ⟨s ++ part, after, by simp, ⟨s, part, rfl, hs, h⟩, hend⟩

end

/-! ## Answers -/

/-- There is an answer, and it says whether `P` holds. -/
def Decides (r : Option Bool) (P : Prop) : Prop := ∃ b, r = some b ∧ (b = true ↔ P)

namespace Decides

variable {r k : Option Bool} {P Q : Prop}

theorem true (h : P) : Decides (some Bool.true) P := ⟨Bool.true, rfl, fun _ => h, fun _ => rfl⟩

theorem false (h : ¬ P) : Decides (some Bool.false) P :=
  ⟨Bool.false, rfl, (fun h' => by cases h'), fun h' => absurd h' h⟩

theorem congr (h : Decides r P) (hPQ : P ↔ Q) : Decides r Q := by
  obtain ⟨b, hb, hP⟩ := h
  exact ⟨b, hb, hP.trans hPQ⟩

theorem or (hr : Decides r P) (hk : Decides k Q) :
    Decides (do if ← r then return Bool.true else k) (P ∨ Q) := by
  obtain ⟨b, rfl, hP⟩ := hr
  cases b with
  | true => exact Decides.true (.inl (hP.mp rfl))
  | false =>
    obtain ⟨b, rfl, hQ⟩ := hk
    refine ⟨b, rfl, hQ.trans ⟨.inr, fun h => h.resolve_left fun hp => ?_⟩⟩
    cases hP.mpr hp

end Decides

/-! ## The functions -/

section

variable {re text x y : List Char} {c : Char} {here : List Char → Option Bool}
  {P : List Char → Prop} {atEnd : Bool} {items : List Item}

theorem matchstar_spec (hnul : nul ∉ text)
    (hhere : ∀ s, nul ∉ s → Decides (here (s ++ nul :: y)) (P s)) :
    Decides (matchstar c here (text ++ nul :: y))
      (∃ s rest, text = s ++ rest ∧ (∀ x ∈ s, Fits c x) ∧ P rest) := by
  induction text with
  | nil =>
    rw [nil_append, matchstar, if_neg fun h => h.1 rfl]
    refine ((hhere [] hnul).or (Decides.false id)).congr ⟨?_, ?_⟩
    · rintro (h | h)
      · exact ⟨[], [], rfl, by simp, h⟩
      · exact h.elim
    · rintro ⟨s, rest, heq, -, h⟩
      obtain ⟨rfl, rfl⟩ := List.nil_eq_append_iff.mp heq
      exact .inl h
  | cons t text ih =>
    obtain ⟨ht, hnul'⟩ := not_or.mp (mem_cons.not.mp hnul)
    rw [cons_append, matchstar]
    by_cases hfit : Fits c t
    · have hcond : t ≠ nul ∧ (t = c ∨ c = '.') := ⟨Ne.symm ht, hfit.symm⟩
      rw [if_pos hcond]
      refine ((hhere (t :: text) hnul).or (ih hnul')).congr ⟨?_, ?_⟩
      · rintro (h | ⟨s, rest, rfl, hs, h⟩)
        · exact ⟨[], t :: text, rfl, by simp, h⟩
        · exact ⟨t :: s, rest, rfl, List.forall_mem_cons.mpr ⟨hfit, hs⟩, h⟩
      · rintro ⟨s, rest, heq, hs, h⟩
        cases s with
        | nil => exact .inl (heq ▸ h)
        | cons a s =>
          obtain ⟨rfl, rfl⟩ := cons.inj heq
          exact .inr ⟨s, rest, rfl, (List.forall_mem_cons.mp hs).2, h⟩
    · rw [if_neg fun h => hfit h.2.symm]
      refine ((hhere (t :: text) hnul).or (Decides.false id)).congr ⟨?_, ?_⟩
      · rintro (h | h)
        · exact ⟨[], t :: text, rfl, by simp, h⟩
        · exact h.elim
      · rintro ⟨s, rest, heq, hs, h⟩
        cases s with
        | nil => exact .inl (heq ▸ h)
        | cons a s =>
          obtain ⟨rfl, rfl⟩ := cons.inj heq
          exact absurd (List.forall_mem_cons.mp hs).1 hfit

theorem matchhere_cons (r0 r1 : Char) (re text : List Char) : matchhere (r0 :: r1 :: re) text =
    if r0 = nul then some true
    else if r1 = '*' then matchstar r0 (matchhere re) text
    else if r0 = '$' ∧ r1 = nul then text.head?.map (· == nul)
    else match text with
      | [] => none
      | t :: text => if t ≠ nul ∧ (r0 = '.' ∨ r0 = t) then matchhere (r1 :: re) text else some false := rfl

theorem matchhere_end (x text : List Char) : matchhere (nul :: x) text = some true := by
  cases x with
  | nil | cons => rfl

theorem matchhere_one {r : Char} (hnul : nul ∉ text) (hc : c ≠ nul) (hr : r ≠ '*')
    (hend : ¬ (c = '$' ∧ r = nul))
    (hrest : ∀ s, nul ∉ s → Decides (matchhere (r :: x) (s ++ nul :: y)) (P s)) :
    Decides (matchhere (c :: r :: x) (text ++ nul :: y))
      (∃ t rest, text = t :: rest ∧ Fits c t ∧ P rest) := by
  rw [matchhere_cons, if_neg hc, if_neg hr, if_neg hend]
  cases text with
  | nil =>
    refine Decides.false ?_
    rintro ⟨t, rest, h, -⟩
    cases h
  | cons t text =>
    obtain ⟨ht, hnul'⟩ := not_or.mp (mem_cons.not.mp hnul)
    dsimp only [cons_append]
    by_cases hfit : Fits c t
    · rw [if_pos ⟨Ne.symm ht, hfit.imp id Eq.symm⟩]
      refine (hrest text hnul').congr ⟨fun h => ⟨t, text, rfl, hfit, h⟩, ?_⟩
      rintro ⟨_, _, heq, -, h⟩
      obtain ⟨rfl, rfl⟩ := cons.inj heq
      exact h
    · rw [if_neg fun h => hfit (h.2.imp id Eq.symm)]
      refine Decides.false ?_
      rintro ⟨_, _, heq, h, -⟩
      obtain ⟨rfl, rfl⟩ := cons.inj heq
      exact hfit h

theorem matchhere_spec (hre : nul ∉ re) (hnul : nul ∉ text) :
    Decides (matchhere (re ++ nul :: x) (text ++ nul :: y))
      (Here (parseItems re).1 (parseItems re).2 text) := by
  fun_induction parseItems re generalizing text with
  | case1 =>
    rw [nil_append, matchhere_end]
    exact Decides.true (here_nil.mpr nofun)
  | case2 =>
    -- a `$` at the end
    rw [List.singleton_append, matchhere_cons, if_neg (by decide), if_neg (by decide), if_pos ⟨rfl, rfl⟩]
    cases text with
    | nil => exact Decides.true (here_nil.mpr fun _ => rfl)
    | cons t text =>
      have ht : (t == nul) = false := beq_false_of_ne fun h => hnul (h ▸ mem_cons_self ..)
      rw [cons_append, List.head?_cons, Option.map_some, ht]
      refine Decides.false fun h => ?_
      cases here_nil.mp h rfl
  | case3 c hc =>
    have hne : c ≠ nul := fun h => hre (h ▸ mem_cons_self ..)
    refine (matchhere_one (P := fun _ => True) hnul hne (by decide) (fun h => hc h.1)
      fun s _ => ?_).congr ?_
    · rw [matchhere_end]
      exact Decides.true trivial
    · simp only [here_one, here_nil, Bool.false_eq_true, false_imp_iff]
  | case4 c re items atEnd hparse ih =>
    obtain ⟨hc, hre'⟩ := not_or.mp (mem_cons.not.mp hre)
    have hre'' : nul ∉ re := fun h => hre' (List.mem_cons_of_mem _ h)
    rw [cons_append, cons_append, matchhere_cons, if_neg (Ne.symm hc), if_pos rfl]
    rw [hparse] at ih
    exact (matchstar_spec hnul fun s hs => ih hre'' hs).congr here_star.symm
  | case5 c d re hd items atEnd hparse ih =>
    obtain ⟨hc, hre'⟩ := not_or.mp (mem_cons.not.mp hre)
    have hdn : d ≠ nul := fun h => hre' (h ▸ mem_cons_self ..)
    rw [hparse] at ih
    exact (matchhere_one hnul (Ne.symm hc) hd (fun h => hdn h.2) fun s hs => ih hre' hs).congr
      here_one.symm

theorem matchLoop_spec (hnul : nul ∉ text)
    (hhere : ∀ s, nul ∉ s → Decides (matchhere re (s ++ nul :: y)) (P s)) :
    Decides (matchLoop re (text ++ nul :: y)) (∃ before rest, text = before ++ rest ∧ P rest) := by
  induction text with
  | nil =>
    rw [nil_append, matchLoop, if_neg fun h => h rfl]
    refine ((hhere [] hnul).or (Decides.false id)).congr ⟨?_, ?_⟩
    · rintro (h | h)
      · exact ⟨[], [], rfl, h⟩
      · exact h.elim
    · rintro ⟨before, rest, heq, h⟩
      obtain ⟨rfl, rfl⟩ := List.nil_eq_append_iff.mp heq
      exact .inl h
  | cons t text ih =>
    obtain ⟨ht, hnul'⟩ := not_or.mp (mem_cons.not.mp hnul)
    rw [cons_append, matchLoop, if_pos (Ne.symm ht)]
    refine ((hhere (t :: text) hnul).or (ih hnul')).congr ⟨?_, ?_⟩
    · rintro (h | ⟨before, rest, rfl, h⟩)
      · exact ⟨[], t :: text, rfl, h⟩
      · exact ⟨t :: before, rest, rfl, h⟩
    · rintro ⟨before, rest, heq, h⟩
      cases before with
      | nil => exact .inl (heq ▸ h)
      | cons a before =>
        obtain ⟨rfl, rfl⟩ := cons.inj heq
        exact .inr ⟨before, rest, rfl, h⟩

theorem matches_start : (Pattern.mk true items atEnd).Matches text ↔ Here items atEnd text := by
  constructor
  · rintro ⟨before, part, after, rfl, h, hstart, hend⟩
    rw [hstart rfl]
    exact ⟨part, after, rfl, h, hend⟩
  · rintro ⟨part, after, rfl, h, hend⟩
    exact ⟨[], part, after, rfl, h, fun _ => rfl, hend⟩

theorem matches_anywhere :
    (Pattern.mk false items atEnd).Matches text ↔
      ∃ before rest, text = before ++ rest ∧ Here items atEnd rest := by
  constructor
  · rintro ⟨before, part, after, rfl, h, -, hend⟩
    exact ⟨before, part ++ after, List.append_assoc .., part, after, rfl, h, hend⟩
  · rintro ⟨before, _, rfl, part, after, rfl, h, hend⟩
    exact ⟨before, part, after, (List.append_assoc ..).symm, h, nofun, hend⟩

theorem parse_of_ne (h : ∀ re', re ≠ '^' :: re') :
    parse re = ⟨false, (parseItems re).1, (parseItems re).2⟩ := by
  unfold parse
  split
  · exact absurd rfl (h _)
  · rfl

theorem matchRe_spec (re text x y : List Char) (hre : nul ∉ re) (hnul : nul ∉ text) :
    Decides (matchRe (re ++ nul :: x) (text ++ nul :: y)) ((parse re).Matches text) := by
  by_cases hstart : ∃ re', re = '^' :: re'
  · obtain ⟨re', rfl⟩ := hstart
    have hre' : nul ∉ re' := fun h => hre (List.mem_cons_of_mem _ h)
    exact (matchhere_spec hre' hnul).congr matches_start.symm
  have hne := not_exists.mp hstart
  rw [parse_of_ne hne]
  have hrun : matchRe (re ++ nul :: x) (text ++ nul :: y) =
      matchLoop (re ++ nul :: x) (text ++ nul :: y) := by
    cases re with
    | nil => rfl
    | cons c re => exact if_neg fun h => hne re (by rw [h])
  rw [hrun]
  exact (matchLoop_spec hnul fun s hs => matchhere_spec hre hs).congr matches_anywhere.symm

end

/-- `match` returns, also where nothing is behind the NULs of pattern and text, and it says whether some
part of the text matches the pattern, whatever is behind the NULs. -/
theorem match_decides (re text : List Char) (hre : nul ∉ re) (hnul : nul ∉ text) :
    ∃ b, matchRe (re ++ [nul]) (text ++ [nul]) = some b ∧ (b = true ↔ (parse re).Matches text) ∧
      ∀ x y, matchRe (re ++ nul :: x) (text ++ nul :: y) = some b := by
  obtain ⟨b, hb, hiff⟩ := matchRe_spec re text [] [] hre hnul
  refine ⟨b, hb, hiff, fun x y => ?_⟩
  obtain ⟨b', hb', hiff'⟩ := matchRe_spec re text x y hre hnul
  rw [hb', Bool.eq_iff_iff.mpr (hiff'.trans hiff.symm)]

theorem match_decides_star : ∃ b,
    matchRe (['^', 'a', '*', 'b', '$'] ++ [nul]) (['a', 'a', 'b'] ++ [nul]) = some b ∧
      (b = true ↔ (parse ['^', 'a', '*', 'b', '$']).Matches ['a', 'a', 'b']) ∧
      ∀ x y, matchRe (['^', 'a', '*', 'b', '$'] ++ nul :: x) (['a', 'a', 'b'] ++ nul :: y) = some b :=
  match_decides _ _ (by decide) (by decide)

end Xv6.Grep
