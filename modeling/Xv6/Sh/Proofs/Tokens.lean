import Mathlib.Data.List.TakeWhile
import Xv6.Sh.Grammar

/-!
# `gettoken` and `peek`

The cursor of the parser stands for the tokens of the rest of the string: `peek` looks at the first
of them and `gettoken` takes it off.
-/

namespace Xv6.Sh

namespace Tok

/-- What `gettoken` returns for the token. -/
def code : Tok → Char
  | word _ => 'a'
  | bar => '|'
  | lpar => '('
  | rpar => ')'
  | semi => ';'
  | amp => '&'
  | lt => '<'
  | gt => '>'
  | gtgt => '+'

/-- The symbol that `peek` sees; none for a word. -/
def sym : Tok → Option Char
  | word _ => none
  | gtgt => some '>'
  | t => some t.code

end Tok

variable {s : List Char} {c : Char}

theorem skip_cases (s : List Char) :
    skip s = [] ∨ ∃ c t, skip s = c :: t ∧ strchr whitespace c = false := by
  unfold skip
  induction s with
  | nil => exact .inl rfl
  | cons c s ih =>
    by_cases hc : strchr whitespace c
    · rwa [List.dropWhile_cons_of_pos hc]
    · right
      exact ⟨c, s, List.dropWhile_cons_of_neg hc, by simpa using hc⟩

theorem skip_suffix (s : List Char) : skip s <:+ s := List.dropWhile_suffix _

@[simp] theorem skip_skip (s : List Char) : skip (skip s) = skip s := by
  rcases skip_cases s with h | ⟨c, t, h, hc⟩
  · rw [h]
    rfl
  · rw [h]
    exact List.dropWhile_cons_of_neg (by simp [hc])

@[simp] theorem tokens_skip (s : List Char) : tokens (skip s) = tokens s := by
  induction s with
  | nil => rfl
  | cons c s ih =>
    unfold skip at *
    by_cases hc : strchr whitespace c
    · rw [List.dropWhile_cons_of_pos hc, ih, tokens, if_pos hc]
    · rw [List.dropWhile_cons_of_neg hc]

/-- What the first token says about what `gettoken` returns. -/
structure Taken (s : List Char) (t : Tok) (g : Token) : Prop where
  toks : tokens s = t :: tokens g.rest
  ret : g.ret = t.code
  suffix : g.rest <:+ s
  shorter : g.rest.length < s.length
  word : ∀ w, t = .word w → g.q <:+ s ∧ g.q = w ++ g.eq ∧ (∀ c ∈ w, isWord c) ∧
    ∀ c ∈ g.eq.head?, isWord c = false

theorem symbol_code (hc : c ∈ ['|', '(', ')', ';', '&', '<']) :
    strchr symbols c ∧ (symbolTok c).code = c ∧ (symbolTok c).sym = some c ∧
      c ≠ '>' ∧ ∀ w, symbolTok c ≠ .word w := by
  simp only [List.mem_cons, List.not_mem_nil, or_false] at hc
  rcases hc with rfl | rfl | rfl | rfl | rfl | rfl <;> simp [strchr, symbols, symbolTok, Tok.code, Tok.sym]

theorem Taken.symbol {u : List Char} {t : Tok} {q : List Char}
    (htoks : tokens s = t :: tokens u) (hret : c = t.code) (hne : ∀ w, t ≠ .word w)
    (hsuffix : u <:+ s) (hlt : u.length < s.length) : Taken s t ⟨c, q, u, skip u⟩ where
  toks := by rw [htoks, tokens_skip]
  ret := hret
  suffix := (skip_suffix u).trans hsuffix
  shorter := Nat.lt_of_le_of_lt (skip_suffix u).length_le hlt
  word w hw := absurd hw (hne w)

/-- `gettoken` takes off the first token, and returns 0 where there is none. -/
theorem gettoken_spec (s : List Char) :
    (tokens s = [] ∧ gettoken s = ⟨NUL, [], [], []⟩) ∨ ∃ t, Taken s t (gettoken s) := by
  have hsuffix := skip_suffix s
  have htokens := tokens_skip s
  unfold gettoken
  rcases skip_cases s with hskip | ⟨c, t, hskip, hc⟩
  · left
    rw [hskip, tokens] at htokens
    rw [hskip]
    exact ⟨htokens.symm, rfl⟩
  right
  rw [hskip] at hsuffix htokens ⊢
  have htail : t <:+ s := (List.suffix_cons c t).trans hsuffix
  have hlen : t.length < s.length := hsuffix.length_le
  rw [tokens, if_neg (by simp [hc])] at htokens
  dsimp only
  split_ifs with hsym hgt
  · -- one of the symbols other than `>`
    obtain ⟨hsymbols, hcode, -, hne, hword⟩ := symbol_code hsym
    rw [if_pos hsymbols, if_neg (by simp [hne])] at htokens
    exact ⟨_, .symbol htokens.symm hcode.symm hword htail hlen⟩
  · subst hgt
    rw [if_pos (by decide)] at htokens
    split
    case h_1 u =>
      have htail' : u <:+ s := (List.suffix_cons '>' u).trans htail
      refine ⟨.gtgt, .symbol htokens.symm rfl (by simp) htail' ?_⟩
      simp only [List.length_cons] at hlen
      omega
    case h_2 hnot =>
      have hhead : ¬ ('>' = '>' ∧ t.head? = some '>') := by
        rintro ⟨-, hhead⟩
        cases t with
        | nil => cases hhead
        | cons d t => exact hnot t (by rw [Option.some.inj hhead])
      rw [if_neg hhead] at htokens
      exact ⟨.gt, .symbol htokens.symm rfl (by simp) htail hlen⟩
  · -- the longest run of characters of a word
    have hnsym : strchr symbols c = false := by
      simp only [List.mem_cons, List.not_mem_nil, or_false, not_or] at hsym
      simp [strchr, symbols, hsym, hgt]
    have hword : isWord c = true := by simp [isWord, hc, hnsym]
    have hdrop : (c :: t).dropWhile isWord = t.dropWhile isWord := List.dropWhile_cons_of_pos hword
    rw [if_neg (by simp [hnsym])] at htokens
    have hdropSuffix : t.dropWhile isWord <:+ s := (List.dropWhile_suffix isWord).trans htail
    show ∃ k, Taken s k ⟨'a', c :: t, (c :: t).dropWhile isWord, skip ((c :: t).dropWhile isWord)⟩
    rw [hdrop]
    refine ⟨.word (c :: t.takeWhile isWord), ?_, rfl, ?_, ?_, ?_⟩
    · rw [← htokens, tokens_skip]
    · exact (skip_suffix _).trans hdropSuffix
    · exact Nat.lt_of_le_of_lt ((skip_suffix _).trans (List.dropWhile_suffix isWord)).length_le hlen
    · rintro w hw
      obtain rfl := Tok.word.inj hw
      refine ⟨hsuffix, by simp, ?_, ?_⟩
      · intro d hd
        rcases List.mem_cons.mp hd with rfl | hd
        · exact hword
        · exact List.mem_takeWhile_imp hd
      · intro d hd
        have hhead := List.head?_dropWhile_not isWord t
        rw [show (t.dropWhile isWord).head? = some d from hd] at hhead
        exact hhead

/-- `peek` compares the symbol of the first token; a word is no symbol. -/
theorem peek_spec {toks : List Char} (htoks : toks ⊆ symbols) (s : List Char) :
    peek toks s = (((tokens s).head?.bind Tok.sym).any toks.contains, skip s) := by
  have htokens := tokens_skip s
  unfold peek
  rcases skip_cases s with hskip | ⟨c, t, hskip, hc⟩
  · rw [hskip, tokens] at htokens
    rw [hskip, ← htokens]
    rfl
  rw [hskip, tokens, if_neg (by simp [hc])] at htokens
  rw [hskip, ← htokens]
  by_cases hsym : strchr symbols c
  · have hcode : (symbolTok c).sym = some c := by
      simp only [strchr, symbols, List.contains_iff_mem, List.mem_cons, List.not_mem_nil,
        or_false] at hsym
      rcases hsym with rfl | rfl | rfl | rfl | rfl | rfl | rfl <;> rfl
    split_ifs with hgt
    · rw [hgt.1]
      rfl
    · simp only [List.head?_cons, Option.bind_some, hcode]
      rfl
  · rw [if_neg hsym]
    have hnot : strchr toks c = false := by
      by_contra hin
      simp only [strchr, List.contains_iff_mem, Bool.not_eq_false] at hin hsym
      exact hsym (htoks hin)
    simp only [hnot]
    rfl

end Xv6.Sh
