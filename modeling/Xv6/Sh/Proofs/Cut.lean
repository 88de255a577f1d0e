import Xv6.Sh.Proofs.Descent

/-!
# The words of the tree

`nulterminate` writes a NUL behind every word of the tree. No word has such a place inside it, as
words end only where no character of a word stands, so every word is cut off at its own end.
-/

namespace Xv6.Sh

/-- The words of a tree in the order in which they are cut off. -/
def Cmd.words {α : Type} : Cmd α → List α
  | .exec argv => argv
  | .redir cmd file _ _ => cmd.words ++ [file]
  | .pipe left right => left.words ++ right.words
  | .list left right => left.words ++ right.words
  | .back cmd => cmd.words

theorem all_iff_words {α : Type} {p : α → Prop} (c : Cmd α) : c.All p ↔ ∀ a ∈ c.words, p a := by
  induction c with
  | exec argv => rfl
  | redir c file mode fd ih =>
    simp only [Cmd.All, Cmd.words, ih, List.mem_append, List.mem_singleton, or_imp, forall_and,
      forall_eq]
  | pipe l r ihl ihr | list l r ihl ihr =>
    simp only [Cmd.All, Cmd.words, ihl, ihr, List.mem_append, or_imp, forall_and]
  | back c ih => exact ih

theorem map_congr_words {α β : Type} {f g : α → β} {c : Cmd α} (h : ∀ a ∈ c.words, f a = g a) :
    c.map f = c.map g := by
  induction c with
  | exec argv => exact congrArg Cmd.exec (List.map_congr_left h)
  | redir c file mode fd ih =>
    rw [Cmd.map, Cmd.map, ih fun a ha => h a (List.mem_append_left _ ha),
      h file (List.mem_append_right _ (List.mem_singleton_self file))]
  | pipe l r ihl ihr | list l r ihl ihr =>
    rw [Cmd.map, Cmd.map, ihl fun a ha => h a (List.mem_append_left _ ha),
      ihr fun a ha => h a (List.mem_append_right _ ha)]
  | back c ih => rw [Cmd.map, Cmd.map, ih h]

def cuts (buf : List Char) (as : List Slice) : List Char :=
  as.foldl (fun buf a => buf.set a.eq NUL) buf

theorem nulterminate_eq (buf : List Char) (c : Cmd Slice) :
    nulterminate buf c = cuts buf c.words := by
  induction c generalizing buf with
  | exec argv => rfl
  | redir c file mode fd ih => simp [nulterminate, ih, cuts, Cmd.words]
  | pipe l r ihl ihr | list l r ihl ihr => simp [nulterminate, ihl, ihr, cuts, Cmd.words]
  | back c ih => exact ih buf

theorem getElem?_cuts (buf : List Char) (as : List Slice) (i : Nat) :
    (cuts buf as)[i]? = if i < buf.length ∧ ∃ a ∈ as, a.eq = i then some NUL else buf[i]? := by
  induction as generalizing buf with
  | nil => simp [cuts]
  | cons a as ih =>
    have hstep : cuts buf (a :: as) = cuts (buf.set a.eq NUL) as := rfl
    rw [hstep, ih, List.length_set, List.getElem?_set]
    by_cases hi : i < buf.length
    · by_cases ha : a.eq = i
      · simp [hi, ha]
      · simp [ha]
    · simp [hi]
      omega

theorem cstr_eq {buf : List Char} {q : Nat} {w : Word} (hw : NUL ∉ w)
    (hchars : ∀ i < w.length, buf[q + i]? = w[i]?) (hend : buf[q + w.length]? = some NUL) :
    cstr buf q = w := by
  have hdrop : buf.drop q = w ++ NUL :: buf.drop (q + w.length + 1) := by
    apply List.ext_getElem?
    intro i
    rw [List.getElem?_drop]
    rcases Nat.lt_trichotomy i w.length with hlt | rfl | hgt
    · rw [hchars i hlt, List.getElem?_append_left hlt]
    · rw [hend, List.getElem?_append_right (Nat.le_refl _), Nat.sub_self]
      rfl
    · rw [List.getElem?_append_right (Nat.le_of_lt hgt),
        show i - w.length = (i - w.length - 1) + 1 by omega, List.getElem?_cons_succ,
        List.getElem?_drop]
      congr 1
      omega
  unfold cstr
  rw [hdrop, List.takeWhile_append_of_pos]
  · simp
  · intro c hc
    simp only [decide_eq_true_eq]
    rintro rfl
    exact hw hc

section

variable {str : List Char} {c : Cmd Slice} {a : Slice}

theorem Good.end_outside {b : Slice} (ha : Good str a) (hb : Good str b) {i : Nat}
    (hi : i < a.eq - a.q) : b.eq ≠ a.q + i := by
  rintro heq
  have hlt : a.q + i < str.length := by
    have hle := ha.inside
    omega
  have hchar : str[a.q + i]? = some str[a.q + i] := List.getElem?_eq_getElem hlt
  have hin : isWord str[a.q + i] = true := by
    apply ha.word
    apply List.mem_of_getElem?
    rw [text, List.getElem?_take_of_lt hi, List.getElem?_drop, hchar]
  have hout : isWord str[a.q + i] = false := by
    apply hb.ends
    rw [List.head?_drop, heq, hchar]
    rfl
  rw [hin] at hout
  cases hout

theorem cstr_nulterminate (hstr : NUL ∉ str) (hgood : c.All (Good str)) (ha : a ∈ c.words) :
    cstr (nulterminate (str ++ [NUL]) c) a.q = text str a := by
  rw [nulterminate_eq]
  have hall := (all_iff_words c).mp hgood
  have hga := hall a ha
  have hle := hga.le
  have hinside := hga.inside
  have hlen : (text str a).length = a.eq - a.q := by
    rw [text, List.length_take, List.length_drop]
    omega
  apply cstr_eq
  · intro hnul
    exact hstr (List.mem_of_mem_drop (List.mem_of_mem_take hnul))
  · intro i hi
    rw [hlen] at hi
    rw [getElem?_cuts, if_neg]
    · rw [List.getElem?_append_left (by omega), text, List.getElem?_take_of_lt hi,
        List.getElem?_drop]
    · rintro ⟨-, b, hb, heq⟩
      exact hga.end_outside (hall b hb) hi heq
  · rw [getElem?_cuts, if_pos]
    refine ⟨by simp; omega, a, ha, ?_⟩
    omega

end

theorem skip_of_tokens {s : List Char} (h : tokens s = []) : skip s = [] := by
  rcases skip_cases s with hskip | ⟨c, t, hskip, hc⟩
  · exact hskip
  · rw [← tokens_skip, hskip, tokens, if_neg (by simp [hc])] at h
    split_ifs at h

theorem tokens_of_skip {s : List Char} (h : skip s = []) : tokens s = [] := by
  rw [← tokens_skip, h, tokens]

/-- The parser of the shell accepts the lines of the grammar, and returns the tree of the
derivation with its words as C strings in the line. -/
theorem parsecmd_grammar {s : List Char} (hs : NUL ∉ s) {fuel : Nat}
    (hfuel : 4 * s.length + 4 ≤ fuel) :
    parsecmd fuel s ≠ .error .rounds ∧
    ((∃ c buf, parsecmd fuel s = .ok (c, buf)) ↔ ∃ t, Line (tokens s) t) ∧
    ∀ t, Line (tokens s) t → ∃ c buf, parsecmd fuel s = .ok (c, buf) ∧
      c.map (fun a => cstr buf a.q) = t := by
  have hrefl := List.suffix_refl s
  have hsound := (sound s fuel).line s hrefl hfuel
  -- what is left behind a derived line is nothing, so `parsecmd` returns
  have hcomplete : ∀ t, Line (tokens s) t → ∃ c buf, parsecmd fuel s = .ok (c, buf) ∧
      c.map (fun a => cstr buf a.q) = t := by
    intro t ht
    obtain ⟨c, s', hrun, hmap, htoks, -⟩ := (complete s fuel).line s (tokens s) t [] hrefl hfuel ht
      (by simp) (by simp [Ends])
    rw [hrun] at hsound
    refine ⟨c, nulterminate (s ++ [NUL]) c, ?_, ?_⟩
    · unfold parsecmd
      rw [hrun]
      show (if (peek [] s').2 ≠ [] then _ else _) = _
      rw [if_neg]
      exact not_not_intro (skip_of_tokens htoks)
    · rw [← hmap]
      exact map_congr_words fun a ha => cstr_nulterminate hs hsound.good ha
  refine ⟨?_, ⟨?_, ?_⟩, hcomplete⟩
  · unfold parsecmd
    cases hrun : parseline s.length fuel s with
    | ok r =>
      show (if (peek [] r.2).2 ≠ [] then _ else _) ≠ _
      split_ifs <;> simp
    | error e =>
      rw [hrun] at hsound
      cases e with
      | panic msg => rintro ⟨⟩
      | rounds => exact hsound.elim
  · rintro ⟨c, buf, hok⟩
    unfold parsecmd at hok
    cases hrun : parseline s.length fuel s with
    | error e =>
      rw [hrun] at hok
      cases hok
    | ok r =>
      rw [hrun] at hok hsound
      obtain ⟨used, htoks, hline⟩ := hsound.derived
      have hok : (if (peek [] r.2).2 ≠ [] then _ else _) = _ := hok
      split_ifs at hok with hleft
      · rw [tokens_of_skip (not_not.mp hleft), List.append_nil] at htoks
        exact ⟨_, htoks ▸ hline⟩
  · rintro ⟨t, ht⟩
    obtain ⟨c, buf, hok, -⟩ := hcomplete t ht
    exact ⟨c, buf, hok⟩

/-- The line `ls>f&`: a command in the background whose output goes to a file. -/
theorem parsecmd_grammar_redir : ∃ c buf,
    parsecmd 24 ['l', 's', '>', 'f', '&'] = .ok (c, buf) ∧
      c.map (fun a => cstr buf a.q) = .back (.redir (.exec [['l', 's']]) ['f'] 0x601 1) := by
  have htokens : tokens ['l', 's', '>', 'f', '&'] =
      [.word ['l', 's'], .gt, .word ['f'], .amp] := by
    simp [tokens, strchr, whitespace, symbols, isWord, symbolTok]
  apply (parsecmd_grammar (by decide) (by decide)).2.2
  rw [htokens]
  exact Line.last 1 (Pipe.last (Exec.simple [] [(['l', 's'], [(.output, ['f'])])] (by decide)))

end Xv6.Sh
