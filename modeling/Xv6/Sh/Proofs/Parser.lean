import Xv6.Sh.Proofs.Tokens

/-!
# The parser and the grammar

With enough rounds each function of the parser either panics or returns a tree that the grammar
derives from the tokens that it took, and it does return one where the grammar derives one and what
follows can stand there. The texts of words are those of the original string `str`.
-/

namespace Xv6.Sh

/-- The text between the pointers of a slice. -/
def text (str : List Char) (a : Slice) : Word := (str.drop a.q).take (a.eq - a.q)

/-- A slice of `str` that is a word as a whole. -/
structure Good (str : List Char) (a : Slice) : Prop where
  le : a.q ≤ a.eq
  inside : a.eq ≤ str.length
  word : ∀ c ∈ text str a, isWord c
  ends : ∀ c ∈ (str.drop a.eq).head?, isWord c = false

def Cmd.All {α : Type} (p : α → Prop) : Cmd α → Prop
  | .exec argv => ∀ a ∈ argv, p a
  | .redir cmd file _ _ => cmd.All p ∧ p file
  | .pipe left right => left.All p ∧ right.All p
  | .list left right => left.All p ∧ right.All p
  | .back cmd => cmd.All p

section

variable {α β : Type} {f : α → β} {p : α → Prop} {c : Cmd α}

theorem map_wrap (c : Cmd α) (rs : List (RedirOp × α)) :
    (wrap c rs).map f = wrap (c.map f) (rs.map (Prod.map id f)) := by
  induction rs generalizing c with
  | nil => rfl
  | cons r rs ih => exact ih _

theorem all_wrap {rs : List (RedirOp × α)} (hc : c.All p) (hrs : ∀ r ∈ rs, p r.2) :
    (wrap c rs).All p := by
  induction rs generalizing c with
  | nil => exact hc
  | cons r rs ih =>
    apply ih
    · exact ⟨hc, hrs r (by simp)⟩
    · intro r' hr'
      exact hrs r' (by simp [hr'])

theorem wrap_append (c : Cmd α) (rs rs' : List (RedirOp × α)) :
    wrap (wrap c rs) rs' = wrap c (rs ++ rs') := by
  simp [wrap, List.foldl_append]

theorem addArg_wrap (c : Cmd α) (rs : List (RedirOp × α)) (a : α) :
    addArg (wrap c rs) a = wrap (addArg c a) rs := by
  induction rs generalizing c with
  | nil => rfl
  | cons r rs ih => exact ih _

theorem map_backs (n : Nat) (c : Cmd α) : (backs n c).map f = backs n (c.map f) := by
  induction n generalizing c with
  | zero => rfl
  | succ n ih => exact ih _

theorem all_backs {n : Nat} (hc : c.All p) : (backs n c).All p := by
  induction n generalizing c with
  | zero => exact hc
  | succ n ih => exact ih hc

end

variable {s : List Char} {fuel : Nat} {items : List (Word × List (RedirOp × Word))}
  {r : Except Stop (Cmd Slice × List Char)} {t : Tok}

theorem drop_of_suffix {str : List Char} (h : s <:+ str) :
    str.drop (str.length - s.length) = s := by
  obtain ⟨r, rfl⟩ := h
  simp

variable {w : Word}

theorem Taken.slice {str : List Char} {g : Token} (ht : Taken s (.word w) g) (hs : s <:+ str) :
    text str (g.slice str.length) = w ∧ Good str (g.slice str.length) := by
  obtain ⟨hq, heq, hword, hends⟩ := ht.word w rfl
  have hqs : g.q <:+ str := hq.trans hs
  have heqs : g.eq <:+ str := (heq ▸ List.suffix_append w g.eq).trans hqs
  have hlen : g.q.length = w.length + g.eq.length := by rw [heq, List.length_append]
  have hle := hqs.length_le
  have htext : text str (g.slice str.length) = w := by
    unfold text Token.slice
    rw [drop_of_suffix hqs, heq]
    have hsub : str.length - g.eq.length - (str.length - (w ++ g.eq).length) = w.length := by
      rw [List.length_append]
      omega
    rw [hsub, List.take_left']
    rfl
  refine ⟨htext, ?_, ?_, ?_, ?_⟩
  · show str.length - g.q.length ≤ str.length - g.eq.length
    omega
  · exact Nat.sub_le _ _
  · rw [htext]
    exact hword
  · show ∀ c ∈ (str.drop (str.length - g.eq.length)).head?, isWord c = false
    rw [drop_of_suffix heqs]
    exact hends

/-- The first token, if there is one, is one of some symbols. -/
def Ends (toks : List Char) (ts : List Tok) : Prop := ∀ t ∈ ts.head?, ∃ c ∈ toks, t.sym = some c

variable {toks : List Char}

theorem peek_of_ends {toks' : List Char} (hs : Ends toks (tokens s))
    (hsub : toks' ⊆ symbols) (hdis : ∀ c ∈ toks, c ∉ toks') : peek toks' s = (false, skip s) := by
  rw [peek_spec hsub]
  cases hts : tokens s with
  | nil => rfl
  | cons t ts =>
    obtain ⟨c, hc, hsym⟩ := hs t (by simp [hts])
    simp [hsym, hdis c hc]

variable {ts : List Tok}

theorem peek_of_sym {c : Char} (hts : tokens s = t :: ts) (hsym : t.sym = some c)
    (hsub : toks ⊆ symbols) (hc : c ∈ toks) : peek toks s = (true, skip s) := by
  rw [peek_spec hsub, hts]
  simp [hsym, hc]

theorem peek_of_word
    (hts : tokens s = .word w :: ts) (hsub : toks ⊆ symbols) : peek toks s = (false, skip s) := by
  rw [peek_spec hsub, hts]
  rfl

theorem gettoken_of (hts : tokens s = t :: ts) :
    Taken s t (gettoken s) ∧ tokens (gettoken s).rest = ts := by
  rcases gettoken_spec s with ⟨hnil, -⟩ | ⟨t', ht⟩
  · rw [hnil] at hts
    cases hts
  · have heq := ht.toks.symm.trans hts
    obtain ⟨rfl, rfl⟩ := List.cons.inj heq
    exact ⟨ht, rfl⟩

@[simp] theorem gettoken_skip (s : List Char) : gettoken (skip s) = gettoken s := by
  unfold gettoken
  rw [skip_skip]

theorem gettoken_ret_word (h : (gettoken s).ret = 'a') : ∃ w ts, tokens s = .word w :: ts := by
  rcases gettoken_spec s with ⟨-, heq⟩ | ⟨t, ht⟩
  · rw [heq] at h
    cases h
  · rw [ht.ret] at h
    cases t with
    | word w => exact ⟨w, _, ht.toks⟩
    | _ => cases h

/-! ### The result of a function of the parser -/

/-- It panics, or it returns a tree and a cursor with `Q`; the rounds suffice. -/
def Outcome (Q : Cmd Slice → List Char → Prop) : Except Stop (Cmd Slice × List Char) → Prop
  | .ok (c, s) => Q c s
  | .error (.panic _) => True
  | .error .rounds => False

theorem Outcome.bind {Q R : Cmd Slice → List Char → Prop}
    {k : Cmd Slice × List Char → Except Stop (Cmd Slice × List Char)} (h : Outcome Q r)
    (hk : ∀ c s, Q c s → Outcome R (k (c, s))) : Outcome R (r >>= k) := by
  cases r with
  | ok r => exact hk r.1 r.2 h
  | error e =>
    cases e with
    | panic msg => trivial
    | rounds => exact h.elim

theorem Outcome.mono {Q R : Cmd Slice → List Char → Prop} (h : Outcome Q r)
    (hqr : ∀ c s, Q c s → R c s) :
    Outcome R r := by
  cases r with
  | ok r => exact hqr r.1 r.2 h
  | error e =>
    cases e with
    | panic msg => trivial
    | rounds => exact h.elim

/-! ### Redirections -/

section

variable {str : List Char}

variable {op : RedirOp}

theorem peek_redir (hts : tokens s = op.tok :: ts) : peek ['<', '>'] s = (true, skip s) := by
  cases op with
  | input | output | append => exact peek_of_sym hts rfl (by decide) (by decide)

theorem parseredirs_step (hs : s <:+ str)
    (hts : tokens s = op.tok :: .word w :: ts) : ∃ a s', text str a = w ∧ Good str a ∧
      tokens s' = ts ∧ s' <:+ s ∧ s'.length < s.length ∧ ∀ fuel c,
        parseredirs str.length (fuel + 1) c s =
          parseredirs str.length fuel (.redir c a op.mode op.fd) s' := by
  obtain ⟨hop, hrest⟩ := gettoken_of hts
  obtain ⟨hword, hrest'⟩ := gettoken_of hrest
  obtain ⟨htext, hgood⟩ := hword.slice (hop.suffix.trans hs)
  refine ⟨_, _, htext, hgood, hrest', hword.suffix.trans hop.suffix,
    Nat.lt_trans hword.shorter hop.shorter, ?_⟩
  intro fuel c
  have hret := hop.ret
  rw [parseredirs, peek_redir hts]
  simp only [if_true, gettoken_skip, hword.ret, Tok.code, ne_eq, not_true_eq_false, if_false]
  rw [hret]
  cases op <;> rfl

theorem parseredirs_stop (hts : ∀ op : RedirOp, (tokens s).head? ≠ some op.tok) (es fuel : Nat)
    (c : Cmd Slice) : parseredirs es (fuel + 1) c s = .ok (c, skip s) := by
  have hpeek : peek ['<', '>'] s = (false, skip s) := by
    rw [peek_spec (by decide)]
    cases h : tokens s with
    | nil => rfl
    | cons t ts =>
      rw [h] at hts
      cases t with
      | lt => exact absurd rfl (hts .input)
      | gt => exact absurd rfl (hts .output)
      | gtgt => exact absurd rfl (hts .append)
      | _ => rfl
  rw [parseredirs, hpeek]
  rfl

theorem parseredirs_panic (hts : tokens s = op.tok :: ts)
    (hne : ∀ w, ts.head? ≠ some (.word w)) (es fuel : Nat) (c : Cmd Slice) :
    parseredirs es (fuel + 1) c s = .error (.panic "missing file for redirection") := by
  obtain ⟨-, hrest⟩ := gettoken_of hts
  have hret : (gettoken (gettoken s).rest).ret ≠ 'a' := by
    intro hret
    obtain ⟨w, us, hus⟩ := gettoken_ret_word hret
    exact hne w (by rw [← hrest, hus]; rfl)
  rw [parseredirs, peek_redir hts]
  simp only [if_true, gettoken_skip, if_pos hret]

/-- The tokens of redirections in the line. -/
abbrev redirTexts (str : List Char) (rs : List (RedirOp × Slice)) : List (RedirOp × Word) :=
  rs.map (Prod.map id (text str))

theorem parseredirs_sound (hs : s <:+ str) (c : Cmd Slice)
    (hfuel : s.length < fuel) : Outcome (fun c' s' => s' <:+ s ∧
      ∃ rs, c' = wrap c rs ∧ (∀ r ∈ rs, Good str r.2) ∧
        tokens s = redirToks (redirTexts str rs) ++ tokens s') (parseredirs str.length fuel c s) := by
  induction fuel generalizing s c with
  | zero => omega
  | succ fuel ih =>
    by_cases hop : ∃ op : RedirOp, (tokens s).head? = some op.tok
    · obtain ⟨op, hop⟩ := hop
      obtain ⟨ts, hts⟩ := List.head?_eq_some_iff.mp hop
      by_cases hword : ∃ w, ts.head? = some (.word w)
      · obtain ⟨w, hw⟩ := hword
        obtain ⟨us, rfl⟩ := List.head?_eq_some_iff.mp hw
        obtain ⟨a, s', htext, hgood, hrest, hsuffix, hlt, heq⟩ := parseredirs_step hs hts
        rw [heq]
        apply (ih (hsuffix.trans hs) _ (by omega)).mono
        rintro c' s'' ⟨hsuffix', rs, rfl, hall, htoks⟩
        refine ⟨hsuffix'.trans hsuffix, (op, a) :: rs, rfl, ?_, ?_⟩
        · intro r hr
          rcases List.mem_cons.mp hr with rfl | hr
          · exact hgood
          · exact hall r hr
        · rw [hts, ← hrest, htoks]
          simp [redirToks, htext]
      · rw [parseredirs_panic hts (fun w hw => hword ⟨w, hw⟩)]
        trivial
    · rw [parseredirs_stop fun op h => hop ⟨op, h⟩]
      exact ⟨skip_suffix s, [], rfl, by simp, by simp [redirToks]⟩

theorem parseredirs_complete {rs : List (RedirOp × Word)} {rest : List Tok} (hs : s <:+ str)
    (hts : tokens s = redirToks rs ++ rest) (hrest : ∀ op : RedirOp, rest.head? ≠ some op.tok)
    (c : Cmd Slice) (hfuel : s.length < fuel) :
    ∃ rs' s', parseredirs str.length fuel c s = .ok (wrap c rs', s') ∧ redirTexts str rs' = rs ∧
      tokens s' = rest ∧ s' <:+ s := by
  induction fuel generalizing s c rs with
  | zero => omega
  | succ fuel ih =>
    cases rs with
    | nil =>
      have hts : tokens s = rest := hts
      refine ⟨[], skip s, ?_, rfl, by rw [tokens_skip, hts], skip_suffix s⟩
      exact parseredirs_stop (by rwa [hts]) _ _ _
    | cons r rs =>
      have hts : tokens s = r.1.tok :: .word r.2 :: (redirToks rs ++ rest) := hts
      obtain ⟨a, s', htext, -, hrest', hsuffix, hlt, heq⟩ := parseredirs_step hs hts
      obtain ⟨rs', s'', hrun, htexts, htoks, hsuffix'⟩ :=
        ih (hsuffix.trans hs) hrest' (.redir c a r.1.mode r.1.fd) (by omega)
      refine ⟨(r.1, a) :: rs', s'', by rw [heq, hrun]; rfl, ?_, htoks, hsuffix'.trans hsuffix⟩
      show (r.1, text str a) :: redirTexts str rs' = r :: rs
      rw [htexts, htext]

end

/-! ### The arguments of a command -/

abbrev afterExec : List Char := ['|', ')', '&', ';']

section

variable {str : List Char}

theorem execLoop_step (hs : s <:+ str) (hts : tokens s = .word w :: ts) :
    ∃ a s', text str a = w ∧ Good str a ∧ tokens s' = ts ∧ s' <:+ s ∧ s'.length < s.length ∧
      ∀ fuel ret argc, execLoop str.length (fuel + 1) ret argc s =
        if MAXARGS ≤ argc + 1 then .error (.panic "too many args")
        else parseredirs str.length fuel (addArg ret a) s' >>= fun r =>
          execLoop str.length fuel r.1 (argc + 1) r.2 := by
  obtain ⟨hword, hrest⟩ := gettoken_of hts
  obtain ⟨htext, hgood⟩ := hword.slice hs
  refine ⟨_, _, htext, hgood, hrest, hword.suffix, hword.shorter, ?_⟩
  intro fuel ret argc
  rw [execLoop, peek_of_word hts (by decide)]
  simp only [Bool.false_eq_true, if_false, gettoken_skip, hword.ret, Tok.code, ne_eq,
    not_true_eq_false]
  rw [if_neg (by decide)]

theorem execLoop_stop (hts : Ends afterExec (tokens s)) (es fuel argc : Nat) (ret : Cmd Slice) :
    ∃ s', execLoop es (fuel + 1) ret argc s = .ok (ret, s') ∧ tokens s' = tokens s ∧ s' <:+ s := by
  cases h : tokens s with
  | nil =>
    have hpeek : peek afterExec s = (false, skip s) := by
      rw [peek_spec (by decide), h]
      rfl
    rcases gettoken_spec s with ⟨-, htok⟩ | ⟨t, ht⟩
    · refine ⟨[], ?_, by rw [tokens], List.nil_suffix⟩
      rw [execLoop, hpeek]
      simp only [Bool.false_eq_true, if_false, gettoken_skip, htok, if_true]
    · cases h.symm.trans ht.toks
  | cons t ts =>
    obtain ⟨c, hc, hsym⟩ := hts t (by simp [h])
    refine ⟨skip s, ?_, by rw [tokens_skip, h], skip_suffix s⟩
    rw [execLoop, peek_of_sym h hsym (by decide) hc]
    rfl

theorem execLoop_panic (hts : tokens s = t :: ts) (hend : ¬ Ends afterExec (tokens s))
    (hne : ∀ w, t ≠ .word w) (es fuel argc : Nat) (ret : Cmd Slice) :
    execLoop es (fuel + 1) ret argc s = .error (.panic "syntax") := by
  obtain ⟨ht, -⟩ := gettoken_of hts
  have hends : ∀ c ∈ afterExec, t.sym ≠ some c := by
    intro c hc hsym
    apply hend
    intro t' ht'
    rw [hts] at ht'
    obtain rfl := Option.some.inj ht'
    exact ⟨c, hc, hsym⟩
  have hpeek : peek afterExec s = (false, skip s) := by
    rw [peek_spec (by decide), hts]
    cases hsym : t.sym with
    | none => simp [hsym]
    | some c =>
      have hnot : c ∉ afterExec := fun hc => hends c hc hsym
      simp [hsym, hnot]
  have hret : t.code ≠ NUL ∧ t.code ≠ 'a' := by
    cases t with
    | word w => exact absurd rfl (hne w)
    | _ => decide
  rw [execLoop, hpeek]
  simp only [Bool.false_eq_true, if_false, gettoken_skip, ht.ret, if_neg hret.1, if_pos hret.2]

/-- The texts of arguments with their redirections. -/
abbrev itemTexts (str : List Char) (items : List (Slice × List (RedirOp × Slice))) :
    List (Word × List (RedirOp × Word)) := items.map (Prod.map (text str) (redirTexts str))

theorem execLoop_sound (hs : s <:+ str) (ws : List Slice) (rs : List (RedirOp × Slice))
    (hws : ws.length < MAXARGS) (hfuel : s.length < fuel) :
    Outcome (fun c s' => s' <:+ s ∧ ∃ items, ws.length + items.length < MAXARGS ∧
        c = wrap (.exec (ws ++ items.map Prod.fst)) (rs ++ items.flatMap Prod.snd) ∧
        (∀ i ∈ items, Good str i.1 ∧ ∀ r ∈ i.2, Good str r.2) ∧
        tokens s = argToks (itemTexts str items) ++ tokens s')
      (execLoop str.length fuel (wrap (.exec ws) rs) ws.length s) := by
  induction fuel generalizing s ws rs with
  | zero => omega
  | succ fuel ih =>
    by_cases hend : Ends afterExec (tokens s)
    · obtain ⟨s', hrun, htoks, hsuffix⟩ := execLoop_stop hend str.length fuel ws.length _
      rw [hrun]
      exact ⟨hsuffix, [], hws, by simp, by simp, by simp [argToks, htoks]⟩
    cases hts : tokens s with
    | nil =>
      rw [hts] at hend
      exact absurd (by simp [Ends]) hend
    | cons t ts =>
      by_cases hword : ∃ w, t = .word w
      · obtain ⟨w, rfl⟩ := hword
        obtain ⟨a, s', htext, hgood, hrest, hsuffix, hlt, heq⟩ := execLoop_step hs hts
        rw [heq]
        split_ifs with hmax
        · trivial
        · apply (parseredirs_sound (hsuffix.trans hs) _ (by omega)).bind
          rintro c s1 ⟨hsuffix1, rs1, rfl, hall1, htoks1⟩
          have hle := hsuffix1.length_le
          have hloop := ih (hsuffix1.trans (hsuffix.trans hs)) (ws ++ [a]) (rs ++ rs1)
            (by simp; omega) (by omega)
          rw [addArg_wrap, wrap_append]
          rw [List.length_append] at hloop
          apply hloop.mono
          rintro c s2 ⟨hsuffix2, items, hlen, rfl, hall, htoks⟩
          refine ⟨hsuffix2.trans (hsuffix1.trans hsuffix), (a, rs1) :: items, ?_, ?_, ?_, ?_⟩
          · simp only [List.length_cons, List.length_nil] at hlen ⊢
            omega
          · simp
          · intro i hi
            rcases List.mem_cons.mp hi with rfl | hi
            · exact ⟨hgood, hall1⟩
            · exact hall i hi
          · rw [← hrest, htoks1, htoks]
            simp [argToks, htext]
      · rw [execLoop_panic hts hend (fun w hw => hword ⟨w, hw⟩)]
        trivial

variable {rest : List Tok}

theorem ends_ne_redir (h : Ends toks rest)
    (hsub : toks ⊆ afterExec) (op : RedirOp) : rest.head? ≠ some op.tok := by
  intro hop
  obtain ⟨c, hc, hsym⟩ := h op.tok (by simp [hop])
  have hmem := hsub hc
  cases op with
  | input | output | append => rw [← Option.some.inj hsym] at hmem; exact absurd hmem (by decide)

theorem argToks_ne_redir
    (h : Ends afterExec rest) (op : RedirOp) : (argToks items ++ rest).head? ≠ some op.tok := by
  cases items with
  | nil => exact ends_ne_redir h (List.Subset.refl _) op
  | cons i items => cases op <;> simp [argToks, RedirOp.tok]

theorem execLoop_complete
    (hs : s <:+ str) (hts : tokens s = argToks items ++ rest) (hrest : Ends afterExec rest)
    (ws : List Slice) (rs : List (RedirOp × Slice)) (hlen : ws.length + items.length < MAXARGS)
    (hfuel : s.length < fuel) :
    ∃ items' s', execLoop str.length fuel (wrap (.exec ws) rs) ws.length s =
        .ok (wrap (.exec (ws ++ items'.map Prod.fst)) (rs ++ items'.flatMap Prod.snd), s') ∧
      itemTexts str items' = items ∧ tokens s' = rest ∧ s' <:+ s := by
  induction fuel generalizing s ws rs items with
  | zero => omega
  | succ fuel ih =>
    cases items with
    | nil =>
      have hts : tokens s = rest := hts
      obtain ⟨s', hrun, htoks, hsuffix⟩ :=
        execLoop_stop (hts ▸ hrest) str.length fuel ws.length (wrap (.exec ws) rs)
      exact ⟨[], s', by simpa using hrun, rfl, by rw [htoks, hts], hsuffix⟩
    | cons i items =>
      have hts : tokens s = .word i.1 :: (redirToks i.2 ++ (argToks items ++ rest)) := by
        rw [hts]
        simp [argToks]
      simp only [List.length_cons] at hlen
      obtain ⟨a, s', htext, -, hrest', hsuffix, hlt, heq⟩ := execLoop_step hs hts
      obtain ⟨rs1, s1, hrun1, htexts1, htoks1, hsuffix1⟩ := parseredirs_complete
        (hsuffix.trans hs) hrest' (argToks_ne_redir hrest) (addArg (wrap (.exec ws) rs) a)
        (show s'.length < fuel by omega)
      have hle := hsuffix1.length_le
      obtain ⟨items', s2, hrun2, htexts2, htoks2, hsuffix2⟩ :=
        ih (hsuffix1.trans (hsuffix.trans hs)) htoks1 (ws ++ [a]) (rs ++ rs1)
          (by simp; omega) (by omega)
      refine ⟨(a, rs1) :: items', s2, ?_, ?_, htoks2, hsuffix2.trans (hsuffix1.trans hsuffix)⟩
      · rw [heq, if_neg (by omega), hrun1]
        rw [List.length_append] at hrun2
        rw [addArg_wrap, wrap_append]
        refine hrun2.trans ?_
        simp
      · show (text str a, redirTexts str rs1) :: itemTexts str items' = i :: items
        rw [htexts1, htexts2, htext]

end

/-! ### Background commands -/

section

variable {str : List Char}

theorem backLoop_sound (c : Cmd Slice) (hfuel : s.length < fuel) :
    Outcome (fun c' s' => s' <:+ s ∧ ∃ n, c' = backs n c ∧
      tokens s = List.replicate n .amp ++ tokens s') (backLoop fuel c s) := by
  induction fuel generalizing s c with
  | zero => omega
  | succ fuel ih =>
    by_cases hamp : (tokens s).head? = some .amp
    · obtain ⟨ts, hts⟩ := List.head?_eq_some_iff.mp hamp
      obtain ⟨ht, hrest⟩ := gettoken_of hts
      have hlt := ht.shorter
      rw [backLoop, peek_of_sym hts rfl (by decide) (by decide)]
      simp only [if_true, gettoken_skip]
      apply (ih (.back c) (by omega)).mono
      rintro c' s' ⟨hsuffix, n, rfl, htoks⟩
      refine ⟨hsuffix.trans ht.suffix, n + 1, rfl, ?_⟩
      rw [hts, ← hrest, htoks, List.replicate_succ, List.cons_append]
    · have hpeek : peek ['&'] s = (false, skip s) := by
        rw [peek_spec (by decide)]
        cases hts : tokens s with
        | nil => rfl
        | cons t ts =>
          rw [hts] at hamp
          cases t with
          | amp => exact absurd rfl hamp
          | _ => rfl
      rw [backLoop, hpeek]
      exact ⟨skip_suffix s, 0, rfl, by simp⟩

theorem backLoop_complete {n : Nat} {rest : List Tok}
    (hts : tokens s = List.replicate n .amp ++ rest) (hrest : Ends toks rest) (hamp : '&' ∉ toks)
    (c : Cmd Slice) (hfuel : s.length < fuel) :
    ∃ s', backLoop fuel c s = .ok (backs n c, s') ∧ tokens s' = rest ∧ s' <:+ s := by
  induction fuel generalizing s c n with
  | zero => omega
  | succ fuel ih =>
    cases n with
    | zero =>
      have hts : tokens s = rest := hts
      refine ⟨skip s, ?_, by rw [tokens_skip, hts], skip_suffix s⟩
      rw [backLoop, peek_of_ends (hts ▸ hrest) (by decide) (by
        intro d hd hmem
        rw [List.mem_singleton.mp hmem] at hd
        exact hamp hd)]
      rfl
    | succ n =>
      have hts : tokens s = .amp :: (List.replicate n .amp ++ rest) := hts
      obtain ⟨ht, hrest'⟩ := gettoken_of hts
      have hlt := ht.shorter
      obtain ⟨s', hrun, htoks, hsuffix⟩ := ih hrest' (.back c) (by omega)
      refine ⟨s', ?_, htoks, hsuffix.trans ht.suffix⟩
      rw [backLoop, peek_of_sym hts rfl (by decide) (by decide)]
      simp only [if_true, gettoken_skip]
      exact hrun

end

end Xv6.Sh
