import Xv6.Sh.Proofs.Parser

/-!
# The recursive descent

The four functions that call each other, by induction on the rounds: what they return is derived,
`Sound`, and what is derived they return, `Complete`. The rounds are counted so that every call
inside has enough of them, since between two calls of the same function a token is taken.
-/

namespace Xv6.Sh

variable {str s : List Char} {fuel : Nat} {l : List Tok} {rs : List (RedirOp × Word)} {t : Tok}

variable {toks : List Char} {ts : List Tok}

theorem Ends.mono {toks' : List Char} (h : Ends toks ts) (hsub : toks ⊆ toks') : Ends toks' ts := by
  intro t ht
  obtain ⟨c, hc, hsym⟩ := h t ht
  exact ⟨c, hsub hc, hsym⟩

variable {c : Char}

theorem ends_cons (hsym : t.sym = some c) (hc : c ∈ toks) : Ends toks (t :: ts) := by
  intro t' ht'
  obtain rfl := Option.some.inj ht'
  exact ⟨c, hc, hsym⟩

theorem ends_amps (n : Nat) (h : Ends toks ts) (hamp : '&' ∈ toks) :
    Ends toks (List.replicate n .amp ++ ts) := by
  cases n with
  | zero => exact h
  | succ n => exact ends_cons rfl hamp

/-- What follows a line, and what follows a pipe. -/
abbrev afterLine : List Char := [')']

@[inherit_doc afterLine] abbrev afterPipe : List Char := [')', '&', ';']

theorem symbolTok_of_sym (hsym : t.sym = some c) (hc : c ≠ '>') : symbolTok c = t := by
  cases t with
  | word w => cases hsym
  | gt | gtgt => exact absurd (Option.some.inj hsym).symm hc
  | _ => rw [← Option.some.inj hsym]; rfl

theorem peek_symbol (hsym : t.sym = some c) (hc : c ≠ '>') (hsub : [c] ⊆ symbols) (s : List Char) :
    (peek [c] s = (true, skip s) ∧ ∃ ts, tokens s = t :: ts) ∨ peek [c] s = (false, skip s) := by
  rw [peek_spec hsub]
  cases hts : tokens s with
  | nil => exact .inr rfl
  | cons u ts =>
    by_cases hu : u = t
    · left
      subst hu
      exact ⟨by simp [hsym], ts, rfl⟩
    right
    have hne : u.sym ≠ some c := by
      intro hu'
      exact hu ((symbolTok_of_sym hu' hc).symm.trans (symbolTok_of_sym hsym hc))
    cases hus : u.sym with
    | none => simp [hus]
    | some d =>
      have hdc : ¬ d = c := fun hdc => hne (by rw [hus, hdc])
      simp [hus, hdc]

theorem map_simple (rs : List (RedirOp × Slice)) (items : List (Slice × List (RedirOp × Slice))) :
    (wrap (.exec (items.map Prod.fst)) (rs ++ items.flatMap Prod.snd)).map (text str) =
      wrap (.exec ((itemTexts str items).map Prod.fst))
        (redirTexts str rs ++ (itemTexts str items).flatMap Prod.snd) := by
  rw [map_wrap, List.map_append, List.map_flatMap, Cmd.map, List.map_map, List.map_map,
    List.flatMap_map]
  rfl

/-- A tree that the grammar derives from the tokens between two cursors. -/
structure Parsed (str s : List Char) (G : List Tok → Cmd Word → Prop) (c : Cmd Slice)
    (s' : List Char) : Prop where
  suffix : s' <:+ s
  good : c.All (Good str)
  derived : ∃ used, tokens s = used ++ tokens s' ∧ G used (c.map (text str))

/-- With this many rounds the four functions are sound. -/
structure Sound (str : List Char) (fuel : Nat) : Prop where
  line : ∀ s, s <:+ str → 4 * s.length + 4 ≤ fuel →
    Outcome (Parsed str s Line) (parseline str.length fuel s)
  pipe : ∀ s, s <:+ str → 4 * s.length + 3 ≤ fuel →
    Outcome (Parsed str s Pipe) (parsepipe str.length fuel s)
  exec : ∀ s, s <:+ str → 4 * s.length + 2 ≤ fuel →
    Outcome (Parsed str s Exec) (parseexec str.length fuel s)
  block : ∀ s, s <:+ str → 4 * s.length + 1 ≤ fuel →
    Outcome (Parsed str s Exec) (parseblock str.length fuel s)

namespace Sound

section
variable (h : Sound str fuel) (hs : s <:+ str)
include h hs

theorem line_succ (hfuel : 4 * s.length + 4 ≤ fuel + 1) :
    Outcome (Parsed str s Line) (parseline str.length (fuel + 1) s) := by
  rw [parseline]
  apply (h.pipe s hs (by omega)).bind
  rintro c s1 ⟨hsuf1, hgood, p, htoks1, hpipe⟩
  have hle1 := hsuf1.length_le
  apply (backLoop_sound c (show s1.length < fuel by omega)).bind
  rintro c2 s2 ⟨hsuf2, n, rfl, htoks2⟩
  have hle2 := hsuf2.length_le
  have htoks : tokens s = p ++ List.replicate n .amp ++ tokens s2 := by
    rw [htoks1, htoks2, List.append_assoc]
  rcases peek_symbol (t := .semi) (c := ';') rfl (by decide) (by decide) s2 with ⟨hpeek, ts, hts⟩ | hpeek
  · obtain ⟨hsemi, hrest⟩ := gettoken_of hts
    have hlt := hsemi.shorter
    simp only [hpeek, if_true, gettoken_skip]
    apply (h.line _ (hsemi.suffix.trans (hsuf2.trans (hsuf1.trans hs))) (by omega)).bind
    rintro d s3 ⟨hsuf3, hgood3, l, htoks3, hline⟩
    refine ⟨hsuf3.trans (hsemi.suffix.trans (hsuf2.trans hsuf1)), ⟨all_backs hgood, hgood3⟩, ?_⟩
    refine ⟨p ++ List.replicate n .amp ++ .semi :: l, ?_, ?_⟩
    · rw [htoks, hsemi.toks, htoks3]
      simp
    · rw [Cmd.map, map_backs]
      exact Line.semi n hpipe hline
  · simp only [hpeek, Bool.false_eq_true, if_false]
    refine ⟨(skip_suffix s2).trans (hsuf2.trans hsuf1), all_backs hgood,
      p ++ List.replicate n .amp, ?_, ?_⟩
    · rw [htoks, tokens_skip]
    · rw [map_backs]
      exact Line.last n hpipe

theorem pipe_succ (hfuel : 4 * s.length + 3 ≤ fuel + 1) :
    Outcome (Parsed str s Pipe) (parsepipe str.length (fuel + 1) s) := by
  rw [parsepipe]
  apply (h.exec s hs (by omega)).bind
  rintro c s1 ⟨hsuf1, hgood, e, htoks1, hexec⟩
  have hle1 := hsuf1.length_le
  rcases peek_symbol (t := .bar) (c := '|') rfl (by decide) (by decide) s1 with ⟨hpeek, ts, hts⟩ | hpeek
  · obtain ⟨hbar, hrest⟩ := gettoken_of hts
    have hlt := hbar.shorter
    simp only [hpeek, if_true, gettoken_skip]
    apply (h.pipe _ (hbar.suffix.trans (hsuf1.trans hs)) (by omega)).bind
    rintro d s2 ⟨hsuf2, hgood2, p, htoks2, hpipe⟩
    refine ⟨hsuf2.trans (hbar.suffix.trans hsuf1), ⟨hgood, hgood2⟩, e ++ .bar :: p, ?_, ?_⟩
    · rw [htoks1, hbar.toks, htoks2]
      simp
    · exact Pipe.bar hexec hpipe
  · simp only [hpeek, Bool.false_eq_true, if_false]
    refine ⟨(skip_suffix s1).trans hsuf1, hgood, e, ?_, Pipe.last hexec⟩
    rw [htoks1, tokens_skip]

theorem block_succ (hfuel : 4 * s.length + 1 ≤ fuel + 1) :
    Outcome (Parsed str s Exec) (parseblock str.length (fuel + 1) s) := by
  rw [parseblock]
  rcases peek_symbol (t := .lpar) (c := '(') rfl (by decide) (by decide) s with ⟨hpeek, ts, hts⟩ | hpeek
  · obtain ⟨hlpar, hrest⟩ := gettoken_of hts
    have hlt := hlpar.shorter
    simp only [hpeek, if_true, gettoken_skip]
    apply (h.line _ (hlpar.suffix.trans hs) (by omega)).bind
    rintro c s1 ⟨hsuf1, hgood, l, htoks1, hline⟩
    have hle1 := hsuf1.length_le
    rcases peek_symbol (t := .rpar) (c := ')') rfl (by decide) (by decide) s1 with
      ⟨hpeek1, us, hus⟩ | hpeek1
    · obtain ⟨hrpar, hrest1⟩ := gettoken_of hus
      have hlt1 := hrpar.shorter
      simp only [hpeek1, if_true, gettoken_skip]
      have hsuf2 := hrpar.suffix.trans (hsuf1.trans hlpar.suffix)
      apply (parseredirs_sound (hsuf2.trans hs) c (by omega)).mono
      rintro c' s2 ⟨hsuf3, rs, rfl, hall, htoks2⟩
      refine ⟨hsuf3.trans hsuf2, all_wrap hgood hall,
        .lpar :: (l ++ .rpar :: redirToks (redirTexts str rs)), ?_, ?_⟩
      · rw [hlpar.toks, htoks1, hrpar.toks, htoks2]
        simp
      · rw [map_wrap]
        exact Exec.block _ hline
    · simp only [hpeek1, Bool.false_eq_true, if_false]
      trivial
  · simp only [hpeek, Bool.false_eq_true, if_false]
    trivial

theorem exec_succ (hfuel : 4 * s.length + 2 ≤ fuel + 1) :
    Outcome (Parsed str s Exec) (parseexec str.length (fuel + 1) s) := by
  have hskip := skip_suffix s
  have hle := hskip.length_le
  rw [parseexec]
  rcases peek_symbol (t := .lpar) (c := '(') rfl (by decide) (by decide) s with ⟨hpeek, ts, hts⟩ | hpeek
  · simp only [hpeek, if_true]
    apply (h.block _ (hskip.trans hs) (by omega)).mono
    rintro c s1 ⟨hsuf1, hgood, hderived⟩
    rw [tokens_skip] at hderived
    exact ⟨hsuf1.trans hskip, hgood, hderived⟩
  · simp only [hpeek, Bool.false_eq_true, if_false]
    apply (parseredirs_sound (hskip.trans hs) (.exec []) (by omega)).bind
    rintro c s1 ⟨hsuf1, rs, rfl, hall, htoks1⟩
    have hle1 := hsuf1.length_le
    apply (execLoop_sound (hsuf1.trans (hskip.trans hs)) [] rs (by decide)
      (show s1.length < fuel by omega)).mono
    rintro c s2 ⟨hsuf2, items, hlen, rfl, hitems, htoks2⟩
    refine ⟨hsuf2.trans (hsuf1.trans hskip), ?_, ?_⟩
    · apply all_wrap
      · intro a ha
        obtain ⟨i, hi, rfl⟩ := List.mem_map.mp ha
        exact (hitems i hi).1
      · intro r hr
        rcases List.mem_append.mp hr with hr | hr
        · exact hall r hr
        · obtain ⟨i, hi, hr⟩ := List.mem_flatMap.mp hr
          exact (hitems i hi).2 r hr
    · refine ⟨redirToks (redirTexts str rs) ++ argToks (itemTexts str items), ?_, ?_⟩
      · rw [← tokens_skip, htoks1, htoks2, List.append_assoc]
      · rw [List.nil_append, map_simple]
        apply Exec.simple
        simp only [List.length_nil, List.length_map] at hlen ⊢
        omega

end

end Sound

theorem sound (str : List Char) (fuel : Nat) : Sound str fuel := by
  induction fuel with
  | zero => exact ⟨fun _ _ h => by omega, fun _ _ h => by omega, fun _ _ h => by omega,
      fun _ _ h => by omega⟩
  | succ fuel ih =>
    exact ⟨fun _ => ih.line_succ, fun _ => ih.pipe_succ, fun _ => ih.exec_succ,
      fun _ => ih.block_succ⟩

/-- With this many rounds the four functions return what is derived. -/
structure Complete (str : List Char) (fuel : Nat) : Prop where
  line : ∀ s l c rest, s <:+ str → 4 * s.length + 4 ≤ fuel → Line l c → tokens s = l ++ rest →
    Ends afterLine rest → ∃ c' s', parseline str.length fuel s = .ok (c', s') ∧
      c'.map (text str) = c ∧ tokens s' = rest ∧ s' <:+ s
  pipe : ∀ s p c rest, s <:+ str → 4 * s.length + 3 ≤ fuel → Pipe p c → tokens s = p ++ rest →
    Ends afterPipe rest → ∃ c' s', parsepipe str.length fuel s = .ok (c', s') ∧
      c'.map (text str) = c ∧ tokens s' = rest ∧ s' <:+ s
  exec : ∀ s e c rest, s <:+ str → 4 * s.length + 2 ≤ fuel → Exec e c → tokens s = e ++ rest →
    Ends afterExec rest → ∃ c' s', parseexec str.length fuel s = .ok (c', s') ∧
      c'.map (text str) = c ∧ tokens s' = rest ∧ s' <:+ s
  block : ∀ s l c rs rest, s <:+ str → 4 * s.length + 1 ≤ fuel → Line l c →
    tokens s = .lpar :: (l ++ .rpar :: redirToks rs) ++ rest → Ends afterExec rest →
    ∃ c' s', parseblock str.length fuel s = .ok (c', s') ∧
      c'.map (text str) = wrap c rs ∧ tokens s' = rest ∧ s' <:+ s

namespace Complete

variable {rest : List Tok} {c : Cmd Word}

section
variable (h : Complete str fuel) (hs : s <:+ str)
include h hs

theorem line_succ (hfuel : 4 * s.length + 4 ≤ fuel + 1) (hl : Line l c) (hts : tokens s = l ++ rest)
    (hrest : Ends afterLine rest) :
    ∃ c' s', parseline str.length (fuel + 1) s = .ok (c', s') ∧ c'.map (text str) = c ∧
      tokens s' = rest ∧ s' <:+ s := by
  rw [parseline]
  cases hl with
  | last n hp =>
    rw [List.append_assoc] at hts
    have hafter := ends_amps n (hrest.mono (show afterLine ⊆ afterPipe by decide)) (by decide)
    obtain ⟨c1, s1, hrun1, hmap1, htoks1, hsuf1⟩ := h.pipe s _ _ _ hs (by omega) hp hts hafter
    have hle1 := hsuf1.length_le
    obtain ⟨s2, hrun2, htoks2, hsuf2⟩ := backLoop_complete htoks1 hrest (by decide) c1
      (show s1.length < fuel by omega)
    refine ⟨backs n c1, skip s2, ?_, ?_, by rw [tokens_skip, htoks2],
      (skip_suffix s2).trans (hsuf2.trans hsuf1)⟩
    · rw [hrun1]
      show (backLoop fuel c1 s1 >>= _) = _
      rw [hrun2]
      show (if (peek [';'] s2).1 = true then _ else Except.ok (backs n c1, (peek [';'] s2).2)) = _
      rw [peek_of_ends (htoks2 ▸ hrest) (by decide) (by simp)]
      rfl
    · rw [map_backs, hmap1]
  | @semi p l _ _ n hp hl' =>
    have hts : tokens s = p ++ (List.replicate n .amp ++ .semi :: (l ++ rest)) := by
      rw [hts]
      simp
    have hsemi : Ends [';'] (.semi :: (l ++ rest)) := ends_cons rfl (by decide)
    have hafter := ends_amps n (hsemi.mono (show [';'] ⊆ afterPipe by decide)) (by decide)
    obtain ⟨c1, s1, hrun1, hmap1, htoks1, hsuf1⟩ := h.pipe s _ _ _ hs (by omega) hp hts hafter
    have hle1 := hsuf1.length_le
    obtain ⟨s2, hrun2, htoks2, hsuf2⟩ := backLoop_complete htoks1 hsemi (by decide) c1
      (show s1.length < fuel by omega)
    have hle2 := hsuf2.length_le
    obtain ⟨htaken, hrest2⟩ := gettoken_of htoks2
    have hlt := htaken.shorter
    obtain ⟨c3, s3, hrun3, hmap3, htoks3, hsuf3⟩ := h.line (gettoken s2).rest l _ rest
      (htaken.suffix.trans (hsuf2.trans (hsuf1.trans hs))) (by omega) hl' hrest2 hrest
    refine ⟨.list (backs n c1) c3, s3, ?_, ?_, htoks3,
      hsuf3.trans (htaken.suffix.trans (hsuf2.trans hsuf1))⟩
    · rw [hrun1]
      show (backLoop fuel c1 s1 >>= _) = _
      rw [hrun2]
      show (if (peek [';'] s2).1 = true then
        parseline str.length fuel (gettoken (peek [';'] s2).2).rest >>= _ else _) = _
      rw [peek_of_sym htoks2 rfl (by decide) (by decide), if_pos rfl, gettoken_skip, hrun3]
      rfl
    · rw [Cmd.map, map_backs, hmap1, hmap3]

theorem pipe_succ (hfuel : 4 * s.length + 3 ≤ fuel + 1)
    {p : List Tok} (hp : Pipe p c) (hts : tokens s = p ++ rest) (hrest : Ends afterPipe rest) :
    ∃ c' s', parsepipe str.length (fuel + 1) s = .ok (c', s') ∧ c'.map (text str) = c ∧
      tokens s' = rest ∧ s' <:+ s := by
  rw [parsepipe]
  cases hp with
  | last he =>
    obtain ⟨c1, s1, hrun1, hmap1, htoks1, hsuf1⟩ := h.exec s _ _ _ hs (by omega) he hts
      (hrest.mono (by decide))
    refine ⟨c1, skip s1, ?_, hmap1, by rw [tokens_skip, htoks1], (skip_suffix s1).trans hsuf1⟩
    rw [hrun1]
    show (if (peek ['|'] s1).1 = true then _ else Except.ok (c1, (peek ['|'] s1).2)) = _
    rw [peek_of_ends (htoks1 ▸ hrest) (by decide) (by simp)]
    rfl
  | @bar e p _ _ he hp' =>
    rw [List.append_assoc] at hts
    have hts : tokens s = e ++ (.bar :: (p ++ rest)) := hts
    obtain ⟨c1, s1, hrun1, hmap1, htoks1, hsuf1⟩ := h.exec s _ _ _ hs (by omega) he hts
      (ends_cons rfl (by decide))
    have hle1 := hsuf1.length_le
    obtain ⟨htaken, hrest1⟩ := gettoken_of htoks1
    have hlt := htaken.shorter
    obtain ⟨c2, s2, hrun2, hmap2, htoks2, hsuf2⟩ := h.pipe (gettoken s1).rest p _ rest
      (htaken.suffix.trans (hsuf1.trans hs)) (by omega) hp' hrest1 hrest
    refine ⟨.pipe c1 c2, s2, ?_, ?_, htoks2, hsuf2.trans (htaken.suffix.trans hsuf1)⟩
    · rw [hrun1]
      show (if (peek ['|'] s1).1 = true then
        parsepipe str.length fuel (gettoken (peek ['|'] s1).2).rest >>= _ else _) = _
      rw [peek_of_sym htoks1 rfl (by decide) (by decide), if_pos rfl, gettoken_skip, hrun2]
      rfl
    · rw [Cmd.map, hmap1, hmap2]

theorem block_succ (hfuel : 4 * s.length + 1 ≤ fuel + 1) (hl : Line l c)
    (hts : tokens s = .lpar :: (l ++ .rpar :: redirToks rs) ++ rest) (hrest : Ends afterExec rest) :
    ∃ c' s', parseblock str.length (fuel + 1) s = .ok (c', s') ∧
      c'.map (text str) = wrap c rs ∧ tokens s' = rest ∧ s' <:+ s := by
  have hts : tokens s = .lpar :: (l ++ (.rpar :: (redirToks rs ++ rest))) := by
    rw [hts]
    simp
  obtain ⟨hlpar, hrest0⟩ := gettoken_of hts
  have hlt := hlpar.shorter
  obtain ⟨c1, s1, hrun1, hmap1, htoks1, hsuf1⟩ := h.line (gettoken s).rest l c _
    (hlpar.suffix.trans hs) (by omega) hl hrest0 (ends_cons rfl (by decide))
  have hle1 := hsuf1.length_le
  obtain ⟨hrpar, hrest1⟩ := gettoken_of htoks1
  have hlt1 := hrpar.shorter
  have hsuf2 := hrpar.suffix.trans (hsuf1.trans hlpar.suffix)
  obtain ⟨rs', s2, hrun2, htexts, htoks2, hsuf3⟩ := parseredirs_complete (hsuf2.trans hs) hrest1
    (ends_ne_redir hrest (List.Subset.refl _)) c1 (show _ < fuel by omega)
  refine ⟨wrap c1 rs', s2, ?_, ?_, htoks2, hsuf3.trans hsuf2⟩
  · have hpeek : peek ['('] s = (true, skip s) := peek_of_sym hts rfl (by decide) (by decide)
    rw [parseblock]
    simp only [hpeek, if_true, gettoken_skip, hrun1]
    show (if (peek [')'] s1).1 = true then
      parseredirs str.length fuel c1 (gettoken (peek [')'] s1).2).rest else _) = _
    rw [peek_of_sym htoks1 rfl (by decide) (by decide), if_pos rfl, gettoken_skip, hrun2]
  · rw [map_wrap, hmap1]
    exact congrArg (wrap c) htexts

end

theorem simple_ne_lpar {items : List (Word × List (RedirOp × Word))} (hrest : Ends afterExec rest) :
    redirToks rs ++ argToks items ++ rest ≠ .lpar :: ts := by
  cases rs with
  | cons r rs => cases h : r.1 <;> simp [redirToks, RedirOp.tok, h]
  | nil =>
    cases items with
    | cons i items => simp [redirToks, argToks]
    | nil =>
      rintro rfl
      obtain ⟨c, hc, hsym⟩ := hrest .lpar rfl
      rw [← Option.some.inj hsym] at hc
      exact absurd hc (by decide)

theorem exec_succ (h : Complete str fuel) (hs : s <:+ str) (hfuel : 4 * s.length + 2 ≤ fuel + 1)
    {e : List Tok} (he : Exec e c) (hts : tokens s = e ++ rest) (hrest : Ends afterExec rest) :
    ∃ c' s', parseexec str.length (fuel + 1) s = .ok (c', s') ∧ c'.map (text str) = c ∧
      tokens s' = rest ∧ s' <:+ s := by
  have hskip := skip_suffix s
  have hle := hskip.length_le
  have htsskip := (tokens_skip s).trans hts
  cases he with
  | @block l _ rs hl =>
    obtain ⟨c', s', hrun, hmap, htoks, hsuf⟩ := h.block (skip s) l _ rs rest (hskip.trans hs)
      (by omega) hl htsskip hrest
    refine ⟨c', s', ?_, hmap, htoks, hsuf.trans hskip⟩
    have hts : tokens s = .lpar :: (l ++ .rpar :: redirToks rs ++ rest) := hts
    have hpeek : peek ['('] s = (true, skip s) := peek_of_sym hts rfl (by decide) (by decide)
    rw [parseexec]
    simp only [hpeek, if_true]
    exact hrun
  | simple rs items hlen =>
    rw [List.append_assoc] at htsskip
    obtain ⟨rs', s1, hrun1, htexts1, htoks1, hsuf1⟩ := parseredirs_complete (hskip.trans hs) htsskip
      (argToks_ne_redir hrest) (.exec []) (show _ < fuel by omega)
    have hle1 := hsuf1.length_le
    obtain ⟨items', s2, hrun2, htexts2, htoks2, hsuf2⟩ := execLoop_complete
      (hsuf1.trans (hskip.trans hs)) htoks1 hrest [] rs'
      (by rw [List.length_nil, Nat.zero_add]; exact Nat.lt_of_le_of_lt hlen (by decide))
      (show s1.length < fuel by omega)
    refine ⟨wrap (.exec (items'.map Prod.fst)) (rs' ++ items'.flatMap Prod.snd), s2, ?_, ?_, htoks2,
      hsuf2.trans (hsuf1.trans hskip)⟩
    · rw [parseexec]
      rcases peek_symbol (t := .lpar) (c := '(') rfl (by decide) (by decide) s with
        ⟨-, ts, hlpar⟩ | hpeek
      · exact absurd (hts.symm.trans hlpar) (simple_ne_lpar hrest)
      · simp only [hpeek, Bool.false_eq_true, if_false, hrun1]
        exact hrun2
    · rw [map_simple, htexts1, htexts2]

end Complete

theorem complete (str : List Char) (fuel : Nat) : Complete str fuel := by
  induction fuel with
  | zero => exact ⟨fun _ _ _ _ _ h => by omega, fun _ _ _ _ _ h => by omega,
      fun _ _ _ _ _ h => by omega, fun _ _ _ _ _ _ h => by omega⟩
  | succ fuel ih =>
    exact ⟨fun _ _ _ _ hs hfuel hl => ih.line_succ hs hfuel hl,
      fun _ _ _ _ hs hfuel hp => ih.pipe_succ hs hfuel hp,
      fun _ _ _ _ hs hfuel he => ih.exec_succ hs hfuel he,
      fun _ _ _ _ _ hs hfuel hl => ih.block_succ hs hfuel hl⟩

end Xv6.Sh
