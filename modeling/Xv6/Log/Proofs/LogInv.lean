import Xv6.Log.Phase
import Xv6.Bio.Machine

/-!
# The log invariant

What relates `log.outstanding`, `log.committing` and `log.lh` to the phases of the processes and to
the recorded operations. Nothing is assumed of the buffer cache, so the invariant holds from any
state with an idle log, whatever the buffers and the disk hold.
-/

namespace Xv6

open Function

variable {Tid : Type} {g : Ledger Tid} {φ : Phase} {o : OpLog}

namespace Ledger

def closed (g : Ledger Tid) : List OpLog := g.ended ++ g.txs.flatMap Tx.ops

/-- Block `b` was logged by an operation that no transaction covers yet. -/
def Logged (g : Ledger Tid) (b : Nat) : Prop :=
  (∃ o ∈ g.ended, b ∈ o.blocks) ∨ ∃ t o, g.active t = some o ∧ b ∈ o.blocks

/-- Every operation is named once: it is the one a process is in, or it has ended and is listed in
one place. -/
structure Named (g : Ledger Tid) : Prop where
  nodup : (g.closed.map OpLog.id).Nodup
  closed_lt : ∀ o ∈ g.closed, o.id < g.begun
  active_lt : ∀ t o, g.active t = some o → o.id < g.begun
  active_open : ∀ t o, g.active t = some o → o.id ∉ g.closed.map OpLog.id
  active_inj : ∀ t t' o o', g.active t = some o → g.active t' = some o' → o.id = o'.id → t = t'
  total : ∀ k < g.begun, k ∈ g.closed.map OpLog.id ∨ ∃ t o, g.active t = some o ∧ o.id = k

theorem named_empty : (empty : Ledger Tid).Named := by constructor <;> simp [empty, closed]

variable [DecidableEq Tid]

theorem Named.begin (h : g.Named) (t : Tid) (hout : g.active t = none) :
    Named { g with
      begun := g.begun + 1, active := update g.active t (some ⟨g.begun, []⟩) } := by
  obtain ⟨nodup, closed_lt, active_lt, active_open, active_inj, total⟩ := h
  have hnew : g.begun ∉ g.closed.map OpLog.id := by
    intro hm
    obtain ⟨o, ho, he⟩ := List.mem_map.mp hm
    exact absurd (closed_lt o ho) (by omega)
  constructor
  case nodup => exact nodup
  case closed_lt => exact fun o ho => Nat.lt_succ_of_lt (closed_lt o ho)
  case active_lt =>
    intro u o ho
    by_cases hu : u = t
    · simp only [hu, update_self, Option.some.injEq] at ho
      subst ho
      simp
    · exact Nat.lt_succ_of_lt (active_lt u o (by simpa [hu] using ho))
  case active_open =>
    intro u o ho
    by_cases hu : u = t
    · simp only [hu, update_self, Option.some.injEq] at ho
      subst ho
      exact hnew
    · exact active_open u o (by simpa [hu] using ho)
  case active_inj =>
    intro u v o o' hu hv he
    by_cases hut : u = t <;> by_cases hvt : v = t
    · rw [hut, hvt]
    · simp only [hut, update_self, Option.some.injEq] at hu
      have := active_lt v o' (by simpa [hvt] using hv)
      subst hu
      simp only at he
      omega
    · simp only [hvt, update_self, Option.some.injEq] at hv
      have := active_lt u o (by simpa [hut] using hu)
      subst hv
      simp only at he
      omega
    · exact active_inj u v o o' (by simpa [hut] using hu) (by simpa [hvt] using hv) he
  case total =>
    intro k hk
    rcases Nat.lt_succ_iff_lt_or_eq.mp hk with hk | rfl
    · rcases total k hk with hc | ⟨u, o, ho, he⟩
      · exact .inl hc
      · refine .inr ⟨u, o, ?_, he⟩
        have hu : u ≠ t := by
          rintro rfl
          simp [hout] at ho
        simpa [hu] using ho
    · exact .inr ⟨t, _, update_self .., rfl⟩

theorem active_log {t u : Tid} {b : Nat} {lh : List Nat}
    (h : (g.log t b lh).active u = some o) : ∃ o', g.active u = some o' ∧ o'.id = o.id := by
  by_cases hu : u = t
  · subst hu
    simp only [log, update_self, Option.map_eq_some_iff] at h
    obtain ⟨o', ho', rfl⟩ := h
    exact ⟨o', ho', rfl⟩
  · exact ⟨o, by simpa [log, hu] using h, rfl⟩

theorem Named.log (h : g.Named) (t : Tid) (b : Nat) (lh : List Nat) : (g.log t b lh).Named := by
  obtain ⟨nodup, closed_lt, active_lt, active_open, active_inj, total⟩ := h
  constructor
  case nodup => exact nodup
  case closed_lt => exact closed_lt
  case active_lt =>
    intro u o ho
    obtain ⟨o', ho', he⟩ := active_log ho
    exact he ▸ active_lt u o' ho'
  case active_open =>
    intro u o ho
    obtain ⟨o', ho', he⟩ := active_log ho
    exact he ▸ active_open u o' ho'
  case active_inj =>
    intro u v o o' hu hv he
    obtain ⟨p, hp, hpe⟩ := active_log hu
    obtain ⟨q, hq, hqe⟩ := active_log hv
    exact active_inj u v p q hp hq (by rw [hpe, hqe, he])
  case total =>
    intro k hk
    rcases total k hk with hc | ⟨u, o, ho, he⟩
    · exact .inl hc
    · by_cases hu : u = t
      · subst hu
        exact .inr ⟨u, ⟨o.id, if b ∈ o.blocks then o.blocks else b :: o.blocks⟩,
          by simp [Ledger.log, ho], he⟩
      · exact .inr ⟨u, o, by simpa [Ledger.log, hu] using ho, he⟩

theorem Named.close (h : g.Named) (t : Tid) : (g.close t).Named := by
  obtain ⟨nodup, closed_lt, active_lt, active_open, active_inj, total⟩ := h
  have hclosed : (g.close t).closed = (g.active t).toList ++ g.closed := by
    simp [Ledger.close, closed]
  have hactive : ∀ u o, (g.close t).active u = some o → u ≠ t ∧ g.active u = some o := by
    intro u o ho
    by_cases hu : u = t
    · simp [Ledger.close, hu] at ho
    · exact ⟨hu, by simpa [Ledger.close, hu] using ho⟩
  constructor
  case nodup =>
    rw [hclosed, List.map_append, List.nodup_append]
    refine ⟨by cases g.active t <;> simp, nodup, ?_⟩
    intro a ha c hc hac
    obtain ⟨o, ho, rfl⟩ := List.mem_map.mp ha
    exact active_open t o (by simpa using ho) (hac ▸ hc)
  case closed_lt =>
    intro o ho
    rw [hclosed, List.mem_append] at ho
    rcases ho with ho | ho
    · exact active_lt t o (by simpa using ho)
    · exact closed_lt o ho
  case active_lt => exact fun u o ho => active_lt u o (hactive u o ho).2
  case active_open =>
    intro u o ho hm
    obtain ⟨hne, ho'⟩ := hactive u o ho
    rw [hclosed, List.map_append, List.mem_append] at hm
    rcases hm with hm | hm
    · obtain ⟨o', ho'', he⟩ := List.mem_map.mp hm
      exact hne (active_inj u t o o' ho' (by simpa using ho'') he.symm)
    · exact active_open u o ho' hm
  case active_inj =>
    intro u v o o' hu hv
    exact active_inj u v o o' (hactive u o hu).2 (hactive v o' hv).2
  case total =>
    intro k hk
    rw [hclosed, List.map_append, List.mem_append]
    rcases total k hk with hc | ⟨u, o, ho, he⟩
    · exact .inl (.inr hc)
    · by_cases hu : u = t
      · subst hu
        exact .inl (.inl (List.mem_map.mpr ⟨o, by simp [ho], he⟩))
      · exact .inr ⟨u, o, by simpa [Ledger.close, hu] using ho, he⟩

theorem Named.enter (h : g.Named) (t : Tid) (lh : List Nat) : (g.enter t lh).Named := by
  unfold Ledger.enter
  split
  · exact { h with }
  have hclosed : ∀ f : Tid → Bool,
      closed { g with inCommit := f, txs := ⟨lh, g.ended⟩ :: g.txs, ended := [] } = g.closed := by
    simp [closed]
  constructor
  case nodup => exact (hclosed _).symm ▸ h.nodup
  case closed_lt => exact (hclosed _).symm ▸ h.closed_lt
  case active_lt => exact h.active_lt
  case active_open => exact (hclosed _).symm ▸ h.active_open
  case active_inj => exact h.active_inj
  case total => exact (hclosed _).symm ▸ h.total

end Ledger

/-- The log invariant, over the fields of `struct log`, the record and the phases. -/
structure LogInv (lh : List Nat) (outstanding : Int) (committing : Bool) (g : Ledger Tid)
    (ts : Tid → Phase) : Prop where
  /-- `outstanding` counts the processes in an operation. -/
  count : ∃ S : Finset Tid, (∀ t, t ∈ S ↔ ts t = .inOp) ∧ outstanding = S.card
  active : ∀ t, (g.active t).isSome ↔ ts t = .inOp
  inCommit : ∀ t, g.inCommit t = true ↔ ∃ l p, ts t = .committing l p
  /-- A committing process knows the header. -/
  header : ∀ t l p, ts t = .committing l p → l = lh
  committing : committing = true ↔ ∃ t, g.inCommit t = true
  unique : ∀ t t', g.inCommit t = true → g.inCommit t' = true → t = t'
  quiet : ∀ t, g.inCommit t = true → outstanding = 0
  booted : ∀ t, ts t ≠ .recovering
  named : g.Named
  nodup : lh.Nodup
  /-- Between commits the header lists what was logged since the last one. -/
  logged : (∀ t, g.inCommit t = false) → ∀ b, b ∈ lh ↔ g.Logged b
  /-- During a commit nothing is logged, and the header is the one of the last transaction until
  it is cleared. -/
  covered : ∀ t, g.inCommit t = true →
    (∀ o ∈ g.ended, o.blocks = []) ∧ (lh = [] ∨ ∃ ops, g.txs.head? = some ⟨lh, ops⟩)
  txs : ∀ tx ∈ g.txs, tx.header.Nodup ∧ ∀ b, b ∈ tx.header ↔ ∃ o ∈ tx.ops, b ∈ o.blocks

namespace LogInv

variable {lh : List Nat} {outstanding : Int} {committing : Bool} {ts : Tid → Phase}

theorem idle : LogInv [] 0 false (.empty : Ledger Tid) (fun _ => .outside) where
  count := ⟨∅, by simp, by simp⟩
  active := by simp [Ledger.empty]
  inCommit := by simp [Ledger.empty]
  header := by simp
  committing := by simp [Ledger.empty]
  unique := by simp [Ledger.empty]
  quiet := by simp [Ledger.empty]
  booted := by simp
  named := Ledger.named_empty
  nodup := List.nodup_nil
  logged := by simp [Ledger.empty, Ledger.Logged]
  covered := by simp [Ledger.empty]
  txs := by simp [Ledger.empty]

variable {t : Tid}

section

variable (h : LogInv lh outstanding committing g ts)
include h

theorem no_commit (ht : ts t = .inOp) (u : Tid) : g.inCommit u = false := by
  rw [← Bool.not_eq_true]
  intro hu
  obtain ⟨S, hS, hcount⟩ := h.count
  have hpos : 0 < S.card := Finset.card_pos.mpr ⟨t, (hS t).mpr ht⟩
  have := h.quiet u hu
  omega

theorem outstanding_pos (ht : ts t = .inOp) : 1 ≤ outstanding := by
  obtain ⟨S, hS, hcount⟩ := h.count
  have hpos : 0 < S.card := Finset.card_pos.mpr ⟨t, (hS t).mpr ht⟩
  omega

theorem not_committing (hno : ∀ u, g.inCommit u = false) : committing = false := by
  rw [← Bool.not_eq_true, h.committing]
  simp [hno]

end

variable [DecidableEq Tid]

theorem inOp_update (ts : Tid → Phase) (t : Tid) (φ : Phase) (hφ : φ = .inOp ↔ ts t = .inOp) (u : Tid) :
    update ts t φ u = .inOp ↔ ts u = .inOp := by
  by_cases hu : u = t
  · simpa [hu] using hφ
  · simp [hu]

section
variable (h : LogInv lh outstanding committing g ts)
include h

theorem booted_update (hφ : φ ≠ .recovering) (u : Tid) : update ts t φ u ≠ .recovering := by
  by_cases hu : u = t
  · simpa [hu] using hφ
  · simpa [hu] using h.booted u

theorem header_update (hφ : ∀ {l p}, φ ≠ .committing l p) (u : Tid) (l p : List Nat)
    (hu : update ts t φ u = .committing l p) : l = lh := by
  by_cases hut : u = t
  · exact absurd (by simpa [hut] using hu) hφ
  · exact h.header u l p (by simpa [hut] using hu)

theorem frame
    (hφ : φ = ts t ∨ ∃ l p p', ts t = .committing l p ∧ φ = .committing l p') (pinned : List Nat) :
    LogInv lh outstanding committing { g with pinned := pinned } (update ts t φ) := by
  rcases hφ with rfl | ⟨l, p, p', ht, rfl⟩
  · rw [update_eq_self]
    exact { h with named := { h.named with } }
  have hin := inOp_update ts t (.committing l p') (by simp [ht])
  obtain ⟨S, hS, hcount⟩ := h.count
  refine { h with
    count := ⟨S, fun u => (hS u).trans (hin u).symm, hcount⟩
    active := fun u => (h.active u).trans (hin u).symm
    inCommit := fun u => ?_
    header := fun u l1 p1 hu => ?_
    booted := h.booted_update nofun
    named := { h.named with } }
  · rw [h.inCommit u]
    by_cases hu : u = t
    · simp [hu, ht]
    · simp [hu]
  · by_cases hut : u = t
    · simp only [hut, update_self, Phase.committing.injEq] at hu
      exact hu.1 ▸ h.header t l p ht
    · exact h.header u l1 p1 (by simpa [hut] using hu)

omit h in
theorem begin (h : LogInv lh outstanding false g ts) (ht : ts t = .outside) :
    LogInv lh (outstanding + 1) false
      { g with begun := g.begun + 1, active := update g.active t (some ⟨g.begun, []⟩) }
      (update ts t .inOp) := by
  have hout : g.active t = none := by
    have := h.active t
    rw [ht] at this
    simpa using this
  have hno : ∀ u, g.inCommit u = false := by
    intro u
    rw [← Bool.not_eq_true]
    intro hu
    exact absurd (h.committing.mpr ⟨u, hu⟩) (by simp)
  obtain ⟨S, hS, hcount⟩ := h.count
  have hmem : t ∉ S := by simp [hS, ht]
  refine { h with
    header := h.header_update nofun
    quiet := by simp [hno]
    booted := h.booted_update nofun
    named := h.named.begin t hout
    covered := by simp [hno]
    count := ?count
    active := ?active
    inCommit := ?inCommit
    logged := ?logged }
  case count =>
    refine ⟨insert t S, fun u => ?_, ?_⟩
    · by_cases hu : u = t
      · simp [hu]
      · simp [hu, hS]
    · simp [Finset.card_insert_of_notMem hmem, hcount]
  case active =>
    intro u
    by_cases hu : u = t
    · simp [hu]
    · simpa [hu] using h.active u
  case inCommit =>
    intro u
    by_cases hu : u = t
    · simp [hu, hno]
    · simpa [hu] using h.inCommit u
  case logged =>
    intro hno' b
    rw [h.logged hno b]
    refine or_congr Iff.rfl ⟨?_, ?_⟩
    · rintro ⟨u, o, hu, hb⟩
      have hne : u ≠ t := by
        rintro rfl
        simp [hout] at hu
      exact ⟨u, o, by simpa [hne] using hu, hb⟩
    · rintro ⟨u, o, hu, hb⟩
      by_cases hut : u = t
      · simp only [hut, update_self, Option.some.injEq] at hu
        subst hu
        simp at hb
      · exact ⟨u, o, by simpa [hut] using hu, hb⟩

omit h in
theorem logged_log (hact : g.active t = some o) (b x : Nat) :
    (g.log t b lh).Logged x ↔ g.Logged x ∨ x = b := by
  constructor
  · rintro (hend | ⟨u, p, hu, hx⟩)
    · exact .inl (.inl hend)
    · by_cases hut : u = t
      · subst hut
        simp only [Ledger.log, update_self, hact, Option.map_some, Option.some.injEq] at hu
        subst hu
        split at hx
        · exact .inl (.inr ⟨u, o, hact, hx⟩)
        · rcases List.mem_cons.mp hx with rfl | hx
          · exact .inr rfl
          · exact .inl (.inr ⟨u, o, hact, hx⟩)
      · exact .inl (.inr ⟨u, p, by simpa [Ledger.log, hut] using hu, hx⟩)
  · -- the operation of `t` keeps what it had and gains `b`
    have hmine : ∀ x, x ∈ o.blocks ∨ x = b →
        ∃ u p, (g.log t b lh).active u = some p ∧ x ∈ p.blocks := by
      intro x hx
      refine ⟨t, ⟨o.id, if b ∈ o.blocks then o.blocks else b :: o.blocks⟩, ?_, ?_⟩
      · simp [Ledger.log, hact]
      · by_cases hb : b ∈ o.blocks
        · rcases hx with hx | rfl <;> simp [*]
        · rcases hx with hx | rfl <;> simp [*]
    rintro ((hend | ⟨u, p, hu, hx⟩) | rfl)
    · exact .inl hend
    · by_cases hut : u = t
      · subst hut
        obtain rfl : o = p := by simpa [hact] using hu
        exact .inr (hmine x (.inl hx))
      · exact .inr ⟨u, p, by simpa [Ledger.log, hut] using hu, hx⟩
    · exact .inr (hmine x (.inr rfl))

theorem log (ht : ts t = .inOp) (b : Nat) :
    LogInv (if b ∈ lh then lh else lh ++ [b]) outstanding committing (g.log t b lh) ts := by
  have hno := h.no_commit ht
  obtain ⟨o, hact⟩ := Option.isSome_iff_exists.mp ((h.active t).mpr ht)
  refine { h with
    named := h.named.log t b lh
    active := ?active
    header := ?header
    nodup := ?nodup
    logged := ?logged
    covered := ?covered }
  case active =>
    intro u
    rw [← h.active u]
    by_cases hu : u = t
    · simp [hu, Ledger.log]
    · simp [hu, Ledger.log]
  case header =>
    intro u l p hu
    have : g.inCommit u = true := (h.inCommit u).mpr ⟨l, p, hu⟩
    simp [hno u] at this
  case nodup =>
    split
    · exact h.nodup
    next hb => simpa [List.nodup_append] using ⟨h.nodup, fun a ha hab => hb (hab ▸ ha)⟩
  case logged =>
    intro _ x
    rw [logged_log hact, ← h.logged hno x]
    split
    next hb => exact ⟨.inl, fun hx => hx.elim id (fun he => he ▸ hb)⟩
    · simp
  case covered =>
    intro u hu
    exact absurd hu (by simp [Ledger.log, hno])

omit h in
theorem logged_close (b : Nat) : (g.close t).Logged b ↔ g.Logged b := by
  constructor
  · rintro (⟨o, ho, hb⟩ | ⟨u, o, hu, hb⟩)
    · simp only [Ledger.close, List.mem_append, Option.mem_toList] at ho
      rcases ho with ho | ho
      · exact .inr ⟨t, o, ho, hb⟩
      · exact .inl ⟨o, ho, hb⟩
    · by_cases hut : u = t
      · simp [hut, Ledger.close] at hu
      · exact .inr ⟨u, o, by simpa [Ledger.close, hut] using hu, hb⟩
  · rintro (⟨o, ho, hb⟩ | ⟨u, o, hu, hb⟩)
    · exact .inl ⟨o, by simp [Ledger.close, ho], hb⟩
    · by_cases hut : u = t
      · subst hut
        exact .inl ⟨o, by simp [Ledger.close, hu], hb⟩
      · exact .inr ⟨u, o, by simpa [Ledger.close, hut] using hu, hb⟩

theorem close (ht : ts t = .inOp) :
    LogInv lh (outstanding - 1) committing (g.close t) (update ts t .outside) := by
  have hno := h.no_commit ht
  obtain ⟨S, hS, hcount⟩ := h.count
  have hmem : t ∈ S := (hS t).mpr ht
  refine { h with
    header := h.header_update nofun
    quiet := by simp [Ledger.close, hno]
    booted := h.booted_update nofun
    named := h.named.close t
    logged := fun _ b => (h.logged hno b).trans (logged_close b).symm
    covered := by simp [Ledger.close, hno]
    count := ?count
    active := ?active
    inCommit := ?inCommit }
  case count =>
    refine ⟨S.erase t, fun u => ?_, ?_⟩
    · by_cases hu : u = t
      · simp [hu]
      · simp [hu, hS]
    · rw [hcount, Finset.card_erase_of_mem hmem, Nat.cast_sub (Finset.card_pos.mpr ⟨t, hmem⟩),
        Nat.cast_one]
  case active =>
    intro u
    by_cases hu : u = t
    · simp [hu, Ledger.close]
    · simpa [hu, Ledger.close] using h.active u
  case inCommit =>
    intro u
    by_cases hu : u = t
    · simp [hu, Ledger.close, hno]
    · simpa [hu, Ledger.close] using h.inCommit u

omit h in
theorem enter (h : LogInv lh outstanding false g ts) (ht : ts t = .inOp)
    (hlast : outstanding - 1 = 0) : LogInv lh (outstanding - 1) true ((g.close t).enter t lh)
      (update ts t (.committing lh lh)) := by
  have hno := h.no_commit ht
  have hc := h.close ht
  obtain ⟨S, hS, hcount⟩ := hc.count
  have hin : (g.close t).enter t lh = { g.close t with
      inCommit := update g.inCommit t true
      txs := if lh = [] then g.txs else ⟨lh, (g.close t).ended⟩ :: g.txs
      ended := if lh = [] then (g.close t).ended else [] } := by
    unfold Ledger.enter
    split <;> rfl
  have hcommit : ∀ u, ((g.close t).enter t lh).inCommit u = true ↔ u = t := by
    intro u
    by_cases hu : u = t
    · simp [hin, hu]
    · simp [hin, hu, hno]
  -- nobody is left in an operation
  have hempty : ∀ u, (g.close t).active u = none := by
    intro u
    have hS' : S = ∅ := by
      rw [← Finset.card_eq_zero]
      omega
    have := hc.active u
    rw [← hS u, hS'] at this
    simpa using this
  have hended : ∀ b, b ∈ lh ↔ ∃ o ∈ (g.close t).ended, b ∈ o.blocks := by
    intro b
    rw [hc.logged (by simpa [Ledger.close] using hno) b]
    simp [Ledger.Logged, hempty]
  constructor
  case count =>
    refine ⟨S, fun u => ?_, hcount⟩
    rw [hS u]
    by_cases hu : u = t
    · simp [hu]
    · simp [hu]
  case active =>
    intro u
    rw [hin]
    by_cases hu : u = t
    · simp [hu, hempty]
    · simpa [hu] using hc.active u
  case inCommit =>
    intro u
    rw [hcommit]
    by_cases hu : u = t
    · simp [hu]
    · have := (h.inCommit u).not.mp (by simp [hno])
      simpa [hu] using this
  case header =>
    intro u l p hu
    by_cases hut : u = t
    · simp only [hut, update_self, Phase.committing.injEq] at hu
      exact hu.1.symm
    · exact h.header u l p (by simpa [hut] using hu)
  case committing => simp [hcommit]
  case unique =>
    intro u v hu hv
    rw [(hcommit u).mp hu, (hcommit v).mp hv]
  case quiet => exact fun _ _ => hlast
  case booted => exact h.booted_update nofun
  case named => exact hc.named.enter t lh
  case nodup => exact h.nodup
  case logged =>
    intro hall
    have := (hcommit t).mpr rfl
    simp [hall t] at this
  case covered =>
    intro u _
    rw [hin]
    by_cases hlh : lh = []
    · simp only [hlh, if_true, true_or, and_true]
      intro o ho
      rw [List.eq_nil_iff_forall_not_mem]
      intro b hb
      have := (hended b).mpr ⟨o, ho, hb⟩
      simp [hlh] at this
    · simp [hlh]
  case txs =>
    intro tx htx
    rw [hin] at htx
    by_cases hlh : lh = []
    · exact h.txs tx (by simpa [hlh] using htx)
    · simp only [hlh, if_false, List.mem_cons] at htx
      rcases htx with rfl | htx
      · exact ⟨h.nodup, hended⟩
      · exact h.txs tx htx

theorem clear {l p : List Nat} (ht : ts t = .committing l p) :
    LogInv [] outstanding committing g (update ts t (.committing [] [])) := by
  have hin : g.inCommit t = true := (h.inCommit t).mpr ⟨l, p, ht⟩
  have hph := inOp_update ts t (.committing [] []) (by simp [ht])
  obtain ⟨S, hS, hcount⟩ := h.count
  refine { h with
    count := ⟨S, fun u => (hS u).trans (hph u).symm, hcount⟩
    active := fun u => (h.active u).trans (hph u).symm
    booted := h.booted_update nofun
    nodup := List.nodup_nil
    covered := fun u hu => ⟨(h.covered u hu).1, .inl rfl⟩
    inCommit := ?inCommit
    header := ?header
    logged := ?logged }
  case inCommit =>
    intro u
    by_cases hu : u = t
    · simp [hu, hin]
    · simpa [hu] using h.inCommit u
  case header =>
    intro u l' p' hu
    by_cases hut : u = t
    · simp only [hut, update_self, Phase.committing.injEq] at hu
      exact hu.1.symm
    · have hu' : g.inCommit u = true := (h.inCommit u).mpr ⟨l', p', by simpa [hut] using hu⟩
      exact absurd (h.unique u t hu' hin) hut
  case logged =>
    intro hall
    simp [hall t] at hin

theorem finish (ht : ts t = .committing [] []) :
    LogInv lh outstanding false { g with inCommit := update g.inCommit t false }
      (update ts t .outside) := by
  have hin : g.inCommit t = true := (h.inCommit t).mpr ⟨[], [], ht⟩
  have hlh : lh = [] := (h.header t [] [] ht).symm
  have hnone : ∀ u, update g.inCommit t false u = false := by
    intro u
    by_cases hu : u = t
    · simp [hu]
    · rw [update_of_ne hu, ← Bool.not_eq_true]
      exact fun hu' => hu (h.unique u t hu' hin)
  have hph := inOp_update ts t .outside (by simp [ht])
  obtain ⟨S, hS, hcount⟩ := h.count
  have hout := h.quiet t hin
  refine { h with
    count := ⟨S, fun u => (hS u).trans (hph u).symm, hcount⟩
    active := fun u => (h.active u).trans (hph u).symm
    header := h.header_update nofun
    committing := by simp [hnone]
    unique := by simp [hnone]
    quiet := by simp [hnone]
    booted := h.booted_update nofun
    inCommit := ?inCommit
    named := ?named
    logged := ?logged
    covered := ?covered }
  case inCommit =>
    intro u
    simp only [hnone u]
    by_cases hu : u = t
    · simp [hu]
    · have hne : g.inCommit u ≠ true := fun hu' => hu (h.unique u t hu' hin)
      simpa [hu] using (h.inCommit u).not.mp hne
  case named => exact { h.named with }
  case logged =>
    intro _ b
    have hS' : S = ∅ := by
      rw [← Finset.card_eq_zero]
      omega
    have hempty : ∀ u, g.active u = none := by
      intro u
      have := h.active u
      rw [← hS u, hS'] at this
      simpa using this
    have hended := (h.covered t hin).1
    simp only [hlh, List.not_mem_nil, Ledger.Logged, hempty, false_iff]
    rintro (⟨o, ho, hb⟩ | ⟨u, o, hu, _⟩)
    · simp [hended o ho] at hb
    · simp at hu
  case covered =>
    intro u hu
    exact absurd hu (by simp [hnone])

end

end LogInv

end Xv6
