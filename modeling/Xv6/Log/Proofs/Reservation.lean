import Xv6.Log.Proofs.GroupCommit

/-!
# The log reservation

`begin_op` sets aside `MAXOPBLOCKS` log blocks for each operation. An account of what every open
operation has used of its share bounds the in-memory header by `LOGSIZE`; the on-disk log that
`mkfs` makes holds one block less, and `log_write` refuses from there on.
-/

namespace Xv6

open Function Pool
open BState (exec_sameLog idleLog boot)
open Ledger (enter note close empty)

variable {Tid γ : Type} [DecidableEq Tid] {sb : Superblock} {w' : BWorld Tid} {roomy : Prop}
  {t : Tid} {g' : Ledger Tid} {Q : γ → Phase → Prop} {o : BOp γ} {r : γ}

/-- A process logs at most `MAXOPBLOCKS` distinct blocks in an operation. -/
def withinMax (t : Tid) : ∀ γ, BOp γ → BWorld Tid → Bool
  | _, .logAppend b, w =>
    match w.st.bufOf t b, w.gh.active t with
    | some i, some a => (w.st.buf i).blockno ∈ a.blocks ∨ a.blocks.length < MAXOPBLOCKS
    | _, _ => true
  | _, _, _ => true

/-- Fewer than `nlog - 1` distinct blocks have been logged since the last transaction. -/
def Spare (sb : Superblock) (g : Ledger Tid) : Prop :=
  ∀ l : List Nat, l.Nodup → (∀ b ∈ l, g.Logged b) → (l.length : Int) < (sb.nlog : Int) - 1

/-- There is room at a call of `log_write`, and still when it comes to append a new block. -/
def hasRoom (sb : Superblock) (t : Tid) : ∀ γ, BOp γ → BWorld Tid → Prop
  | _, .logCheck, w => Spare sb w.gh
  | _, .logAppend b, w =>
    ∀ i, w.st.bufOf t b = some i → ¬ w.gh.Logged (w.st.buf i).blockno → Spare sb w.gh
  | _, _, _ => True

/-- Processes whose operations log at most `MAXOPBLOCKS` blocks. Where `roomy` is asked for, only
steps that find room are taken. -/
def reserveMachine (sb : Superblock) (roomy : Prop) : Machine Tid BOp (BWorld Tid) where
  exec := BWorld.exec sb
  starts := fun _ p => Calls sb p
  guard := fun t γ o w => withinMax t γ o w = true ∧ (roomy → hasRoom sb t γ o w)

/-! ## The account -/

/-- What is left of the share of process `t`. -/
def Ledger.share (g : Ledger Tid) (t : Tid) : Nat :=
  MAXOPBLOCKS - ((g.active t).map fun a => a.blocks.length).getD 0

/-- The header, together with what the open operations may still log, fits `LOGSIZE`. -/
structure Account (lh : List Nat) (g : Ledger Tid) : Prop where
  total : ∀ S : Finset Tid, (∀ t, t ∈ S ↔ (g.active t).isSome) →
    lh.length + ∑ t ∈ S, g.share t ≤ LOGSIZE
  within : ∀ t a, g.active t = some a → a.blocks.length ≤ MAXOPBLOCKS

/-- The header fits the log that is on disk. -/
def Fits (sb : Superblock) (lh : List Nat) (g : Ledger Tid) : Prop :=
  (lh.length : Int) ≤ (sb.nlog : Int) - 1 ∧
    ∀ tx ∈ g.txs, (tx.header.length : Int) ≤ (sb.nlog : Int) - 1

variable {w : BWorld Tid} {ts : Tid → Phase}

omit [DecidableEq Tid] in
/-- While no commit runs, room in the record is room in the header. -/
theorem spare_iff (h : LogGood w ts) (hno : ∀ t, w.gh.inCommit t = false) :
    Spare sb w.gh ↔ (w.st.lh.length : Int) < (sb.nlog : Int) - 1 := by
  have hlogged := LogInv.logged h hno
  constructor
  · exact fun hs => hs w.st.lh h.nodup fun b hb => (hlogged b).mp hb
  · intro hlt l hl hall
    have hle : l.length ≤ w.st.lh.length :=
      (List.subperm_of_subset hl fun b hb => (hlogged b).mpr (hall b hb)).length_le
    omega

namespace Account

variable {lh : List Nat} {g : Ledger Tid}

omit [DecidableEq Tid] in
/-- The account only looks at the header and the open operations. -/
theorem congr (h : Account lh g) (hactive : g'.active = g.active) : Account lh g' := by
  have hshare : ∀ t, g'.share t = g.share t := fun t => by simp [Ledger.share, hactive]
  constructor
  · intro S hS
    simp only [hshare]
    exact h.total S fun t => by rw [hS, hactive]
  · intro t a ha
    exact h.within t a (by rwa [hactive] at ha)

theorem begin (h : Account lh g) {S : Finset Tid} (hS : ∀ t, t ∈ S ↔ (g.active t).isSome)
    (hroom : lh.length + (S.card + 1) * MAXOPBLOCKS ≤ LOGSIZE) :
    Account lh { g with
      begun := g.begun + 1, active := update g.active t (some ⟨g.begun, []⟩) } := by
  constructor
  · intro S' hS'
    have hcard : S'.card ≤ S.card + 1 := by
      refine (Finset.card_le_card ?_).trans (Finset.card_insert_le t S)
      intro u hu
      have := (hS' u).mp hu
      by_cases hut : u = t
      · simp [hut]
      · simpa [hut, hS] using this
    have hsum : ∑ u ∈ S', Ledger.share { g with
        begun := g.begun + 1, active := update g.active t (some ⟨g.begun, []⟩) } u ≤
        S'.card * MAXOPBLOCKS := by
      refine (Finset.sum_le_card_nsmul _ _ MAXOPBLOCKS fun u _ => ?_).trans (by simp)
      exact Nat.sub_le ..
    simp only [MAXOPBLOCKS] at *
    omega
  · intro u a ha
    by_cases hu : u = t
    · simp only [hu, update_self, Option.some.injEq] at ha
      subst ha
      simp
    · exact h.within u a (by simpa [hu] using ha)

theorem log (h : Account lh g) {a : OpLog} (hact : g.active t = some a) {b : Nat}
    (hmax : b ∈ a.blocks ∨ a.blocks.length < MAXOPBLOCKS) (hsub : b ∈ a.blocks → b ∈ lh) :
    Account (if b ∈ lh then lh else lh ++ [b]) (g.log t b lh) := by
  have hmine : (g.log t b lh).active t =
      some ⟨a.id, if b ∈ a.blocks then a.blocks else b :: a.blocks⟩ := by
    simp [Ledger.log, hact]
  have hsome : ∀ u, ((g.log t b lh).active u).isSome ↔ (g.active u).isSome := by
    intro u
    by_cases hu : u = t
    · simp [hu, hmine, hact]
    · simp [Ledger.log, hu]
  constructor
  · intro S hS
    have hS' : ∀ u, u ∈ S ↔ (g.active u).isSome := fun u => (hS u).trans (hsome u)
    have hmem : t ∈ S := (hS' t).mpr (by simp [hact])
    have htotal := h.total S hS'
    rw [← Finset.add_sum_erase S _ hmem] at htotal ⊢
    have hrest : ∑ u ∈ S.erase t, (g.log t b lh).share u = ∑ u ∈ S.erase t, g.share u :=
      Finset.sum_congr rfl fun u hu => by simp [Ledger.share, Ledger.log, Finset.ne_of_mem_erase hu]
    have hold : g.share t = MAXOPBLOCKS - a.blocks.length := by simp [Ledger.share, hact]
    have hnew : (g.log t b lh).share t =
        MAXOPBLOCKS - (if b ∈ a.blocks then a.blocks else b :: a.blocks).length := by
      simp [Ledger.share, hmine]
    rw [hrest, hnew]
    rw [hold] at htotal
    by_cases hb : b ∈ a.blocks
    · rw [if_pos (hsub hb), if_pos hb]
      exact htotal
    rw [if_neg hb]
    have hlt := hmax.resolve_left hb
    have hlen : (if b ∈ lh then lh else lh ++ [b]).length ≤ lh.length + 1 := by split <;> simp
    simp only [List.length_cons]
    omega
  · intro u c hc
    by_cases hu : u = t
    · subst hu
      rw [hmine, Option.some.injEq] at hc
      subst hc
      have := h.within u a hact
      by_cases hb : b ∈ a.blocks
      · simpa [hb] using this
      · have hlt := hmax.resolve_left hb
        simp only [hb, if_false, List.length_cons]
        omega
    · exact h.within u c (by simpa [Ledger.log, hu] using hc)

omit [DecidableEq Tid] in
theorem shrink (h : Account lh g) {lh' : List Nat}
    (hlh : lh'.length ≤ lh.length) (hactive : ∀ t a, g'.active t = some a → g.active t = some a)
    (hfin : ∃ S : Finset Tid, ∀ t, t ∈ S ↔ (g.active t).isSome) : Account lh' g' := by
  have hsame : ∀ t, (g'.active t).isSome → g'.active t = g.active t := by
    intro t ht
    obtain ⟨a, ha⟩ := Option.isSome_iff_exists.mp ht
    rw [ha, hactive t a ha]
  constructor
  · intro S' hS'
    obtain ⟨S, hS⟩ := hfin
    have hsub : S' ⊆ S := by
      intro t ht
      have hsome := (hS' t).mp ht
      rwa [hS, ← hsame t hsome]
    have hsum : ∑ t ∈ S', g'.share t ≤ ∑ t ∈ S, g.share t := by
      calc ∑ t ∈ S', g'.share t = ∑ t ∈ S', g.share t := Finset.sum_congr rfl fun t ht => by
            simp [Ledger.share, hsame t ((hS' t).mp ht)]
        _ ≤ ∑ t ∈ S, g.share t := Finset.sum_le_sum_of_subset hsub
    have := h.total S hS
    omega
  · exact fun t a ha => h.within t a (hactive t a ha)

end Account

/-! ## Steps and runs -/

theorem Ledger.enter_active (g : Ledger Tid) (t : Tid) (lh : List Nat) :
    (g.enter t lh).active = g.active := by
  unfold enter
  split <;> rfl

section
omit [DecidableEq Tid]

theorem LogGood.fin_active (h : LogGood w ts) :
    ∃ S : Finset Tid, (∀ t, t ∈ S ↔ (w.gh.active t).isSome) ∧ w.st.outstanding = S.card := by
  obtain ⟨S, hS, hcount⟩ := LogInv.count h
  exact ⟨S, fun t => (hS t).trans (LogInv.active h t).symm, hcount⟩

/-- The header that a process writes after the boot is empty. -/
theorem LogGood.cleared (h : LogGood w ts) {l : List Nat} {Q : Unit → Phase → Prop}
    (hw : phaseWp sb _ (.setLogHeader l) Q (ts t)) : l = [] := by
  cases hφ : ts t with
  | committing lh p =>
    rw [hφ] at hw
    exact hw.1.1
  | recovering => exact absurd hφ (LogInv.booted h t)
  | _ =>
    rw [hφ] at hw
    exact hw.elim

end

theorem endOp_lh {s s' : BState Tid} {r : Bool} (he : s.exec sb t _ .endOp = .done r s') :
    s'.lh = s.lh := by
  simp only [BState.exec] at he
  split at he
  · cases he
  · split at he <;> cases he <;> rfl

theorem Account.op (h : LogGood w ts) (hacc : Account w.st.lh w.gh) (hw : phaseWp sb γ o Q (ts t))
    (hmax : withinMax t γ o w = true) (hexec : w.exec sb t γ o = .done r w') :
    Account w'.st.lh w'.gh := by
  obtain ⟨S, hS, hcount⟩ := h.fin_active
  obtain ⟨s', he, rfl⟩ := Outcome.map_eq_done.mp hexec
  cases o with
  | logAppend b =>
    obtain ⟨i, hi, he⟩ := BState.onBuf_eq_done.mp he
    cases he
    obtain ⟨a, hact⟩ := Option.isSome_iff_exists.mp ((LogInv.active h t).mpr hw.1)
    have hmax' : (w.st.buf i).blockno ∈ a.blocks ∨ a.blocks.length < MAXOPBLOCKS := by
      simpa [withinMax, hi, hact] using hmax
    have hsub : (w.st.buf i).blockno ∈ a.blocks → (w.st.buf i).blockno ∈ w.st.lh := fun hb =>
      (LogInv.logged h (LogInv.no_commit h hw.1) _).mpr (.inr ⟨t, a, hact, hb⟩)
    have hlog := hacc.log hact hmax' hsub
    simp only [note, hi, BState.logAppend]
    split
    next hb => rwa [if_pos hb] at hlog
    next hb => rwa [if_neg hb] at hlog
  | beginOp =>
    simp only [BState.exec] at he
    split at he
    · cases he
    split at he
    · cases he
    next hroom =>
      cases he
      refine hacc.begin hS ?_
      simp only [MAXOPBLOCKS, LOGSIZE] at hroom ⊢
      omega
  | endOp =>
    have hclose : ∀ u a, (w.gh.close t).active u = some a → w.gh.active u = some a := by
      intro u a hu
      by_cases hut : u = t
      · simp [close, hut] at hu
      · simpa [close, hut] using hu
    have hlh := endOp_lh he
    simp only [hlh]
    refine hacc.shrink le_rfl (fun u a hu => hclose u a ?_) ⟨S, hS⟩
    simp only [note] at hu
    split at hu
    · rwa [Ledger.enter_active] at hu
    · exact hu
  | endCommit =>
    cases he
    exact hacc.congr rfl
  | setLogHeader l =>
    cases he
    have hl := h.cleared hw
    subst hl
    exact hacc.shrink (Nat.zero_le _) (fun _ _ ha => ha) ⟨S, hS⟩
  | bunpin b =>
    rw [show s'.lh = w.st.lh from (exec_sameLog he id).1]
    refine hacc.congr ?_
    simp only [note]
    split <;> rfl
  | _ =>
    rw [show s'.lh = w.st.lh from (exec_sameLog he id).1]
    exact hacc

theorem Fits.op (h : LogGood w ts) (hfits : Fits sb w.st.lh w.gh) (hw : phaseWp sb γ o Q (ts t))
    (hroom : hasRoom sb t γ o w) (hexec : w.exec sb t γ o = .done r w') :
    Fits sb w'.st.lh w'.gh := by
  obtain ⟨s', he, rfl⟩ := Outcome.map_eq_done.mp hexec
  cases o with
  | logAppend b =>
    obtain ⟨i, hi, he⟩ := BState.onBuf_eq_done.mp he
    cases he
    have hno := LogInv.no_commit h hw.1
    simp only [note, hi, BState.logAppend]
    split
    · exact hfits
    next hnew =>
      have hspare := hroom i hi fun hl => hnew ((LogInv.logged h hno _).mpr hl)
      have hlt := (spare_iff h hno).mp hspare
      refine ⟨?_, hfits.2⟩
      simp only [List.length_append, List.length_cons, List.length_nil]
      omega
  | beginOp =>
    simp only [BState.exec] at he
    split at he
    · cases he
    · split at he <;> cases he
      exact hfits
  | endOp =>
    have hlh := endOp_lh he
    refine ⟨by rw [hlh]; exact hfits.1, fun tx htx => ?_⟩
    simp only [note, enter] at htx
    split at htx
    · split at htx
      · exact hfits.2 tx htx
      · rcases List.mem_cons.mp htx with rfl | htx
        · exact hfits.1
        · exact hfits.2 tx htx
    · exact hfits.2 tx htx
  | endCommit =>
    cases he
    exact hfits
  | setLogHeader l =>
    cases he
    refine ⟨?_, hfits.2⟩
    have hl := h.cleared hw
    have := hfits.1
    simp only [hl, List.length_nil]
    omega
  | bunpin b =>
    rw [show s'.lh = w.st.lh from (exec_sameLog he id).1]
    refine ⟨hfits.1, fun tx htx => hfits.2 tx ?_⟩
    simp only [note] at htx
    split at htx <;> exact htx
  | _ =>
    rw [show s'.lh = w.st.lh from (exec_sameLog he id).1]
    exact hfits

/-- The invariants of the reservation together. -/
structure Reserved (sb : Superblock) (roomy : Prop) (w : BWorld Tid) (ts : Tid → Phase) : Prop where
  log : LogGood w ts
  account : Account w.st.lh w.gh
  fits : roomy → Fits sb w.st.lh w.gh

theorem sound_reserveMachine :
    Sound (reserveMachine sb roomy : Machine Tid BOp (BWorld Tid)) (phaseWp sb)
      (· = .outside) (Reserved sb roomy) where
  start := by
    rintro t p φ hp rfl
    exact phaseWp_calls hp
  op := by
    intro w w' ts t γ o r Q hgood hguard hw hexec
    obtain ⟨φ, hφ, hlog⟩ := hgood.log.op hw hexec
    exact ⟨φ, hφ, hlog, hgood.account.op hgood.log hw hguard.1 hexec,
      fun hr => (hgood.fits hr).op hgood.log hw (hguard.2 hr) hexec⟩

theorem Pool.Reach.reserved {s0 : BState Tid} {c : Conf Tid BOp (BWorld Tid)}
    (hlog : 0 < sb.nlog) (h : Reach (reserveMachine sb roomy) (.idle ⟨s0.idleLog, .empty⟩) c) :
    ∃ ts, Typed (phaseWp sb) (· = .outside) (Reserved sb roomy) c ts := by
  have hidle : Reserved sb roomy (⟨s0.idleLog, .empty⟩ : BWorld Tid) (fun _ => .outside) := by
    refine ⟨LogInv.idle, ⟨?_, by simp [empty]⟩, fun _ => ⟨?_, by simp [empty]⟩⟩
    · intro S hS
      have : S = ∅ := Finset.eq_empty_of_forall_notMem fun t ht => by
        simpa [empty] using (hS t).mp ht
      simp [this, idleLog]
    · simp only [idleLog, List.length_nil]
      omega
  exact h.typed sound_reserveMachine ⟨_, Pool.typed_idle hidle fun _ => rfl⟩

/-- The reservation. Processes whose operations log at most `MAXOPBLOCKS` distinct blocks never log
outside of a transaction and never index the header at or above `LOGSIZE`; a call of `log_write`
panics exactly where `nlog - 1` distinct blocks have been logged since the last transaction. In a
run whose steps all find room no call panics, and the header and every transaction fit the
`nlog - 1` blocks on disk. -/
theorem log_reservation (hnlog : sb.nlog = LOGSIZE) (s0 : BState Tid)
    {c : Conf Tid BOp (BWorld Tid)}
    (h : Reach (reserveMachine sb False) (.idle ⟨s0.idleLog, .empty⟩) c) :
    c.st.st.lh.length ≤ LOGSIZE ∧
    (∀ u k, c.prog u = .op .logCheck k →
      c.st.st.exec sb u _ .logCheck ≠ .panic "log_write outside of trans" ∧
      (c.st.st.exec sb u _ .logCheck = .panic "too big a transaction" ↔ ¬ Spare sb c.st.gh)) ∧
    (Reach (reserveMachine sb True) (.idle ⟨s0.idleLog, .empty⟩) c →
      (c.st.st.lh.length < LOGSIZE ∧ c.st.st.lh.length ≤ sb.nlog - 1 ∧
        ∀ tx ∈ c.st.gh.txs, tx.header.length ≤ sb.nlog - 1) ∧
      ∀ u c', Step (reserveMachine sb True) u c c' →
        (∃ k, c.prog u = .op .logCheck k) → c'.panicked = none) := by
  have hpos : 0 < sb.nlog := by simp [hnlog]
  obtain ⟨ts, hts⟩ := h.reserved hpos
  have hgood := hts.good
  -- what the two tests of `log_write` answer to a process that calls it
  have hcheck : ∀ u k, c.prog u = .op .logCheck k →
      (Spare sb c.st.gh ↔ (c.st.st.lh.length : Int) < (sb.nlog : Int) - 1) ∧
        1 ≤ c.st.st.outstanding := by
    intro u k hp
    have hin : ts u = .inOp := by
      have hw := hts.wp u
      rw [hp] at hw
      exact hw.1
    exact ⟨spare_iff hgood.log (LogInv.no_commit hgood.log hin),
      LogInv.outstanding_pos hgood.log hin⟩
  have htest : ∀ u k, c.prog u = .op .logCheck k →
      (Spare sb c.st.gh → c.st.st.exec sb u _ .logCheck = .done () c.st.st) ∧
        (¬ Spare sb c.st.gh → c.st.st.exec sb u _ .logCheck = .panic "too big a transaction") := by
    intro u k hp
    obtain ⟨hspare, hout⟩ := hcheck u k hp
    simp only [BState.exec, hspare]
    rw [hnlog]
    constructor
    · intro hs
      rw [if_neg (by omega), if_neg (by omega)]
    · intro hs
      rw [if_pos (by omega)]
  refine ⟨?_, fun u k hp => ⟨?_, ?_⟩, fun hroomy => ⟨?_, ?_⟩⟩
  · obtain ⟨S, hS, -⟩ := hgood.log.fin_active
    have := hgood.account.total S hS
    omega
  · by_cases hs : Spare sb c.st.gh
    · simp [(htest u k hp).1 hs]
    · simp [(htest u k hp).2 hs]
  · by_cases hs : Spare sb c.st.gh
    · simp [(htest u k hp).1 hs, hs]
    · simp [(htest u k hp).2 hs, hs]
  · obtain ⟨ts', hts'⟩ := hroomy.reserved hpos
    have hfits := hts'.good.fits trivial
    refine ⟨?_, ?_, fun tx htx => ?_⟩
    · have := hfits.1
      rw [hnlog] at this
      omega
    · have := hfits.1
      omega
    · have := hfits.2 tx htx
      omega
  · rintro u c' hs ⟨k, hp⟩
    cases hs with
    | start hrun hidle _ | op hrun hprog hguard hexec => exact hrun
    | panic hrun hprog hguard hexec =>
      rw [hp] at hprog
      cases hprog
      have hdone := (htest u k hp).1 (hguard.2 trivial)
      have := Outcome.map_eq_panic.mp hexec
      simp [hdone] at this

/-- The blocks that two processes have logged. -/
def loggedBlocks (g : Ledger Bool) : List Nat :=
  g.ended.flatMap OpLog.blocks ++
    [false, true].flatMap fun t => ((g.active t).map OpLog.blocks).getD []

theorem spare_of_length {g : Ledger Bool} (h : (loggedBlocks g).length < 29) :
    Spare mkfsSuperblock g := by
  intro l hnodup hl
  have hsub : l ⊆ loggedBlocks g := by
    intro b hb
    rcases hl b hb with ⟨o, ho, hbo⟩ | ⟨t, o, ht, hbo⟩
    · exact List.mem_append_left _ (List.mem_flatMap.mpr ⟨o, ho, hbo⟩)
    · exact List.mem_append_right _ (List.mem_flatMap.mpr ⟨t, by cases t <;> decide, by rwa [ht]⟩)
  have hle := (hnodup.subperm hsub).length_le
  show (l.length : Int) < 30 - 1
  omega

/-- One process has logged the blocks 50 and 51, and the other one block 51 too; now it logs block 52. -/
def sharing : Conf Bool BOp (BWorld Bool) :=
  (Conf.idle ⟨(boot fun _ _ => 0).idleLog, .empty⟩).sched (BWorld.exec mkfsSuperblock)
    (fun t γ o w => withinMax t γ o w && decide ((loggedBlocks w.gh).length < 29))
    ((false, .start (opCall mkfsSuperblock (.forEach touch [50, 51]))) ::
      (true, .start (opCall mkfsSuperblock (.forEach touch [51, 52]))) :: (true, .go) ::
      List.replicate 16 (false, .go) ++ List.replicate 12 (true, .go))

theorem sharing_reach (roomy : Prop) : Reach (reserveMachine mkfsSuperblock roomy)
    (.idle ⟨(boot fun _ _ => 0).idleLog, .empty⟩) sharing := by
  apply Reach.sched (reserveMachine mkfsSuperblock roomy)
  · intro t γ o w ho
    rw [Bool.and_eq_true, decide_eq_true_eq] at ho
    refine ⟨ho.1, fun _ => ?_⟩
    cases o <;> first | exact spare_of_length ho.2 | exact fun _ _ _ => spare_of_length ho.2 | trivial
  · exact .refl
  · simp +contextual [reserveMachine, Calls.op]

theorem log_reservation_shared :
    sharing.st.st.lh = [50, 51] ∧ sharing.st.st.outstanding = 2 ∧
      (∃ k, sharing.prog true = .op .logCheck k) ∧
      sharing.st.st.exec mkfsSuperblock true _ .logCheck ≠ .panic "too big a transaction" ∧
      ∀ c', Step (reserveMachine mkfsSuperblock True) true sharing c' → c'.panicked = none := by
  obtain ⟨-, hcheck, hroomy⟩ := log_reservation rfl _ (sharing_reach False)
  obtain ⟨k, hk⟩ : ∃ k, sharing.prog true = .op .logCheck k := ⟨_, rfl⟩
  refine ⟨by decide +kernel, by decide +kernel, ⟨k, hk⟩, fun hp => ?_, fun c' hs =>
    (hroomy (sharing_reach True)).2 true c' hs ⟨k, hk⟩⟩
  exact (hcheck true k hk).2.mp hp (spare_of_length (by decide +kernel))

/-- Three processes share a transaction and log ten blocks each: `begin_op` admits all three, and
the thirtieth block panics. -/
theorem log_reservation_overrun :
    ∃ c : Conf (Fin 3) BOp (BWorld (Fin 3)),
      Reach (reserveMachine mkfsSuperblock False)
        (.idle ⟨(BState.boot fun _ _ => 0).idleLog, .empty⟩) c ∧
      c.panicked = some "too big a transaction" := by
  refine ⟨(Conf.idle ⟨(boot fun _ _ => 0).idleLog, .empty⟩).sched
    (reserveMachine mkfsSuperblock False).exec withinMax
    ((List.finRange 3).map (fun t => (t, .start (opCall mkfsSuperblock
        (.forEach touch ((List.range 10).map (100 + 10 * t.val + ·)))))) ++
      (List.finRange 3).map (fun t => (t, .go)) ++
      (List.finRange 3).flatMap fun t => List.replicate 80 (t, .go)), ?_, by decide +kernel⟩
  apply Reach.sched
  · exact fun t γ o w ho => ⟨ho, nofun⟩
  · exact .refl
  · intro t p hp
    simp only [List.mem_append, List.mem_map, List.mem_flatMap, List.mem_replicate] at hp
    obtain (⟨u, -, hu⟩ | ⟨u, -, hu⟩) | ⟨u, -, -, hu⟩ := hp
    · simp only [Prod.mk.injEq, Act.start.injEq] at hu
      exact hu.2 ▸ Calls.op _
    · simp at hu
    · simp at hu

end Xv6
