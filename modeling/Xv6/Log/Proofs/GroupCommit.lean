import Xv6.Log.Proofs.LogInv

/-!
# Group commit

Processes that make any calls, interleaved in any way: a commit runs alone, it covers whole
operations, and every operation is covered by one transaction.
-/

namespace Xv6

open Function Pool
open BState (exec_sameLog boot)

variable {Tid γ : Type} [DecidableEq Tid] {sb : Superblock} {c : Conf Tid BOp (BWorld Tid)}
  {w' : BWorld Tid} {Q : γ → Phase → Prop} {o : BOp γ} {r : γ}

/-- Any number of processes making calls. -/
def callMachine (sb : Superblock) : Machine Tid BOp (BWorld Tid) where
  exec := BWorld.exec sb
  starts := fun _ p => Calls sb p
  guard := fun _ _ _ _ => True

def LogGood (w : BWorld Tid) (ts : Tid → Phase) : Prop :=
  LogInv w.st.lh w.st.outstanding w.st.committing w.gh ts

variable {w : BWorld Tid} {ts : Tid → Phase}

theorem LogGood.frame (h : LogGood w ts) {s' : BState Tid} (hs : w.st.SameLog s') (t : Tid) :
    LogGood ⟨s', w.gh⟩ (update ts t (ts t)) := by
  obtain ⟨hlh, hout, hcom⟩ := hs
  unfold LogGood
  rw [hlh, hout, hcom]
  exact LogInv.frame h (.inl rfl) w.gh.pinned

theorem LogGood.op (h : LogGood w ts) {t : Tid} (hw : phaseWp sb γ o Q (ts t))
    (hexec : w.exec sb t γ o = .done r w') :
    ∃ φ, Q r φ ∧ LogGood w' (update ts t φ) := by
  obtain ⟨s', he, rfl⟩ := Outcome.map_eq_done.mp hexec
  cases o with
  | bget b | acquiresleep b | releasesleep b | unref b =>
    exact ⟨ts t, hw, h.frame (exec_sameLog he id) t⟩
  | fill b =>
    refine ⟨ts t, ?_, h.frame (exec_sameLog he id) t⟩
    cases hφ : ts t with
    | recovering => exact absurd hφ (h.booted t)
    | _ =>
      rw [hφ] at hw
      exact hw _
  | setData b d =>
    refine ⟨ts t, ?_, h.frame (exec_sameLog he id) t⟩
    cases hφ : ts t <;> rw [hφ] at hw <;> exact hw.2
  | bwrite b =>
    refine ⟨ts t, ?_, h.frame (exec_sameLog he id) t⟩
    cases hφ : ts t with
    | recovering => exact absurd hφ (h.booted t)
    | _ =>
      rw [hφ] at hw
      exact hw.2
  | logCheck => exact ⟨ts t, hw.2, h.frame (exec_sameLog he id) t⟩
  | bunpin b =>
    obtain ⟨i, hi, he⟩ := BState.onBuf_eq_done.mp he
    cases he
    cases hφ : ts t with
    | committing lh p =>
      rw [hφ] at hw
      refine ⟨_, hw.2, ?_⟩
      simp only [Ledger.note, hi]
      exact LogInv.frame h (.inr ⟨lh, p, _, hφ, rfl⟩) _
    | _ =>
      rw [hφ] at hw
      exact hw.elim
  | logAppend b =>
    obtain ⟨i, hi, he⟩ := BState.onBuf_eq_done.mp he
    cases he
    refine ⟨ts t, hw.2, ?_⟩
    rw [update_eq_self]
    have hlog := LogInv.log h hw.1 (w.st.buf i).blockno
    simp only [LogGood, Ledger.note, hi, BState.logAppend]
    split
    next hb => rwa [if_pos hb] at hlog
    next hb => rwa [if_neg hb] at hlog
  | beginOp =>
    simp only [BState.exec] at he
    split at he
    · cases he
    next hcom =>
      split at he
      · cases he
      cases he
      have hcom : w.st.committing = false := by simpa using hcom
      unfold LogGood at h
      rw [hcom] at h
      refine ⟨_, hw.2, ?_⟩
      have := LogInv.begin h hw.1
      simpa [LogGood, Ledger.note, hcom] using this
  | endOp =>
    simp only [BState.exec] at he
    split at he
    · cases he
    next hcom =>
      have hcom : w.st.committing = false := by simpa using hcom
      split at he
      next hlast =>
        cases he
        refine ⟨_, hw.2.1 w.st.lh, ?_⟩
        unfold LogGood at h
        rw [hcom] at h
        simpa [LogGood, Ledger.note] using LogInv.enter h hw.1 hlast
      · cases he
        exact ⟨_, hw.2.2, by simpa [LogGood, Ledger.note] using LogInv.close h hw.1⟩
  | endCommit =>
    cases he
    exact ⟨_, hw.2, LogInv.finish h hw.1⟩
  | logHeader =>
    cases he
    refine ⟨ts t, ?_, h.frame ⟨rfl, rfl, rfl⟩ t⟩
    cases hφ : ts t with
    | committing lh p =>
      rw [hφ] at hw
      rw [← LogInv.header h t lh p hφ]
      exact hw
    | recovering => exact absurd hφ (h.booted t)
    | _ =>
      rw [hφ] at hw
      exact hw.elim
  | setLogHeader l =>
    cases he
    cases hφ : ts t with
    | committing lh p =>
      rw [hφ] at hw
      obtain ⟨⟨rfl, -⟩, hw⟩ := hw
      exact ⟨_, hw, LogInv.clear h hφ⟩
    | recovering => exact absurd hφ (h.booted t)
    | _ =>
      rw [hφ] at hw
      exact hw.elim
  | panic msg => cases he

theorem sound_callMachine : Sound (callMachine sb : Machine Tid BOp (BWorld Tid))
    (phaseWp sb) (· = .outside) LogGood where
  start := by
    rintro t p φ hp rfl
    exact phaseWp_calls hp
  op := fun hgood _ hw he => LogGood.op hgood hw he

/-- A state with an idle log: anything in the buffers and on the disk. -/
def BState.idleLog (s : BState Tid) : BState Tid :=
  { s with lh := [], outstanding := 0, committing := false }

theorem Pool.Reach.logGood {s0 : BState Tid}
    (h : Reach (callMachine sb) (.idle ⟨s0.idleLog, .empty⟩) c) :
    ∃ ts, Typed (phaseWp sb) (· = .outside) LogGood c ts := by
  have hidle : LogGood (⟨s0.idleLog, .empty⟩ : BWorld Tid) (fun _ => .outside) := LogInv.idle
  exact h.typed sound_callMachine ⟨_, Pool.typed_idle hidle fun _ => rfl⟩

omit [DecidableEq Tid] in
theorem inOp_of_prog (h : Typed (phaseWp sb) (· = .outside) LogGood c ts) {u : Tid}
    {k : γ → BProg Unit} (hp : c.prog u = .op o k) (ho : ∀ Q φ, phaseWp sb γ o Q φ → φ = .inOp) :
    ts u = .inOp := by
  have hw := h.wp u
  rw [hp] at hw
  exact ho _ _ hw

/-- While a process commits, no `begin_op` returns and nobody else touches the header. -/
theorem commit_stable (h : LogGood w ts) {t u : Tid} (ht : w.gh.inCommit t = true)
    (hw : phaseWp sb γ o Q (ts u))
    (hexec : w.exec sb u γ o = .done r w') :
    w'.gh.begun = w.gh.begun ∧ (u ≠ t → w'.st.lh = w.st.lh) := by
  have hgood : LogInv _ _ _ _ ts := h
  have hcom : w.st.committing = true := hgood.committing.mpr ⟨t, ht⟩
  have hnot : ts u ≠ .inOp := fun hin => by simp [hgood.no_commit hin t] at ht
  obtain ⟨s', he, rfl⟩ := Outcome.map_eq_done.mp hexec
  cases o with
  | logAppend b | endOp => exact absurd hw.1 hnot
  | beginOp => simp [BState.exec, hcom] at he
  | endCommit =>
    cases he
    exact ⟨rfl, fun _ => rfl⟩
  | setLogHeader l =>
    refine ⟨rfl, fun hne => ?_⟩
    cases hφ : ts u with
    | committing lh p => exact absurd (hgood.unique u t ((hgood.inCommit u).mpr ⟨lh, p, hφ⟩) ht) hne
    | recovering => exact absurd hφ (hgood.booted u)
    | _ =>
      rw [hφ] at hw
      exact hw.elim
  | bunpin b =>
    refine ⟨?_, fun _ => (exec_sameLog he id).1⟩
    simp only [Ledger.note]
    split <;> rfl
  | _ => exact ⟨rfl, fun _ => (exec_sameLog he id).1⟩

/-- Group commit takes whole operations. In every state of every run from an idle log:
* at most one process is inside `commit`, and while it is there nobody is in an operation or inside
  `log_write`, no `begin_op` returns, and only the committing process touches the header, which is
  that of the last transaction until it is cleared;
* `end_op` finds no commit running;
* each transaction is the union of operations that have ended, and each operation that has ended is
  in one transaction, or waits for the next. -/
theorem group_commit (s0 : BState Tid) {c : Conf Tid BOp (BWorld Tid)}
    (h : Reach (callMachine sb) (.idle ⟨s0.idleLog, .empty⟩) c) :
    (∀ t t', c.st.gh.inCommit t = true → c.st.gh.inCommit t' = true → t = t') ∧
    (∀ t, c.st.gh.inCommit t = true →
      c.st.st.committing = true ∧ c.st.st.outstanding = 0 ∧ (∀ u, c.st.gh.active u = none) ∧
      (c.st.st.lh = [] ∨ ∃ ops, c.st.gh.txs.head? = some ⟨c.st.st.lh, ops⟩) ∧
      (∀ u b k, c.prog u ≠ .op (.logAppend b) k) ∧
      ∀ u c', Step (callMachine sb) u c c' → c'.st.gh.inCommit t = true →
        c'.st.gh.begun = c.st.gh.begun ∧ (u ≠ t → c'.st.st.lh = c.st.st.lh)) ∧
    (∀ u k, c.prog u = .op .endOp k → c.st.st.exec sb u _ .endOp ≠ .panic "log.committing") ∧
    (∀ tx ∈ c.st.gh.txs, (∀ b, b ∈ tx.header ↔ ∃ o ∈ tx.ops, b ∈ o.blocks) ∧
      ∀ o ∈ tx.ops, ∀ u a, c.st.gh.active u = some a → a.id ≠ o.id) ∧
    ((c.st.gh.ended ++ c.st.gh.txs.flatMap Tx.ops).map OpLog.id).Nodup ∧
    ∀ k < c.st.gh.begun, k ∈ (c.st.gh.ended ++ c.st.gh.txs.flatMap Tx.ops).map OpLog.id ∨
      ∃ u a, c.st.gh.active u = some a ∧ a.id = k := by
  obtain ⟨ts, hts⟩ := h.logGood
  have hgood : LogInv _ _ _ _ ts := hts.good
  refine ⟨hgood.unique, fun t ht => ⟨hgood.committing.mpr ⟨t, ht⟩, hgood.quiet t ht, ?_,
    (hgood.covered t ht).2, ?_, ?_⟩, ?_, ?_, hgood.named.nodup, hgood.named.total⟩
  · intro u
    by_contra hu
    have hin := (hgood.active u).mp (Option.isSome_iff_ne_none.mpr hu)
    exact absurd ht (by simp [hgood.no_commit hin t])
  · intro u b k hp
    have hin := inOp_of_prog hts hp fun _ _ hw => hw.1
    exact absurd ht (by simp [hgood.no_commit hin t])
  · intro u c' hs _
    cases hs with
    | start hrun hidle hp | panic hrun hprog hguard hexec => exact ⟨rfl, fun _ => rfl⟩
    | op hrun hprog hguard hexec =>
      have hw := hts.wp u
      rw [hprog] at hw
      exact commit_stable hgood ht hw hexec
  · intro u k hp
    have hin := inOp_of_prog hts hp fun _ _ hw => hw.1
    have hcom := hgood.not_committing (hgood.no_commit hin)
    simp only [BState.exec, hcom, Bool.false_eq_true, if_false]
    split <;> simp
  · intro tx htx
    refine ⟨(hgood.txs tx htx).2, fun o ho u a hu he => ?_⟩
    refine hgood.named.active_open u a hu (List.mem_map.mpr ⟨o, ?_, he.symm⟩)
    exact List.mem_append_right _ (List.mem_flatMap.mpr ⟨tx, htx, ho⟩)

/-- Change block `b`. -/
def touch (b : Nat) : FProg Unit := do
  let d ← .lift (.bread b)
  .lift (.setData b (d.setByte 0 1))
  .lift (.logWrite b)
  .lift (.brelse b)

/-- Two processes in one transaction: both log a block, process 0 ends first, process 1 commits. -/
theorem group_commit_two :
    let c : Conf (Fin 2) BOp (BWorld (Fin 2)) :=
      (Conf.idle ⟨(boot fun _ _ => 0).idleLog, .empty⟩).sched
        (BWorld.exec mkfsSuperblock) (fun _ _ _ _ => true)
        ([(0, .start (opCall mkfsSuperblock (touch 50))),
            (1, .start (opCall mkfsSuperblock (touch 51)))] ++
          List.replicate 9 (0, .go) ++ List.replicate 9 (1, .go) ++ [(0, .go), (1, .go)])
    c.st.gh.inCommit 1 = true ∧ c.st.st.lh = [50, 51] ∧ c.st.st.outstanding = 0 ∧
      c.st.gh.inCommit 0 = false := by
  intro c
  have hreach : Reach (callMachine mkfsSuperblock)
      (.idle ⟨(boot fun _ _ => 0).idleLog, .empty⟩) c := by
    apply Reach.sched _ (fun _ _ _ _ _ => trivial) .refl
    simp +contextual [callMachine, Calls.op]
  have hcommit : c.st.gh.inCommit 1 = true := by decide +kernel
  obtain ⟨hone, hquiet, -⟩ := group_commit _ hreach
  exact ⟨hcommit, by decide +kernel, (hquiet 1 hcommit).2.1, by
    rw [← Bool.not_eq_true]
    exact fun h => absurd (hone 0 1 h hcommit) (by decide)⟩

end Xv6
