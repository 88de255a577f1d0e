import Xv6.Fs.Op

/-!
# Phases of a process

Where a process stands with respect to the log: outside of any operation, in one, committing, or
running `recover_from_log` at boot. `phaseWp` says which steps a process takes in which phase; the
code of `log.c` and every call of `fs.c` follow it.
-/

namespace Xv6

open Prog (wp_bind wp_lift wp_mono)

/-- The phase of a process. A committing process knows the header it commits and the blocks it has
not unpinned yet. -/
inductive Phase
  | outside
  | inOp
  | committing (lh pinned : List Nat)
  | recovering

/-- The steps of a process and its next phase. The boot process is only followed where it finds an
empty log: the header block then lists nothing whenever it is looked at, and the write that clears
the log ends the recovery. -/
@[simp] def phaseWp (sb : Superblock) : ∀ γ, BOp γ → (γ → Phase → Prop) → Phase → Prop
  | _, .bget _, Q, φ => Q () φ
  | _, .acquiresleep _, Q, φ => Q () φ
  | _, .fill b, Q, .recovering => ∀ d, (b = sb.logstart → headBlocks d = []) → Q d .recovering
  | _, .fill _, Q, φ => ∀ d, Q d φ
  | _, .setData b d, Q, .recovering => (b = sb.logstart → headBlocks d = []) ∧ Q () .recovering
  | _, .setData _ _, Q, φ => φ ≠ .outside ∧ Q () φ
  | _, .bwrite b, Q, .recovering => b = sb.logstart ∧ Q () .outside
  | _, .bwrite _, Q, φ => (φ ≠ .outside ∧ φ ≠ .inOp) ∧ Q () φ
  | _, .releasesleep _, Q, φ => Q () φ
  | _, .unref _, Q, φ => Q () φ
  | _, .bunpin b, Q, .committing lh p => b ∈ p ∧ Q () (.committing lh (p.erase b))
  | _, .bunpin _, _, _ => False
  | _, .logCheck, Q, φ => φ = .inOp ∧ Q () φ
  | _, .logAppend _, Q, φ => φ = .inOp ∧ Q () φ
  | _, .beginOp, Q, φ => φ = .outside ∧ Q () .inOp
  | _, .endOp, Q, φ => φ = .inOp ∧ (∀ lh, Q true (.committing lh lh)) ∧ Q false .outside
  | _, .endCommit, Q, φ => φ = .committing [] [] ∧ Q () .outside
  | _, .logHeader, Q, .committing lh p => Q lh (.committing lh p)
  | _, .logHeader, Q, .recovering => Q [] .recovering
  | _, .logHeader, _, _ => False
  | _, .setLogHeader l, Q, .committing _ p => (l = [] ∧ p = []) ∧ Q () (.committing [] [])
  | _, .setLogHeader l, Q, .recovering => l = [] ∧ Q () .recovering
  | _, .setLogHeader _, _, _ => False
  | _, .panic _, _, _ => True

theorem phaseWp_mono (sb : Superblock) : Prog.Mono (phaseWp sb) := by
  intro γ o P Q φ h hP
  cases o <;> cases φ <;> simp only [phaseWp] at hP ⊢ <;> grind

@[simp] def PhaseStep : ∀ γ, BOp γ → γ → Phase → Phase → Prop
  | _, .bunpin b, _, φ, φ' => ∃ lh p, φ = .committing lh p ∧ b ∈ p ∧ φ' = .committing lh (p.erase b)
  | _, .bwrite _, _, φ, φ' => φ = .recovering ∧ φ' = .outside ∨ φ ≠ .recovering ∧ φ' = φ
  | _, .logCheck, _, φ, φ' => φ = .inOp ∧ φ' = .inOp
  | _, .logAppend _, _, φ, φ' => φ = .inOp ∧ φ' = .inOp
  | _, .beginOp, _, φ, φ' => φ = .outside ∧ φ' = .inOp
  | _, .endOp, r, φ, φ' => φ = .inOp ∧ if r then ∃ lh, φ' = .committing lh lh else φ' = .outside
  | _, .endCommit, _, φ, φ' => φ = .committing [] [] ∧ φ' = .outside
  | _, .setLogHeader l, _, φ, φ' =>
    l = [] ∧ ((∃ lh, φ = .committing lh [] ∧ φ' = .committing [] []) ∨
      φ = .recovering ∧ φ' = .recovering)
  | _, _, _, φ, φ' => φ' = φ

theorem phaseWp_step {sb : Superblock} {γ : Type} {o : BOp γ} {Q : γ → Phase → Prop} {φ : Phase}
    (h : phaseWp sb γ o Q φ) : phaseWp sb γ o (fun r φ' => Q r φ' ∧ PhaseStep γ o r φ φ') φ := by
  cases o <;> cases φ <;> simp only [phaseWp, PhaseStep] at h ⊢ <;> grind

/-- A committing process has yet to unpin blocks of its header only. -/
def Phase.PinsListed : Phase → Prop
  | .committing lh p => ∀ b ∈ p, b ∈ lh
  | _ => True

theorem PhaseStep.pinsListed {γ : Type} {o : BOp γ} {r : γ} {φ φ' : Phase}
    (h : PhaseStep γ o r φ φ') (hφ : φ.PinsListed) : φ'.PinsListed := by
  cases o with
  | bunpin b =>
    obtain ⟨lh, p, rfl, -, rfl⟩ := h
    exact fun c hc => hφ c (List.mem_of_mem_erase hc)
  | bwrite b =>
    obtain ⟨-, rfl⟩ | ⟨-, rfl⟩ := h
    · trivial
    · exact hφ
  | logCheck | logAppend b | beginOp | endCommit =>
    obtain ⟨-, rfl⟩ := h
    trivial
  | endOp =>
    obtain ⟨-, h⟩ := h
    cases r with
    | true =>
      obtain ⟨lh, rfl⟩ := h
      exact fun _ hb => hb
    | false =>
      obtain rfl : φ' = .outside := by simpa using h
      trivial
  | setLogHeader l =>
    obtain ⟨-, ⟨lh, -, rfl⟩ | ⟨-, rfl⟩⟩ := h
    · exact fun _ hb => hb
    · trivial
  | bget b | acquiresleep b | fill b | setData b d | releasesleep b | unref b | logHeader =>
    cases h
    exact hφ
  | panic msg => exact r.elim

/-! ## The functions of `bio.c` and `log.c` -/

section

variable {sb : Superblock} {b : Nat} {φ : Phase} (body : FProg Unit)

theorem phaseWp_bread {Q : Block → Phase → Prop} (h : ∀ d, Q d φ) :
    (bread b).wp (phaseWp sb) Q φ := by
  cases φ <;> simp [bread, phaseWp, h]

variable {lh : List Nat} {Q : Unit → Phase → Prop}

theorem phaseWp_brelse : (brelse b).wp (phaseWp sb) Q φ ↔ Q () φ := by
  simp [brelse, phaseWp]

theorem phaseWp_writeLog (h : Q () (.committing lh lh)) :
    (writeLog sb).wp (phaseWp sb) Q (.committing lh lh) := by
  refine wp_mono (phaseWp_mono sb) _ (P := fun _ φ => φ = .committing lh lh)
    (fun _ _ he => he ▸ h) (Prog.wp_forEach (phaseWp_mono sb) (fun _ φ => φ = .committing lh lh)
      ?_ _ _ rfl)
  rintro ⟨b, tail⟩ rest φ rfl
  simp only [writeLogBlock, wp_bind]
  refine phaseWp_bread fun _ => phaseWp_bread fun d => ?_
  simp [phaseWp, phaseWp_brelse]

theorem phaseWp_writeHead {p : List Nat} (h : Q () (.committing lh p)) :
    (writeHead sb).wp (phaseWp sb) Q (.committing lh p) := by
  simp only [writeHead, wp_bind]
  refine phaseWp_bread fun _ => ?_
  simpa [phaseWp, phaseWp_brelse] using h

theorem phaseWp_installTrans (h : Q () (.committing lh [])) :
    (installTrans sb).wp (phaseWp sb) Q (.committing lh lh) := by
  refine wp_mono (phaseWp_mono sb) _ (P := fun _ φ => φ = .committing lh [])
    (fun _ _ he => he ▸ h) (Prog.wp_forEach (phaseWp_mono sb)
      (fun rest φ => φ = .committing lh (rest.map Prod.fst)) ?_ _ _ (by simp [List.zipIdx_map_fst]))
  rintro ⟨b, tail⟩ rest φ rfl
  simp only [installBlock, wp_bind]
  refine phaseWp_bread fun _ => phaseWp_bread fun d => ?_
  simp [phaseWp, phaseWp_brelse]

theorem phaseWp_commit (h : Q () (.committing [] [])) :
    (commit sb).wp (phaseWp sb) Q (.committing lh lh) := by
  simp only [commit, wp_bind, wp_lift, phaseWp]
  split
  · simp only [wp_bind]
    refine phaseWp_writeLog (phaseWp_writeHead (phaseWp_installTrans ?_))
    simp only [wp_lift, phaseWp]
    exact ⟨⟨trivial, trivial⟩, phaseWp_writeHead h⟩
  next hlen =>
    obtain rfl : lh = [] := by simpa using hlen
    exact h

theorem phaseWp_endOp (h : Q () .outside) : (endOp sb).wp (phaseWp sb) Q .inOp := by
  simp only [endOp, wp_bind, wp_lift, phaseWp]
  refine ⟨trivial, fun lh => ?_, h⟩
  simp only [if_true, wp_bind]
  refine phaseWp_commit ?_
  simpa [phaseWp] using h

theorem phaseWp_recoverFromLog (h : Q () .outside) :
    (recoverFromLog sb).wp (phaseWp sb) Q .recovering := by
  simp +contextual [recoverFromLog, readHead, installTrans, writeHead, bread, brelse, phaseWp,
    Prog.forEach, h]

/-! ## Calls -/

theorem phaseWp_code_inOp (h : Q () .inOp) : body.code.wp (phaseWp sb) Q .inOp := by
  induction body with
  | pure u => exact h
  | op o k ih =>
    rw [FProg.code, Prog.subst, wp_bind]
    cases o with
    | bread b => exact phaseWp_bread fun d => ih d
    | setData b d => exact ⟨by simp, ih ()⟩
    | logWrite b => exact ⟨rfl, rfl, ih ()⟩
    | brelse b => exact phaseWp_brelse.mpr (ih ())
    | panic msg => trivial

theorem phaseWp_code_readOnly (hro : body.ReadOnly) (h : Q () .outside) :
    body.code.wp (phaseWp sb) Q .outside := by
  induction body with
  | pure u => exact h
  | op o k ih =>
    rw [FProg.code, Prog.subst, wp_bind]
    cases o with
    | bread b => exact phaseWp_bread fun d => ih d (hro d)
    | setData b d | logWrite b => exact hro.elim
    | brelse b => exact phaseWp_brelse.mpr (ih () hro)
    | panic msg => trivial

theorem phaseWp_calls {p : BProg Unit} (hp : Calls sb p) :
    p.wp (phaseWp sb) (fun _ φ => φ = .outside) .outside := by
  cases hp with
  | op body =>
    simp only [opCall, beginOp, wp_bind, wp_lift, phaseWp, true_and]
    exact phaseWp_code_inOp body (phaseWp_endOp rfl)
  | read body hro => exact phaseWp_code_readOnly body hro rfl

end

end Xv6
