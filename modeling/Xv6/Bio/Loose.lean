import Xv6.Log.Phase

/-!
# References without the lock

`bget` takes a reference before it waits for the sleep-lock, and `brelse` gives the lock back
before it drops the reference. In between a process has one loose reference, and it does nothing
else: programs take and drop references in pairs of steps.
-/

namespace Xv6

namespace BOp

/-- The loose reference a process has when it comes to a step. -/
def looseBefore : ∀ γ, BOp γ → Option Nat
  | _, .acquiresleep b => some b
  | _, .unref b => some b
  | _, _ => none

/-- The loose reference a process has after a step. -/
def looseAfter : ∀ γ, BOp γ → Option Nat
  | _, .bget b => some b
  | _, .releasesleep b => some b
  | _, _ => none

/-- A step is taken with the loose reference it expects. -/
def LooseOk (γ : Type) (o : BOp γ) (e : Option Nat) : Prop := e = looseBefore γ o

/-- The loose reference that a step leaves behind. -/
def looseNext (γ : Type) (o : BOp γ) (_ : Option Nat) : Option Nat := looseAfter γ o

end BOp

def Balanced {α : Type} (p : BProg α) : Prop :=
  p.wp (Prog.detWp BOp.LooseOk BOp.looseNext) (fun _ e => e = none) none

namespace Balanced

variable {α β ι : Type} {sb : Superblock} (b : Nat)

theorem pure (a : α) : Balanced (.pure a) := rfl

theorem bind {p : BProg α} {f : α → BProg β} (hp : Balanced p) (hf : ∀ a, Balanced (f a)) :
    Balanced (p >>= f) := by
  rw [Balanced, Prog.wp_bind]
  refine Prog.wp_mono (Prog.detWp_mono _ _) p ?_ hp
  rintro a e rfl
  exact hf a

theorem forEach {f : ι → BProg Unit} (hf : ∀ x, Balanced (f x)) (xs : List ι) :
    Balanced (.forEach f xs) := by
  induction xs with
  | nil => exact pure ()
  | cons x xs ih => exact (hf x).bind fun _ => ih

theorem lift {o : BOp α} (hb : BOp.looseBefore α o = none) (ha : BOp.looseAfter α o = none) :
    Balanced (.lift o) :=
  ⟨hb.symm, fun _ => ha⟩

theorem bread : Balanced (Xv6.bread b) := by
  simp [Balanced, Xv6.bread, Prog.detWp, BOp.LooseOk, BOp.looseNext, BOp.looseBefore,
    BOp.looseAfter]

theorem brelse : Balanced (Xv6.brelse b) := by
  simp [Balanced, Xv6.brelse, Prog.detWp, BOp.LooseOk, BOp.looseNext, BOp.looseBefore,
    BOp.looseAfter]

theorem logWrite : Balanced (Xv6.logWrite b) :=
  .bind (.lift rfl rfl) fun _ => .lift rfl rfl

theorem writeLog : Balanced (writeLog sb) :=
  .bind (.lift rfl rfl) fun _ => forEach (fun _ =>
    .bind (bread _) fun _ => .bind (bread _) fun _ => .bind (.lift rfl rfl) fun _ =>
      .bind (.lift rfl rfl) fun _ => .bind (brelse _) fun _ => brelse _) _

theorem writeHead : Balanced (writeHead sb) :=
  .bind (bread _) fun _ => .bind (.lift rfl rfl) fun _ => .bind (.lift rfl rfl) fun _ =>
    .bind (.lift rfl rfl) fun _ => brelse _

theorem installTrans : Balanced (installTrans sb) :=
  .bind (.lift rfl rfl) fun _ => forEach (fun _ =>
    .bind (bread _) fun _ => .bind (bread _) fun _ => .bind (.lift rfl rfl) fun _ =>
      .bind (.lift rfl rfl) fun _ => .bind (.lift rfl rfl) fun _ => .bind (brelse _) fun _ =>
        brelse _) _

theorem commit : Balanced (commit sb) := by
  refine .bind (.lift rfl rfl) fun lh => ?_
  split
  · exact .bind writeLog fun _ => .bind writeHead fun _ => .bind installTrans fun _ =>
      .bind (.lift rfl rfl) fun _ => writeHead
  · exact pure ()

theorem endOp : Balanced (endOp sb) := by
  refine .bind (.lift rfl rfl) fun doCommit => ?_
  split
  · exact .bind commit fun _ => .lift rfl rfl
  · exact pure ()

theorem recoverFromLog : Balanced (recoverFromLog sb) :=
  .bind (.bind (bread _) fun _ => .bind (.lift rfl rfl) fun _ => brelse _) fun _ =>
    .bind installTrans fun _ => .bind (.lift rfl rfl) fun _ => writeHead

theorem code (body : FProg Unit) : Balanced body.code := by
  induction body with
  | pure u => exact pure u
  | op o k ih =>
    refine .bind ?_ ih
    cases o with
    | bread b => exact bread b
    | setData b d => exact .lift rfl rfl
    | logWrite b => exact logWrite b
    | brelse b => exact brelse b
    | panic msg => exact ⟨rfl, nofun⟩

theorem calls {p : BProg Unit} (hp : Calls sb p) : Balanced p := by
  cases hp with
  | op body => exact .bind (.lift rfl rfl) fun _ => .bind (code body) fun _ => endOp
  | read body _ => exact code body

end Balanced

/-- Phases and loose references together. -/
abbrev holdWp (sb : Superblock) : ∀ γ, BOp γ → (γ → Phase × Option Nat → Prop) →
    Phase × Option Nat → Prop :=
  Prog.prodWp BOp.LooseOk BOp.looseNext (phaseWp sb)

theorem holdWp_calls {sb : Superblock} {p : BProg Unit} (hp : Calls sb p) :
    p.wp (holdWp sb) (fun _ a => a.1 = .outside ∧ a.2 = none) (.outside, none) :=
  Prog.wp_prod _ _ (phaseWp_mono sb) p (phaseWp_calls hp) (Balanced.calls hp)

theorem holdWp_recoverFromLog (sb : Superblock) :
    (recoverFromLog sb).wp (holdWp sb) (fun _ a => a.1 = .outside ∧ a.2 = none)
      (.recovering, none) := by
  have hphase : (recoverFromLog sb).wp (phaseWp sb) (fun _ φ => φ = .outside) .recovering :=
    phaseWp_recoverFromLog rfl
  have hloose : Balanced (recoverFromLog sb) := .recoverFromLog
  generalize recoverFromLog sb = p at hphase hloose ⊢
  exact Prog.wp_prod _ _ (phaseWp_mono sb) p hphase hloose

end Xv6
