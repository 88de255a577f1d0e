import Mathlib.Tactic

/-!
# Programs over a signature of atomic operations

A program is a tree of atomic operations of a signature `Op`; what an operation does is left to
an interpretation, so one program text can be run against several machines. `run` executes a
program on one state, sequentially, where an operation may stop the machine. `wp` computes the
condition under which a program is accepted by a predicate-transformer reading `w` of its
operations; a type-state discipline is such a reading, and so is execution.
-/

namespace Xv6

/-- A program with result type `α` over the operations `Op`. -/
inductive Prog (Op : Type → Type) (α : Type) : Type 1
  | pure (a : α) : Prog Op α
  | op {β : Type} (o : Op β) (k : β → Prog Op α) : Prog Op α

namespace Prog

variable {Op Op' : Type → Type} {α β γ σ τ ι : Type} {Q : α → τ → Prop} {f : α → Prog Op β} {s : τ}
  (E : σ → Prop)

/-- Sequencing: the operations of `p`, then those of `f` at its result. -/
def bind : Prog Op α → (α → Prog Op β) → Prog Op β
  | .pure a, f => f a
  | .op o k, f => .op o (fun b => (k b).bind f)

instance : Monad (Prog Op) where
  pure := Prog.pure
  bind := Prog.bind

def lift (o : Op α) : Prog Op α := .op o .pure

@[simp] theorem pure_bind (a : α) (f : α → Prog Op β) : (Prog.pure a >>= f) = f a := rfl

@[simp] theorem pure_eq (a : α) : (Pure.pure a : Prog Op α) = .pure a := rfl

@[simp] theorem op_bind (o : Op γ) (k : γ → Prog Op α) (f : α → Prog Op β) :
    (Prog.op o k >>= f) = .op o (fun b => k b >>= f) := rfl

@[simp] theorem lift_bind (o : Op α) (f : α → Prog Op β) : (lift o >>= f) = .op o f := rfl

theorem bind_assoc (p : Prog Op α) (f : α → Prog Op β) (g : β → Prog Op γ) :
    (p >>= f) >>= g = p >>= fun a => f a >>= g := by
  induction p with
  | pure a => rfl
  | op o k ih => simp only [op_bind, ih]

def forEach (f : ι → Prog Op Unit) : List ι → Prog Op Unit
  | [] => .pure ()
  | x :: xs => f x >>= fun _ => forEach f xs

/-- Replace every operation by a program over another signature. -/
def subst {Op' : Type → Type} (f : ∀ γ, Op γ → Prog Op' γ) : Prog Op α → Prog Op' α
  | .pure a => .pure a
  | .op o k => f _ o >>= fun b => (k b).subst f

theorem subst_bind (g : ∀ γ, Op γ → Prog Op' γ) (p : Prog Op α)
    (f : α → Prog Op β) : (p >>= f).subst g = p.subst g >>= fun a => (f a).subst g := by
  induction p with
  | pure a => rfl
  | op o k ih => simp only [op_bind, subst, ih, bind_assoc]

/-- Continue from an outcome, unless the machine has stopped. -/
def andThen : Option α × σ → (α → σ → Option β × σ) → Option β × σ
  | (some a, s), f => f a s
  | (none, s), _ => (none, s)

/-- Sequential execution. An operation that answers `none` stops the machine. -/
def run (h : ∀ γ, Op γ → σ → Option γ × σ) : Prog Op α → σ → Option α × σ
  | .pure a, s => (some a, s)
  | .op o k, s => andThen (h _ o s) (fun b s' => run h (k b) s')

/-- The condition under which the reading `w` of the operations accepts a program with
postcondition `Q`. -/
def wp (w : ∀ γ, Op γ → (γ → τ → Prop) → τ → Prop) : Prog Op α → (α → τ → Prop) → τ → Prop
  | .pure a, Q, s => Q a s
  | .op o k, Q, s => w _ o (fun b s' => wp w (k b) Q s') s

section

variable {w : ∀ γ, Op γ → (γ → τ → Prop) → τ → Prop} {P : α → τ → Prop}

@[simp] theorem wp_pure (a : α) (Q : α → τ → Prop) (s : τ) : wp w (.pure a) Q s ↔ Q a s := Iff.rfl

@[simp] theorem wp_op (o : Op γ) (k : γ → Prog Op α) (Q : α → τ → Prop) (s : τ) :
    wp w (.op o k) Q s ↔ w _ o (fun b s' => wp w (k b) Q s') s := Iff.rfl

@[simp] theorem wp_lift (o : Op α) (Q : α → τ → Prop) (s : τ) : wp w (lift o) Q s ↔ w _ o Q s :=
  Iff.rfl

theorem wp_bind (p : Prog Op α) (f : α → Prog Op β) (Q : β → τ → Prop) (s : τ) :
    wp w (p >>= f) Q s ↔ wp w p (fun a s' => wp w (f a) Q s') s := by
  induction p generalizing s with
  | pure a => rfl
  | op o k ih =>
    have hk : (fun b s' => wp w (k b >>= f) Q s') =
        fun b s' => wp w (k b) (fun a s' => wp w (f a) Q s') s' := by
      funext b s'
      exact propext (ih b s')
    simp only [op_bind, wp_op, hk]

theorem wp_seq {p : Prog Op α} {Q : β → τ → Prop}
    (h : wp w p (fun a s' => wp w (f a) Q s') s) : wp w (p >>= f) Q s :=
  (wp_bind p f Q s).mpr h

theorem wp_subst {w : ∀ γ, Op' γ → (γ → τ → Prop) → τ → Prop}
    (f : ∀ γ, Op γ → Prog Op' γ) (p : Prog Op α) (Q : α → τ → Prop) (s : τ) :
    wp w (p.subst f) Q s ↔ wp (fun γ o Q => wp w (f γ o) Q) p Q s := by
  induction p generalizing s with
  | pure a => rfl
  | op o k ih =>
    have hk : (fun b s' => wp w ((k b).subst f) Q s') =
        fun b s' => wp (fun γ o Q => wp w (f γ o) Q) (k b) Q s' := by
      funext b s'
      exact propext (ih b s')
    rw [subst, wp_bind, hk, wp_op]

/-- A reading that accepts more when asked for less. -/
def Mono (w : ∀ γ, Op γ → (γ → τ → Prop) → τ → Prop) : Prop :=
  ∀ γ (o : Op γ) (P Q : γ → τ → Prop) (s : τ), (∀ b s', P b s' → Q b s') → w γ o P s → w γ o Q s

theorem wp_mono (hw : Mono w) (p : Prog Op α)
    (h : ∀ a s', P a s' → Q a s') (hp : wp w p P s) : wp w p Q s := by
  induction p generalizing s with
  | pure a => exact h a s hp
  | op o k ih => exact hw _ o _ _ s (fun b s' hb => ih b hb) hp

theorem wp_of_le {w' : ∀ γ, Op γ → (γ → τ → Prop) → τ → Prop} (hw' : Mono w')
    (h : ∀ γ (o : Op γ) (Q : γ → τ → Prop) (s : τ), w γ o Q s → w' γ o Q s) (p : Prog Op α)
    (hp : wp w p Q s) : wp w' p Q s := by
  induction p generalizing s with
  | pure a => exact hp
  | op o k ih => exact hw' _ o _ _ s (fun b s' hb => ih b hb) (h _ o _ s hp)

/-! ### A second component that the operations move deterministically -/

variable {ε : Type} (ok : ∀ γ, Op γ → ε → Prop) (next : ∀ γ, Op γ → ε → ε)

/-- The reading in which an operation asks `ok` and moves the state by `next`, whatever the
answer. -/
def detWp : ∀ γ, Op γ → (γ → ε → Prop) → ε → Prop :=
  fun γ o Q e => ok γ o e ∧ ∀ r, Q r (next γ o e)

def prodWp (w : ∀ γ, Op γ → (γ → τ → Prop) → τ → Prop) :
    ∀ γ, Op γ → (γ → τ × ε → Prop) → τ × ε → Prop :=
  fun γ o Q s => ok γ o s.2 ∧ w γ o (fun r a => Q r (a, next γ o s.2)) s.1

theorem detWp_mono : Mono (detWp ok next) := fun _ _ _ _ _ h hP => ⟨hP.1, fun r => h r _ (hP.2 r)⟩

theorem prodWp_mono (hw : Mono w) : Mono (prodWp ok next w) :=
  fun _ o _ _ s h hP => ⟨hP.1, hw _ o _ _ s.1 (fun r a => h r (a, _)) hP.2⟩

theorem wp_prod (hw : Mono w) (p : Prog Op α) {R : α → ε → Prop} {a : τ} {e : ε}
    (hp : wp w p P a) (hr : wp (detWp ok next) p R e) :
    wp (prodWp ok next w) p (fun r s => P r s.1 ∧ R r s.2) (a, e) := by
  induction p generalizing a e with
  | pure r => exact ⟨hp, hr⟩
  | op o k ih => exact ⟨hr.1, hw _ o _ _ a (fun r a' h => ih r h (hr.2 r)) hp⟩

theorem wp_forEach (hw : Mono w) (I : List ι → τ → Prop) {f : ι → Prog Op Unit}
    (hbody : ∀ x xs s, I (x :: xs) s → wp w (f x) (fun _ s' => I xs s') s) :
    ∀ (xs : List ι) (s : τ), I xs s → wp w (forEach f xs) (fun _ s' => I [] s') s := by
  intro xs
  induction xs with
  | nil => intro s h; exact h
  | cons x xs ih =>
    intro s h
    rw [forEach, wp_bind]
    exact wp_mono hw _ (fun _ s' h' => ih s' h') (hbody x xs s h)

end

section

variable {h : ∀ γ, Op γ → σ → Option γ × σ}

@[simp] theorem run_pure (a : α) (s : σ) : run h (.pure a) s = (some a, s) := rfl

theorem run_op (o : Op γ) (k : γ → Prog Op α) (s : σ) :
    run h (.op o k) s = andThen (h _ o s) (fun b s' => run h (k b) s') := rfl

theorem run_bind (p : Prog Op α) (f : α → Prog Op β) (s : σ) :
    run h (p >>= f) s = andThen (run h p s) (fun a s' => run h (f a) s') := by
  induction p generalizing s with
  | pure a => rfl
  | op o k ih =>
    simp only [op_bind, run_op]
    rcases h _ o s with ⟨_ | b, s'⟩
    · rfl
    · exact ih b s'

variable {p : Prog Op α}

theorem run_bind_some {s s' : σ} {a : α}
    (hp : run h p s = (some a, s')) : run h (p >>= f) s = run h (f a) s' := by
  rw [run_bind, hp]
  rfl

/-- The reading of the operations given by execution: `E` is asked where the machine stops. -/
def execWp (h : ∀ γ, Op γ → σ → Option γ × σ) (E : σ → Prop) :
    ∀ γ, Op γ → (γ → σ → Prop) → σ → Prop :=
  fun γ o Q s => match h γ o s with
    | (some b, s') => Q b s'
    | (none, s') => E s'

theorem execWp_mono : Mono (execWp h E) := by
  intro γ o P Q s hPQ hP
  unfold execWp at hP ⊢
  generalize h γ o s = r at hP ⊢
  rcases r with ⟨_ | b, s'⟩
  · exact hP
  · exact hPQ b s' hP

theorem wp_execWp (p : Prog Op α) (Q : α → σ → Prop) (s : σ) :
    wp (execWp h E) p Q s ↔
      (∀ a, (run h p s).1 = some a → Q a (run h p s).2) ∧
        ((run h p s).1 = none → E (run h p s).2) := by
  induction p generalizing s with
  | pure a => simp
  | op o k ih =>
    simp only [wp_op, run_op, execWp]
    rcases h _ o s with ⟨_ | b, s'⟩
    · simp [andThen]
    · exact ih b s'

theorem wp_execWp_and {E F G : σ → Prop} (hstop : ∀ s, E s → F s → G s)
    {P Q : α → σ → Prop} {s : σ} (hp : wp (execWp h E) p P s) (hq : wp (execWp h F) p Q s) :
    wp (execWp h G) p (fun a s' => P a s' ∧ Q a s') s := by
  rw [wp_execWp] at *
  exact ⟨fun a ha => ⟨hp.1 a ha, hq.1 a ha⟩, fun hnone => hstop _ (hp.2 hnone) (hq.2 hnone)⟩

theorem wp_of_forall {Q : α → σ → Prop} {s : σ} (hQ : ∀ a s', Q a s') :
    wp (execWp h fun _ => True) p Q s :=
  (wp_execWp ..).mpr ⟨fun a _ => hQ a _, fun _ => trivial⟩

theorem run_of_wp {Q : α → σ → Prop} {s : σ}
    (hp : wp (execWp h fun _ => False) p Q s) : ∃ a s', run h p s = (some a, s') ∧ Q a s' := by
  rw [wp_execWp] at hp
  rcases hr : run h p s with ⟨_ | a, s'⟩
  · rw [hr] at hp
    exact (hp.2 rfl).elim
  · rw [hr] at hp
    exact ⟨a, s', rfl, hp.1 a rfl⟩

end

end Prog

end Xv6
