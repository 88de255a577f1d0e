import Xv6.Lib.Prog

/-!
# Threads that run programs on a shared state

A pool is a shared state and, for every thread, the program it has still to run. A step lets one
thread perform the operation its program begins with, or lets an idle thread start a new program.
An operation may have to wait (the thread then has no step), and it may panic, which halts the
machine.

Invariants are proved through a typing of the programs: every thread is given a type-state, `w`
reads the operations on type-states, and `Good` relates the shared state to the type-states of all
threads. It is enough that every operation which `w` accepts keeps `Good`.
-/

namespace Xv6

open Function

/-- What happens when a thread attempts an operation. -/
inductive Outcome (α σ : Type)
  | done (r : α) (s : σ)
  | blocked
  | panic (msg : String)

/-- Transport an outcome along a function that also sees the answer. -/
def Outcome.map {α σ σ' : Type} (f : α → σ → σ') : Outcome α σ → Outcome α σ'
  | .done r s => .done r (f r s)
  | .blocked => .blocked
  | .panic msg => .panic msg

theorem Outcome.map_eq_done {α σ σ' : Type} {f : α → σ → σ'} {x : Outcome α σ} {r : α} {s' : σ'} :
    x.map f = .done r s' ↔ ∃ s, x = .done r s ∧ s' = f r s := by
  cases x with
  | done r₀ s₀ =>
    simp only [Outcome.map, Outcome.done.injEq]
    constructor
    · rintro ⟨rfl, rfl⟩
      exact ⟨s₀, ⟨rfl, rfl⟩, rfl⟩
    · rintro ⟨s, ⟨rfl, rfl⟩, rfl⟩
      exact ⟨rfl, rfl⟩
  | blocked | panic msg => simp [Outcome.map]

theorem Outcome.map_eq_panic {α σ σ' : Type} {f : α → σ → σ'} {x : Outcome α σ} {msg : String} :
    x.map f = .panic msg ↔ x = .panic msg := by
  cases x <;> simp [Outcome.map]

namespace Pool

variable {Tid : Type} [DecidableEq Tid] {Op : Type → Type} {σ τ : Type} {t : Tid} {ts : Tid → τ}

/-- A shared state, the programs of the threads, and the panic that has halted the machine. -/
structure Conf (Tid : Type) (Op : Type → Type) (σ : Type) where
  st : σ
  prog : Tid → Prog Op Unit
  panicked : Option String

/-- A pool in which no thread has anything to do. -/
def Conf.idle (s : σ) : Conf Tid Op σ where
  st := s
  prog := fun _ => .pure ()
  panicked := none

/-- How a machine runs: what its operations do, which programs a thread may start, and which
operations are let through. -/
structure Machine (Tid : Type) (Op : Type → Type) (σ : Type) where
  exec : Tid → ∀ γ, Op γ → σ → Outcome γ σ
  starts : Tid → Prog Op Unit → Prop
  guard : Tid → ∀ γ, Op γ → σ → Prop

variable (m : Machine Tid Op σ)

inductive Step (t : Tid) (c : Conf Tid Op σ) : Conf Tid Op σ → Prop
  | start {p : Prog Op Unit} (hrun : c.panicked = none) (hidle : c.prog t = .pure ())
      (hp : m.starts t p) : Step t c { c with prog := update c.prog t p }
  | op {γ : Type} {o : Op γ} {k : γ → Prog Op Unit} {r : γ} {s' : σ} (hrun : c.panicked = none)
      (hprog : c.prog t = .op o k) (hguard : m.guard t γ o c.st)
      (hexec : m.exec t γ o c.st = .done r s') :
      Step t c { c with st := s', prog := update c.prog t (k r) }
  | panic {γ : Type} {o : Op γ} {k : γ → Prog Op Unit} {msg : String} (hrun : c.panicked = none)
      (hprog : c.prog t = .op o k) (hguard : m.guard t γ o c.st)
      (hexec : m.exec t γ o c.st = .panic msg) :
      Step t c { c with panicked := some msg }

/-- The pools that a run from `c₀` goes through. -/
inductive Reach (c₀ : Conf Tid Op σ) : Conf Tid Op σ → Prop
  | refl : Reach c₀ c₀
  | step {c c' : Conf Tid Op σ} (t : Tid) (h : Reach c₀ c) (hs : Step m t c c') : Reach c₀ c'

/-! ## Typed pools -/

/-- The programs of a pool are accepted by `w` from type-states that fit the shared state. -/
structure Typed (w : ∀ γ, Op γ → (γ → τ → Prop) → τ → Prop) (Idle : τ → Prop)
    (Good : σ → (Tid → τ) → Prop) (c : Conf Tid Op σ) (ts : Tid → τ) : Prop where
  good : Good c.st ts
  wp : ∀ t, (c.prog t).wp w (fun _ => Idle) (ts t)

/-- What has to be checked of a machine, once, for its pools to stay typed. -/
structure Sound (w : ∀ γ, Op γ → (γ → τ → Prop) → τ → Prop) (Idle : τ → Prop)
    (Good : σ → (Tid → τ) → Prop) : Prop where
  start : ∀ {t : Tid} {p : Prog Op Unit} {a : τ}, m.starts t p → Idle a → p.wp w (fun _ => Idle) a
  op : ∀ {s s' : σ} {ts : Tid → τ} {t : Tid} {γ : Type} {o : Op γ} {r : γ} {Q : γ → τ → Prop},
    Good s ts → m.guard t γ o s → w γ o Q (ts t) → m.exec t γ o s = .done r s' →
      ∃ a, Q r a ∧ Good s' (update ts t a)

section

variable {m} {w : ∀ γ, Op γ → (γ → τ → Prop) → τ → Prop} {Idle : τ → Prop}
  {Good : σ → (Tid → τ) → Prop}

section
variable (hm : Sound m w Idle Good)
include hm

theorem Typed.step {c c' : Conf Tid Op σ} (h : Typed w Idle Good c ts) (hs : Step m t c c') :
    ∃ ts', Typed w Idle Good c' ts' := by
  cases hs with
  | start hrun hidle hp =>
    refine ⟨ts, h.good, fun u => ?_⟩
    by_cases hu : u = t
    · subst hu
      have hdone := h.wp u
      rw [hidle] at hdone
      simpa using hm.start hp hdone
    · simpa [hu] using h.wp u
  | op hrun hprog hguard hexec =>
    have ht := h.wp t
    rw [hprog] at ht
    obtain ⟨a, hk, hgood⟩ := hm.op h.good hguard ht hexec
    refine ⟨update ts t a, hgood, fun u => ?_⟩
    by_cases hu : u = t
    · subst hu
      simpa using hk
    · simpa [hu] using h.wp u
  | panic hrun hprog hguard hexec => exact ⟨ts, h.good, h.wp⟩

theorem Reach.typed {c₀ c : Conf Tid Op σ}
    (h₀ : ∃ ts, Typed w Idle Good c₀ ts) (h : Reach m c₀ c) : ∃ ts, Typed w Idle Good c ts := by
  induction h with
  | refl => exact h₀
  | step t _ hs ih =>
    obtain ⟨ts, hts⟩ := ih
    exact hts.step hm hs

/-- A run that starts typed halts only with panics that a typed pool allows. -/
theorem Reach.panicked_of_typed {E : String → Prop}
    (hE : ∀ {s : σ} {ts : Tid → τ} {t : Tid} {γ : Type} {o : Op γ} {Q : γ → τ → Prop}
      {msg : String}, Good s ts → w γ o Q (ts t) → m.exec t γ o s = .panic msg → E msg)
    {c₀ c : Conf Tid Op σ} (h₀ : ∃ ts, Typed w Idle Good c₀ ts) (hnone : c₀.panicked = none)
    (h : Reach m c₀ c) {msg : String} (hmsg : c.panicked = some msg) : E msg := by
  induction h with
  | refl => exact absurd (hnone.symm.trans hmsg) nofun
  | step t hr hs ih =>
    cases hs with
    | start hrun hidle hp | op hrun hprog hguard hexec => exact ih hmsg
    | panic hrun hprog hguard hexec =>
      cases hmsg
      obtain ⟨ts, hts⟩ := hr.typed hm h₀
      have ht := hts.wp t
      rw [hprog] at ht
      exact hE hts.good ht hexec

end

omit [DecidableEq Tid] in
theorem typed_idle {s : σ} (hgood : Good s ts) (hidle : ∀ t, Idle (ts t)) :
    Typed w Idle Good (Conf.idle s : Conf Tid Op σ) ts :=
  ⟨hgood, hidle⟩

end

/-! ### A second component -/

section

variable {ε : Type}

theorem fst_update (ts : Tid → τ × ε) (t : Tid) (a : τ × ε) :
    (fun u => (update ts t a u).1) = update (fun u => (ts u).1) t a.1 := by
  funext u
  by_cases hu : u = t <;> simp [hu]

theorem snd_update (ts : Tid → τ × ε) (t : Tid) (a : τ × ε) :
    (fun u => (update ts t a u).2) = update (fun u => (ts u).2) t a.2 := by
  funext u
  by_cases hu : u = t <;> simp [hu]

def BothIdle (Idle : τ → Prop) (IdleE : ε → Prop) (a : τ × ε) : Prop := Idle a.1 ∧ IdleE a.2

def BothGood (Good : σ → (Tid → τ) → Prop) (Extra : σ → (Tid → ε) → Prop) (s : σ)
    (ts : Tid → τ × ε) : Prop :=
  Good s (fun t => (ts t).1) ∧ Extra s fun t => (ts t).2

variable {m} {w : ∀ γ, Op γ → (γ → τ → Prop) → τ → Prop} {Idle : τ → Prop}
  {Good : σ → (Tid → τ) → Prop} {ok : ∀ γ, Op γ → ε → Prop} {next : ∀ γ, Op γ → ε → ε}
  {IdleE : ε → Prop} {Extra : σ → (Tid → ε) → Prop}

/-- Beside a typing that is known to be sound, a component that every step moves by `next` keeps an
invariant if each step does so where the first invariant holds. -/
theorem Sound.prod (hm : Sound m w Idle Good) (hw : Prog.Mono w)
    (hstart : ∀ {t : Tid} {p : Prog Op Unit} {e : ε}, m.starts t p → IdleE e →
      p.wp (Prog.detWp ok next) (fun _ => IdleE) e)
    (hop : ∀ {s s' : σ} {ts : Tid → τ} {es : Tid → ε} {t : Tid} {γ : Type} {o : Op γ} {r : γ}
      {Q : γ → τ → Prop}, Good s ts → Extra s es → w γ o Q (ts t) → ok γ o (es t) →
        m.exec t γ o s = .done r s' → Extra s' (update es t (next γ o (es t)))) :
    Sound m (Prog.prodWp ok next w) (BothIdle Idle IdleE) (BothGood Good Extra) where
  start := by
    rintro t p ⟨a, e⟩ hp ⟨ha, he⟩
    exact Prog.wp_prod ok next hw p (hm.start hp ha) (hstart hp he)
  op := by
    rintro s s' ts t γ o r Q ⟨hgood, hextra⟩ hguard ⟨hok, hwp⟩ hexec
    obtain ⟨a, hQ, hgood'⟩ := hm.op hgood hguard hwp hexec
    refine ⟨(a, next γ o (ts t).2), hQ, ?_, ?_⟩
    · rwa [fst_update]
    · rw [snd_update]
      exact hop hgood hextra hwp hok hexec

omit [DecidableEq Tid] in
theorem Typed.prod (hw : Prog.Mono w) {c : Conf Tid Op σ} {es : Tid → ε}
    (h : Typed w Idle Good c ts)
    (he : ∀ t, (c.prog t).wp (Prog.detWp ok next) (fun _ => IdleE) (es t))
    (hextra : Extra c.st es) :
    Typed (Prog.prodWp ok next w) (BothIdle Idle IdleE) (BothGood Good Extra) c
      fun t => (ts t, es t) :=
  ⟨⟨h.good, hextra⟩, fun t => Prog.wp_prod ok next hw _ (h.wp t) (he t)⟩

end

/-! ## Running a schedule -/

inductive Act (Op : Type → Type) : Type 1
  | start (p : Prog Op Unit)
  | go

variable (exec : Tid → ∀ γ, Op γ → σ → Outcome γ σ) (lets : Tid → ∀ γ, Op γ → σ → Bool)

/-- Perform one entry of a schedule. A thread that has to wait, or that is not let through, stays
put, and so does a halted machine. -/
def Conf.act (c : Conf Tid Op σ) (t : Tid) : Act Op → Conf Tid Op σ
  | .start p =>
    match c.panicked, c.prog t with
    | none, .pure _ => { c with prog := update c.prog t p }
    | _, _ => c
  | .go =>
    match c.panicked, c.prog t with
    | none, .op o k =>
      if lets t _ o c.st then
        match exec t _ o c.st with
        | .done r s' => { c with st := s', prog := update c.prog t (k r) }
        | .blocked => c
        | .panic msg => { c with panicked := some msg }
      else c
    | _, _ => c

def Conf.sched (c : Conf Tid Op σ) (l : List (Tid × Act Op)) : Conf Tid Op σ :=
  l.foldl (fun c a => c.act exec lets a.1 a.2) c

variable {lets}

/-- A schedule that does not name a thread leaves its program alone. -/
theorem Conf.sched_prog_of_not_mem (c : Conf Tid Op σ) (l : List (Tid × Act Op))
    (hl : ∀ a ∈ l, a.1 ≠ t) : (c.sched exec lets l).prog t = c.prog t := by
  induction l generalizing c with
  | nil => rfl
  | cons a l ih =>
    have ht : t ≠ a.1 := (hl a (by simp)).symm
    refine (ih _ fun b hb => hl b (List.mem_cons_of_mem _ hb)).trans ?_
    obtain ⟨u, a⟩ := a
    cases a with
    | start p =>
      simp only [act]
      split
      · exact update_of_ne ht _ _
      · rfl
    | go =>
      simp only [act]
      split
      · split
        · split
          · exact update_of_ne ht _ _
          · rfl
          · rfl
        · rfl
      · rfl

theorem Reach.sched (hlets : ∀ t γ (o : Op γ) s, lets t γ o s = true → m.guard t γ o s)
    {c₀ c : Conf Tid Op σ} (h : Reach m c₀ c) (l : List (Tid × Act Op))
    (hl : ∀ t p, (t, Act.start p) ∈ l → m.starts t p) : Reach m c₀ (c.sched m.exec lets l) := by
  induction l generalizing c with
  | nil => exact h
  | cons a l ih =>
    obtain ⟨t, a⟩ := a
    refine ih ?_ (fun t p hp => hl t p (List.mem_cons_of_mem _ hp))
    cases a with
    | start p =>
      simp only [Conf.act]
      split
      next hrun hidle => exact .step t h (.start hrun hidle (hl t p (by simp)))
      · exact h
    | go =>
      simp only [Conf.act]
      split
      next hrun hprog =>
        split
        next hlet =>
          split
          next hexec => exact .step t h (.op hrun hprog (hlets _ _ _ _ hlet) hexec)
          · exact h
          next hexec => exact .step t h (.panic hrun hprog (hlets _ _ _ _ hlet) hexec)
        · exact h
      · exact h

end Pool

/-! ## One thread alone -/

namespace Prog

variable {Op : Type → Type} {α β σ : Type} (exec : ∀ γ, Op γ → σ → Outcome γ σ)

/-- Run a program to its end, with nobody else. -/
def finish : Prog Op α → σ → Outcome α σ
  | .pure a, s => .done a s
  | .op o k, s =>
    match exec _ o s with
    | .done r s' => finish (k r) s'
    | .blocked => .blocked
    | .panic msg => .panic msg

/-- The reading of the operations given by execution alone: `E` is asked of a panic. -/
def aloneWp (E : String → Prop) : ∀ γ, Op γ → (γ → σ → Prop) → σ → Prop :=
  fun γ o Q s => match exec γ o s with
    | .done r s' => Q r s'
    | .blocked => True
    | .panic msg => E msg

variable {exec}

theorem aloneWp_mono (E : String → Prop) : Mono (aloneWp exec E) := by
  intro γ o P Q s hPQ hP
  unfold aloneWp at hP ⊢
  generalize exec γ o s = r at hP ⊢
  cases r with
  | done r s' => exact hPQ r s' hP
  | blocked => trivial
  | panic msg => exact hP

/-- A program all of whose operations satisfy `P` moves along a preorder that every such operation
moves along, and its answers are those that the program text allows. -/
theorem wp_alone {P : ∀ γ, Op γ → Prop} {R : σ → σ → Prop} (hrefl : ∀ s, R s s)
    (htrans : ∀ s s' s'', R s s' → R s' s'' → R s s'')
    (hop : ∀ γ (o : Op γ) s r s', P γ o → exec γ o s = .done r s' → R s s') (p : Prog Op α)
    {Q : α → Prop} (h : p.wp (detWp (fun γ o (_ : Unit) => P γ o) fun _ _ e => e) (fun a _ => Q a) ())
    (s : σ) : p.wp (aloneWp exec fun _ => True) (fun a s' => Q a ∧ R s s') s := by
  induction p generalizing s with
  | pure a => exact ⟨h, hrefl s⟩
  | op o k ih =>
    simp only [wp_op, aloneWp]
    cases hexec : exec _ o s with
    | done r s' =>
      have hstep := hop _ o s r s' h.1 hexec
      exact wp_mono (aloneWp_mono _) _ (fun a s'' hs => ⟨hs.1, htrans _ _ _ hstep hs.2⟩)
        (ih r (h.2 r) s')
    | blocked | panic msg => trivial

theorem finish_of_wp {E : String → Prop} (p : Prog Op α) {Q : α → σ → Prop} {s : σ}
    (h : p.wp (aloneWp exec E) Q s) :
    (∀ a s', p.finish exec s = .done a s' → Q a s') ∧
      ∀ msg, p.finish exec s = .panic msg → E msg := by
  induction p generalizing s with
  | pure a =>
    refine ⟨fun a' s' he => ?_, by rintro _ ⟨⟩⟩
    cases he
    exact h
  | op o k ih =>
    simp only [wp_op, aloneWp, finish] at h ⊢
    generalize exec _ o s = r at h ⊢
    cases r with
    | done r s' => exact ih r h
    | blocked => exact ⟨by rintro _ _ ⟨⟩, by rintro _ ⟨⟩⟩
    | panic msg =>
      refine ⟨by rintro _ _ ⟨⟩, fun msg' he => ?_⟩
      cases he
      exact h

end Prog

end Xv6
