import Mathlib.Data.List.GetD
import Mathlib.Data.List.Nodup

/-!
# Singly linked lists

`Linked next stop l` says that following `next` from the first node of `l` visits the nodes of `l`
in order and arrives at `stop`; a circular list is one that stops at its own first node. A loop
that only moves on at the nodes of such a list gets to its end, `Linked.skip`.
-/

namespace Xv6

/-- Following `next` through the nodes `l` arrives at `stop`. -/
def Linked {α : Type} (next : α → α) (stop : α) : List α → Prop
  | [] => True
  | a :: l => next a = l.headD stop ∧ Linked next stop l

namespace Linked

variable {α : Type} {next next' : α → α} {stop a : α}

theorem append_iff {l m : List α} :
    Linked next stop (l ++ m) ↔ Linked next (m.headD stop) l ∧ Linked next stop m := by
  induction l with
  | nil => simp [Linked]
  | cons a l ih =>
    have hhead : (l ++ m).headD stop = l.headD (m.headD stop) := by cases l <;> rfl
    simp only [List.cons_append, Linked, ih, hhead, and_assoc]

theorem congr {l : List α} (h : Linked next stop l) (heq : ∀ a ∈ l, next' a = next a) :
    Linked next' stop l := by
  induction l with
  | nil => trivial
  | cons a l ih =>
    refine ⟨(heq a (by simp)).trans h.1, ih h.2 ?_⟩
    intro b hb
    exact heq b (List.mem_cons_of_mem a hb)

theorem rotate {l m : List α} {b : α} (h : Linked next a ((a :: l) ++ b :: m)) :
    Linked next b ((b :: m) ++ a :: l) := by
  obtain ⟨hl, hm⟩ := append_iff.mp h
  exact append_iff.mpr ⟨hm, hl⟩

theorem next_eq {l m : List α} (h : Linked next stop (l ++ a :: m)) : next a = m.headD stop :=
  (append_iff.mp h).2.1

theorem next_last {l : List α} (h : Linked next stop (a :: l)) : next (l.getLastD a) = stop := by
  induction l generalizing a with
  | nil => exact h.1
  | cons b l ih =>
    rw [List.getLastD_cons]
    exact ih h.2

/-- A loop over two variables, the node and the one before it, that only moves on at the nodes of
the list arrives behind them. -/
theorem skip₂ {γ : Type} {go : Nat → α → α → γ} {l : List α} (h : Linked next stop l)
    (hgo : ∀ n prev, ∀ a ∈ l, go (n + 1) prev a = go n a (next a)) (n : Nat) (prev : α) :
    go (l.length + n) prev (l.headD stop) = go n (l.getLastD prev) stop := by
  induction l generalizing prev with
  | nil => simp
  | cons a l ih =>
    have hlen : (a :: l).length + n = l.length + n + 1 := by simp only [List.length_cons]; omega
    rw [hlen, List.headD_cons, hgo _ _ a (by simp), h.1,
      ih h.2 (fun n prev b hb => hgo n prev b (List.mem_cons_of_mem a hb)), List.getLastD_cons]

/-- A loop that only moves on at the nodes of the list arrives behind them. -/
theorem skip {γ : Type} {go : Nat → α → γ} {l : List α} (h : Linked next stop l)
    (hgo : ∀ n, ∀ a ∈ l, go (n + 1) a = go n (next a)) (n : Nat) :
    go (l.length + n) (l.headD stop) = go n stop :=
  @skip₂ α next stop γ (fun n _ a => go n a) l h (fun n _ a ha => hgo n a ha) n stop

end Linked

end Xv6
