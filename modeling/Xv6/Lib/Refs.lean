import Mathlib.Data.Fintype.BigOperators
import Mathlib.Algebra.Order.BigOperators.Group.Finset

/-!
# Counted references

Objects carry a count, and parties hold references to them. The count of an object is the number of
references that the parties hold together.
-/

namespace Xv6

open Function (update_of_ne update_self)

variable {α T : Type} [BEq α] [Fintype T] {count' : α → Nat} {l : List α}

/-- `count a` is the number of references to `a` in the lists of all parties. -/
def RefCounted (count : α → Nat) (refs : T → List α) : Prop :=
  ∀ a, count a = ∑ t, (refs t).count a

namespace RefCounted

variable {count : α → Nat} {refs : T → List α} {a b : α} {t u : T}

theorem le (h : RefCounted count refs) (t : T) (a : α) : (refs t).count a ≤ count a := by
  rw [h a]
  exact Finset.single_le_sum (f := fun t => (refs t).count a) (fun _ _ => Nat.zero_le _)
    (Finset.mem_univ t)

theorem congr {refs' : T → List α} (h : RefCounted count refs)
    (hcount : ∀ a, count' a = count a) (hrefs : ∀ t, refs' t = refs t) : RefCounted count' refs' := by
  intro a
  simp only [hcount, hrefs]
  exact h a

variable [DecidableEq T]

section
variable (h : RefCounted count refs)
include h

theorem add_le (htu : t ≠ u) (a : α) : (refs t).count a + (refs u).count a ≤ count a := by
  rw [h a, ← Finset.sum_pair htu (f := fun t => (refs t).count a)]
  exact Finset.sum_le_sum_of_subset (Finset.subset_univ _)

theorem update (hcount : ∀ b, count' b + (refs t).count b = count b + l.count b) :
    RefCounted count' (Function.update refs t l) := by
  intro b
  have hold := Finset.add_sum_erase Finset.univ (fun u => (refs u).count b) (Finset.mem_univ t)
  have hnew := Finset.add_sum_erase Finset.univ
    (fun u => (Function.update refs t l u).count b) (Finset.mem_univ t)
  have hrest : ∑ u ∈ Finset.univ.erase t, (Function.update refs t l u).count b =
      ∑ u ∈ Finset.univ.erase t, (refs u).count b := by
    refine Finset.sum_congr rfl fun u hu => ?_
    rw [update_of_ne (Finset.ne_of_mem_erase hu)]
  have hb := hcount b
  rw [h b] at hb
  simp only [update_self] at hnew
  omega

theorem same (hl : l = refs t) : RefCounted count (Function.update refs t l) := by
  rw [hl, Function.update_eq_self]
  exact h

theorem moveAll (hne : u ≠ t) :
    RefCounted count (Function.update (Function.update refs t []) u (refs t ++ refs u)) := by
  have hdrop : RefCounted (fun b => count b - (refs t).count b) (Function.update refs t []) := by
    refine h.update fun b => ?_
    have hle := h.le t b
    simp only [List.count_nil]
    omega
  refine hdrop.update fun b => ?_
  have hle := h.le t b
  rw [update_of_ne hne, List.count_append]
  omega

end

variable [LawfulBEq α]

omit [DecidableEq T] in
theorem pos (h : RefCounted count refs) (ha : a ∈ refs t) : 0 < count a :=
  (List.count_pos_iff.mpr ha).trans_le (h.le t a)

/-- Who holds the only reference holds it once, and nobody else holds one. -/
theorem last (h : RefCounted count refs) (hone : count a = 1) (ht : a ∈ refs t) :
    (refs t).count a = 1 ∧ ∀ u, u ≠ t → a ∉ refs u := by
  have hpos := List.count_pos_iff.mpr ht
  refine ⟨Nat.le_antisymm ((h.le t a).trans hone.le) hpos, fun u hu hmem => ?_⟩
  have hpos' := List.count_pos_iff.mpr hmem
  have := h.add_le hu a
  omega

variable [DecidableEq α]

variable (h : RefCounted count refs)
include h

theorem take (t : T) (a : α) :
    RefCounted (Function.update count a (count a + 1)) (Function.update refs t (a :: refs t)) := by
  refine h.update fun b => ?_
  by_cases hb : b = a
  · subst hb
    rw [update_self, List.count_cons_self]
    omega
  · rw [update_of_ne hb, List.count_cons_of_ne (Ne.symm hb)]

theorem drop (ha : a ∈ refs t) :
    RefCounted (Function.update count a (count a - 1)) (Function.update refs t ((refs t).erase a)) := by
  have hpos := List.count_pos_iff.mpr ha
  have hle := h.le t a
  refine h.update fun b => ?_
  by_cases hb : b = a
  · subst hb
    rw [update_self, List.count_erase_self]
    omega
  · rw [update_of_ne hb, List.count_erase_of_ne hb]

theorem first (t : T) (hzero : count a = 0) :
    RefCounted (Function.update count a 1) (Function.update refs t (a :: refs t)) := by
  have := h.take t a
  rwa [hzero] at this

theorem move (ha : a ∈ refs t) (hne : u ≠ t) :
    RefCounted count (Function.update (Function.update refs t ((refs t).erase a)) u (a :: refs u)) := by
  have hpos := h.pos ha
  have hmoved := (h.drop ha).take u a
  rw [update_of_ne hne, update_self, Function.update_idem] at hmoved
  rwa [Nat.sub_add_cancel hpos, Function.update_eq_self] at hmoved

end RefCounted

end Xv6
