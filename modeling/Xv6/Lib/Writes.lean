import Mathlib.Tactic

/-!
# Stores and sequences of writes

A store maps every location to a value. A list of writes is applied in order, so a location holds
the last value written to it. Replaying a list of writes over a store in which a prefix of the same
list has already landed changes nothing more: this is what makes redo recovery repeatable.
-/

namespace Xv6

variable {κ ν : Type} [DecidableEq κ] {x : κ}

def writeAt (d : κ → ν) (w : κ × ν) : κ → ν := Function.update d w.1 w.2

def applyWrites (d : κ → ν) (ws : List (κ × ν)) : κ → ν := ws.foldl writeAt d

section

variable (d : κ → ν)
include d

@[simp] theorem applyWrites_nil : applyWrites d [] = d := rfl

@[simp] theorem applyWrites_cons (w : κ × ν) (ws : List (κ × ν)) :
    applyWrites d (w :: ws) = applyWrites (writeAt d w) ws := rfl

theorem applyWrites_append (ws vs : List (κ × ν)) :
    applyWrites d (ws ++ vs) = applyWrites (applyWrites d ws) vs := List.foldl_append

@[simp] theorem writeAt_fst (w : κ × ν) : writeAt d w w.1 = w.2 := by simp [writeAt]

@[simp] theorem writeAt_same (x : κ) (v : ν) : writeAt d (x, v) x = v := writeAt_fst d (x, v)

theorem writeAt_ne (w : κ × ν) (h : x ≠ w.1) : writeAt d w x = d x := by simp [writeAt, h]

theorem applyWrites_of_notMem (ws : List (κ × ν)) (h : x ∉ ws.map Prod.fst) :
    applyWrites d ws x = d x := by
  induction ws generalizing d with
  | nil => rfl
  | cons w ws ih =>
    simp only [List.map_cons, List.mem_cons, not_or] at h
    rw [applyWrites_cons, ih _ h.2, writeAt_ne _ _ h.1]

end

/-- What a written location holds does not depend on the store the writes start from. -/
theorem applyWrites_congr (ws : List (κ × ν)) {d e : κ → ν}
    (h : x ∈ ws.map Prod.fst ∨ d x = e x) : applyWrites d ws x = applyWrites e ws x := by
  induction ws generalizing d e with
  | nil => simpa using h
  | cons w ws ih =>
    apply ih
    by_cases hx : x = w.1
    · subst hx
      simp
    · rw [writeAt_ne _ _ hx, writeAt_ne _ _ hx]
      simpa [hx] using h

theorem applyWrites_of_sublist (d : κ → ν) {vs ws : List (κ × ν)} (h : vs.Sublist ws) :
    applyWrites (applyWrites d vs) ws = applyWrites d ws := by
  funext x
  apply applyWrites_congr
  by_cases hx : x ∈ vs.map Prod.fst
  · exact Or.inl ((h.map Prod.fst).subset hx)
  · exact Or.inr (applyWrites_of_notMem d vs hx)

theorem applyWrites_of_mem_nodup (d : κ → ν) {ws : List (κ × ν)}
    (hnd : (ws.map Prod.fst).Nodup) {w : κ × ν} (h : w ∈ ws) : applyWrites d ws w.1 = w.2 := by
  induction ws generalizing d with
  | nil => cases h
  | cons v ws ih =>
    simp only [List.map_cons, List.nodup_cons] at hnd
    rcases List.mem_cons.mp h with rfl | hw
    · rw [applyWrites_cons, applyWrites_of_notMem _ _ hnd.1, writeAt_fst]
    · exact ih _ hnd.2 hw

theorem applyWrites_map (d f : κ → ν) (xs : List κ) (x : κ) :
    applyWrites d (xs.map fun y => (y, f y)) x = if x ∈ xs then f x else d x := by
  induction xs generalizing d with
  | nil => simp
  | cons y ys ih =>
    rw [List.map_cons, applyWrites_cons, ih]
    by_cases hx : x = y
    · subst hx
      simp
    · rw [writeAt_ne _ _ hx]
      simp [hx]

end Xv6
