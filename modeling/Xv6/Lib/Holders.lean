import Mathlib.Data.List.Perm.Basic

/-!
# Locks and their holders

A table says who holds each lock; on the other side every party has a list of the locks that it
holds. The two agree as long as parties take free locks and give up their own.
-/

namespace Xv6

open Function

variable {α C : Type}

/-- `held c` lists the locks that `c` holds by the table `lock`. -/
structure Holders (lock : α → Option C) (held : C → List α) : Prop where
  nodup : ∀ c, (held c).Nodup
  mem : ∀ {a c}, lock a = some c ↔ a ∈ held c

namespace Holders

variable {lock : α → Option C} {held : C → List α} {a : α} {c c' : C} {l : List α}

theorem eq_of_mem (h : Holders lock held) (hc : a ∈ held c) (hc' : a ∈ held c') : c = c' := by
  have := (h.mem.mpr hc).symm.trans (h.mem.mpr hc')
  exact Option.some.inj this

variable [DecidableEq α] [DecidableEq C]

theorem acquire (h : Holders lock held) (hfree : lock a = none) (hl : l.Perm (a :: held c)) :
    Holders (update lock a (some c)) (update held c l) := by
  have hnew : ∀ d, a ∉ held d := fun d hd => by simp [h.mem.mpr hd] at hfree
  refine ⟨fun d => ?_, fun {b d} => ?_⟩
  · by_cases hd : d = c
    · rw [hd, update_self, hl.nodup_iff]
      exact List.nodup_cons.mpr ⟨hnew c, h.nodup c⟩
    · rw [update_of_ne hd]
      exact h.nodup d
  · by_cases hb : b = a
    · by_cases hd : d = c
      · simp [hb, hd, hl.mem_iff]
      · simp [hb, update_of_ne hd, hnew d, Ne.symm hd]
    · rw [update_of_ne hb, h.mem]
      by_cases hd : d = c
      · simp [hd, hl.mem_iff, hb]
      · rw [update_of_ne hd]

theorem release (h : Holders lock held) (hl : held c = a :: l) :
    Holders (update lock a none) (update held c l) := by
  have hnodup : a ∉ l ∧ l.Nodup := List.nodup_cons.mp (hl ▸ h.nodup c)
  refine ⟨fun d => ?_, fun {b d} => ?_⟩
  · by_cases hd : d = c
    · rw [hd, update_self]
      exact hnodup.2
    · rw [update_of_ne hd]
      exact h.nodup d
  · by_cases hb : b = a
    · subst hb
      by_cases hd : d = c
      · simp [hd, hnodup.1]
      · have hnot : b ∉ held d := fun hmem => hd (h.eq_of_mem hmem (by simp [hl]))
        simp [update_of_ne hd, hnot]
    · rw [update_of_ne hb, h.mem]
      by_cases hd : d = c
      · simp [hd, hl, hb]
      · rw [update_of_ne hd]

end Holders

end Xv6
