import Mathlib.Tactic

/-!
# Resources owned by slots

A pool of resources with a mark for each one in use. A resource in use is named by one slot, or is
in a list of those that have been taken from the pool or from a slot and not yet passed on.
-/

namespace Xv6

open List (mem_cons nodup_cons mem_cons_of_mem mem_cons_self)
open Function

variable {ρ σ : Type}

/-- Every resource of `dom` in use has one owner: the slot that `ref`s to it or the list `pend`. -/
structure Owned (dom : ρ → Prop) (used : ρ → Bool) (ref : σ → Option ρ) (pend : List ρ) :
    Prop where
  dom_ref : ∀ {x b}, ref x = some b → dom b
  inj : ∀ {x y b}, ref x = some b → ref y = some b → x = y
  dom_pend : ∀ b ∈ pend, dom b
  nodup : pend.Nodup
  apart : ∀ b ∈ pend, ∀ x, ref x ≠ some b
  used_iff : ∀ b, dom b → (used b = true ↔ (∃ x, ref x = some b) ∨ b ∈ pend)

namespace Owned

variable {dom : ρ → Prop} {used : ρ → Bool} {ref : σ → Option ρ} {pend : List ρ} {b : ρ} {x : σ}

section
variable (h : Owned dom used ref pend)
include h

theorem used_ref (hx : ref x = some b) : used b = true :=
  (h.used_iff b (h.dom_ref hx)).mpr (.inl ⟨x, hx⟩)

theorem used_pend (hb : b ∈ pend) : used b = true := (h.used_iff b (h.dom_pend b hb)).mpr (.inr hb)

theorem ref_ne_of_unused (hb : used b = false) (x : σ) : ref x ≠ some b := by
  intro hx
  simp [h.used_ref hx] at hb

omit h in
theorem used_iff_unique (h : Owned dom used ref []) (hb : dom b) :
    used b = true ↔ ∃! x, ref x = some b := by
  rw [h.used_iff b hb]
  constructor
  · rintro (⟨x, hx⟩ | hmem)
    · exact ⟨x, hx, fun y hy => h.inj hy hx⟩
    · cases hmem
  · rintro ⟨x, hx, -⟩
    exact .inl ⟨x, hx⟩

theorem alloc [DecidableEq ρ] (hb : dom b) (hu : used b = false) :
    Owned dom (update used b true) ref (b :: pend) where
  dom_ref := h.dom_ref
  inj := h.inj
  dom_pend := by
    intro c hc
    rcases mem_cons.mp hc with rfl | hc
    · exact hb
    · exact h.dom_pend c hc
  nodup := nodup_cons.mpr ⟨fun hmem => by simp [h.used_pend hmem] at hu, h.nodup⟩
  apart := by
    intro c hc
    rcases mem_cons.mp hc with rfl | hc
    · exact h.ref_ne_of_unused hu
    · exact h.apart c hc
  used_iff := by
    intro c hc
    by_cases hcb : c = b
    · simp [hcb]
    · rw [update_of_ne hcb, h.used_iff c hc]
      simp [hcb]

omit h in
theorem free [DecidableEq ρ] (h : Owned dom used ref (b :: pend)) :
    Owned dom (update used b false) ref pend where
  dom_ref := h.dom_ref
  inj := h.inj
  dom_pend := fun c hc => h.dom_pend c (mem_cons_of_mem _ hc)
  nodup := h.nodup.of_cons
  apart := fun c hc => h.apart c (mem_cons_of_mem _ hc)
  used_iff := by
    intro c hc
    by_cases hcb : c = b
    · subst hcb
      have hx : ¬ ∃ x, ref x = some c := fun ⟨x, hx⟩ => h.apart c (mem_cons_self ..) x hx
      have hp : c ∉ pend := (nodup_cons.mp h.nodup).1
      simp [hx, hp]
    · rw [update_of_ne hcb, h.used_iff c hc]
      simp [hcb]

omit h in
theorem attach [DecidableEq σ] (h : Owned dom used ref (b :: pend)) (hx : ref x = none) :
    Owned dom used (update ref x (some b)) pend where
  dom_ref := by
    intro y c hy
    by_cases hyx : y = x
    · subst hyx
      obtain rfl : b = c := by simpa using hy
      exact h.dom_pend b (mem_cons_self ..)
    · exact h.dom_ref (by rwa [update_of_ne hyx] at hy)
  inj := by
    intro y z c hy hz
    have hb := h.apart b (mem_cons_self ..)
    by_cases hyx : y = x <;> by_cases hzx : z = x
    · rw [hyx, hzx]
    · subst hyx
      obtain rfl : b = c := by simpa using hy
      exact absurd (by rwa [update_of_ne hzx] at hz) (hb z)
    · subst hzx
      obtain rfl : b = c := by simpa using hz
      exact absurd (by rwa [update_of_ne hyx] at hy) (hb y)
    · rw [update_of_ne hyx] at hy
      rw [update_of_ne hzx] at hz
      exact h.inj hy hz
  dom_pend := fun c hc => h.dom_pend c (mem_cons_of_mem _ hc)
  nodup := h.nodup.of_cons
  apart := by
    intro c hc y
    by_cases hyx : y = x
    · subst hyx
      have hne : b ≠ c := fun e => (nodup_cons.mp h.nodup).1 (e ▸ hc)
      simpa using hne
    · rw [update_of_ne hyx]
      exact h.apart c (mem_cons_of_mem _ hc) y
  used_iff := by
    intro c hc
    rw [h.used_iff c hc]
    by_cases hcb : c = b
    · subst hcb
      simp only [mem_cons, true_or, or_true, true_iff]
      exact .inl ⟨x, by simp⟩
    have hslot : (∃ y, update ref x (some b) y = some c) ↔ ∃ y, ref y = some c := by
      constructor
      · rintro ⟨y, hy⟩
        by_cases hyx : y = x
        · subst hyx
          exact absurd (by simpa using hy) (Ne.symm hcb)
        · exact ⟨y, by rwa [update_of_ne hyx] at hy⟩
      · rintro ⟨y, hy⟩
        have hyx : y ≠ x := fun e => by simp [e, hx] at hy
        exact ⟨y, by rwa [update_of_ne hyx]⟩
    rw [hslot]
    simp [hcb]

theorem detach [DecidableEq σ] (hx : ref x = some b) :
    Owned dom used (update ref x none) (b :: pend) := by
  have hsub : ∀ {y c}, update ref x none y = some c → y ≠ x ∧ ref y = some c := by
    intro y c hy
    by_cases hyx : y = x
    · simp [hyx] at hy
    · exact ⟨hyx, by rwa [update_of_ne hyx] at hy⟩
  refine ⟨fun hy => h.dom_ref (hsub hy).2, fun hy hz => h.inj (hsub hy).2 (hsub hz).2, ?_, ?_, ?_,
    ?_⟩
  · intro c hc
    rcases mem_cons.mp hc with rfl | hc
    · exact h.dom_ref hx
    · exact h.dom_pend c hc
  · exact nodup_cons.mpr ⟨fun hmem => h.apart b hmem x hx, h.nodup⟩
  · intro c hc y hy
    rcases mem_cons.mp hc with rfl | hc
    · exact (hsub hy).1 (h.inj (hsub hy).2 hx)
    · exact h.apart c hc y (hsub hy).2
  · intro c hc
    rw [h.used_iff c hc]
    constructor
    · rintro (⟨y, hy⟩ | hmem)
      · by_cases hyx : y = x
        · subst hyx
          obtain rfl : b = c := by simpa [hx] using hy
          exact .inr (mem_cons_self ..)
        · exact .inl ⟨y, by rwa [update_of_ne hyx]⟩
      · exact .inr (mem_cons_of_mem _ hmem)
    · rintro (⟨y, hy⟩ | hmem)
      · exact .inl ⟨y, (hsub hy).2⟩
      · rcases mem_cons.mp hmem with rfl | hmem
        · exact .inl ⟨x, hx⟩
        · exact .inr hmem

theorem detachList [DecidableEq σ] (xs : List σ) :
    xs.Nodup → Owned dom used (fun y => if y ∈ xs then none else ref y)
      (xs.filterMap ref ++ pend) := by
  induction xs with
  | nil => simpa using h
  | cons x xs ih =>
    intro hnd
    obtain ⟨hx, hnd⟩ := nodup_cons.mp hnd
    have hrest := ih hnd
    have hfun : (fun y => if y ∈ x :: xs then none else ref y) =
        update (fun y => if y ∈ xs then none else ref y) x none := by
      funext y
      by_cases hyx : y = x <;> simp [hyx]
    rw [hfun]
    cases hrx : ref x with
    | none =>
      rw [update_eq_self_iff.mpr (by simp [hx, hrx])]
      simpa [hrx] using hrest
    | some b =>
      have := hrest.detach (x := x) (b := b) (by simp [hx, hrx])
      simpa [hrx] using this

end

end Owned

end Xv6
