import Xv6.Str.Memmove
import Mathlib.Tactic

/-!
# Overlapping moves

A copy loop is right if it never overwrites a byte that it has yet to read. The direction that
either `memmove` chooses is such a one, and so they agree.
-/

namespace Xv6.Str

open Function

/-- `m'` has at `dst` the `n` bytes that `m` has at `src`, and is `m` elsewhere. -/
structure Moved (m : Mem) (dst src : BitVec 64) (n : Nat) (m' : Mem) : Prop where
  copied : ∀ i < n, m' (dst + .ofNat 64 i) = m (src + .ofNat 64 i)
  kept : ∀ a, (∀ i < n, a ≠ dst + .ofNat 64 i) → m' a = m a

variable {dst src p : BitVec 64}

variable {m : Mem} {n : Nat}

theorem Moved.unique {m₁ m₂ : Mem}
    (h₁ : Moved m dst src n m₁) (h₂ : Moved m dst src n m₂) : m₁ = m₂ := by
  funext a
  by_cases ha : ∃ i < n, a = dst + .ofNat 64 i
  · obtain ⟨i, hi, rfl⟩ := ha
    rw [h₁.copied i hi, h₂.copied i hi]
  · have hout : ∀ i < n, a ≠ dst + .ofNat 64 i := fun i hi heq => ha ⟨i, hi, heq⟩
    rw [h₁.kept a hout, h₂.kept a hout]

/-! ## Pointers -/

theorem add_succ (p : BitVec 64) (i : Nat) : p + .ofNat 64 (i + 1) = p + 1 + .ofNat 64 i := by
  rw [Nat.add_comm, BitVec.ofNat_add, ← BitVec.add_assoc]
  rfl

theorem add_succ_sub (p : BitVec 64) (i : Nat) : p + .ofNat 64 (i + 1) - 1 = p + .ofNat 64 i := by
  rw [BitVec.ofNat_add, ← BitVec.add_assoc]
  exact BitVec.add_sub_cancel ..

theorem toNat_add_ofNat {i : Nat} (h : p.toNat + i < 2 ^ 64) :
    (p + .ofNat 64 i).toNat = p.toNat + i := by
  rw [BitVec.toNat_add, BitVec.toNat_ofNat, Nat.add_mod_mod, Nat.mod_eq_of_lt h]

/-- Places that are apart as numbers are apart as pointers. -/
theorem add_ne_add {q : BitVec 64} {i j : Nat} (hi : p.toNat + i < 2 ^ 64)
    (hj : q.toNat + j < 2 ^ 64) (hne : p.toNat + i ≠ q.toNat + j) :
    p + .ofNat 64 i ≠ q + .ofNat 64 j := by
  intro heq
  have := congrArg BitVec.toNat heq
  rw [toNat_add_ofNat hi, toNat_add_ofNat hj] at this
  exact hne this

/-! ## The loops -/

section
variable (hinj : ∀ i j, i < j → j < n → dst + .ofNat 64 i ≠ dst + .ofNat 64 j)
include hinj

theorem copyUp_moved (hlater : ∀ i j, i < j → j < n → dst + .ofNat 64 i ≠ src + .ofNat 64 j) :
    Moved m dst src n (copyUp n m dst src) := by
  induction n generalizing m dst src with
  | zero => exact ⟨nofun, fun _ _ => rfl⟩
  | succ n ih =>
    have ih : Moved _ (dst + 1) (src + 1) n _ := ih
      (m := update m dst (m src))
      (fun i j hij hj => by
        rw [← add_succ, ← add_succ]
        exact hinj _ _ (by omega) (by omega))
      (fun i j hij hj => by
        rw [← add_succ, ← add_succ]
        exact hlater _ _ (by omega) (by omega))
    refine ⟨fun i hi => ?_, fun a ha => ?_⟩
    · cases i with
      | zero =>
        -- the byte that is copied first is not written again
        have hfirst : ∀ j < n, dst ≠ dst + 1 + .ofNat 64 j := fun j hj => by
          rw [← add_succ]
          simpa using hinj 0 (j + 1) (by omega) (by omega)
        rw [copyUp, BitVec.add_zero, BitVec.add_zero, ih.kept dst hfirst, update_self]
      | succ i =>
        have hread : src + .ofNat 64 (i + 1) ≠ dst := by
          simpa using (hlater 0 (i + 1) (by omega) hi).symm
        have hi := ih.copied i (by omega)
        rw [← add_succ, ← add_succ, update_of_ne hread] at hi
        exact hi
    · have hfirst : a ≠ dst := by simpa using ha 0 (by omega)
      have hrest := ih.kept a fun i hi => by
        rw [← add_succ]
        exact ha (i + 1) (by omega)
      rw [update_of_ne hfirst] at hrest
      exact hrest

theorem copyDown_moved (hlater : ∀ i j, j < i → i < n → dst + .ofNat 64 i ≠ src + .ofNat 64 j) :
    Moved m dst src n (copyDown n m (dst + .ofNat 64 n) (src + .ofNat 64 n)) := by
  induction n generalizing m with
  | zero => exact ⟨nofun, fun _ _ => rfl⟩
  | succ n ih =>
    rw [copyDown, add_succ_sub, add_succ_sub]
    have ih := ih (m := update m (dst + .ofNat 64 n) (m (src + .ofNat 64 n)))
      (fun i j hij hj => hinj i j hij (by omega)) fun i j hij hi => hlater i j hij (by omega)
    refine ⟨fun i hi => ?_, fun a ha => ?_⟩
    · by_cases hn : i = n
      · rw [hn, ih.kept _ fun j hj => (hinj j n hj (by omega)).symm, update_self]
      · have hlt : i < n := by omega
        rw [ih.copied i hlt, update_of_ne (hlater n i hlt (by omega)).symm]
    · rw [ih.kept a fun i hi => ha i (by omega), update_of_ne (ha n (by omega))]

end

/-! ## `memmove` -/

section
variable {n : BitVec 32} (hd : dst.toNat + n.toNat ≤ 2 ^ 64)
  (hs : src.toNat + n.toNat ≤ 2 ^ 64)
include hd hs

theorem copyUp_of_le (h : dst.toNat ≤ src.toNat ∨ src.toNat + n.toNat ≤ dst.toNat) :
    Moved m dst src n.toNat (copyUp n.toNat m dst src) :=
  copyUp_moved (fun i j hij hj => add_ne_add (by omega) (by omega) (by omega))
    fun i j hij hj => add_ne_add (by omega) (by omega) (by omega)

theorem copyDown_of_le (h : src.toNat ≤ dst.toNat) : Moved m dst src n.toNat
    (copyDown n.toNat m (dst + .ofNat 64 n.toNat) (src + .ofNat 64 n.toNat)) :=
  copyDown_moved (fun i j hij hj => add_ne_add (by omega) (by omega) (by omega))
    fun i j hij hi => add_ne_add (by omega) (by omega) (by omega)

theorem memmove_moved : Moved m dst src n.toNat (memmove m dst src n) := by
  rw [memmove, ← BitVec.ofNat_toNat]
  split
  next hover => exact copyDown_of_le hd hs (Nat.le_of_lt hover.1)
  next hapart =>
    refine copyUp_of_le hd hs ?_
    by_contra hno
    -- below `dst` the end of the source does not wrap around
    have hend : (src + .ofNat 64 n.toNat).toNat = src.toNat + n.toNat := toNat_add_ofNat (by omega)
    refine hapart ⟨BitVec.lt_def.mpr (by omega), BitVec.lt_def.mpr ?_⟩
    rw [hend]
    omega

theorem memmoveUser_moved (hn : n.toNat < 2 ^ 31) :
    Moved m dst src n.toNat (memmoveUser m dst src n) := by
  have hint : n.toInt = n.toNat := BitVec.toInt_eq_toNat_of_lt (by omega)
  have hmsb : n.msb = false := BitVec.msb_eq_false_iff_two_mul_lt.mpr (by omega)
  rw [memmoveUser, hint, Int.toNat_natCast, BitVec.signExtend_eq_setWidth_of_msb_false hmsb,
    ← BitVec.ofNat_toNat]
  split
  next hup => exact copyUp_of_le hd hs (.inl (Nat.le_of_lt hup))
  next hdown => exact copyDown_of_le hd hs (Nat.le_of_not_lt hdown)

end

/-- Both functions move the bytes whatever the overlap, and so they agree. -/
theorem memmove_correct (m : Mem) (dst src : BitVec 64) (n : BitVec 32) (hn : n.toNat < 2 ^ 31)
    (hd : dst.toNat + n.toNat ≤ 2 ^ 64) (hs : src.toNat + n.toNat ≤ 2 ^ 64) :
    Moved m dst src n.toNat (memmove m dst src n) ∧
      Moved m dst src n.toNat (memmoveUser m dst src n) ∧
      memmove m dst src n = memmoveUser m dst src n :=
  have hkernel := memmove_moved hd hs
  have huser := memmoveUser_moved hd hs hn
  ⟨hkernel, huser, hkernel.unique huser⟩

/-- A move by one byte to the end of the address space. -/
theorem memmove_correct_top :
    let m : Mem := fun a => a.truncate 8
    memmove m (-3) (-4) 3 = memmoveUser m (-3) (-4) 3 ∧
      memmove m (-3) (-4) 3 (-1) = m (-2) := by
  refine ⟨(memmove_correct _ (-3) (-4) 3 (by decide) (by decide) (by decide)).2.2, ?_⟩
  exact (memmove_correct _ (-3) (-4) 3 (by decide) (by decide) (by decide)).1.copied 2 (by decide)

end Xv6.Str
