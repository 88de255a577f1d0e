import Mathlib.Data.BitVec
import Mathlib.Tactic

/-!
# Ring buffers with wrapping counters

A ring buffer has `N` slots and two counters of `w` bits, for the elements taken out and put in so
far; an element lies in the slot of its number modulo `N`. The counters wrap, so `N` has to divide
`2 ^ w`; it is less than `2 ^ w`, so that a full buffer differs from an empty one.
-/

namespace Xv6.RingBuffer

open BitVec (ofNat toNat_add ofNat_add)
open Function

variable {α : Type} {N w k : Nat} [NeZero N]

/-- The slot of the element with number `i`. -/
def slot (N : Nat) [NeZero N] (i : BitVec w) : Fin N := Fin.ofNat N i.toNat

/-- The elements between the two counters, oldest first. -/
def contents (data : Fin N → α) (nread nwrite : BitVec w) : List α :=
  (List.range (nwrite - nread).toNat).map fun k => data (slot N (nread + ofNat w k))

variable {data : Fin N → α} {nread nwrite : BitVec w}

@[simp] theorem length_contents : (contents data nread nwrite).length = (nwrite - nread).toNat := by
  simp [contents]

theorem toNat_sub_eq_zero_iff : (nwrite - nread).toNat = 0 ↔ nread = nwrite := by
  constructor
  · intro h
    have hzero : nwrite - nread = 0#w := BitVec.eq_of_toNat_eq (by simpa using h)
    exact (sub_eq_zero.mp hzero).symm
  · rintro rfl
    simp

theorem contents_eq_nil_iff : contents data nread nwrite = [] ↔ nread = nwrite := by
  rw [← List.length_eq_zero_iff, length_contents, toNat_sub_eq_zero_iff]

omit [NeZero N] in
theorem full_iff (hN : N < 2 ^ w) :
    nwrite = nread + ofNat w N ↔ (nwrite - nread).toNat = N := by
  have hn : (ofNat w N).toNat = N := by simp [Nat.mod_eq_of_lt hN]
  constructor
  · rintro rfl
    rw [BitVec.add_comm, BitVec.add_sub_cancel, hn]
  · intro h
    have hsub : nwrite - nread = ofNat w N := BitVec.eq_of_toNat_eq (by rw [h, hn])
    rw [← hsub, BitVec.add_comm, BitVec.sub_add_cancel]

theorem slot_add (hdvd : N ∣ 2 ^ w) (k : Nat) :
    (slot N (nread + ofNat w k)).val = (nread.toNat + k) % N := by
  simp only [slot, Fin.ofNat, toNat_add, BitVec.toNat_ofNat, Nat.add_mod_mod]
  exact Nat.mod_mod_of_dvd _ hdvd

omit [NeZero N] in
theorem add_ofNat_toNat_sub (nread nwrite : BitVec w) :
    nread + ofNat w (nwrite - nread).toNat = nwrite := by
  rw [BitVec.ofNat_toNat, BitVec.setWidth_eq, add_sub_cancel]

theorem slot_ne (hdvd : N ∣ 2 ^ w) (hroom : (nwrite - nread).toNat < N)
    (hk : k < (nwrite - nread).toNat) : slot N (nread + ofNat w k) ≠ slot N nwrite := by
  intro heq
  have hval := congrArg Fin.val heq
  rw [← add_ofNat_toNat_sub nread nwrite, slot_add hdvd, slot_add hdvd] at hval
  have hmod : k % N = (nwrite - nread).toNat % N := Nat.ModEq.add_left_cancel' nread.toNat hval
  rw [Nat.mod_eq_of_lt (hk.trans hroom), Nat.mod_eq_of_lt hroom] at hmod
  omega

section
variable (hN : N < 2 ^ w) (hroom : (nwrite - nread).toNat < N)
include hN hroom

theorem toNat_sub_push : (nwrite + 1#w - nread).toNat = (nwrite - nread).toNat + 1 := by
  have hone : (1#w).toNat = 1 := by exact Nat.mod_eq_of_lt (by have := NeZero.pos N; omega)
  rw [add_sub_right_comm, toNat_add, hone]
  exact Nat.mod_eq_of_lt (by omega)

omit hN in
theorem contents_update [DecidableEq (Fin N)] (hdvd : N ∣ 2 ^ w) (x : α) :
    contents (update data (slot N nwrite) x) nread nwrite = contents data nread nwrite := by
  refine List.map_congr_left fun k hk => ?_
  rw [update_of_ne (slot_ne hdvd hroom (List.mem_range.mp hk))]

theorem contents_succ :
    contents data nread (nwrite + 1#w) = contents data nread nwrite ++ [data (slot N nwrite)] := by
  unfold contents
  rw [toNat_sub_push hN hroom, List.range_succ, List.map_append, List.map_singleton,
    add_ofNat_toNat_sub]

theorem contents_push [DecidableEq (Fin N)] (hdvd : N ∣ 2 ^ w) (x : α) :
    contents (update data (slot N nwrite) x) nread (nwrite + 1#w) =
      contents data nread nwrite ++ [x] := by
  rw [contents_succ hN hroom, contents_update hroom hdvd, update_self]

end

theorem toNat_sub_pop (hne : nread ≠ nwrite) :
    (nwrite - (nread + 1#w)).toNat + 1 = (nwrite - nread).toNat := by
  have hpos : 0 < (nwrite - nread).toNat := by
    rw [Nat.pos_iff_ne_zero, Ne, toNat_sub_eq_zero_iff]
    exact hne
  have hone : (1#w).toNat = 1 := by exact Nat.mod_eq_of_lt (by omega)
  have hle : 1#w ≤ nwrite - nread := by
    rw [BitVec.le_def, hone]
    exact hpos
  rw [sub_add_eq_sub_sub, BitVec.toNat_sub_of_le hle, hone]
  omega

theorem contents_pop (hne : nread ≠ nwrite) :
    contents data nread nwrite = data (slot N nread) :: contents data (nread + 1#w) nwrite := by
  unfold contents
  rw [← toNat_sub_pop hne, List.range_succ_eq_map, List.map_cons, List.map_map]
  congr 1
  · simp
  · refine List.map_congr_left fun k _ => ?_
    simp only [comp_apply, Nat.succ_eq_add_one]
    rw [ofNat_add, BitVec.add_assoc, BitVec.add_comm (ofNat w k)]

theorem contents_drop (hk : k ≤ (contents data nread nwrite).length) :
    contents data (nread + ofNat w k) nwrite = (contents data nread nwrite).drop k := by
  induction k with
  | zero => rw [BitVec.add_zero, List.drop_zero]
  | succ k ih =>
    have ih := ih (by omega)
    have hne : nread + ofNat w k ≠ nwrite := fun h => by
      rw [contents_eq_nil_iff.mpr h, eq_comm, List.drop_eq_nil_iff] at ih
      omega
    rw [contents_pop hne] at ih
    rw [← List.tail_drop, ← ih, List.tail_cons, ofNat_add, BitVec.add_assoc]

end Xv6.RingBuffer
