import Mathlib.Tactic

/-!
# Byte buffers of fixed length

A buffer is a function from its offsets to bytes. Multi-byte unsigned integers are stored in
little-endian order at any offset, with no alignment demanded. Reads past the end of the buffer
give zero and writes past its end are lost, so every accessor is total; the laws below ask for
the field to lie inside the buffer where that matters.
-/

namespace Xv6

/-- The instance that a membership test in a list of bytes uses. -/
instance lawfulBEqByte : LawfulBEq (BitVec 8) := inferInstance

abbrev Bytes (n : Nat) := Fin n → BitVec 8

namespace Bytes

variable {n doff m soff : Nat} (vs : List (BitVec 32)) (dst : Bytes n) (src : Bytes m)

def byte (b : Bytes n) (i : Nat) : BitVec 8 :=
  if h : i < n then b ⟨i, h⟩ else 0

/-- The buffer with the byte at offset `i` replaced. -/
def setByte (b : Bytes n) (i : Nat) (v : BitVec 8) : Bytes n :=
  fun j => if j.val = i then v else b j

/-- The `k`-byte little-endian integer at offset `off`. -/
def uint : Nat → Bytes n → Nat → Nat
  | 0, _, _ => 0
  | k + 1, b, off => (b.byte off).toNat + 256 * uint k b (off + 1)

/-- The buffer with the `k`-byte little-endian integer at `off` set to `v` (modulo `256 ^ k`). -/
def setUint : Nat → Bytes n → Nat → Nat → Bytes n
  | 0, b, _, _ => b
  | k + 1, b, off, v => setUint k (b.setByte off (BitVec.ofNat 8 v)) (off + 1) (v / 256)

/-- `len` bytes copied from offset `soff` of `src` to offset `doff` of `dst`. -/
def copy {m : Nat} (dst : Bytes n) (doff : Nat) (src : Bytes m) (soff len : Nat) : Bytes n :=
  fun j => if doff ≤ j.val ∧ j.val < doff + len then src.byte (soff + (j.val - doff)) else dst j

variable {b c : Bytes n} {i j k off off' len : Nat}

@[simp] theorem byte_setByte_same (b : Bytes n) (v : BitVec 8) (h : i < n) :
    (b.setByte i v).byte i = v := by
  simp [byte, setByte, h]

theorem byte_setByte_ne (b : Bytes n) (v : BitVec 8) (h : j ≠ i) :
    (b.setByte i v).byte j = b.byte j := by
  simp [byte, setByte, h]

theorem ext_byte (h : ∀ i < n, b.byte i = c.byte i) : b = c := by
  funext ⟨i, hi⟩
  simpa [byte, hi] using h i hi

theorem uint_congr (k : Nat) (b c : Bytes n) (off : Nat)
    (h : ∀ i < k, b.byte (off + i) = c.byte (off + i)) : uint k b off = uint k c off := by
  induction k generalizing off with
  | zero => rfl
  | succ k ih =>
    have h0 : b.byte off = c.byte off := by simpa using h 0 (by omega)
    have hs : uint k b (off + 1) = uint k c (off + 1) := by
      apply ih
      intro i hi
      have := h (i + 1) (by omega)
      rwa [show off + (i + 1) = off + 1 + i by omega] at this
    simp only [uint, h0, hs]

theorem byte_setUint_of_out (k : Nat) (b : Bytes n) (off v : Nat) (h : i < off ∨ off + k ≤ i) :
    (b.setUint k off v).byte i = b.byte i := by
  induction k generalizing b off v with
  | zero => rfl
  | succ k ih =>
    simp only [setUint]
    rw [ih _ _ _ (by omega), byte_setByte_ne _ _ (by omega)]

theorem byte_setUint_zero (b : Bytes n) (off : Nat) (h : off ≤ i) (h' : i < off + k) (hi : i < n) :
    (b.setUint k off 0).byte i = 0 := by
  induction k generalizing b off with
  | zero => omega
  | succ k ih =>
    simp only [setUint, Nat.zero_div]
    by_cases hoff : i = off
    · rw [hoff, byte_setUint_of_out _ _ _ _ (by omega), byte_setByte_same _ _ (hoff ▸ hi)]
      rfl
    · exact ih _ _ (by omega) (by omega)

theorem uint_setUint_disjoint {k' : Nat} (b : Bytes n) (v : Nat)
    (h : off' + k' ≤ off ∨ off + k ≤ off') : uint k' (b.setUint k off v) off' = uint k' b off' := by
  apply uint_congr
  intro i hi
  exact byte_setUint_of_out k b off v (by omega)

theorem uint_setUint_same (k : Nat) (b : Bytes n) (off v : Nat) (h : off + k ≤ n) :
    uint k (b.setUint k off v) off = v % 256 ^ k := by
  induction k generalizing b off v with
  | zero => simp [uint, Nat.mod_one]
  | succ k ih =>
    have hbyte : ((b.setByte off (BitVec.ofNat 8 v)).setUint k (off + 1) (v / 256)).byte off =
        BitVec.ofNat 8 v := by
      rw [byte_setUint_of_out _ _ _ _ (by omega), byte_setByte_same _ _ (by omega)]
    simp only [uint, setUint, hbyte, ih _ _ _ (show off + 1 + k ≤ n by omega)]
    have hpow : 256 ^ (k + 1) = 256 * 256 ^ k := by rw [Nat.pow_succ, Nat.mul_comm]
    rw [BitVec.toNat_ofNat, hpow, Nat.mod_mul]

theorem byte_copy_in (hi : i < len)
    (hn : doff + i < n) : (dst.copy doff src soff len).byte (doff + i) = src.byte (soff + i) := by
  simp [byte, copy, hn, hi]

/-- The bytes of a list stored from `off` on. -/
def blit (b : Bytes n) (off : Nat) (l : List (BitVec 8)) : Bytes n :=
  fun j => if off ≤ j.val ∧ j.val < off + l.length then l.getD (j.val - off) 0 else b j

theorem byte_blit (b : Bytes n) (off : Nat) (l : List (BitVec 8)) (h : i < n) :
    (b.blit off l).byte i =
      if off ≤ i ∧ i < off + l.length then l.getD (i - off) 0 else b.byte i := by
  simp [byte, blit, h]

/-! ## Words -/

def word16 (b : Bytes n) (off : Nat) : BitVec 16 := BitVec.ofNat 16 (b.uint 2 off)

def word32 (b : Bytes n) (off : Nat) : BitVec 32 := BitVec.ofNat 32 (b.uint 4 off)

theorem word16_setUint_same (b : Bytes n) (v : BitVec 16) (h : off + 2 ≤ n) :
    (b.setUint 2 off v.toNat).word16 off = v := by
  rw [word16, uint_setUint_same _ _ _ _ h, Nat.mod_eq_of_lt (by simpa using v.isLt)]
  simp

theorem word32_setUint_same (b : Bytes n) (v : BitVec 32) (h : off + 4 ≤ n) :
    (b.setUint 4 off v.toNat).word32 off = v := by
  rw [word32, uint_setUint_same _ _ _ _ h, Nat.mod_eq_of_lt (by simpa using v.isLt)]
  simp

theorem word16_congr (h : ∀ i, off ≤ i → i < off + 2 → b.byte i = c.byte i) :
    b.word16 off = c.word16 off := by
  rw [word16, word16, uint_congr 2 b c off fun i hi => h _ (by omega) (by omega)]

theorem word32_congr (h : ∀ i, off ≤ i → i < off + 4 → b.byte i = c.byte i) :
    b.word32 off = c.word32 off := by
  rw [word32, word32, uint_congr 4 b c off fun i hi => h _ (by omega) (by omega)]

/-- Consecutive 32-bit words from `off` on. -/
def putWords (b : Bytes n) (off : Nat) : List (BitVec 32) → Bytes n
  | [] => b
  | v :: vs => putWords (b.setUint 4 off v.toNat) (off + 4) vs

theorem byte_putWords_of_out (b : Bytes n) (off : Nat)
    (h : i < off ∨ off + 4 * vs.length ≤ i) : (b.putWords off vs).byte i = b.byte i := by
  induction vs generalizing b off with
  | nil => rfl
  | cons v vs ih =>
    simp only [List.length_cons] at h
    rw [putWords, ih _ _ (by omega), byte_setUint_of_out _ _ _ _ (by omega)]

theorem word32_putWords (b : Bytes n) (off : Nat) (hn : off + 4 * vs.length ≤ n)
    (hj : j < vs.length) : (b.putWords off vs).word32 (off + 4 * j) = vs[j] := by
  induction vs generalizing b off j with
  | nil => simp at hj
  | cons v vs ih =>
    simp only [List.length_cons] at hn hj
    cases j with
    | zero =>
      have hout : (putWords (b.setUint 4 off v.toNat) (off + 4) vs).word32 off =
          (b.setUint 4 off v.toNat).word32 off :=
        word32_congr fun i hi hi' => byte_putWords_of_out _ _ _ (.inl (by omega))
      simp only [putWords, Nat.mul_zero, Nat.add_zero, List.getElem_cons_zero]
      rw [hout, word32_setUint_same _ _ (by omega)]
    | succ j =>
      have := ih (b.setUint 4 off v.toNat) (off + 4) (by omega) (j := j) (by omega)
      rw [putWords, show off + 4 * (j + 1) = off + 4 + 4 * j by omega, this]
      rfl

theorem word16_setUint_ne (b : Bytes n) (v : Nat) (h : off + 2 ≤ off' ∨ off' + k ≤ off) :
    (b.setUint k off' v).word16 off = b.word16 off :=
  word16_congr fun _ _ _ => byte_setUint_of_out _ _ _ _ (by omega)

theorem word32_setUint_ne (b : Bytes n) (v : Nat) (h : off + 4 ≤ off' ∨ off' + k ≤ off) :
    (b.setUint k off' v).word32 off = b.word32 off :=
  word32_congr fun _ _ _ => byte_setUint_of_out _ _ _ _ (by omega)

theorem word16_putWords_ne (b : Bytes n) (vs : List (BitVec 32)) (h : off + 2 ≤ off') :
    (b.putWords off' vs).word16 off = b.word16 off :=
  word16_congr fun _ _ _ => byte_putWords_of_out _ _ _ (.inl (by omega))

theorem word32_putWords_ne (b : Bytes n) (vs : List (BitVec 32)) (h : off + 4 ≤ off') :
    (b.putWords off' vs).word32 off = b.word32 off :=
  word32_congr fun _ _ _ => byte_putWords_of_out _ _ _ (.inl (by omega))

/-- The buffer with `len` bytes from `off` on cleared. -/
def zero (b : Bytes n) (off len : Nat) : Bytes n :=
  fun j => if off ≤ j.val ∧ j.val < off + len then 0 else b j

theorem byte_zero_in (b : Bytes n) (h : off ≤ i) (h' : i < off + len) :
    (b.zero off len).byte i = 0 := by
  simp [byte, zero, h, h']

theorem byte_zero_out (b : Bytes n) (h : i < off ∨ off + len ≤ i) :
    (b.zero off len).byte i = b.byte i := by
  unfold byte zero
  split
  · rw [if_neg (by simp only; omega)]
  · rfl

theorem uint_eq_zero (k : Nat) (b : Bytes n) (off : Nat) (h : ∀ i < k, b.byte (off + i) = 0) :
    uint k b off = 0 := by
  induction k generalizing off with
  | zero => rfl
  | succ k ih =>
    have hs : uint k b (off + 1) = 0 := ih (off + 1) fun i hi => by
      have := h (i + 1) (by omega)
      rwa [show off + (i + 1) = off + 1 + i by omega] at this
    have h0 : b.byte off = 0 := by simpa using h 0 (by omega)
    simp [uint, hs, h0]

/-! ## Bits -/

/-- The mask that selects bit `i` in its byte. -/
def mask (i : Nat) : BitVec 8 := (1 : BitVec 8) <<< (i % 8)

def testBit (b : Bytes n) (i : Nat) : Bool := b.byte (i / 8) &&& mask i ≠ 0

def setBit (b : Bytes n) (i : Nat) : Bytes n := b.setByte (i / 8) (b.byte (i / 8) ||| mask i)

def clearBit (b : Bytes n) (i : Nat) : Bytes n := b.setByte (i / 8) (b.byte (i / 8) &&& ~~~mask i)

theorem testBit_eq (b : Bytes n) (i : Nat) : b.testBit i = (b.byte (i / 8)).getLsbD (i % 8) := by
  have hall : ∀ (k : Fin 8) (x : BitVec 8),
      decide (x &&& (1 : BitVec 8) <<< k.val ≠ 0) = x.getLsbD k.val := by
    decide +kernel
  exact hall ⟨i % 8, by omega⟩ (b.byte (i / 8))

theorem getLsbD_mask (i j : Nat) : (mask i).getLsbD (j % 8) = decide (i % 8 = j % 8) := by
  have hall : ∀ a c : Fin 8, ((1 : BitVec 8) <<< a.val).getLsbD c.val = decide (a.val = c.val) := by
    decide
  exact hall ⟨i % 8, by omega⟩ ⟨j % 8, by omega⟩

theorem testBit_setBit (b : Bytes n) (h : i / 8 < n) :
    (b.setBit i).testBit j = (b.testBit j || decide (i = j)) := by
  rw [testBit_eq, testBit_eq, setBit]
  by_cases hb : j / 8 = i / 8
  · have hij : i % 8 = j % 8 ↔ i = j := by omega
    rw [hb, byte_setByte_same _ _ h, BitVec.getLsbD_or, getLsbD_mask]
    simp [hij]
  · have hne : i ≠ j := fun e => hb (by rw [e])
    rw [byte_setByte_ne _ _ hb]
    simp [hne]

theorem testBit_clearBit (b : Bytes n) (h : i / 8 < n) :
    (b.clearBit i).testBit j = (b.testBit j && decide (i ≠ j)) := by
  rw [testBit_eq, testBit_eq, clearBit]
  by_cases hb : j / 8 = i / 8
  · have hij : i % 8 = j % 8 ↔ i = j := by omega
    rw [hb, byte_setByte_same _ _ h, BitVec.getLsbD_and, BitVec.getLsbD_not, getLsbD_mask]
    simp [hij, Nat.mod_lt]
  · have hne : i ≠ j := fun e => hb (by rw [e])
    rw [byte_setByte_ne _ _ hb]
    simp [hne]

end Bytes

end Xv6
