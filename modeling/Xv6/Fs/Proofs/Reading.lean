import Xv6.Fs.Store

/-!
# Reading outside of a transaction

`fileread` and `namex` call `readi` without `begin_op` around it in many places. There `log_write`
panics, so a read must not make `bmap` allocate a block. It does not where the file has no hole.
-/

namespace Xv6

/-- A call of `fs.c` into the layers below, outside of a transaction. -/
def FOp.outside : ∀ γ, FOp γ → FWorld → Option γ × FWorld
  | _, .logWrite _, w => (none, { w with msg := some "log_write outside of trans" })
  | γ, o, w => FOp.exec γ o w

/-- Execution outside of a transaction that does not panic. -/
abbrev outsideWp := Prog.execWp FOp.outside fun _ => False

section

variable {w : FWorld} {b : Nat}

@[simp] theorem outsideWp_bread {Q : Block → FWorld → Prop} :
    outsideWp _ (.bread b) Q w ↔ Q (w.disk b) w := Iff.rfl

@[simp] theorem outsideWp_brelse {Q : Unit → FWorld → Prop} :
    outsideWp _ (.brelse b) Q w ↔ Q () w := Iff.rfl

end

variable {sb : Superblock} {w : FWorld} {n b bn : Nat} {Q : Nat × Dinode × Space → FWorld → Prop}

theorem Vol.data_of_entry {a : Nat} {j : Fin NINDIRECT}
    (h : blockRef (((vol sb w.disk).data a).word32 (4 * j.val)) = some b) :
    (vol sb w.disk).data a = w.disk a := by
  by_cases ha : sb.Data a
  · exact vol_data ha
  · have hzero : (vol sb w.disk).data a = fun _ => 0 := if_neg ha
    rw [hzero, Bytes.word32, Bytes.uint_eq_zero _ _ _ fun i _ => by simp [Bytes.byte]] at h
    cases h

theorem wp_bmap_outside (h : (vol sb w.disk).block n bn = some b)
    {Q : Nat × Dinode → FWorld → Prop} (hQ : Q (b, (vol sb w.disk).ino n) w) :
    (bmap sb ((vol sb w.disk).ino n) bn).wp outsideWp Q w := by
  unfold bmap
  split
  next hbn =>
    rw [Vol.block, Slot.ofBlock, dif_pos hbn] at h
    obtain ⟨hne, rfl⟩ := blockRef_eq_some.mp h
    rw [bmapSlot, if_neg hne]
    exact hQ
  next hbn =>
    split
    next hj =>
      rw [Vol.block, Slot.ofBlock, dif_neg hbn, dif_pos hj] at h
      have h : (vol sb w.disk).ref (.entry n ⟨bn - NDIRECT, hj⟩) = some b := h
      obtain ⟨a, ha, hb⟩ := Option.bind_eq_some_iff.mp h
      rw [Vol.data_of_entry hb] at hb
      obtain ⟨hane, rfl⟩ := blockRef_eq_some.mp ha
      obtain ⟨hbne, rfl⟩ := blockRef_eq_some.mp hb
      rw [bmapSlot, if_neg hane]
      simp only [Prog.pure_eq, Prog.pure_bind, Prog.lift_bind, Prog.wp_op, outsideWp_bread]
      rw [if_neg hbne]
      exact hQ
    next hj =>
      rw [Vol.block, Slot.ofBlock, dif_neg hbn, dif_neg hj] at h
      cases h

theorem wp_readLoop_outside (hwhole : (vol sb w.disk).Whole n) (hQ : ∀ r, Q r w) (fuel : Nat) :
    ∀ (sp : Space) (dst off tot len : Nat),
      off + (len - tot) ≤ ((vol sb w.disk).ino n).size.toNat →
      (readLoop sb fuel ((vol sb w.disk).ino n) sp dst off tot len).wp outsideWp Q w := by
  induction fuel with
  | zero => exact fun _ _ _ _ _ _ => hQ _
  | succ fuel ih =>
    intro sp dst off tot len hsize
    rw [readLoop]
    split
    · have hblock : (vol sb w.disk).block n (off / BSIZE) ≠ none := by
        apply hwhole
        have := Nat.div_mul_le_self off BSIZE
        omega
      obtain ⟨b, hb⟩ := Option.ne_none_iff_exists'.mp hblock
      rw [Prog.wp_bind]
      apply wp_bmap_outside hb
      simp only [Prog.lift_bind, Prog.wp_op, outsideWp_bread, outsideWp_brelse]
      split
      · apply ih
        omega
      · exact hQ _
    · exact hQ _

theorem readi_bound {off len size : BitVec 32}
    (h : ¬(size.toNat < off.toNat ∨ (off + len).toNat < off.toNat)) :
    off.toNat + ((if size.toNat < (off + len).toNat then size.toNat - off.toNat else len.toNat) - 0) ≤
      size.toNat := by
  split
  · omega
  · have hsum : (off + len).toNat = off.toNat + len.toNat := by
      rw [BitVec.toNat_add] at h ⊢
      omega
    omega

/-- `readi` of a file without holes, at any offset, does not panic and leaves the disk alone. -/
theorem wp_readi_outside (hwhole : (vol sb w.disk).Whole n) (sp : Space) (dst : Nat)
    (off len : BitVec 32) :
    (readi sb ((vol sb w.disk).ino n) sp dst off len).wp outsideWp (fun _ w' => w' = w) w := by
  unfold readi
  split
  · rfl
  next hoff =>
    exact wp_readLoop_outside (Q := fun _ w' => w' = w) hwhole (fun _ => rfl) _ sp dst _ _ _
      (readi_bound hoff)

/-! ## What is read -/

def Vol.byteAt (v : Vol) (n i : Nat) : Option (BitVec 8) :=
  (v.block n (i / BSIZE)).map fun b => (v.data b).byte (i % BSIZE)

/-- `len` bytes `g off`, `g (off + 1)` and so on at `dst` in kernel memory. -/
def putMem (mem : Nat → BitVec 8) (dst off len : Nat) (g : Nat → BitVec 8) : Nat → BitVec 8 :=
  fun a => if dst ≤ a ∧ a < dst + len then g (off + (a - dst)) else mem a

theorem putMem_putMem (mem : Nat → BitVec 8) (dst off len len' : Nat) (g : Nat → BitVec 8) :
    putMem (putMem mem dst off len g) (dst + len) (off + len) len' g =
      putMem mem dst off (len + len') g := by
  funext a
  simp only [putMem]
  by_cases ha : dst + len ≤ a ∧ a < dst + len + len'
  · rw [if_pos ha, if_pos (by omega)]
    congr 1
    omega
  · rw [if_neg ha]
    by_cases hb : dst ≤ a ∧ a < dst + len
    · rw [if_pos hb, if_pos (by omega)]
    · rw [if_neg hb, if_neg (by omega)]

theorem wp_readLoop_bytes (hdata : ∀ bn b, (vol sb w.disk).block n bn = some b → sb.Data b)
    (g : Nat → BitVec 8) (fuel : Nat) :
    ∀ (mem : Nat → BitVec 8) (dst off tot len : Nat), len - tot ≤ fuel → tot ≤ len →
      (∀ i < len - tot, (vol sb w.disk).byteAt n (off + i) = some (g (off + i))) →
      Q (len, (vol sb w.disk).ino n, .kernel (putMem mem dst off (len - tot) g)) w →
      (readLoop sb fuel ((vol sb w.disk).ino n) (.kernel mem) dst off tot len).wp outsideWp Q w := by
  induction fuel with
  | zero =>
    intro mem dst off tot len hfuel hle hbytes hQ
    have heq : tot = len := by omega
    have hmem : putMem mem dst off (len - tot) g = mem := by
      funext a
      rw [putMem, if_neg (by omega)]
    rw [hmem, ← heq] at hQ
    exact hQ
  | succ fuel ih =>
    intro mem dst off tot len hfuel hle hbytes hQ
    rw [readLoop]
    split
    next htot =>
      set m := min (len - tot) (BSIZE - off % BSIZE) with hm
      have hmod : off % BSIZE < BSIZE := Nat.mod_lt _ (by decide)
      obtain ⟨b, hb, -⟩ := Option.map_eq_some_iff.mp (hbytes 0 (by omega))
      rw [Nat.add_zero] at hb
      -- the bytes of this turn are in one block
      have hcopy : ∀ i < m, (w.disk b).byte (off % BSIZE + i) = g (off + i) := by
        intro i hi
        have hdiv : (off + i) / BSIZE = off / BSIZE := by
          have hsplit := Nat.div_add_mod off BSIZE
          apply Nat.div_eq_of_lt_le
          · rw [Nat.mul_comm]
            omega
          · rw [Nat.succ_mul, Nat.mul_comm]
            omega
        have hrem : (off + i) % BSIZE = off % BSIZE + i := by
          have h1 := Nat.div_add_mod off BSIZE
          have h2 := Nat.div_add_mod (off + i) BSIZE
          rw [hdiv] at h2
          omega
        have hbyte := hbytes i (by omega)
        rw [Vol.byteAt, hdiv, hb, hrem] at hbyte
        rw [← vol_data (s := w.disk) (hdata _ b hb)]
        exact Option.some.inj hbyte
      have hmem : (fun a => if dst ≤ a ∧ a < dst + m then
          (w.disk b).byte (off % BSIZE + (a - dst)) else mem a) = putMem mem dst off m g := by
        funext a
        by_cases ha : dst ≤ a ∧ a < dst + m
        · rw [if_pos ha, putMem, if_pos ha, hcopy _ (by omega)]
        · rw [if_neg ha, putMem, if_neg ha]
      rw [Prog.wp_bind]
      apply wp_bmap_outside hb
      simp only [Prog.lift_bind, Prog.wp_op, outsideWp_bread, outsideWp_brelse, eitherCopyout,
        if_true]
      rw [hmem]
      apply ih _ _ _ _ _ (by omega) (by omega)
      · intro i hi
        rw [Nat.add_assoc]
        exact hbytes (m + i) (by omega)
      · rw [putMem_putMem, show m + (len - (tot + m)) = len - tot by omega]
        exact hQ
    · have heq : tot = len := by omega
      have hmem : putMem mem dst off (len - tot) g = mem := by
        funext a
        rw [putMem, if_neg (by omega)]
      rw [hmem, ← heq] at hQ
      exact hQ

end Xv6
