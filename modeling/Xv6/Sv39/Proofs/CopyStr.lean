import Xv6.Sv39.Proofs.Copy

/-!
# `copyinstr`

The string that is copied is the one that the user has at the address, if it ends within the bound.
-/

namespace Xv6.Sv39

def userByte (m : PhysMem) (root : BitVec 64) (a : Nat) : Option (BitVec 8) :=
  (translate m root a).map (getByte m)

/-- The user has a string of `k` bytes at `a`. -/
def StringAt (m : PhysMem) (root : BitVec 64) (a k : Nat) : Prop :=
  (∀ i < k, ∃ b ≠ 0, userByte m root (a + i) = some b) ∧ userByte m root (a + k) = some 0

/-- Read bytes, up to a NUL or the first that is not accessible. -/
def readString (m : PhysMem) (root : BitVec 64) : Nat → Nat → Bool × List (BitVec 8)
  | _, 0 => (false, [])
  | a, n + 1 =>
    match userByte m root a with
    | none => (false, [])
    | some b =>
      if b = 0 then (true, [0])
      else
        let (ok, bs) := readString m root (a + 1) n
        (ok, b :: bs)

section

variable {m : PhysMem} {root va : BitVec 64} {a k n : Nat}

/-! ## One string -/

theorem StringAt.zero_iff : StringAt m root a 0 ↔ userByte m root a = some 0 :=
  ⟨fun h => h.2, fun h => ⟨fun i hi => absurd hi (Nat.not_lt_zero i), h⟩⟩

theorem StringAt.succ_iff :
    StringAt m root a (k + 1) ↔ (∃ b ≠ 0, userByte m root a = some b) ∧ StringAt m root (a + 1) k := by
  have hshift : ∀ i, a + 1 + i = a + (i + 1) := fun i => by omega
  constructor
  · rintro ⟨hall, hend⟩
    refine ⟨hall 0 (by omega), fun i hi => ?_, ?_⟩
    · rw [hshift]
      exact hall (i + 1) (by omega)
    · rwa [hshift]
  · rintro ⟨hfirst, hall, hend⟩
    refine ⟨fun i hi => ?_, by rwa [← hshift]⟩
    cases i with
    | zero => exact hfirst
    | succ i =>
      rw [← hshift]
      exact hall i (by omega)

theorem readString_length (m : PhysMem) (root : BitVec 64) (a n : Nat) :
    (readString m root a n).2.length ≤ n := by
  induction n generalizing a with
  | zero => exact Nat.le_refl 0
  | succ n ih =>
    rw [readString]
    split
    · exact Nat.zero_le _
    · split_ifs with hb
      · exact Nat.succ_le_succ (Nat.zero_le n)
      · exact Nat.succ_le_succ (ih (a + 1))

theorem readString_iff : (readString m root a n).1 = true ↔ ∃ k < n, StringAt m root a k := by
  induction n generalizing a with
  | zero => exact ⟨fun h => (by cases h), fun ⟨k, hk, _⟩ => absurd hk (Nat.not_lt_zero k)⟩
  | succ n ih =>
    rw [readString]
    cases hbyte : userByte m root a with
    | none =>
      refine ⟨fun h => (by cases h), fun ⟨k, _, hk⟩ => ?_⟩
      cases k with
      | zero => rw [StringAt.zero_iff, hbyte] at hk; cases hk
      | succ k =>
        obtain ⟨⟨b, -, hb⟩, -⟩ := StringAt.succ_iff.mp hk
        rw [hbyte] at hb
        cases hb
    | some b =>
      dsimp only
      by_cases hb : b = 0
      · subst hb
        exact ⟨fun _ => ⟨0, by omega, StringAt.zero_iff.mpr hbyte⟩, fun _ => if_pos rfl ▸ rfl⟩
      rw [if_neg hb]
      refine ih.trans ⟨fun ⟨k, hk, h⟩ => ⟨k + 1, by omega, StringAt.succ_iff.mpr ⟨⟨b, hb, hbyte⟩, h⟩⟩,
        fun ⟨k, hk, h⟩ => ?_⟩
      cases k with
      | zero =>
        rw [StringAt.zero_iff, hbyte] at h
        exact absurd (Option.some.inj h) hb
      | succ k => exact ⟨k, by omega, (StringAt.succ_iff.mp h).2⟩

theorem readString_bytes (hk : k < n) (h : StringAt m root a k) :
    (readString m root a n).2.map some = (List.range (k + 1)).map fun i => userByte m root (a + i) := by
  induction n generalizing a k with
  | zero => exact absurd hk (Nat.not_lt_zero k)
  | succ n ih =>
    rw [readString]
    cases k with
    | zero =>
      rw [StringAt.zero_iff.mp h]
      exact congrArg (fun o => [o]) (StringAt.zero_iff.mp h).symm
    | succ k =>
      obtain ⟨⟨b, hb, hbyte⟩, hrest⟩ := StringAt.succ_iff.mp h
      rw [hbyte]
      dsimp only
      rw [if_neg hb, List.map_cons, ih (by omega) hrest, List.range_succ_eq_map (n := k + 1),
        List.map_cons, List.map_map]
      refine List.cons_eq_cons.mpr ⟨by rw [Nat.add_zero, hbyte], List.map_congr_left fun i _ => ?_⟩
      rw [Function.comp_apply, Nat.succ_eq_add_one, Nat.add_assoc, Nat.add_comm 1]

theorem readString_strlen (hk : k < n) (h : StringAt m root a k) :
    strlen (readString m root a n).2 = k := by
  induction n generalizing a k with
  | zero => exact absurd hk (Nat.not_lt_zero k)
  | succ n ih =>
    rw [readString]
    cases k with
    | zero =>
      rw [StringAt.zero_iff.mp h]
      rfl
    | succ k =>
      obtain ⟨⟨b, hb, hbyte⟩, hrest⟩ := StringAt.succ_iff.mp h
      have hlen := ih (by omega) hrest
      rw [strlen] at hlen
      rw [hbyte]
      dsimp only
      rw [if_neg hb, strlen, List.takeWhile_cons, if_pos (decide_eq_true hb), List.length_cons, hlen]

/-! ## The loops -/

theorem readString_add {p : BitVec 64}
    (htr : ∀ j < n, translate m root (a + j) = some (p + BitVec.ofNat 64 j)) :
    readString m root a (n + k) =
      if (copyUntilNul m n p).2 then (true, (copyUntilNul m n p).1)
      else ((readString m root (a + n) k).1,
        (copyUntilNul m n p).1 ++ (readString m root (a + n) k).2) := by
  induction n generalizing a p with
  | zero =>
    rw [Nat.zero_add]
    rfl
  | succ n ih =>
    obtain ⟨hfirst, hrest⟩ := consecutive_succ htr
    rw [Nat.succ_add, readString, copyUntilNul, userByte, hfirst]
    dsimp only [Option.map_some]
    by_cases hb : getByte m p = 0
    · rw [if_pos hb, if_pos hb]
      rfl
    · rw [if_neg hb, if_neg hb, ih hrest, show a + 1 + n = a + (n + 1) by omega]
      split_ifs <;> rfl

theorem copyinstrLoop_eq {fuel max : Nat} (hu : NonzeroPages m root) (hfuel : max ≤ fuel) :
    copyinstrLoop m root fuel va max = .ok (readString m root va.toNat max) := by
  induction fuel generalizing va max with
  | zero => rw [Nat.le_zero.mp hfuel]; rfl
  | succ fuel ih =>
    rw [copyinstrLoop]
    by_cases hmax : max = 0
    · rw [if_pos hmax, hmax]
      rfl
    rw [if_neg hmax]
    rcases walkaddr_page va (fun _ => hu.translate) with ⟨hwalk, htr⟩ | ⟨pa, hwalk, hne, hva, htr⟩
    · simp only [hwalk, bind, Except.bind, if_true]
      obtain ⟨n, rfl⟩ := Nat.exists_eq_succ_of_ne_zero hmax
      rw [readString, userByte, htr]
      rfl
    · simp only [hwalk, bind, Except.bind, if_neg hne, pageRest_toNat]
      rw [ih (by omega), nextPage_toNat hva]
      conv_rhs => rw [show max = min (4096 - va.toNat % 4096) max +
        (max - min (4096 - va.toNat % 4096) max) by omega]
      rw [readString_add fun j hj => htr j (by omega)]
      by_cases hshort : max ≤ 4096 - va.toNat % 4096
      · rw [show max - min (4096 - va.toNat % 4096) max = 0 by omega]
        split_ifs <;> rfl
      · rw [show va.toNat / 4096 * 4096 + 4096 = va.toNat + min (4096 - va.toNat % 4096) max by omega]
        split_ifs <;> rfl

/-! ## The functions -/

theorem copyinstr_eq (hu : NonzeroPages m root) (va : BitVec 64) (max : Nat) :
    copyinstr m root va max = .ok (readString m root va.toNat max) :=
  copyinstrLoop_eq hu (Nat.le_refl max)

/-- `fetchstr` returns the length of the string, or -1 if there is none within the bound. -/
theorem fetchstr_eq (hu : NonzeroPages m root) (va : BitVec 64) (max : Nat) :
    fetchstr m root va max = .ok (if (readString m root va.toNat max).1
      then (strlen (readString m root va.toNat max).2 : Int) else -1) := by
  simp only [fetchstr, copyinstr_eq hu, bind, Except.bind]
  split_ifs <;> rfl

/-- What `copyinstr` and the functions on it do with the user's address `va` and the bound `max`. -/
structure FindsString (m : PhysMem) (root va : BitVec 64) (max : Nat) (ok : Bool)
    (bs : List (BitVec 8)) (r : Int) : Prop where
  copyinstr : Sv39.copyinstr m root va max = .ok (ok, bs)
  found : ok = true ↔ ∃ k < max, StringAt m root va.toNat k
  bound : bs.length ≤ max
  /-- The string with its NUL, and nothing more. -/
  bytes : ∀ k < max, StringAt m root va.toNat k →
    bs.map some = (List.range (k + 1)).map fun i => userByte m root (va.toNat + i)
  fetchstr : Sv39.fetchstr m root va max = .ok r
  argstr : ∀ trapframe n h, trapframe ⟨n, h⟩ = va → Sv39.argstr m root trapframe n max = .ok r
  length : ∀ k < max, StringAt m root va.toNat k → r = k
  failed : ok = false → r = -1

/-- `copyinstr` finds the string that ends within the bound. -/
theorem copyinstr_bounded (hu : NonzeroPages m root) (va : BitVec 64) (max : Nat) :
    ∃ ok bs r, FindsString m root va max ok bs r := by
  refine ⟨_, _, _, copyinstr_eq hu va max, readString_iff, readString_length _ _ _ _,
    fun k hk h => readString_bytes hk h, fetchstr_eq hu va max, fun trapframe n h hva => ?_,
    fun k hk h => ?_, fun hno => ?_⟩
  · simp only [argstr, argraw, dif_pos h, hva, bind, Except.bind]
    exact fetchstr_eq hu va max
  · rw [if_pos (readString_iff.mpr ⟨k, hk, h⟩), readString_strlen hk h]
  · rw [hno]
    exact if_neg Bool.false_ne_true

/-- The string "hi" at the end of a page. -/
theorem copyinstr_bounded_hi : ∃ ok bs r, FindsString
    (setBytes twoPages (0x80203000 + BitVec.ofNat 64 4093) [104, 105, 0]) 0x80200000 4093 128 ok bs r := by
  have hsame := setBytes_same (by decide) (by decide) (twoPages_notTable (p := 0x80203000) (by decide))
    (show 4093 + [(104 : BitVec 8), 105, 0].length ≤ 4096 by decide)
  exact copyinstr_bounded (hsame.userPages twoPages_user).nonzero 4093 128

/-- An empty string in a page at physical address 0 is not found. -/
theorem copyinstr_page_zero : StringAt (smallTable [0x17]) 0x80200000 0 0 ∧
    copyinstr (smallTable [0x17]) 0x80200000 0 1 = .ok (false, []) :=
  ⟨StringAt.zero_iff.mpr (by decide), rfl⟩

end

end Xv6.Sv39
