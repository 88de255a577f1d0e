import Xv6.Sv39.Copy
import Xv6.Sv39.Proofs.Map

/-!
# `copyout` and `copyin`

Copying by pages is the same as translating the address of every byte.
-/

namespace Xv6.Sv39

open Option (some some_ne_none)
open BitVec (toNat eq_of_toNat_eq ofNat toNat_ofNat toNat_add ofNat_add add_assoc add_zero
  toNat_sub lt_def)

/-! ## Bytes of memory -/

section

variable {m : PhysMem} {a a' p q i : BitVec 64} {x : Nat}

theorem wordAt_toNat (a : BitVec 64) : (wordAt a).toNat = a.toNat / 8 * 8 :=
  Word.toNat_and_not_mask a 3

theorem getByte_setByte_self (m : PhysMem) (a : BitVec 64) (b : BitVec 8) :
    getByte (setByte m a b) a = b := by
  rw [getByte, setByte, store_word_self, Word.byte_setByte_self _ (Nat.mod_lt _ (by decide))]

theorem getByte_setByte_ne (h : a' ≠ a) (m : PhysMem) (b : BitVec 8) :
    getByte (setByte m a b) a' = getByte m a' := by
  rw [getByte, setByte, getByte]
  by_cases hw : wordAt a' = wordAt a
  · have hne : a'.toNat % 8 ≠ a.toNat % 8 := fun hmod => h <| by
      have heq := congrArg toNat hw
      rw [wordAt_toNat, wordAt_toNat] at heq
      exact eq_of_toNat_eq (by omega)
    rw [hw, store_word_self, Word.byte_setByte_ne _ (Nat.mod_lt _ (by decide)) hne]
  · rw [store_word_ne hw]

theorem wordAt_page (hp : Aligned p) (hx : x < 4096) :
    wordAt (p + ofNat 64 x) = slot p (ofNat 64 (x / 8)) := by
  have hi : (ofNat 64 (x / 8)).toNat = x / 8 := by
    rw [toNat_ofNat]
    omega
  apply eq_of_toNat_eq
  rw [wordAt_toNat, slot_toNat hp (by omega), hi, toNat_add, toNat_ofNat]
  unfold Aligned at hp
  omega

theorem setBytes_kernelEnd (m : PhysMem) (a : BitVec 64) (bs : List (BitVec 8)) :
    (setBytes m a bs).kernelEnd = m.kernelEnd := by
  induction bs generalizing m a with
  | nil => rfl
  | cons b bs ih => exact (ih (setByte m a b) (a + 1)).trans rfl

theorem setBytes_word (hp : Aligned p) (hq : Aligned q) (hne : q ≠ p) (hi : i.toNat < 512)
    {bs : List (BitVec 8)} (hx : x + bs.length ≤ 4096) :
    (setBytes m (p + ofNat 64 x) bs).word (slot q i) = m.word (slot q i) := by
  induction bs generalizing m x with
  | nil => rfl
  | cons b bs ih =>
    rw [List.length_cons] at hx
    have hadd : p + ofNat 64 x + 1 = p + ofNat 64 (x + 1) := by
      rw [ofNat_add, add_assoc]
      rfl
    have hslot : slot q i ≠ wordAt (p + ofNat 64 x) := fun h => by
      rw [wordAt_page hp (by omega)] at h
      refine hne (slot_inj hq hp hi ?_ h).1
      rw [toNat_ofNat]
      omega
    rw [setBytes, hadd, ih (by omega), setByte, store_word_ne hslot]

end

/-! ## Translation byte by byte -/

/-- The physical address of the user's byte at `a`. -/
def translate (m : PhysMem) (root : BitVec 64) (a : Nat) : Option (BitVec 64) :=
  if a < 2 ^ 38 then
    match mapping m root (BitVec.ofNat 64 (a / 4096 * 4096)) with
    | some (pa, flags) => if flags &&& PTE_U ≠ 0 then some (pa + BitVec.ofNat 64 (a % 4096)) else none
    | none => none
  else none

/-- The user's pages are not at physical address 0 and not tables of the page table. -/
def UserPages (m : PhysMem) (root : BitVec 64) : Prop :=
  ∀ u pa flags, Aligned u → u < MAXVA → mapping m root u = some (pa, flags) → flags &&& PTE_U ≠ 0 →
    pa ≠ 0 ∧ NotTable m root pa

/-- No page of the user is at physical address 0. -/
def NonzeroPages (m : PhysMem) (root : BitVec 64) : Prop :=
  ∀ u pa flags, Aligned u → u < MAXVA → mapping m root u = some (pa, flags) → flags &&& PTE_U ≠ 0 → pa ≠ 0

theorem UserPages.nonzero {m : PhysMem} {root : BitVec 64} (h : UserPages m root) : NonzeroPages m root :=
  fun u pa flags hal hlt hmap hflag => (h u pa flags hal hlt hmap hflag).1

/-- Write bytes to translated addresses, up to the first that has none. -/
def writeUser (tr : Nat → Option (BitVec 64)) :
    PhysMem → Nat → List (BitVec 8) → Bool × PhysMem
  | m, _, [] => (true, m)
  | m, a, b :: bs =>
    match tr a with
    | none => (false, m)
    | some p => writeUser tr (setByte m p b) (a + 1) bs

/-- Read `n` bytes from translated addresses, up to the first that has none. -/
def readUser (tr : Nat → Option (BitVec 64)) (m : PhysMem) : Nat → Nat → Bool × List (BitVec 8)
  | _, 0 => (true, [])
  | a, n + 1 =>
    match tr a with
    | none => (false, [])
    | some p =>
      let (ok, bs) := readUser tr m (a + 1) n
      (ok, getByte m p :: bs)

section

variable {m m' : PhysMem} {root va flags : BitVec 64} {tr : Nat → Option (BitVec 64)}
  {bs : List (BitVec 8)} {fuel : Nat}

variable {a n : Nat} {p u : BitVec 64}

theorem consecutive_succ (h : ∀ j < n + 1, tr (a + j) = some (p + ofNat 64 j)) :
    tr a = some p ∧ ∀ j < n, tr (a + 1 + j) = some (p + 1 + ofNat 64 j) := by
  refine ⟨?_, fun j hj => ?_⟩
  · have h0 := h 0 (by omega)
    rwa [Nat.add_zero, add_zero] at h0
  · have hj' := h (j + 1) (by omega)
    rw [Nat.add_comm j, ← Nat.add_assoc, ofNat_add, ← add_assoc] at hj'
    exact hj'

theorem writeUser_append {cs : List (BitVec 8)}
    (h : ∀ j < bs.length, tr (a + j) = some (p + ofNat 64 j)) :
    writeUser tr m a (bs ++ cs) = writeUser tr (setBytes m p bs) (a + bs.length) cs := by
  induction bs generalizing m a p with
  | nil => rfl
  | cons b bs ih =>
    obtain ⟨h0, hrest⟩ := consecutive_succ h
    rw [List.cons_append, writeUser, h0, setBytes, List.length_cons, Nat.add_comm bs.length,
      ← Nat.add_assoc]
    exact ih hrest

theorem readUser_add {k : Nat} (h : ∀ j < n, tr (a + j) = some (p + ofNat 64 j)) :
    readUser tr m a (n + k) =
      ((readUser tr m (a + n) k).1, getBytes m p n ++ (readUser tr m (a + n) k).2) := by
  induction n generalizing a p with
  | zero => rw [Nat.zero_add, Nat.add_zero]; rfl
  | succ n ih =>
    obtain ⟨h0, hrest⟩ := consecutive_succ h
    rw [show n + 1 + k = n + k + 1 by omega, readUser, h0, getBytes, Nat.add_comm n 1, ← Nat.add_assoc]
    dsimp only
    rw [ih hrest]
    rfl

/-! ## A page -/

theorem offset_toNat (va : BitVec 64) : (va - PGROUNDDOWN va).toNat = va.toNat % 4096 := by
  rw [toNat_sub, PGROUNDDOWN_toNat]
  omega

theorem pageRest_toNat (va : BitVec 64) :
    (PGSIZE - (va - PGROUNDDOWN va)).toNat = 4096 - va.toNat % 4096 := by
  rw [toNat_sub, offset_toNat, show PGSIZE.toNat = 4096 from rfl]
  omega

variable {pa : BitVec 64} {src : List (BitVec 8)}

theorem mapping_aligned (h : mapping m root u = some (pa, flags)) : Aligned pa := by
  obtain ⟨e, -, he⟩ := Option.bind_eq_some_iff.mp h
  split_ifs at he
  rw [← (Prod.mk.inj (some.inj he)).1]
  exact PTE2PA_aligned _

theorem translate_page (hva : va.toNat < 2 ^ 38) {j : Nat} (hj : va.toNat % 4096 + j < 4096) :
    translate m root (va.toNat + j) =
      match mapping m root (PGROUNDDOWN va) with
      | some (pa, flags) =>
        if flags &&& PTE_U ≠ 0 then some (pa + (va - PGROUNDDOWN va) + ofNat 64 j) else none
      | none => none := by
  have hround : ofNat 64 ((va.toNat + j) / 4096 * 4096) = PGROUNDDOWN va := by
    apply eq_of_toNat_eq
    rw [PGROUNDDOWN_toNat, toNat_ofNat]
    omega
  have hoff : ofNat 64 ((va.toNat + j) % 4096) = (va - PGROUNDDOWN va) + ofNat 64 j := by
    rw [show (va.toNat + j) % 4096 = va.toNat % 4096 + j by omega, ofNat_add, ← offset_toNat,
      BitVec.ofNat_toNat, BitVec.setWidth_eq]
  rw [translate, if_pos (by omega), hround, hoff]
  simp only [add_assoc]

/-- What `walkaddr` says of the page of `va`: it is not accessible, or all its bytes are in one page of
physical memory. -/
theorem walkaddr_page (va : BitVec 64) (hu : ∀ p, translate m root va.toNat = some p → 4096 ≤ p.toNat) :
    (walkaddr m root (PGROUNDDOWN va) = .ok 0 ∧ translate m root va.toNat = none) ∨
    ∃ pa, walkaddr m root (PGROUNDDOWN va) = .ok pa ∧ pa ≠ 0 ∧ va.toNat < 2 ^ 38 ∧
      ∀ j, va.toNat % 4096 + j < 4096 → translate m root (va.toNat + j) =
        some (pa + (va - PGROUNDDOWN va) + ofNat 64 j) := by
  by_cases hva : va.toNat < 2 ^ 38
  · have hlt : PGROUNDDOWN va < MAXVA := by
      rw [lt_def, PGROUNDDOWN_toNat, show MAXVA.toNat = 2 ^ 38 from rfl]
      omega
    have htr : ∀ j, va.toNat % 4096 + j < 4096 → translate m root (va.toNat + j) = _ :=
      fun j hj => translate_page hva hj
    rw [walkaddr_eq m root hlt]
    unfold PageMap.lookupUser
    cases hmap : mapping m root (PGROUNDDOWN va) with
    | none =>
      refine .inl ⟨rfl, ?_⟩
      have h0 := htr 0 (by omega)
      rwa [hmap, Nat.add_zero] at h0
    | some e =>
      obtain ⟨pa, flags⟩ := e
      rw [hmap] at htr
      dsimp only at htr ⊢
      by_cases hflag : flags &&& PTE_U ≠ 0
      · simp only [if_pos hflag] at htr
        rw [if_pos hflag]
        refine .inr ⟨pa, rfl, fun h => ?_, hva, htr⟩
        have hle := hu _ (htr 0 (by omega))
        rw [h, zero_add, add_zero, offset_toNat] at hle
        omega
      · simp only [if_neg hflag] at htr
        rw [if_neg hflag]
        have h0 := htr 0 (by omega)
        exact .inl ⟨rfl, h0⟩
  · have hge : MAXVA ≤ PGROUNDDOWN va := by
      rw [BitVec.le_def, PGROUNDDOWN_toNat, show MAXVA.toNat = 2 ^ 38 from rfl]
      omega
    exact .inl ⟨if_pos hge, if_neg hva⟩

theorem translate_some (h : translate m root a = some p) :
    ∃ pa flags, mapping m root (ofNat 64 (a / 4096 * 4096)) = some (pa, flags) ∧ flags &&& PTE_U ≠ 0 ∧
      p = pa + ofNat 64 (a % 4096) ∧ Aligned pa ∧ PGROUNDDOWN p = pa ∧ a < 2 ^ 38 := by
  rw [translate] at h
  split_ifs at h with ha
  cases hmap : mapping m root (ofNat 64 (a / 4096 * 4096)) with
  | none => rw [hmap] at h; cases h
  | some e =>
    obtain ⟨pa, flags⟩ := e
    rw [hmap] at h
    dsimp only at h
    split_ifs at h with hflag
    have hal := mapping_aligned hmap
    refine ⟨pa, flags, rfl, hflag, (some.inj h).symm, hal, ?_, ha⟩
    rw [← some.inj h]
    apply eq_of_toNat_eq
    unfold Aligned at hal
    rw [PGROUNDDOWN_toNat, toNat_add, toNat_ofNat]
    omega

theorem NonzeroPages.translate (hu : NonzeroPages m root) (h : translate m root a = some p) :
    4096 ≤ p.toNat := by
  obtain ⟨pa, flags, hmap, hflag, hp, hal, -, ha⟩ := translate_some h
  have hne := hu _ pa flags (by rw [Aligned, toNat_ofNat]; omega)
    (by rw [lt_def, toNat_ofNat, show MAXVA.toNat = 2 ^ 38 from rfl]; omega) hmap hflag
  have hpos : pa.toNat ≠ 0 := fun h => hne (eq_of_toNat_eq h)
  unfold Aligned at hal
  rw [hp, toNat_add, toNat_ofNat]
  omega

theorem UserPages.notTable (hu : UserPages m root) (h : translate m root a = some p) :
    NotTable m root (PGROUNDDOWN p) := by
  obtain ⟨pa, flags, hmap, hflag, -, -, rfl, ha⟩ := translate_some h
  exact (hu _ _ flags (by rw [Aligned, toNat_ofNat]; omega)
    (by rw [lt_def, toNat_ofNat, show MAXVA.toNat = 2 ^ 38 from rfl]; omega) hmap hflag).2

/-- The number of bytes from `a` on, of `n`, before the first that is not accessible. -/
def reach (tr : Nat → Option (BitVec 64)) : Nat → Nat → Nat
  | _, 0 => 0
  | a, n + 1 =>
    match tr a with
    | none => 0
    | some _ => reach tr (a + 1) n + 1

theorem reach_none (h : tr a = none) (n : Nat) : reach tr a n = 0 := by
  cases n with
  | zero => rfl
  | succ n => rw [reach, h]

theorem reach_some (h : tr a = some p) (n : Nat) : reach tr a (n + 1) = reach tr (a + 1) n + 1 := by
  rw [reach, h]

/-- It is the number of bytes before the first that is not accessible. -/
theorem reach_spec (tr : Nat → Option (BitVec 64)) (a n : Nat) : reach tr a n ≤ n ∧
    (∀ i < reach tr a n, tr (a + i) ≠ none) ∧ (reach tr a n < n → tr (a + reach tr a n) = none) := by
  induction n generalizing a with
  | zero =>
    exact ⟨Nat.le_refl 0, fun i hi => absurd hi (Nat.not_lt_zero i),
      fun h => absurd h (Nat.not_lt_zero _)⟩
  | succ n ih =>
    cases htr : tr a with
    | none =>
      rw [reach_none htr]
      exact ⟨Nat.zero_le _, fun i hi => absurd hi (Nat.not_lt_zero i), fun _ => htr⟩
    | some p =>
      obtain ⟨hle, hall, hend⟩ := ih (a + 1)
      rw [reach_some htr]
      refine ⟨by omega, fun i hi => ?_, fun hlt => ?_⟩
      · cases i with
        | zero => rw [Nat.add_zero, htr]; exact some_ne_none p
        | succ i =>
          have := hall i (by omega)
          rwa [Nat.add_assoc, Nat.add_comm 1] at this
      · have := hend (by omega)
        rwa [Nat.add_assoc, Nat.add_comm 1] at this

theorem reach_add {n k : Nat} (h : ∀ j < k, tr (a + j) ≠ none) :
    reach tr a (k + n) = k + reach tr (a + k) n := by
  induction k generalizing a with
  | zero => rw [Nat.zero_add, Nat.zero_add, Nat.add_zero]
  | succ k ih =>
    obtain ⟨p, hp⟩ := Option.ne_none_iff_exists'.mp (h 0 (by omega))
    rw [Nat.add_zero] at hp
    rw [Nat.succ_add, reach_some hp, ih fun j hj => ?_, Nat.add_assoc a, Nat.add_comm 1 k]
    · omega
    · rw [Nat.add_assoc, Nat.add_comm 1]
      exact h (j + 1) (by omega)

/-- A copy of `n` bytes from `a` on gets to the physical byte `p`. -/
def Reaches (m : PhysMem) (root : BitVec 64) (a n : Nat) (p : BitVec 64) : Prop :=
  ∃ i < reach (translate m root) a n, translate m root (a + i) = some p

theorem Reaches.first (h : translate m root a = some p) (hn : n ≠ 0) : Reaches m root a n p := by
  obtain ⟨n, rfl⟩ := Nat.exists_eq_succ_of_ne_zero hn
  exact ⟨0, by rw [reach_some h]; omega, h⟩

theorem Reaches.add {k : Nat} (hk : ∀ j < k, translate m root (a + j) ≠ none)
    (h : Reaches m root (a + k) n p) : Reaches m root a (k + n) p := by
  obtain ⟨i, hi, hp⟩ := h
  exact ⟨k + i, by rw [reach_add hk]; omega, by rwa [← Nat.add_assoc]⟩

theorem nextPage_toNat (hva : va.toNat < 2 ^ 38) :
    (PGROUNDDOWN va + PGSIZE).toNat = va.toNat / 4096 * 4096 + 4096 := by
  rw [toNat_add, PGROUNDDOWN_toNat, show PGSIZE.toNat = 4096 from rfl]
  omega

/-- What is reached from the next page on is reached from an accessible page. -/
theorem Reaches.next {q : BitVec 64} (hva : va.toNat < 2 ^ 38)
    (htr : ∀ j, va.toNat % 4096 + j < 4096 → translate m root (va.toNat + j) = some (q + ofNat 64 j))
    (h : Reaches m root (PGROUNDDOWN va + PGSIZE).toNat (n - min (4096 - va.toNat % 4096) n) p) :
    Reaches m root va.toNat n p := by
  by_cases hn : n ≤ 4096 - va.toNat % 4096
  · obtain ⟨i, hi, -⟩ := h
    rw [Nat.min_eq_right hn, Nat.sub_self] at hi
    exact absurd hi (Nat.not_lt_zero i)
  · rw [nextPage_toNat hva, Nat.min_eq_left (by omega),
      show va.toNat / 4096 * 4096 + 4096 = va.toNat + (4096 - va.toNat % 4096) by omega] at h
    have := h.add fun j hj => by rw [htr j (by omega)]; exact some_ne_none _
    rwa [Nat.add_sub_cancel' (by omega)] at this

/-! ## The loops -/

theorem setBytes_same (hal : Aligned root) (hpa : Aligned pa) (hnot : NotTable m root pa) {x : Nat}
    (hx : x + bs.length ≤ 4096) :
    SameTables m (setBytes m (pa + ofNat 64 x) bs) root := by
  obtain ⟨htable, hmap⟩ := Tree.mapping_of_words fun ρ q i hρ hq hi =>
    setBytes_word hpa (table_aligned hal hq) (fun h => hnot ρ hρ (h ▸ hq)) hi hx
  exact ⟨setBytes_kernelEnd _ _ _, htable, hmap⟩

theorem SameTables.translate (h : SameTables m m' root) : translate m' root = translate m root := by
  funext a
  rw [Sv39.translate, Sv39.translate, h.mapping]

theorem SameTables.userPages (h : SameTables m m' root) (hu : UserPages m root) :
    UserPages m' root := fun u pa flags hal hlt hmap hflag => by
  rw [h.mapping] at hmap
  obtain ⟨hne, hnot⟩ := hu u pa flags hal hlt hmap hflag
  exact ⟨hne, fun ρ hρ hq => hnot ρ hρ (h.table ρ hρ ▸ hq)⟩

theorem SameTables.reaches (h : SameTables m m' root) (hr : Reaches m' root a n p) :
    Reaches m root a n p := by
  rwa [Reaches, h.translate] at hr

theorem copyoutLoop_eq (hal : Aligned root)
    (hu : ∀ p, Reaches m root va.toNat src.length p → 4096 ≤ p.toNat ∧ NotTable m root (PGROUNDDOWN p))
    (hfuel : src.length ≤ fuel) : copyoutLoop root fuel m va src =
      .ok (writeUser (translate m root) m va.toNat src) := by
  induction fuel generalizing m va src with
  | zero => rw [List.length_eq_zero_iff.mp (Nat.le_zero.mp hfuel)]; rfl
  | succ fuel ih =>
    rw [copyoutLoop]
    by_cases hsrc : src.length = 0
    · rw [if_pos hsrc, List.length_eq_zero_iff.mp hsrc]
      rfl
    rw [if_neg hsrc]
    rcases walkaddr_page va (fun p hp => (hu p (.first hp hsrc)).1) with
      ⟨hwalk, htr⟩ | ⟨pa, hwalk, hne, hva, htr⟩
    · simp only [hwalk, bind, Except.bind, if_true]
      cases src with
      | nil => exact absurd rfl hsrc
      | cons b bs => rw [writeUser, htr]
    · simp only [hwalk, bind, Except.bind, if_neg hne, pageRest_toNat]
      have hfirst := htr 0 (by omega)
      obtain ⟨pa', -, -, -, hoff, hpa, hround, -⟩ := translate_some hfirst
      have hnot := (hu _ (.first hfirst hsrc)).2
      rw [hround] at hnot
      rw [add_zero, Nat.add_zero] at hoff
      have htake : (src.take (min (4096 - va.toNat % 4096) src.length)).length =
          min (4096 - va.toNat % 4096) src.length := by
        rw [List.length_take]
        omega
      have hsame : SameTables m (setBytes m (pa + (va - PGROUNDDOWN va))
          (src.take (min (4096 - va.toNat % 4096) src.length))) root := by
        rw [hoff]
        exact setBytes_same hal hpa hnot (by omega)
      rw [ih (fun p hp => ?_) (by rw [List.length_drop]; omega), hsame.translate, nextPage_toNat hva]
      conv_rhs => rw [← List.take_append_drop (min (4096 - va.toNat % 4096) src.length) src]
      rw [writeUser_append fun j hj => htr j (by omega), htake]
      by_cases hshort : src.length ≤ 4096 - va.toNat % 4096
      · -- the last piece
        rw [List.drop_eq_nil_of_le (by omega)]
        rfl
      · rw [show va.toNat / 4096 * 4096 + 4096 = va.toNat + min (4096 - va.toNat % 4096) src.length by
          omega]
      · rw [List.length_drop] at hp
        obtain ⟨hle, hno⟩ := hu p ((hsame.reaches hp).next hva htr)
        exact ⟨hle, fun ρ hρ hq => hno ρ hρ (hsame.table ρ hρ ▸ hq)⟩

theorem copyinLoop_eq {len : Nat} (hu : ∀ p, Reaches m root va.toNat len p → 4096 ≤ p.toNat)
    (hfuel : len ≤ fuel) :
    copyinLoop m root fuel va len = .ok (readUser (translate m root) m va.toNat len) := by
  induction fuel generalizing va len with
  | zero => rw [Nat.le_zero.mp hfuel]; rfl
  | succ fuel ih =>
    rw [copyinLoop]
    by_cases hlen : len = 0
    · rw [if_pos hlen, hlen]
      rfl
    rw [if_neg hlen]
    rcases walkaddr_page va (fun p hp => hu p (.first hp hlen)) with
      ⟨hwalk, htr⟩ | ⟨pa, hwalk, hne, hva, htr⟩
    · simp only [hwalk, bind, Except.bind, if_true]
      obtain ⟨n, rfl⟩ := Nat.exists_eq_succ_of_ne_zero hlen
      rw [readUser, htr]
    simp only [hwalk, bind, Except.bind, if_neg hne, pageRest_toNat]
    rw [ih (fun p hp => hu p (hp.next hva htr)) (by omega), nextPage_toNat hva]
    conv_rhs => rw [show len = min (4096 - va.toNat % 4096) len +
      (len - min (4096 - va.toNat % 4096) len) by omega]
    rw [readUser_add fun j hj => htr j (by omega)]
    by_cases hshort : len ≤ 4096 - va.toNat % 4096
    · rw [show len - min (4096 - va.toNat % 4096) len = 0 by omega]
      rfl
    · rw [show va.toNat / 4096 * 4096 + 4096 = va.toNat + min (4096 - va.toNat % 4096) len by omega]

/-! ## What is copied -/

theorem writeUser_result :
    (writeUser tr m a src).1 = decide (reach tr a src.length = src.length) := by
  induction src generalizing m a with
  | nil => rfl
  | cons b bs ih =>
    rw [writeUser, List.length_cons]
    cases htr : tr a with
    | none =>
      rw [reach_none htr]
      exact (decide_eq_false (by omega)).symm
    | some p =>
      rw [reach_some htr]
      exact ih.trans (decide_eq_decide.mpr (by omega))

theorem writeUser_frame (h : ∀ i < reach tr a src.length, tr (a + i) ≠ some p) :
    getByte (writeUser tr m a src).2 p = getByte m p := by
  induction src generalizing m a with
  | nil => rfl
  | cons b bs ih =>
    rw [writeUser]
    rw [List.length_cons] at h
    cases htr : tr a with
    | none => rfl
    | some p' =>
      rw [reach_some htr] at h
      have hne : p ≠ p' := fun hp => h 0 (by omega) (by rw [Nat.add_zero, htr, hp])
      refine (ih fun i hi => ?_).trans (getByte_setByte_ne hne m b)
      rw [Nat.add_assoc, Nat.add_comm 1]
      exact h (i + 1) (by omega)

theorem writeUser_byte {i : Nat} (hi : i < reach tr a src.length)
    (hp : tr (a + i) = some p) (hlast : ∀ j < reach tr a src.length, i < j → tr (a + j) ≠ some p) :
    src[i]? = some (getByte (writeUser tr m a src).2 p) := by
  induction src generalizing m a i with
  | nil => exact absurd hi (Nat.not_lt_zero i)
  | cons b bs ih =>
    rw [writeUser]
    rw [List.length_cons] at hi hlast
    cases htr : tr a with
    | none =>
      rw [reach_none htr] at hi
      exact absurd hi (Nat.not_lt_zero i)
    | some p' =>
      rw [reach_some htr] at hi hlast
      have hlater : ∀ j < reach tr (a + 1) bs.length, i < j + 1 → tr (a + 1 + j) ≠ some p := by
        intro j hj hij
        rw [Nat.add_assoc, Nat.add_comm 1]
        exact hlast (j + 1) (by omega) hij
      cases i with
      | zero =>
        rw [Nat.add_zero, htr] at hp
        cases hp
        rw [List.getElem?_cons_zero]
        dsimp only
        rw [writeUser_frame fun j hj => hlater j hj (by omega), getByte_setByte_self]
      | succ i =>
        rw [List.getElem?_cons_succ]
        refine ih (by omega) ?_ fun j hj hij => hlater j hj (by omega)
        rwa [Nat.add_assoc, Nat.add_comm 1]

theorem readUser_eq (tr : Nat → Option (BitVec 64)) (m : PhysMem) (a n : Nat) :
    readUser tr m a n = (decide (reach tr a n = n),
      (List.range (reach tr a n)).map fun i => getByte m ((tr (a + i)).getD 0)) := by
  induction n generalizing a with
  | zero => rfl
  | succ n ih =>
    rw [readUser]
    cases htr : tr a with
    | none =>
      rw [reach_none htr]
      exact Prod.ext (decide_eq_false (Nat.succ_ne_zero n).symm).symm rfl
    | some p =>
      dsimp only
      rw [ih, reach_some htr, List.range_succ_eq_map, List.map_cons, List.map_map]
      refine Prod.ext (decide_eq_decide.mpr (by omega)) (List.cons_eq_cons.mpr ⟨?_, ?_⟩)
      · rw [Nat.add_zero, htr]
        rfl
      refine List.map_congr_left fun i _ => ?_
      rw [Function.comp_apply, Nat.succ_eq_add_one, Nat.add_assoc, Nat.add_comm 1]

theorem SameTables.trans {m1 m2 : PhysMem} (h : SameTables m m1 root) (h' : SameTables m1 m2 root) :
    SameTables m m2 root :=
  ⟨h'.kernelEnd.trans h.kernelEnd, fun ρ hρ => (h'.table ρ hρ).trans (h.table ρ hρ),
    fun u => (h'.mapping u).trans (h.mapping u)⟩

theorem writeUser_same (hal : Aligned root) {a : Nat} {src : List (BitVec 8)}
    (hu : ∀ p, Reaches m root a src.length p → NotTable m root (PGROUNDDOWN p)) :
    SameTables m (writeUser (translate m root) m a src).2 root := by
  induction src generalizing m a with
  | nil => exact ⟨rfl, fun _ _ => rfl, fun _ => rfl⟩
  | cons b bs ih =>
    rw [writeUser]
    cases htr : translate m root a with
    | none => exact ⟨rfl, fun _ _ => rfl, fun _ => rfl⟩
    | some p =>
      obtain ⟨pa, -, -, -, rfl, hpa, hround, -⟩ := translate_some htr
      have hnot := hu _ (.first htr (Nat.succ_ne_zero _))
      rw [hround] at hnot
      have hone : SameTables m (setByte m (pa + ofNat 64 (a % 4096)) b) root :=
        setBytes_same hal hpa hnot (show a % 4096 + [b].length ≤ 4096 by
          rw [List.length_singleton]; omega)
      have hrest := ih (m := setByte m (pa + ofNat 64 (a % 4096)) b) (a := a + 1) fun p hp ρ hρ hq => by
        have hp := (hone.reaches hp).add fun j hj => by
          rw [Nat.lt_one_iff.mp hj, Nat.add_zero, htr]
          exact some_ne_none _
        rw [Nat.add_comm] at hp
        exact hu p hp ρ hρ (hone.table ρ hρ ▸ hq)
      rw [hone.translate] at hrest
      exact hone.trans hrest

/-! ## Both functions -/

/-- Of `n` bytes from `va` on the first `k` are accessible, and `copyin` delivers them; it has no access to
memory but to read it. -/
structure CopiesIn (m : PhysMem) (root va : BitVec 64) (n k : Nat) : Prop where
  le : k ≤ n
  accessible : ∀ i < k, translate m root (va.toNat + i) ≠ none
  stops : k < n → translate m root (va.toNat + k) = none
  copyin : Sv39.copyin m root va n = .ok (decide (k = n),
    (List.range k).map fun i => getByte m ((translate m root (va.toNat + i)).getD 0))

/-- What `copyout` does with `src`, where the first `k` bytes from `va` on are accessible and `m'` is the
memory afterwards. -/
structure CopiesOut (m : PhysMem) (root va : BitVec 64) (src : List (BitVec 8)) (k : Nat)
    (m' : PhysMem) : Prop where
  copyout : Sv39.copyout m root va src = .ok (decide (k = src.length), m')
  /-- A byte has its value from `src`, unless another byte at the same address was written later. -/
  bytes : ∀ i < k, ∀ p, translate m root (va.toNat + i) = some p →
    (∀ j < k, i < j → translate m root (va.toNat + j) ≠ some p) → src[i]? = some (getByte m' p)
  frame : ∀ p, (∀ i < k, translate m root (va.toNat + i) ≠ some p) → getByte m' p = getByte m p
  tables : ∀ a, translate m' root a = translate m root a
  back : (∀ i < k, ∀ j < k, translate m root (va.toNat + i) = translate m root (va.toNat + j) → i = j) →
    Sv39.copyin m' root va src.length = .ok (decide (k = src.length), src.take k)

theorem copyin_eq {len : Nat} (hu : ∀ p, Reaches m root va.toNat len p → 4096 ≤ p.toNat) :
    copyin m root va len = .ok (decide (reach (translate m root) va.toNat len = len),
      (List.range (reach (translate m root) va.toNat len)).map fun i =>
        getByte m ((translate m root (va.toNat + i)).getD 0)) := by
  rw [copyin, copyinLoop_eq hu (Nat.le_refl len), readUser_eq]

theorem copyout_eq (hal : Aligned root)
    (hu : ∀ p, Reaches m root va.toNat src.length p → 4096 ≤ p.toNat ∧ NotTable m root (PGROUNDDOWN p)) :
    copyout m root va src = .ok (decide (reach (translate m root) va.toNat src.length = src.length),
      (writeUser (translate m root) m va.toNat src).2) := by
  rw [copyout, copyoutLoop_eq hal hu (Nat.le_refl _), ← writeUser_result]

/-- `copyin` and `copyout` agree with the translation of every byte, where no byte that they get to is in
physical page 0 and, for `copyout`, none is in a table of the page table. -/
theorem copy_bytewise (va : BitVec 64) (src : List (BitVec 8))
    (hnz : ∀ p, Reaches m root va.toNat src.length p → 4096 ≤ p.toNat) :
    ∃ k, CopiesIn m root va src.length k ∧ (Aligned root →
      (∀ p, Reaches m root va.toNat src.length p → NotTable m root (PGROUNDDOWN p)) →
      ∃ m', CopiesOut m root va src k m') := by
  obtain ⟨hle, hall, hstop⟩ := reach_spec (translate m root) va.toNat src.length
  refine ⟨_, ⟨hle, hall, hstop, copyin_eq hnz⟩, fun hal htab => ?_⟩
  have hsame := writeUser_same hal htab
  refine ⟨_, copyout_eq hal fun p hp => ⟨hnz p hp, htab p hp⟩, fun i hi p => writeUser_byte hi,
    fun p => writeUser_frame, congrFun hsame.translate, fun hinj => ?_⟩
  rw [copyin_eq fun p hp => hnz p (hsame.reaches hp), hsame.translate]
  refine congrArg (fun bs => Except.ok (_, bs)) (List.ext_getElem? fun i => ?_)
  by_cases hi : i < reach (translate m root) va.toNat src.length
  · obtain ⟨p, hp⟩ := Option.ne_none_iff_exists'.mp (hall i hi)
    have hbyte := writeUser_byte (m := m) hi hp fun j hj hij h =>
      absurd (hinj i hi j hj (hp.trans h.symm)) (Nat.ne_of_lt hij)
    rw [List.getElem?_map, List.getElem?_range hi, List.getElem?_take_of_lt hi, hbyte,
      Option.map_some, hp, Option.getD_some]
  · rw [List.getElem?_eq_none (by rw [List.length_map, List.length_range]; omega),
      List.getElem?_eq_none (by rw [List.length_take]; omega)]

theorem UserPages.reaches (hu : UserPages m root) (h : Reaches m root a n p) :
    4096 ≤ p.toNat ∧ NotTable m root (PGROUNDDOWN p) := by
  obtain ⟨i, -, hp⟩ := h
  exact ⟨hu.nonzero.translate hp, hu.notTable hp⟩

theorem twoPages_user : UserPages twoPages 0x80200000 := fun _ _ _ _ _ hmap _ =>
  have hpa := twoPages_mapping hmap
  ⟨fun h => absurd (h ▸ hpa) (by decide), twoPages_notTable hpa⟩

/-- A copy over the end of the first page. -/
theorem copy_bytewise_two : ∃ k, ∃ m', CopiesOut twoPages 0x80200000 4094 [1, 2, 3] k m' := by
  obtain ⟨k, -, hout⟩ := copy_bytewise 4094 [1, 2, 3] fun _ hp => (twoPages_user.reaches hp).1
  exact ⟨k, hout (by decide) fun _ hp => (twoPages_user.reaches hp).2⟩

/-- Two pages of the user at one physical page: the byte at 0 is overwritten by the one at 4096. Physical
page 0, which `walkaddr` does not tell from a page that is not mapped. And a table that is a page of the
user: the copy takes its own page away, and `copyin` does not find it again. -/
theorem copyout_aliased :
    (∃ m', copyout (smallTable [PA2PTE 0x80203000 ||| 0x17, PA2PTE 0x80203000 ||| 0x17]) 0x80200000 0
        (List.replicate 4096 1 ++ [2]) = .ok (true, m') ∧
      translate (smallTable [PA2PTE 0x80203000 ||| 0x17, PA2PTE 0x80203000 ||| 0x17]) 0x80200000 0 =
        some 0x80203000 ∧ getByte m' 0x80203000 = 2) ∧
    (copyout (smallTable [0x17]) 0x80200000 0 [1] = .ok (false, smallTable [0x17]) ∧
      translate (smallTable [0x17]) 0x80200000 0 = some 0) ∧
    ∃ m', copyout (smallTable [PA2PTE 0x80202000 ||| 0x17]) 0x80200000 0 [0] = .ok (true, m') ∧
      copyin m' 0x80200000 0 1 = .ok (false, []) := by
  refine ⟨?_, ⟨rfl, by decide⟩, _, rfl, rfl⟩
  have hrun : (copyout (smallTable [PA2PTE 0x80203000 ||| 0x17, PA2PTE 0x80203000 ||| 0x17]) 0x80200000 0
      (List.replicate 4096 1 ++ [2])).toOption.map (fun x => (x.1, getByte x.2 0x80203000)) =
        some (true, 2) := by
    decide +kernel
  generalize copyout _ _ _ _ = x at hrun ⊢
  rcases x with e | ⟨ok, m'⟩
  · cases hrun
  · obtain ⟨rfl, hbyte⟩ := Prod.mk.inj (some.inj hrun)
    exact ⟨m', rfl, by decide, hbyte⟩

end

end Xv6.Sv39
