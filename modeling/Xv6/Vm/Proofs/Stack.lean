import Xv6.Vm.Proofs.Image

/-!
# The arguments on the stack

The stack pointer starts at the size of the process, a multiple of the page size. Each string takes its
length with the null byte, rounded up to a multiple of 16, and the array of pointers as well; it fits when
the sum is not more than a page.
-/

namespace Xv6.Vm

variable {T O : Multiset Nat} {w w' w'' : KWorld} {t : PageTable} {sz trampoline tf a : Nat}
  (vs : List Nat) (n : Nat)

/-- A multiple of 16 that is enough for `n` bytes. -/
def round16 (n : Nat) : Nat := (n + 15) / 16 * 16

theorem align_eq {sp n : Nat} (hsp : sp % 16 = 0) (hn : n ≤ sp) (hlt : sp < 2 ^ 64) :
    sub64 sp n - sub64 sp n % 16 = sp - round16 n := by
  have hsub : sub64 sp n = sp - n := by
    unfold sub64
    omega
  rw [hsub]
  unfold round16
  omega

theorem round16_mod : round16 n % 16 = 0 := Nat.mul_mod_left ..

theorem le_round16 : n ≤ round16 n := by
  unfold round16
  omega

namespace Stacked

variable (h : Stacked trampoline tf T O w t sz)

include h

theorem stored {S : Multiset Nat} (hs : Stored S w w') : Stacked trampoline tf T O w' t sz :=
  ⟨h.full, hs.acc h.acc, h.size, h.guard, h.top⟩

theorem size_lt : sz < 2 ^ 28 := h.acc.size_lt

theorem size_facts : sz % 16 = 0 ∧ PGSIZE ≤ sz - PGSIZE ∧ (sz - PGSIZE) % 16 = 0 ∧
    ∀ a, sz - PGSIZE ≤ a → a < sz → a / PGSIZE = sz / PGSIZE - 1 ∧ a % PGSIZE = a - (sz - PGSIZE) := by
  obtain ⟨n, hn⟩ := h.size
  have hn : sz = (n + 2) * 4096 := hn
  show sz % 16 = 0 ∧ 4096 ≤ sz - 4096 ∧ (sz - 4096) % 16 = 0 ∧
    ∀ a, sz - 4096 ≤ a → a < sz → a / 4096 = sz / 4096 - 1 ∧ a % 4096 = a - (sz - 4096)
  refine ⟨by omega, by omega, by omega, fun a ha ha' => ⟨by omega, by omega⟩⟩

theorem top_lt : sz / PGSIZE - 1 < pages sz ∧ pages (sz - 2 * PGSIZE) = sz / PGSIZE - 2 := by
  obtain ⟨n, hn⟩ := h.size
  have hn : sz = (n + 2) * 4096 := hn
  show sz / 4096 - 1 < (sz + 4096 - 1) / 4096 ∧ (sz - 2 * 4096 + 4096 - 1) / 4096 = sz / 4096 - 2
  constructor <;> omega

theorem frames_nodup : (t.frames 0 (pages sz)).Nodup := by
  have hnd := h.acc.owned_nodup
  rw [Multiset.nodup_add, Multiset.nodup_add] at hnd
  exact hnd.2.1.1

end Stacked

theorem Stacked.wp_copyout (h : Stacked trampoline tf T O w t sz) {fuel : Nat} {l : List (BitVec 8)}
    (hfuel : 0 < fuel) (hl : l ≠ []) (ha : sz - PGSIZE ≤ a) (ha' : a + l.length ≤ sz)
    {Q : Bool → KWorld → Prop}
    (hQ : ∀ w', Stored {(t.leaf (sz / PGSIZE - 1)).ppn} w w' →
      (∀ b, sz - PGSIZE ≤ b → b < sz → userByte w' t b =
        if a ≤ b ∧ b < a + l.length then l.getD (b - a) 0 else userByte w t b) → Q true w') :
    (copyout t fuel a l).wp vmWp Q w := by
  obtain ⟨-, -, -, hpage⟩ := h.size_facts
  have hlen : 0 < l.length := List.length_pos_iff.mpr hl
  obtain ⟨hdiv, hmod⟩ := hpage a ha (by omega)
  obtain ⟨fuel, rfl⟩ : ∃ f, fuel = f + 1 := ⟨fuel - 1, by omega⟩
  have hva : a / PGSIZE * PGSIZE < MAXVA := by
    have := h.size_lt
    show a / 4096 * 4096 < 2 ^ 38
    omega
  have hn : min (PGSIZE - a % PGSIZE) l.length = l.length := by
    rw [hmod]
    exact Nat.min_eq_right (by omega)
  rw [copyout, if_neg (by simpa using hl), PGROUNDDOWN,
    walkaddr_user h.full.wf hva (by rw [page_div, hdiv]; exact h.top), page_div, hdiv, hn]
  simp only [Prog.pure_bind, Prog.lift_bind, Prog.wp_op, vmWp_page, vmWp_setPage, List.take_length,
    List.drop_length]
  have hend : copyout t fuel ((sz / PGSIZE - 1) * PGSIZE + PGSIZE) [] = Prog.pure true := by
    cases fuel <;> rfl
  rw [hend]
  set p := (t.leaf (sz / PGSIZE - 1)).ppn with hp
  refine hQ _ (stored_setPage w p _) fun b hb hb' => ?_
  obtain ⟨hbd, hbm⟩ := hpage b hb hb'
  have hlt : b % PGSIZE < PGSIZE := Nat.mod_lt _ (by decide)
  rw [userByte, userByte, hbd, ← hp]
  dsimp only
  rw [Function.update_self, Bytes.byte_blit _ _ _ hlt, hbm, hmod]
  by_cases hin : a ≤ b ∧ b < a + l.length
  · rw [if_pos hin, if_pos (by omega), show b - (sz - PGSIZE) - (a - (sz - PGSIZE)) = b - a by omega]
  · rw [if_neg hin, if_neg (by omega)]

/-! ## The strings -/

/-- A null-terminated copy of `a` at address `q`. -/
def HasString (w : KWorld) (t : PageTable) (q : Nat) (a : List (BitVec 8)) : Prop :=
  ∀ k ≤ a.length, userByte w t (q + k) = (a ++ [0]).getD k 0

/-- The strings `argv` at the addresses `qs`, one below the other: from `hi` down to `lo`. -/
def Strings (w : KWorld) (t : PageTable) : Nat → List (List (BitVec 8)) → List Nat → Nat → Prop
  | hi, [], [], lo => lo = hi
  | hi, a :: argv, q :: qs, lo =>
    q + a.length + 1 ≤ hi ∧ HasString w t q a ∧ Strings w t q argv qs lo
  | _, _, _, _ => False

def stringBytes (argv : List (List (BitVec 8))) : Nat := (argv.map fun a => round16 (a.length + 1)).sum

/-- The loop that pushes the strings, with those of `us` pushed. It comes to its end when the number and
the size of the strings allow it. -/
theorem wp_pushArgs (argv : List (List (BitVec 8))) (hargv : ∀ a ∈ argv, a.length < PGSIZE) :
    ∀ {w : KWorld} {sp : Nat} {us : List Nat} {Q : Option (Nat × List Nat) → KWorld → Prop},
      Stacked trampoline tf T O w t sz → us.length ≤ MAXARG → sp % 16 = 0 → sz - PGSIZE ≤ sp →
      sp ≤ sz →
      (∀ w', Stored {(t.leaf (sz / PGSIZE - 1)).ppn} w w' →
        ¬ (us.length + argv.length ≤ MAXARG ∧ sz - PGSIZE + stringBytes argv ≤ sp) → Q none w') →
      (∀ w' qs, Stored {(t.leaf (sz / PGSIZE - 1)).ppn} w w' →
        us.length + argv.length ≤ MAXARG → sz - PGSIZE + stringBytes argv ≤ sp →
        qs.length = argv.length → Strings w' t sp argv qs (sp - stringBytes argv) →
        (∀ b, sp ≤ b → b < sz → userByte w' t b = userByte w t b) →
        Q (some (sp - stringBytes argv, us ++ qs)) w') →
      (pushArgs t (sz - PGSIZE) argv sp us).wp vmWp Q w := by
  induction argv with
  | nil =>
    intro w sp us Q hst hus hsp hlo hhi hfail hok
    have hzero : stringBytes [] = 0 := rfl
    rw [hzero, Nat.add_zero, Nat.sub_zero] at hok
    have := hok w [] (.refl _ w) hus hlo rfl rfl fun _ _ _ => rfl
    rwa [List.append_nil] at this
  | cons a argv ih =>
    intro w sp us Q hst hus hsp hlo hhi hfail hok
    have halen := hargv a List.mem_cons_self
    obtain ⟨-, hbase, hbase16, -⟩ := hst.size_facts
    have hlt := hst.size_lt
    have hcons : stringBytes (a :: argv) = round16 (a.length + 1) + stringBytes argv := rfl
    have hlen : us.length + (a :: argv).length = us.length + 1 + argv.length := by
      rw [List.length_cons]
      omega
    rw [hcons, hlen] at hfail hok
    have hle := le_round16 (a.length + 1)
    have hmod := round16_mod (a.length + 1)
    rw [pushArgs]
    by_cases hmax : MAXARG ≤ us.length
    · rw [if_pos hmax]
      exact hfail w (.refl _ w) fun h => by omega
    rw [if_neg hmax]
    simp only []
    rw [align_eq hsp (by omega) (by omega)]
    generalize round16 (a.length + 1) = r at hle hmod hfail hok ⊢
    generalize hB : sz - PGSIZE = B at ih hlo hfail hok hbase hbase16 ⊢
    by_cases hroom : sp - r < B
    · rw [if_pos hroom]
      exact hfail w (.refl _ w) fun h => by omega
    rw [if_neg hroom, Prog.wp_bind]
    have hne : a ++ [0] ≠ [] := by simp
    have happ : (a ++ [(0 : BitVec 8)]).length = a.length + 1 := by simp
    refine hst.wp_copyout (Nat.succ_pos _) hne (by omega) (by omega) fun w1 hw1 hbyte => ?_
    have hus1 : (us ++ [sp - r]).length = us.length + 1 := by simp
    refine ih (fun b hb => hargv b (List.mem_cons_of_mem a hb)) (hst.stored hw1) (by omega) (by omega)
      (by omega) (by omega) (fun w' hw' hno => ?_) fun w' qs hw' hmax' hfit hqs hstr hkeep => ?_
    · refine hfail w' (hw1.trans hw') fun h => hno ?_
      rw [hus1]
      omega
    · rw [hus1] at hmax'
      rw [List.append_assoc, List.singleton_append, Nat.sub_sub]
      rw [Nat.sub_sub] at hstr
      refine hok w' ((sp - r) :: qs) (hw1.trans hw') hmax' (by omega) (by simp [hqs])
        ⟨by omega, fun k hk => ?_, hstr⟩ fun b hb hb' => ?_
      · rw [hkeep _ (by omega) (by omega), hbyte _ (by omega) (by omega), if_pos (by omega),
          Nat.add_sub_cancel_left]
      · rw [hkeep b (by omega) hb', hbyte b (by omega) hb', if_neg (by omega)]

/-! ## The array of pointers -/

/-- The `k`-byte number at a user address. -/
def userUint (w : KWorld) (t : PageTable) : Nat → Nat → Nat
  | 0, _ => 0
  | k + 1, a => (userByte w t a).toNat + 256 * userUint w t k (a + 1)

theorem userUint_eq (k : Nat) (v : Nat)
    (h : ∀ i < k, userByte w t (a + i) = BitVec.ofNat 8 (v / 256 ^ i)) :
    userUint w t k a = v % 256 ^ k := by
  induction k generalizing a v with
  | zero => rw [userUint, Nat.pow_zero, Nat.mod_one]
  | succ k ih =>
    have h0 := h 0 (Nat.succ_pos k)
    rw [Nat.add_zero, Nat.pow_zero, Nat.div_one] at h0
    have hrest : userUint w t k (a + 1) = v / 256 % 256 ^ k := by
      refine ih (v / 256) fun i hi => ?_
      rw [show a + 1 + i = a + (i + 1) by omega, h (i + 1) (by omega), Nat.div_div_eq_div_mul,
        Nat.pow_succ']
    have hsplit : v % 256 ^ (k + 1) = v % 256 + 256 * (v / 256 % 256 ^ k) := by
      rw [Nat.pow_succ', Nat.mod_mul]
    rw [userUint, h0, hrest, BitVec.toNat_ofNat, hsplit]

theorem length_bytes64 (v : Nat) : (bytes64 v).length = 8 := by simp [bytes64]

theorem length_flatMap_bytes64 : (vs.flatMap bytes64).length = 8 * vs.length := by
  induction vs with
  | nil => rfl
  | cons v vs ih =>
    rw [List.flatMap_cons, List.length_append, length_bytes64, ih, List.length_cons]
    omega

theorem getD_flatMap_bytes64 {i k : Nat} (hi : i < vs.length) (hk : k < 8) :
    (vs.flatMap bytes64).getD (8 * i + k) 0 = BitVec.ofNat 8 (vs.getD i 0 / 256 ^ k) := by
  induction vs generalizing i with
  | nil => exact absurd hi (Nat.not_lt_zero i)
  | cons v vs ih =>
    rw [List.flatMap_cons]
    cases i with
    | zero =>
      rw [List.getD_eq_getElem?_getD, List.getElem?_append_left (by rw [length_bytes64]; omega)]
      simp [bytes64, hk]
    | succ i =>
      rw [List.getD_eq_getElem?_getD, List.getElem?_append_right (by rw [length_bytes64]; omega),
        length_bytes64, show 8 * (i + 1) + k - 8 = 8 * i + k by omega, ← List.getD_eq_getElem?_getD,
        ih (by simpa using hi)]
      rfl

structure Passed (w : KWorld) (t : PageTable) (sz : Nat) (argv : List (List (BitVec 8))) (sp : Nat) :
    Prop where
  aligned : sp % 16 = 0
  inside : sz - PGSIZE ≤ sp
  pointers : ∃ qs : List Nat, qs.length = argv.length ∧
    (∀ i ≤ argv.length, userUint w t 8 (sp + 8 * i) = (qs ++ [0]).getD i 0) ∧
    ∃ lo, sp + 8 * (argv.length + 1) ≤ lo ∧ Strings w t sz argv qs lo

/-- The bytes of the stack that the arguments need. -/
def argBytes (argv : List (List (BitVec 8))) : Nat :=
  stringBytes argv + round16 (8 * (argv.length + 1))

variable {argv : List (List (BitVec 8))} {qs : List Nat}

theorem Strings.keep {hi lo : Nat} (h : Strings w t hi argv qs lo)
    (hb : ∀ b, lo ≤ b → b < hi → userByte w' t b = userByte w t b) :
    Strings w' t hi argv qs lo ∧ lo ≤ hi := by
  induction argv generalizing hi qs with
  | nil =>
    cases qs with
    | nil => exact ⟨h, le_of_eq h⟩
    | cons q qs => exact h.elim
  | cons a argv ih =>
    cases qs with
    | nil => exact h.elim
    | cons q qs =>
      obtain ⟨hq, hs, hrest⟩ := h
      obtain ⟨hrest', hlo⟩ := ih hrest fun b hl hu => hb b hl (by omega)
      refine ⟨⟨hq, fun k hk => ?_, hrest'⟩, by omega⟩
      rw [hb _ (by omega) (by omega)]
      exact hs k hk

theorem Strings.lt {hi lo : Nat} (h : Strings w t hi argv qs lo) : ∀ q ∈ qs, q < hi := by
  induction argv generalizing hi qs with
  | nil =>
    cases qs with
    | nil => exact fun q hq => absurd hq List.not_mem_nil
    | cons q qs => exact h.elim
  | cons a argv ih =>
    cases qs with
    | nil => exact h.elim
    | cons q qs =>
      obtain ⟨hq, -, hrest⟩ := h
      intro x hx
      rcases List.mem_cons.mp hx with rfl | hx
      · omega
      · have := ih hrest x hx
        omega

theorem stringBytes_mod (argv : List (List (BitVec 8))) : stringBytes argv % 16 = 0 := by
  induction argv with
  | nil => rfl
  | cons a argv ih =>
    have hcons : stringBytes (a :: argv) = round16 (a.length + 1) + stringBytes argv := rfl
    have := round16_mod (a.length + 1)
    omega

theorem getD_lt {m : Nat} (hm : 0 < m) (h : ∀ q ∈ qs, q < m) (i : Nat) :
    (qs ++ [0]).getD i 0 < m := by
  rw [List.getD_eq_getElem?_getD]
  cases hi : (qs ++ [0])[i]? with
  | none => exact hm
  | some q =>
    rcases List.mem_append.mp (List.mem_of_getElem? hi) with hq | hq
    · exact h q hq
    · rw [List.mem_singleton.mp hq]
      exact hm

theorem wp_pushStack (hargv : ∀ a ∈ argv, a.length < PGSIZE)
    (hst : Stacked trampoline tf T O w t sz) {Q : Option Nat → KWorld → Prop}
    (hfail : ∀ w', Stored {(t.leaf (sz / PGSIZE - 1)).ppn} w w' →
      ¬ (argv.length ≤ MAXARG ∧ argBytes argv ≤ PGSIZE) → Q none w')
    (hok : ∀ w' sp, Stored {(t.leaf (sz / PGSIZE - 1)).ppn} w w' → argv.length ≤ MAXARG →
      argBytes argv ≤ PGSIZE → sp < sz → Passed w' t sz argv sp → Q (some sp) w') :
    (pushStack t sz argv).wp vmWp Q w := by
  obtain ⟨hsz16, hbase, hbase16, -⟩ := hst.size_facts
  have hlt := hst.size_lt
  rw [pushStack, Prog.wp_bind]
  have hpush := @wp_pushArgs T O t sz trampoline tf argv hargv w sz []
  generalize hB : sz - PGSIZE = B at *
  refine hpush hst (Nat.zero_le _) hsz16 (by omega) le_rfl
    (fun w1 hw1 hno => ?_) fun w1 qs hw1 hmax hfit hqs hstr _ => ?_
  · refine hfail w1 hw1 fun h => hno ?_
    have := h.2
    unfold argBytes at this
    simp only [List.length_nil, Nat.zero_add]
    exact ⟨h.1, by omega⟩
  have hS := stringBytes_mod argv
  have hbytes : argBytes argv = stringBytes argv + round16 (8 * (argv.length + 1)) := rfl
  have hr := round16_mod (8 * (argv.length + 1))
  have hr' := le_round16 (8 * (argv.length + 1))
  simp only [List.nil_append, List.length_nil, Nat.zero_add] at hmax ⊢
  have hmax : argv.length ≤ 32 := hmax
  have hbase : 4096 ≤ B := hbase
  rw [hqs, Nat.mul_comm (argv.length + 1) 8, align_eq (by omega) (by omega) (by omega)]
  generalize stringBytes argv = S at *
  generalize round16 (8 * (argv.length + 1)) = r at *
  by_cases hroom : sz - S - r < B
  · rw [if_pos hroom]
    exact hfail w1 hw1 fun h => by omega
  rw [if_neg hroom, Prog.wp_bind]
  have hlen : ((qs ++ [0]).flatMap bytes64).length = 8 * (argv.length + 1) := by
    rw [length_flatMap_bytes64, List.length_append, hqs, List.length_singleton]
  have hne : (qs ++ [0]).flatMap bytes64 ≠ [] := fun h => by
    rw [h] at hlen
    simp at hlen
  refine (hst.stored hw1).wp_copyout (by omega) hne (by omega) (by omega) fun w2 hw2 hbyte => ?_
  refine hok w2 _ (hw1.trans hw2) hmax (by omega) (by omega) ⟨by omega, by omega, qs, hqs, fun i hi => ?_,
    sz - S, by omega, (hstr.keep fun b hb hb' => ?_).1⟩
  · have hq : (qs ++ [0]).getD i 0 < 256 ^ 8 :=
      getD_lt (by decide) (fun q hq => (hstr.lt q hq).trans (by omega)) i
    rw [userUint_eq 8 ((qs ++ [0]).getD i 0) fun k hk => ?_, Nat.mod_eq_of_lt hq]
    rw [hbyte _ (by omega) (by omega), if_pos (by omega),
      show sz - S - r + 8 * i + k - (sz - S - r) = 8 * i + k by omega,
      getD_flatMap_bytes64 _ (by simp [hqs]; omega) hk]
  · rw [hbyte b (by omega) hb', if_neg (by omega)]

end Xv6.Vm
