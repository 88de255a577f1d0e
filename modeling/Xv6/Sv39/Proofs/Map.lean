import Xv6.Lib.Word
import Xv6.Sv39.Proofs.Walk

/-!
# Page tables as maps

A page table stands for a finite map from the pages of virtual memory to physical addresses and flags.
The functions of `vm.c` are operations on that map.
-/

namespace Xv6.Sv39

open BitVec (toNat eq_of_toNat_eq toNat_add le_def toNat_inj lt_def toNat_sub)

/-! ## The operations on maps -/

/-- Physical address and flags, for the pages that are mapped. -/
abbrev PageMap := BitVec 64 → Option (BitVec 64 × BitVec 64)

def PageMap.Same (f g : PageMap) : Prop := ∀ u, Aligned u → u < MAXVA → f u = g u

/-- The pages of `size` bytes from `va` on are mapped to the physical addresses from `pa` on. -/
def PageMap.insert (f : PageMap) (va : BitVec 64) (size : Nat) (pa flags : BitVec 64) : PageMap :=
  fun u => if va ≤ u ∧ u.toNat < va.toNat + size then some (pa + (u - va), flags) else f u

/-- The `npages` pages from `va` on are not mapped any more. -/
def PageMap.remove (f : PageMap) (va : BitVec 64) (npages : Nat) : PageMap :=
  fun u => if va ≤ u ∧ u.toNat < va.toNat + 4096 * npages then none else f u

def PageMap.clearUser (f : PageMap) (va : BitVec 64) : PageMap :=
  fun u => if u = va then (f u).map fun e => (e.1, e.2 &&& ~~~PTE_U) else f u

def PageMap.lookupUser (f : PageMap) (va : BitVec 64) : BitVec 64 :=
  match f va with
  | some (pa, flags) => if flags &&& PTE_U ≠ 0 then pa else 0
  | none => 0

variable {m m' : PhysMem} {root a pa va : BitVec 64} {doFree : Bool} {n : Nat} {f : PageMap}

theorem PGROUNDDOWN_toNat (a : BitVec 64) : (PGROUNDDOWN a).toNat = a.toNat / 4096 * 4096 :=
  Word.toNat_and_not_mask a 12

theorem PGROUNDDOWN_aligned (a : BitVec 64) : Aligned (PGROUNDDOWN a) := by
  rw [Aligned, PGROUNDDOWN_toNat]
  exact Nat.mul_mod_left _ _

theorem Aligned.roundDown (h : Aligned a) : PGROUNDDOWN a = a := by
  apply eq_of_toNat_eq
  rw [PGROUNDDOWN_toNat]
  unfold Aligned at h
  omega

theorem Aligned.add (h : Aligned a) : Aligned (a + PGSIZE) := by
  unfold Aligned at h ⊢
  rw [toNat_add, show PGSIZE.toNat = 4096 from rfl]
  omega

theorem add_toNat (h : a < MAXVA) : (a + PGSIZE).toNat = a.toNat + 4096 := by
  have hlt : a.toNat < 2 ^ 38 := h
  rw [toNat_add, show PGSIZE.toNat = 4096 from rfl]
  omega

variable {u : BitVec 64} {g : PageMap}

theorem Aligned.next_le (ha : Aligned a) (hu : Aligned u) (hne : u ≠ a)
    (hadd : (a + PGSIZE).toNat = a.toNat + 4096) : a + PGSIZE ≤ u ↔ a ≤ u := by
  rw [le_def, le_def, hadd]
  have := toNat_inj.not.mpr hne
  unfold Aligned at ha hu
  omega

/-! ## `mappages` -/

section

variable {last : BitVec 64} {perm : BitVec 10}

theorem perm_lt (perm : BitVec 10) : (perm.setWidth 64 ||| PTE_V).toNat < 1024 := by
  rw [BitVec.toNat_or, BitVec.toNat_setWidth]
  refine Nat.or_lt_two_pow (n := 10) ?_ (by decide)
  omega

theorem mapping_written (ht : Tree m root) (hva : entry m root va = some a) (hpa : Aligned pa) :
    mapping (store m a (PA2PTE pa ||| perm.setWidth 64 ||| PTE_V)) root va =
      some (pa, perm.setWidth 64 ||| PTE_V) := by
  rw [ht.store_mapping_self hva, if_pos (or_valid _), BitVec.or_assoc,
    PTE2PA_PA2PTE hpa (perm_lt perm), PTE_FLAGS_PA2PTE pa (perm_lt perm)]

/-- The pages from `a` to `last` are mapped. -/
def PageMap.insertTo (f : PageMap) (a last pa flags : BitVec 64) : PageMap :=
  fun u => if a ≤ u ∧ u ≤ last then some (pa + (u - a), flags) else f u

theorem PageMap.insertTo_succ {flags : BitVec 64} (ha : Aligned a) (hu : Aligned u)
    (hadd : (a + PGSIZE).toNat = a.toNat + 4096) (hlast : a.toNat ≤ last.toNat)
    (hself : g a = some (pa, flags)) (hne : u ≠ a → g u = f u) :
    g.insertTo (a + PGSIZE) last (pa + PGSIZE) flags u = f.insertTo a last pa flags u := by
  unfold PageMap.insertTo
  by_cases hua : u = a
  · subst hua
    rw [if_neg fun h => absurd (le_def.mp h.1) (by omega), hself,
      if_pos ⟨BitVec.le_refl u, le_def.mpr hlast⟩, BitVec.sub_self, BitVec.add_zero]
  · have hpa : pa + PGSIZE + (u - (a + PGSIZE)) = pa + (u - a) := by bv_omega
    simp only [ha.next_le hu hua hadd, hpa, hne hua]

theorem store_fresh (hf : Fresh m root) (ht : Tree m root) (ha : entry m root va = some a)
    (v : BitVec 64) : Fresh (store m a v) root :=
  ⟨hf.nodup, fun p hp => ⟨(hf.page p hp).1, fun ρ hρ h =>
    (hf.page p hp).2 ρ hρ (ht.store_table ha v hρ ▸ h)⟩⟩

theorem mappagesLoop_spec (ht : Tree m root) (hf : Fresh m root)
    (ha : Aligned a) (hn : a.toNat + 4096 * n = 2 ^ 38) (hpa : Aligned pa)
    (hrun : mappagesLoop root last perm n m a pa = .ok (true, m')) :
    a ≤ last ∧ Tree m' root ∧ Fresh m' root ∧
      PageMap.Same (mapping m' root)
        (PageMap.insertTo (mapping m root) a last pa (perm.setWidth 64 ||| PTE_V)) := by
  induction n generalizing m a pa with
  | zero => cases hrun
  | succ n ih =>
    have hlt : a < MAXVA := lt_def.mpr (by rw [show MAXVA.toNat = 2 ^ 38 from rfl]; omega)
    obtain ⟨pte, m1, hwalk, hw⟩ := walk_spec ht hf hlt true
    rw [mappagesLoop, hwalk] at hrun
    cases pte with
    | none => cases hrun
    | some e =>
      simp only [bind, Except.bind] at hrun
      have he := hw.entry e rfl
      split_ifs at hrun with hv heq
      · -- the last page
        cases hrun
        refine ⟨heq ▸ BitVec.le_refl a, hw.tree.store_tree he _, store_fresh hw.fresh hw.tree he _,
          fun u hu hult => ?_⟩
        unfold PageMap.insertTo
        by_cases hua : u = a
        · subst hua
          rw [if_pos ⟨BitVec.le_refl u, heq ▸ BitVec.le_refl u⟩, mapping_written hw.tree he hpa,
            BitVec.sub_self, BitVec.add_zero]
        · rw [if_neg fun h => hua (BitVec.le_antisymm (heq ▸ h.2) h.1),
            hw.tree.store_mapping_ne ha hlt he _ hu hult hua, hw.same]
      · have hadd := add_toNat hlt
        obtain ⟨hle, ht', hf', hmap⟩ := ih (hw.tree.store_tree he _)
          (store_fresh hw.fresh hw.tree he _) ha.add (by omega) hpa.add hrun
        rw [le_def, hadd] at hle
        refine ⟨le_def.mpr (by omega), ht', hf', fun u hu hult => ?_⟩
        rw [hmap u hu hult]
        refine PageMap.insertTo_succ ha hu hadd (by omega) (mapping_written hw.tree he hpa)
          fun hua => ?_
        rw [hw.tree.store_mapping_ne ha hlt he _ hu hult hua, hw.same]

theorem mappagesLoop_returns (hlast : Aligned last) (ht : Tree m root) (hf : Fresh m root)
    (ha : Aligned a) (hn : a.toNat + 4096 * n = 2 ^ 38) (hle : a ≤ last) (hlt : last < MAXVA)
    (hfree : ∀ u, Aligned u → a ≤ u → u ≤ last → mapping m root u = none) (pa : BitVec 64) :
    ∃ r, mappagesLoop root last perm n m a pa = .ok r := by
  have hlt' : last.toNat < 2 ^ 38 := hlt
  rw [le_def] at hle
  induction n generalizing m a pa with
  | zero => omega
  | succ n ih =>
    have halt : a < MAXVA := lt_def.mpr (by rw [show MAXVA.toNat = 2 ^ 38 from rfl]; omega)
    obtain ⟨pte, m1, hwalk, hw⟩ := walk_spec ht hf halt true
    rw [mappagesLoop, hwalk]
    cases pte with
    | none => exact ⟨_, rfl⟩
    | some e =>
      have he := hw.entry e rfl
      have hnone := hw.same a
      rw [hfree a ha (BitVec.le_refl a) (le_def.mpr hle), mapping, he, Option.bind_some] at hnone
      simp only [bind, Except.bind]
      split_ifs at hnone with hv
      rw [if_neg hv]
      split_ifs with heq
      · exact ⟨_, rfl⟩
      · have hadd := add_toNat halt
        have hnext : a.toNat + 4096 ≤ last.toNat := by
          rw [← toNat_inj] at heq
          unfold Aligned at ha hlast
          omega
        refine ih (hw.tree.store_tree he _) (store_fresh hw.fresh hw.tree he _) ha.add (by omega)
          (by omega) (fun u hu hle' hle'' => ?_) (pa + PGSIZE)
        rw [le_def, hadd] at hle'
        have hua : u ≠ a := fun h => by subst h; omega
        rw [hw.tree.store_mapping_ne ha halt he _ hu (Nat.lt_of_le_of_lt hle'' hlt) hua, hw.same]
        exact hfree u hu (le_def.mpr (by omega)) hle''

section

variable {size : BitVec 64}

section
variable (hva : Aligned va) (hsize : size ≠ 0) (hlt : va < MAXVA) (ht : Tree m root)
  (hf : Fresh m root)
include hva hsize hlt ht hf

omit hlt ht hf in
theorem PageMap.insertTo_eq (f : PageMap) (flags : BitVec 64)
    (hle : va ≤ PGROUNDDOWN (va + size - 1)) :
    (f.insertTo va (PGROUNDDOWN (va + size - 1)) pa flags).Same (f.insert va size.toNat pa flags) := by
  intro u hu _
  have hpos : 0 < size.toNat := Nat.pos_of_ne_zero fun h => hsize (eq_of_toNat_eq h)
  have hlast : u ≤ PGROUNDDOWN (va + size - 1) ↔ u.toNat < va.toNat + size.toNat := by
    rw [le_def, PGROUNDDOWN_toNat, toNat_sub, toNat_add] at hle ⊢
    rw [show (1 : BitVec 64).toNat = 1 from rfl] at hle ⊢
    unfold Aligned at hva hu
    omega
  unfold PageMap.insertTo PageMap.insert
  simp only [hlast]

omit hsize ht hf in
theorem rounds : va.toNat + 4096 * ((2 ^ 38 - va.toNat) / 4096) = 2 ^ 38 := by
  have hlt : va.toNat < 2 ^ 38 := hlt
  unfold Aligned at hva
  omega

theorem mappages_ok (hpa : Aligned pa) (hrun : mappages m root va size pa perm = .ok (true, m')) :
    Tree m' root ∧ PageMap.Same (mapping m' root)
      (PageMap.insert (mapping m root) va size.toNat pa (perm.setWidth 64 ||| PTE_V)) := by
  unfold mappages at hrun
  rw [hva.roundDown] at hrun
  obtain ⟨hle, ht', -, hmap⟩ := mappagesLoop_spec ht hf hva (rounds hva hlt) hpa hrun
  exact ⟨ht', fun u hu hult => (hmap u hu hult).trans
    (PageMap.insertTo_eq hva hsize _ _ hle u hu hult)⟩

theorem mappages_failed (hone : size ≤ PGSIZE)
    (hrun : mappages m root va size pa perm = .ok (false, m')) :
    Tree m' root ∧ ∀ u, mapping m' root u = mapping m root u := by
  have hvlt : va.toNat < 2 ^ 38 := hlt
  have hrounds := rounds hva hlt
  have hlast : PGROUNDDOWN (va + size - 1) = va := by
    have hpos : 0 < size.toNat := Nat.pos_of_ne_zero fun h => hsize (eq_of_toNat_eq h)
    rw [le_def, show PGSIZE.toNat = 4096 from rfl] at hone
    apply eq_of_toNat_eq
    rw [PGROUNDDOWN_toNat, toNat_sub, toNat_add, show (1 : BitVec 64).toNat = 1 from rfl]
    omega
  unfold mappages at hrun
  rw [hva.roundDown, hlast] at hrun
  dsimp only at hrun
  obtain ⟨n, hn⟩ := Nat.exists_eq_succ_of_ne_zero
    (show (2 ^ 38 - va.toNat) / 4096 ≠ 0 from fun h => by omega)
  obtain ⟨pte, m1, hwalk, hw⟩ := walk_spec ht hf hlt true
  rw [hn, mappagesLoop, hwalk] at hrun
  cases pte with
  | none =>
    cases hrun
    exact ⟨hw.tree, hw.same⟩
  | some e =>
    simp only [bind, Except.bind, if_true] at hrun
    split_ifs at hrun
    cases hrun

omit hlt in
theorem mappages_returns (hend : va.toNat + size.toNat ≤ 2 ^ 38)
    (hfree : ∀ u, Aligned u → va ≤ u → u.toNat < va.toNat + size.toNat → mapping m root u = none) :
    ∃ r, mappages m root va size pa perm = .ok r := by
  have hpos : 0 < size.toNat := Nat.pos_of_ne_zero fun h => hsize (eq_of_toNat_eq h)
  have hlt : va < MAXVA := lt_def.mpr (by rw [show MAXVA.toNat = 2 ^ 38 from rfl]; omega)
  have hlast : (PGROUNDDOWN (va + size - 1)).toNat = (va.toNat + size.toNat - 1) / 4096 * 4096 := by
    rw [PGROUNDDOWN_toNat, toNat_sub, toNat_add, show (1 : BitVec 64).toNat = 1 from rfl]
    omega
  unfold mappages
  rw [hva.roundDown]
  refine mappagesLoop_returns (PGROUNDDOWN_aligned _) ht hf hva (rounds hva hlt) ?_ ?_
    (fun u hu hle hle' => hfree u hu hle ?_) pa
  · rw [le_def, hlast]
    unfold Aligned at hva
    omega
  · rw [lt_def, hlast, show MAXVA.toNat = 2 ^ 38 from rfl]
    omega
  · rw [le_def, hlast] at hle'
    omega

end

end

end

/-! ## `uvmunmap` -/

theorem Aligned.umod (h : Aligned a) : a % PGSIZE = 0 := by
  apply eq_of_toNat_eq
  rw [BitVec.toNat_umod]
  exact h

/-- The mapping of `u` is one that `uvmunmap` can remove. -/
structure Removable (m : PhysMem) (root u : BitVec 64) (doFree : Bool) (pa flags : BitVec 64) :
    Prop where
  mapped : mapping m root u = some (pa, flags)
  leaf : flags ≠ PTE_V
  apart : NotTable m root pa
  free : doFree = true → m.kernelEnd ≤ pa ∧ pa < PHYSTOP

/-- The tables and the map are not concerned when a page is freed. -/
structure SameTables (m m' : PhysMem) (root : BitVec 64) : Prop where
  kernelEnd : m'.kernelEnd = m.kernelEnd
  table : ∀ ρ, IsPath ρ → Sv39.table m' root ρ = Sv39.table m root ρ
  mapping : ∀ u, Sv39.mapping m' root u = Sv39.mapping m root u

theorem free_spec (doFree : Bool) (ht : Tree m root) (hpa : Aligned pa) (hnot : NotTable m root pa)
    (hfree : doFree = true → m.kernelEnd ≤ pa ∧ pa < PHYSTOP) :
    ∃ m1, (if doFree then kfree m pa else .ok m) = .ok m1 ∧ SameTables m m1 root := by
  cases doFree with
  | false => exact ⟨m, rfl, rfl, fun _ _ => rfl, fun _ => rfl⟩
  | true =>
    obtain ⟨hlow, hhigh⟩ := hfree rfl
    have hok : ¬ (pa % PGSIZE ≠ 0 ∨ pa < m.kernelEnd ∨ PHYSTOP ≤ pa) := by
      rintro (h | h | h)
      · exact h hpa.umod
      · exact absurd hlow (BitVec.not_le.mpr h)
      · exact absurd hhigh (BitVec.not_lt.mpr h)
    rw [if_pos rfl, kfree, if_neg hok]
    obtain ⟨htable, hmap⟩ := Tree.mapping_of_words (ht.memset_words hpa hnot 0x0101010101010101)
    exact ⟨_, rfl, rfl, htable, hmap⟩

/-- The pages from `a` to `bound` are not mapped. -/
def PageMap.removeTo (f : PageMap) (a bound : BitVec 64) : PageMap :=
  fun u => if a ≤ u ∧ u < bound then none else f u

variable {bound : BitVec 64}

theorem PageMap.removeTo_self (h : ¬ a < bound) : f.removeTo a bound = f := by
  funext u
  refine if_neg fun hu => h ?_
  exact Nat.lt_of_le_of_lt hu.1 hu.2

theorem PageMap.removeTo_succ (ha : Aligned a) (hu : Aligned u)
    (hadd : (a + PGSIZE).toNat = a.toNat + 4096) (hlt : a < bound) (hself : g a = none)
    (hne : u ≠ a → g u = f u) : g.removeTo (a + PGSIZE) bound u = f.removeTo a bound u := by
  unfold PageMap.removeTo
  by_cases hua : u = a
  · subst hua
    rw [if_neg fun h => absurd (le_def.mp h.1) (by omega), hself,
      if_pos ⟨BitVec.le_refl u, hlt⟩]
  · simp only [ha.next_le hu hua hadd, hne hua]

theorem uvmunmapLoop_spec (ht : Tree m root)
    (ha : Aligned a) (hn : a.toNat + 4096 * n = 2 ^ 38) (hbound : bound.toNat ≤ 2 ^ 38)
    (hmapped : ∀ u, Aligned u → a ≤ u → u < bound → ∃ pa flags, Removable m root u doFree pa flags) :
    ∃ m', uvmunmapLoop root bound doFree n m a = .ok m' ∧ Tree m' root ∧
      PageMap.Same (mapping m' root) (PageMap.removeTo (mapping m root) a bound) := by
  induction n generalizing m a with
  | zero =>
    have hlt : ¬ a < bound := fun h => absurd (lt_def.mp h) (by omega)
    exact ⟨m, if_neg hlt, ht, fun u _ _ => by rw [PageMap.removeTo_self hlt]⟩
  | succ n ih =>
    by_cases hlt : a < bound
    · have halt : a < MAXVA := lt_def.mpr (by rw [show MAXVA.toNat = 2 ^ 38 from rfl]; omega)
      have hadd := add_toNat halt
      obtain ⟨pa, flags, hr⟩ := hmapped a ha (BitVec.le_refl a) hlt
      obtain ⟨e, he, hword⟩ := Option.bind_eq_some_iff.mp hr.mapped
      split_ifs at hword with hv
      obtain ⟨hpa, hflags⟩ := Prod.mk.inj (Option.some.inj hword)
      obtain ⟨m1, hfree, hsame⟩ := free_spec doFree ht (hpa ▸ PTE2PA_aligned _) hr.apart hr.free
      have ht1 : Tree m1 root := ht.of_table hsame.table
      have he1 : entry m1 root a = some e := by
        rw [entry, hsame.table _ (path_isPath a)]
        exact he
      have hnone : mapping (store m1 e 0) root a = none := by
        rw [ht1.store_mapping_self he1]
        rfl
      have hother : ∀ u, Aligned u → u < MAXVA → u ≠ a →
          mapping (store m1 e 0) root u = mapping m root u := fun u hu hult hua => by
        rw [ht1.store_mapping_ne ha halt he1 _ hu hult hua, hsame.mapping]
      obtain ⟨m', hrun, ht', hmap⟩ := ih (ht1.store_tree he1 0) ha.add (by omega) fun u hu hle hub => by
        rw [le_def, hadd] at hle
        have hub' := lt_def.mp hub
        obtain ⟨pa', flags', hr'⟩ := hmapped u hu (le_def.mpr (by omega)) hub
        refine ⟨pa', flags', ?_, hr'.leaf, fun ρ hρ h => hr'.apart ρ hρ ?_, ?_⟩
        · rw [hother u hu (lt_def.mpr (by rw [show MAXVA.toNat = 2 ^ 38 from rfl]; omega))
            (fun h => by subst h; omega)]
          exact hr'.mapped
        · rw [ht1.store_table he1 0 hρ, hsame.table ρ hρ] at h
          exact h
        · show doFree = true → m1.kernelEnd ≤ pa' ∧ pa' < PHYSTOP
          rw [hsame.kernelEnd]
          exact hr'.free
      refine ⟨m', ?_, ht', fun u hu hult => ?_⟩
      · have hnv : ¬ m.word e &&& PTE_V = 0 := hv
        rw [uvmunmapLoop, if_pos hlt, walk_false m root halt, he]
        simp only [bind, Except.bind]
        rw [if_neg hnv, hflags, if_neg hr.leaf, hpa]
        cases doFree with
        | false =>
          cases hfree
          exact hrun
        | true =>
          rw [if_pos rfl] at hfree ⊢
          rw [hfree]
          exact hrun
      · rw [hmap u hu hult]
        exact PageMap.removeTo_succ ha hu hadd hlt hnone (hother u hu hult)
    · exact ⟨m, if_neg hlt, ht, fun u _ _ => by rw [PageMap.removeTo_self hlt]⟩

theorem uvmunmap_ok {npages : BitVec 64} (ht : Tree m root) (hva : Aligned va)
    (hlt : va < MAXVA) (hend : va.toNat + 4096 * npages.toNat ≤ 2 ^ 38)
    (hmapped : ∀ u, Aligned u → va ≤ u → u.toNat < va.toNat + 4096 * npages.toNat →
      ∃ pa flags, Removable m root u doFree pa flags) :
    ∃ m', uvmunmap m root va npages doFree = .ok m' ∧ Tree m' root ∧
      PageMap.Same (mapping m' root) (PageMap.remove (mapping m root) va npages.toNat) := by
  have hbound : (va + npages * PGSIZE).toNat = va.toNat + 4096 * npages.toNat := by
    rw [toNat_add, BitVec.toNat_mul, show PGSIZE.toNat = 4096 from rfl]
    omega
  have hpage : ∀ u : BitVec 64, u < va + npages * PGSIZE ↔ u.toNat < va.toNat + 4096 * npages.toNat :=
    fun u => by rw [lt_def, hbound]
  obtain ⟨m', hrun, ht', hmap⟩ := uvmunmapLoop_spec ht hva (rounds hva hlt) (hbound ▸ hend)
    fun u hu hle hub => hmapped u hu hle ((hpage u).mp hub)
  refine ⟨m', ?_, ht', fun u hu hult => (hmap u hu hult).trans ?_⟩
  · rw [uvmunmap, if_neg (not_not.mpr hva.umod)]
    exact hrun
  · unfold PageMap.removeTo PageMap.remove
    simp only [hpage]

/-! ## `uvmclear` and `walkaddr` -/

variable (e : BitVec 64)

theorem and_not_user_valid : e &&& ~~~PTE_U &&& PTE_V = e &&& PTE_V := by
  rw [BitVec.and_assoc]
  rfl

theorem PTE2PA_clear : PTE2PA (e &&& ~~~PTE_U) = PTE2PA e := by
  have hshift : (e &&& ~~~PTE_U) >>> 10 = e >>> 10 := by
    apply eq_of_toNat_eq
    rw [BitVec.ushiftRight_and_distrib, BitVec.toNat_and, BitVec.toNat_ushiftRight e,
      show ((~~~PTE_U) >>> 10).toNat = 2 ^ 54 - 1 from rfl, Nat.and_two_pow_sub_one_eq_mod,
      Nat.shiftRight_eq_div_pow]
    omega
  rw [PTE2PA, PTE2PA, hshift]

theorem PTE_FLAGS_clear : PTE_FLAGS (e &&& ~~~PTE_U) = PTE_FLAGS e &&& ~~~PTE_U := by
  rw [PTE_FLAGS, PTE_FLAGS, BitVec.and_assoc, BitVec.and_comm (~~~PTE_U), ← BitVec.and_assoc]

theorem uvmclear_ok (ht : Tree m root) (hva : Aligned va) (hlt : va < MAXVA)
    (ha : entry m root va = some a) :
    ∃ m', uvmclear m root va = .ok m' ∧ Tree m' root ∧
      PageMap.Same (mapping m' root) (PageMap.clearUser (mapping m root) va) := by
  refine ⟨store m a (m.word a &&& ~~~PTE_U), ?_, ht.store_tree ha _, fun u hu hult => ?_⟩
  · rw [uvmclear, walk_false m root hlt, ha]
    rfl
  · unfold PageMap.clearUser
    by_cases hua : u = va
    · subst hua
      rw [if_pos rfl, ht.store_mapping_self ha, mapping, ha, Option.bind_some, and_not_user_valid,
        PTE2PA_clear, PTE_FLAGS_clear]
      split_ifs <;> rfl
    · rw [if_neg hua, ht.store_mapping_ne hva hlt ha _ hu hult hua]

theorem flags_user : PTE_FLAGS e &&& PTE_U = e &&& PTE_U := by
  rw [PTE_FLAGS, BitVec.and_assoc]
  rfl

theorem walkaddr_eq (m : PhysMem) (root : BitVec 64) (hlt : va < MAXVA) :
    walkaddr m root va = .ok (PageMap.lookupUser (mapping m root) va) := by
  rw [walkaddr, if_neg (BitVec.not_le.mpr hlt), walk_false m root hlt]
  simp only [bind, Except.bind]
  unfold PageMap.lookupUser mapping
  cases entry m root va with
  | none => rfl
  | some a =>
    rw [Option.bind_some]
    by_cases hv : m.word a &&& PTE_V = 0
    · rw [if_neg (not_not.mpr hv)]
      exact if_pos hv
    rw [if_pos hv]
    dsimp only
    rw [if_neg hv, flags_user]
    by_cases hu : m.word a &&& PTE_U = 0
    · rw [if_pos hu, if_neg (not_not.mpr hu)]
    · rw [if_neg hu, if_pos hu]

/-! ## All functions -/

/-- The functions of `vm.c` on a page table are operations on its map. -/
structure RefinesMap (m : PhysMem) (root : BitVec 64) : Prop where
  /-- `walk` finds the entry of a page, no other page has it, and the map stays. -/
  walk : ∀ va alloc, Aligned va → va < MAXVA → ∃ pte m',
    Sv39.walk m root va alloc = .ok (pte, m') ∧ (∀ u, mapping m' root u = mapping m root u) ∧
    (∀ a, pte = some a → entry m' root va = some a ∧
      ∀ va', Aligned va' → va' < MAXVA → va' ≠ va → entry m' root va' ≠ some a) ∧
    (alloc = false → pte = entry m root va ∧ m' = m) ∧
    (alloc = true → 2 ≤ m.freelist.length → pte ≠ none)
  mappages : ∀ va size pa perm m', Aligned va → va < MAXVA → size ≠ 0 → Aligned pa →
    Sv39.mappages m root va size pa perm = .ok (true, m') → Tree m' root ∧
      PageMap.Same (mapping m' root)
        (PageMap.insert (mapping m root) va size.toNat pa (perm.setWidth 64 ||| PTE_V))
  mappages_failed : ∀ va size pa perm m', Aligned va → va < MAXVA → size ≠ 0 → size ≤ PGSIZE →
    Sv39.mappages m root va size pa perm = .ok (false, m') → Tree m' root ∧
      PageMap.Same (mapping m' root) (mapping m root)
  /-- It succeeds or fails where none of the pages is mapped. -/
  mappages_returns : ∀ va size pa perm, Aligned va → size ≠ 0 → va.toNat + size.toNat ≤ 2 ^ 38 →
    (∀ u, Aligned u → va ≤ u → u.toNat < va.toNat + size.toNat → mapping m root u = none) →
    ∃ r, Sv39.mappages m root va size pa perm = .ok r
  uvmunmap : ∀ va npages doFree, Aligned va → va < MAXVA → va.toNat + 4096 * npages.toNat ≤ 2 ^ 38 →
    (∀ u, Aligned u → va ≤ u → u.toNat < va.toNat + 4096 * npages.toNat →
      ∃ pa flags, mapping m root u = some (pa, flags) ∧ flags ≠ PTE_V ∧
        (doFree = true → m.kernelEnd ≤ pa ∧ pa < PHYSTOP)) →
    ∃ m', Sv39.uvmunmap m root va npages doFree = .ok m' ∧ Tree m' root ∧
      PageMap.Same (mapping m' root) (PageMap.remove (mapping m root) va npages.toNat)
  uvmclear : ∀ va a, Aligned va → va < MAXVA → entry m root va = some a →
    ∃ m', Sv39.uvmclear m root va = .ok m' ∧ Tree m' root ∧
      PageMap.Same (mapping m' root) (PageMap.clearUser (mapping m root) va)
  walkaddr : ∀ va, va < MAXVA →
    Sv39.walkaddr m root va = .ok (PageMap.lookupUser (mapping m root) va)

/-- A page table whose pages are distinct, with no table among the pages that it maps or that can be
allocated, is a finite map. -/
theorem page_table_map (ht : Tree m root) (hf : Fresh m root)
    (hleaf : ∀ u pa flags, Aligned u → u < MAXVA → mapping m root u = some (pa, flags) →
      NotTable m root pa) : RefinesMap m root where
  walk va alloc hva hlt := by
    obtain ⟨pte, m', hwalk, hw⟩ := walk_spec ht hf hlt alloc
    refine ⟨pte, m', hwalk, hw.same, fun a ha => ⟨hw.entry a ha, fun va' hva' hlt' hne h' => ?_⟩,
      fun hno => ?_, hw.found⟩
    · exact hne (hw.tree.entry_inj hva' hva hlt' hlt h' (hw.entry a ha))
    · rw [hno, walk_false m root hlt] at hwalk
      cases hwalk
      exact ⟨rfl, rfl⟩
  mappages va size pa perm m' hva hlt hsize hpa hrun := mappages_ok hva hsize hlt ht hf hpa hrun
  mappages_failed pa m' perm va size hva hlt hsize hone hrun := by
    obtain ⟨ht', hsame⟩ := Sv39.mappages_failed hva hsize hlt ht hf hone hrun
    exact ⟨ht', fun u _ _ => hsame u⟩
  mappages_returns pa perm va size hva hsize hend hfree :=
    Sv39.mappages_returns hva hsize ht hf hend hfree
  uvmunmap va npages doFree hva hlt hend hmapped := by
    refine uvmunmap_ok ht hva hlt hend fun u hu hle hult => ?_
    obtain ⟨pa, flags, hmap, hne, hfree⟩ := hmapped u hu hle hult
    have hmax : u < MAXVA := lt_def.mpr (by rw [show MAXVA.toNat = 2 ^ 38 from rfl]; omega)
    exact ⟨pa, flags, hmap, hne, hleaf u pa flags hu hmax hmap, hfree⟩
  uvmclear va a hva hlt ha := uvmclear_ok ht hva hlt ha
  walkaddr va hlt := walkaddr_eq m root hlt

/-! ## A small page table -/

/-- A page table with one table of each level, whose last has the entries `es`. -/
def smallTable (es : List (BitVec 64)) : PhysMem where
  word a :=
    if a = 0x80200000 then PA2PTE 0x80201000 ||| PTE_V
    else if a = 0x80201000 then PA2PTE 0x80202000 ||| PTE_V
    else es.getD ((a - 0x80202000).toNat / 8) 0
  freelist := [0x80300000, 0x80301000]
  kernelEnd := 0x80100000

/-- Two pages of the user are mapped. -/
def twoPages : PhysMem := smallTable [PA2PTE 0x80203000 ||| 0x17, PA2PTE 0x80204000 ||| 0x17]

theorem twoPages_child {i : BitVec 64} (hi : i.toNat < 512) :
    child twoPages 0x80200000 i = (if i = 0 then some 0x80201000 else none) ∧
      child twoPages 0x80201000 i = if i = 0 then some 0x80202000 else none := by
  have h : ∀ n < 512,
      child twoPages 0x80200000 (.ofNat 64 n) =
        (if BitVec.ofNat 64 n = 0 then some 0x80201000 else none) ∧
      child twoPages 0x80201000 (.ofNat 64 n) =
        if BitVec.ofNat 64 n = 0 then some 0x80202000 else none := by
    decide +kernel
  have hchild := h i.toNat hi
  rwa [BitVec.ofNat_toNat, BitVec.setWidth_eq] at hchild

theorem twoPages_table {ρ : List (BitVec 64)} {q : BitVec 64} (hρ : IsPath ρ)
    (h : table twoPages 0x80200000 ρ = some q) :
    (ρ, q) ∈ [([], (0x80200000 : BitVec 64)), ([0], 0x80201000), ([0, 0], 0x80202000)] := by
  obtain ⟨hlen, hsmall⟩ := hρ
  match ρ, hlen, hsmall with
  | [], _, _ =>
    rw [← Option.some.inj h]
    simp
  | [i], _, hsmall =>
    rw [table, List.foldlM_cons, (twoPages_child (hsmall i (by simp))).1] at h
    split_ifs at h with hi
    · rw [hi, ← Option.some.inj h]
      simp
    · cases h
  | [i, j], _, hsmall =>
    rw [table, List.foldlM_cons, (twoPages_child (hsmall i (by simp))).1] at h
    split_ifs at h with hi
    · rw [Option.bind_eq_bind, Option.bind_some, List.foldlM_cons,
        (twoPages_child (hsmall j (by simp))).2] at h
      split_ifs at h with hj
      · rw [hi, hj, ← Option.some.inj h]
        simp
      · cases h
    · cases h

theorem twoPages_tree : Tree twoPages 0x80200000 where
  base := by decide
  inj hρ hσ hq hq' := by
    have h := twoPages_table hρ hq
    have h' := twoPages_table hσ hq'
    simp only [List.mem_cons, Prod.mk.injEq, List.not_mem_nil, or_false] at h h'
    rcases h with ⟨rfl, rfl⟩ | ⟨rfl, rfl⟩ | ⟨rfl, rfl⟩ <;> simpa [eq_comm] using h'

theorem twoPages_notTable {p : BitVec 64} (hp : 0x80203000 ≤ p) : NotTable twoPages 0x80200000 p := by
  intro ρ hρ hq
  have htable := twoPages_table hρ hq
  simp only [List.mem_cons, Prod.mk.injEq, List.not_mem_nil, or_false] at htable
  rcases htable with ⟨-, h⟩ | ⟨-, h⟩ | ⟨-, h⟩ <;> exact absurd (h ▸ hp) (by decide)

theorem twoPages_mapping {u pa flags : BitVec 64} (h : mapping twoPages 0x80200000 u = some (pa, flags)) :
    0x80203000 ≤ pa := by
  obtain ⟨a, ha, he⟩ := Option.bind_eq_some_iff.mp h
  obtain ⟨q, hq, rfl⟩ := Option.map_eq_some_iff.mp ha
  have hpath := twoPages_table (path_isPath u) hq
  simp only [List.mem_cons, Prod.mk.injEq, List.not_mem_nil, or_false, path] at hpath
  rcases hpath with ⟨h, -⟩ | ⟨h, -⟩ | ⟨-, rfl⟩
  · exact absurd (congrArg List.length h) (by simp)
  · exact absurd (congrArg List.length h) (by simp)
  have hleaf : ∀ n < 512, twoPages.word (slot 0x80202000 (.ofNat 64 n)) &&& PTE_V ≠ 0 →
      0x80203000 ≤ PTE2PA (twoPages.word (slot 0x80202000 (.ofNat 64 n))) := by
    decide +kernel
  have hpa := hleaf (PX 0 u).toNat (PX_lt 0 u)
  rw [BitVec.ofNat_toNat, BitVec.setWidth_eq] at hpa
  split_ifs at he with hv
  exact (Prod.mk.inj (Option.some.inj he)).1 ▸ hpa hv

/-- There are also free pages for another table of each level. -/
theorem page_table_map_two :
    mapping twoPages 0x80200000 4096 = some (0x80204000, 0x17) ∧ RefinesMap twoPages 0x80200000 := by
  refine ⟨by decide, page_table_map twoPages_tree ⟨by decide, fun p hp => ?_⟩ fun u pa flags _ _ h =>
    twoPages_notTable (twoPages_mapping h)⟩
  rcases List.mem_pair.mp hp with rfl | rfl
  all_goals exact ⟨by decide, twoPages_notTable (by decide)⟩

end Xv6.Sv39
