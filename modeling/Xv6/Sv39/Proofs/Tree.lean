import Mathlib.Tactic
import Xv6.Sv39.Code

/-!
# The tree of page-table pages

A page-table page is reached from the root by a path of indices. As long as different paths lead to
different pages, writing an entry changes the one place that it is for.
-/

namespace Xv6.Sv39

open BitVec (eq_of_toNat_eq toNat_shiftLeft toNat_ushiftRight toNat_and)

/-! ## Addresses and entries -/

def Aligned (p : BitVec 64) : Prop := p.toNat % 4096 = 0

instance : DecidablePred Aligned := fun p => inferInstanceAs (Decidable (p.toNat % 4096 = 0))

section

variable {p q i j va f : BitVec 64} (e : BitVec 64) (level : Nat)

theorem slot_toNat (hq : Aligned q) (hi : i.toNat < 512) : (slot q i).toNat = q.toNat + 8 * i.toNat := by
  unfold Aligned at hq
  rw [slot, BitVec.toNat_add, BitVec.toNat_mul, show (8 : BitVec 64).toNat = 8 from rfl]
  omega

theorem slot_inj (hp : Aligned p) (hq : Aligned q) (hi : i.toNat < 512) (hj : j.toNat < 512)
    (h : slot p i = slot q j) : p = q ∧ i = j := by
  have h := congrArg BitVec.toNat h
  rw [slot_toNat hp hi, slot_toNat hq hj] at h
  unfold Aligned at hp hq
  exact ⟨eq_of_toNat_eq (by omega), eq_of_toNat_eq (by omega)⟩

theorem slot_sub_lt (hp : Aligned p) (hq : Aligned q) (hi : i.toNat < 512) :
    slot q i - p < PGSIZE ↔ q = p := by
  have hslot := slot_toNat hq hi
  rw [BitVec.lt_def, BitVec.toNat_sub, show PGSIZE.toNat = 4096 from rfl, ← BitVec.toNat_inj]
  unfold Aligned at hp hq
  omega

theorem PTE2PA_aligned : Aligned (PTE2PA e) := by
  rw [Aligned, PTE2PA, toNat_shiftLeft, Nat.shiftLeft_eq]
  omega

theorem shiftRight_flags (hf : f.toNat < 1024) : f >>> 10 = 0#64 := by
  apply eq_of_toNat_eq
  rw [toNat_ushiftRight, Nat.shiftRight_eq_div_pow, Nat.div_eq_of_lt hf]
  rfl

theorem PA2PTE_toNat (p : BitVec 64) : (PA2PTE p).toNat = p.toNat / 4096 * 1024 := by
  rw [PA2PTE, toNat_shiftLeft, toNat_ushiftRight, Nat.shiftLeft_eq,
    Nat.shiftRight_eq_div_pow]
  omega

theorem PTE2PA_PA2PTE (hp : Aligned p) (hf : f.toNat < 1024) : PTE2PA (PA2PTE p ||| f) = p := by
  rw [PTE2PA, BitVec.ushiftRight_or_distrib, shiftRight_flags hf, BitVec.or_zero]
  apply eq_of_toNat_eq
  rw [toNat_shiftLeft, toNat_ushiftRight, PA2PTE_toNat, Nat.shiftLeft_eq,
    Nat.shiftRight_eq_div_pow]
  unfold Aligned at hp
  omega

theorem and_flags_toNat : (PTE_FLAGS e).toNat = e.toNat % 1024 := by
  rw [PTE_FLAGS, toNat_and]
  exact Nat.and_two_pow_sub_one_eq_mod _ 10

theorem PTE_FLAGS_PA2PTE (p : BitVec 64) (hf : f.toNat < 1024) : PTE_FLAGS (PA2PTE p ||| f) = f := by
  have hp : PTE_FLAGS (PA2PTE p) = 0 := by
    apply eq_of_toNat_eq
    rw [and_flags_toNat, PA2PTE_toNat]
    exact Nat.mul_mod_left _ _
  have hf' : PTE_FLAGS f = f := by
    apply eq_of_toNat_eq
    rw [and_flags_toNat, Nat.mod_eq_of_lt hf]
  rw [PTE_FLAGS, BitVec.and_comm, BitVec.and_or_distrib_left, BitVec.and_comm _ (PA2PTE p),
    BitVec.and_comm _ f]
  exact (congrArg₂ (· ||| ·) hp hf').trans (BitVec.zero_or)

theorem or_valid : (e ||| PTE_V) &&& PTE_V ≠ 0 := by
  rw [BitVec.and_comm, BitVec.and_or_distrib_left]
  intro h
  have h := congrArg (·.getLsbD 0) h
  simp at h

theorem PX_toNat (va : BitVec 64) :
    (PX level va).toNat = va.toNat / 2 ^ (12 + 9 * level) % 512 := by
  rw [PX, toNat_and, toNat_ushiftRight, Nat.shiftRight_eq_div_pow]
  exact Nat.and_two_pow_sub_one_eq_mod _ 9

theorem PX_lt (va : BitVec 64) : (PX level va).toNat < 512 := by
  rw [PX_toNat]
  exact Nat.mod_lt _ (by decide)

theorem eq_of_PX {va' : BitVec 64} (ha : Aligned va) (ha' : Aligned va') (hva : va < MAXVA)
    (hva' : va' < MAXVA) (h : ∀ level < 3, PX level va = PX level va') : va = va' := by
  have hlt : va.toNat < 2 ^ 38 := hva
  have hlt' : va'.toNat < 2 ^ 38 := hva'
  have h0 := congrArg BitVec.toNat (h 0 (by decide))
  have h1 := congrArg BitVec.toNat (h 1 (by decide))
  have h2 := congrArg BitVec.toNat (h 2 (by decide))
  rw [PX_toNat, PX_toNat] at h0 h1 h2
  unfold Aligned at ha ha'
  exact eq_of_toNat_eq (by omega)

end

/-! ## Tables -/

/-- The table that entry `i` of the table at `q` points to. -/
def child (m : PhysMem) (q i : BitVec 64) : Option (BitVec 64) :=
  if m.word (slot q i) &&& PTE_V ≠ 0 then some (PTE2PA (m.word (slot q i))) else none

def table (m : PhysMem) (root : BitVec 64) (ρ : List (BitVec 64)) : Option (BitVec 64) :=
  ρ.foldlM (child m) root

def IsPath (ρ : List (BitVec 64)) : Prop := ρ.length ≤ 2 ∧ ∀ i ∈ ρ, i.toNat < 512

structure Tree (m : PhysMem) (root : BitVec 64) : Prop where
  base : Aligned root
  inj : ∀ {ρ σ q}, IsPath ρ → IsPath σ → table m root ρ = some q → table m root σ = some q → ρ = σ

def NotTable (m : PhysMem) (root p : BitVec 64) : Prop := ∀ ρ, IsPath ρ → table m root ρ ≠ some p

/-- The path of indices to the table that has the leaf entry for `va`. -/
def path (va : BitVec 64) : List (BitVec 64) := [PX 2 va, PX 1 va]

/-- The address of the leaf entry for `va`. -/
def entry (m : PhysMem) (root va : BitVec 64) : Option (BitVec 64) :=
  (table m root (path va)).map (slot · (PX 0 va))

/-- The map that a page table stands for: physical address and flags of the page of `va`. -/
def mapping (m : PhysMem) (root va : BitVec 64) : Option (BitVec 64 × BitVec 64) :=
  (entry m root va).bind fun a =>
    if m.word a &&& PTE_V ≠ 0 then some (PTE2PA (m.word a), PTE_FLAGS (m.word a)) else none

section

variable {m m' : PhysMem} {root p q i a v va : BitVec 64} {ρ σ : List (BitVec 64)}

theorem store_word_self (m : PhysMem) (a v : BitVec 64) : (store m a v).word a = v := by
  exact Function.update_self ..

theorem store_word_ne {b : BitVec 64} (h : b ≠ a) (m : PhysMem) (v : BitVec 64) :
    (store m a v).word b = m.word b := by
  exact Function.update_of_ne h ..

theorem table_snoc (m : PhysMem) (root : BitVec 64) (σ : List (BitVec 64)) (i : BitVec 64) :
    table m root (σ ++ [i]) = (table m root σ).bind (child m · i) := by
  unfold table
  rw [List.foldlM_append]
  cases List.foldlM (child m) root σ with
  | none => rfl
  | some q => exact bind_pure (child m q i)

theorem IsPath.of_snoc (h : IsPath (σ ++ [i])) : IsPath σ ∧ σ.length < 2 ∧ i.toNat < 512 := by
  obtain ⟨hlen, hlt⟩ := h
  rw [List.length_append, List.length_singleton] at hlen
  exact ⟨⟨by omega, fun j hj => hlt j (List.mem_append_left _ hj)⟩, by omega,
    hlt i (List.mem_append_right _ (List.mem_singleton_self i))⟩

theorem IsPath.snoc (h : IsPath σ) (hlen : σ.length < 2) (hi : i.toNat < 512) :
    IsPath (σ ++ [i]) := by
  refine ⟨by rw [List.length_append, List.length_singleton]; omega, fun j hj => ?_⟩
  rcases List.mem_append.mp hj with hj | hj
  · exact h.2 j hj
  · rw [List.mem_singleton.mp hj]
    exact hi

theorem path_isPath (va : BitVec 64) : IsPath (path va) := ⟨Nat.le_refl 2, by simp [path, PX_lt]⟩

theorem table_aligned (hroot : Aligned root) (h : table m root ρ = some q) : Aligned q := by
  rcases List.eq_nil_or_concat ρ with rfl | ⟨σ, i, rfl⟩
  · rw [← Option.some.inj h]
    exact hroot
  rw [List.concat_eq_append, table_snoc] at h
  obtain ⟨q', -, hchild⟩ := Option.bind_eq_some_iff.mp h
  unfold child at hchild
  split_ifs at hchild
  rw [← Option.some.inj hchild]
  exact PTE2PA_aligned _

namespace Tree

theorem aligned (ht : Tree m root) (h : table m root ρ = some q) : Aligned q := table_aligned ht.base h

theorem table_congr
    (h : ∀ σ q i, IsPath (σ ++ [i]) → table m root σ = some q →
      m'.word (slot q i) = m.word (slot q i)) (hρ : IsPath ρ) :
    table m' root ρ = table m root ρ := by
  -- along the path from the root
  induction ρ using List.reverseRecOn with
  | nil => rfl
  | append_singleton σ i ih =>
    rw [table_snoc, table_snoc, ih hρ.of_snoc.1]
    cases hq : table m root σ with
    | none => rfl
    | some q =>
      show child m' q i = child m q i
      rw [child, child, h σ q i hρ hq]

theorem of_table (ht : Tree m root) (h : ∀ ρ, IsPath ρ → table m' root ρ = table m root ρ) :
    Tree m' root :=
  ⟨ht.base, fun {ρ σ _} hρ hσ hq hq' => ht.inj hρ hσ (h ρ hρ ▸ hq) (h σ hσ ▸ hq')⟩

theorem entry_inj (ht : Tree m root) {va' : BitVec 64} (hal : Aligned va) (hal' : Aligned va')
    (hva : va < MAXVA) (hva' : va' < MAXVA) (h : entry m root va = some a)
    (h' : entry m root va' = some a) : va = va' := by
  obtain ⟨q, hq, rfl⟩ := Option.map_eq_some_iff.mp h
  obtain ⟨q', hq', hslot⟩ := Option.map_eq_some_iff.mp h'
  obtain ⟨rfl, h0⟩ := slot_inj (ht.aligned hq') (ht.aligned hq) (PX_lt 0 va') (PX_lt 0 va) hslot
  have hpath := ht.inj (path_isPath va) (path_isPath va') hq hq'
  simp only [path, List.cons.injEq, and_true] at hpath
  refine eq_of_PX hal hal' hva hva' fun level hlevel => ?_
  interval_cases level
  · exact h0.symm
  · exact hpath.2
  · exact hpath.1

/-! ## A leaf entry is written -/

section

variable (ht : Tree m root)
include ht

section
variable (ha : entry m root va = some a)
include ha

theorem entry_ne (hσ : IsPath (σ ++ [i])) (hq : table m root σ = some q) : slot q i ≠ a := by
  obtain ⟨q', hq', rfl⟩ := Option.map_eq_some_iff.mp ha
  intro h
  obtain ⟨hσ', hlen, hi⟩ := hσ.of_snoc
  obtain ⟨rfl, -⟩ := slot_inj (ht.aligned hq) (ht.aligned hq') hi (PX_lt 0 va) h
  have hpath := ht.inj hσ' (path_isPath va) hq hq'
  rw [hpath] at hlen
  exact absurd hlen (Nat.lt_irrefl 2)

theorem store_table (v : BitVec 64) (hρ : IsPath ρ) : table (store m a v) root ρ = table m root ρ :=
  table_congr (fun _ _ _ hσ hq => store_word_ne (ht.entry_ne ha hσ hq) m v) hρ

theorem store_tree (v : BitVec 64) : Tree (store m a v) root :=
  ht.of_table fun _ hρ => ht.store_table ha v hρ

theorem store_entry (v u : BitVec 64) : entry (store m a v) root u = entry m root u := by
  rw [entry, entry, ht.store_table ha v (path_isPath u)]

theorem store_mapping_self (v : BitVec 64) :
    mapping (store m a v) root va =
      if v &&& PTE_V ≠ 0 then some (PTE2PA v, PTE_FLAGS v) else none := by
  rw [mapping, ht.store_entry ha, ha, Option.bind_some, store_word_self]

end

theorem store_mapping_ne (hal : Aligned va) (hva : va < MAXVA) (ha : entry m root va = some a)
    (v : BitVec 64) {u : BitVec 64} (hu : Aligned u) (hlt : u < MAXVA) (hne : u ≠ va) :
    mapping (store m a v) root u = mapping m root u := by
  rw [mapping, mapping, ht.store_entry ha]
  cases hb : entry m root u with
  | none => rfl
  | some b =>
    have hba : b ≠ a := fun h => hne (ht.entry_inj hu hal hlt hva (h ▸ hb) ha)
    rw [Option.bind_some, Option.bind_some, store_word_ne hba]

end

/-! ## Another page is written -/

theorem mapping_of_words (h : ∀ ρ q i, IsPath ρ → table m root ρ = some q → i.toNat < 512 →
    m'.word (slot q i) = m.word (slot q i)) :
    (∀ ρ, IsPath ρ → table m' root ρ = table m root ρ) ∧
      ∀ u, mapping m' root u = mapping m root u := by
  have htable : ∀ ρ, IsPath ρ → table m' root ρ = table m root ρ := fun ρ hρ =>
    table_congr (fun σ q i hσ hq => h σ q i hσ.of_snoc.1 hq hσ.of_snoc.2.2) hρ
  refine ⟨htable, fun u => ?_⟩
  rw [mapping, mapping, entry, entry, htable _ (path_isPath u)]
  cases hq : table m root (path u) with
  | none => rfl
  | some q => simp only [Option.map_some, Option.bind_some, h _ q _ (path_isPath u) hq (PX_lt 0 u)]

theorem memset_words (ht : Tree m root) (hp : Aligned p) (hnot : NotTable m root p) (c : BitVec 64) :
    ∀ ρ q i, IsPath ρ → table m root ρ = some q → i.toNat < 512 →
      (memset m p c).word (slot q i) = m.word (slot q i) := fun ρ q i hρ hq hi => by
  refine if_neg fun h => ?_
  rw [slot_sub_lt hp (ht.aligned hq) hi] at h
  exact hnot ρ hρ (h ▸ hq)

end Tree

end

end Xv6.Sv39
