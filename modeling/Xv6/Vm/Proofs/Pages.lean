import Xv6.Vm.Code

/-!
# Who has which page

The pages that a call works with are a fixed collection `T`: each of them is on the free list or in the
collection `O` of those that the call owns. `kalloc` and `kfree` move a page from one to the other, and a
page outside of `T` is not touched.
-/

namespace Xv6.Vm

open Function
open Multiset (nodup_add mem_cons_self card cons_coe cons_add add_cons singleton_add)

abbrev vmWp := Prog.execWp KOp.exec fun _ => False

/-- Every page of `T` is free or in `O`, once. -/
structure Acc (T : Multiset Nat) (w : KWorld) (O : Multiset Nat) : Prop where
  sum : (w.free : Multiset Nat) + O = T
  nodup : T.Nodup
  range : ∀ p ∈ T, w.first ≤ p ∧ p < PHYSTOP / PGSIZE
  base : KERNBASE / PGSIZE ≤ w.first

/-- The step takes pages from the free list and writes to those. -/
structure Taken (w w' : KWorld) : Prop where
  rest : w' = { w with free := w'.free, data := w'.data, tick := w'.tick }
  sub : ∀ p ∈ w'.free, p ∈ w.free
  out : ∀ p, p ∉ w.free → w'.data p = w.data p

structure Moved (T : Multiset Nat) (w w' : KWorld) : Prop where
  rest : w' = { w with free := w'.free, data := w'.data, tick := w'.tick }
  out : ∀ p, p ∉ T → w'.data p = w.data p

section

variable {T O : Multiset Nat} {w w' w'' : KWorld} {p : Nat}

variable {A B : Multiset Nat}

theorem mem_left (h : p ∈ A) : p ∈ A + B := Multiset.mem_add.mpr (.inl h)

theorem mem_right (h : p ∈ B) : p ∈ A + B := Multiset.mem_add.mpr (.inr h)

theorem Taken.refl (w : KWorld) : Taken w w := ⟨rfl, fun _ h => h, fun _ _ => rfl⟩

theorem Taken.trans (h : Taken w w') (h' : Taken w' w'') : Taken w w'' := by
  refine ⟨?_, fun p hp => h.sub p (h'.sub p hp), fun p hp => ?_⟩
  · have := h'.rest
    rw [h.rest] at this
    exact this
  · rw [h'.out p fun hmem => hp (h.sub p hmem), h.out p hp]

theorem Moved.refl (T : Multiset Nat) (w : KWorld) : Moved T w w := ⟨rfl, fun _ _ => rfl⟩

theorem Moved.trans (h : Moved T w w') (h' : Moved T w' w'') : Moved T w w'' := by
  refine ⟨?_, fun p hp => by rw [h'.out p hp, h.out p hp]⟩
  have := h'.rest
  rw [h.rest] at this
  exact this

theorem Acc.mem_of_free (h : Acc T w O) (hp : p ∈ w.free) : p ∈ T := by
  rw [← h.sum]
  exact mem_left hp

theorem Acc.mem_of_owned (h : Acc T w O) (hp : p ∈ O) : p ∈ T := by
  rw [← h.sum]
  exact mem_right hp

theorem Acc.not_free (h : Acc T w O) (hp : p ∈ O) : p ∉ w.free := by
  have hnd := h.nodup
  rw [← h.sum, nodup_add] at hnd
  exact fun hmem => Multiset.disjoint_left.mp hnd.2.2 hmem hp

theorem Acc.cons_not_free (h : Acc T w (A + p ::ₘ B)) : p ∉ w.free := by
  refine h.not_free (mem_right ?_)
  exact mem_cons_self p B

theorem Acc.owned_nodup (h : Acc T w O) : O.Nodup := by
  have hnd := h.nodup
  rw [← h.sum, nodup_add] at hnd
  exact hnd.2.1

theorem Acc.card_le (h : Acc T w O) : O.card ≤ 32768 := by
  have hsub : T.toFinset ⊆ Finset.Ico 524288 557056 := by
    intro p hp
    have hr := h.range p (Multiset.mem_toFinset.mp hp)
    have hb := h.base
    simp only [PHYSTOP, KERNBASE, PGSIZE] at hr hb
    rw [Finset.mem_Ico]
    omega
  have hcard := Finset.card_le_card hsub
  rw [Multiset.toFinset_card_of_nodup h.nodup, Nat.card_Ico] at hcard
  have hsum := congrArg card h.sum
  rw [Multiset.card_add] at hsum
  omega

theorem Taken.moved (h : Taken w w') (hacc : Acc T w O) : Moved T w w' :=
  ⟨h.rest, fun _ hp => h.out _ fun hmem => hp (hacc.mem_of_free hmem)⟩

theorem Acc.congr (h : Acc T w O) {O' : Multiset Nat} (hO : O = O') : Acc T w O' := hO ▸ h

section
variable (h : Acc T w (A + B))
include h

theorem Acc.part : Acc (w.free + A) w A := by
  have hsum : (w.free : Multiset Nat) + A + B = T := by rw [add_assoc, h.sum]
  refine ⟨rfl, ?_, fun p hp => h.range p ?_, h.base⟩
  · have hnd := h.nodup
    rw [← hsum, nodup_add] at hnd
    exact hnd.1
  · rw [← hsum]
    exact mem_left hp

theorem Acc.whole {A' : Multiset Nat} (h' : Acc (w.free + A) w' A')
    (hm : Moved (w.free + A) w w') : Acc T w' (A' + B) := by
  have hfirst : w'.first = w.first := by rw [hm.rest]
  refine ⟨?_, h.nodup, by rw [hfirst]; exact h.range, by rw [hfirst]; exact h.base⟩
  rw [← add_assoc, h'.sum, add_assoc, h.sum]

theorem Acc.part_out (hm : Moved (w.free + A) w w') (hp : p ∈ B) :
    w'.data p = w.data p := by
  refine hm.out p fun hmem => ?_
  have hnd := h.nodup
  rw [← h.sum, ← add_assoc, nodup_add] at hnd
  exact Multiset.disjoint_left.mp hnd.2.2 hmem hp

end

theorem Acc.setPage (h : Acc T w O) (p : Nat) (d : Bytes PGSIZE) :
    Acc T { w with data := update w.data p d } O := ⟨h.sum, h.nodup, h.range, h.base⟩

theorem Taken.setPage (h : Taken w w') (hp : p ∈ w.free) (d : Bytes PGSIZE) :
    Taken w { w' with data := update w'.data p d } := by
  refine ⟨?_, h.sub, fun q hq => ?_⟩
  · have := h.rest
    rw [this]
  · have hqp : q ≠ p := fun e => hq (e ▸ hp)
    exact (update_of_ne hqp ..).trans (h.out q hq)

/-! ## The operations -/

variable {α : Type} {Q : α → KWorld → Prop}

theorem wp_kalloc {k : Option Nat → KProg α} (hacc : Acc T w O)
    (hnone : ∀ w', Acc T w' O → Taken w w' → (k none).wp vmWp Q w')
    (hsome : ∀ p w', Acc T w' (p ::ₘ O) → p ∈ w.free → Taken w w' → (k (some p)).wp vmWp Q w') :
    (Prog.op KOp.kalloc k).wp vmWp Q w := by
  have hfail : (k none).wp vmWp Q { w with tick := w.tick + 1 } :=
    hnone _ ⟨hacc.sum, hacc.nodup, hacc.range, hacc.base⟩ ⟨rfl, fun _ h => h, fun _ _ => rfl⟩
  simp only [Prog.wp_op, Prog.execWp, KOp.exec]
  split_ifs with hoom
  · exact hfail
  · cases hfree : w.free with
    | nil =>
      have heq : ({ w with tick := w.tick + 1 } : KWorld) =
          { w with free := [], tick := w.tick + 1 } := by rw [hfree]
      simpa [heq] using hfail
    | cons p ps =>
      refine hsome p _ ⟨?_, hacc.nodup, hacc.range, hacc.base⟩ (by simp [hfree]) ⟨rfl, ?_, fun q hq => ?_⟩
      · have := hacc.sum
        rw [hfree, ← cons_coe, cons_add] at this
        rw [add_cons]
        exact this
      · intro q hq
        rw [hfree]
        exact List.mem_cons_of_mem _ hq
      · have hqp : q ≠ p := by
          rintro rfl
          exact hq (by simp [hfree])
        exact update_of_ne hqp ..

theorem wp_kfree {k : Unit → KProg α} (hacc : Acc T w (p ::ₘ O))
    (h : ∀ w', Acc T w' O → Moved T w w' → w'.free = p :: w.free →
      (∀ q, q ≠ p → w'.data q = w.data q) → (k ()).wp vmWp Q w') :
    (Prog.op (KOp.kfree p) k).wp vmWp Q w := by
  have hp : p ∈ T := hacc.mem_of_owned (mem_cons_self ..)
  have hrange := hacc.range p hp
  simp only [Prog.wp_op, Prog.execWp, KOp.exec]
  rw [if_neg (by omega)]
  have hout : ∀ q, q ≠ p →
      update w.data p (fillPage 1) q = w.data q := fun q hq => update_of_ne hq ..
  refine h _ ⟨?_, hacc.nodup, hacc.range, hacc.base⟩
    ⟨rfl, fun q hq => hout q fun e => hq (e ▸ hp)⟩ rfl hout
  have := hacc.sum
  rw [add_cons] at this
  rw [← cons_coe, cons_add]
  exact this

@[simp] theorem vmWp_page {Q : Bytes PGSIZE → KWorld → Prop} :
    vmWp _ (.page p) Q w ↔ Q (w.data p) w := Iff.rfl

@[simp] theorem vmWp_setPage {d : Bytes PGSIZE} {Q : Unit → KWorld → Prop} :
    vmWp _ (.setPage p d) Q w ↔ Q () { w with data := update w.data p d } := Iff.rfl

end

/-! ## The pages of a page table -/

/-- The page of an entry, if it has one. -/
def pageOf : Option Nat → Multiset Nat
  | none => 0
  | some p => {p}

namespace PageTable

/-- The tree is closed: behind an entry that is not there is nothing. -/
structure Wf (t : PageTable) : Prop where
  dir1 : ∀ i, t.dir1 i ≠ none → i < 512
  dir0 : ∀ j, t.dir0 j ≠ none → t.dir1 (j / 512) ≠ none
  leaf : ∀ v, t.leaf v ≠ .zero → t.dir0 (v / 512) ≠ none

def nodes (t : PageTable) : Multiset Nat :=
  {t.root} + ∑ i ∈ Finset.range 512, pageOf (t.dir1 i) +
    ∑ j ∈ Finset.range (512 * 512), pageOf (t.dir0 j)

/-- The pages that `n` leaf entries from `v` on point to. -/
def frames (t : PageTable) (v n : Nat) : Multiset Nat :=
  ∑ k ∈ Finset.range n, {(t.leaf (v + k)).ppn}

variable {t : PageTable} {i j v : Nat}

theorem empty_wf (p : Nat) : (empty p).Wf :=
  ⟨fun _ h => absurd rfl h, fun _ h => absurd rfl h, fun _ h => absurd rfl h⟩

@[simp] theorem empty_nodes (p : Nat) : (empty p).nodes = {p} := by simp [nodes, empty, pageOf]

theorem sum_pageOf_update {f : Nat → Option Nat} {n : Nat} (hi : i < n) (hf : f i = none)
    (p : Nat) :
    ∑ k ∈ Finset.range n, pageOf (update f i (some p) k) =
      {p} + ∑ k ∈ Finset.range n, pageOf (f k) := by
  have hmem : i ∈ Finset.range n := Finset.mem_range.mpr hi
  rw [← Finset.add_sum_erase _ _ hmem, ← Finset.add_sum_erase (Finset.range n) _ hmem, hf,
    update_self]
  rw [Finset.sum_congr rfl fun k hk => by rw [update_of_ne (Finset.ne_of_mem_erase hk)]]
  simp [pageOf]

section
variable (h : t.Wf)
include h

theorem Wf.addDir1_eq (hi : t.dir1 i = none) (p : Nat) :
    t.addDir1 i p = { t with dir1 := update t.dir1 i (some p) } := by
  have hdir0 : (fun j => if j / 512 = i then none else t.dir0 j) = t.dir0 := by
    funext j
    split_ifs with hj
    · by_contra hne
      exact h.dir0 j (Ne.symm hne) (hj ▸ hi)
    · rfl
  rw [addDir1, hdir0]

theorem Wf.addDir0_eq (hj : t.dir0 j = none) (p : Nat) :
    t.addDir0 j p = { t with dir0 := update t.dir0 j (some p) } := by
  have hleaf : (fun v => if v / 512 = j then Pte.zero else t.leaf v) = t.leaf := by
    funext v
    split_ifs with hv
    · by_contra hne
      exact h.leaf v (Ne.symm hne) (hv ▸ hj)
    · rfl
  rw [addDir0, hleaf]

theorem Wf.addDir1 (hi : t.dir1 i = none) (hlt : i < 512) (p : Nat) :
    (t.addDir1 i p).Wf ∧ (t.addDir1 i p).nodes = p ::ₘ t.nodes := by
  rw [h.addDir1_eq hi]
  refine ⟨⟨fun k hk => ?_, fun j hj => ?_, h.leaf⟩, ?_⟩
  · by_cases hki : k = i
    · exact hki ▸ hlt
    · exact h.dir1 k (by simpa [update_of_ne hki] using hk)
  · by_cases hji : j / 512 = i
    · simp [hji]
    · simpa [update_of_ne hji] using h.dir0 j hj
  · simp only [nodes]
    rw [sum_pageOf_update hlt hi, ← singleton_add]
    abel

theorem Wf.addDir0 (hj : t.dir0 j = none) (hdir : t.dir1 (j / 512) ≠ none)
    (p : Nat) : (t.addDir0 j p).Wf ∧ (t.addDir0 j p).nodes = p ::ₘ t.nodes := by
  have hlt : j < 512 * 512 := by
    have := h.dir1 _ hdir
    omega
  rw [h.addDir0_eq hj]
  refine ⟨⟨h.dir1, fun k hk => ?_, fun v hv => ?_⟩, ?_⟩
  · by_cases hkj : k = j
    · exact hkj ▸ hdir
    · exact h.dir0 k (by simpa [update_of_ne hkj] using hk)
  · by_cases hvj : v / 512 = j
    · simp [hvj]
    · simpa [update_of_ne hvj] using h.leaf v hv
  · simp only [nodes]
    rw [sum_pageOf_update hlt hj, ← singleton_add]
    abel

theorem Wf.setLeaf (hv : t.dir0 (v / 512) ≠ none) (e : Pte) : (t.setLeaf v e).Wf := by
  refine ⟨h.dir1, h.dir0, fun u hu => ?_⟩
  by_cases huv : u = v
  · exact huv ▸ hv
  · exact h.leaf u (by simpa [PageTable.setLeaf, update_of_ne huv] using hu)

end

theorem setLeaf_leaf_self (t : PageTable) (v : Nat) (e : Pte) : (t.setLeaf v e).leaf v = e :=
  update_self ..

theorem setLeaf_leaf_ne (t : PageTable) {u : Nat} (e : Pte) (h : u ≠ v) :
    (t.setLeaf v e).leaf u = t.leaf u := update_of_ne h ..

@[simp] theorem setLeaf_nodes (t : PageTable) (v : Nat) (e : Pte) :
    (t.setLeaf v e).nodes = t.nodes := rfl

-- the unifier must not try the sums
attribute [irreducible] nodes

end PageTable

end Xv6.Vm
