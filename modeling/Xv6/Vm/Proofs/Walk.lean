import Xv6.Vm.Proofs.Pages

/-!
# Mapping and unmapping

What `walk`, `mappages`, `uvmunmap` and `freewalk` do to a closed tree. The leaf entry for an address has
the number of the address's page.
-/

namespace Xv6.Vm

open Prog (pure_eq wp wp_bind forEach wp_mono execWp_mono)
open Function
open Multiset (cons_add singleton_add mem_sum)
open Finset (sum_congr range)

variable {T O : Multiset Nat} {w : KWorld} {t : PageTable} {a i n p v : Nat}
  (f : Nat → Multiset Nat)

variable {va : Nat} {Q : Unit → KWorld → Prop}

theorem px_two (h : va < MAXVA) : PX 2 va < 512 ∧ PX 2 va = va / PGSIZE / 512 / 512 := by
  simp only [PX, MAXVA, PGSIZE] at *
  omega

theorem px_one (h : va < MAXVA) : 512 * PX 2 va + PX 1 va = va / PGSIZE / 512 := by
  simp only [PX, MAXVA, PGSIZE] at *
  omega

theorem px_zero (h : va < MAXVA) : 512 * (512 * PX 2 va + PX 1 va) + PX 0 va = va / PGSIZE := by
  simp only [PX, MAXVA, PGSIZE] at *
  omega

/-! ## `walk` -/

theorem walk_found (hwf : t.Wf) (hva : va < MAXVA) (alloc : Bool)
    (h : t.dir0 (va / PGSIZE / 512) ≠ none) :
    walk t va alloc = Prog.pure (some (va / PGSIZE), t) := by
  obtain ⟨q, hq⟩ := Option.ne_none_iff_exists'.mp h
  obtain ⟨p, hp⟩ := Option.ne_none_iff_exists'.mp (hwf.dir0 _ h)
  rw [walk, if_neg (not_le.mpr hva)]
  simp only []
  rw [(px_two hva).2, table1, hp]
  simp only [pure_eq, Prog.pure_bind]
  rw [← (px_two hva).2, px_one hva, table0, hq]
  simp only [pure_eq, Prog.pure_bind]
  rw [← px_one hva, px_zero hva]

/-- `walk` without `alloc` in a tree that does not have the entry. -/
theorem walk_missing (hva : va < MAXVA) (h : t.dir0 (va / PGSIZE / 512) = none) :
    walk t va false = Prog.pure (none, t) := by
  rw [walk, if_neg (not_le.mpr hva)]
  simp only []
  rw [(px_two hva).2, table1]
  cases hp : t.dir1 (va / PGSIZE / 512 / 512) with
  | none => rfl
  | some p =>
    simp only [pure_eq, Prog.pure_bind]
    rw [← (px_two hva).2, px_one hva, table0, h]
    rfl

theorem wp_newTable (hacc : Acc T w O) {Q : Option Nat → KWorld → Prop}
    (hnone : ∀ w', Acc T w' O → Taken w w' → Q none w')
    (hsome : ∀ p w', Acc T w' (p ::ₘ O) → Taken w w' → Q (some p) w') :
    (newTable true).wp vmWp Q w := by
  refine wp_kalloc hacc (fun w' ha ht => hnone w' ha ht) fun p w' ha hp ht => ?_
  exact hsome p _ (ha.setPage p _) (ht.setPage hp _)

theorem wp_walk_alloc (hwf : t.Wf) (hva : va < MAXVA) (hacc : Acc T w (t.nodes + O))
    {Q : Option Nat × PageTable → KWorld → Prop}
    (hnone : ∀ t' w', t'.Wf → t'.leaf = t.leaf → Acc T w' (t'.nodes + O) → Taken w w' → Q (none, t') w')
    (hsome : ∀ t' w', t'.Wf → t'.leaf = t.leaf → Acc T w' (t'.nodes + O) → Taken w w' →
      t'.dir0 (va / PGSIZE / 512) ≠ none → Q (some (va / PGSIZE), t') w') :
    (walk t va true).wp vmWp Q w := by
  have hi := px_two hva
  -- the second level, in a tree that has the level-1 table
  have hrest : ∀ t1 w1 (k : Option PageTable → KProg (Option Nat × PageTable)),
      k none = .pure (none, t1) →
      (∀ t, k (some t) = .pure (some (512 * (va / PGSIZE / 512) + PX 0 va), t)) → t1.Wf →
        t1.leaf = t.leaf → Acc T w1 (t1.nodes + O) → Taken w w1 →
      t1.dir1 (va / PGSIZE / 512 / 512) ≠ none →
      wp vmWp (table0 t1 (va / PGSIZE / 512) true >>= k) Q w1 := by
    intro t1 w1 k hk hk' hwf1 hleaf1 hacc1 ht1 hdir
    have hv : 512 * (va / PGSIZE / 512) + PX 0 va = va / PGSIZE := by rw [← px_one hva, px_zero hva]
    rw [hv] at hk'
    rw [table0]
    cases hq : t1.dir0 (va / PGSIZE / 512) with
    | some q =>
      show wp vmWp (k (some t1)) Q w1
      rw [hk']
      exact hsome t1 w1 hwf1 hleaf1 hacc1 ht1 (by simp [hq])
    | none =>
      simp only [wp_bind]
      refine wp_newTable hacc1 (fun w2 ha ht => ?_) fun p w2 ha ht => ?_
      · show wp vmWp (k none) Q w2
        rw [hk]
        exact hnone t1 w2 hwf1 hleaf1 ha (ht1.trans ht)
      · obtain ⟨hwf2, hnodes⟩ := hwf1.addDir0 hq hdir p
        have hleaf2 : (t1.addDir0 (va / PGSIZE / 512) p).leaf = t.leaf := by
          rw [hwf1.addDir0_eq hq, ← hleaf1]
        show wp vmWp (k (some (t1.addDir0 (va / PGSIZE / 512) p))) Q w2
        rw [hk']
        refine hsome _ w2 hwf2 hleaf2 ?_ (ht1.trans ht) ?_
        · rw [hnodes, cons_add]
          exact ha
        · rw [hwf1.addDir0_eq hq]
          simp
  rw [walk, if_neg (not_le.mpr hva)]
  simp only [pure_eq]
  rw [px_one hva, hi.2, table1]
  cases hp : t.dir1 (va / PGSIZE / 512 / 512) with
  | some p => exact hrest t w _ rfl (fun _ => rfl) hwf rfl hacc (.refl w) (by simp [hp])
  | none =>
    rw [wp_bind, wp_bind]
    refine wp_newTable hacc (fun w1 ha ht => ?_) fun p w1 ha ht => ?_
    · exact hnone t w1 hwf rfl ha ht
    · obtain ⟨hwf1, hnodes⟩ := hwf.addDir1 hp (hi.2 ▸ hi.1) p
      refine hrest _ w1 _ rfl (fun _ => rfl) hwf1 ?_ ?_ ht ?_
      · rw [hwf.addDir1_eq hp]
      · rw [hnodes, cons_add]
        exact ha
      · rw [hwf.addDir1_eq hp]
        simp

/-! ## `mappages` -/

theorem mappages_one (t : PageTable) (ha : a % PGSIZE = 0) (ppn : Nat) (perm : BitVec 10) :
    mappages t a PGSIZE ppn perm = mappagesLoop perm 1 t a ppn := by
  have ha : a % 4096 = 0 := ha
  have h1 : PGROUNDDOWN a = a := by
    show a / 4096 * 4096 = a
    omega
  have h2 : PGROUNDDOWN (a + PGSIZE - 1) = a := by
    show (a + 4096 - 1) / 4096 * 4096 = a
    omega
  rw [mappages, h1, h2, Nat.sub_self]
  rfl

theorem wp_mappages (hwf : t.Wf) (ha : a % PGSIZE = 0) (hva : a < MAXVA)
    (hfree : (t.leaf (a / PGSIZE)).has PTE_V = false) (hacc : Acc T w (t.nodes + O)) (ppn : Nat)
    (perm : BitVec 10) {Q : Bool × PageTable → KWorld → Prop}
    (hfail : ∀ t' w', t'.Wf → t'.leaf = t.leaf → Acc T w' (t'.nodes + O) → Taken w w' →
      Q (false, t') w')
    (hok : ∀ t' w', t'.Wf → t'.leaf = update t.leaf (a / PGSIZE) ⟨ppn, perm ||| PTE_V⟩ →
      Acc T w' (t'.nodes + O) → Taken w w' → Q (true, t') w') :
    (mappages t a PGSIZE ppn perm).wp vmWp Q w := by
  rw [mappages_one t ha, mappagesLoop, wp_bind]
  refine wp_walk_alloc hwf hva hacc (fun t' w' hwf' hleaf ha' ht => hfail t' w' hwf' hleaf ha' ht)
    fun t' w' hwf' hleaf ha' ht hdir => ?_
  simp only [hleaf, hfree, Bool.false_eq_true, if_false]
  refine hok _ w' (hwf'.setLeaf hdir _) ?_ (ha'.congr (by rw [PageTable.setLeaf_nodes])) ht
  rw [PageTable.setLeaf, hleaf]

/-! ## `uvmunmap` -/

/-- A leaf entry: valid, and with a permission. -/
def Pte.Leaf (e : Pte) : Prop := e.has PTE_V = true ∧ e.flags ≠ PTE_V

theorem Pte.Leaf.ne_zero {e : Pte} (h : e.Leaf) : e ≠ .zero := by
  rintro rfl
  exact absurd h.1 (by decide)

/-- The tree without the leaf entries from `v` to `v + n`. -/
def PageTable.clear (t : PageTable) (v n : Nat) : PageTable :=
  { t with leaf := fun u => if v ≤ u ∧ u < v + n then .zero else t.leaf u }

theorem PageTable.clear_zero (t : PageTable) (v : Nat) : t.clear v 0 = t := by
  have : (fun u => if v ≤ u ∧ u < v + 0 then Pte.zero else t.leaf u) = t.leaf := by
    funext u
    exact if_neg (by omega)
  rw [clear, this]

theorem PageTable.clear_succ (t : PageTable) (v n : Nat) :
    (t.setLeaf v .zero).clear (v + 1) n = t.clear v (n + 1) := by
  simp only [clear, setLeaf, PageTable.mk.injEq, true_and]
  funext u
  by_cases hu : v + 1 ≤ u ∧ u < v + 1 + n
  · rw [if_pos hu, if_pos (by omega)]
  · rw [if_neg hu]
    by_cases huv : u = v
    · rw [huv, update_self, if_pos (by omega)]
    · rw [update_of_ne huv, if_neg (by omega)]

@[simp] theorem PageTable.clear_nodes (t : PageTable) (v n : Nat) : (t.clear v n).nodes = t.nodes := by
  simp only [nodes, clear]

theorem PageTable.Wf.clear (h : t.Wf) (v n : Nat) : (t.clear v n).Wf := by
  refine ⟨h.dir1, h.dir0, fun u hu => h.leaf u fun hz => hu ?_⟩
  simp only [PageTable.clear, hz, ite_self]

theorem PageTable.frames_zero (t : PageTable) (v : Nat) : t.frames v 0 = 0 := by simp [frames]

theorem PageTable.frames_succ' (t : PageTable) (v n : Nat) :
    t.frames v (n + 1) = (t.leaf v).ppn ::ₘ t.frames (v + 1) n := by
  rw [frames, Finset.sum_range_succ', Nat.add_zero, add_comm, singleton_add, frames]
  congr 1
  refine sum_congr rfl fun k _ => ?_
  rw [show v + (k + 1) = v + 1 + k by omega]

theorem PageTable.frames_succ (t : PageTable) (v n : Nat) :
    t.frames v (n + 1) = (t.leaf (v + n)).ppn ::ₘ t.frames v n := by
  rw [frames, Finset.sum_range_succ, add_comm, singleton_add]
  rfl

theorem PageTable.frames_congr {t' : PageTable}
    (h : ∀ u, v ≤ u → u < v + n → (t'.leaf u).ppn = (t.leaf u).ppn) :
    t'.frames v n = t.frames v n :=
  sum_congr rfl fun k hk => by
    rw [h (v + k) (Nat.le_add_right ..) (by have := Finset.mem_range.mp hk; omega)]

theorem PageTable.mem_frames : p ∈ t.frames v n ↔ ∃ k < n, (t.leaf (v + k)).ppn = p := by
  simp only [frames, mem_sum, Finset.mem_range, Multiset.mem_singleton, eq_comm]

theorem page_mod (v : Nat) : (v * PGSIZE) % PGSIZE = 0 := Nat.mul_mod_left ..

theorem page_div (v : Nat) : v * PGSIZE / PGSIZE = v := Nat.mul_div_cancel _ (by decide)

theorem uvmunmapLoop_succ {doFree : Bool} (hwf : t.Wf)
    (hmax : (v + (n + 1)) * PGSIZE ≤ MAXVA) (hleaf : (t.leaf v).Leaf) :
    uvmunmapLoop doFree (n + 1) t (v * PGSIZE) =
      (if doFree then .lift (.kfree (t.leaf v).ppn) else Prog.pure ()) >>= fun _ =>
        uvmunmapLoop doFree n (t.setLeaf v .zero) ((v + 1) * PGSIZE) := by
  have hlt : v * PGSIZE < MAXVA := by
    simp only [PGSIZE] at hmax ⊢
    omega
  have hdir : t.dir0 (v * PGSIZE / PGSIZE / 512) ≠ none := by
    rw [page_div]
    exact hwf.leaf v hleaf.ne_zero
  rw [uvmunmapLoop, walk_found hwf hlt false hdir, Prog.pure_bind, page_div, Nat.succ_mul]
  simp only []
  rw [if_neg (by rw [hleaf.1]; decide), if_neg hleaf.2]
  cases doFree <;> rfl

theorem wp_uvmunmapLoop (n : Nat) : ∀ {t : PageTable} {w : KWorld} {v : Nat}
    {Q : PageTable → KWorld → Prop}, t.Wf → (v + n) * PGSIZE ≤ MAXVA →
    (∀ u, v ≤ u → u < v + n → (t.leaf u).Leaf) → Acc T w (t.frames v n + O) →
    (∀ w', Acc T w' O → Moved T w w' → (∀ p, p ∉ t.frames v n → w'.data p = w.data p) →
      Q (t.clear v n) w') →
    (uvmunmapLoop true n t (v * PGSIZE)).wp vmWp Q w := by
  induction n with
  | zero =>
    intro t w v Q hwf hmax hmapped hacc h
    rw [PageTable.frames_zero, Multiset.zero_add] at hacc
    rw [PageTable.clear_zero] at h
    exact h w hacc (.refl T w) fun _ _ => rfl
  | succ n ih =>
    intro t w v Q hwf hmax hmapped hacc h
    have hleaf := hmapped v le_rfl (by omega)
    rw [uvmunmapLoop_succ hwf hmax hleaf]
    rw [PageTable.frames_succ', cons_add] at hacc
    refine wp_kfree hacc fun w' hacc' hmoved _ hdata => ?_
    have hframes : (t.setLeaf v .zero).frames (v + 1) n = t.frames (v + 1) n :=
      PageTable.frames_congr fun u hu _ => by rw [PageTable.setLeaf_leaf_ne _ _ (by omega)]
    refine ih (hwf.setLeaf (hwf.leaf v hleaf.ne_zero) _) (by rw [Nat.add_right_comm]; exact hmax)
      (fun u hu hu' => ?_) (by rwa [hframes]) fun w'' hacc'' hmoved' hdata' => ?_
    · rw [PageTable.setLeaf_leaf_ne _ _ (by omega)]
      exact hmapped u (by omega) (by omega)
    · rw [PageTable.clear_succ]
      refine h w'' hacc'' (hmoved.trans hmoved') fun p hp => ?_
      rw [PageTable.frames_succ', Multiset.mem_cons, not_or] at hp
      rw [hdata' p (by rw [hframes]; exact hp.2), hdata p hp.1]

theorem uvmunmapLoop_keep (n : Nat) : ∀ {t : PageTable} {v : Nat}, t.Wf → (v + n) * PGSIZE ≤ MAXVA →
    (∀ u, v ≤ u → u < v + n → (t.leaf u).Leaf) →
    uvmunmapLoop false n t (v * PGSIZE) = Prog.pure (t.clear v n) := by
  induction n with
  | zero =>
    intro t v hwf hmax hmapped
    rw [PageTable.clear_zero]
    rfl
  | succ n ih =>
    intro t v hwf hmax hmapped
    have hleaf := hmapped v le_rfl (by omega)
    rw [uvmunmapLoop_succ hwf hmax hleaf]
    simp only [Bool.false_eq_true, if_false, Prog.pure_bind]
    rw [ih (hwf.setLeaf (hwf.leaf v hleaf.ne_zero) _) (by rw [Nat.add_right_comm]; exact hmax)
      (fun u hu hu' => ?_), PageTable.clear_succ]
    rw [PageTable.setLeaf_leaf_ne _ _ (by omega)]
    exact hmapped u (by omega) (by omega)

theorem uvmunmap_eq (t : PageTable) (v n : Nat) (doFree : Bool) :
    uvmunmap t (v * PGSIZE) n doFree = uvmunmapLoop doFree n t (v * PGSIZE) := by
  rw [uvmunmap, if_neg (by simp)]

/-! ## `freewalk` -/

theorem forEach_skip {f : Nat → KProg Unit} {ks : List Nat} (h : ∀ k ∈ ks, f k = Prog.pure ()) :
    forEach f ks = Prog.pure () := by
  induction ks with
  | nil => rfl
  | cons k ks ih =>
    rw [forEach, h k (List.mem_cons_self ..), Prog.pure_bind,
      ih fun k' hk' => h k' (List.mem_cons_of_mem _ hk')]

theorem sum_range_list (n : Nat) : ((List.range n).map f).sum = ∑ k ∈ range n, f k := rfl

theorem sum_entries : (entries.map f).sum = ∑ k ∈ range 512, f k := by
  delta entries
  exact sum_range_list f 512

theorem sum_rows (g : Nat → Multiset Nat) (m : Nat) :
    ∑ j ∈ range (512 * m), g j = ∑ i ∈ range m, ∑ k ∈ range 512, g (512 * i + k) := by
  induction m with
  | zero => simp
  | succ m ih =>
    rw [Nat.mul_succ, Finset.sum_range_add, ih,
      Finset.sum_range_succ (fun i => ∑ k ∈ range 512, g (512 * i + k)) m]

/-- The pages of the tables below an entry of the level-2 table, with that entry's own. -/
def PageTable.below (t : PageTable) (i : Nat) : Multiset Nat :=
  pageOf (t.dir1 i) + ∑ k ∈ Finset.range 512, pageOf (t.dir0 (512 * i + k))

theorem PageTable.nodes_eq (t : PageTable) : t.nodes = {t.root} + ∑ i ∈ range 512, t.below i := by
  rw [nodes, sum_rows, add_assoc, ← Finset.sum_add_distrib]
  rfl

theorem PageTable.nodes_list (t : PageTable) (O : Multiset Nat) :
    t.nodes + O = (entries.map t.below).sum + (t.root ::ₘ O) := by
  rw [nodes_eq, sum_entries, ← singleton_add t.root O]
  abel

theorem PageTable.below_list (t : PageTable) (hp : t.dir1 i = some p) (O : Multiset Nat) :
    t.below i + O = (entries.map fun k => pageOf (t.dir0 (512 * i + k))).sum + (p ::ₘ O) := by
  rw [below, sum_entries, hp, pageOf, ← singleton_add p O]
  abel

theorem PageTable.Wf.below_none (h : t.Wf) (hi : t.dir1 i = none) : t.below i = 0 := by
  have hzero : ∀ k ∈ range 512, pageOf (t.dir0 (512 * i + k)) = 0 := by
    intro k hk
    have hk := Finset.mem_range.mp hk
    have hnone : t.dir0 (512 * i + k) = none := by
      by_contra hne
      refine h.dir0 _ hne ?_
      rwa [show (512 * i + k) / 512 = i by omega]
    rw [hnone]
    rfl
  rw [below, hi, Finset.sum_eq_zero hzero]
  rfl

section
variable (hleaf : ∀ v, (t.leaf v).has PTE_V = false)
include hleaf

theorem wp_freewalk0 {j q : Nat}
    (hacc : Acc T w (q ::ₘ O)) (h : ∀ w', Acc T w' O → Moved T w w' → Q () w') :
    (freewalk0 t j q).wp vmWp Q w := by
  rw [freewalk0, forEach_skip fun k _ => by rw [hleaf]; rfl, Prog.pure_bind]
  exact wp_kfree hacc fun w' ha hm _ _ => h w' ha hm

theorem wp_freewalk1
    (hp : t.dir1 i = some p) (hacc : Acc T w (t.below i + O))
    (h : ∀ w', Acc T w' O → Moved T w w' → Q () w') : (freewalk1 t i p).wp vmWp Q w := by
  let I : List Nat → KWorld → Prop := fun ks w' =>
    Acc T w' ((ks.map fun k => pageOf (t.dir0 (512 * i + k))).sum + (p ::ₘ O)) ∧ Moved T w w'
  have hstart : I entries w := ⟨hacc.congr (t.below_list hp O), .refl T w⟩
  rw [freewalk1, wp_bind]
  refine wp_mono (execWp_mono _) _ (fun _ w' hI => ?_)
    (Prog.wp_forEach (execWp_mono _) I (fun k ks w' hI => ?_) _ _ hstart)
  · refine wp_kfree (hI.1.congr (by simp)) fun w'' ha hm _ _ => h w'' ha (hI.2.trans hm)
  · obtain ⟨ha, hm⟩ := hI
    rw [List.map_cons, List.sum_cons] at ha
    cases hq : t.dir0 (512 * i + k) with
    | none =>
      rw [hq] at ha
      exact ⟨ha.congr (by simp [pageOf]), hm⟩
    | some q =>
      rw [hq] at ha
      have hq' : Acc T w' (q ::ₘ ((ks.map fun k => pageOf (t.dir0 (512 * i + k))).sum +
          (p ::ₘ O))) := ha.congr (by rw [pageOf, add_assoc, singleton_add])
      have hdone : ∀ w'', Acc T w'' ((ks.map fun k => pageOf (t.dir0 (512 * i + k))).sum +
          (p ::ₘ O)) → Moved T w' w'' → I ks w'' := fun w'' ha' hm' => ⟨ha', hm.trans hm'⟩
      exact wp_freewalk0 hleaf hq' hdone

end

theorem wp_freewalk (hwf : t.Wf) (hleaf : ∀ v, (t.leaf v).has PTE_V = false)
    (hacc : Acc T w (t.nodes + O)) (h : ∀ w', Acc T w' O → Moved T w w' → Q () w') :
    (freewalk t).wp vmWp Q w := by
  let I : List Nat → KWorld → Prop := fun is w' =>
    Acc T w' ((is.map t.below).sum + (t.root ::ₘ O)) ∧ Moved T w w'
  have hstart : I entries w := ⟨hacc.congr (t.nodes_list O), .refl T w⟩
  rw [freewalk, wp_bind]
  refine wp_mono (execWp_mono _) _ (fun _ w' hI => ?_)
    (Prog.wp_forEach (execWp_mono _) I (fun i is w' hI => ?_) _ _ hstart)
  · exact wp_kfree (hI.1.congr (by simp)) fun w'' ha hm _ _ => h w'' ha (hI.2.trans hm)
  · obtain ⟨ha, hm⟩ := hI
    rw [List.map_cons, List.sum_cons, add_assoc] at ha
    cases hp : t.dir1 i with
    | none =>
      rw [hwf.below_none hp, zero_add] at ha
      exact ⟨ha, hm⟩
    | some p =>
      have hdone : ∀ w'', Acc T w'' ((is.map t.below).sum + (t.root ::ₘ O)) → Moved T w' w'' →
          I is w'' := fun w'' ha' hm' => ⟨ha', hm.trans hm'⟩
      exact wp_freewalk1 hleaf hp ha hdone

end Xv6.Vm
