import Xv6.Vm.Proofs.Walk

/-!
# Growing and shrinking

`uvmalloc` and `uvmdealloc` on a range of pages. What `uvmalloc` has mapped when it fails it unmaps
again; the tables it has added stay.
-/

namespace Xv6.Vm

open Function
open Multiset (zero_add card_add add_cons)

variable {T O : Multiset Nat} {w : KWorld} {t : PageTable} {Q : Nat × PageTable → KWorld → Prop}
  {e : Pte}

abbrev userFlags : BitVec 10 := PTE_W ||| PTE_X ||| PTE_R ||| PTE_U ||| PTE_V

theorem leaf_of_flags {f : BitVec 10} (h : e.flags = f) (hv : f &&& PTE_V ≠ 0)
    (hf : f ≠ PTE_V) : e.Leaf :=
  ⟨by rw [Pte.has, h]; exact decide_eq_true hv, by rwa [h]⟩

theorem leaf_user (h : e.flags = userFlags) : e.Leaf :=
  leaf_of_flags h (by decide) (by decide)

/-- The number of the page of `TRAPFRAME`; the user pages are below it. -/
abbrev topPage : Nat := TRAPFRAME / PGSIZE

/-- The number of pages of a process of size `sz`. -/
def pages (sz : Nat) : Nat := (sz + PGSIZE - 1) / PGSIZE

theorem pgroundup_eq (sz : Nat) : PGROUNDUP sz = pages sz * PGSIZE := rfl

theorem pages_mul (v : Nat) : pages (v * PGSIZE) = v := by
  show (v * 4096 + 4096 - 1) / 4096 = v
  omega

theorem PageTable.frames_card (t : PageTable) (v n : Nat) : (t.frames v n).card = n := by
  induction n with
  | zero => simp [frames]
  | succ n ih => rw [frames_succ, Multiset.card_cons, ih]

theorem pte_zero_invalid (h : e = .zero) : e.has PTE_V = false := by
  rw [h]
  decide

theorem pages_mono {a b : Nat} (h : a ≤ b) : pages a ≤ pages b := by
  exact Nat.div_le_div_right (by omega)

variable {oldsz newsz : Nat}

/-- `uvmdealloc` frees the pages the smaller size does not have. -/
theorem wp_uvmdealloc (hle : newsz ≤ oldsz) (hwf : t.Wf) (hmax : pages oldsz * PGSIZE ≤ MAXVA)
    (hmapped : ∀ u, pages newsz ≤ u → u < pages oldsz → (t.leaf u).Leaf)
    (hacc : Acc T w (t.frames (pages newsz) (pages oldsz - pages newsz) + O))
    (h : ∀ w', Acc T w' O → Moved T w w' →
      (∀ p, p ∉ t.frames (pages newsz) (pages oldsz - pages newsz) → w'.data p = w.data p) →
      Q (newsz, t.clear (pages newsz) (pages oldsz - pages newsz)) w') :
    (uvmdealloc t oldsz newsz).wp vmWp Q w := by
  have hpos : 0 < PGSIZE := by decide
  have hpages := pages_mono hle
  rw [uvmdealloc]
  by_cases heq : pages oldsz = pages newsz
  · rw [heq, Nat.sub_self, PageTable.frames_zero, zero_add] at hacc
    rw [heq, Nat.sub_self, PageTable.clear_zero] at h
    have hdone : Q (newsz, t) w := h w hacc (.refl T w) fun _ _ => rfl
    by_cases hge : newsz ≥ oldsz
    · rw [if_pos hge, show oldsz = newsz by omega]
      exact hdone
    · rw [if_neg hge, pgroundup_eq, pgroundup_eq, heq, if_neg (lt_irrefl _)]
      exact hdone
  · have hlt : pages newsz * PGSIZE < pages oldsz * PGSIZE :=
      Nat.mul_lt_mul_of_pos_right (by omega) hpos
    have hge : ¬ newsz ≥ oldsz := fun hge => heq (by rw [show oldsz = newsz by omega])
    rw [if_neg hge, pgroundup_eq, pgroundup_eq, if_pos hlt, ← Nat.sub_mul,
      Nat.mul_div_cancel _ hpos, uvmunmap_eq, Prog.wp_bind]
    have hv : pages newsz + (pages oldsz - pages newsz) = pages oldsz := by omega
    exact wp_uvmunmapLoop _ hwf (by rw [hv]; exact hmax)
      (fun u hu hu' => hmapped u hu (by omega)) hacc h

theorem wp_uvmallocLoop {v0 : Nat} (hv0 : v0 ≤ 2 ^ 20) (n : Nat) :
    ∀ {t : PageTable} {w : KWorld} {v : Nat} {Q : Bool × PageTable → KWorld → Prop}, t.Wf →
      v0 ≤ v → (∀ u, v0 ≤ u → u < v → (t.leaf u).Leaf) →
      (∀ u, v ≤ u → u < topPage → t.leaf u = .zero) →
      Acc T w (t.nodes + (t.frames v0 (v - v0) + O)) →
      (∀ t' w', t'.Wf → (∀ u, u < v0 ∨ v ≤ u → t'.leaf u = t.leaf u) →
        (∀ u, v0 ≤ u → u < v → t'.leaf u = .zero) → Acc T w' (t'.nodes + O) → Moved T w w' →
        Q (false, t') w') →
      (∀ t' w', t'.Wf → (∀ u, u < v ∨ v + n ≤ u → t'.leaf u = t.leaf u) →
        (∀ u, v ≤ u → u < v + n →
          (t'.leaf u).flags = userFlags ∧ w'.data (t'.leaf u).ppn = fillPage 0) →
        Acc T w' (t'.nodes + (t'.frames v0 (v + n - v0) + O)) → Taken w w' → v + n ≤ 2 ^ 21 →
        Q (true, t') w') →
      (uvmallocLoop (v0 * PGSIZE) n t (v * PGSIZE)).wp vmWp Q w := by
  induction n with
  | zero =>
    intro t w v Q hwf hle hmapped hfree hacc hfail hok
    have hcard := hacc.card_le
    rw [card_add, card_add, PageTable.frames_card] at hcard
    exact hok t w hwf (fun _ _ => rfl) (fun u hu hu' => by omega) hacc (.refl w) (by omega)
  | succ n ih =>
    intro t w v Q hwf hle hmapped hfree hacc hfail hok
    have hcard := hacc.card_le
    rw [card_add, card_add, PageTable.frames_card] at hcard
    have hmax : v * PGSIZE < MAXVA := by
      show v * 4096 < 2 ^ 38
      omega
    have hzero : t.leaf v = .zero := by
      refine hfree v le_rfl ?_
      show v < (2 ^ 38 - 4096 - 4096) / 4096
      omega
    -- giving up: unmap what has been mapped
    have hundo : ∀ (t1 : PageTable) (w1 : KWorld), t1.Wf → t1.leaf = t.leaf →
        Acc T w1 (t1.nodes + (t1.frames v0 (v - v0) + O)) → Moved T w w1 →
        Prog.wp vmWp (uvmdealloc t1 (v * PGSIZE) (v0 * PGSIZE) >>= fun x =>
          Prog.pure (false, x.2)) Q w1 := by
      intro t1 w1 hwf1 hleaf1 hacc1 hm1
      rw [Prog.wp_bind]
      refine wp_uvmdealloc (O := t1.nodes + O) (Nat.mul_le_mul_right _ hle) hwf1
        (by rw [pages_mul]; exact hmax.le) (by rwa [hleaf1, pages_mul, pages_mul])
        (hacc1.congr (by rw [pages_mul, pages_mul]; abel)) fun w2 hacc2 hm2 _ => ?_
      rw [pages_mul, pages_mul]
      refine hfail _ w2 (hwf1.clear _ _) (fun u hu => ?_) (fun u hu hu' => ?_)
        (hacc2.congr (by rw [PageTable.clear_nodes])) (hm1.trans hm2)
      · simp only [PageTable.clear, hleaf1]
        exact if_neg (by omega)
      · exact if_pos (by omega)
    rw [uvmallocLoop]
    simp only [Prog.lift_bind]
    refine wp_kalloc hacc (fun w1 ha ht => hundo t w1 hwf rfl ha (ht.moved hacc))
      fun mem w1 ha hmem ht => ?_
    simp only [Prog.wp_op, vmWp_setPage, Prog.wp_bind]
    set w2 : KWorld := { w1 with data := update w1.data mem (fillPage 0) } with hw2
    have ht2 : Taken w w2 := ht.setPage hmem _
    have ha2 : Acc T w2 (t.nodes + (mem ::ₘ (t.frames v0 (v - v0) + O))) :=
      (ha.setPage mem _).congr (by rw [add_cons])
    refine wp_mappages hwf (page_mod v) hmax (pte_zero_invalid (by rw [page_div, hzero])) ha2 mem _
      (fun t1 w3 hwf1 hleaf1 ha3 ht3 => ?_) fun t1 w3 hwf1 hleaf1 ha3 ht3 => ?_
    · -- no memory for a table
      refine wp_kfree (ha3.congr (by rw [add_cons])) fun w4 ha4 hm4 _ _ => ?_
      refine hundo t1 w4 hwf1 hleaf1 (ha4.congr ?_)
        ((ht2.moved hacc).trans ((ht3.moved ha2).trans hm4))
      rw [PageTable.frames_congr fun u _ _ => by rw [hleaf1]]
    · rw [page_div] at hleaf1
      have hsame : ∀ u, u ≠ v → t1.leaf u = t.leaf u := fun u hu => by rw [hleaf1, update_of_ne hu]
      have hnew : t1.leaf v = ⟨mem, userFlags⟩ := by rw [hleaf1, update_self]
      have hframes : t1.frames v0 (v + 1 - v0) = mem ::ₘ t.frames v0 (v - v0) := by
        rw [show v + 1 - v0 = v - v0 + 1 by omega, PageTable.frames_succ,
          show v0 + (v - v0) = v by omega, hnew]
        exact congrArg _ (PageTable.frames_congr fun u _ hu => by rw [hsame u (by omega)])
      rw [← Nat.succ_mul]
      have hmem3 : mem ∉ w3.free := ha3.cons_not_free
      refine ih hwf1 (Nat.le_succ_of_le hle) (fun u hu hu' => ?_) (fun u hu hu' => ?_)
        (ha3.congr (by rw [hframes, Multiset.cons_add])) (fun t' w' hwf' hout hin ha' hm' => ?_)
        fun t' w' hwf' hout hin ha' ht' hlim => ?_
      · by_cases huv : u = v
        · exact leaf_user (by rw [huv, hnew])
        · rw [hsame u huv]
          exact hmapped u hu (by omega)
      · rw [hsame u (by omega)]
        exact hfree u (by omega) hu'
      · refine hfail t' w' hwf' (fun u hu => ?_) (fun u hu hu' => hin u hu (by omega)) ha'
          ((ht2.moved hacc).trans ((ht3.moved ha2).trans hm'))
        by_cases huv : u = v
        · rw [huv, hin v (by omega) (by omega), hzero]
        · rw [hout u (by omega), hsame u huv]
      · refine hok t' w' hwf' (fun u hu => ?_) (fun u hu hu' => ?_)
          (ha'.congr (by rw [show v + 1 + n - v0 = v + (n + 1) - v0 by omega]))
          (ht2.trans (ht3.trans ht')) (by omega)
        · rw [hout u (by omega), hsame u (by omega)]
        · by_cases huv : u = v
          · rw [huv, hout v (by omega), hnew]
            refine ⟨rfl, ?_⟩
            rw [ht'.out mem hmem3, ht3.out mem ha2.cons_not_free]
            exact update_self ..
          · exact hin u (by omega) (by omega)

theorem wp_uvmalloc (hle : oldsz ≤ newsz) (hlim : pages oldsz ≤ 2 ^ 20)
    (hwf : t.Wf) (hfree : ∀ u, pages oldsz ≤ u → u < topPage → t.leaf u = .zero)
    (hacc : Acc T w (t.nodes + O))
    (hfail : ∀ t' w', t'.Wf → t'.leaf = t.leaf → Acc T w' (t'.nodes + O) → Moved T w w' →
      Q (0, t') w')
    (hok : ∀ t' w', t'.Wf →
      (∀ u, u < pages oldsz ∨ pages newsz ≤ u → t'.leaf u = t.leaf u) →
      (∀ u, pages oldsz ≤ u → u < pages newsz →
        (t'.leaf u).flags = userFlags ∧ w'.data (t'.leaf u).ppn = fillPage 0) →
      Acc T w' (t'.nodes + (t'.frames (pages oldsz) (pages newsz - pages oldsz) + O)) →
      Taken w w' → pages newsz ≤ 2 ^ 21 → Q (newsz, t') w') :
    (uvmalloc t oldsz newsz).wp vmWp Q w := by
  have hpages := pages_mono hle
  have hcount : (newsz - PGROUNDUP oldsz + PGSIZE - 1) / PGSIZE = pages newsz - pages oldsz := by
    show (newsz - (oldsz + 4096 - 1) / 4096 * 4096 + 4096 - 1) / 4096 =
      (newsz + 4096 - 1) / 4096 - (oldsz + 4096 - 1) / 4096
    omega
  have hsum : pages oldsz + (pages newsz - pages oldsz) = pages newsz := by omega
  rw [uvmalloc, if_neg (by omega), hcount, pgroundup_eq, Prog.wp_bind]
  refine wp_uvmallocLoop hlim _ hwf le_rfl (fun u hu hu' => by omega) hfree
    (hacc.congr (by rw [Nat.sub_self, PageTable.frames_zero, zero_add]))
    (fun t' w' hwf' hout _ hacc' hm => ?_) fun t' w' hwf' hout hin hacc' ht hlim' => ?_
  · exact hfail t' w' hwf' (funext fun u => hout u (by omega)) hacc' hm
  · rw [hsum] at hout hin hacc' hlim'
    exact hok t' w' hwf' hout hin hacc' ht hlim'

end Xv6.Vm
