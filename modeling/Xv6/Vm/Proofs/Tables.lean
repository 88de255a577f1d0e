import Xv6.Vm.Proofs.Growing

/-!
# Whole page tables

`proc_pagetable` makes a table or leaves every page free that was; `proc_freepagetable` frees what a
process has; `uvmcopy` makes a copy or unmaps what it has copied.
-/

namespace Xv6.Vm

open Prog (wp_bind wp_op wp)
open Function
open PageTable (addDir1 addDir0 setLeaf_leaf_ne setLeaf_leaf_self empty setLeaf_nodes clear_nodes
  frames_zero empty_wf frames_congr)

variable {T O : Multiset Nat} {w : KWorld} {t old : PageTable} {sz trampoline tf : Nat}
  {Q : Unit → KWorld → Prop} {e : Pte}

/-- The number of the page of `TRAMPOLINE`. -/
abbrev lastPage : Nat := TRAMPOLINE / PGSIZE

/-- The page table of a process: user memory, the trapframe, the trampoline, and nothing else. -/
structure Full (trampoline tf : Nat) (t : PageTable) (sz : Nat) : Prop extends Shape t sz where
  trapframe : t.leaf topPage = ⟨tf, PTE_R ||| PTE_W ||| PTE_V⟩
  trampoline : t.leaf lastPage = ⟨trampoline, PTE_R ||| PTE_X ||| PTE_V⟩
  above : ∀ v, lastPage < v → t.leaf v = .zero

theorem leaf_trapframe (h : e = ⟨tf, PTE_R ||| PTE_W ||| PTE_V⟩) : e.Leaf :=
  leaf_of_flags (f := PTE_R ||| PTE_W ||| PTE_V) (by rw [h]) (by decide) (by decide)

theorem leaf_trampoline (h : e = ⟨tf, PTE_R ||| PTE_X ||| PTE_V⟩) : e.Leaf :=
  leaf_of_flags (f := PTE_R ||| PTE_X ||| PTE_V) (by rw [h]) (by decide) (by decide)

theorem lastPage_eq : lastPage = topPage + 1 := rfl

theorem trampoline_eq : TRAMPOLINE = lastPage * PGSIZE := rfl

theorem trapframe_eq : TRAPFRAME = topPage * PGSIZE := rfl

/-- The table of a process of one page, `p`; the tables are in the three pages before it and the two
behind it. -/
def fullTable (trampoline tf p : Nat) : PageTable :=
  ((((oneTable p).addDir1 255 (p + 1)).addDir0 131071 (p + 2)).setLeaf topPage
    ⟨tf, PTE_R ||| PTE_W ||| PTE_V⟩).setLeaf lastPage ⟨trampoline, PTE_R ||| PTE_X ||| PTE_V⟩

theorem fullTable_full (trampoline tf p : Nat) :
    Full trampoline tf (fullTable trampoline tf p) PGSIZE ∧ (fullTable trampoline tf p).nodes =
      (p + 2) ::ₘ (p + 1) ::ₘ (p - 1) ::ₘ (p - 2) ::ₘ {p - 3} := by
  obtain ⟨hs, hn⟩ := oneTable_shape p
  have hdir1 : (oneTable p).dir1 255 = none := rfl
  obtain ⟨h1, hn1⟩ := hs.wf.addDir1 hdir1 (by decide) (p + 1)
  have hdir0 : ((oneTable p).addDir1 255 (p + 1)).dir0 131071 = none := rfl
  have hdir : ((oneTable p).addDir1 255 (p + 1)).dir1 (131071 / 512) ≠ none := by simp [addDir1]
  obtain ⟨h2, hn2⟩ := h1.addDir0 hdir0 hdir (p + 2)
  have hleaf : (((oneTable p).addDir1 255 (p + 1)).addDir0 131071 (p + 2)).leaf = (oneTable p).leaf := by
    rw [h1.addDir0_eq hdir0]
    rfl
  have hdir2 : (((oneTable p).addDir1 255 (p + 1)).addDir0 131071 (p + 2)).dir0 131071 ≠ none := by
    simp [addDir0]
  have hone : pages PGSIZE = 1 := rfl
  refine ⟨⟨⟨(h2.setLeaf hdir2 _).setLeaf (v := lastPage) hdir2 _, fun v hv => ?_, fun v hv hv' => ?_⟩, ?_, ?_,
    fun v hv => ?_⟩, ?_⟩
  · have hv0 : v = 0 := by omega
    rw [hv0]
    exact leaf_user rfl
  · rw [fullTable, setLeaf_leaf_ne _ _ (by rw [lastPage_eq]; omega),
      setLeaf_leaf_ne _ _ hv'.ne, hleaf]
    exact hs.rest v hv hv'
  · rw [fullTable, setLeaf_leaf_ne _ _ (by decide), setLeaf_leaf_self]
  · exact setLeaf_leaf_self ..
  · rw [fullTable, setLeaf_leaf_ne _ _ hv.ne',
      setLeaf_leaf_ne _ _ (by rw [lastPage_eq] at hv; omega), hleaf, oneTable,
      setLeaf_leaf_ne _ _ (by omega)]
    simp [addDir0, addDir1, empty]
  · rw [fullTable, setLeaf_nodes, setLeaf_nodes, hn2, hn1, hn]

theorem wp_uvmfree (hwf : t.Wf) (hmax : pages sz * PGSIZE ≤ MAXVA)
    (hmapped : ∀ v < pages sz, (t.leaf v).Leaf) (hrest : ∀ v, pages sz ≤ v → t.leaf v = .zero)
    (hacc : Acc T w (t.nodes + (t.frames 0 (pages sz) + O)))
    (h : ∀ w', Acc T w' O → Moved T w w' → Q () w') : (uvmfree t sz).wp vmWp Q w := by
  have hfree : ∀ w1, Acc T w1 (t.nodes + O) → Moved T w w1 →
      (freewalk (t.clear 0 (pages sz))).wp vmWp Q w1 := fun w1 ha1 hm1 => by
    refine wp_freewalk (hwf.clear _ _) (fun v => pte_zero_invalid ?_)
      (ha1.congr (by rw [clear_nodes])) fun w2 ha2 hm2 => h w2 ha2 (hm1.trans hm2)
    by_cases hv : v < pages sz
    · exact if_pos (by omega)
    · exact (if_neg (by omega)).trans (hrest v (by omega))
  rw [uvmfree]
  by_cases hsz : 0 < sz
  · rw [if_pos hsz, pgroundup_eq, page_div, wp_bind, ← Nat.zero_mul PGSIZE, uvmunmap_eq]
    refine wp_uvmunmapLoop (O := t.nodes + O) _ hwf (by rwa [Nat.zero_add])
      (fun u _ hu => hmapped u (by omega)) (hacc.congr (by abel)) fun w1 ha1 hm1 _ => ?_
    exact hfree w1 ha1 hm1
  · have hzero : pages sz = 0 := by rw [show sz = 0 by omega]; rfl
    rw [hzero, frames_zero, Multiset.zero_add] at hacc
    rw [hzero, PageTable.clear_zero] at hfree
    rw [if_neg hsz, wp_bind]
    exact hfree w hacc (.refl T w)

theorem wp_procPagetable (hacc : Acc T w O) {Q : Option PageTable → KWorld → Prop}
    (hfail : ∀ w', Acc T w' O → Moved T w w' → Q none w')
    (hok : ∀ t w', Full trampoline tf t 0 → Acc T w' (t.nodes + O) → Taken w w' → Q (some t) w') :
    (procPagetable trampoline tf).wp vmWp Q w := by
  have hpages : pages 0 = 0 := rfl
  have hmax : pages 0 * PGSIZE ≤ MAXVA := by decide
  have hempty : ∀ {t : PageTable} {w : KWorld}, Acc T w (t.nodes + O) →
      Acc T w (t.nodes + (t.frames 0 (pages 0) + O)) := fun h => h.congr (by
    rw [hpages, frames_zero, Multiset.zero_add])
  rw [procPagetable, uvmcreate, wp_bind]
  simp only [Prog.lift_bind]
  refine wp_kalloc hacc (fun w1 ha1 ht1 => hfail w1 ha1 (ht1.moved hacc)) fun p w1 ha1 hp ht1 => ?_
  simp only [wp_op, vmWp_setPage, Prog.pure_eq, Prog.wp_pure, wp_bind]
  have ht2 := ht1.setPage hp (fillPage 0)
  have ha2 := (ha1.setPage p (fillPage 0)).congr
    (show p ::ₘ O = (empty p).nodes + O by rw [PageTable.empty_nodes, Multiset.singleton_add])
  generalize ({ w1 with data := update w1.data p (fillPage 0) } : KWorld) = w2 at ht2 ha2 ⊢
  rw [trampoline_eq, trapframe_eq]
  refine wp_mappages (empty_wf p) (page_mod _) (by decide) (pte_zero_invalid rfl) ha2 _ _
    (fun t w3 hwf hleaf ha3 ht3 => ?_) fun t w3 hwf hleaf ha3 ht3 => ?_
  · -- no memory for the trampoline: free the tables
    simp only [Bool.not_false, if_true, wp_bind]
    refine wp_uvmfree hwf hmax (fun v hv => absurd hv (Nat.not_lt_zero v))
      (fun v _ => by rw [hleaf]; rfl) (hempty ha3) fun w4 ha4 hm4 => ?_
    exact hfail w4 ha4 ((ht2.moved hacc).trans ((ht3.moved ha2).trans hm4))
  · rw [page_div] at hleaf
    simp only [Bool.not_true, Bool.false_eq_true, if_false, wp_bind]
    have hnone : t.leaf topPage = .zero := by
      rw [hleaf, update_of_ne (by decide)]
      rfl
    refine wp_mappages hwf (page_mod _) (by decide) (pte_zero_invalid (by rw [page_div, hnone])) ha3 _ _
      (fun t' w4 hwf' hleaf' ha4 ht4 => ?_) fun t' w4 hwf' hleaf' ha4 ht4 => ?_
    · -- no memory for the trapframe: unmap the trampoline first
      simp only [Bool.not_false, if_true, wp_bind]
      rw [uvmunmap_eq, uvmunmapLoop_keep 1 hwf' (by decide) fun u hu hu' => ?_]
      · refine wp_uvmfree (hwf'.clear _ _) hmax (fun v hv => absurd hv (Nat.not_lt_zero v))
          (fun v _ => ?_) (hempty (ha4.congr (by rw [clear_nodes]))) fun w5 ha5 hm5 => ?_
        · simp only [PageTable.clear, hleaf', hleaf]
          split_ifs with hv
          · rfl
          · exact update_of_ne (by omega) ..
        · exact hfail w5 ha5 ((ht2.moved hacc).trans ((ht3.moved ha2).trans ((ht4.moved ha3).trans hm5)))
      · rw [show u = lastPage by omega, hleaf', hleaf, update_self]
        exact leaf_trampoline rfl
    · rw [page_div] at hleaf'
      refine hok t' w4 ⟨⟨hwf', fun v hv => absurd hv (Nat.not_lt_zero v), fun v _ hv => ?_⟩, ?_, ?_,
        fun v hv => ?_⟩ ha4 (ht2.trans (ht3.trans ht4))
      · rw [hleaf', hleaf, update_of_ne hv.ne, update_of_ne (by rw [lastPage_eq]; omega)]
        rfl
      · rw [hleaf', update_self]
      · rw [hleaf', update_of_ne (by decide), hleaf, update_self]
      · rw [hleaf', update_of_ne (by rw [lastPage_eq] at hv; omega), hleaf, update_of_ne hv.ne']
        rfl

theorem pages_lt_top (h : pages sz ≤ 2 ^ 20) : pages sz < topPage := by
  show pages sz < (2 ^ 38 - 4096 - 4096) / 4096
  omega

theorem pages_le_max (h : pages sz ≤ 2 ^ 20) : pages sz * PGSIZE ≤ MAXVA := by
  show pages sz * 4096 ≤ 2 ^ 38
  omega

theorem wp_procFreepagetable (hfull : Full trampoline tf t sz)
    (hacc : Acc T w (t.nodes + (t.frames 0 (pages sz) + O)))
    (h : ∀ w', Acc T w' O → Moved T w w' → Q () w') : (procFreepagetable t sz).wp vmWp Q w := by
  have htop := pages_lt_top hacc.pages_le
  rw [procFreepagetable, trampoline_eq, trapframe_eq, uvmunmap_eq,
    uvmunmapLoop_keep 1 hfull.wf (by decide) fun u hu hu' => ?_]
  · set t1 := t.clear lastPage 1 with ht1
    have hleaf1 : ∀ u, u ≠ lastPage → t1.leaf u = t.leaf u := fun u hu => if_neg (by omega)
    simp only [Prog.pure_bind]
    rw [uvmunmap_eq, uvmunmapLoop_keep 1 (hfull.wf.clear _ _) (by decide) fun u hu hu' => ?_]
    · set t2 := t1.clear topPage 1 with ht2
      have hleaf2 : ∀ u, u ≠ topPage → t2.leaf u = t1.leaf u := fun u hu => if_neg (by omega)
      have huser : ∀ u < pages sz, t2.leaf u = t.leaf u := fun u hu => by
        rw [hleaf2 u (by omega), hleaf1 u (by rw [lastPage_eq]; omega)]
      refine wp_uvmfree ((hfull.wf.clear _ _).clear _ _) (pages_le_max hacc.pages_le)
        (fun v hv => by rw [huser v hv]; exact hfull.mapped v hv) (fun v hv => ?_) (hacc.congr ?_) h
      · by_cases hvt : v = topPage
        · exact if_pos (by omega)
        rw [hleaf2 v hvt]
        by_cases hvl : v = lastPage
        · exact if_pos (by omega)
        · rw [hleaf1 v hvl]
          by_cases hlt : v < topPage
          · exact hfull.rest v hv hlt
          · exact hfull.above v (by rw [lastPage_eq] at hvl ⊢; omega)
      · have hframes : t2.frames 0 (pages sz) = t.frames 0 (pages sz) :=
          frames_congr fun u _ hu => by rw [huser u (by omega)]
        rw [hframes, clear_nodes, clear_nodes]
    · rw [show u = topPage by omega, hleaf1 _ (by decide)]
      exact leaf_trapframe hfull.trapframe
  · rw [show u = lastPage by omega]
    exact leaf_trampoline hfull.trampoline

/-! ## `uvmcopy` -/

theorem Pte.Leaf.flags_or (h : e.Leaf) : e.flags ||| PTE_V = e.flags := by
  have hv : e.flags &&& PTE_V ≠ 0 := of_decide_eq_true h.1
  generalize e.flags = f at hv
  revert hv
  revert f
  decide

/-- The loop of `uvmcopy`, which has copied `v` pages of `N`. The pages of the old table are none of
those it works with. -/
theorem wp_uvmcopyLoop {N : Nat} (hwfo : old.Wf) (hN : N ≤ 2 ^ 20)
    (hold : ∀ u < N, (old.leaf u).Leaf ∧ (old.leaf u).ppn ∉ T) (n : Nat) :
    ∀ {t : PageTable} {w : KWorld} {v : Nat} {Q : Bool × PageTable → KWorld → Prop}, v + n = N → t.Wf →
      (∀ u < v, (t.leaf u).Leaf) → (∀ u, v ≤ u → u < topPage → t.leaf u = .zero) →
      Acc T w (t.nodes + (t.frames 0 v + O)) →
      (∀ t' w', t'.Wf → (∀ u < v, t'.leaf u = .zero) → (∀ u, v ≤ u → t'.leaf u = t.leaf u) →
        Acc T w' (t'.nodes + O) → Moved T w w' → Q (false, t') w') →
      (∀ t' w', t'.Wf → (∀ u, u < v ∨ N ≤ u → t'.leaf u = t.leaf u) →
        (∀ u, v ≤ u → u < N → (t'.leaf u).flags = (old.leaf u).flags ∧
          w'.data (t'.leaf u).ppn = w.data (old.leaf u).ppn) →
        Acc T w' (t'.nodes + (t'.frames 0 N + O)) → Taken w w' → Q (true, t') w') →
      (uvmcopyLoop old n t (v * PGSIZE)).wp vmWp Q w := by
  induction n with
  | zero =>
    intro t w v Q hv hwf hmapped hfree hacc hfail hok
    have hv : v = N := by omega
    subst hv
    exact hok t w hwf (fun _ _ => rfl) (fun u hu hu' => by omega) hacc (.refl w)
  | succ n ih =>
    intro t w v Q hv hwf hmapped hfree hacc hfail hok
    have hmax : v * PGSIZE < MAXVA := by
      show v * 4096 < 2 ^ 38
      omega
    have hzero : t.leaf v = .zero := by
      refine hfree v le_rfl ?_
      show v < (2 ^ 38 - 4096 - 4096) / 4096
      omega
    -- giving up: unmap what has been copied
    have hundo : ∀ (t1 : PageTable) (w1 : KWorld), t1.Wf → t1.leaf = t.leaf →
        Acc T w1 (t1.nodes + (t1.frames 0 v + O)) → Moved T w w1 →
        wp vmWp (uvmunmap t1 0 v true >>= fun t => Prog.pure (false, t)) Q w1 := by
      intro t1 w1 hwf1 hleaf1 hacc1 hm1
      rw [wp_bind, ← Nat.zero_mul PGSIZE, uvmunmap_eq]
      refine wp_uvmunmapLoop (O := t1.nodes + O) v hwf1 (by rw [Nat.zero_add]; exact hmax.le)
        (fun u _ hu => by rw [hleaf1]; exact hmapped u (by omega)) (hacc1.congr (by abel))
        fun w2 hacc2 hm2 _ => ?_
      refine hfail _ w2 (hwf1.clear _ _) (fun u hu => ?_) (fun u hu => ?_)
        (hacc2.congr (by rw [clear_nodes])) (hm1.trans hm2)
      · exact if_pos (by omega)
      · exact (if_neg (by omega)).trans (by rw [hleaf1])
    obtain ⟨holdv, hout⟩ := hold v (by omega)
    rw [uvmcopyLoop, walk_found hwfo hmax false (by rw [page_div]; exact hwfo.leaf v holdv.ne_zero)]
    simp only [Prog.pure_bind, page_div, holdv.1, Bool.true_eq_false, if_false, Prog.lift_bind]
    refine wp_kalloc hacc (fun w1 ha ht => hundo t w1 hwf rfl ha (ht.moved hacc))
      fun mem w1 ha hmem ht => ?_
    simp only [wp_op, vmWp_page, vmWp_setPage, wp_bind]
    have hsrc : w1.data (old.leaf v).ppn = w.data (old.leaf v).ppn :=
      ht.out _ fun h => hout (hacc.mem_of_free h)
    rw [hsrc]
    set w2 : KWorld := { w1 with
      data := update w1.data mem (w.data (old.leaf v).ppn) } with hw2
    have ht2 : Taken w w2 := ht.setPage hmem _
    have ha2 : Acc T w2 (t.nodes + (mem ::ₘ (t.frames 0 v + O))) :=
      (ha.setPage mem _).congr (by rw [Multiset.add_cons])
    refine wp_mappages hwf (page_mod v) hmax (pte_zero_invalid (by rw [page_div, hzero])) ha2 mem _
      (fun t1 w3 hwf1 hleaf1 ha3 ht3 => ?_) fun t1 w3 hwf1 hleaf1 ha3 ht3 => ?_
    · -- no memory for a table
      refine wp_kfree (ha3.congr (by rw [Multiset.add_cons])) fun w4 ha4 hm4 _ _ => ?_
      refine hundo t1 w4 hwf1 hleaf1 (ha4.congr ?_)
        ((ht2.moved hacc).trans ((ht3.moved ha2).trans hm4))
      rw [frames_congr fun u _ _ => by rw [hleaf1]]
    · rw [page_div, holdv.flags_or] at hleaf1
      have hsame : ∀ u, u ≠ v → t1.leaf u = t.leaf u := fun u hu => by rw [hleaf1, update_of_ne hu]
      have hnew : t1.leaf v = ⟨mem, (old.leaf v).flags⟩ := by rw [hleaf1, update_self]
      have hframes : t1.frames 0 (v + 1) = mem ::ₘ t.frames 0 v := by
        rw [PageTable.frames_succ, Nat.zero_add, hnew]
        exact congrArg _ (frames_congr fun u _ hu => by rw [hsame u (by omega)])
      have hmem3 : mem ∉ w3.free := ha3.cons_not_free
      rw [← Nat.succ_mul]
      refine ih (by omega) hwf1 (fun u hu => ?_) (fun u hu hu' => ?_)
        (ha3.congr (by rw [hframes, Multiset.cons_add])) (fun t' w' hwf' hin hout' ha' hm' => ?_)
        fun t' w' hwf' hout' hin ha' ht' => ?_
      · by_cases huv : u = v
        · rw [huv, hnew]
          exact holdv
        · rw [hsame u huv]
          exact hmapped u (by omega)
      · rw [hsame u (by omega)]
        exact hfree u (by omega) hu'
      · refine hfail t' w' hwf' (fun u hu => hin u (by omega)) (fun u hu => ?_) ha'
          ((ht2.moved hacc).trans ((ht3.moved ha2).trans hm'))
        by_cases huv : u = v
        · rw [huv, hin v (by omega), hzero]
        · rw [hout' u (by omega), hsame u huv]
      · have hkeep : ∀ u < N, w3.data (old.leaf u).ppn = w.data (old.leaf u).ppn := fun u hu =>
          (ht2.trans ht3).out _ fun h => (hold u hu).2 (hacc.mem_of_free h)
        refine hok t' w' hwf' (fun u hu => ?_) (fun u hu hu' => ?_) ha' (ht2.trans (ht3.trans ht'))
        · rw [hout' u (by omega), hsame u (by omega)]
        · by_cases huv : u = v
          · rw [huv, hout' v (by omega), hnew]
            refine ⟨rfl, ?_⟩
            rw [ht'.out mem hmem3, ht3.out mem ha2.cons_not_free]
            exact update_self ..
          · rw [← hkeep u hu']
            exact hin u (by omega) hu'

theorem wp_uvmcopy (hwfo : old.Wf) (hN : pages sz ≤ 2 ^ 20)
    (hold : ∀ u < pages sz, (old.leaf u).Leaf ∧ (old.leaf u).ppn ∉ T)
    (hfull : Full trampoline tf t 0) (hacc : Acc T w (t.nodes + O))
    {Q : Bool × PageTable → KWorld → Prop}
    (hfail : ∀ t' w', Full trampoline tf t' 0 → Acc T w' (t'.nodes + O) → Moved T w w' →
      Q (false, t') w')
    (hok : ∀ t' w', Full trampoline tf t' sz →
      (∀ u < pages sz, (t'.leaf u).flags = (old.leaf u).flags ∧
        w'.data (t'.leaf u).ppn = w.data (old.leaf u).ppn) →
      Acc T w' (t'.nodes + (t'.frames 0 (pages sz) + O)) → Taken w w' → Q (true, t') w') :
    (uvmcopy old t sz).wp vmWp Q w := by
  have htop := pages_lt_top hN
  rw [uvmcopy, ← Nat.zero_mul PGSIZE]
  refine wp_uvmcopyLoop hwfo hN hold (pages sz) (Nat.zero_add _) hfull.wf
    (fun u hu => absurd hu (Nat.not_lt_zero u)) hfull.rest
    (hacc.congr (by rw [frames_zero, Multiset.zero_add]))
    (fun t' w' hwf' _ hleaf ha' hm => ?_) fun t' w' hwf' hout hin ha' htk => ?_
  · have hleaf : t'.leaf = t.leaf := funext fun u => hleaf u (Nat.zero_le u)
    refine hfail t' w' ⟨⟨hwf', ?_, ?_⟩, ?_, ?_, ?_⟩ ha' hm <;> rw [hleaf]
    exacts [hfull.mapped, hfull.rest, hfull.trapframe, hfull.trampoline, hfull.above]
  · have hout : ∀ u, pages sz ≤ u → t'.leaf u = t.leaf u := fun u hu => hout u (.inr hu)
    have hlast : pages sz ≤ lastPage := by
      rw [lastPage_eq]
      omega
    refine hok t' w' ⟨⟨hwf', fun v hv => ?_, fun v hv hv' => ?_⟩, ?_, ?_, fun v hv => ?_⟩
      (fun u hu => hin u (Nat.zero_le u) hu) ha' htk
    · have hflags := (hin v (Nat.zero_le v) hv).1
      have hl := (hold v hv).1
      exact leaf_of_flags hflags (of_decide_eq_true hl.1) hl.2
    · rw [hout v hv]
      exact hfull.rest v (Nat.zero_le v) hv'
    · rw [hout _ htop.le]
      exact hfull.trapframe
    · rw [hout _ hlast]
      exact hfull.trampoline
    · rw [hout v (hlast.trans hv.le)]
      exact hfull.above v hv

end Xv6.Vm
