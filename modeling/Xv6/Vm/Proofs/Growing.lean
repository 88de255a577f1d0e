import Xv6.Vm.Process
import Xv6.Vm.Proofs.Space

/-!
# Growing and shrinking a process

`growproc` computes with the `int` it is given and a `uint` size. When the new size is not negative that
is exact, since memory is so small that no size comes near `2 ^ 32`.
-/

namespace Xv6.Vm

open BitVec (ofNat toNat_ofNat)
open PageTable (frames_card frames_congr empty empty_wf addDir1 addDir0)

variable {T O : Multiset Nat} {w : KWorld} {t : PageTable} {sz v a : Nat}

/-- User memory as the kernel keeps it: the pages below the size are mapped, and nothing between them and
the trapframe is. -/
structure Shape (t : PageTable) (sz : Nat) : Prop where
  wf : t.Wf
  mapped : ∀ v < pages sz, (t.leaf v).Leaf
  rest : ∀ v, pages sz ≤ v → v < topPage → t.leaf v = .zero

def userByte (w : KWorld) (t : PageTable) (a : Nat) : BitVec 8 :=
  (w.data (t.leaf (a / PGSIZE)).ppn).byte (a % PGSIZE)

theorem PageTable.frames_add (t : PageTable) (v m n : Nat) :
    t.frames v (m + n) = t.frames v m + t.frames (v + m) n := by
  unfold frames
  rw [Finset.sum_range_add]
  simp only [Nat.add_assoc]

theorem PageTable.frames_split (t : PageTable) {m n : Nat} (h : m ≤ n) :
    t.frames 0 n = t.frames 0 m + t.frames m (n - m) := by
  have := t.frames_add 0 m (n - m)
  rwa [Nat.zero_add, show m + (n - m) = n by omega] at this

theorem page_lt (h : a < sz) : a / PGSIZE < pages sz := by
  show a / 4096 < (sz + 4096 - 1) / 4096
  omega

variable {n : BitVec 32} {p : Process}

theorem toNat_ofNat_add (ha : a < 2 ^ 32) (h : 0 ≤ (a : Int) + n.toInt)
    (hlt : (a : Int) + n.toInt < 2 ^ 32) : ((ofNat 32 a + n).toNat : Int) = a + n.toInt := by
  rw [BitVec.toInt_eq_toNat_cond] at h hlt ⊢
  rw [BitVec.toNat_add, toNat_ofNat, Nat.mod_eq_of_lt ha]
  split_ifs at h hlt ⊢ <;> omega

/-- What `growproc` does when the new size is not negative. -/
structure Grown (T O : Multiset Nat) (w w' : KWorld) (t t' : PageTable) (p p' : Process)
    (n : BitVec 32) (r : Int) : Prop where
  proc : p' = { p with sz := p'.sz, pagetable := some t' }
  result : r = 0 ∨ r = -1
  size : r = 0 ↔ (p'.sz : Int) = p.sz + n.toInt
  shape : Shape t' p'.sz
  acc : Acc T w' (t'.nodes + (t'.frames 0 (pages p'.sz) + O))
  kept : r = 0 → ∀ a < min p.sz p'.sz, userByte w' t' a = userByte w t a
  zeroed : r = 0 → ∀ v, pages p.sz ≤ v → v < pages p'.sz → w'.data (t'.leaf v).ppn = fillPage 0
  failed : r = -1 → p'.sz = p.sz ∧ t'.leaf = t.leaf ∧
    ∀ v < pages p.sz, w'.data (t.leaf v).ppn = w.data (t.leaf v).ppn

theorem Acc.size_lt (h : Acc T w (t.nodes + (t.frames 0 (pages sz) + O))) : sz < 2 ^ 28 := by
  have hcard := h.card_le
  rw [Multiset.card_add, Multiset.card_add, frames_card] at hcard
  have hpages : (sz + 4096 - 1) / 4096 ≤ 32768 := by
    have : pages sz ≤ 32768 := by omega
    exact this
  omega

theorem leaf_mem_frames (hv : v < pages sz) : (t.leaf v).ppn ∈ t.frames 0 (pages sz) :=
  PageTable.mem_frames.mpr ⟨v, hv, by rw [Nat.zero_add]⟩

theorem leaf_mem_owned (hv : v < pages sz) (N : Multiset Nat) :
    (t.leaf v).ppn ∈ N + (t.frames 0 (pages sz) + O) :=
  mem_right (mem_left (leaf_mem_frames hv))

theorem Acc.pages_le (h : Acc T w (t.nodes + (t.frames 0 (pages sz) + O))) : pages sz ≤ 2 ^ 20 := by
  have hcard := h.card_le
  rw [Multiset.card_add, Multiset.card_add, frames_card] at hcard
  omega

section
variable (ht : p.pagetable = some t) (hs : Shape t p.sz)
  (hacc : Acc T w (t.nodes + (t.frames 0 (pages p.sz) + O))) (hge : 0 ≤ (p.sz : Int) + n.toInt)
include ht hs hacc hge

omit hge in
theorem wp_growproc_pos (hn : 0 < n.toInt) :
    (growproc p n).wp vmWp (fun r w' => ∃ t', Grown T O w w' t t' p r.2 n r.1) w := by
  have hsz := hacc.size_lt
  have hlim := hacc.pages_le
  have hlt := n.toInt_lt
  have hold : (ofNat 32 p.sz).toNat = p.sz := by rw [toNat_ofNat, Nat.mod_eq_of_lt (by omega)]
  have hnew : ((ofNat 32 p.sz + n).toNat : Int) = p.sz + n.toInt :=
    toNat_ofNat_add (by omega) (by omega) (by omega)
  set newsz := (ofNat 32 p.sz + n).toNat with hnewsz
  have hle : p.sz ≤ newsz := by omega
  have hpart := hacc.part
  rw [growproc, ht]
  simp only [deref, Prog.pure_eq, Prog.pure_bind, if_pos hn, hold]
  rw [← hnewsz, Prog.wp_bind]
  refine wp_uvmalloc hle hlim hs.wf hs.rest (hpart.congr (add_zero _).symm)
    (fun t' w' hwf' hleaf' hacc' hm => ?_) fun t' w' hwf' hout hin hacc' htk _ => ?_
  · have hne : ¬ (-1 : Int) = 0 := by decide
    refine ⟨t', rfl, .inr rfl, ⟨fun h => absurd h hne, fun h => ?_⟩,
      ⟨hwf', by rw [hleaf']; exact hs.mapped, by rw [hleaf']; exact hs.rest⟩,
      ?_, fun h => absurd h hne, fun h => absurd h hne, fun _ => ⟨rfl, hleaf', ?_⟩⟩
    · have : (p.sz : Int) = p.sz + n.toInt := h
      omega
    · refine (hacc.whole (hacc'.congr (add_zero _)) hm).congr ?_
      rw [frames_congr fun u _ _ => by rw [hleaf']]
    · exact fun v hv => hacc.part_out hm (mem_left (leaf_mem_frames hv))
  · have hnat : (ofNat 32 newsz).toNat = newsz := by rw [toNat_ofNat, Nat.mod_eq_of_lt (by omega)]
    have hne : ofNat 32 newsz ≠ 0 := fun h => by
      rw [h] at hnat
      have : 0 = newsz := hnat
      omega
    have hne' : ¬ (0 : Int) = -1 := by decide
    rw [if_neg hne, hnat]
    have hframes : t'.frames 0 (pages newsz) =
        t.frames 0 (pages p.sz) + t'.frames (pages p.sz) (pages newsz - pages p.sz) := by
      rw [t'.frames_split (pages_mono hle)]
      exact congrArg (· + _) (frames_congr fun u _ hu => by rw [hout u (.inl (by omega))])
    have hkept : ∀ v < pages p.sz, w'.data (t.leaf v).ppn = w.data (t.leaf v).ppn := fun v hv =>
      htk.out _ (hacc.not_free (leaf_mem_owned hv _))
    refine ⟨t', rfl, .inl rfl, ⟨fun _ => hnew, fun _ => rfl⟩, ⟨hwf', fun v hv => ?_, fun v hv hv' => ?_⟩,
      ?_, fun _ a ha => ?_, fun _ v hv hv' => (hin v hv hv').2, fun h => absurd h hne'⟩
    · by_cases hvo : v < pages p.sz
      · rw [hout v (.inl hvo)]
        exact hs.mapped v hvo
      · exact leaf_user (hin v (by omega) hv).1
    · rw [hout v (.inr hv)]
      exact hs.rest v ((pages_mono hle).trans hv) hv'
    · refine (hacc.whole (hacc'.congr (by rw [add_zero])) (htk.moved hpart)).congr ?_
      rw [hframes]
      abel
    · have hpg := page_lt (lt_of_lt_of_le ha (Nat.min_le_left ..))
      rw [userByte, userByte, hout _ (.inl hpg), hkept _ hpg]

theorem wp_growproc_neg (hn : n.toInt < 0) :
    (growproc p n).wp vmWp (fun r w' => ∃ t', Grown T O w w' t t' p r.2 n r.1) w := by
  have hsz := hacc.size_lt
  have hlim := hacc.pages_le
  have hold : (ofNat 32 p.sz).toNat = p.sz := by rw [toNat_ofNat, Nat.mod_eq_of_lt (by omega)]
  have hnew : ((ofNat 32 p.sz + n).toNat : Int) = p.sz + n.toInt :=
    toNat_ofNat_add (by omega) hge (by omega)
  set newsz := (ofNat 32 p.sz + n).toNat with hnewsz
  have hle : newsz ≤ p.sz := by omega
  have hmono := pages_mono hle
  have hmax : pages p.sz * PGSIZE ≤ MAXVA := by
    show pages p.sz * 4096 ≤ 2 ^ 38
    omega
  have hacc' : Acc T w (t.frames (pages newsz) (pages p.sz - pages newsz) +
      (t.nodes + (t.frames 0 (pages newsz) + O))) := by
    refine hacc.congr ?_
    rw [t.frames_split hmono]
    abel
  rw [growproc, ht]
  simp only [deref, Prog.pure_eq, Prog.pure_bind, if_neg (show ¬ 0 < n.toInt by omega), if_pos hn, hold]
  rw [← hnewsz, Prog.wp_bind]
  refine wp_uvmdealloc hle hs.wf hmax (fun u _ hu => hs.mapped u hu) hacc' fun w' ha' _ hdata => ?_
  have hnat : (ofNat 32 newsz).toNat = newsz := by rw [toNat_ofNat, Nat.mod_eq_of_lt (by omega)]
  simp only [hnat, Prog.wp_pure]
  have hne : ¬ (0 : Int) = -1 := by decide
  have hleaf : ∀ v < pages newsz,
      (t.clear (pages newsz) (pages p.sz - pages newsz)).leaf v = t.leaf v := fun v hv =>
    if_neg (by omega)
  refine ⟨_, rfl, .inl rfl, ⟨fun _ => hnew, fun _ => rfl⟩,
    ⟨hs.wf.clear _ _, fun v hv => ?_, fun v hv hv' => ?_⟩, ?_, fun _ a ha => ?_, fun _ v hv hv' => ?_,
    fun h => absurd h hne⟩
  · have hv : v < pages newsz := hv
    rw [hleaf v hv]
    exact hs.mapped v (by omega)
  · have hv : pages newsz ≤ v := hv
    by_cases hvo : v < pages p.sz
    · exact if_pos (by omega)
    · exact (if_neg (by omega)).trans (hs.rest v (by omega) hv')
  · refine ha'.congr ?_
    rw [PageTable.clear_nodes]
    have hframes : (t.clear (pages newsz) (pages p.sz - pages newsz)).frames 0 (pages newsz) =
        t.frames 0 (pages newsz) :=
      frames_congr fun u _ hu => by rw [hleaf u (by omega)]
    rw [hframes]
  · have hpg : a / PGSIZE < pages newsz := page_lt (lt_of_lt_of_le ha (Nat.min_le_right ..))
    rw [userByte, userByte, hleaf _ hpg, hdata]
    -- the pages that are freed are others
    have hnd := hacc'.owned_nodup
    rw [Multiset.nodup_add] at hnd
    exact fun hmem => Multiset.disjoint_left.mp hnd.2.2 hmem (leaf_mem_owned hpg _)
  · exact absurd (hv.trans_lt hv') (not_lt_of_ge hmono)

omit hge in
theorem wp_growproc_zero :
    (growproc p 0).wp vmWp (fun r w' => ∃ t', Grown T O w w' t t' p r.2 0 r.1) w := by
  have hsz := hacc.size_lt
  have hold : (ofNat 32 p.sz).toNat = p.sz := by rw [toNat_ofNat, Nat.mod_eq_of_lt (by omega)]
  rw [growproc, ht]
  have hne : ¬ (0 : Int) = -1 := by decide
  have hzero : ¬ 0 < (0 : BitVec 32).toInt ∧ ¬ (0 : BitVec 32).toInt < 0 := by decide
  simp only [deref, Prog.pure_eq, Prog.pure_bind, if_neg hzero.1, if_neg hzero.2, hold, Prog.wp_pure]
  refine ⟨t, ?_, .inl rfl, ⟨fun _ => (add_zero _).symm, fun _ => rfl⟩, hs, hacc, fun _ _ _ => rfl,
    fun _ v hv hv' => absurd (hv.trans_lt hv') (lt_irrefl _), fun h => absurd h hne⟩
  rw [← ht]

omit hs hge in
/-- Below zero the `uint` sum is above the old size, and `uvmdealloc` does nothing. -/
theorem growproc_below (hlt : (p.sz : Int) + n.toInt < 0) : growproc p n = .pure (0, p) := by
  have hsz := hacc.size_lt
  have hold : (ofNat 32 p.sz).toNat = p.sz := by rw [toNat_ofNat, Nat.mod_eq_of_lt (by omega)]
  have hle : p.sz ≤ (ofNat 32 p.sz + n).toNat := by
    rw [BitVec.toInt_eq_toNat_cond] at hlt
    rw [BitVec.toNat_add, hold]
    split_ifs at hlt <;> omega
  have hneg : n.toInt < 0 := by omega
  rw [growproc, ht]
  simp only [deref, Prog.pure_eq, Prog.pure_bind, if_neg hneg.not_gt, if_pos hneg, hold, uvmdealloc,
    if_pos hle]
  rw [← ht]

theorem wp_growproc :
    (growproc p n).wp vmWp (fun r w' => ∃ t', Grown T O w w' t t' p r.2 n r.1) w := by
  rcases lt_trichotomy n.toInt 0 with hneg | hzero | hpos
  · exact wp_growproc_neg ht hs hacc hge hneg
  · have : n = 0 := BitVec.eq_of_toInt_eq hzero
    rw [this]
    exact wp_growproc_zero ht hs hacc
  · exact wp_growproc_pos ht hs hacc hpos

end

/-- A table with one page, whose number is `p`; the tables are in the pages before it. -/
def oneTable (p : Nat) : PageTable :=
  (((PageTable.empty (p - 3)).addDir1 0 (p - 2)).addDir0 0 (p - 1)).setLeaf 0 ⟨p, userFlags⟩

theorem oneTable_shape (p : Nat) :
    Shape (oneTable p) PGSIZE ∧ (oneTable p).nodes = (p - 1) ::ₘ (p - 2) ::ₘ {p - 3} := by
  have h0 := empty_wf (p - 3)
  obtain ⟨h1, hn1⟩ := h0.addDir1 (i := 0) rfl (by decide) (p - 2)
  obtain ⟨h2, hn2⟩ := h1.addDir0 (j := 0) rfl (by simp [addDir1]) (p - 1)
  refine ⟨⟨h2.setLeaf (by simp [addDir0]) _, fun v hv => ?_, fun v hv _ => ?_⟩, ?_⟩
  · have hv : v = 0 := by
      have : v < 1 := hv
      omega
    rw [hv]
    exact leaf_user rfl
  · have hv : v ≠ 0 := by
      have : 1 ≤ v := hv
      omega
    rw [oneTable, PageTable.setLeaf_leaf_ne _ _ hv]
    simp [addDir0, addDir1, empty]
  · rw [oneTable, PageTable.setLeaf_nodes, hn2, hn1, PageTable.empty_nodes]

/-- A machine with two free pages and a process of one page. -/
def oneWorld : KWorld where
  free := [0x80204, 0x80205]
  data := fun _ => fillPage 7
  oom := fun _ => false
  tick := 0
  first := 0x80200
  files := fun _ => none
  file := []
  ops := 0
  refs := 0
  locked := false
  fileRef := fun _ => 0
  inodeRef := fun _ => 0
  msg := none

def oneProcess : Process where
  state := .RUNNING
  parent := none
  chan := 0
  killed := 0
  xstate := 0
  pid := 1
  sz := PGSIZE
  pagetable := some (oneTable 0x80203)
  trapframe := none
  ofile := fun _ => none
  cwd := 0
  name := fun _ => 0

theorem oneWorld_acc : Acc {0x80204, 0x80205, 0x80202, 0x80201, 0x80200, 0x80203} oneWorld
    ((oneTable 0x80203).nodes + ((oneTable 0x80203).frames 0 (pages PGSIZE) + 0)) := by
  have hpages : pages PGSIZE = 1 := rfl
  rw [(oneTable_shape _).2, hpages, PageTable.frames_succ, PageTable.frames_zero]
  exact ⟨by decide, by decide, by decide, by decide⟩

/-- `growproc` returns, and it is exact just when the new size is not negative: it returns 0 and the size is
the sum, with the memory below both sizes as it was and new pages cleared; or it returns -1 and nothing has
changed. -/
theorem growproc_exact {p : Process} {n : BitVec 32} (ht : p.pagetable = some t) (hs : Shape t p.sz)
    (hacc : Acc T w (t.nodes + (t.frames 0 (pages p.sz) + O))) :
    ∃ r p' w', (growproc p n).run KOp.exec w = (some (r, p'), w') ∧
      ((∃ t', Grown T O w w' t t' p p' n r) ↔ 0 ≤ (p.sz : Int) + n.toInt) := by
  by_cases hge : 0 ≤ (p.sz : Int) + n.toInt
  · obtain ⟨⟨r, p'⟩, w', hrun, hg⟩ := Prog.run_of_wp (wp_growproc ht hs hacc hge)
    exact ⟨r, p', w', hrun, fun _ => hge, fun _ => hg⟩
  · refine ⟨0, p, w, by rw [growproc_below ht hacc (not_le.mp hge)]; rfl, fun ⟨t', hg⟩ => ?_,
      fun h => absurd h hge⟩
    have := hg.size.mp rfl
    omega

theorem growproc_exact_page : ∃ r p' w', (growproc oneProcess 4096).run KOp.exec oneWorld =
      (some (r, p'), w') ∧
    ((∃ t', Grown {0x80204, 0x80205, 0x80202, 0x80201, 0x80200, 0x80203} 0 oneWorld w' (oneTable 0x80203)
      t' oneProcess p' 4096 r) ↔ 0 ≤ (oneProcess.sz : Int) + (4096 : BitVec 32).toInt) :=
  growproc_exact rfl (oneTable_shape _).1 oneWorld_acc

/-- A process of one page gives back two: `growproc` returns 0, and the process keeps its page. -/
theorem growproc_below_zero : Shape (oneTable 0x80203) oneProcess.sz ∧
    (growproc oneProcess (-8192)).run KOp.exec oneWorld = (some (0, oneProcess), oneWorld) ∧
    (oneProcess.sz : Int) ≠ oneProcess.sz + (-8192 : BitVec 32).toInt :=
  ⟨(oneTable_shape _).1, rfl, by decide⟩

end Xv6.Vm
