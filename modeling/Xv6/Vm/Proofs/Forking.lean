import Xv6.Vm.Proofs.Tables

/-!
# Copying a process

`fork` works with free pages only. When an allocation fails, at whatever call, every page it has taken is
free again, and the slot it has tried is `UNUSED`; when it succeeds the child has a copy.
-/

namespace Xv6.Vm

open Function
open Prog (lift_bind wp_bind wp)

variable {T O : Multiset Nat} {w : KWorld} {t : PageTable} {trampoline tf : Nat} {s : Ptable}
  {Q : Process → KWorld → Prop} {p : Process} {i : Proc}

theorem wp_freeproc_bare (htf : p.trapframe = some tf)
    (hpt : p.pagetable = none) (hacc : Acc T w (tf ::ₘ O))
    (h : ∀ p' w', p'.state = .UNUSED → Acc T w' O → Moved T w w' → Q p' w') :
    (freeproc p).wp vmWp Q w := by
  rw [freeproc, htf, hpt]
  exact wp_kfree hacc fun w' ha' hm _ _ => h _ w' rfl ha' hm

theorem wp_freeproc (htf : p.trapframe = some tf)
    (hpt : p.pagetable = some t) (hfull : Full trampoline tf t p.sz)
    (hacc : Acc T w (tf ::ₘ (t.nodes + (t.frames 0 (pages p.sz) + O))))
    (h : ∀ p' w', p'.state = .UNUSED → Acc T w' O → Moved T w w' → Q p' w') :
    (freeproc p).wp vmWp Q w := by
  rw [freeproc, htf, hpt]
  simp only [lift_bind]
  refine wp_kfree hacc fun w1 ha1 hm1 _ _ => ?_
  rw [wp_bind]
  exact wp_procFreepagetable hfull ha1 fun w2 ha2 hm2 => h _ w2 rfl ha2 (hm1.trans hm2)

theorem findUnused_state (h : findUnused s = some i) : (s.proc i).state = .UNUSED := by
  have := List.find?_some h
  simpa using this

/-- Every slot but the one that is tried is as it was, and that one is still `UNUSED`. -/
structure Untouched (s s' : Ptable) : Prop where
  others : ∀ j, findUnused s ≠ some j → s'.proc j = s.proc j
  tried : ∀ i, findUnused s = some i → (s'.proc i).state = .UNUSED

theorem untouched_set (hi : findUnused s = some i) {s1 : Ptable} (hs : s1.proc = s.proc)
    (hp : p.state = .UNUSED) : Untouched s (s1.set i p) := by
  refine ⟨fun j hj => ?_, fun j hj => ?_⟩
  · have hne : j ≠ i := fun h => hj (h ▸ hi)
    simp only [Ptable.set, update_of_ne hne, hs]
  · rw [hi] at hj
    rw [← Option.some.inj hj]
    simp only [Ptable.set, update_self, hp]

theorem wp_allocproc (hacc : Acc T w O) {Q : Option Proc × Ptable → KWorld → Prop}
    (hfail : ∀ s' w', Untouched s s' → Acc T w' O → Moved T w w' → Q (none, s') w')
    (hok : ∀ i tf t s' w', findUnused s = some i →
      s'.proc = update s.proc i { s.proc i with
        pid := s.nextpid, trapframe := some tf, pagetable := some t } →
      Full trampoline tf t 0 → Acc T w' (tf ::ₘ (t.nodes + O)) → Taken w w' → Q (some i, s') w') :
    (allocproc trampoline s).wp vmWp Q w := by
  rw [allocproc]
  cases hi : findUnused s with
  | none =>
    refine hfail s w ⟨fun _ _ => rfl, fun i h => ?_⟩ hacc (.refl T w)
    rw [hi] at h
    exact absurd h (by simp)
  | some i =>
    simp only [lift_bind]
    refine wp_kalloc hacc (fun w1 ha1 ht1 => ?_) fun tf w1 ha1 _ ht1 => ?_
    · exact hfail _ w1 (untouched_set hi (by rfl) (findUnused_state hi)) ha1 (ht1.moved hacc)
    · rw [wp_bind]
      refine wp_procPagetable ha1 (fun w2 ha2 hm2 => ?_) fun t w2 hfull ha2 ht2 => ?_
      · simp only [wp_bind]
        refine wp_freeproc_bare rfl rfl ha2 fun p' w3 hp' ha3 hm3 => ?_
        exact hfail _ w3 (untouched_set hi (by rfl) hp') ha3 ((ht1.moved hacc).trans (hm2.trans hm3))
      · exact hok i tf t _ w2 hi rfl hfull (ha2.congr (by rw [Multiset.add_cons])) (ht1.trans ht2)

theorem wp_dupFiles (p : Process) (is : List (Fin NOFILE)) :
    ∀ {np : Process} {w : KWorld} {Q : Process → KWorld → Prop},
      (∀ w', w' = { w with fileRef := w'.fileRef } →
        (∀ f, w'.fileRef f = w.fileRef f + is.countP (fun fd => p.ofile fd = some f)) →
        Q { np with ofile := fun fd =>
          if fd ∈ is then (p.ofile fd).or (np.ofile fd) else np.ofile fd } w') →
      (dupFiles p is np).wp vmWp Q w := by
  induction is with
  | nil =>
    intro np w Q h
    have hnil := h w rfl fun f => by simp
    exact hnil
  | cons i is ih =>
    intro np w Q h
    cases hi : p.ofile i with
    | none =>
      rw [dupFiles, hi]
      refine ih fun w' hw' href => ?_
      have hcount : ∀ f, w'.fileRef f =
          w.fileRef f + (i :: is).countP (fun fd => p.ofile fd = some f) := fun f => by
        rw [href f, List.countP_cons_of_neg (by simp [hi])]
      convert h w' hw' hcount using 2
      funext fd
      by_cases hfd : fd = i
      · simp [hfd, hi]
      · simp [hfd]
    | some f =>
      rw [dupFiles, hi]
      refine ih fun w' hw' href => ?_
      have hcount : ∀ g, w'.fileRef g =
          w.fileRef g + (i :: is).countP (fun fd => p.ofile fd = some g) := fun g => by
        rw [href g]
        dsimp only
        by_cases hg : g = f
        · rw [List.countP_cons_of_pos (by simp [hi, hg]), hg, update_self]
          omega
        · rw [List.countP_cons_of_neg (by simpa [hi] using Ne.symm hg), update_of_ne hg]
      convert h w' (hw'.trans rfl) hcount using 2
      funext fd
      by_cases hfd : fd = i
      · subst hfd
        simp [hi]
      · simp [hfd]

/-- Slot `i` holds a copy of process `cur`, whose page table is `old` and whose trapframe is `tf`. -/
structure Forked (trampoline : Nat) (w w' : KWorld) (s s' : Ptable) (cur i : Proc) (old : PageTable)
    (tf : Nat) : Prop where
  slot : findUnused s = some i
  others : ∀ j ≠ i, s'.proc j = s.proc j
  state : (s'.proc i).state = .RUNNABLE
  pid : (s'.proc i).pid = s.nextpid
  parent : (s'.proc i).parent = some cur
  size : (s'.proc i).sz = (s.proc cur).sz
  memory : ∃ t' tf', (s'.proc i).pagetable = some t' ∧ (s'.proc i).trapframe = some tf' ∧
    Full trampoline tf' t' (s.proc cur).sz ∧
    (∀ v < pages (s.proc cur).sz, (t'.leaf v).flags = (old.leaf v).flags ∧
      w'.data (t'.leaf v).ppn = w.data (old.leaf v).ppn ∧
      ∀ u < pages (s.proc cur).sz, (t'.leaf v).ppn ≠ (old.leaf u).ppn) ∧
    tf' ≠ tf ∧ ∀ k < tfSize, (w'.data tf').byte k =
      if tfA0 ≤ k ∧ k < tfA0 + 8 then 0 else (w.data tf).byte k
  files : ∀ fd f, (s.proc cur).ofile fd = some f → (s'.proc i).ofile fd = some f
  counts : ∀ f, w'.fileRef f =
    w.fileRef f + (List.finRange NOFILE).countP fun fd => (s.proc cur).ofile fd = some f
  cwd : (s'.proc i).cwd = (s.proc cur).cwd
  dirs : w'.inodeRef = update w.inodeRef (s.proc cur).cwd (w.inodeRef (s.proc cur).cwd + 1)

theorem byte_trapframe (d d' : Bytes PGSIZE) {k : Nat} (hk : k < tfSize) :
    ((d'.copy 0 d 0 tfSize).setUint 8 tfA0 0).byte k =
      if tfA0 ≤ k ∧ k < tfA0 + 8 then 0 else d.byte k := by
  by_cases h : tfA0 ≤ k ∧ k < tfA0 + 8
  · rw [if_pos h, Bytes.byte_setUint_zero _ _ h.1 h.2 (by simp only [PGSIZE, tfSize] at *; omega)]
  · rw [if_neg h, Bytes.byte_setUint_of_out _ _ _ _ (by omega)]
    have hcopy : (d'.copy 0 d 0 tfSize).byte (0 + k) = d.byte (0 + k) :=
      Bytes.byte_copy_in d' d hk (by simp only [PGSIZE, tfSize] at *; omega)
    rwa [Nat.zero_add] at hcopy

/-- `fork` copies the process or leaves everything as it was. -/
theorem fork_copies {cur : Proc} {old : PageTable} {tf : Nat} (hcur : (s.proc cur).state ≠ .UNUSED)
    (hpt : (s.proc cur).pagetable = some old) (htf : (s.proc cur).trapframe = some tf)
    (hfull : Full trampoline tf old (s.proc cur).sz)
    (hacc : Acc T w (old.nodes + (old.frames 0 (pages (s.proc cur).sz) + (tf ::ₘ O))))
    (hun : ∀ i, (s.proc i).state = .UNUSED → (s.proc i).sz = 0) :
    ∃ r s' w', (fork trampoline s cur).run KOp.exec w = (some (r, s'), w') ∧
      s'.proc cur = s.proc cur ∧
      (∀ q ∈ old.nodes + (old.frames 0 (pages (s.proc cur).sz) + (tf ::ₘ O)),
        w'.data q = w.data q) ∧
      ((0 < r ∧ ∃ i, r = (s'.proc i).pid ∧ Forked trampoline w w' s s' cur i old tf) ∨
        (r = -1 ∧ Untouched s s' ∧ w'.free.Perm w.free ∧ w'.fileRef = w.fileRef ∧
          w'.inodeRef = w.inodeRef)) := by
  set B := old.nodes + (old.frames 0 (pages (s.proc cur).sz) + (tf ::ₘ O)) with hB
  have hacc0 : Acc T w (0 + B) := hacc.congr (Multiset.zero_add B).symm
  have hpart := hacc0.part
  have hnotcur : ∀ {i}, findUnused s = some i → cur ≠ i := fun hi h => hcur (h ▸ findUnused_state hi)
  have hnot : ∀ q ∈ B, q ∉ (w.free : Multiset Nat) + 0 := fun q hq => by
    rw [add_zero]
    exact hacc.not_free hq
  have htfB : tf ∈ B := mem_right (mem_right (Multiset.mem_cons_self tf O))
  -- a failure
  have hfail : ∀ s' w', Untouched s s' → Acc (↑w.free + 0) w' 0 → Moved (↑w.free + 0) w w' →
      s'.proc cur = s.proc cur ∧ (∀ q ∈ B, w'.data q = w.data q) ∧
      ((0 < (-1 : Int) ∧ ∃ i, (-1 : Int) = (s'.proc i).pid ∧ Forked trampoline w w' s s' cur i old tf) ∨
        ((-1 : Int) = -1 ∧ Untouched s s' ∧ w'.free.Perm w.free ∧ w'.fileRef = w.fileRef ∧
          w'.inodeRef = w.inodeRef)) := fun s' w' hs' ha' hm => by
    refine ⟨hs'.others cur fun h => hnotcur h rfl, fun q hq => hm.out q (hnot q hq),
      .inr ⟨rfl, hs', ?_, by rw [hm.rest], by rw [hm.rest]⟩⟩
    have := ha'.sum
    rw [add_zero, add_zero] at this
    exact Multiset.coe_eq_coe.mp this
  suffices hwp : (fork trampoline s cur).wp vmWp (fun x w' => x.2.proc cur = s.proc cur ∧
      (∀ q ∈ B, w'.data q = w.data q) ∧
      ((0 < x.1 ∧ ∃ i, x.1 = (x.2.proc i).pid ∧ Forked trampoline w w' s x.2 cur i old tf) ∨
        (x.1 = -1 ∧ Untouched s x.2 ∧ w'.free.Perm w.free ∧ w'.fileRef = w.fileRef ∧
          w'.inodeRef = w.inodeRef))) w by
    obtain ⟨⟨r, s'⟩, w', hrun, h⟩ := Prog.run_of_wp hwp
    exact ⟨r, s', w', hrun, h⟩
  rw [fork, wp_bind]
  refine wp_allocproc hpart (fun s' w' hs' ha' hm => hfail s' w' hs' ha' hm)
    fun i tf' t s1 w1 hi hs1 hfull1 ha1 ht1 => ?_
  have hs₁cur : s1.proc cur = s.proc cur := by rw [hs1, update_of_ne (hnotcur hi)]
  have hs₁i : s1.proc i = { s.proc i with
      pid := s.nextpid, trapframe := some tf', pagetable := some t } := by
    rw [hs1, update_self]
  simp only [hs₁cur, hs₁i, hpt, htf, deref, Prog.pure_eq, Prog.pure_bind, wp_bind]
  refine wp_uvmcopy (O := {tf'}) hfull.wf hacc.pages_le (fun u hu => ⟨hfull.mapped u hu, hnot _ ?_⟩) hfull1
    (ha1.congr (by rw [add_zero, ← Multiset.singleton_add, add_comm]))
    (fun t' w2 hfull2 ha2 hm2 => ?_) fun t' w2 hfull2 hcopy ha2 ht2 => ?_
  · exact leaf_mem_owned hu _
  · -- no memory for a page: free the slot again
    simp only [Bool.not_false, if_true, wp_bind]
    have hsz := hun i (findUnused_state hi)
    refine wp_freeproc (O := 0) rfl rfl (by dsimp only; rw [hsz]; exact hfull2) (ha2.congr ?_)
      fun p' w3 hp' ha3 hm3 => ?_
    · dsimp only
      rw [hsz, show pages 0 = 0 from rfl, PageTable.frames_zero, add_zero, add_zero,
        ← Multiset.singleton_add, add_comm]
    · refine hfail _ w3 ⟨fun j hj => ?_, fun j hj => ?_⟩ ha3 ((ht1.moved hpart).trans (hm2.trans hm3))
      · have hne : j ≠ i := fun h => hj (h ▸ hi)
        simp only [Ptable.set, hs1, update_of_ne hne]
      · rw [hi] at hj
        rw [← Option.some.inj hj]
        simp only [Ptable.set, update_self, hp']
  · simp only [Bool.not_true, Bool.false_eq_true, if_false, lift_bind, Prog.wp_op, vmWp_page,
      vmWp_setPage, wp_bind]
    have ht2' := ht1.trans ht2
    have htf' : tf' ∈ (w.free : Multiset Nat) + 0 :=
      ha2.mem_of_owned (mem_right (mem_right (Multiset.mem_singleton_self tf')))
    have hkeep : ∀ q ∈ B, w2.data q = w.data q := fun q hq =>
      ht2'.out q (hacc.not_free hq)
    have hne : ∀ q ∈ B, q ≠ tf' := fun q hq h => hnot q hq (h ▸ htf')
    have hown : ∀ v < pages (s.proc cur).sz, (t'.leaf v).ppn ∈ (w.free : Multiset Nat) + 0 ∧
        (t'.leaf v).ppn ≠ tf' := fun v hv => by
      refine ⟨ha2.mem_of_owned (leaf_mem_owned hv _), fun h => ?_⟩
      have hnd := ha2.owned_nodup
      rw [← add_assoc, Multiset.nodup_add] at hnd
      exact Multiset.disjoint_left.mp hnd.2.2 (mem_right (leaf_mem_frames hv))
        (h ▸ Multiset.mem_singleton_self tf')
    refine wp_dupFiles _ _ fun w3 hw3 href => ?_
    have hdata : ∀ q, q ≠ tf' → w3.data q = w2.data q := fun q hq => by
      rw [hw3]
      exact update_of_ne hq ..
    have hdtf : w3.data tf' =
        ((w2.data tf').copy 0 (w.data tf) 0 tfSize).setUint 8 tfA0 0 := by
      rw [hw3, ← hkeep tf htfB]
      exact update_self ..
    have hdirs : w3.inodeRef = w.inodeRef := by rw [hw3, ht2'.rest]
    have hfiles : w2.fileRef = w.fileRef := by rw [ht2'.rest]
    refine ⟨?_, fun q hq => (hdata q (hne q hq)).trans (hkeep q hq), .inl ⟨?_, i, ?_, ?_⟩⟩
    · simp only [Ptable.set, update_of_ne (hnotcur hi), hs₁cur]
    · exact Int.natCast_pos.mpr s.pos
    · simp only [Ptable.set, update_self]
    · constructor
      case slot => exact hi
      case others =>
        intro j hj
        simp only [Ptable.set, hs1, update_of_ne hj]
      case memory =>
        refine ⟨t', tf', by simp [Ptable.set], by simp [Ptable.set], hfull2, fun v hv => ?_,
          (hne tf htfB).symm, fun k hk => ?_⟩
        · obtain ⟨hfl, hd⟩ := hcopy v hv
          have hsrc : w1.data (old.leaf v).ppn = w.data (old.leaf v).ppn :=
            ht1.out _ (hacc.not_free (leaf_mem_owned hv _))
          refine ⟨hfl, ?_, fun u hu h => ?_⟩
          · exact ((hdata _ (hown v hv).2).trans hd).trans hsrc
          · exact hnot _ (leaf_mem_owned hu _) (h ▸ (hown v hv).1)
        · show (w3.data tf').byte k = _
          rw [hdtf, byte_trapframe _ _ hk]
      case files =>
        intro fd f hfd
        simp [Ptable.set, hfd]
      case counts =>
        intro f
        exact (href f).trans (by dsimp only; rw [hfiles])
      case dirs =>
        rw [hdirs]
      all_goals simp only [Ptable.set, update_self]

/-- Process 0 of one page, whose trapframe is page `0x80206`. -/
def forkTable : Ptable where
  proc i := if i = 0 then
      { oneProcess with
        pagetable := some (fullTable 0x80007 0x80206 0x80203), trapframe := some 0x80206 }
    else { oneProcess with state := .UNUSED, sz := 0, pagetable := none, pid := 0 }
  nextpid := 2
  pos := by decide

/-- Eight pages are free, and every path leads to `file`, if any. -/
def forkWorld (file : Option (List (BitVec 8))) (oom : Nat → Bool) : KWorld := { oneWorld with
  free := [0x80207, 0x80208, 0x80209, 0x8020a, 0x8020b, 0x8020c, 0x8020d, 0x8020e]
  files := fun _ => file
  oom := oom }

theorem forkWorld_acc (file : Option (List (BitVec 8))) (oom : Nat → Bool) :
    Acc {0x80207, 0x80208, 0x80209, 0x8020a, 0x8020b, 0x8020c, 0x8020d, 0x8020e, 0x80205, 0x80204, 0x80202,
      0x80201, 0x80200, 0x80203, 0x80206} (forkWorld file oom)
    ((fullTable 0x80007 0x80206 0x80203).nodes +
      ((fullTable 0x80007 0x80206 0x80203).frames 0 (pages PGSIZE) + (0x80206 ::ₘ 0))) := by
  have hpages : pages PGSIZE = 1 := rfl
  have hfirst : (forkWorld file oom).first = 0x80200 := rfl
  rw [(fullTable_full _ _ _).2, hpages, PageTable.frames_succ, PageTable.frames_zero]
  exact ⟨rfl, by decide, by rw [hfirst]; decide, by rw [hfirst]; decide⟩

/-- Seven pages are taken for the child. -/
theorem fork_copies_one : ∃ r s' w', (fork 0x80007 forkTable 0).run KOp.exec (forkWorld none fun _ => false) =
      (some (r, s'), w') ∧ 0 < r ∧ ∃ i, Forked 0x80007 (forkWorld none fun _ => false) w' forkTable s' 0 i
        (fullTable 0x80007 0x80206 0x80203) 0x80206 := by
  have hun : ∀ i, (forkTable.proc i).state = .UNUSED → (forkTable.proc i).sz = 0 := by decide
  obtain ⟨r, s', w', hrun, -, -, hres⟩ : ∃ r s' w',
      (fork 0x80007 forkTable 0).run KOp.exec (forkWorld none fun _ => false) = (some (r, s'), w') ∧ _ :=
    fork_copies (by decide) rfl rfl (fullTable_full _ _ _).1 (forkWorld_acc none fun _ => false) hun
  have hpos : ((fork 0x80007 forkTable 0).run KOp.exec (forkWorld none fun _ => false)).1.all
      (fun x => decide (0 < x.1)) = true := by
    decide +kernel
  rw [hrun] at hpos
  rcases hres with ⟨hr, i, -, hforked⟩ | ⟨rfl, -⟩
  · exact ⟨r, s', w', hrun, hr, i, hforked⟩
  · exact absurd (show decide ((0 : Int) < -1) = true from hpos) (by decide)

end Xv6.Vm
