import Xv6.Vm.Proofs.Stack

/-!
# `exec` as a whole

Until the new image is complete `exec` works with pages from the free list only, so that a failure leaves
the process as it was. Then the old image is freed.
-/

namespace Xv6.Vm

open Function

variable {T O B : Multiset Nat} {w w' w'' : KWorld} {t : PageTable} {sz trampoline tf sp : Nat}
  {file : List (BitVec 8)} {Q : Int × Process → KWorld → Prop}

theorem userUint_congr {a : Nat} (k : Nat) (h : ∀ i < k, userByte w' t (a + i) = userByte w t (a + i)) :
    userUint w' t k a = userUint w t k a := by
  induction k generalizing a with
  | zero => rfl
  | succ k ih =>
    have h0 := h 0 (Nat.succ_pos k)
    rw [Nat.add_zero] at h0
    rw [userUint, userUint, h0, ih fun i hi => by
      rw [show a + 1 + i = a + (i + 1) by omega]
      exact h (i + 1) (by omega)]

theorem Passed.keep {argv : List (List (BitVec 8))} (h : Passed w t sz argv sp)
    (hb : ∀ b, sz - PGSIZE ≤ b → b < sz → userByte w' t b = userByte w t b) :
    Passed w' t sz argv sp := by
  obtain ⟨haligned, hinside, qs, hqs, hptr, lo, hlo, hstr⟩ := h
  obtain ⟨-, hle⟩ := hstr.keep fun _ _ _ => rfl
  refine ⟨haligned, hinside, qs, hqs, fun i hi => ?_, lo, hlo, (hstr.keep fun b hl hu => ?_).1⟩
  · rw [userUint_congr 8 fun k hk => hb _ (by omega) (by omega)]
    exact hptr i hi
  · exact hb b (by omega) hu

theorem Holds.keep {L : List Proghdr} (h : Holds file w t sz L)
    (hk : ∀ v < pages sz, w'.data (t.leaf v).ppn = w.data (t.leaf v).ppn) : Holds file w' t sz L :=
  h.grow le_rfl (fun v hv => ⟨rfl, hk v hv⟩) fun v hv hv' => by omega

/-- What `exec` has made of process `p` and its arguments. -/
structure Executed (trampoline tf : Nat) (T O : Multiset Nat) (w w' : KWorld) (p p' : Process)
    (path : List (BitVec 8)) (argv : List (List (BitVec 8))) (file : List (BitVec 8)) (elf : Elfhdr)
    (t : PageTable) (sz sp : Nat) : Prop where
  found : w.files path = some file
  proc : p' = { p with
    name := p.name.blit 0 (safestrcpy 16 (lastName path)), pagetable := some t, sz := sz }
  stacked : Stacked trampoline tf T (tf ::ₘ O) w' t sz
  header : Header file elf
  holds : Holds file w' t (sz - 2 * PGSIZE) (loads file elf.phnum (BitVec.ofNat 32 elf.phoff))
  user : ∀ v < sz / PGSIZE - 2, (t.leaf v).flags = userFlags
  passed : Passed w' t sz argv sp
  regs : (w'.data tf).uint 8 tfA1 = sp ∧ (w'.data tf).uint 8 tfSp = sp ∧
    (w'.data tf).uint 8 tfEpc = elf.entry
  others : ∀ q ∈ O, w'.data q = w.data q

theorem trapframe_regs (d : Bytes PGSIZE) {entry : Nat} (hsp : sp < 256 ^ 8)
    (he : entry < 256 ^ 8) :
    (((d.setUint 8 tfA1 sp).setUint 8 tfEpc entry).setUint 8 tfSp sp).uint 8 tfA1 = sp ∧
    (((d.setUint 8 tfA1 sp).setUint 8 tfEpc entry).setUint 8 tfSp sp).uint 8 tfSp = sp ∧
    (((d.setUint 8 tfA1 sp).setUint 8 tfEpc entry).setUint 8 tfSp sp).uint 8 tfEpc = entry := by
  refine ⟨?_, ?_, ?_⟩
  · rw [Bytes.uint_setUint_disjoint _ _ (by decide), Bytes.uint_setUint_disjoint _ _ (by decide),
      Bytes.uint_setUint_same _ _ _ _ (by decide), Nat.mod_eq_of_lt hsp]
  · rw [Bytes.uint_setUint_same _ _ _ _ (by decide), Nat.mod_eq_of_lt hsp]
  · rw [Bytes.uint_setUint_disjoint _ _ (by decide), Bytes.uint_setUint_same _ _ _ _ (by decide),
      Nat.mod_eq_of_lt he]

structure Unchanged (B : Multiset Nat) (w w' : KWorld) : Prop where
  rest : w' = { w with free := w'.free, data := w'.data, tick := w'.tick, file := w'.file }
  kept : ∀ q ∈ B, w'.data q = w.data q

theorem elf_entry_lt (l : List (BitVec 8)) : (Elfhdr.ofBytes l).entry < 256 ^ 8 := field_lt l 8 24

section

variable {p : Process} {old : PageTable} {path : List (BitVec 8)} {argv : List (List (BitVec 8))}

/-- Pages that are taken from the free list, and those in use before. -/
theorem Left.whole {A : Multiset Nat} (hl : Left (↑w.free + 0) w w') (hacc : Acc T w B)
    (ha : Acc (↑w.free + 0) w' A) : Acc T w' (A + B) := by
  have hfirst : w'.first = w.first := by rw [hl.rest]
  refine ⟨?_, hacc.nodup, by rw [hfirst]; exact hacc.range, by rw [hfirst]; exact hacc.base⟩
  rw [← add_assoc, ha.sum, add_zero, hacc.sum]

theorem Acc.free_part (hacc : Acc T w B) : Acc (↑w.free + 0) w 0 :=
  Acc.part (hacc.congr (Multiset.zero_add B).symm)

theorem Left.unchanged (hl : Left (↑w.free + 0) w w') (hacc : Acc T w B)
    (ha : Acc (↑w.free + 0) w' 0) : Acc T w' B ∧ Unchanged B w w' := by
  refine ⟨(hl.whole hacc ha).congr (Multiset.zero_add B), hl.rest, fun q hq => hl.out q ?_⟩
  rw [add_zero]
  exact hacc.not_free hq

variable (hpt : p.pagetable = some old)
include hpt

/-- The arguments and the commitment to the new image, which fails exactly when the arguments do not
fit. -/
theorem wp_commitImage {w1 : KWorld} {elf : Elfhdr} (hfull : Full trampoline tf old p.sz)
    (hacc : Acc T w (old.nodes + (old.frames 0 (pages p.sz) + (tf ::ₘ O))))
    (hargv : ∀ a ∈ argv, a.length < PGSIZE) (hfile : w.files path = some file)
    (hload : Loaded trampoline tf (↑w.free + 0) 0 file w1 t sz elf) (hl1 : Left (↑w.free + 0) w w1)
    (hfail : ∀ w', ¬ (argv.length ≤ MAXARG ∧ argBytes argv ≤ PGSIZE) →
      Acc (↑w.free + 0) w' 0 → Left (↑w.free + 0) w w' → Q (-1, p) w')
    (hok : ∀ w' p' sp, argv.length ≤ MAXARG → argBytes argv ≤ PGSIZE →
      Executed trampoline tf T O w w' p p' path argv file elf t sz sp → Q (argv.length, p') w') :
    (commitImage p tf path argv t sz elf.entry).wp vmWp Q w1 := by
  set B := old.nodes + (old.frames 0 (pages p.sz) + (tf ::ₘ O)) with hB
  have hnot : ∀ q ∈ B, q ∉ (w.free : Multiset Nat) + 0 := fun q hq => by
    rw [add_zero]
    exact hacc.not_free hq
  have htfB : tf ∈ B := mem_right (mem_right (Multiset.mem_cons_self tf O))
  have hst1 := hload.stacked
  obtain ⟨htop, hbelow⟩ := hst1.top_lt
  have hmem : ∀ v < pages sz, (t.leaf v).ppn ∈ (w.free : Multiset Nat) + 0 := fun v hv =>
    hst1.acc.mem_of_owned (leaf_mem_owned hv _)
  have hin : ∀ q ∈ ({(t.leaf (sz / PGSIZE - 1)).ppn} : Multiset Nat), q ∈ (w.free : Multiset Nat) + 0 :=
    fun q hq => by
      rw [Multiset.mem_singleton.mp hq]
      exact hmem _ htop
  rw [commitImage, Prog.wp_bind]
  refine wp_pushStack hargv hst1 (fun w2 hw2 hno => ?_) fun w2 sp hw2 hmax hfit hsp hpassed => ?_
  · simp only [Prog.wp_bind]
    exact wp_bad hst1.full (hw2.acc hst1.acc) fun w3 ha3 hm3 =>
      hfail w3 hno ha3 (hl1.moved ((hw2.moved hin).trans hm3))
  have hl2 := hl1.moved (hw2.moved hin)
  have hsz := hst1.size_lt
  have hacc2 := hl2.whole hacc (hw2.acc hst1.acc)
  simp only [hpt, deref, Prog.pure_eq, Prog.pure_bind, Prog.lift_bind, Prog.wp_op, vmWp_page,
    vmWp_setPage, Prog.wp_bind]
  obtain ⟨hA1, hSp, hEpc⟩ := trapframe_regs (w2.data tf) (show sp < 256 ^ 8 by omega)
    (hload.header.read ▸ elf_entry_lt (readBytes file 0 (BitVec.ofNat 32 elfSize)))
  generalize ((w2.data tf).setUint 8 tfA1 sp |>.setUint 8 tfEpc elf.entry |>.setUint 8 tfSp sp) = d at *
  -- the old image is freed; the new one is none of its pages
  have hacc3 : Acc T { w2 with data := update w2.data tf d }
      (old.nodes + (old.frames 0 (pages p.sz) + 0) +
        (t.nodes + (t.frames 0 (pages sz) + (tf ::ₘ O)))) := by
    refine (hacc2.setPage tf d).congr ?_
    rw [hB]
    abel
  refine wp_procFreepagetable hfull hacc3.part fun w4 ha4 hm4 => ?_
  have hacc4 := hacc3.whole ha4 hm4
  rw [Multiset.zero_add] at hacc4
  have hkeep : ∀ q ∈ t.nodes + (t.frames 0 (pages sz) + (tf ::ₘ O)), q ≠ tf → w4.data q = w2.data q :=
    fun q hq hne => (hacc3.part_out hm4 hq).trans (update_of_ne hne ..)
  have htfd : w4.data tf = d :=
    (hacc3.part_out hm4 (mem_right (mem_right (Multiset.mem_cons_self tf O)))).trans
      (update_self ..)
  have huser : ∀ v < pages sz, w4.data (t.leaf v).ppn = w2.data (t.leaf v).ppn := fun v hv =>
    hkeep _ (leaf_mem_owned hv _) fun h => hnot tf htfB (h ▸ hmem v hv)
  refine hok w4 _ sp hmax hfit ⟨hfile, rfl,
    ⟨hst1.full, hacc4, hst1.size, hst1.guard, hst1.top⟩, hload.header, ?_, hload.user, ?_,
    by rw [htfd]; exact ⟨hA1, hSp, hEpc⟩, fun q hq => ?_⟩
  · refine hload.holds.keep fun v hv => ?_
    rw [huser v (by omega)]
    refine hw2.out _ fun hmem => ?_
    exact absurd (PageTable.frames_inj hst1.frames_nodup (by omega) htop (Multiset.mem_singleton.mp hmem))
      (by omega)
  · refine hpassed.keep fun b hb hb' => ?_
    rw [userByte, userByte, (hst1.size_facts.2.2.2 b hb hb').1, huser _ htop]
  · have hne : q ≠ tf := fun h => by
      have hnd := hacc.owned_nodup
      rw [hB, Multiset.nodup_add, Multiset.nodup_add, Multiset.nodup_cons] at hnd
      exact hnd.2.1.2.1.1 (h ▸ hq)
    have hqB : q ∈ B := mem_right (mem_right (Multiset.mem_cons_of_mem hq))
    rw [hkeep q (mem_right (mem_right (Multiset.mem_cons_of_mem hq))) hne]
    exact hl2.out q (hnot q hqB)

theorem wp_exec (htf : p.trapframe = some tf)
    (hfull : Full trampoline tf old p.sz)
    (hacc : Acc T w (old.nodes + (old.frames 0 (pages p.sz) + (tf ::ₘ O)))) (hlock : w.locked = false)
    (hargv : ∀ a ∈ argv, a.length < PGSIZE)
    (hfail : ∀ w', Acc T w' (old.nodes + (old.frames 0 (pages p.sz) + (tf ::ₘ O))) →
      Unchanged (old.nodes + (old.frames 0 (pages p.sz) + (tf ::ₘ O))) w w' → Q (-1, p) w')
    (hok : ∀ w' p' file elf t sz sp,
      Executed trampoline tf T O w w' p p' path argv file elf t sz sp → Q (argv.length, p') w') :
    (exec trampoline p path argv).wp vmWp Q w := by
  have hgive : ∀ w', Acc (↑w.free + 0) w' 0 → Left (↑w.free + 0) w w' → Q (-1, p) w' := fun w' ha hl => by
    obtain ⟨ha', hu⟩ := hl.unchanged hacc ha
    exact hfail w' ha' hu
  rw [exec, htf]
  simp only [deref, Prog.pure_eq, Prog.pure_bind, Prog.wp_bind]
  refine wp_loadImage hacc.free_part hlock (fun w1 ha1 hl1 => hgive w1 ha1 hl1)
    fun t sz w1 file elf hfile hload hl1 => ?_
  exact wp_commitImage hpt hfull hacc hargv hfile hload hl1 (fun w2 _ ha2 hl2 => hgive w2 ha2 hl2)
    fun w2 p' sp _ _ hex => hok w2 p' file elf t sz sp hex

end

end Xv6.Vm
