import Xv6.Vm.Proofs.Loading

/-!
# The image of a file

The stack, and `exec` as far as it does not depend on the arguments. What has been taken from the free list
is in the page table; at the label `bad` that is freed with it.
-/

namespace Xv6.Vm

open BitVec (ofNat)
open Prog (pure_eq wp_bind execWp wp)

variable {T O : Multiset Nat} {w w' w'' : KWorld} {t : PageTable} {sz trampoline tf : Nat}
  {file path : List (BitVec 8)}

/-! ## The stack -/

/-- The image with its stack: two pages at the top, of which the user may not use the lower one. -/
structure Stacked (trampoline tf : Nat) (T O : Multiset Nat) (w : KWorld) (t : PageTable) (sz : Nat) :
    Prop where
  full : Full trampoline tf t sz
  acc : Acc T w (t.nodes + (t.frames 0 (pages sz) + O))
  size : ∃ n, sz = (n + 2) * PGSIZE
  guard : (t.leaf (sz / PGSIZE - 2)).has PTE_U = false
  top : (t.leaf (sz / PGSIZE - 1)).flags = userFlags

theorem Image.resize (h : Image trampoline tf T O w t sz) {sz' : Nat} (hp : pages sz' = pages sz) :
    Image trampoline tf T O w t sz' := by
  obtain ⟨⟨⟨hwf, hmapped, hrest⟩, htf, htr, habove⟩, huser, hacc⟩ := h
  rw [← hp] at hmapped hrest huser hacc
  exact ⟨⟨⟨hwf, hmapped, hrest⟩, htf, htr, habove⟩, huser, hacc⟩

theorem pages_pgroundup (sz : Nat) : pages (PGROUNDUP sz) = pages sz := by
  rw [pgroundup_eq, pages_mul]

theorem le_pgroundup (sz : Nat) : sz ≤ PGROUNDUP sz := by
  show sz ≤ (sz + 4096 - 1) / 4096 * 4096
  omega

theorem uvmclear_eq (hwf : t.Wf) {v : Nat} (hva : v * PGSIZE < MAXVA) (hleaf : (t.leaf v).Leaf) :
    uvmclear t (v * PGSIZE) =
      Prog.pure (t.setLeaf v { t.leaf v with flags := (t.leaf v).flags &&& ~~~PTE_U }) := by
  rw [uvmclear, walk_found hwf hva false (by rw [page_div]; exact hwf.leaf v hleaf.ne_zero)]
  simp only [Prog.pure_bind, page_div, pure_eq]

theorem wp_allocStack {L : List Proghdr} (himg : Image trampoline tf T O w t sz)
    (hholds : Holds file w t sz L) {Q : Option PageTable × PageTable × Nat → KWorld → Prop}
    (hfail : ∀ t' w', Image trampoline tf T O w' t' (PGROUNDUP sz) → Moved T w w' →
      Q (none, t', PGROUNDUP sz) w')
    (hok : ∀ t' w', Stacked trampoline tf T O w' t' (PGROUNDUP sz + 2 * PGSIZE) →
      Holds file w' t' (PGROUNDUP sz) L → (∀ v < pages sz, (t'.leaf v).flags = userFlags) →
      Moved T w w' → Q (some t', t', PGROUNDUP sz + 2 * PGSIZE) w') :
    (allocStack t sz).wp vmWp Q w := by
  have hup : PGROUNDUP sz = pages sz * PGSIZE := rfl
  have hpages : pages (PGROUNDUP sz + 2 * PGSIZE) = pages sz + 2 := by
    rw [hup, ← Nat.add_mul, pages_mul]
  have hmax : max (PGROUNDUP sz) (PGROUNDUP sz + 2 * PGSIZE) = PGROUNDUP sz + 2 * PGSIZE :=
    Nat.max_eq_right (Nat.le_add_right ..)
  rw [allocStack, wp_bind]
  refine (himg.resize (pages_pgroundup sz)).wp_uvmalloc (fun t1 w1 himg1 hm1 => ?_)
    fun t1 w1 himg1 hm1 hkeep hzero => ?_
  · exact hfail t1 w1 himg1 hm1
  rw [hmax] at himg1 hzero
  simp only [hmax]
  rw [if_neg (by simp only [PGSIZE]; omega), Nat.add_sub_cancel, hup]
  have hlim := himg1.acc.pages_le
  have hva : pages sz * PGSIZE < MAXVA := by
    show pages sz * 4096 < 2 ^ 38
    omega
  have hfull := himg1.full
  have hleaf : (t1.leaf (pages sz)).Leaf := hfull.mapped _ (by rw [hpages]; omega)
  rw [uvmclear_eq hfull.wf hva hleaf]
  set e : Pte := { t1.leaf (pages sz) with flags := (t1.leaf (pages sz)).flags &&& ~~~PTE_U } with he
  have hflags : e.flags = userFlags &&& ~~~PTE_U := by rw [he, himg1.user _ (by rw [hpages]; omega)]
  have hne : ∀ v, v ≠ pages sz → (t1.setLeaf (pages sz) e).leaf v = t1.leaf v := fun v hv =>
    PageTable.setLeaf_leaf_ne _ _ hv
  have hself : (t1.setLeaf (pages sz) e).leaf (pages sz) = e := PageTable.setLeaf_leaf_self ..
  have hppn : ∀ v, ((t1.setLeaf (pages sz) e).leaf v).ppn = (t1.leaf v).ppn := fun v => by
    by_cases hv : v = pages sz
    · rw [hv, hself]
    · rw [hne v hv]
  have hdiv : (PGROUNDUP sz + 2 * PGSIZE) / PGSIZE = pages sz + 2 := by
    rw [hup, ← Nat.add_mul, page_div]
  have hlt : pages sz < topPage := by
    show pages sz < (2 ^ 38 - 4096 - 4096) / 4096
    omega
  have hframes : (t1.setLeaf (pages sz) e).frames 0 (pages sz + 2) = t1.frames 0 (pages sz + 2) :=
    PageTable.frames_congr fun u _ _ => hppn u
  refine hok _ w1 ⟨⟨⟨hfull.wf.setLeaf (hfull.wf.leaf _ hleaf.ne_zero) e, fun v hv => ?_,
    fun v hv hv' => ?_⟩, ?_, ?_, fun v hv => ?_⟩, ?_, ⟨pages sz, ?_⟩, ?_, ?_⟩
    (hholds.grow (le_pgroundup sz) (fun v hv => ?_) fun v hv hv' => ?_) (fun v hv => ?_) hm1
  · by_cases hvs : v = pages sz
    · rw [hvs, hself]
      exact leaf_of_flags hflags (by decide) (by decide)
    · rw [hne v hvs]
      exact hfull.mapped v hv
  · rw [hne v (by rw [hpages] at hv; omega)]
    exact hfull.rest v hv hv'
  · rw [hne _ (by omega)]
    exact hfull.trapframe
  · rw [hne _ (by rw [lastPage_eq]; omega)]
    exact hfull.trampoline
  · rw [hne v (by rw [lastPage_eq] at hv; omega)]
    exact hfull.above v hv
  · refine himg1.acc.congr ?_
    rw [hpages, hframes, PageTable.setLeaf_nodes]
  · rw [hup, ← Nat.add_mul]
  · rw [hdiv, Nat.add_sub_cancel, hself, Pte.has, hflags]
    decide
  · rw [hdiv, show pages sz + 2 - 1 = pages sz + 1 by omega, hne _ (by omega)]
    exact himg1.user _ (by rw [hpages]; omega)
  · have hv' : v < pages (PGROUNDUP sz) := by rwa [pages_pgroundup]
    rw [hne v (by omega)]
    exact hkeep v hv'
  · rw [pages_pgroundup] at hv'
    omega
  · rw [hne v (by omega)]
    exact himg1.user v (by rw [hpages]; omega)

/-! ## The whole image -/

/-- What `exec` leaves of a file: it is closed again. `file` is the one that `namei` found last. -/
structure Left (T : Multiset Nat) (w w' : KWorld) : Prop where
  rest : w' = { w with free := w'.free, data := w'.data, tick := w'.tick, file := w'.file }
  out : ∀ p, p ∉ T → w'.data p = w.data p

def KWorld.opened (w : KWorld) (file : List (BitVec 8)) : KWorld :=
  { w with ops := w.ops + 1, file := file, refs := w.refs + 1, locked := true }

/-- Unlocked, released, and the transaction closed. -/
def KWorld.closed (w : KWorld) : KWorld :=
  { w with locked := false, refs := w.refs - 1, ops := w.ops - 1 }

theorem left_closed (hlock : w.locked = false)
    (hm : Moved T (w.opened file) w') : Left T w w'.closed := by
  refine ⟨?_, fun p hp => hm.out p hp⟩
  rw [hm.rest]
  simp [KWorld.closed, KWorld.opened, ← hlock]

theorem Left.moved (h : Left T w w') (hm : Moved T w' w'') : Left T w w'' := by
  refine ⟨?_, fun p hp => by rw [hm.out p hp, h.out p hp]⟩
  rw [hm.rest, h.rest]

theorem Acc.opened (h : Acc T w O) (file : List (BitVec 8)) : Acc T (w.opened file) O :=
  ⟨h.sum, h.nodup, h.range, h.base⟩

theorem Acc.closed (h : Acc T w O) : Acc T w.closed O := ⟨h.sum, h.nodup, h.range, h.base⟩

/-- The label `bad` while the file is open and there is no page table. -/
theorem wp_bad_none {Q : Unit → KWorld → Prop} (h : Q () w.closed) :
    (bad none true).wp vmWp Q w := h

theorem wp_bad (hfull : Full trampoline tf t sz) (hacc : Acc T w (t.nodes + (t.frames 0 (pages sz) + O)))
    {ip : Bool} {Q : Unit → KWorld → Prop}
    (h : ∀ w', Acc T w' O → Moved T w w' → Q () (if ip then w'.closed else w')) :
    (bad (some (t, sz)) ip).wp vmWp Q w := by
  rw [bad, wp_bind]
  refine wp_procFreepagetable hfull hacc fun w' ha' hm => ?_
  have := h w' ha' hm
  cases ip
  · exact this
  · exact this

/-- The file has a header that is read and is one of a program. -/
structure Header (file : List (BitVec 8)) (elf : Elfhdr) : Prop where
  read : elf = Elfhdr.ofBytes (readBytes file 0 (BitVec.ofNat 32 elfSize))
  length : (readBytes file 0 (BitVec.ofNat 32 elfSize)).length = elfSize
  magic : elf.magic = ELF_MAGIC
  headers : ∀ l ∈ headers file elf.phnum (BitVec.ofNat 32 elf.phoff), l.length = phSize

/-- The image that `exec` has made of a file, before the arguments. -/
structure Loaded (trampoline tf : Nat) (T O : Multiset Nat) (file : List (BitVec 8)) (w : KWorld)
    (t : PageTable) (sz : Nat) (elf : Elfhdr) : Prop where
  stacked : Stacked trampoline tf T O w t sz
  header : Header file elf
  holds : Holds file w t (sz - 2 * PGSIZE) (loads file elf.phnum (BitVec.ofNat 32 elf.phoff))
  user : ∀ v < sz / PGSIZE - 2, (t.leaf v).flags = userFlags

section

variable {α : Type} {Q : Unit → KWorld → Prop}

theorem vmWp_namei_none (h : w.files path = none) {Q : Bool → KWorld → Prop} :
    vmWp _ (.namei path) Q w ↔ Q false w := by
  simp [execWp, KOp.exec, h]

theorem vmWp_namei_some (h : w.files path = some file) {Q : Bool → KWorld → Prop} :
    vmWp _ (.namei path) Q w ↔ Q true { w with file := file, refs := w.refs + 1 } := by
  simp [execWp, KOp.exec, h]

end

theorem wp_loadImage (hacc : Acc T w O) (hlock : w.locked = false)
    {Q : Option (PageTable × Nat × Nat) → KWorld → Prop}
    (hfail : ∀ w', Acc T w' O → Left T w w' → Q none w')
    (hok : ∀ t sz w' file elf, w.files path = some file → Loaded trampoline tf T O file w' t sz elf →
      Left T w w' → Q (some (t, sz, elf.entry)) w') :
    (loadImage trampoline tf path).wp vmWp Q w := by
  rw [loadImage]
  simp only [Prog.lift_bind]
  have hfiles : ({ w with ops := w.ops + 1 } : KWorld).files path = w.files path := rfl
  show vmWp _ (.namei path) _ { w with ops := w.ops + 1 }
  cases hfile : w.files path with
  | none =>
    rw [vmWp_namei_none (hfiles.trans hfile)]
    exact hfail w hacc ⟨rfl, fun _ _ => rfl⟩
  | some file =>
    rw [vmWp_namei_some (hfiles.trans hfile)]
    show wp vmWp _ Q (w.opened file)
    have hacc0 := hacc.opened file
    -- giving up while the file is open
    have hclose : ∀ w1, Acc T w1 O → Moved T (w.opened file) w1 → Q none w1.closed := fun w1 ha1 hm1 =>
      hfail _ ha1.closed (left_closed hlock hm1)
    rw [Prog.wp_op, vmWp_readi]
    have hread : readBytes (w.opened file).file 0 (ofNat 32 elfSize) =
        readBytes file 0 (ofNat 32 elfSize) := rfl
    rw [hread]
    generalize hl : readBytes file 0 (ofNat 32 elfSize) = l
    generalize helf : Elfhdr.ofBytes l = elf
    by_cases hbad : l.length ≠ elfSize ∨ elf.magic ≠ ELF_MAGIC
    · rw [if_pos hbad, wp_bind]
      exact wp_bad_none (hclose _ hacc0 (.refl T _))
    rw [if_neg hbad, wp_bind]
    obtain ⟨hlen, hmagic⟩ := not_or.mp hbad
    refine wp_procPagetable hacc0 (fun w1 ha1 hm1 => ?_) fun t w1 hfull ha1 ht1 => ?_
    · exact wp_bad_none (hclose w1 ha1 hm1)
    have hm1 := ht1.moved hacc0
    have himg : Image trampoline tf T O w1 t 0 :=
      ⟨hfull, fun v hv => absurd hv (Nat.not_lt_zero v), ha1.congr (by
        rw [show pages 0 = 0 from rfl, PageTable.frames_zero, Multiset.zero_add])⟩
    simp only [wp_bind]
    refine wp_loadProgram elf.phnum (show w1.file = file from hm1.file) himg (Holds.empty w1 t)
      (fun t2 w2 sz2 himg2 hm2 => ?_) fun t2 w2 sz2 himg2 hholds2 hheads hm2 => ?_
    · simp only [Bool.not_false, if_true, wp_bind]
      exact wp_bad himg2.full himg2.acc fun w3 ha3 hm3 => hclose w3 ha3 (hm1.trans (hm2.trans hm3))
    -- the file is closed; now the stack
    show wp vmWp (allocStack t2 sz2 >>= _) Q w2.closed
    rw [wp_bind]
    have hleft : Left T w w2.closed := left_closed hlock (hm1.trans hm2)
    have himg3 : Image trampoline tf T O w2.closed t2 sz2 := ⟨himg2.full, himg2.user, himg2.acc.closed⟩
    have hholds3 : Holds file w2.closed t2 sz2 (loads file elf.phnum (ofNat 32 elf.phoff)) :=
      ⟨hholds2.fits, hholds2.read, hholds2.zero, hholds2.page⟩
    refine wp_allocStack himg3 hholds3 (fun t4 w4 himg4 hm4 => ?_)
      fun t4 w4 hst hholds4 huser hm4 => ?_
    · simp only [wp_bind]
      exact wp_bad himg4.full himg4.acc fun w5 ha5 hm5 => hfail w5 ha5 (hleft.moved (hm4.trans hm5))
    · have hdiv : (PGROUNDUP sz2 + 2 * PGSIZE) / PGSIZE - 2 = pages sz2 := by
        rw [pgroundup_eq, ← Nat.add_mul, page_div, Nat.add_sub_cancel]
      refine hok t4 _ w4 file elf hfile ⟨hst, ⟨?_, by rw [hl]; exact not_not.mp hlen,
        not_not.mp hmagic, hheads⟩, ?_, by rw [hdiv]; exact huser⟩ (hleft.moved hm4)
      · rw [hl, helf]
      · rw [Nat.add_sub_cancel]
        exact hholds4

end Xv6.Vm
