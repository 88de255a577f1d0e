import Xv6.Virtio.Code

/-!
# Allocating and freeing descriptors
-/

namespace Xv6.Vdisk

open Function

variable {Tid B : Type} (n : Nat)

def hold (d : Vdisk Tid B) (i : Fin NUM) : Vdisk Tid B :=
  { d with free := update d.free i false }

def put (d : Vdisk Tid B) (i : Fin NUM) : Vdisk Tid B :=
  { d with
    desc := update d.desc i { d.desc i with addr := .null }
    free := update d.free i true }

@[simp] theorem put_flags (d : Vdisk Tid B) (i j : Fin NUM) :
    ((d.put i).desc j).flags = (d.desc j).flags := by
  by_cases h : j = i
  · subst h
    simp [put]
  · simp [put, h]

@[simp] theorem put_next (d : Vdisk Tid B) (i j : Fin NUM) :
    ((d.put i).desc j).next = (d.desc j).next := by
  by_cases h : j = i
  · subst h
    simp [put]
  · simp [put, h]

variable {i j : Fin NUM} {x : Idx} {d : Vdisk Tid B}

theorem put_desc_of_ne (d : Vdisk Tid B) (h : j ≠ i) : (d.put i).desc j = d.desc j := by
  simp [put, h]

theorem put_free (d : Vdisk Tid B) (i j : Fin NUM) :
    (d.put i).free j = if j = i then true else d.free j := by
  simp [put, update_apply]

theorem hold_free (d : Vdisk Tid B) (i j : Fin NUM) :
    (d.hold i).free j = if j = i then false else d.free j := by
  simp [hold, update_apply]

theorem freeDesc_eq (h : d.free i = false) : d.freeDesc i = .ok (d.put i) := by
  simp [freeDesc, h, put]

theorem allocDesc_cases (d : Vdisk Tid B) :
    d.allocDesc = none ∨ ∃ i, d.free i = true ∧ d.allocDesc = some (i, d.hold i) := by
  unfold allocDesc
  cases h : (List.finRange NUM).find? (d.free ·) with
  | none => exact .inl rfl
  | some i => exact .inr ⟨i, List.find?_some h, rfl⟩

theorem free_put_hold (h : d.free i = true) : ((d.hold i).put i).free = d.free := by
  funext j
  rw [put_free, hold_free]
  split
  next hj => rw [hj, h]
  · rfl

theorem alloc3Desc_cases (d : Vdisk Tid B) :
    (∃ x : Idx, x.toList.Nodup ∧ (∀ i ∈ x.toList, d.free i = true) ∧
      d.alloc3Desc = .ok (some x, ((d.hold x.i0).hold x.i1).hold x.i2)) ∨
    ∃ desc, (∀ i, d.free i = false → desc i = d.desc i) ∧
      d.alloc3Desc = .ok (none, { d with desc := desc }) := by
  unfold alloc3Desc
  rcases allocDesc_cases d with h0 | ⟨i0, hi0, h0⟩
  · exact .inr ⟨d.desc, fun _ _ => rfl, by rw [h0]; rfl⟩
  rcases allocDesc_cases (d.hold i0) with h1 | ⟨i1, hi1, h1⟩
  · refine .inr ⟨((d.hold i0).put i0).desc, fun i hi => ?_, ?_⟩
    · exact put_desc_of_ne _ fun heq => by simp [heq, hi0] at hi
    · simp only [h0, h1, freeAll]
      rw [freeDesc_eq (by simp [hold])]
      refine congrArg (fun f => Except.ok (none, { (d.hold i0).put i0 with free := f })) ?_
      exact free_put_hold hi0
  have h01 : i1 ≠ i0 := by
    rintro rfl
    simp [hold] at hi1
  have hfree1 : d.free i1 = true := by rwa [hold_free, if_neg h01] at hi1
  rcases allocDesc_cases ((d.hold i0).hold i1) with h2 | ⟨i2, hi2, h2⟩
  · refine .inr ⟨((((d.hold i0).hold i1).put i0).put i1).desc, fun i hi => ?_, ?_⟩
    · have hne0 : i ≠ i0 := fun heq => by simp [heq, hi0] at hi
      have hne1 : i ≠ i1 := fun heq => by simp [heq, hfree1] at hi
      rw [put_desc_of_ne _ hne1, put_desc_of_ne _ hne0]
      rfl
    · simp only [h0, h1, h2, freeAll]
      rw [freeDesc_eq (by simp [hold, update_of_ne h01.symm])]
      show (((d.hold i0).hold i1).put i0).freeDesc i1 >>= _ = _
      rw [freeDesc_eq (by simp [hold, put, update_of_ne h01])]
      refine congrArg
        (fun f => Except.ok (none, { (((d.hold i0).hold i1).put i0).put i1 with free := f })) ?_
      funext j
      show ((((d.hold i0).hold i1).put i0).put i1).free j = d.free j
      rw [put_free, put_free, hold_free, hold_free]
      rcases eq_or_ne j i1 with hj | hj
      · simp [hj, hfree1]
      · rcases eq_or_ne j i0 with hj' | hj'
        · simp [hj', h01.symm, hi0]
        · simp [hj, hj']
  · have h12 : i2 ≠ i1 := by
      rintro rfl
      simp [hold] at hi2
    have h02 : i2 ≠ i0 := by
      rintro rfl
      simp [hold, update_of_ne h01.symm] at hi2
    refine .inl ⟨⟨i0, i1, i2⟩, ?_, ?_, by rw [h0]; simp only [h1, h2]⟩
    · simp [Idx.toList, h01.symm, h12.symm, h02.symm]
    · rw [hold_free, if_neg h12, hold_free, if_neg h02] at hi2
      simp [Idx.toList, hi0, hfree1, hi2]

structure Linked (d : Vdisk Tid B) (x : Idx) : Prop where
  flags0 : (d.desc x.i0).flags &&& VRING_DESC_F_NEXT ≠ 0
  next0 : (d.desc x.i0).next.toNat = x.i1
  flags1 : (d.desc x.i1).flags &&& VRING_DESC_F_NEXT ≠ 0
  next1 : (d.desc x.i1).next.toNat = x.i2
  flags2 : (d.desc x.i2).flags &&& VRING_DESC_F_NEXT = 0

theorem freeChainLoop_next (hfree : d.free i = false)
    (hflags : (d.desc i).flags &&& VRING_DESC_F_NEXT ≠ 0) (hnext : (d.desc i).next.toNat = j) :
    freeChainLoop (n + 1) d i = freeChainLoop n (d.put i) j := by
  rw [freeChainLoop, freeDesc_eq hfree]
  show (if h : i.val < NUM then _ else _) = _
  rw [dif_pos i.isLt]
  rw [if_pos (by rwa [put_flags])]
  rw [put_next, hnext]

theorem freeChainLoop_last (hfree : d.free i = false)
    (hflags : (d.desc i).flags &&& VRING_DESC_F_NEXT = 0) :
    freeChainLoop (n + 1) d i = .ok (d.put i) := by
  rw [freeChainLoop, freeDesc_eq hfree]
  show (if h : i.val < NUM then _ else _) = _
  rw [dif_pos i.isLt]
  rw [if_neg (by rw [put_flags]; exact fun h => h hflags)]

theorem freeChain_eq (hlink : d.Linked x) (hnodup : x.toList.Nodup)
    (hfree : ∀ i ∈ x.toList, d.free i = false) :
    d.freeChain x.i0 = .ok (((d.put x.i0).put x.i1).put x.i2) := by
  simp only [Idx.toList, List.nodup_cons, List.mem_cons, List.not_mem_nil, or_false,
    not_or] at hnodup hfree
  obtain ⟨⟨h01, h02⟩, h12, -⟩ := hnodup
  have hf0 := hfree x.i0 (.inl rfl)
  have hf1 := hfree x.i1 (.inr (.inl rfl))
  have hf2 := hfree x.i2 (.inr (.inr rfl))
  unfold freeChain
  rw [freeChainLoop_next _ hf0 hlink.flags0 hlink.next0,
    freeChainLoop_next _ _ (by rw [put_flags]; exact hlink.flags1)
      (by rw [put_next]; exact hlink.next1),
    freeChainLoop_last _ _ (by rw [put_flags, put_flags]; exact hlink.flags2)]
  · rw [put_free, put_free, if_neg (Ne.symm h12), if_neg (Ne.symm h02), hf2]
  · rw [put_free, if_neg (Ne.symm h01), hf1]

/-- The descriptors and the lock given back. -/
def giveBack (d : Vdisk Tid B) (x : Idx) : Vdisk Tid B :=
  { (((d.clearInfo x).put x.i0).put x.i1).put x.i2 with vdiskLock := none }

theorem finishRw_eq (hlink : d.Linked x) (hnodup : x.toList.Nodup)
    (hfree : ∀ i ∈ x.toList, d.free i = false) : d.finishRw x = .ok (d.giveBack x) := by
  unfold finishRw
  rw [freeChain_eq (d := d.clearInfo x) { hlink with } hnodup hfree]
  rfl

theorem giveBack_free (d : Vdisk Tid B) (x : Idx) (i : Fin NUM) :
    (d.giveBack x).free i = if i ∈ x.toList then true else d.free i := by
  show (put _ x.i2).free i = _
  rw [put_free, put_free, put_free]
  simp only [Idx.toList, List.mem_cons, List.not_mem_nil, or_false, clearInfo]
  split_ifs <;> simp_all

theorem giveBack_desc (d : Vdisk Tid B) (h : i ∉ x.toList) : (d.giveBack x).desc i = d.desc i := by
  simp only [Idx.toList, List.mem_cons, List.not_mem_nil, or_false, not_or] at h
  show (put _ x.i2).desc i = _
  rw [put_desc_of_ne _ h.2.2, put_desc_of_ne _ h.2.1, put_desc_of_ne _ h.1]
  rfl

theorem giveBack_info (d : Vdisk Tid B) (h : i ∉ x.toList) : (d.giveBack x).info i = d.info i := by
  simp only [Idx.toList, List.mem_cons, List.not_mem_nil, or_false, not_or] at h
  exact update_of_ne h.1 ..

theorem intrTurn_eq [DecidableEq B] {b : B} (hi : d.usedIdx.toNat = i)
    (hj : (d.usedElems i).toNat = j) (hinfo : d.info j = ⟨some b, 0⟩) :
    d.intrTurn = .ok (b, { d with
      busy := update d.busy b false
      usedIdx := (d.usedIdx + 1) % BitVec.ofNat 16 NUM }) := by
  have hfin : (⟨d.usedIdx.toNat, hi ▸ i.isLt⟩ : Fin NUM) = i := Fin.ext hi
  have hfin' : (⟨(d.usedElems i).toNat, hj ▸ j.isLt⟩ : Fin NUM) = j := Fin.ext hj
  unfold intrTurn
  rw [dif_pos (hi ▸ i.isLt)]
  simp only [hfin]
  rw [dif_pos (hj ▸ j.isLt)]
  simp only [hfin', hinfo, ne_eq, not_true_eq_false, if_false]

end Xv6.Vdisk
