import Xv6.Fs.Proofs.Contents

/-!
# Room on the disk

How many blocks `bmap` takes, and what it leaves alone. The statements hold for a machine that may stop
when it is out of blocks, and for one that may not if there are enough of them.
-/

namespace Xv6

open Finset (range mem_erase mem_filter mem_Ico)
open FOp (exec)
open Prog (execWp lift_bind wp_op wp execWp_mono wp_mono wp_execWp_and wp_bind pure_eq wp_pure)

namespace Vol

def freeBlocks (sb : Superblock) (v : Vol) : Nat :=
  ((range sb.size).filter fun b => v.used b = false).card

/-- Number of blocks that `bmap` takes for block `bn` of file `n`. -/
def lack (v : Vol) (n bn : Nat) : Nat :=
  (if v.block n bn = none then 1 else 0) +
    if NDIRECT ≤ bn ∧ v.ref (.indirect n) = none then 1 else 0

/-- Number of blocks that are missing of the bytes from `lo` to `hi` of file `n`. -/
def need (v : Vol) (n lo hi : Nat) : Nat :=
  ((Finset.Ico (lo / BSIZE) ((hi + BSIZE - 1) / BSIZE)).filter fun bn => v.block n bn = none).card +
    if NDIRECT * BSIZE < hi ∧ v.ref (.indirect n) = none then 1 else 0

variable {sb : Superblock} {v v' : Vol} {n b bn : Nat}

theorem freeBlocks_setUsed (hb : b < sb.size) (hu : v.used b = false) :
    (v.setUsed b true).freeBlocks sb + 1 = v.freeBlocks sb := by
  have herase : (range sb.size).filter (fun c => (v.setUsed b true).used c = false) =
      ((range sb.size).filter fun c => v.used c = false).erase b := by
    ext c
    rw [mem_erase, mem_filter, mem_filter]
    by_cases hc : c = b
    · simp [setUsed, hc]
    · simp [setUsed, hc]
  rw [freeBlocks, herase]
  exact Finset.card_erase_add_one (by simp [hb, hu])

theorem indirect_of_block (hb : v.block n bn = some b) (hbn : NDIRECT ≤ bn) :
    v.ref (.indirect n) ≠ none := by
  intro hnone
  rw [block, Slot.ofBlock, dif_neg (by omega)] at hb
  split at hb
  · rw [Option.bind_some, ref_entry_none _ hnone] at hb
    cases hb
  · cases hb

section
variable (hkeep : ∀ x b, v.ref x = some b → v'.ref x = some b)
include hkeep

theorem ref_none_of_keep {x : Slot} (h : v'.ref x = none) : v.ref x = none := by
  by_contra hne
  obtain ⟨c, hc⟩ := Option.ne_none_iff_exists'.mp hne
  rw [hkeep x c hc] at h
  cases h

theorem block_none_of_keep (h : v'.block n bn = none) : v.block n bn = none := by
  by_contra hne
  obtain ⟨c, hc⟩ := Option.ne_none_iff_exists'.mp hne
  rw [block_keep hkeep hc] at h
  cases h

end

theorem need_chunk {lo hi m : Nat} (hlt : lo < hi)
    (hkeep : ∀ x b, v.ref x = some b → v'.ref x = some b) (hb : v'.block n (lo / BSIZE) = some b) :
    v.lack n (lo / BSIZE) + v'.need n (lo + m) hi ≤ v.need n lo hi := by
  have hpos : 0 < BSIZE := by decide
  have hin : lo / BSIZE < (hi + BSIZE - 1) / BSIZE := by
    rw [Nat.lt_iff_add_one_le, Nat.le_div_iff_mul_le hpos, Nat.add_mul]
    exact (Nat.add_le_add_right (Nat.div_mul_le_self lo BSIZE) _).trans (by omega)
  -- the blocks still missing are among those that were, without the one just found
  have hsub : ((Finset.Ico ((lo + m) / BSIZE) ((hi + BSIZE - 1) / BSIZE)).filter
      fun bn => v'.block n bn = none) ⊆
      (((Finset.Ico (lo / BSIZE) ((hi + BSIZE - 1) / BSIZE)).filter
        fun bn => v.block n bn = none).erase (lo / BSIZE)) := by
    intro bn hbn
    simp only [mem_filter, mem_Ico, mem_erase] at hbn ⊢
    refine ⟨?_, ⟨(Nat.div_le_div_right (Nat.le_add_right lo m)).trans hbn.1.1, hbn.1.2⟩,
      block_none_of_keep hkeep hbn.2⟩
    rintro rfl
    rw [hb] at hbn
    cases hbn.2
  have hcard := Finset.card_le_card hsub
  have hmissing : (if v.block n (lo / BSIZE) = none then 1 else 0) +
      (((Finset.Ico (lo / BSIZE) ((hi + BSIZE - 1) / BSIZE)).filter
        fun bn => v.block n bn = none).erase (lo / BSIZE)).card ≤
      ((Finset.Ico (lo / BSIZE) ((hi + BSIZE - 1) / BSIZE)).filter
        fun bn => v.block n bn = none).card := by
    split_ifs with hnone
    · rw [Nat.add_comm]
      exact (Finset.card_erase_add_one
        (mem_filter.mpr ⟨mem_Ico.mpr ⟨le_rfl, hin⟩, hnone⟩)).le
    · rw [Nat.zero_add]
      exact Finset.card_erase_le
  have hind : (if NDIRECT ≤ lo / BSIZE ∧ v.ref (.indirect n) = none then 1 else 0) +
      (if NDIRECT * BSIZE < hi ∧ v'.ref (.indirect n) = none then 1 else 0) ≤
      (if NDIRECT * BSIZE < hi ∧ v.ref (.indirect n) = none then 1 else 0) := by
    by_cases hdir : NDIRECT ≤ lo / BSIZE
    · have hhi : NDIRECT * BSIZE < hi := by
        have := (Nat.le_div_iff_mul_le hpos).mp hdir
        omega
      simp [hdir, hhi, indirect_of_block hb hdir]
    · rw [if_neg (fun h => hdir h.1), Nat.zero_add]
      by_cases hnone : v'.ref (.indirect n) = none
      · rw [hnone, ref_none_of_keep hkeep hnone]
      · simp [hnone]
  unfold lack need
  omega

/-- What stays when blocks are added to files: the contents of those that are there. At most `k`
blocks have been taken. -/
structure Extended (sb : Superblock) (v v' : Vol) (k : Nat) : Prop where
  data : ∀ {x b}, x.Content → v.ref x = some b → v'.data b = v.data b
  room : v.freeBlocks sb ≤ v'.freeBlocks sb + k

theorem Extended.refl (sb : Superblock) (v : Vol) (k : Nat) : Extended sb v v k :=
  ⟨fun _ _ => rfl, Nat.le_add_right ..⟩

end Vol

/-- The machine may stop for lack of blocks, or there are `k` free ones. -/
def Room (sb : Superblock) (E : FWorld → Prop) (v : Vol) (k : Nat) : Prop :=
  (∀ w : FWorld, w.msg = some "balloc: out of blocks" → E w) ∨ k ≤ v.freeBlocks sb

variable {E : FWorld → Prop} {w : FWorld} {ip : Dinode} {d : Block} {v : Vol}

variable {k b l : Nat} {Q : Unit → FWorld → Prop}

theorem Room.mono (h : Room sb E v k) (hl : l ≤ k) : Room sb E v l :=
  h.imp_right hl.trans

theorem Room.rest {v' : Vol} {j : Nat} (h : Room sb E v k)
    (hl : v.freeBlocks sb ≤ v'.freeBlocks sb + l) (hj : l + j ≤ k) : Room sb E v' j :=
  h.imp_right fun hk => by omega

@[simp] theorem execWp_bread {Q : Block → FWorld → Prop} :
    execWp exec E _ (.bread b) Q w ↔ Q (w.disk b) w := Iff.rfl

@[simp] theorem execWp_setData : execWp exec E _ (.setData b d) Q w ↔ Q () (w.put b d) := Iff.rfl

@[simp] theorem execWp_logWrite : execWp exec E _ (.logWrite b) Q w ↔ Q () w := Iff.rfl

@[simp] theorem execWp_brelse : execWp exec E _ (.brelse b) Q w ↔ Q () w := Iff.rfl

theorem wp_iupdate_exec (hsb : sb.Wf) (hn : n < sb.ninodes)
    (h : ∀ w', vol sb w'.disk = (vol sb w.disk).setIno n ip → Q () w') :
    (iupdate sb n ip).wp (execWp exec E) Q w := by
  exact h _ (vol_setIno hsb hn (Dinode.read_write_same ip _ (Nat.mod_lt _ (by decide)))
    fun k hk => Dinode.read_write_ne ip _ hk)

/-! ## `balloc` -/

theorem freeBit_eq_none {i : Nat} (h : freeBit sb b d k i = none) :
    ∀ j, i ≤ j → j < i + k → b + j < sb.size → d.testBit j = true := by
  induction k generalizing i with
  | zero => intro j hj hj'; omega
  | succ k ih =>
    intro j hj hj' hsize
    rw [freeBit, if_pos (by omega)] at h
    split_ifs at h with hbit
    by_cases hji : j = i
    · exact hji ▸ hbit
    · exact ih h j (by omega) (by omega) hsize

theorem wp_ballocFrom_stop (bs : List Nat) :
    (ballocFrom sb bs).wp (execWp exec fun w' =>
        w'.msg = some "balloc: out of blocks" ∧ ∀ b ∈ bs, ∀ j < BPB, b + j < sb.size →
          (w.disk (sb.bblock b)).testBit j = true) (fun _ _ => True) w := by
  induction bs with
  | nil => exact ⟨rfl, by simp⟩
  | cons b bs ih =>
    cases hfind : freeBit sb b (w.disk (sb.bblock b)) BPB 0 with
    | some bi =>
      simp only [ballocFrom, lift_bind, wp_op, execWp_bread, hfind]
      exact trivial
    | none =>
      simp only [ballocFrom, lift_bind, wp_op, execWp_bread, hfind]
      show wp _ (ballocFrom sb bs) _ _
      refine Prog.wp_of_le (execWp_mono _) (fun γ o Q s hs => ?_) _ ih
      unfold execWp at hs ⊢
      generalize exec γ o s = r at hs ⊢
      rcases r with ⟨_ | a, s'⟩
      · refine ⟨hs.1, fun c hc j hj hsize => ?_⟩
        rcases List.mem_cons.mp hc with rfl | hc
        · exact freeBit_eq_none hfind j (Nat.zero_le _) (by omega) hsize
        · exact hs.2 c hc j hj hsize
      · exact hs

theorem wp_balloc_stop (hroom : Room sb E (vol sb w.disk) 1) :
    (balloc sb).wp (execWp exec E) (fun _ _ => True) w := by
  refine wp_mono (execWp_mono _) _ (fun _ _ _ => trivial)
    (wp_execWp_and (fun w' hE _ => ?_)
      (wp_ballocFrom_stop ((List.range ((sb.size + BPB - 1) / BPB)).map (· * BPB)))
      (wp_ballocFrom_stop _))
  rcases hroom with hroom | hroom
  · exact hroom w' hE.1
  -- a free block has its bit in one of the bitmap blocks
  obtain ⟨b, hb⟩ := Finset.card_pos.mp hroom
  simp only [mem_filter, Finset.mem_range] at hb
  have hpos : 0 < BPB := by decide
  have hmod : b % BPB < BPB := Nat.mod_lt _ hpos
  have hdiv := Nat.div_add_mod' b BPB
  have hmem : b / BPB * BPB ∈ (List.range ((sb.size + BPB - 1) / BPB)).map (· * BPB) := by
    refine List.mem_map.mpr ⟨b / BPB, List.mem_range.mpr ?_, rfl⟩
    rw [Nat.lt_iff_add_one_le, Nat.le_div_iff_mul_le hpos, Nat.add_mul]
    omega
  have hset := hE.2 _ hmem (b % BPB) hmod (by omega)
  have hblk : sb.bblock (b / BPB * BPB) = sb.bblock b := by
    simp only [Superblock.bblock, Nat.mul_div_cancel _ hpos]
  rw [hblk, ← vol_used hb.1, hb.2] at hset
  cases hset

theorem wp_balloc_room (hsb : sb.Wf) (hok : (volAt sb n ip w).Ok sb (some n) [])
    (hroom : Room sb E (volAt sb n ip w) 1) {Q : Nat → FWorld → Prop}
    (h : ∀ b w', sb.Data b → (volAt sb n ip w).used b = false →
      volAt sb n ip w' = ((volAt sb n ip w).setUsed b true).setData b (fun _ => 0) → Q b w') :
    (balloc sb).wp (execWp exec E) Q w := by
  have hstop : (balloc sb).wp (execWp exec E) (fun _ _ => True) w := wp_balloc_stop hroom
  refine wp_mono (execWp_mono _) _ (fun _ _ hq => hq.1)
    (wp_execWp_and (E := FWorld.NoDoubleFree) (fun _ _ hE => hE) ?_ hstop)
  exact wp_balloc_at hsb hok fun b w' hb hu hvol _ _ _ => h b w' hb hu hvol

theorem Vol.Ok.extended_alloc (hok : v.Ok sb (some n) []) (hb : sb.Data b)
    (hu : v.used b = false) (d : Block) : v.Extended sb ((v.setUsed b true).setData b d) 1 := by
  refine ⟨fun {x c} _ hx => ?_, ?_⟩
  · have hne : c ≠ b := fun e => hok.owned.ref_ne_of_unused hu x (e ▸ hx)
    rw [Vol.setData_data_ne _ _ hne, Vol.setUsed_data]
  · exact (Vol.freeBlocks_setUsed hb.2 hu).ge

/-! ## `bmap` -/

theorem wp_bmapSlot_room (hsb : sb.Wf) (hok : (volAt sb n ip w).Ok sb (some n) [])
    (i : Fin (NDIRECT + 1)) (hk : (volAt sb n ip w).ref (.addr n i) = none → k = 1)
    (hroom : Room sb E (volAt sb n ip w) k) : (bmapSlot sb ip i).wp (execWp exec E)
      (fun r w' => (volAt sb n ip w).Extended sb (volAt sb n r.2 w') k) w := by
  unfold bmapSlot
  split
  next hi =>
    obtain rfl := hk (by simp [Vol.ref, hi])
    rw [wp_bind]
    refine wp_balloc_room hsb hok hroom fun b w' hb hu hvol => ?_
    have hx := hok.extended_alloc hb hu (fun _ => 0)
    rw [← hvol] at hx
    exact ⟨hx.data, hx.room⟩
  · exact .refl ..

/-- `bmap` takes no more than the block lacks, and leaves the contents of all files alone. -/
theorem wp_bmap_extended (hsb : sb.Wf) (hok : (volAt sb n ip w).Ok sb (some n) [])
    (htype : ip.type ≠ 0) {bn : Nat} (hbn : bn < MAXFILE)
    (hroom : Room sb E (volAt sb n ip w) ((volAt sb n ip w).lack n bn)) :
    (bmap sb ip bn).wp (execWp exec E)
      (fun r w' => (volAt sb n ip w).Extended sb (volAt sb n r.2 w')
        ((volAt sb n ip w).lack n bn)) w := by
  unfold bmap
  split
  next hdir =>
    refine wp_bmapSlot_room hsb hok _ (fun hnone => ?_) hroom
    have hblock : (volAt sb n ip w).block n bn = none := by
      rw [Vol.block, Slot.ofBlock, dif_pos hdir]
      exact hnone
    rw [Vol.lack, if_pos hblock, if_neg (fun h => absurd h.1 (by omega))]
  next hdir =>
    rw [if_pos (by simp only [MAXFILE] at hbn; omega)]
    have hj : bn - NDIRECT < NINDIRECT := by simp only [MAXFILE] at hbn; omega
    have hblock : (volAt sb n ip w).block n bn =
        (volAt sb n ip w).ref (.entry n ⟨bn - NDIRECT, hj⟩) := by
      rw [Vol.block, Slot.ofBlock, dif_neg hdir, dif_pos hj]
      rfl
    -- the indirect block is the second summand of what is lacking
    set j : Nat := if (volAt sb n ip w).ref (.indirect n) = none then 1 else 0 with hjdef
    have hlack : (volAt sb n ip w).lack n bn =
        (if (volAt sb n ip w).block n bn = none then 1 else 0) + j := by
      rw [Vol.lack, hjdef]
      congr 1
      exact if_congr (and_iff_right (not_lt.mp hdir)) rfl rfl
    rw [wp_bind]
    refine wp_mono (execWp_mono _) _ ?_
      (wp_execWp_and (fun _ _ hE => hE) (wp_bmapSlot hsb hok htype (Fin.last NDIRECT)
          (Q := fun r w' => Grown sb n ip w r.2 w' ∧
            (volAt sb n r.2 w').ref (.indirect n) = some r.1) fun b ip' w' hg href _ => ⟨hg, href⟩)
        (wp_bmapSlot_room hsb hok (Fin.last NDIRECT) (k := j)
          (fun hnone => if_pos hnone) (hroom.mono (by omega))))
    rintro ⟨a, ip1⟩ w1 ⟨⟨hg, ha⟩, hx⟩
    dsimp only at hg ha hx
    have hdata : w1.disk a = (volAt sb n ip1 w1).data a := (vol_data (hg.ok.owned.dom_ref ha)).symm
    have hentry := Vol.ref_entry _ ha ⟨bn - NDIRECT, hj⟩
    rw [← hdata] at hentry
    simp only [lift_bind, wp_op, execWp_bread]
    split_ifs with hzero
    · have hnone : (volAt sb n ip w).block n bn = none := by
        rw [hblock]
        refine Vol.ref_none_of_keep hg.keep ?_
        rw [hentry, hzero]
        rfl
      rw [hlack, if_pos hnone] at hroom ⊢
      rw [wp_bind]
      refine wp_balloc_room hsb hg.ok (hroom.rest hx.room (by omega)) fun b w2 hb hu hvol => ?_
      have hx2 := hg.ok.extended_alloc hb hu (fun _ => 0)
      rw [← hvol] at hx2
      have hda : sb.Data a := hg.ok.owned.dom_ref ha
      simp only [wp_op, execWp_setData, execWp_logWrite, execWp_brelse, pure_eq, wp_pure]
      refine ⟨fun {x c} hxc hc => ?_, ?_⟩
      · -- the entry is written to the indirect block, which holds no contents
        have hca : c ≠ a := fun e => hg.ok.content hxc (hg.keep x c hc) n (e ▸ ha)
        show (vol sb (Function.update w2.disk a _)).data c = _
        rw [vol_setData hsb hda, Vol.setData_data_ne _ _ hca]
        exact (hx2.data hxc (hg.keep x c hc)).trans (hx.data hxc hc)
      · show _ ≤ (vol sb (Function.update w2.disk a _)).freeBlocks sb + _
        rw [vol_setData hsb hda]
        have h1 := hx.room
        have h2 := hx2.room
        show _ ≤ (vol sb w2.disk).freeBlocks sb + _
        change (volAt sb n ip1 w1).freeBlocks sb ≤ (vol sb w2.disk).freeBlocks sb + 1 at h2
        omega
    · refine ⟨hx.data, hx.room.trans ?_⟩
      exact Nat.add_le_add_left (by omega) _

end Xv6
