import Xv6.Fs.Proofs.VolOk

/-!
# File contents keep the invariant

`bmap`, `itrunc`, `readi` and `writei` on an inode whose in-memory copy `ip` may be ahead of the disk:
the invariant is that of the volume with `ip` in place of the inode on disk.
-/

namespace Xv6

open Prog (wp_bind wp_op lift_bind wp_pure wp_mono)
open Function
open Vol (ref setIno_setIno block setIno_ino_same)

variable {sb : Superblock} {w : FWorld} {n b off : Nat} {ip : Dinode} {v : Vol} {pend : List Nat}

/-- The volume with the in-memory copy of inode `n`. -/
abbrev volAt (sb : Superblock) (n : Nat) (ip : Dinode) (w : FWorld) : Vol :=
  (vol sb w.disk).setIno n ip

/-- The inode at work keeps the blocks it has; its other fields stay. -/
structure Grown (sb : Superblock) (n : Nat) (ip : Dinode) (w : FWorld) (ip' : Dinode) (w' : FWorld) :
    Prop where
  ok : (volAt sb n ip' w').Ok sb (some n) []
  keep : ∀ x b, (volAt sb n ip w).ref x = some b → (volAt sb n ip' w').ref x = some b
  rest : ip' = { ip with addrs := ip'.addrs }
  ino : (vol sb w'.disk).ino = (vol sb w.disk).ino

namespace Grown

theorem refl (h : (volAt sb n ip w).Ok sb (some n) []) : Grown sb n ip w ip w :=
  ⟨h, fun _ _ hx => hx, rfl, rfl⟩

theorem trans {ip1 ip2 : Dinode} {w1 w2 : FWorld} (h1 : Grown sb n ip w ip1 w1)
    (h2 : Grown sb n ip1 w1 ip2 w2) : Grown sb n ip w ip2 w2 := by
  refine ⟨h2.ok, fun x b hx => h2.keep x b (h1.keep x b hx), ?_, h2.ino.trans h1.ino⟩
  have := h2.rest
  rw [h1.rest] at this
  exact this

variable {ip' : Dinode} {w' : FWorld}

theorem type (h : Grown sb n ip w ip' w') : ip'.type = ip.type := by rw [h.rest]

theorem size (h : Grown sb n ip w ip' w') : ip'.size = ip.size := by rw [h.rest]

theorem write (hsb : sb.Wf) (h : Grown sb n ip w ip' w') {bn : Nat}
    (hb : (volAt sb n ip' w').block n bn = some b) (d : Block) :
    Grown sb n ip w ip' (w'.put b d) := by
  obtain ⟨x, hx, hxb⟩ := Option.bind_eq_some_iff.mp hb
  have hind := h.ok.content (Slot.ofBlock_content hx) hxb
  have hvol : volAt sb n ip' (w'.put b d) =
      (volAt sb n ip' w').setData b d := by
    rw [volAt, vol_setData hsb (h.ok.owned.dom_ref hxb)]
    rfl
  refine ⟨by rw [hvol]; exact h.ok.setData hind d, fun y c hy => ?_, h.rest, ?_⟩
  · rw [hvol, Vol.ref_setData hind]
    exact h.keep y c hy
  · rw [vol_setData hsb (h.ok.owned.dom_ref hxb), Vol.setData_ino]
    exact h.ino

end Grown

/-! ## `bmap` -/

section
variable (hsb : sb.Wf) (hok : (volAt sb n ip w).Ok sb (some n) []) (htype : ip.type ≠ 0)
  {Q : Nat × Dinode → FWorld → Prop}
include hsb hok htype

omit htype in
theorem wp_balloc_at {Q : Nat → FWorld → Prop}
    (h : ∀ b w', sb.Data b → (volAt sb n ip w).used b = false →
      volAt sb n ip w' = ((volAt sb n ip w).setUsed b true).setData b (fun _ => 0) →
      (volAt sb n ip w').Ok sb (some n) [b] →
      (∀ x, (volAt sb n ip w').ref x = (volAt sb n ip w).ref x) →
      (vol sb w'.disk).ino = (vol sb w.disk).ino → Q b w') : (balloc sb).wp storeWp Q w := by
  refine wp_balloc hsb hok.system fun b w' hb hu hw' => ?_
  have hvol : volAt sb n ip w' =
      ((volAt sb n ip w).setUsed b true).setData b (fun _ => 0) := by
    rw [volAt, hw']
    rfl
  refine h b w' hb hu hvol (by rw [hvol]; exact hok.alloc hb hu _) (fun x => ?_) (by rw [hw']; rfl)
  have hnot : ∀ m, ((volAt sb n ip w).setUsed b true).ref (.indirect m) ≠ some b :=
    hok.not_indirect hu
  rw [hvol, Vol.ref_setData hnot, Vol.setUsed_ref]

theorem wp_bmapSlot (i : Fin (NDIRECT + 1))
    (h : ∀ b ip' w', Grown sb n ip w ip' w' → (volAt sb n ip' w').ref (.addr n i) = some b →
      ((volAt sb n ip w).ref (.addr n i) ≠ none → ip' = ip ∧ w' = w) → Q (b, ip') w') :
    (bmapSlot sb ip i).wp storeWp Q w := by
  unfold bmapSlot
  split
  next hi =>
    rw [wp_bind]
    refine wp_balloc_at hsb hok fun b w' hb hu hvol hok' hkeep hino' => ?_
    have hb32 : b < 2 ^ 32 := by
      have := hb.2
      have := hsb.size
      omega
    have hnone : (volAt sb n ip w).ref (.addr n i) = none := by simp [ref, hi]
    have hino : (volAt sb n ip w').ino n = ip := by simp
    obtain ⟨hok2, href⟩ := hok'.attach (by rw [hino, hi]) (by rwa [hino]) hb32
      (by rw [hvol, Vol.setData_data_same])
    simp only [hino, setIno_setIno] at hok2 href
    refine h b _ w' ⟨hok2, fun x c hx => ?_, rfl, hino'⟩ (by simp [href]) ?_
    · have hne : x ≠ .addr n i := by
        rintro rfl
        rw [hnone] at hx
        cases hx
      rw [href, update_of_ne hne, hkeep, hx]
    · exact fun hne => absurd hnone hne
  next hi =>
    refine h _ ip w (.refl hok) ?_ fun _ => ⟨rfl, rfl⟩
    simpa [ref, blockRef] using hi

theorem wp_bmap (bn : Nat)
    (h : ∀ b ip' w', Grown sb n ip w ip' w' → (volAt sb n ip' w').block n bn = some b →
      ((volAt sb n ip w).block n bn ≠ none → ip' = ip ∧ w' = w) → Q (b, ip') w') :
    (bmap sb ip bn).wp storeWp Q w := by
  unfold bmap
  split
  next hbn =>
    have hslot : Slot.ofBlock n bn = some (.addr n ⟨bn, by omega⟩) := by simp [Slot.ofBlock, hbn]
    refine wp_bmapSlot hsb hok htype _ fun b ip' w' hg href hsame => h b ip' w' hg ?_ ?_
    · simpa [block, hslot] using href
    · simpa [block, hslot] using hsame
  next hbn =>
    split
    next hj =>
      have hslot : Slot.ofBlock n bn = some (.entry n ⟨bn - NDIRECT, hj⟩) := by
        simp [Slot.ofBlock, hbn, hj]
      rw [wp_bind]
      refine wp_bmapSlot hsb hok htype _ fun a ip1 w1 hg ha hsame => ?_
      simp only [lift_bind, wp_op, storeWp_bread]
      have hdata : w1.disk a = (volAt sb n ip1 w1).data a :=
        (vol_data (hg.ok.owned.dom_ref ha)).symm
      have hentry := Vol.ref_entry _ ha ⟨bn - NDIRECT, hj⟩
      rw [← hdata] at hentry
      split
      next hzero =>
        rw [wp_bind]
        refine wp_balloc_at hsb hg.ok fun b w2 hb hu hvol hok2 hkeep hino => ?_
        have hb32 : b < 2 ^ 32 := by
          have := hb.2
          have := hsb.size
          omega
        have hnone : (volAt sb n ip1 w1).ref (.entry n ⟨bn - NDIRECT, hj⟩) = none := by
          rw [hentry, hzero]
          rfl
        have ha2 : (volAt sb n ip1 w2).ref (.indirect n) = some a := by rw [hkeep, ha]
        have hab : a ≠ b := fun e => hg.ok.not_indirect hu n (e ▸ ha)
        have hda : (volAt sb n ip1 w2).data a = w1.disk a := by
          rw [hvol, Vol.setData_data_ne _ _ hab, Vol.setUsed_data, hdata]
        obtain ⟨hok3, href⟩ := hok2.attachEntry ha2 (by rw [hkeep, hnone]) hb32
        rw [hda] at hok3 href
        have hvol3 : volAt sb n ip1 (w2.put a ((w1.disk a).setUint 4 (4 * (bn - NDIRECT)) b)) =
            (volAt sb n ip1 w2).setData a ((w1.disk a).setUint 4 (4 * (bn - NDIRECT)) b) := by
          rw [volAt, vol_setData hsb (hok2.owned.dom_ref ha2)]
          rfl
        have hino3 : (vol sb (w2.put a ((w1.disk a).setUint 4 (4 * (bn - NDIRECT)) b)).disk).ino =
            (vol sb w1.disk).ino := by
          rw [vol_setData hsb (hok2.owned.dom_ref ha2), Vol.setData_ino, hino]
        refine h b ip1 _ (hg.trans ⟨by rw [hvol3]; exact hok3, fun x c hx => ?_, rfl, hino3⟩) ?_ ?_
        · have hne : x ≠ .entry n ⟨bn - NDIRECT, hj⟩ := by
            rintro rfl
            simp [hnone] at hx
          rw [hvol3, href, update_of_ne hne, hkeep, hx]
        · rw [hvol3]
          simp [block, hslot, href]
        · intro hne
          simp only [block, hslot, Option.bind_some] at hne
          obtain ⟨c, hc⟩ := Option.ne_none_iff_exists'.mp hne
          simp [hg.keep _ c hc] at hnone
      next hzero =>
        refine h _ ip1 w1 hg ?_ fun hne => hsame fun hno => hne ?_
        · simpa [block, hslot, hentry, blockRef] using hzero
        · simp only [block, hslot, Option.bind_some]
          exact Vol.ref_entry_none _ hno _
    · simp

end

/-! ## `itrunc` -/

/-- The two disks differ in their marks only. -/
structure OnlyMarks (sb : Superblock) (w w' : FWorld) : Prop where
  ino : (vol sb w'.disk).ino = (vol sb w.disk).ino
  data : (vol sb w'.disk).data = (vol sb w.disk).data

theorem OnlyMarks.refl (sb : Superblock) (w : FWorld) : OnlyMarks sb w w := ⟨rfl, rfl⟩

theorem OnlyMarks.trans {w1 w2 : FWorld} (h1 : OnlyMarks sb w w1) (h2 : OnlyMarks sb w1 w2) :
    OnlyMarks sb w w2 := ⟨h2.ino.trans h1.ino, h2.data.trans h1.data⟩

theorem wp_bfree_at (hsb : sb.Wf)
    (hok : (volAt sb n ip w).Ok sb (some n) (b :: pend)) {Q : Unit → FWorld → Prop}
    (h : ∀ w', (volAt sb n ip w').Ok sb (some n) pend →
      OnlyMarks sb w w' → Q () w') : (bfree sb b).wp storeWp Q w := by
  have hb := hok.owned.dom_pend b (List.mem_cons_self ..)
  have hu := hok.owned.used_pend (List.mem_cons_self ..)
  refine wp_bfree hsb hb hu fun w' hw' => h w' ?_ ⟨by rw [hw']; rfl, by rw [hw']; rfl⟩
  have hvol : volAt sb n ip w' = (volAt sb n ip w).setUsed b false := by
    rw [volAt, hw']
    rfl
  rw [hvol]
  exact hok.release

/-- The inode with some addresses cleared. -/
def Dinode.clearAddrs (ip : Dinode) (is : List (Fin (NDIRECT + 1))) : Dinode :=
  { ip with addrs := fun i => if i ∈ is then 0 else ip.addrs i }

theorem Dinode.clearAddrs_cons (ip : Dinode) (i : Fin (NDIRECT + 1)) (is : List (Fin (NDIRECT + 1))) :
    ip.clearAddrs (i :: is) = (ip.setAddr i 0).clearAddrs is := by
  simp only [clearAddrs, setAddr, Dinode.mk.injEq, true_and]
  funext k
  by_cases hk : k = i <;> simp [hk]

theorem Dinode.setAddr_self {i : Fin (NDIRECT + 1)} (h : ip.addrs i = 0) : ip.setAddr i 0 = ip := by
  simp only [setAddr, ← h, update_eq_self]

variable {Q : Dinode → FWorld → Prop}

theorem wp_truncDirect (hsb : sb.Wf) (is : List (Fin (NDIRECT + 1)))
    (his : ∀ i ∈ is, i ≠ Fin.last NDIRECT) (hok : (volAt sb n ip w).Ok sb (some n) [])
    (h : ∀ w', (volAt sb n (ip.clearAddrs is) w').Ok sb (some n) [] → OnlyMarks sb w w' →
      Q (ip.clearAddrs is) w') : (truncDirect sb ip is).wp storeWp Q w := by
  induction is generalizing ip w with
  | nil => exact h w hok (.refl sb w)
  | cons i is ih =>
    have his' : ∀ k ∈ is, k ≠ Fin.last NDIRECT := fun k hk => his k (List.mem_cons_of_mem _ hk)
    rw [Dinode.clearAddrs_cons] at h
    rw [truncDirect]
    split
    next hi =>
      rw [Dinode.setAddr_self hi] at h
      exact ih his' hok h
    next hi =>
      have hdet := hok.detach (his i (List.mem_cons_self ..)) (b := (ip.addrs i).toNat)
        (by simpa [ref, blockRef] using hi)
      rw [setIno_ino_same, setIno_setIno] at hdet
      rw [wp_bind]
      exact wp_bfree_at hsb hdet fun w' hok' hsame => ih his' hok' fun w'' hok'' hsame' =>
        h w'' hok'' (hsame.trans hsame')

theorem wp_truncEntries (hsb : sb.Wf) (a : Block)
    (hok : (volAt sb n ip w).Ok sb (some n)
      ((List.range NINDIRECT).filterMap (fun j => blockRef (a.word32 (4 * j))) ++ pend))
    {Q : Unit → FWorld → Prop}
    (h : ∀ w', (volAt sb n ip w').Ok sb (some n) pend → OnlyMarks sb w w' → Q () w') :
    (truncEntries sb a).wp storeWp Q w := by
  -- the entries that are left are pending
  let I : List Nat → FWorld → Prop := fun js w' =>
    (volAt sb n ip w').Ok sb (some n)
      (js.filterMap (fun j => blockRef (a.word32 (4 * j))) ++ pend) ∧
      OnlyMarks sb w w'
  refine wp_mono (Prog.execWp_mono _) _ (P := fun _ w' => I [] w')
    (fun _ w' h' => h w' h'.1 h'.2) ?_
  refine Prog.wp_forEach (Prog.execWp_mono _) I ?_ _ _ ⟨hok, .refl sb w⟩
  rintro j js w ⟨hj, hsame⟩
  split
  next hz => exact ⟨by simpa [hz] using hj, hsame⟩
  next hz =>
    have hsome : blockRef (a.word32 (4 * j)) = some (a.word32 (4 * j)).toNat :=
      blockRef_eq_some.mpr ⟨hz, rfl⟩
    simp only [List.filterMap_cons, hsome, List.cons_append] at hj
    exact wp_bfree_at hsb hj fun _ h' hsame' => ⟨h', hsame.trans hsame'⟩

theorem filterMap_entries {a : Nat} (ha : v.ref (.indirect n) = some a) :
    (Slot.entries n).filterMap v.ref =
      (List.range NINDIRECT).filterMap fun j => blockRef ((v.data a).word32 (4 * j)) := by
  rw [Slot.entries, List.filterMap_map, ← List.map_coe_finRange_eq_range, List.filterMap_map]
  exact List.filterMap_congr fun j _ => Vol.ref_entry v ha j

theorem wp_truncIndirect (hsb : sb.Wf) (hok : (volAt sb n ip w).Ok sb (some n) [])
    (h : ∀ w', (volAt sb n (ip.setAddr (Fin.last NDIRECT) 0) w').Ok sb (some n) [] →
      OnlyMarks sb w w' → Q (ip.setAddr (Fin.last NDIRECT) 0) w') :
    (truncIndirect sb ip).wp storeWp Q w := by
  unfold truncIndirect
  split
  next hz =>
    rw [Dinode.setAddr_self hz] at h
    exact h w hok (.refl sb w)
  next hz =>
    have ha : (volAt sb n ip w).ref (.indirect n) = some (ip.addrs (Fin.last NDIRECT)).toNat := by
      simpa [ref, blockRef] using hz
    have hdet := hok.detachIndirect ha
    rw [setIno_ino_same, setIno_setIno, filterMap_entries ha, Vol.setIno_data,
      vol_data (hok.owned.dom_ref ha)] at hdet
    simp only [lift_bind, wp_op, storeWp_bread, wp_bind]
    refine wp_truncEntries hsb _ hdet fun w1 hok1 hsame => ?_
    exact wp_bfree_at hsb hok1 fun w2 hok2 hsame2 => h w2 hok2 (hsame.trans hsame2)

theorem wp_itrunc (hsb : sb.Wf) (hn : n < sb.ninodes) (hok : (volAt sb n ip w).Ok sb (some n) [])
    (h : ∀ w', (vol sb w'.disk).Ok sb none [] →
      (vol sb w'.disk).ino =
        update (vol sb w.disk).ino n { ip with addrs := fun _ => 0, size := 0 } →
      (vol sb w'.disk).data = (vol sb w.disk).data →
      Q { ip with addrs := fun _ => 0, size := 0 } w') :
    (itrunc sb n ip).wp storeWp Q w := by
  have hdirect : ∀ i ∈ (List.finRange NDIRECT).map Fin.castSucc, i ≠ Fin.last NDIRECT := by
    intro i hi
    obtain ⟨k, -, rfl⟩ := List.mem_map.mp hi
    exact (Fin.castSucc_lt_last k).ne
  rw [itrunc, wp_bind]
  refine wp_truncDirect hsb _ hdirect hok fun w1 hok1 hsame1 => ?_
  rw [wp_bind]
  refine wp_truncIndirect hsb hok1 fun w2 hok2 hsame2 => ?_
  -- all thirteen addresses are clear now
  have hclear : (ip.clearAddrs ((List.finRange NDIRECT).map Fin.castSucc)).setAddr
      (Fin.last NDIRECT) 0 = { ip with addrs := fun _ => 0 } := by
    simp only [Dinode.setAddr, Dinode.clearAddrs, Dinode.mk.injEq, true_and]
    funext i
    by_cases hi : i = Fin.last NDIRECT
    · simp [hi]
    · rw [update_of_ne hi, if_pos]
      exact List.mem_map.mpr ⟨i.castPred hi, List.mem_finRange _, Fin.castSucc_castPred i hi⟩
  rw [hclear] at hok2 ⊢
  rw [wp_bind]
  refine wp_iupdate hsb hn fun w3 hw3 => ?_
  have hmeta := hok2.setMeta { ip with addrs := fun _ => 0, size := 0 }
    (by rw [setIno_ino_same]) (fun _ _ => rfl)
  rw [setIno_setIno, ← hw3] at hmeta
  refine h w3 (hmeta.done fun bn hbn => ?_) (by rw [hw3, ← hsame1.ino, ← hsame2.ino]; rfl)
    (by rw [hw3, Vol.setIno_data, hsame2.data, hsame1.data])
  rw [hw3, setIno_ino_same] at hbn
  exact absurd hbn (Nat.not_lt_zero _)

/-! ## `readi` and `writei` -/

section
variable (hsb : sb.Wf) (hok : (volAt sb n ip w).Ok sb (some n) []) (htype : ip.type ≠ 0)
  (hwhole : (volAt sb n ip w).Whole n)
include hsb hok htype hwhole

/-- Reading a file without holes changes neither the inode nor the disk. -/
theorem wp_readLoop {Q : Nat × Dinode × Space → FWorld → Prop}
    (h : ∀ tot sp, Q (tot, ip, sp) w) (fuel : Nat) :
    ∀ (sp : Space) (dst off tot len : Nat), off + (len - tot) ≤ ip.size.toNat →
      (readLoop sb fuel ip sp dst off tot len).wp storeWp Q w := by
  induction fuel with
  | zero => exact fun sp _ _ tot _ _ => h tot sp
  | succ fuel ih =>
    intro sp dst off tot len hsize
    rw [readLoop]
    split
    next htot =>
      have hblock : (volAt sb n ip w).block n (off / BSIZE) ≠ none := by
        refine hwhole _ ?_
        rw [setIno_ino_same]
        have := Nat.div_mul_le_self off BSIZE
        omega
      rw [wp_bind]
      refine wp_bmap hsb hok htype _ fun b ip' w' _ _ hsame => ?_
      obtain ⟨rfl, rfl⟩ := hsame hblock
      simp only [lift_bind, wp_op, storeWp_bread, storeWp_brelse]
      split
      · refine ih _ _ _ _ _ ?_
        omega
      · exact h _ _
    · exact h tot sp

theorem wp_readi (sp : Space) (dst : Nat) (off len : BitVec 32)
    {Q : Nat × Dinode × Space → FWorld → Prop} (h : ∀ tot sp', Q (tot, ip, sp') w) :
    (readi sb ip sp dst off len).wp storeWp Q w := by
  unfold readi
  split
  · exact h 0 sp
  next hoff =>
    refine wp_readLoop hsb hok htype hwhole h _ sp dst _ _ _ ?_
    split
    · omega
    next hle =>
      have hsum : (off + len).toNat = off.toNat + len.toNat := by
        rw [BitVec.toNat_add] at hoff ⊢
        omega
      omega

end

/-- Every block below offset `off` has a name. -/
def Vol.Filled (v : Vol) (n off : Nat) : Prop := ∀ bn, bn * BSIZE < off → v.block n bn ≠ none

theorem Grown.filled {ip' : Dinode} {w' : FWorld} (hg : Grown sb n ip w ip' w')
    (h : (volAt sb n ip w).Filled n off) : (volAt sb n ip' w').Filled n off := by
  intro bn hbn
  obtain ⟨c, hc⟩ := Option.ne_none_iff_exists'.mp (h bn hbn)
  rw [Vol.block_keep hg.keep hc]
  exact nofun

/-- Past a chunk that ends in the block of `off`, the file is filled once that block is. -/
theorem Vol.Filled.chunk {m : Nat} (h : v.Filled n off) (hb : v.block n (off / BSIZE) ≠ none)
    (hm : m ≤ BSIZE - off % BSIZE) : v.Filled n (off + m) := by
  intro bn hbn
  have hpos : 0 < BSIZE := by decide
  have hmod := Nat.mod_lt off hpos
  have hdiv := Nat.div_add_mod' off BSIZE
  rcases Nat.lt_trichotomy bn (off / BSIZE) with hlt | rfl | hgt
  · refine h bn ?_
    have := Nat.mul_le_mul_right BSIZE (Nat.succ_le_of_lt hlt)
    rw [Nat.succ_mul] at this
    omega
  · exact hb
  · have := Nat.mul_le_mul_right BSIZE (Nat.succ_le_of_lt hgt)
    rw [Nat.succ_mul] at this
    omega

theorem wp_copyinBuf {sp : Space} {d : Block} {doff src len : Nat}
    {Q : Bool → FWorld → Prop} (h : ∀ ok w', (w' = w ∨ ∃ d', w' = w.put b d') → Q ok w') :
    (copyinBuf sp b d doff src len).wp storeWp Q w := by
  unfold copyinBuf
  split
  split
  · exact h _ _ (.inr ⟨_, rfl⟩)
  · exact h _ _ (.inl rfl)

/-- The loop of `writei`, whether or not the copies succeed: what it leaves behind is filled up to
the offset it stopped at. -/
theorem wp_writeLoop (hsb : sb.Wf) (sp : Space) (fuel : Nat) :
    ∀ {ip : Dinode} {w : FWorld} {Q : Nat × Dinode → FWorld → Prop} (src off tot len : Nat),
      (volAt sb n ip w).Ok sb (some n) [] → ip.type ≠ 0 → (volAt sb n ip w).Filled n off →
      (∀ off' ip' w', Grown sb n ip w ip' w' → (volAt sb n ip' w').Filled n off' →
        Q (off', ip') w') →
      (writeLoop sb sp fuel ip src off tot len).wp storeWp Q w := by
  induction fuel with
  | zero => exact fun _ _ _ _ hok _ hfill h => h _ _ _ (.refl hok) hfill
  | succ fuel ih =>
    intro ip w Q src off tot len hok htype hfill h
    rw [writeLoop]
    split
    · rw [wp_bind]
      refine wp_bmap hsb hok htype _ fun b ip1 w1 hg hb _ => ?_
      simp only [lift_bind, wp_op, storeWp_bread]
      rw [wp_bind]
      refine wp_copyinBuf fun ok w2 hw2 => ?_
      have hg2 : Grown sb n ip w ip1 w2 ∧
          (volAt sb n ip1 w2).block n (off / BSIZE) = some b := by
        rcases hw2 with rfl | ⟨d, rfl⟩
        · exact ⟨hg, hb⟩
        · exact ⟨hg.write hsb hb d, Vol.block_keep ((Grown.refl hg.ok).write hsb hb d).keep hb⟩
      obtain ⟨hg2, hb2⟩ := hg2
      cases ok with
      | true =>
        simp only [if_true, wp_op, storeWp_logWrite, storeWp_brelse]
        have hfill2 := (hg2.filled hfill).chunk (by simp [hb2])
          (Nat.min_le_right (len - tot) (BSIZE - off % BSIZE))
        exact ih _ _ _ _ hg2.ok (by rwa [hg2.type]) hfill2
          fun off' ip' w' hg' hfill' => h off' ip' w' (hg2.trans hg') hfill'
      | false => exact h _ _ _ hg2 (hg2.filled hfill)
    · exact h _ _ _ (.refl hok) hfill

@[simp] theorem Dinode.growTo_addrs (ip : Dinode) (off : Nat) : (ip.growTo off).addrs = ip.addrs := by
  unfold growTo
  split <;> rfl

@[simp] theorem Dinode.growTo_type (ip : Dinode) (off : Nat) : (ip.growTo off).type = ip.type := by
  unfold growTo
  split <;> rfl

theorem Dinode.growTo_size (ip : Dinode) (off : Nat) :
    (ip.growTo off).size.toNat ≤ max ip.size.toNat off := by
  unfold growTo
  split
  · exact (Nat.mod_le _ _).trans (le_max_right _ _)
  · exact le_max_left _ _

/-- `writei` on an inode that agrees with the disk keeps the invariant of the volume on disk and
leaves the in-memory copy equal to the inode on disk, whether or not the user copy succeeds. -/
theorem wp_writei (hsb : sb.Wf) (hn : n < sb.ninodes) (hok : (vol sb w.disk).Ok sb none [])
    (hip : (vol sb w.disk).ino n = ip) (htype : ip.type ≠ 0) (sp : Space) (src : Nat)
    (off len : BitVec 32) {Q : Int × Dinode → FWorld → Prop}
    (h : ∀ r ip' w', (vol sb w'.disk).Ok sb none [] → ip'.type = ip.type →
      (vol sb w'.disk).ino = update (vol sb w.disk).ino n ip' → Q (r, ip') w') :
    (writei sb n ip sp src off len).wp storeWp Q w := by
  have hself : volAt sb n ip w = vol sb w.disk := by rw [volAt, ← hip, Vol.setIno_self]
  have hstay : ∀ r, Q (r, ip) w := fun r => h r ip w hok rfl (by rw [← hip, update_eq_self])
  unfold writei
  split
  · exact hstay _
  next hoff =>
    split
    · exact hstay _
    by_cases hlen : len.toNat = 0
    · rw [hlen]
      exact hstay _
    -- the offset lies in the file, so that nothing is missing below it
    have hwhole : (volAt sb n ip w).Whole n := by
      rw [hself]
      exact hok.whole n nofun
    have hfill : (volAt sb n ip w).Filled n off.toNat := fun bn hbn =>
      hwhole bn (by rw [setIno_ino_same]; omega)
    rw [wp_bind]
    refine wp_writeLoop hsb sp _ _ _ _ _ (by rw [hself]; exact hok.work n) htype hfill
      fun off' ip' w' hg hfill' => ?_
    simp only [if_pos (Nat.pos_of_ne_zero hlen), wp_bind]
    refine wp_iupdate hsb hn fun w'' hw'' => ?_
    have hmeta := hg.ok.setMeta (ip'.growTo off')
      (by rw [setIno_ino_same, Dinode.growTo_addrs])
      (fun ht => absurd ht (by rwa [Dinode.growTo_type, hg.type]))
    have href : (vol sb w''.disk).ref = (volAt sb n ip' w').ref := by
      rw [hw'', ← setIno_setIno _ _ ip']
      exact Vol.ref_setIno_of_addrs (by rw [setIno_ino_same, Dinode.growTo_addrs])
    rw [setIno_setIno, ← hw''] at hmeta
    refine h _ _ w'' (hmeta.done fun bn hbn => ?_) (by rw [Dinode.growTo_type, hg.type])
      (by rw [hw'', ← hg.ino]; rfl)
    rw [hw'', setIno_ino_same] at hbn
    rw [Vol.block_congr fun x _ => congrFun href x]
    rcases lt_max_iff.mp (hbn.trans_le (Dinode.growTo_size ip' off')) with hlt | hlt
    · exact hg.filled (fun bn hbn => hwhole bn (by rwa [setIno_ino_same])) bn (hg.size ▸ hlt)
    · exact hfill' bn hlt

end Xv6
