import Xv6.Fs.Proofs.BlockOwnership
import Xv6.Fs.Proofs.Copying
import Xv6.Fs.Proofs.Room

/-!
# Files as byte arrays

A file of a consistent image stands for the list of its bytes. `writei` overwrites the list at an
offset and extends it where it ends, `readi` takes a piece of it and `itrunc` empties it; none of them
changes the list of another file.
-/

namespace Xv6

open Option (map_some getD_some bind_eq_some_iff)
open Function
open FOp (exec)
open Prog (execWp wp_mono execWp_mono wp_execWp_and wp_bind lift_bind wp_op run_of_wp)

/-- A list with `bs` written over it from position `off` on. -/
def overwrite {α : Type} (l : List α) (off : Nat) (bs : List α) : List α :=
  l.take off ++ bs ++ l.drop (off + bs.length)

variable {off src m : Nat} {α : Type} {l : List α} (bs : List α)

theorem getElem?_overwrite (h : off ≤ l.length)
    (i : Nat) : (overwrite l off bs)[i]? =
      if off ≤ i ∧ i < off + bs.length then bs[i - off]? else l[i]? := by
  have htake : (l.take off).length = off := by
    rw [List.length_take]
    omega
  rw [overwrite, List.append_assoc]
  by_cases hlo : i < off
  · rw [if_neg (by omega), List.getElem?_append_left (by omega), List.getElem?_take_of_lt hlo]
  rw [List.getElem?_append_right (by omega), htake]
  by_cases hhi : i < off + bs.length
  · rw [if_pos (by omega), List.getElem?_append_left (by omega)]
  · rw [if_neg (by omega), List.getElem?_append_right (by omega), List.getElem?_drop]
    congr 1
    omega

namespace Vol

def contents (v : Vol) (n : Nat) : List (BitVec 8) :=
  (List.range (v.ino n).size.toNat).map fun i => (v.byteAt n i).getD 0

variable {sb : Superblock} {v v' v'' : Vol} {n : Nat}

@[simp] theorem length_contents (v : Vol) (n : Nat) :
    (v.contents n).length = (v.ino n).size.toNat := by
  simp [contents]

theorem Whole.byteAt_some (h : v.Whole n) {i : Nat} (hi : i < (v.ino n).size.toNat) :
    ∃ c, v.byteAt n i = some c := by
  obtain ⟨b, hb⟩ := Option.ne_none_iff_exists'.mp
    (h (i / BSIZE) ((Nat.div_mul_le_self i BSIZE).trans_lt hi))
  exact ⟨_, by rw [byteAt, hb, map_some]⟩

theorem Whole.getElem?_contents (h : v.Whole n) (i : Nat) :
    (v.contents n)[i]? = if i < (v.ino n).size.toNat then v.byteAt n i else none := by
  by_cases hi : i < (v.ino n).size.toNat
  · obtain ⟨c, hc⟩ := h.byteAt_some hi
    rw [if_pos hi, contents, List.getElem?_map, List.getElem?_range hi, map_some, hc,
      getD_some]
  · rw [if_neg hi, List.getElem?_eq_none (by simpa using hi)]

/-- The bytes from `lo` to `hi` of file `n` are those of `g`, and all others that were there are as
before. -/
structure Rewritten (v v' : Vol) (n lo hi : Nat) (g : Nat → BitVec 8) : Prop where
  inside : ∀ i, lo ≤ i → i < hi → v'.byteAt n i = some (g i)
  outside : ∀ m i c, v.byteAt m i = some c → ¬(m = n ∧ lo ≤ i ∧ i < hi) → v'.byteAt m i = some c

namespace Rewritten

variable {lo mid hi : Nat} {g : Nat → BitVec 8}

theorem trans (h : Rewritten v v' n lo mid g) (h' : Rewritten v' v'' n mid hi g) (hlm : lo ≤ mid)
    (hmh : mid ≤ hi) : Rewritten v v'' n lo hi g where
  inside i hlo hhi := by
    by_cases hmid : mid ≤ i
    · exact h'.inside i hmid hhi
    · exact h'.outside n i _ (h.inside i hlo (by omega)) (by omega)
  outside m i c hc hout := h'.outside m i c (h.outside m i c hc (by omega)) (by omega)

theorem of_extended {k : Nat} (hx : v.Extended sb v' k)
    (hkeep : ∀ x b, v.ref x = some b → v'.ref x = some b) : Rewritten v v' n lo lo g where
  inside i hlo hhi := absurd hhi (not_lt.mpr hlo)
  outside m i c hc _ := by
    obtain ⟨b, hb, hbyte⟩ := Option.map_eq_some_iff.mp hc
    obtain ⟨x, hslot, hxb⟩ := bind_eq_some_iff.mp hb
    rw [byteAt, block_keep hkeep hb, map_some, hx.data (Slot.ofBlock_content hslot) hxb, hbyte]

theorem setIno_of_addrs (h : Rewritten v v' n lo hi g) {ip : Dinode}
    (ha : ip.addrs = (v'.ino n).addrs) : Rewritten v (v'.setIno n ip) n lo hi g := by
  have hbyte : ∀ m i, (v'.setIno n ip).byteAt m i = v'.byteAt m i := fun m i => by
    rw [byteAt, byteAt, block_congr fun x _ => congrFun (ref_setIno_of_addrs ha) x, setIno_data]
  exact ⟨fun i hlo hhi => by rw [hbyte, h.inside i hlo hhi],
    fun m i c hc hout => by rw [hbyte, h.outside m i c hc hout]⟩

theorem contents_eq {len : Nat} (h : Rewritten v v' n off (off + len) g) (hv : v.Whole n)
    (hv' : v'.Whole n) (hoff : off ≤ (v.ino n).size.toNat)
    (hsize : (v'.ino n).size.toNat = max (v.ino n).size.toNat (off + len)) :
    v'.contents n = overwrite (v.contents n) off ((List.range len).map fun k => g (off + k)) := by
  refine List.ext_getElem? fun i => ?_
  rw [getElem?_overwrite _ (by rwa [length_contents]), hv.getElem?_contents, hv'.getElem?_contents,
    List.length_map, List.length_range]
  by_cases hin : off ≤ i ∧ i < off + len
  · rw [if_pos hin, if_pos (by omega), h.inside i hin.1 hin.2, List.getElem?_map,
      List.getElem?_range (by omega), map_some, Nat.add_sub_cancel' hin.1]
  rw [if_neg hin]
  by_cases hi : i < (v.ino n).size.toNat
  · obtain ⟨c, hc⟩ := hv.byteAt_some hi
    rw [if_pos hi, if_pos (by omega), hc]
    exact h.outside n i c hc (by omega)
  · rw [if_neg hi, if_neg (by omega)]

theorem contents_other (h : Rewritten v v' n lo hi g) (hm : m ≠ n) (hv : v.Whole m)
    (hv' : v'.Whole m) (hino : v'.ino m = v.ino m) : v'.contents m = v.contents m := by
  refine List.ext_getElem? fun i => ?_
  rw [hv.getElem?_contents, hv'.getElem?_contents, hino]
  by_cases hi : i < (v.ino m).size.toNat
  · obtain ⟨c, hc⟩ := hv.byteAt_some hi
    rw [if_pos hi, if_pos hi, hc]
    exact h.outside m i c hc fun hn => hm hn.1
  · rw [if_neg hi, if_neg hi]

end Rewritten

end Vol

theorem Vol.Ok.rewritten_fill {sb : Superblock} {v : Vol} {n b : Nat} {d : Block}
    (hok : v.Ok sb (some n) []) (hb : v.block n (off / BSIZE) = some b) (hd : d = v.data b)
    (hm : m ≤ BSIZE - off % BSIZE) (g : Nat → BitVec 8) :
    v.Rewritten (v.setData b (d.fill (off % BSIZE) m src fun a => g (off + (a - src)))) n off
      (off + m) g := by
  obtain ⟨x, hx, hxb⟩ := bind_eq_some_iff.mp hb
  have href := Vol.ref_setData (d := d.fill (off % BSIZE) m src fun a => g (off + (a - src)))
    (hok.content (Slot.ofBlock_content hx) hxb)
  have hblock : ∀ k bn, (v.setData b (d.fill (off % BSIZE) m src
      fun a => g (off + (a - src)))).block k bn = v.block k bn := fun k bn =>
    Vol.block_congr fun y _ => congrFun href y
  have hpos : 0 < BSIZE := by decide
  have hdivmod := Nat.div_add_mod' off BSIZE
  refine ⟨fun i hlo hhi => ?_, fun k i c hc hout => ?_⟩
  · have hdiv : i / BSIZE = off / BSIZE :=
      Nat.div_eq_of_lt_le (by omega) (by rw [Nat.succ_mul]; omega)
    have hi := Nat.div_add_mod' i BSIZE
    rw [hdiv] at hi
    rw [Vol.byteAt, hblock, hdiv, hb, map_some, Vol.setData_data_same,
      Bytes.byte_fill _ _ _ _ _ (Nat.mod_lt _ hpos), if_pos (by omega)]
    congr 2
    omega
  · obtain ⟨e, he, hbyte⟩ := Option.map_eq_some_iff.mp hc
    rw [Vol.byteAt, hblock, he, map_some]
    by_cases heb : e = b
    · -- the block belongs to this file only, so the byte is outside of the chunk
      obtain ⟨y, hy, hyb⟩ := bind_eq_some_iff.mp he
      obtain rfl := hok.owned.inj hxb (heb ▸ hyb)
      obtain ⟨rfl, hdiv⟩ := Slot.ofBlock_inj hx hy
      have hi := Nat.div_add_mod' i BSIZE
      rw [← hdiv] at hi
      rw [heb, Vol.setData_data_same, Bytes.byte_fill _ _ _ _ _ (Nat.mod_lt _ hpos),
        if_neg (by omega), hd, ← heb, hbyte]
    · rw [Vol.setData_data_ne _ _ heb, hbyte]

variable {sb : Superblock} {E : FWorld → Prop} {w : FWorld} {n : Nat} {ip : Dinode}

/-! ## `writei` -/

theorem wp_bmap_room (hsb : sb.Wf) (hok : (volAt sb n ip w).Ok sb (some n) []) (htype : ip.type ≠ 0)
    {bn : Nat} (hbn : bn < MAXFILE)
    (hroom : Room sb E (volAt sb n ip w) ((volAt sb n ip w).lack n bn))
    {Q : Nat × Dinode → FWorld → Prop}
    (h : ∀ b ip' w', Grown sb n ip w ip' w' → (volAt sb n ip' w').block n bn = some b →
      (volAt sb n ip w).Extended sb (volAt sb n ip' w') ((volAt sb n ip w).lack n bn) →
      Q (b, ip') w') : (bmap sb ip bn).wp (execWp exec E) Q w := by
  refine wp_mono (execWp_mono _) _ ?_
    (wp_execWp_and (E := FWorld.NoDoubleFree) (fun _ _ hE => hE) (wp_bmap hsb hok htype bn
        (Q := fun r w' => Grown sb n ip w r.2 w' ∧ (volAt sb n r.2 w').block n bn = some r.1)
        fun b ip' w' hg hb _ => ⟨hg, hb⟩) (wp_bmap_extended hsb hok htype hbn hroom))
  rintro ⟨b, ip'⟩ w' ⟨⟨hg, hb⟩, hx⟩
  exact h b ip' w' hg hb hx

theorem wp_writeLoop_bytes (hsb : sb.Wf) (sp : Space) (g : Nat → BitVec 8) (fuel : Nat) :
    ∀ {ip : Dinode} {w : FWorld} {Q : Nat × Dinode → FWorld → Prop} (src off tot len : Nat),
      len - tot ≤ fuel → off + (len - tot) ≤ MAXFILE * BSIZE →
      (volAt sb n ip w).Ok sb (some n) [] → ip.type ≠ 0 →
      (∀ i, off ≤ i → i < off + (len - tot) → sp.byteAt (src + (i - off)) = some (g i)) →
      Room sb E (volAt sb n ip w) ((volAt sb n ip w).need n off (off + (len - tot))) →
      (∀ ip' w', Grown sb n ip w ip' w' →
        (volAt sb n ip w).Rewritten (volAt sb n ip' w') n off (off + (len - tot)) g →
        Q (off + (len - tot), ip') w') →
      (writeLoop sb sp fuel ip src off tot len).wp (execWp exec E) Q w := by
  induction fuel with
  | zero =>
    intro ip w Q src off tot len hfuel _ hok _ _ _ h
    rw [show len - tot = 0 by omega] at h
    exact h ip w (.refl hok) (.of_extended (.refl sb _ 0) fun _ _ hx => hx)
  | succ fuel ih =>
    intro ip w Q src off tot len hfuel hmax hok htype hsrc hroom h
    rw [writeLoop]
    split_ifs with htot
    · set m := min (len - tot) (BSIZE - off % BSIZE) with hm
      have hpos : 0 < BSIZE := by decide
      have hmod := Nat.mod_lt off hpos
      have hbn : off / BSIZE < MAXFILE := Nat.div_lt_of_lt_mul (by rw [Nat.mul_comm]; omega)
      have hchunk : ∀ {v' : Vol} {b : Nat},
          (∀ x b, (volAt sb n ip w).ref x = some b → v'.ref x = some b) →
          v'.block n (off / BSIZE) = some b →
          (volAt sb n ip w).lack n (off / BSIZE) + v'.need n (off + m) (off + (len - tot)) ≤
            (volAt sb n ip w).need n off (off + (len - tot)) := fun hkeep hb =>
        Vol.need_chunk (by omega) hkeep hb
      rw [wp_bind]
      refine wp_bmap_room hsb hok htype hbn (hroom.imp_right fun hk => ?_) fun b ip1 w1 hg hb hx => ?_
      · refine le_trans ?_ hk
        have hin : off / BSIZE < (off + (len - tot) + BSIZE - 1) / BSIZE := by
          rw [Nat.lt_iff_add_one_le, Nat.le_div_iff_mul_le hpos, Nat.add_mul]
          exact (Nat.add_le_add_right (Nat.div_mul_le_self off BSIZE) _).trans (by omega)
        refine Nat.add_le_add ?_ ?_
        · split_ifs with hnone
          · exact Finset.card_pos.mpr ⟨off / BSIZE,
              Finset.mem_filter.mpr ⟨Finset.mem_Ico.mpr ⟨le_rfl, hin⟩, hnone⟩⟩
          · exact Nat.zero_le _
        · split_ifs with h1 h2
          · exact le_rfl
          · have := (Nat.le_div_iff_mul_le hpos).mp h1.1
            exact absurd ⟨by omega, h1.2⟩ h2
          · exact Nat.zero_le _
          · exact le_rfl
      simp only [lift_bind, wp_op, execWp_bread]
      have hmapped : ∀ a, src ≤ a → a < src + m →
          sp.byteAt a = some ((fun a => g (off + (a - src))) a) := by
        intro a ha ha'
        have := hsrc (off + (a - src)) (by omega) (by omega)
        rwa [show src + (off + (a - src) - off) = a by omega] at this
      have hcopy := eitherCopyin_mapped (w1.disk b) (off % BSIZE) hmapped
      obtain ⟨x, hslot, hxb⟩ := bind_eq_some_iff.mp hb
      have hdata : sb.Data b := hg.ok.owned.dom_ref hxb
      rw [copyinBuf, hcopy]
      simp only []
      rw [if_pos (by omega)]
      set d := (w1.disk b).fill (off % BSIZE) m src fun a => g (off + (a - src)) with hd
      have hvol : volAt sb n ip1 (w1.put b d) = (volAt sb n ip1 w1).setData b d := by
        rw [volAt, vol_setData hsb hdata]
        rfl
      have hg2 : Grown sb n ip w ip1 (w1.put b d) := hg.write hsb hb d
      have hrew : (volAt sb n ip w).Rewritten (volAt sb n ip1 (w1.put b d)) n off (off + m) g := by
        refine (Vol.Rewritten.of_extended hx hg.keep).trans ?_ le_rfl (Nat.le_add_right ..)
        rw [hvol]
        exact hg.ok.rewritten_fill hb (vol_data hdata).symm (by omega) g
      have hb2 : (volAt sb n ip1 (w1.put b d)).block n (off / BSIZE) = some b :=
        Vol.block_keep ((Grown.refl hg.ok).write hsb hb d).keep hb
      refine ih (src + m) (off + m) (tot + m) len (by omega) (by omega) hg2.ok
        (by rwa [hg2.type]) (fun i hlo hhi => ?_) ?_ fun ip' w' hg' hrew' => ?_
      · rw [show src + m + (i - (off + m)) = src + (i - off) by omega]
        exact hsrc i (by omega) (by omega)
      · rw [show off + m + (len - (tot + m)) = off + (len - tot) by omega]
        refine hroom.rest ?_ (hchunk hg2.keep hb2)
        rw [hvol]
        exact hx.room
      · rw [show off + m + (len - (tot + m)) = off + (len - tot) by omega] at hrew' ⊢
        exact h ip' w' (hg2.trans hg') (hrew.trans hrew' (by omega) (by omega))
    · rw [show len - tot = 0 by omega] at h
      exact h ip w (.refl hok) (.of_extended (.refl sb _ 0) fun _ _ hx => hx)

def WriteRefused (size off len : BitVec 32) : Prop :=
  size.toNat < off.toNat ∨ 2 ^ 32 ≤ off.toNat + len.toNat ∨
    MAXFILE * BSIZE < off.toNat + len.toNat

instance (size off len : BitVec 32) : Decidable (WriteRefused size off len) := by
  unfold WriteRefused
  infer_instance

variable {off len : BitVec 32}

theorem toNat_add_of_le (h : ¬(off + len).toNat < off.toNat) :
    (off + len).toNat = off.toNat + len.toNat := by
  rw [BitVec.toNat_add] at h ⊢
  omega

theorem writeRefused_iff {size : BitVec 32} : WriteRefused size off len ↔
    (size.toNat < off.toNat ∨ (off + len).toNat < off.toNat) ∨ MAXFILE * BSIZE < (off + len).toNat := by
  have hmax : MAXFILE * BSIZE = 274432 := rfl
  rw [WriteRefused, BitVec.toNat_add, hmax]
  omega

theorem wp_writei_bytes (hsb : sb.Wf) (hn : n < sb.ninodes) (hok : (vol sb w.disk).Ok sb none [])
    (hip : (vol sb w.disk).ino n = ip) (htype : ip.type ≠ 0) {sp : Space}
    {g : Nat → BitVec 8} (hacc : ¬WriteRefused ip.size off len)
    (hsrc : ∀ i, off.toNat ≤ i → i < off.toNat + len.toNat →
      sp.byteAt (src + (i - off.toNat)) = some (g i))
    (hroom : Room sb E (vol sb w.disk) ((vol sb w.disk).need n off.toNat (off.toNat + len.toNat)))
    {Q : Int × Dinode → FWorld → Prop}
    (h : ∀ ip' w', (vol sb w'.disk).ino n = ip' →
      ip'.size.toNat = max ip.size.toNat (off.toNat + len.toNat) →
      (vol sb w.disk).Rewritten (vol sb w'.disk) n off.toNat (off.toNat + len.toNat) g →
      Q (len.toNat, ip') w') : (writei sb n ip sp src off len).wp (execWp exec E) Q w := by
  have hself : volAt sb n ip w = vol sb w.disk := by rw [volAt, ← hip, Vol.setIno_self]
  have hmax : MAXFILE * BSIZE = 274432 := rfl
  have htests := writeRefused_iff.not.mp hacc
  rw [WriteRefused, hmax] at hacc
  rw [writei, if_neg (fun ht => htests (.inl ht)), if_neg (fun ht => htests (.inr ht))]
  by_cases hlen : len.toNat = 0
  · rw [hlen] at h ⊢
    exact h ip w hip (by omega) (.of_extended (.refl sb _ 0) fun _ _ hx => hx)
  rw [wp_bind]
  refine wp_writeLoop_bytes hsb sp g _ _ _ _ _ (Nat.sub_le ..) (by rw [hmax]; omega)
    (by rw [hself]; exact hok.work n) htype hsrc (by rw [hself]; exact hroom)
    fun ip' w' hg hrew => ?_
  simp only [if_pos (Nat.pos_of_ne_zero hlen), wp_bind, Nat.sub_zero] at hrew ⊢
  refine wp_iupdate_exec hsb hn fun w'' hw'' => ?_
  have hsize : (ip'.growTo (off.toNat + len.toNat)).size.toNat =
      max ip.size.toNat (off.toNat + len.toNat) := by
    rw [Dinode.growTo, hg.size]
    split_ifs with hlt
    · rw [BitVec.toNat_ofNat, Nat.mod_eq_of_lt (by omega)]
      omega
    · rw [hg.size]
      omega
  refine h _ w'' (by rw [hw'', Vol.setIno_ino_same]) hsize ?_
  rw [hself] at hrew
  have haddrs : (ip'.growTo (off.toNat + len.toNat)).addrs = ((volAt sb n ip' w').ino n).addrs := by
    rw [Vol.setIno_ino_same, Dinode.growTo_addrs]
  have hrew' := hrew.setIno_of_addrs haddrs
  rwa [Vol.setIno_setIno, ← hw''] at hrew'

/-! ## `itrunc` -/

abbrev doubleFree (w : FWorld) : Prop := w.msg = some "freeing free block"

theorem wp_bfree_stop (b : Nat) {Q : Unit → FWorld → Prop} (h : ∀ w', Q () w') :
    (bfree sb b).wp (execWp exec doubleFree) Q w := by
  simp only [bfree, lift_bind, wp_op, execWp_bread]
  split_ifs
  · exact h _
  · rfl

theorem wp_truncDirect_stop (is : List (Fin (NDIRECT + 1))) :
    ∀ {ip : Dinode} {w : FWorld} {Q : Dinode → FWorld → Prop}, (∀ ip' w', Q ip' w') →
      (truncDirect sb ip is).wp (execWp exec doubleFree) Q w := by
  induction is with
  | nil => exact fun h => h _ _
  | cons i is ih =>
    intro ip w Q h
    rw [truncDirect]
    split_ifs
    · exact ih h
    · rw [wp_bind]
      exact wp_bfree_stop _ fun _ => ih h

theorem wp_itrunc_stop : (itrunc sb n ip).wp (execWp exec doubleFree) (fun _ _ => True) w := by
  rw [itrunc, wp_bind]
  refine wp_truncDirect_stop _ fun ip1 w1 => ?_
  rw [wp_bind, truncIndirect]
  split_ifs
  · exact trivial
  · simp only [lift_bind, wp_op, execWp_bread, wp_bind]
    refine wp_mono (execWp_mono _) _ (P := fun _ _ => True) (fun _ w2 _ => ?_) ?_
    · simp only [execWp_brelse]
      exact wp_bfree_stop _ fun _ => trivial
    · refine Prog.wp_forEach (execWp_mono _) (fun _ _ => True) (fun j js w' _ => ?_) _ _ trivial
      split_ifs
      · exact trivial
      · exact wp_bfree_stop _ fun _ => trivial

/-! ## Refinement -/

def ReadRefused (size off len : BitVec 32) : Prop :=
  size.toNat < off.toNat ∨ 2 ^ 32 ≤ off.toNat + len.toNat

instance (size off len : BitVec 32) : Decidable (ReadRefused size off len) := by
  unfold ReadRefused
  infer_instance

theorem writei_run (hsb : sb.Wf) (hc : Consistent sb w.disk) (hn : n < sb.ninodes)
    (htype : ((vol sb w.disk).ino n).type ≠ 0) (mem : Nat → BitVec 8) (src : Nat)
    (off len : BitVec 32)
    (hroom : WriteRefused ((vol sb w.disk).ino n).size off len ∨
      (vol sb w.disk).need n off.toNat (off.toNat + len.toNat) ≤ (vol sb w.disk).freeBlocks sb) :
    ∃ r ip' w', (writei sb n ((vol sb w.disk).ino n) (.kernel mem) src off len).run exec w =
        (some (r, ip'), w') ∧ Consistent sb w'.disk ∧ (vol sb w'.disk).ino n = ip' ∧
      ((r = -1 ∧ ip' = (vol sb w.disk).ino n ∧ w' = w) ↔
        WriteRefused ((vol sb w.disk).ino n).size off len) ∧
      (¬WriteRefused ((vol sb w.disk).ino n).size off len → r = len.toNat ∧
        (vol sb w'.disk).contents n = overwrite ((vol sb w.disk).contents n) off.toNat
          ((List.range len.toNat).map fun k => mem (src + k))) ∧
      ∀ m ≠ n, (vol sb w'.disk).contents m = (vol sb w.disk).contents m := by
  by_cases href : WriteRefused ((vol sb w.disk).ino n).size off len
  · have hrun : (writei sb n ((vol sb w.disk).ino n) (.kernel mem) src off len).run exec w =
        (some (-1, (vol sb w.disk).ino n), w) := by
      rw [writei]
      rcases writeRefused_iff.mp href with h | h
      · rw [if_pos h]
        rfl
      · split_ifs
        · rfl
        · rfl
    exact ⟨_, _, w, hrun, hc, rfl, ⟨fun _ => href, fun _ => ⟨rfl, rfl, rfl⟩⟩,
      fun hno => absurd href hno, fun _ _ => rfl⟩
  · have hwp := wp_execWp_and (F := fun _ => False)
      (fun _ _ h => h)
      (wp_writei hsb hn hc.ok rfl htype (.kernel mem) src off len
        (Q := fun r w' => (vol sb w'.disk).Ok sb none [] ∧
          (vol sb w'.disk).ino = update (vol sb w.disk).ino n r.2)
        fun r ip' w' hok _ hino => ⟨hok, hino⟩)
      (wp_writei_bytes hsb hn hc.ok rfl htype href
        (fun _ _ _ => rfl) (.inr (hroom.resolve_left href))
        (Q := fun r w' => (r.1 = (len.toNat : Int) ∧
          r.2.size.toNat = max ((vol sb w.disk).ino n).size.toNat (off.toNat + len.toNat)) ∧
          (vol sb w.disk).Rewritten (vol sb w'.disk) n off.toNat (off.toNat + len.toNat)
            fun i => mem (src + (i - off.toNat))) fun ip' w' _ hsize hrew => ⟨⟨rfl, hsize⟩, hrew⟩)
    obtain ⟨⟨r, ip'⟩, w', hrun, ⟨hok, hino⟩, ⟨hr, hsize⟩, hrew⟩ := run_of_wp hwp
    have hn' : (vol sb w'.disk).ino n = ip' := by rw [hino, update_self]
    refine ⟨r, ip', w', hrun, hok.consistent, hn', ⟨fun h => ?_, fun h => absurd h href⟩,
      fun _ => ⟨hr, ?_⟩, fun m hm => ?_⟩
    · have := h.1
      omega
    · have hcont := hrew.contents_eq (hc.ok.whole n nofun) (hok.whole n nofun)
        (by simp only [WriteRefused] at href; omega) (by rw [hn', hsize])
      rw [hcont]
      congr 2
      funext k
      rw [Nat.add_sub_cancel_left]
    · exact hrew.contents_other hm (hc.ok.whole m nofun) (hok.whole m nofun)
        (by rw [hino, update_of_ne hm])

theorem readi_run (hc : Consistent sb w.disk) (mem : Nat → BitVec 8) (dst : Nat)
    (off len : BitVec 32) :
    ∃ tot mem', (readi sb ((vol sb w.disk).ino n) (.kernel mem) dst off len).run exec w =
        (some (tot, (vol sb w.disk).ino n, .kernel mem'), w) ∧
      (ReadRefused ((vol sb w.disk).ino n).size off len → tot = 0) ∧
      (¬ReadRefused ((vol sb w.disk).ino n).size off len →
        off.toNat + tot = min (off.toNat + len.toNat) ((vol sb w.disk).ino n).size.toNat) ∧
      (∀ k < tot, ((vol sb w.disk).contents n)[off.toNat + k]? = some (mem' (dst + k))) ∧
      ∀ a, a < dst ∨ dst + tot ≤ a → mem' a = mem a := by
  have hsize : (size : BitVec 32) → ReadRefused size off len ↔
      size.toNat < off.toNat ∨ (off + len).toNat < off.toNat := by
    intro size
    rw [ReadRefused, BitVec.toNat_add]
    omega
  by_cases href : ReadRefused ((vol sb w.disk).ino n).size off len
  · refine ⟨0, mem, ?_, fun _ => rfl, fun h => absurd href h, fun k hk => absurd hk (Nat.not_lt_zero k),
      fun _ _ => rfl⟩
    rw [readi, if_pos ((hsize _).mp href)]
    rfl
  · have hwhole := hc.ok.whole n (by simp)
    have htest := (hsize _).not.mp href
    have hsum := toNat_add_of_le (fun h => htest (.inr h))
    rw [ReadRefused] at href
    set tot := if ((vol sb w.disk).ino n).size.toNat < (off + len).toNat then
      ((vol sb w.disk).ino n).size.toNat - off.toNat else len.toNat with htot
    have hmin : off.toNat + tot =
        min (off.toNat + len.toNat) ((vol sb w.disk).ino n).size.toNat := by
      rw [htot, hsum]
      split_ifs <;> omega
    set g : Nat → BitVec 8 := fun i => ((vol sb w.disk).byteAt n i).getD 0 with hg
    have hbytes : ∀ i < tot, (vol sb w.disk).byteAt n (off.toNat + i) =
        some (g (off.toNat + i)) := by
      intro i hi
      obtain ⟨c, hbyte⟩ := hwhole.byteAt_some (i := off.toNat + i) (by omega)
      rw [hg, hbyte]
      simp only [hbyte, getD_some]
    refine ⟨tot, putMem mem dst off.toNat tot g, ?_, fun h => absurd h href, fun _ => hmin,
      fun k hk => ?_, fun a ha => if_neg (by omega)⟩
    · have hwp : (readi sb ((vol sb w.disk).ino n) (.kernel mem) dst off len).wp outsideWp
          (fun r w' => r = (tot, (vol sb w.disk).ino n, .kernel (putMem mem dst off.toNat tot g)) ∧
            w' = w) w := by
        rw [readi, if_neg htest]
        refine wp_readLoop_bytes (fun bn b hb => ?_) g tot mem dst off.toNat 0 tot (Nat.sub_le ..)
          (Nat.zero_le _) hbytes ⟨rfl, rfl⟩
        obtain ⟨x, -, hx⟩ := bind_eq_some_iff.mp hb
        exact (hc.named x b hx).1
      -- a run that never calls `log_write` is the same outside and inside of an operation
      have hin : (readi sb ((vol sb w.disk).ino n) (.kernel mem) dst off len).wp
          (execWp exec fun _ => False)
          (fun r w' => r = (tot, (vol sb w.disk).ino n, .kernel (putMem mem dst off.toNat tot g)) ∧
            w' = w) w := by
        refine Prog.wp_of_le (execWp_mono _) (fun γ o Q s hs => ?_) _ hwp
        cases o <;> first | exact hs | exact hs.elim
      obtain ⟨r, w', hrun, rfl, rfl⟩ := run_of_wp hin
      exact hrun
    · rw [hwhole.getElem?_contents, if_pos (by omega), hbytes k hk, putMem, if_pos (by omega),
        Nat.add_sub_cancel_left]

theorem itrunc_run (hsb : sb.Wf) (hc : Consistent sb w.disk) (hn : n < sb.ninodes) :
    ∃ ip' w', (itrunc sb n ((vol sb w.disk).ino n)).run exec w = (some ip', w') ∧
      Consistent sb w'.disk ∧ (vol sb w'.disk).ino n = ip' ∧ (vol sb w'.disk).contents n = [] ∧
      ∀ m ≠ n, (vol sb w'.disk).contents m = (vol sb w.disk).contents m := by
  have hself : volAt sb n ((vol sb w.disk).ino n) w = vol sb w.disk := Vol.setIno_self ..
  have hwp := wp_execWp_and (E := FWorld.NoDoubleFree)
    (fun _ hE hF => hE hF)
    (wp_itrunc hsb hn (by rw [hself]; exact hc.ok.work n)
      (Q := fun ip' w' => (vol sb w'.disk).Ok sb none [] ∧
        (vol sb w'.disk).ino = update (vol sb w.disk).ino n ip' ∧ ip'.size = 0 ∧
        (vol sb w'.disk).data = (vol sb w.disk).data)
      fun w' hok hino hdata => ⟨hok, hino, rfl, hdata⟩)
    wp_itrunc_stop
  obtain ⟨ip', w', hrun, ⟨hok, hino, hsize, hdata⟩, -⟩ := run_of_wp hwp
  have hn' : (vol sb w'.disk).ino n = ip' := by rw [hino, update_self]
  refine ⟨ip', w', hrun, hok.consistent, hn', ?_, fun m hm => ?_⟩
  · rw [Vol.contents, hn', hsize]
    rfl
  · have hino' : (vol sb w'.disk).ino m = (vol sb w.disk).ino m := by rw [hino, update_of_ne hm]
    have href : ∀ x : Slot, x.inum = m → (vol sb w'.disk).ref x = (vol sb w.disk).ref x :=
      fun x hx => Vol.ref_congr (by rw [hx, hino']) hdata
    unfold Vol.contents Vol.byteAt
    rw [hino', hdata]
    congr 1
    funext i
    rw [Vol.block_congr href]

/-- Inodes are byte arrays. On a consistent image and with kernel memory on the other side: `writei`
refuses exactly the writes that start behind the end, wrap around or exceed the largest file, and if
there are enough blocks it carries out all others; `readi` delivers what the file has of the bytes asked
for; `itrunc` empties the file. Other files keep their bytes. -/
theorem inode_byte_array (hsb : sb.Wf) (hc : Consistent sb w.disk) (hn : n < sb.ninodes)
    (htype : ((vol sb w.disk).ino n).type ≠ 0) (mem : Nat → BitVec 8) (addr : Nat)
    (off len : BitVec 32) :
    (WriteRefused ((vol sb w.disk).ino n).size off len ∨
        (vol sb w.disk).need n off.toNat (off.toNat + len.toNat) ≤ (vol sb w.disk).freeBlocks sb →
      ∃ r ip' w', (writei sb n ((vol sb w.disk).ino n) (.kernel mem) addr off len).run FOp.exec w =
          (some (r, ip'), w') ∧ Consistent sb w'.disk ∧ (vol sb w'.disk).ino n = ip' ∧
        ((r = -1 ∧ ip' = (vol sb w.disk).ino n ∧ w' = w) ↔
          WriteRefused ((vol sb w.disk).ino n).size off len) ∧
        (¬WriteRefused ((vol sb w.disk).ino n).size off len → r = len.toNat ∧
          (vol sb w'.disk).contents n = overwrite ((vol sb w.disk).contents n) off.toNat
            ((List.range len.toNat).map fun k => mem (addr + k))) ∧
        ∀ m ≠ n, (vol sb w'.disk).contents m = (vol sb w.disk).contents m) ∧
    (∃ tot mem', (readi sb ((vol sb w.disk).ino n) (.kernel mem) addr off len).run FOp.exec w =
        (some (tot, (vol sb w.disk).ino n, .kernel mem'), w) ∧
      (ReadRefused ((vol sb w.disk).ino n).size off len → tot = 0) ∧
      (¬ReadRefused ((vol sb w.disk).ino n).size off len →
        off.toNat + tot = min (off.toNat + len.toNat) ((vol sb w.disk).ino n).size.toNat) ∧
      (∀ k < tot, ((vol sb w.disk).contents n)[off.toNat + k]? = some (mem' (addr + k))) ∧
      ∀ a, a < addr ∨ addr + tot ≤ a → mem' a = mem a) ∧
    ∃ ip' w', (itrunc sb n ((vol sb w.disk).ino n)).run FOp.exec w = (some ip', w') ∧
      Consistent sb w'.disk ∧ (vol sb w'.disk).ino n = ip' ∧ (vol sb w'.disk).contents n = [] ∧
      ∀ m ≠ n, (vol sb w'.disk).contents m = (vol sb w.disk).contents m :=
  ⟨fun hroom => writei_run hsb hc hn htype mem addr off len hroom,
    readi_run hc mem addr off len, itrunc_run hsb hc hn⟩

/-- The small image with an empty file, inode 1. -/
def oneFileDisk : Store := update tinyDisk 2 (Dinode.init 2 (tinyDisk 2) 1)

theorem tiny_wf : tinySuperblock.Wf := ⟨by decide, by decide⟩

theorem vol_oneFileDisk :
    vol tinySuperblock oneFileDisk = (vol tinySuperblock tinyDisk).setIno 1 (.fresh 2) :=
  vol_setIno tiny_wf (n := 1) (by decide) (Dinode.read_init_same 2 _ (by decide))
    fun _ hk => Dinode.read_init_ne 2 _ hk

theorem oneFileDisk_consistent : Consistent tinySuperblock oneFileDisk := by
  have hino : (vol tinySuperblock tinyDisk).ino 1 = .fresh 0 := by
    rw [vol_ino (by decide)]
    exact Dinode.read_zero _
  have hmeta := (tiny_consistent.ok.work 1).setMeta (.fresh 2) (by rw [hino]; rfl)
    (fun h => absurd h (by decide))
  rw [← vol_oneFileDisk] at hmeta
  refine (hmeta.done fun bn hbn => ?_).consistent
  exact absurd hbn (Nat.not_lt_zero _)

/-- Five bytes written to the empty file. -/
theorem inode_byte_array_five :
    ∃ r ip' w', (writei tinySuperblock 1 ((vol tinySuperblock oneFileDisk).ino 1)
        (.kernel fun _ => 7) 0 0 5).run FOp.exec ⟨oneFileDisk, none⟩ = (some (r, ip'), w') ∧ r = 5 ∧
      (vol tinySuperblock w'.disk).contents 1 = [7, 7, 7, 7, 7] := by
  have hino : (vol tinySuperblock oneFileDisk).ino 1 = .fresh 2 := by
    rw [vol_oneFileDisk, Vol.setIno_ino_same]
  have hfits : ¬WriteRefused ((vol tinySuperblock oneFileDisk).ino 1).size 0 5 := by
    rw [hino]
    decide
  obtain ⟨r, ip', w', hrun, -, -, -, hwrite, -⟩ := (inode_byte_array (w := ⟨oneFileDisk, none⟩) tiny_wf
    oneFileDisk_consistent (n := 1) (by decide) (by rw [hino]; decide) (fun _ => 7) 0 0 5).1
    (.inr (by decide +kernel))
  obtain ⟨hr, hcont⟩ := hwrite hfits
  have hempty : (vol tinySuperblock oneFileDisk).contents 1 = [] := by
    rw [Vol.contents, hino]
    rfl
  refine ⟨r, ip', w', hrun, hr, ?_⟩
  rw [hcont]
  rw [hempty]
  rfl

end Xv6
