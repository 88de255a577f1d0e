import Xv6.Fs.Store

/-!
# The invariant of a volume

Every marked data block is named by one slot, free inodes name nothing and files have no holes. In
the middle of a call the inode at work (`cur`) may have holes, and blocks may be on their way between
the bitmap and a slot (`pend`). Each lemma below is one elementary change.
-/

namespace Xv6

open Function
open Dinode (setAddr)

/-- A slot that holds file contents; the others name an indirect block. -/
def Slot.Content (x : Slot) : Prop := ∀ n, x ≠ .indirect n

variable {bn a : Nat} {x : Slot}

theorem Slot.ofBlock_inum {n : Nat} (h : ofBlock n bn = some x) : x.inum = n := by
  unfold ofBlock at h
  split at h
  · cases h
    rfl
  · split at h
    · cases h
      rfl
    · cases h

theorem Slot.ofBlock_content {n : Nat} (h : ofBlock n bn = some x) : x.Content := by
  intro m
  unfold ofBlock at h
  split at h
  next hbn =>
    cases h
    intro e
    obtain ⟨-, e⟩ := Slot.addr.inj e
    exact absurd (congrArg Fin.val e) (by simp [Fin.last]; omega)
  · split at h
    · cases h
      nofun
    · cases h

theorem Slot.ofBlock_inj {m n k l : Nat} (h : ofBlock m k = some x)
    (h' : ofBlock n l = some x) : m = n ∧ k = l := by
  unfold ofBlock at h h'
  split at h <;> split at h'
  · cases h
    cases h'
    exact ⟨rfl, rfl⟩
  · cases h
    split at h'
    · cases h'
    · cases h'
  · cases h'
    split at h
    · cases h
    · cases h
  · split at h
    · split at h'
      · rw [← h'] at h
        simp only [Option.some.injEq, Slot.entry.injEq, Fin.mk.injEq] at h
        exact ⟨h.1, by omega⟩
      · cases h'
    · cases h

/-- The slots of the entries of an indirect block. -/
def Slot.entries (n : Nat) : List Slot := (List.finRange NINDIRECT).map (.entry n)

theorem Slot.entries_nodup (n : Nat) : (entries n ++ [indirect n]).Nodup := by
  rw [List.nodup_append]
  refine ⟨(List.nodup_finRange _).map fun _ _ e => (Slot.entry.inj e).2, List.nodup_singleton _, ?_⟩
  simp [entries]

namespace Vol

variable {v v' : Vol} {n b : Nat}

/-! ## Names after a change -/

theorem ref_congr (ha : (v'.ino x.inum).addrs = (v.ino x.inum).addrs)
    (hd : v'.data = v.data) : v'.ref x = v.ref x := by
  cases x with
  | addr m i =>
    simp only [Slot.inum] at ha
    simp only [ref, ha]
  | entry m j =>
    simp only [Slot.inum] at ha
    simp only [ref, ha, hd]

theorem ref_setIno_ne (ip : Dinode) (h : x.inum ≠ n) : (v.setIno n ip).ref x = v.ref x :=
  ref_congr (by rw [setIno_ino_ne _ _ h]) rfl

variable {ip : Dinode}

theorem ref_setIno_of_addrs (h : ip.addrs = (v.ino n).addrs) : (v.setIno n ip).ref = v.ref := by
  funext x
  by_cases hx : x.inum = n
  · subst hx
    exact ref_congr (by rw [setIno_ino_same, h]) rfl
  · exact ref_setIno_ne ip hx

theorem ref_setData {d : Block} (h : ∀ n, v.ref (.indirect n) ≠ some b) :
    (v.setData b d).ref = v.ref := by
  funext x
  cases x with
  | addr n i => rfl
  | entry n j =>
    have hsame : (v.setData b d).ref (.indirect n) = v.ref (.indirect n) := rfl
    cases hi : v.ref (.indirect n) with
    | none => rw [ref_entry_none v hi, ref_entry_none _ (hsame.trans hi)]
    | some a =>
      have hab : a ≠ b := fun e => h n (e ▸ hi)
      rw [ref_entry v hi, ref_entry _ (hsame.trans hi), setData_data_ne _ _ hab]

theorem block_congr (h : ∀ x : Slot, x.inum = n → v'.ref x = v.ref x) :
    v'.block n bn = v.block n bn := by
  unfold block
  cases hx : Slot.ofBlock n bn with
  | none => rfl
  | some x => exact h x (Slot.ofBlock_inum hx)

theorem Whole.congr (hv : v.Whole n) (h : ∀ x : Slot, x.inum = n → v'.ref x = v.ref x)
    (hs : (v'.ino n).size = (v.ino n).size) : v'.Whole n := by
  intro bn hbn
  rw [block_congr h]
  exact hv bn (hs ▸ hbn)

theorem block_keep (h : ∀ x c, v.ref x = some c → v'.ref x = some c) {c : Nat}
    (hb : v.block n bn = some c) : v'.block n bn = some c := by
  unfold block at hb ⊢
  obtain ⟨x, hx, hc⟩ := Option.bind_eq_some_iff.mp hb
  rw [hx]
  exact h x c hc

variable {i : Fin (NDIRECT + 1)}

theorem ref_setAddr_direct {a : BitVec 32} {r : Option Nat}
    (hi : i ≠ Fin.last NDIRECT) (ha : blockRef a = r) :
    (v.setIno n ((v.ino n).setAddr i a)).ref = update v.ref (.addr n i) r := by
  funext x
  by_cases hx : x.inum = n
  · cases x with
    | addr m k =>
      obtain rfl : m = n := hx
      by_cases hk : k = i
      · subst hk
        simp [ref, setAddr, ha]
      · simp [ref, setAddr, hk]
    | entry m j =>
      obtain rfl : m = n := hx
      simp [ref, setAddr, Ne.symm hi]
  · rw [ref_setIno_ne _ hx, update_of_ne (fun e => hx (by rw [e]; rfl))]

/-- A new block in an empty address is the only new name, if it is clear. -/
theorem ref_setAddr_new {a : BitVec 32} (hi : (v.ino n).addrs i = 0)
    (ha : blockRef a = some b) (hclear : v.data b = fun _ => 0) :
    (v.setIno n ((v.ino n).setAddr i a)).ref = update v.ref (.addr n i) (some b) := by
  by_cases hlast : i = Fin.last NDIRECT
  · subst hlast
    funext x
    by_cases hx : x.inum = n
    · cases x with
      | addr m k =>
        obtain rfl : m = n := hx
        by_cases hk : k = Fin.last NDIRECT
        · subst hk
          simp [ref, setAddr, ha]
        · simp [ref, setAddr, hk]
      | entry m j =>
        obtain rfl : m = n := hx
        have hnone : v.ref (.entry m j) = none := ref_entry_none v (by simp [ref, hi]) j
        have hsome : (v.setIno m ((v.ino m).setAddr (Fin.last NDIRECT) a)).ref (.indirect m) =
            some b := by simp [ref, setAddr, ha]
        rw [ref_entry _ hsome, update_of_ne (by simp), hnone, setIno_data, hclear,
          Bytes.word32, Bytes.uint_eq_zero 4 _ _ fun k _ => by simp [Bytes.byte]]
        rfl
    · rw [ref_setIno_ne _ hx, update_of_ne (fun e => hx (by rw [e]; rfl))]
  · exact ref_setAddr_direct hlast ha

theorem ref_setEntry (ha : v.ref (.indirect n) = some a)
    (hown : ∀ m, v.ref (.indirect m) = some a → m = n) (j : Fin NINDIRECT) (hb0 : b ≠ 0)
    (hb32 : b < 2 ^ 32) :
    (v.setData a ((v.data a).setUint 4 (4 * j.val) b)).ref =
      update v.ref (.entry n j) (some b) := by
  have hbv : (BitVec.ofNat 32 b).toNat = b := by simpa using Nat.mod_eq_of_lt hb32
  have hj : j.val < BSIZE / 4 := j.isLt
  funext x
  cases x with
  | addr m i => rw [update_of_ne (by simp)]; rfl
  | entry m k =>
    have hsame : (v.setData a ((v.data a).setUint 4 (4 * j.val) b)).ref (.indirect m) =
        v.ref (.indirect m) := rfl
    cases hm : v.ref (.indirect m) with
    | none =>
      have hmn : m ≠ n := fun e => by simp [e, ha] at hm
      rw [ref_entry_none _ (hsame.trans hm), update_of_ne (by simp [hmn]), ref_entry_none v hm]
    | some c =>
      rw [ref_entry _ (hsame.trans hm)]
      by_cases hc : c = a
      · subst hc
        obtain rfl := hown m hm
        rw [setData_data_same]
        by_cases hk : k = j
        · subst hk
          rw [update_self, ← hbv,
            Bytes.word32_setUint_same _ _ (by simp only [BSIZE] at hj ⊢; omega), hbv,
            blockRef_ofNat hb0 hb32]
        · have hkj : k.val ≠ j.val := fun e => hk (Fin.ext e)
          rw [update_of_ne (by simp [hk]), Bytes.word32_setUint_ne _ _ (by omega), ref_entry v hm]
      · have hmn : m ≠ n := fun e => hc (by simpa [e, ha] using hm.symm)
        rw [setData_data_ne _ _ hc, update_of_ne (by simp [hmn]), ref_entry v hm]

theorem ref_clear_indirect :
    (v.setIno n ((v.ino n).setAddr (Fin.last NDIRECT) 0)).ref =
      fun x => if x ∈ Slot.entries n ++ [.indirect n] then none else v.ref x := by
  funext x
  have hnone : (v.setIno n ((v.ino n).setAddr (Fin.last NDIRECT) 0)).ref (.indirect n) = none := by
    simp [ref, setAddr]
  by_cases hx : x.inum = n
  · cases x with
    | addr m k =>
      obtain rfl : m = n := hx
      by_cases hk : k = Fin.last NDIRECT
      · subst hk
        simpa using hnone
      · simp [ref, setAddr, hk, Slot.entries]
    | entry m j =>
      obtain rfl : m = n := hx
      rw [ref_entry_none _ hnone, if_pos (by simp [Slot.entries])]
  · rw [ref_setIno_ne _ hx, if_neg ?_]
    intro hmem
    simp only [Slot.entries, List.mem_append, List.mem_map, List.mem_singleton] at hmem
    rcases hmem with ⟨j, -, rfl⟩ | rfl
    · exact hx rfl
    · exact hx rfl

theorem clear_free (h : ip.type = 0 → ∀ i, ip.addrs i = 0) :
    (ip.setAddr i 0).type = 0 → ∀ k, (ip.setAddr i 0).addrs k = 0 := by
  intro ht k
  by_cases hk : k = i
  · simp [setAddr, hk]
  · simpa [setAddr, hk] using h ht k

/-! ## The invariant -/

/-- The invariant, with the blocks `pend` between two owners and the inode `cur` at work. -/
structure Ok (sb : Superblock) (v : Vol) (cur : Option Nat) (pend : List Nat) : Prop where
  owned : Owned sb.Data v.used v.ref pend
  system : v.System sb
  free : ∀ n, (v.ino n).type = 0 → ∀ i, (v.ino n).addrs i = 0
  whole : ∀ n, cur ≠ some n → v.Whole n

namespace Ok

variable {sb : Superblock} {cur : Option Nat} {pend : List Nat}

theorem work (h : v.Ok sb none pend) (n : Nat) : v.Ok sb (some n) pend :=
  ⟨h.owned, h.system, h.free, fun m _ => h.whole m nofun⟩

theorem done (h : v.Ok sb (some n) pend) (hn : v.Whole n) : v.Ok sb none pend := by
  refine ⟨h.owned, h.system, h.free, fun m _ => ?_⟩
  by_cases hm : m = n
  · exact hm ▸ hn
  · exact h.whole m (by simpa using Ne.symm hm)

section
variable (h : v.Ok sb cur pend)
include h

theorem not_indirect (hb : v.used b = false) (n : Nat) :
    v.ref (.indirect n) ≠ some b := h.owned.ref_ne_of_unused hb _

theorem content (hx : x.Content) (hb : v.ref x = some b) (n : Nat) :
    v.ref (.indirect n) ≠ some b := fun hn => hx n (h.owned.inj hb hn)

theorem setData (hb : ∀ n, v.ref (.indirect n) ≠ some b) (d : Block) :
    (v.setData b d).Ok sb cur pend := by
  have href := ref_setData (d := d) hb
  refine ⟨by rw [href]; exact h.owned, h.system, h.free, fun n hn => ?_⟩
  exact (h.whole n hn).congr (fun x _ => congrFun href x) rfl

theorem alloc (hb : sb.Data b) (hu : v.used b = false) (d : Block) :
    ((v.setUsed b true).setData b d).Ok sb cur (b :: pend) := by
  have h' : (v.setUsed b true).Ok sb cur (b :: pend) := by
    refine ⟨h.owned.alloc hb hu, fun c hc hc' => ?_, h.free, h.whole⟩
    by_cases hcb : c = b
    · simp [setUsed, hcb]
    · simpa [setUsed, hcb] using h.system c hc hc'
  exact h'.setData (h.not_indirect hu) d

end

theorem release (h : v.Ok sb cur (b :: pend)) : (v.setUsed b false).Ok sb cur pend := by
  have hb : sb.Data b := h.owned.dom_pend b (List.mem_cons_self ..)
  refine ⟨h.owned.free, fun c hc hc' => ?_, h.free, h.whole⟩
  have hcb : c ≠ b := fun e => absurd hb.1 (by omega)
  simpa [setUsed, hcb] using h.system c hc hc'

theorem setAddrs (h : v.Ok sb (some n) pend) {ref : Slot → Option Nat} {pend' : List Nat}
    (hfree : ip.type = 0 → ∀ i, ip.addrs i = 0) (href : (v.setIno n ip).ref = ref)
    (howned : Owned sb.Data v.used ref pend') : (v.setIno n ip).Ok sb (some n) pend' := by
  refine ⟨by rw [href]; exact howned, h.system, fun m hm i => ?_, fun m hm => ?_⟩
  · by_cases hmn : m = n
    · subst hmn
      rw [setIno_ino_same] at hm ⊢
      exact hfree hm i
    · rw [setIno_ino_ne _ _ hmn] at hm ⊢
      exact h.free m hm i
  · have hmn : m ≠ n := fun e => hm (by rw [e])
    refine (h.whole m hm).congr (fun x hx => ref_setIno_ne ip (hx ▸ hmn)) ?_
    rw [setIno_ino_ne _ _ hmn]

theorem setMeta (h : v.Ok sb (some n) pend) (ip : Dinode) (ha : ip.addrs = (v.ino n).addrs)
    (hfree : ip.type = 0 → ∀ i, ip.addrs i = 0) : (v.setIno n ip).Ok sb (some n) pend :=
  h.setAddrs hfree (ref_setIno_of_addrs ha) h.owned

theorem attach (h : v.Ok sb (some n) (b :: pend)) (hi : (v.ino n).addrs i = 0)
    (htype : (v.ino n).type ≠ 0) (hb32 : b < 2 ^ 32) (hclear : v.data b = fun _ => 0) :
    (v.setIno n ((v.ino n).setAddr i (BitVec.ofNat 32 b))).Ok sb (some n) pend ∧
      (v.setIno n ((v.ino n).setAddr i (BitVec.ofNat 32 b))).ref =
        update v.ref (.addr n i) (some b) := by
  have hb0 : b ≠ 0 := (h.owned.dom_pend b (List.mem_cons_self ..)).pos
  have href := ref_setAddr_new hi (blockRef_ofNat hb0 hb32) hclear
  exact ⟨h.setAddrs (fun e => absurd e htype) href (h.owned.attach (by simp [Vol.ref, hi])), href⟩

theorem attachEntry (h : v.Ok sb (some n) (b :: pend)) (ha : v.ref (.indirect n) = some a)
    {j : Fin NINDIRECT} (hj : v.ref (.entry n j) = none) (hb32 : b < 2 ^ 32) :
    (v.setData a ((v.data a).setUint 4 (4 * j.val) b)).Ok sb (some n) pend ∧
      (v.setData a ((v.data a).setUint 4 (4 * j.val) b)).ref =
        update v.ref (.entry n j) (some b) := by
  have hb0 : b ≠ 0 := (h.owned.dom_pend b (List.mem_cons_self ..)).pos
  have href := ref_setEntry ha (fun m hm => by simpa using h.owned.inj hm ha) j hb0 hb32
  refine ⟨⟨by rw [href]; exact h.owned.attach hj, h.system, h.free, fun m hm => ?_⟩, href⟩
  refine (h.whole m hm).congr (fun x hx => ?_) rfl
  have hne : x ≠ .entry n j := by
    rintro rfl
    exact hm (by rw [← hx]; rfl)
  rw [href, update_of_ne hne]

theorem detach (h : v.Ok sb (some n) pend) (hi : i ≠ Fin.last NDIRECT)
    (hb : v.ref (.addr n i) = some b) :
    (v.setIno n ((v.ino n).setAddr i 0)).Ok sb (some n) (b :: pend) :=
  h.setAddrs (clear_free (h.free n)) (ref_setAddr_direct hi rfl) (h.owned.detach hb)

theorem detachIndirect (h : v.Ok sb (some n) pend) (ha : v.ref (.indirect n) = some a) :
    (v.setIno n ((v.ino n).setAddr (Fin.last NDIRECT) 0)).Ok sb (some n)
      ((Slot.entries n).filterMap v.ref ++ a :: pend) := by
  have howned := h.owned.detachList (Slot.entries n ++ [.indirect n]) (Slot.entries_nodup n)
  simp only [List.filterMap_append, List.filterMap_cons, ha, List.filterMap_nil,
    List.append_assoc, List.singleton_append] at howned
  exact h.setAddrs (clear_free (h.free n)) ref_clear_indirect howned

end Ok

end Vol

end Xv6
