import Xv6.Mkfs.Code
import Xv6.Fs.Proofs.VolOk
import Mathlib.Data.List.GetD

/-!
# Appending to a file

The blocks in use are those below `freeblock`. A file on the image is a list of bytes: it has a block
for each part of the list, and behind the list its last block is clear. `iappend` makes the list
longer, or it stops because the image or the file is full.
-/

namespace Xv6

open Slot (ofBlock ofBlock_content)
open Prog (wp_bind wp_op lift_bind wp_pure)
open Function
open BitVec (ofNat)

namespace Vol

variable {v v' : Vol} {m n : Nat} {bs : List (BitVec 8)} {w : World} {din : Dinode} {F : Prop}
  {fbn : Nat}

structure Holds (v : Vol) (n : Nat) (bs : List (BitVec 8)) : Prop where
  blocks : ∀ bn, v.block n bn ≠ none ↔ bn * BSIZE < bs.length
  bytes : ∀ bn b, v.block n bn = some b → ∀ o < BSIZE,
    (v.data b).byte o = bs.getD (bn * BSIZE + o) 0
  indirect : v.ref (.indirect n) ≠ none ↔ NDIRECT * BSIZE < bs.length

theorem Holds.congr (h : v.Holds n bs) (hblock : ∀ bn, v'.block n bn = v.block n bn)
    (hdata : ∀ bn b, v.block n bn = some b → v'.data b = v.data b)
    (hind : v'.ref (.indirect n) ≠ none ↔ v.ref (.indirect n) ≠ none) : v'.Holds n bs where
  blocks bn := by
    rw [hblock]
    exact h.blocks bn
  bytes bn b hb o ho := by
    rw [hblock] at hb
    rw [hdata bn b hb]
    exact h.bytes bn b hb o ho
  indirect := hind.trans h.indirect

theorem Holds.length_le (h : v.Holds n bs) : bs.length ≤ MAXFILE * BSIZE := by
  by_contra hlong
  exact (h.blocks MAXFILE).mpr (Nat.not_le.mp hlong) rfl

theorem ref_of_fresh {x : Slot} (h : v.ino x.inum = .fresh 0) : v.ref x = none := by
  cases x with
  | addr m i =>
    have h : v.ino m = .fresh 0 := h
    simp [ref, h, Dinode.fresh]
  | entry m j =>
    have h : v.ino m = .fresh 0 := h
    exact ref_entry_none _ (by simp [ref, h, Dinode.fresh]) j

end Vol

variable {b a len : Nat} {L : Superblock} {cur : Option Nat} {din' : Dinode} {w' : World}
  (i : Fin (NDIRECT + 1)) (caller : Caller)

theorem Vol.block_of_update {v v' : Vol} {n k : Nat} {x : Slot} (hx : ofBlock n k = some x)
    (href : ∀ y, y.Content → v'.ref y = update v.ref x (some b) y) (m bn : Nat) :
    v'.block m bn = if m = n ∧ bn = k then some b else v.block m bn := by
  unfold block
  cases hy : ofBlock m bn with
  | none =>
    rw [if_neg]
    · rfl
    · rintro ⟨rfl, rfl⟩
      rw [hx] at hy
      cases hy
  | some y =>
    simp only [Option.bind_some]
    rw [href y (ofBlock_content hy)]
    by_cases hxy : y = x
    · subst hxy
      obtain ⟨hm, hk⟩ := Slot.ofBlock_inj hy hx
      rw [update_self, if_pos ⟨hm, hk⟩]
    · rw [update_of_ne hxy, if_neg]
      rintro ⟨rfl, rfl⟩
      rw [hx] at hy
      exact hxy (Option.some.inj hy).symm

namespace Mkfs

/-- The layout with all the inodes that the inode blocks have room for. -/
def layout : Superblock := { sb with ninodes := ninodeblocks * IPB }

theorem layout_wf : layout.Wf where
  inodes := by
    intro inum h
    have h : inum < 208 := h
    show inum / 16 + 32 < 45
    omega
  size := by decide

theorem layout_data : layout.Data b ↔ nmeta ≤ b ∧ b < FSSIZE := Iff.rfl

/-- The file system on the image, of which the blocks below `freeblock` are in use. -/
def mvol (w : World) : Vol :=
  { vol layout w.img with used := fun b => decide (b < FSSIZE ∧ b < w.freeblock) }

/-- The file system with the copy of inode `n` that `iappend` has. -/
abbrev view (w : World) (n : Nat) (din : Dinode) : Vol := (mvol w).setIno n din

abbrev World.took (w : World) : World := { w with freeblock := w.freeblock + 1 }

/-- What holds of the image once the super block is there. -/
structure Ready (w : World) : Prop where
  len : w.len = FSSIZE
  low : nmeta ≤ w.freeblock
  high : w.freeblock ≤ FSSIZE
  clear : ∀ b, w.freeblock ≤ b → w.img b = fun _ => 0
  super : w.img 1 = superBlock
  writes : ∀ c ∈ w.writes, c.1 = .winode → sb.inodestart ≤ c.2 ∧ c.2 < sb.bmapstart

structure Work (w : World) (n : Nat) (din : Dinode) : Prop where
  ready : Ready w
  ok : (view w n din).Ok layout (some n) []
  type : din.type ≠ 0

theorem Ready.took (h : Ready w) (hfit : w.freeblock < FSSIZE) : Ready w.took where
  len := h.len
  low := h.low.trans (Nat.le_succ _)
  high := hfit
  clear b hb := h.clear b (Nat.le_of_succ_le hb)
  super := h.super
  writes := h.writes

theorem Ready.write_data (h : Ready w) (hb : layout.Data b) (hlt : b < w.freeblock)
    (d : Block) : Ready (w.write .iappend b d) := by
  have hdata := layout_data.mp hb
  refine ⟨?_, h.low, h.high, ?_, ?_, ?_⟩
  · show max w.len (b + 1) = FSSIZE
    rw [h.len]
    omega
  · intro c hc
    have hne : c ≠ b := by
      rintro rfl
      exact absurd hc (Nat.not_le.mpr hlt)
    show update w.img b d c = _
    rw [update_of_ne hne]
    exact h.clear c hc
  · show update w.img b d 1 = _
    rw [update_of_ne]
    · exact h.super
    · have : nmeta = 46 := rfl
      omega
  · intro c hc hcall
    rcases List.mem_cons.mp hc with rfl | hc
    · cases hcall
    · exact h.writes c hc hcall

theorem mvol_write_data (hb : layout.Data b) (d : Block) :
    mvol (w.write caller b d) = (mvol w).setData b d := by
  show ({ vol layout (update w.img b d) with used := _ } : Vol) = _
  rw [vol_setData layout_wf hb]
  rfl

theorem view_write_data (hb : layout.Data b) (d : Block) :
    view (w.write caller b d) n din = (view w n din).setData b d := by
  rw [view, mvol_write_data caller hb]
  rfl

theorem mvol_took (h : w.freeblock < FSSIZE) : mvol w.took = (mvol w).setUsed w.freeblock true := by
  simp only [mvol, Vol.setUsed, Vol.mk.injEq, and_self, and_true]
  funext b
  by_cases hb : b = w.freeblock
  · subst hb
    simp [h]
  · rw [update_of_ne hb]
    have : b < w.freeblock + 1 ↔ b < w.freeblock := by omega
    simp [this]

theorem view_took (h : w.freeblock < FSSIZE) :
    view w.took n din = (view w n din).setUsed w.freeblock true := by
  rw [view, mvol_took h]
  rfl

theorem view_setAddr (a : BitVec 32) :
    view w n (din.setAddr i a) = (view w n din).setIno n (((view w n din).ino n).setAddr i a) := by
  simp [view]

namespace Work

variable (h : Work w n din) {x : Slot}

include h

theorem data_freeblock (hfit : w.freeblock < FSSIZE) : layout.Data w.freeblock :=
  layout_data.mpr ⟨h.ready.low, hfit⟩

theorem clear_freeblock (hfit : w.freeblock < FSSIZE) :
    (view w n din).data w.freeblock = fun _ => 0 := by
  show (vol layout w.img).data _ = _
  rw [vol_data (h.data_freeblock hfit)]
  exact h.ready.clear _ le_rfl

theorem lt_freeblock (hx : (view w n din).ref x = some b) : b < w.freeblock := by
  have hused := h.ok.owned.used_ref hx
  simp only [view, mvol, Vol.setIno_used, decide_eq_true_eq] at hused
  exact hused.2

theorem img_of_ref (hx : (view w n din).ref x = some b) :
    w.img b = (view w n din).data b := (vol_data (h.ok.owned.dom_ref hx)).symm

section
variable (hfit : w.freeblock < FSSIZE)
include hfit

theorem pend : (view w.took n din).Ok layout (some n) [w.freeblock] := by
  have hu : (view w n din).used w.freeblock = false := by simp [view, mvol]
  have hok := h.ok.alloc (h.data_freeblock hfit) hu ((view w n din).data w.freeblock)
  rw [← view_took hfit] at hok
  have hsame : (view w.took n din).setData w.freeblock ((view w n din).data w.freeblock) =
      view w.took n din := by
    simp only [Vol.setData]
    rw [show (view w n din).data = (view w.took n din).data from rfl, update_eq_self]
  rwa [hsame] at hok

theorem alloc {i : Fin (NDIRECT + 1)} (hi : din.addrs i = 0) :
    Work w.took n (din.setAddr i (ofNat 32 w.freeblock)) ∧
      (view w.took n (din.setAddr i (ofNat 32 w.freeblock))).ref =
        update (view w n din).ref (.addr n i) (some w.freeblock) := by
  have hino : (view w.took n din).ino n = din := by simp [view]
  have hb32 : w.freeblock < 2 ^ 32 := hfit.trans (by decide)
  obtain ⟨hok, href⟩ := (h.pend hfit).attach (by rw [hino]; exact hi)
    (by rw [hino]; exact h.type) hb32 (h.clear_freeblock hfit)
  rw [← view_setAddr] at hok href
  exact ⟨⟨h.ready.took hfit, hok, h.type⟩, href⟩

theorem allocEntry (ha : (view w n din).ref (.indirect n) = some a)
    {j : Fin NINDIRECT} (hj : (view w n din).ref (.entry n j) = none) :
    Work (w.took.write .iappend a ((w.img a).setUint 4 (4 * j.val) w.freeblock)) n din ∧
      view (w.took.write .iappend a ((w.img a).setUint 4 (4 * j.val) w.freeblock)) n din =
        (view w.took n din).setData a ((w.img a).setUint 4 (4 * j.val) w.freeblock) ∧
      (view (w.took.write .iappend a ((w.img a).setUint 4 (4 * j.val) w.freeblock)) n din).ref =
        update (view w n din).ref (.entry n j) (some w.freeblock) := by
  have hb32 : w.freeblock < 2 ^ 32 := hfit.trans (by decide)
  have hdata := h.ok.owned.dom_ref ha
  obtain ⟨hok, href⟩ := (h.pend hfit).attachEntry ha hj hb32
  have himg : (view w.took n din).data a = w.img a := (h.img_of_ref ha).symm
  rw [himg, ← view_write_data .iappend hdata] at hok href
  refine ⟨⟨?_, hok, h.type⟩, view_write_data .iappend hdata _, href⟩
  exact (h.ready.took hfit).write_data hdata ((h.lt_freeblock ha).trans (Nat.lt_succ_self _)) _

end

theorem put {bn x : Nat} (hx : (view w n din).block n bn = some x) (d : Block) :
    Work (w.write .iappend x d) n din ∧
      view (w.write .iappend x d) n din = (view w n din).setData x d ∧
      (view (w.write .iappend x d) n din).ref = (view w n din).ref := by
  obtain ⟨s, hs, hsx⟩ := Option.bind_eq_some_iff.mp hx
  have hdata := h.ok.owned.dom_ref hsx
  have hnot := h.ok.content (ofBlock_content hs) hsx
  have hview : view (w.write .iappend x d) n din = (view w n din).setData x d :=
    view_write_data .iappend hdata d
  refine ⟨⟨h.ready.write_data hdata (h.lt_freeblock hsx) d, ?_, h.type⟩, hview, ?_⟩
  · rw [hview]
    exact h.ok.setData hnot d
  · rw [hview, Vol.ref_setData hnot]

end Work

/-! ## The block of a file -/

/-- Execution that may stop where `F` holds. -/
abbrev mkWp (F : Prop) := Prog.execWp MOp.exec fun _ => F

variable {sec : Nat}

@[simp] theorem mkWp_read {Q : Option Block → World → Prop} :
    mkWp F _ (.read sec) Q w ↔ Q (if sec < w.len then some (w.img sec) else none) w := Iff.rfl

variable {Q : Unit → World → Prop}

@[simp] theorem mkWp_write {caller : Caller} {d : Block} :
    mkWp F _ (.write caller sec d) Q w ↔ Q () (w.write caller sec d) := Iff.rfl

@[simp] theorem mkWp_nextInode {Q : Nat → World → Prop} :
    mkWp F _ .nextInode Q w ↔ Q w.freeinode { w with freeinode := w.freeinode + 1 } := Iff.rfl

@[simp] theorem mkWp_nextBlock {Q : Nat → World → Prop} :
    mkWp F _ .nextBlock Q w ↔ Q w.freeblock w.took := Iff.rfl

@[simp] theorem mkWp_freeblock {Q : Nat → World → Prop} :
    mkWp F _ .freeblock Q w ↔ Q w.freeblock w := Iff.rfl

@[simp] theorem mkWp_setFreeblock :
    mkWp F _ (.setFreeblock b) Q w ↔ Q () { w with freeblock := b } := Iff.rfl

theorem wp_assert {p : Prop} [Decidable p] (h : p → Q () w)
    (hF : ¬p → F) : (MProg.assert p).wp (mkWp F) Q w := by
  unfold MProg.assert
  split
  · exact h ‹_›
  · exact hF ‹_›

theorem wp_rsect {Q : Block → World → Prop} (h : sec < w.len → Q (w.img sec) w)
    (hF : w.len ≤ sec → F) : (rsect sec).wp (mkWp F) Q w := by
  simp only [rsect, lift_bind, wp_op, mkWp_read]
  by_cases hsec : sec < w.len
  · rw [if_pos hsec]
    exact h hsec
  · rw [if_neg hsec]
    exact hF (Nat.not_lt.mp hsec)

/-- A block was added to file `n` as its block `fbn`, at most with a new indirect block. -/
structure Added (w : World) (n : Nat) (din : Dinode) (fbn x : Nat) (w' : World) (din' : Dinode) :
    Prop where
  work : Work w' n din'
  block : ∀ m bn, (view w' n din').block m bn =
    if m = n ∧ bn = fbn then some x else (view w n din).block m bn
  data : ∀ m bn b, (view w n din).block m bn = some b →
    (view w' n din').data b = (view w n din).data b
  clear : (view w' n din').data x = fun _ => 0
  indirect : ∀ m, (view w' n din').ref (.indirect m) ≠ none ↔
    (view w n din).ref (.indirect m) ≠ none ∨ m = n ∧ NDIRECT ≤ fbn
  freeblock : w'.freeblock = w.freeblock + 1 +
    if NDIRECT ≤ fbn ∧ (view w n din).ref (.indirect n) = none then 1 else 0
  freeinode : w'.freeinode = w.freeinode
  ino : (mvol w').ino = (mvol w).ino
  rest : din' = { din with addrs := din'.addrs }

theorem ref_addr : (view w n din).ref (.addr n i) = blockRef (din.addrs i) := by
  simp [Vol.ref]

namespace Work

variable (h : Work w n din)

include h

theorem added_direct (hfit : w.freeblock < FSSIZE) (hlt : fbn < NDIRECT)
    (hi : din.addrs ⟨fbn, by omega⟩ = 0) :
    Added w n din fbn w.freeblock w.took (din.setAddr ⟨fbn, by omega⟩ (ofNat 32 w.freeblock)) := by
  obtain ⟨hwork, href⟩ := h.alloc hfit hi
  have hslot : ofBlock n fbn = some (.addr n ⟨fbn, by omega⟩) := by simp [ofBlock, hlt]
  have hind : ∀ m, (view w.took n (din.setAddr ⟨fbn, by omega⟩ (ofNat 32 w.freeblock))).ref
      (.indirect m) = (view w n din).ref (.indirect m) := by
    intro m
    rw [href, update_of_ne]
    rintro heq
    injection heq with _ heq
    exact hlt.ne (congrArg Fin.val heq).symm
  refine ⟨hwork, Vol.block_of_update hslot fun y _ => congrFun href y, fun _ _ _ _ => rfl,
    h.clear_freeblock hfit, ?_, ?_, rfl, rfl, rfl⟩
  · intro m
    rw [hind m]
    have : ¬NDIRECT ≤ fbn := Nat.not_le.mpr hlt
    simp [this]
  · rw [if_neg fun hand => absurd hlt (Nat.not_lt.mpr hand.1)]

theorem added_entry (hfit : w.freeblock < FSSIZE) (hle : NDIRECT ≤ fbn)
    (hj : fbn - NDIRECT < NINDIRECT) (ha : (view w n din).ref (.indirect n) = some a)
    (hnone : (view w n din).ref (.entry n ⟨fbn - NDIRECT, hj⟩) = none) :
    Added w n din fbn w.freeblock
      (w.took.write .iappend a ((w.img a).setUint 4 (4 * (fbn - NDIRECT)) w.freeblock)) din := by
  obtain ⟨hwork, hview, href⟩ := h.allocEntry hfit ha hnone
  have hslot : ofBlock n fbn = some (.entry n ⟨fbn - NDIRECT, hj⟩) := by
    simp [ofBlock, Nat.not_lt.mpr hle, hj]
  have hother : ∀ {m bn b}, (view w n din).block m bn = some b → b ≠ a := by
    rintro m bn b hb rfl
    obtain ⟨y, hy, hyb⟩ := Option.bind_eq_some_iff.mp hb
    exact h.ok.content (ofBlock_content hy) hyb n ha
  refine ⟨hwork, Vol.block_of_update hslot fun y _ => congrFun href y, ?_, ?_, ?_, ?_, rfl, ?_, rfl⟩
  · intro m bn b hb
    rw [hview, Vol.setData_data_ne _ _ (hother hb)]
    rfl
  · have hne : w.freeblock ≠ a := (h.lt_freeblock ha).ne'
    rw [hview, Vol.setData_data_ne _ _ hne]
    exact h.clear_freeblock hfit
  · intro m
    rw [href, update_of_ne (by simp)]
    constructor
    · exact .inl
    · rintro (hm | ⟨rfl, -⟩)
      · exact hm
      · rw [ha]
        nofun
  · rw [if_neg fun hand => by rw [ha] at hand; cases hand.2]
    rfl
  · rw [mvol_write_data _ (h.ok.owned.dom_ref ha)]
    rfl

theorem added_both (hfit : w.freeblock + 1 < FSSIZE) (hle : NDIRECT ≤ fbn)
    (hj : fbn - NDIRECT < NINDIRECT) (hi : din.addrs (Fin.last NDIRECT) = 0) :
    Added w n din fbn (w.freeblock + 1)
      (w.took.took.write .iappend w.freeblock
        ((w.img w.freeblock).setUint 4 (4 * (fbn - NDIRECT)) (w.freeblock + 1)))
      (din.setAddr (Fin.last NDIRECT) (ofNat 32 w.freeblock)) := by
  have hfit0 : w.freeblock < FSSIZE := Nat.lt_of_succ_lt hfit
  obtain ⟨hwork, href⟩ := h.alloc hfit0 hi
  have hnone : (view w n din).ref (.indirect n) = none := by rw [ref_addr, hi]; rfl
  have ha := congrFun href (.indirect n)
  rw [update_self] at ha
  have hentry : (view w.took n (din.setAddr (Fin.last NDIRECT) (ofNat 32 w.freeblock))).ref
      (.entry n ⟨fbn - NDIRECT, hj⟩) = none := by
    rw [href, update_of_ne (by simp), Vol.ref_entry_none _ hnone]
  obtain ⟨hw', hblock, hdata, hclear, hind, hfree, hinum, hino, hrest⟩ :=
    hwork.added_entry hfit hle hj ha hentry
  have hmid : ∀ m bn, (view w.took n
      (din.setAddr (Fin.last NDIRECT) (ofNat 32 w.freeblock))).block m bn =
        (view w n din).block m bn := by
    intro m bn
    unfold Vol.block
    cases hy : ofBlock m bn with
    | none => rfl
    | some y =>
      simp only [Option.bind_some]
      rw [href, update_of_ne (ofBlock_content hy n)]
  refine ⟨hw', ?_, ?_, hclear, ?_, ?_, hinum, hino, hrest⟩
  · intro m bn
    rw [hblock, hmid]
  · intro m bn b hb
    exact hdata m bn b ((hmid m bn).trans hb)
  · intro m
    rw [hind, href]
    by_cases hm : m = n
    · simp [hm, hle]
    · rw [update_of_ne (by simpa using hm)]
  · rw [if_pos ⟨hle, hnone⟩]
    rw [if_neg fun hand => by rw [ha] at hand; cases hand.2] at hfree
    exact hfree

end Work

theorem blockRef_some {a : BitVec 32} (h : a ≠ 0) : blockRef a = some a.toNat := if_neg h

section
variable {Q : Nat × Dinode → World → Prop} (h : Work w n din)
  (hold : ∀ b, (view w n din).block n fbn = some b → Q (b, din) w)
  (hnew : ∀ x w' din', (view w n din).block n fbn = none → Added w n din fbn x w' din' →
    Q (x, din') w')
  (hF : (view w n din).block n fbn = none → FSSIZE < w.freeblock + 1 +
    (if NDIRECT ≤ fbn ∧ (view w n din).ref (.indirect n) = none then 1 else 0) → F)
  (hfull : F → ∀ x w' din', w'.len ≤ x → Q (x, din') w')

include h hold hnew hF hfull

theorem wp_directBlock (hlt : fbn < NDIRECT) :
    (directBlock din ⟨fbn, by omega⟩).wp (mkWp F) Q w := by
  have hblock : (view w n din).block n fbn = blockRef (din.addrs ⟨fbn, by omega⟩) := by
    rw [← ref_addr, Vol.block, ofBlock, dif_pos hlt]
    rfl
  unfold directBlock
  split
  next hi =>
    have hnone : (view w n din).block n fbn = none := by rw [hblock, hi]; rfl
    by_cases hfit : w.freeblock < FSSIZE
    · exact hnew _ _ _ hnone (h.added_direct hfit hlt hi)
    · apply hfull
      · apply hF hnone
        omega
      · rw [h.ready.len]
        exact Nat.not_lt.mp hfit
  next hi => exact hold _ (hblock.trans (blockRef_some hi))

/-- The rest of the indirect branch, once the indirect block has its address. -/
theorem wp_entry (hle : NDIRECT ≤ fbn) (hj : fbn - NDIRECT < NINDIRECT)
    (ha : (view w n din).ref (.indirect n) = some a) :
    (do
      let indirect ← rsect a
      if indirect.word32 (4 * (fbn - NDIRECT)) = 0 then
        let x ← .lift .nextBlock
        wsect .iappend a (indirect.setUint 4 (4 * (fbn - NDIRECT)) x)
        return (x, din)
      else return ((indirect.word32 (4 * (fbn - NDIRECT))).toNat, din) : MProg (Nat × Dinode)).wp
      (mkWp F) Q w := by
  have hdata := layout_data.mp (h.ok.owned.dom_ref ha)
  have hentry : (view w n din).ref (.entry n ⟨fbn - NDIRECT, hj⟩) =
      blockRef ((w.img a).word32 (4 * (fbn - NDIRECT))) := by
    rw [Vol.ref_entry _ ha, h.img_of_ref ha]
  have hblock : (view w n din).block n fbn =
      (view w n din).ref (.entry n ⟨fbn - NDIRECT, hj⟩) := by
    rw [Vol.block, ofBlock, dif_neg (Nat.not_lt.mpr hle), dif_pos hj]
    rfl
  rw [wp_bind]
  apply wp_rsect
  · intro _
    split
    next hzero =>
      have hnone : (view w n din).ref (.entry n ⟨fbn - NDIRECT, hj⟩) = none := by
        rw [hentry, hzero]
        rfl
      by_cases hfit : w.freeblock < FSSIZE
      · exact hnew _ _ _ (hblock.trans hnone) (h.added_entry hfit hle hj ha hnone)
      apply hfull
      · apply hF (hblock.trans hnone)
        omega
      · show max w.len (a + 1) ≤ w.freeblock
        rw [h.ready.len]
        omega
    next hne => exact hold _ (by rw [hblock, hentry, blockRef_some hne])
  · intro hlen
    rw [h.ready.len] at hlen
    omega

theorem wp_fileBlock (hmax : fbn < MAXFILE) :
    (fileBlock din fbn).wp (mkWp F) Q w := by
  unfold fileBlock
  split
  · exact wp_directBlock h hold hnew hF hfull ‹_›
  next hlt =>
    have hle : NDIRECT ≤ fbn := Nat.not_lt.mp hlt
    have hj : fbn - NDIRECT < NINDIRECT := by
      simp only [MAXFILE] at hmax
      omega
    have hblock : (view w n din).block n fbn =
        (view w n din).ref (.entry n ⟨fbn - NDIRECT, hj⟩) := by
      rw [Vol.block, ofBlock, dif_neg hlt, dif_pos hj]
      rfl
    unfold indirectBlock
    rw [wp_bind]
    unfold directBlock
    split
    · -- the file gets its indirect block, which is clear
      rename_i hi
      have hind : (view w n din).ref (.indirect n) = none := by rw [ref_addr, hi]; rfl
      have hnone : (view w n din).block n fbn = none := by rw [hblock, Vol.ref_entry_none _ hind]
      have hnoroom : FSSIZE ≤ w.freeblock + 1 → F := by
        intro hle'
        apply hF hnone
        rw [if_pos ⟨hle, hind⟩]
        omega
      simp only [lift_bind, wp_op, mkWp_nextBlock, Prog.pure_eq, wp_pure]
      by_cases hfit : w.freeblock < FSSIZE
      · obtain ⟨hwork, href⟩ := h.alloc hfit hi
        have ha := congrFun href (.indirect n)
        have hzero : (w.img w.freeblock).word32 (4 * (fbn - NDIRECT)) = 0 := by
          rw [h.ready.clear _ le_rfl, Bytes.word32, Bytes.uint_eq_zero]
          · rfl
          · intro i _
            simp [Bytes.byte]
        rw [wp_bind]
        apply wp_rsect
        · intro _
          rw [if_pos hzero]
          by_cases hfit' : w.freeblock + 1 < FSSIZE
          · exact hnew _ _ _ hnone (h.added_both hfit' hle hj hi)
          · apply hfull (hnoroom (Nat.not_lt.mp hfit'))
            show max w.len (w.freeblock + 1) ≤ w.freeblock + 1
            rw [h.ready.len]
            omega
        · intro hlen
          exact absurd (h.ready.len ▸ hlen : FSSIZE ≤ w.freeblock) (Nat.not_le.mpr hfit)
      · rw [wp_bind]
        apply wp_rsect
        · intro hlen
          exact absurd (h.ready.len ▸ hlen : w.freeblock < FSSIZE) hfit
        · intro _
          exact hnoroom (by omega)
    next hi =>
      have ha : (view w n din).ref (.indirect n) = some (din.addrs (Fin.last NDIRECT)).toNat := by
        rw [ref_addr, blockRef_some hi]
      exact wp_entry h hold hnew hF hfull hle hj ha

end

/-! ## The loop -/

end Mkfs

namespace Vol

variable {v v' : Vol} {bn x : Nat} {l : List (BitVec 8)}

theorem Ok.block_inj {pend : List Nat} (h : v.Ok L cur pend)
    (hm : v.block m bn = some x) (hn : v.block n fbn = some x) : m = n ∧ bn = fbn := by
  obtain ⟨y, hy, hyx⟩ := Option.bind_eq_some_iff.mp hm
  obtain ⟨z, hz, hzx⟩ := Option.bind_eq_some_iff.mp hn
  have hyz := h.owned.inj hyx hzx
  subst hyz
  exact Slot.ofBlock_inj hy hz

/-- File `n` consists of the bytes `bs`, and it has the block `x` for what comes behind them. -/
structure Room (v : Vol) (n fbn x : Nat) (bs : List (BitVec 8)) : Prop where
  block : v.block n fbn = some x
  blocks : ∀ bn, v.block n bn ≠ none ↔ bn * BSIZE < bs.length ∨ bn = fbn
  bytes : ∀ bn b, v.block n bn = some b → ∀ o < BSIZE,
    (v.data b).byte o = bs.getD (bn * BSIZE + o) 0
  indirect : v.ref (.indirect n) ≠ none ↔ NDIRECT * BSIZE < bs.length ∨ NDIRECT ≤ fbn

theorem Holds.room (h : v.Holds n bs) (hx : v.block n fbn = some x) : v.Room n fbn x bs := by
  have hlt := (h.blocks fbn).mp (by rw [hx]; nofun)
  refine ⟨hx, fun bn => ?_, h.bytes, ?_⟩
  · rw [h.blocks]
    constructor
    · exact .inl
    · rintro (hbn | rfl)
      · exact hbn
      · exact hlt
  · rw [h.indirect]
    constructor
    · exact .inl
    · rintro (hbn | hbn)
      · exact hbn
      · exact (Nat.mul_le_mul_right BSIZE hbn).trans_lt hlt

theorem Room.write {pend : List Nat} (h : v.Room n fbn x bs)
    (hok : v.Ok L cur pend) (hfbn : fbn = bs.length / BSIZE) (hpos : 0 < l.length)
    (hlen : bs.length + l.length ≤ (fbn + 1) * BSIZE) (hblock : ∀ bn, v'.block n bn = v.block n bn)
    (hdata : v'.data = update v.data x ((v.data x).blit (bs.length - fbn * BSIZE) l))
    (hind : v'.ref (.indirect n) = v.ref (.indirect n)) : v'.Holds n (bs ++ l) := by
  have hlo : fbn * BSIZE ≤ bs.length := hfbn ▸ Nat.div_mul_le_self _ _
  refine ⟨fun bn => ?_, fun bn b hb o ho => ?_, ?_⟩
  · rw [hblock, h.blocks, List.length_append]
    simp only [BSIZE] at *
    omega
  · rw [hblock] at hb
    rw [hdata]
    by_cases hbn : bn = fbn
    · subst hbn
      rw [h.block] at hb
      cases hb
      rw [update_self, Bytes.byte_blit _ _ _ ho]
      split
      next hin =>
        rw [List.getD_append_right _ _ _ _ (by omega)]
        congr 1
        omega
      next hout =>
        rw [h.bytes bn x h.block o ho]
        by_cases hlt : bn * BSIZE + o < bs.length
        · rw [List.getD_append _ _ _ _ hlt]
        · rw [List.getD_eq_default _ _ (by omega), List.getD_eq_default]
          rw [List.length_append]
          omega
    · have hne : b ≠ x := by
        rintro rfl
        exact hbn (hok.block_inj hb h.block).2
      rw [update_of_ne hne, h.bytes bn b hb o ho]
      have hlt : bn * BSIZE < bs.length := by
        rcases (h.blocks bn).mp (by rw [hb]; nofun) with hlt | heq
        · exact hlt
        · exact absurd heq hbn
      -- a whole block of the file is before the new bytes
      have hwhole : bn * BSIZE + o < bs.length := by
        have hle : bn ≤ fbn := hfbn ▸ (Nat.le_div_iff_mul_le (by decide)).mpr hlt.le
        have hnext : (bn + 1) * BSIZE ≤ fbn * BSIZE :=
          Nat.mul_le_mul_right _ (Nat.lt_of_le_of_ne hle hbn)
        rw [Nat.succ_mul] at hnext
        exact ((Nat.add_lt_add_left ho _).trans_le hnext).trans_le hlo
      rw [List.getD_append _ _ _ _ hwhole]
  · rw [hind, h.indirect, List.length_append]
    simp only [NDIRECT, BSIZE] at *
    omega

end Vol

namespace Mkfs

/-- The number of blocks of a file of `len` bytes. -/
def need (len : Nat) : Nat := (len + BSIZE - 1) / BSIZE + if NDIRECT * BSIZE < len then 1 else 0

/-- The number of blocks of the inodes below `N`. -/
def cost (c : Nat → List (BitVec 8)) (N : Nat) : Nat :=
  ∑ m ∈ Finset.range N, need (c m).length

theorem cost_update {c : Nat → List (BitVec 8)} {N n : Nat} (hn : n < N) (bs : List (BitVec 8)) :
    cost (update c n bs) N + need (c n).length = cost c N + need bs.length := by
  have hmem : n ∈ Finset.range N := Finset.mem_range.mpr hn
  unfold cost
  rw [← Finset.add_sum_erase _ _ hmem, ← Finset.add_sum_erase (Finset.range N) (fun m => need (c m).length) hmem,
    update_self]
  have hrest : ∑ m ∈ (Finset.range N).erase n, need (update c n bs m).length =
      ∑ m ∈ (Finset.range N).erase n, need (c m).length := by
    apply Finset.sum_congr rfl
    intro m hm
    rw [update_of_ne (Finset.ne_of_mem_erase hm)]
  omega

/-- The files are `c`, and what is in use are their blocks. -/
structure Files (w : World) (n : Nat) (din : Dinode) (c : Nat → List (BitVec 8)) : Prop where
  work : Work w n din
  holds : ∀ m, (view w n din).Holds m (c m)
  count : w.freeblock = nmeta + cost c w.freeinode

/-- The block for what comes next was there, or it has been added. -/
structure Next (w : World) (n : Nat) (din : Dinode) (c : Nat → List (BitVec 8)) (x : Nat) (w' : World)
    (din' : Dinode) : Prop where
  work : Work w' n din'
  room : (view w' n din').Room n ((c n).length / BSIZE) x (c n)
  others : ∀ m, m ≠ n → (view w' n din').Holds m (c m)
  count : ∀ len, (c n).length < len → len ≤ ((c n).length / BSIZE + 1) * BSIZE →
    w'.freeblock + need (c n).length = w.freeblock + need len
  freeinode : w'.freeinode = w.freeinode
  ino : (mvol w').ino = (mvol w).ino
  rest : din' = { din with addrs := din'.addrs }

variable {c : Nat → List (BitVec 8)} {x : Nat}

section
variable (h : Files w n din c)
include h

theorem Files.next_old
    (hx : (view w n din).block n ((c n).length / BSIZE) = some x) : Next w n din c x w din := by
  refine ⟨h.work, (h.holds n).room hx, fun m _ => h.holds m, ?_, rfl, rfl, rfl⟩
  intro len hlt hle
  have hpos := ((h.holds n).blocks _).mp (by rw [hx]; nofun)
  unfold need
  simp only [NDIRECT, BSIZE] at *
  split <;> split <;> omega

theorem Files.need_new
    (hnone : (view w n din).block n ((c n).length / BSIZE) = none)
    (hlt : (c n).length < len) (hle : len ≤ ((c n).length / BSIZE + 1) * BSIZE) :
    1 + (if NDIRECT ≤ (c n).length / BSIZE ∧ (view w n din).ref (.indirect n) = none then 1 else 0) +
      need (c n).length = need len := by
  have hbound : (c n).length ≤ (c n).length / BSIZE * BSIZE := by
    rw [← Nat.not_lt, ← (h.holds n).blocks, not_not]
    exact hnone
  have hno : (view w n din).ref (.indirect n) = none ↔ ¬NDIRECT * BSIZE < (c n).length := by
    rw [← (h.holds n).indirect, not_not]
  simp only [hno]
  unfold need
  simp only [NDIRECT, BSIZE] at *
  split <;> split <;> split <;> omega

theorem Files.next_new
    (hnone : (view w n din).block n ((c n).length / BSIZE) = none)
    (ha : Added w n din ((c n).length / BSIZE) x w' din') : Next w n din c x w' din' := by
  have hbound : (c n).length ≤ (c n).length / BSIZE * BSIZE := by
    rw [← Nat.not_lt, ← (h.holds n).blocks, not_not]
    exact hnone
  have hind := (h.holds n).indirect
  refine ⟨ha.work, ⟨?_, fun bn => ?_, fun bn b hb o ho => ?_, ?_⟩, fun m hm => ?_, ?_, ha.freeinode,
    ha.ino, ha.rest⟩
  · rw [ha.block, if_pos ⟨rfl, rfl⟩]
  · rw [ha.block, ← (h.holds n).blocks]
    by_cases hbn : bn = (c n).length / BSIZE
    · simp [hbn]
    · simp [hbn]
  · rw [ha.block] at hb
    by_cases hbn : bn = (c n).length / BSIZE
    · rw [if_pos ⟨rfl, hbn⟩] at hb
      cases hb
      rw [ha.clear, List.getD_eq_default _ _ (hbound.trans (hbn ▸ Nat.le_add_right _ _))]
      simp [Bytes.byte]
    · rw [if_neg fun hand => hbn hand.2] at hb
      rw [ha.data n bn b hb]
      exact (h.holds n).bytes bn b hb o ho
  · rw [ha.indirect, hind]
    simp
  · apply (h.holds m).congr
    · intro bn
      rw [ha.block, if_neg fun hand => hm hand.1]
    · exact fun bn b hb => ha.data m bn b hb
    · rw [ha.indirect]
      simp [hm]
  · intro len hlt hle
    rw [ha.freeblock, ← h.need_new hnone hlt hle]
    omega

end

theorem need_mono {len' : Nat} (h : len ≤ len') : need len ≤ need len' := by
  unfold need
  have := Nat.div_le_div_right (c := BSIZE) (show len + BSIZE - 1 ≤ len' + BSIZE - 1 by omega)
  split <;> split <;> omega

theorem Next.put (h : Next w n din c x w' din') (hcount : w.freeblock = nmeta + cost c w.freeinode)
    (hn : n < w.freeinode) {l : List (BitVec 8)} (hpos : 0 < l.length)
    (hlen : (c n).length + l.length ≤ ((c n).length / BSIZE + 1) * BSIZE) :
    Files (w'.write .iappend x
        ((w'.img x).blit ((c n).length - (c n).length / BSIZE * BSIZE) l)) n din'
      (update c n (c n ++ l)) := by
  obtain ⟨y, hy, hyx⟩ := Option.bind_eq_some_iff.mp h.room.block
  have himg := h.work.img_of_ref hyx
  obtain ⟨hwork, hview, href⟩ := h.work.put h.room.block
    ((w'.img x).blit ((c n).length - (c n).length / BSIZE * BSIZE) l)
  have hblock : ∀ m bn, (view (w'.write .iappend x
      ((w'.img x).blit ((c n).length - (c n).length / BSIZE * BSIZE) l)) n din').block m bn =
        (view w' n din').block m bn := by
    intro m bn
    unfold Vol.block
    rw [href]
  refine ⟨hwork, fun m => ?_, ?_⟩
  · by_cases hm : m = n
    · subst hm
      rw [update_self]
      apply h.room.write h.work.ok rfl hpos hlen (hblock m)
      · rw [hview, himg]
        rfl
      · rw [href]
    · rw [update_of_ne hm]
      apply (h.others m hm).congr (hblock m)
      · intro bn b hb
        rw [hview, Vol.setData_data_ne]
        rintro rfl
        exact hm (h.work.ok.block_inj hb h.room.block).1
      · rw [href]
  · have hmore := h.count ((c n).length + l.length) (by omega) hlen
    have hcost := cost_update (c := c) hn (c n ++ l)
    rw [List.length_append] at hcost
    show w'.freeblock = nmeta + cost _ w'.freeinode
    rw [h.freeinode]
    omega

theorem wp_iappendLoop (fuel : Nat) :
    ∀ (p : List (BitVec 8)) (w : World) (din : Dinode) (c : Nat → List (BitVec 8)),
      p.length ≤ fuel → Files w n din c → n < w.freeinode →
      (MAXFILE * BSIZE < (c n ++ p).length → F) →
      (FSSIZE < nmeta + cost (update c n (c n ++ p)) w.freeinode → F) →
      ∀ Q : Dinode × Nat → World → Prop,
      (∀ w' din', Files w' n din' (update c n (c n ++ p)) → w'.freeinode = w.freeinode →
        (mvol w').ino = (mvol w).ino → din' = { din with addrs := din'.addrs } →
        Q (din', (c n ++ p).length) w') →
      (iappendLoop fuel din p (c n).length).wp (mkWp F) Q w := by
  induction fuel with
  | zero =>
    intro p w din c hfuel h hn hmax hF Q hQ
    rw [List.length_eq_zero_iff.mp (Nat.le_zero.mp hfuel), List.append_nil] at hQ
    exact hQ w din (by rwa [update_eq_self]) rfl rfl rfl
  | succ fuel ih =>
    intro p w din c hfuel h hn hmax hF Q hQ
    unfold iappendLoop
    split
    next hpos =>
      have hdiv := Nat.div_mul_le_self (c n).length BSIZE
      have hlast : (c n).length < ((c n).length / BSIZE + 1) * BSIZE := by
        rw [Nat.mul_comm]
        exact Nat.lt_mul_div_succ _ (by decide)
      -- the bytes of this turn and those that are left
      set n1 := min p.length (((c n).length / BSIZE + 1) * BSIZE - (c n).length) with hn1
      have htake : (p.take n1).length = n1 := by
        rw [List.length_take]
        omega
      have hsplit : c n ++ p.take n1 ++ p.drop n1 = c n ++ p := by
        rw [List.append_assoc, List.take_append_drop]
      rw [wp_bind]
      apply wp_assert
      · intro hfbn
        rw [wp_bind]
        have hgo : ∀ x w' din', Next w n din c x w' din' →
            (do
              let buf ← rsect x
              wsect .iappend x (buf.blit ((c n).length - (c n).length / BSIZE * BSIZE) (p.take n1))
              iappendLoop fuel din' (p.drop n1) ((c n).length + n1)).wp (mkWp F) Q w' := by
          intro x w' din' hnext
          obtain ⟨y, hy, hyx⟩ := Option.bind_eq_some_iff.mp hnext.room.block
          have hdata := layout_data.mp (hnext.work.ok.owned.dom_ref hyx)
          rw [wp_bind]
          apply wp_rsect
          · intro _
            have hfiles := hnext.put h.count hn (l := p.take n1) (by omega) (by omega)
            have hlen : (c n).length + n1 =
                (update c n (c n ++ p.take n1) n).length := by
              rw [update_self, List.length_append, htake]
            rw [hlen]
            have hfinal : update (update c n (c n ++ p.take n1)) n
                (update c n (c n ++ p.take n1) n ++ p.drop n1) = update c n (c n ++ p) := by
              rw [update_self, update_idem, hsplit]
            have hbytes : update c n (c n ++ p.take n1) n ++ p.drop n1 = c n ++ p := by
              rw [update_self, hsplit]
            apply ih (p.drop n1) _ din' _ _ hfiles
            · show n < w'.freeinode
              rwa [hnext.freeinode]
            · rwa [hbytes]
            · show FSSIZE < nmeta + cost _ w'.freeinode → F
              rwa [hfinal, hnext.freeinode]
            · intro w'' din'' hf hinum hino hrest
              rw [hfinal] at hf
              rw [hbytes]
              apply hQ w'' din'' hf (hinum.trans hnext.freeinode)
              · rw [hino, mvol_write_data _ (hnext.work.ok.owned.dom_ref hyx)]
                exact hnext.ino
              · rw [hrest, hnext.rest]
            · rw [List.length_drop]
              omega
          · intro hlen
            rw [hnext.work.ready.len] at hlen
            omega
        refine wp_fileBlock h.work ?_ ?_ ?_ ?_ hfbn
        · intro b hb
          exact hgo b w din (h.next_old hb)
        · intro x w' din' hnone ha
          exact hgo x w' din' (h.next_new hnone ha)
        · intro hnone hroom
          apply hF
          have hmore := h.need_new hnone (Nat.lt_succ_self _) hlast
          have hcost := cost_update (c := c) hn (c n ++ p)
          have hmono := need_mono (show (c n).length + 1 ≤ (c n ++ p).length by
            rw [List.length_append]
            omega)
          have hcount := h.count
          simp only [Nat.succ_eq_add_one] at hmore
          omega
        · intro hf x w' din' hlen
          rw [wp_bind]
          apply wp_rsect
          · intro hlt
            exact absurd hlen (Nat.not_le.mpr hlt)
          · intro _
            exact hf
      · intro hfbn
        apply hmax
        have : MAXFILE * BSIZE ≤ (c n).length :=
          (Nat.mul_le_mul_right _ (Nat.not_lt.mp hfbn)).trans hdiv
        rw [List.length_append]
        omega
    next hpos =>
      rw [List.length_eq_zero_iff.mp (Nat.eq_zero_of_not_pos hpos), List.append_nil] at hQ
      exact hQ w din (by rwa [update_eq_self]) rfl rfl rfl

end Mkfs

end Xv6
