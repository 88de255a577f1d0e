import Xv6.Fs.Layout
import Xv6.Lib.Owners

/-!
# What a disk image stands for

A volume is a disk image seen as the file system sees it: the bitmap, the inodes and the contents of
the data blocks. Each write that `fs.c` makes changes one of the three. The blocks of a file are named
by slots: the addresses in its inode and the entries of its indirect block.
-/

namespace Xv6

open Function

/-- The contents of the blocks, as `bread` finds them. -/
abbrev Store := Nat → Block

structure Vol where
  used : Nat → Bool
  ino : Nat → Dinode
  data : Nat → Block

/-- A place that names a block: address `i` of an inode (the last one is that of the indirect block)
or entry `j` of its indirect block. -/
inductive Slot
  | addr (inum : Nat) (i : Fin (NDIRECT + 1))
  | entry (inum : Nat) (j : Fin NINDIRECT)
  deriving DecidableEq

abbrev Slot.indirect (inum : Nat) : Slot := .addr inum (Fin.last NDIRECT)

def Slot.inum : Slot → Nat
  | .addr n _ => n
  | .entry n _ => n

def Slot.ofBlock (inum bn : Nat) : Option Slot :=
  if h : bn < NDIRECT then some (.addr inum ⟨bn, Nat.lt_succ_of_lt h⟩)
  else if h : bn - NDIRECT < NINDIRECT then some (.entry inum ⟨bn - NDIRECT, h⟩)
  else none

def blockRef (a : BitVec 32) : Option Nat := if a = 0 then none else some a.toNat

@[simp] theorem blockRef_eq_none {a : BitVec 32} : blockRef a = none ↔ a = 0 := by simp [blockRef]

variable {b n c : Nat} {d : Block}

theorem blockRef_eq_some {a : BitVec 32} : blockRef a = some b ↔ a ≠ 0 ∧ a.toNat = b := by
  simp [blockRef]

theorem blockRef_ofNat (h : b ≠ 0) (h' : b < 2 ^ 32) : blockRef (BitVec.ofNat 32 b) = some b := by
  have hb : (BitVec.ofNat 32 b).toNat = b := by simpa using Nat.mod_eq_of_lt h'
  refine blockRef_eq_some.mpr ⟨fun e => h ?_, hb⟩
  rw [← hb, e]
  rfl

namespace Vol

variable (v : Vol)

def ref : Slot → Option Nat
  | .addr n i => blockRef ((v.ino n).addrs i)
  | .entry n j =>
    (blockRef ((v.ino n).addrs (Fin.last NDIRECT))).bind fun a =>
      blockRef ((v.data a).word32 (4 * j.val))

def block (n bn : Nat) : Option Nat := (Slot.ofBlock n bn).bind v.ref

def Whole (n : Nat) : Prop := ∀ bn, bn * BSIZE < (v.ino n).size.toNat → v.block n bn ≠ none

def setIno (n : Nat) (ip : Dinode) : Vol := { v with ino := update v.ino n ip }

/-- The volume with another data block `b`. -/
def setData (b : Nat) (d : Block) : Vol := { v with data := update v.data b d }

/-- The volume with another mark for block `b`. -/
def setUsed (b : Nat) (u : Bool) : Vol := { v with used := update v.used b u }

@[simp] theorem setIno_used (n : Nat) (ip : Dinode) : (v.setIno n ip).used = v.used := rfl
@[simp] theorem setIno_data (n : Nat) (ip : Dinode) : (v.setIno n ip).data = v.data := rfl
@[simp] theorem setData_ino (b : Nat) (d : Block) : (v.setData b d).ino = v.ino := rfl
@[simp] theorem setUsed_data (b : Nat) (u : Bool) : (v.setUsed b u).data = v.data := rfl

@[simp] theorem setIno_ino_same (n : Nat) (ip : Dinode) : (v.setIno n ip).ino n = ip := by
  simp [setIno]

theorem setIno_ino_ne {m : Nat} (ip : Dinode) (h : m ≠ n) : (v.setIno n ip).ino m = v.ino m := by
  simp [setIno, h]

@[simp] theorem setIno_setIno (n : Nat) (ip ip' : Dinode) :
    (v.setIno n ip).setIno n ip' = v.setIno n ip' := by
  simp [setIno]

@[simp] theorem setIno_self (n : Nat) : v.setIno n (v.ino n) = v := by simp [setIno]

@[simp] theorem setData_data_same (b : Nat) (d : Block) : (v.setData b d).data b = d := by
  simp [setData]

theorem setData_data_ne (d : Block) (h : c ≠ b) : (v.setData b d).data c = v.data c := by
  simp [setData, h]

@[simp] theorem setUsed_ref (b : Nat) (u : Bool) : (v.setUsed b u).ref = v.ref := rfl

theorem ref_indirect (n : Nat) :
    v.ref (.indirect n) = blockRef ((v.ino n).addrs (Fin.last NDIRECT)) := rfl

theorem ref_entry {a : Nat} (h : v.ref (.indirect n) = some a) (j : Fin NINDIRECT) :
    v.ref (.entry n j) = blockRef ((v.data a).word32 (4 * j.val)) := by
  rw [ref_indirect] at h
  simp [ref, h]

theorem ref_entry_none (h : v.ref (.indirect n) = none) (j : Fin NINDIRECT) :
    v.ref (.entry n j) = none := by
  rw [ref_indirect] at h
  simp [ref, h]

end Vol

/-! ## The volume of an image -/

variable (sb : Superblock)

def vol (s : Store) : Vol where
  used b := decide (b < sb.size) && (s (sb.bblock b)).testBit (b % BPB)
  ino n := if n < sb.ninodes then Dinode.read (s (sb.iblock n)) (n % IPB) else .fresh 0
  data b := if sb.Data b then s b else fun _ => 0

variable {sb} {s : Store}

theorem vol_data (h : sb.Data b) : (vol sb s).data b = s b := if_pos h

theorem vol_used (h : b < sb.size) : (vol sb s).used b = (s (sb.bblock b)).testBit (b % BPB) := by
  simp [vol, h]

theorem vol_ino (h : n < sb.ninodes) :
    (vol sb s).ino n = Dinode.read (s (sb.iblock n)) (n % IPB) := if_pos h

theorem Superblock.bblock_lt_datastart (h : b < sb.size) : sb.bblock b < sb.datastart := by
  have : b / BPB ≤ sb.size / BPB := Nat.div_le_div_right h.le
  simp only [Superblock.bblock, Superblock.datastart]
  omega

theorem Superblock.Wf.iblock_ne_bblock (hsb : sb.Wf) (h : n < sb.ninodes) (b : Nat) :
    sb.iblock n ≠ sb.bblock b := by
  have := hsb.inodes n h
  exact (this.trans_le (Nat.le_add_left ..)).ne

theorem Superblock.Data.pos (h : sb.Data b) : b ≠ 0 := by
  exact (Nat.lt_of_lt_of_le (Nat.succ_pos _) h.1).ne'

theorem Superblock.Data.ne_bblock (h : sb.Data b) (hc : c < sb.size) : b ≠ sb.bblock c := by
  have := h.1
  have := sb.bblock_lt_datastart hc
  omega

variable (hsb : sb.Wf)
include hsb

theorem Superblock.Data.ne_iblock (h : sb.Data b) (hn : n < sb.ninodes) : b ≠ sb.iblock n := by
  have : sb.bmapstart ≤ b := (Nat.le_add_right ..).trans h.1
  exact (this.trans_lt' (hsb.inodes n hn)).ne'

theorem vol_setData (hb : sb.Data b) (d : Block) :
    vol sb (update s b d) = (vol sb s).setData b d := by
  simp only [vol, Vol.setData, Vol.mk.injEq]
  refine ⟨funext fun c => ?_, funext fun n => ?_, funext fun c => ?_⟩
  · by_cases hc : c < sb.size
    · rw [update_of_ne (hb.ne_bblock hc).symm]
    · simp [hc]
  · split
    next hn => rw [update_of_ne (hb.ne_iblock hsb hn).symm]
    · rfl
  · by_cases hcb : c = b
    · subst hcb
      simp [hb]
    · simp [hcb]

theorem vol_setUsed (hb : b < sb.size) {u : Bool}
    (hd : ∀ i, d.testBit i = if i = b % BPB then u else (s (sb.bblock b)).testBit i) :
    vol sb (update s (sb.bblock b) d) = (vol sb s).setUsed b u := by
  simp only [vol, Vol.setUsed, Vol.mk.injEq]
  refine ⟨funext fun c => ?_, funext fun n => ?_, funext fun c => ?_⟩
  · by_cases hcb : c = b
    · subst hcb
      simp [hb, hd]
    rw [update_of_ne hcb]
    by_cases hblk : sb.bblock c = sb.bblock b
    · have hmod : c % BPB ≠ b % BPB := by
        intro e
        have h₁ : c / BPB = b / BPB := by simpa [Superblock.bblock] using hblk
        exact hcb (by rw [← Nat.div_add_mod c BPB, ← Nat.div_add_mod b BPB, h₁, e])
      rw [hblk, update_self, hd, if_neg hmod]
    · rw [update_of_ne hblk]
  · split
    next hn => rw [update_of_ne (hsb.iblock_ne_bblock hn b)]
    · rfl
  · split
    next hc => rw [update_of_ne (hc.ne_bblock hb)]
    · rfl

theorem vol_setIno (hn : n < sb.ninodes) {ip : Dinode} (hsame : Dinode.read d (n % IPB) = ip)
    (hne : ∀ k, k ≠ n % IPB → Dinode.read d k = Dinode.read (s (sb.iblock n)) k) :
    vol sb (update s (sb.iblock n) d) = (vol sb s).setIno n ip := by
  simp only [vol, Vol.setIno, Vol.mk.injEq]
  refine ⟨funext fun c => ?_, funext fun m => ?_, funext fun c => ?_⟩
  · rw [update_of_ne (hsb.iblock_ne_bblock hn c).symm]
  · by_cases hmn : m = n
    · subst hmn
      simp [hn, hsame]
    rw [update_of_ne hmn]
    split
    · by_cases hblk : sb.iblock m = sb.iblock n
      · have hmod : m % IPB ≠ n % IPB := by
          intro e
          have h₁ : m / IPB = n / IPB := by simpa [Superblock.iblock] using hblk
          exact hmn (by rw [← Nat.div_add_mod m IPB, ← Nat.div_add_mod n IPB, h₁, e])
        rw [hblk, update_self, hne _ hmod]
      · rw [update_of_ne hblk]
    · rfl
  · split
    next hc => rw [update_of_ne (hc.ne_iblock hsb hn)]
    · rfl

end Xv6
