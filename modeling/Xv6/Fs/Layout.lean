import Xv6.Param

/-!
# The on-disk file system format

`kernel/fs.h`: where inodes and bitmap bits lie, and how a `struct dinode` is laid out in its block.
-/

namespace Xv6

abbrev NDIRECT : Nat := 12
/-- Block addresses in an indirect block. -/
abbrev NINDIRECT : Nat := BSIZE / 4
abbrev MAXFILE : Nat := NDIRECT + NINDIRECT
/-- Inodes per block; an inode takes 64 bytes. -/
abbrev IPB : Nat := BSIZE / 64
abbrev BPB : Nat := BSIZE * 8

/-- `struct dinode`. A `short` is kept as its 16-bit pattern. -/
structure Dinode where
  type : BitVec 16
  major : BitVec 16
  minor : BitVec 16
  nlink : BitVec 16
  size : BitVec 32
  addrs : Fin (NDIRECT + 1) → BitVec 32

namespace Dinode

/-- A cleared `struct dinode` of the given type. -/
def fresh (type : BitVec 16) : Dinode where
  type := type
  major := 0
  minor := 0
  nlink := 0
  size := 0
  addrs := fun _ => 0

/-- The inode with `addrs[i]` set to `a`. -/
def setAddr (ip : Dinode) (i : Fin (NDIRECT + 1)) (a : BitVec 32) : Dinode :=
  { ip with addrs := Function.update ip.addrs i a }

def read (d : Block) (k : Nat) : Dinode where
  type := d.word16 (64 * k)
  major := d.word16 (64 * k + 2)
  minor := d.word16 (64 * k + 4)
  nlink := d.word16 (64 * k + 6)
  size := d.word32 (64 * k + 8)
  addrs := fun j => d.word32 (64 * k + 12 + 4 * j.val)

/-- The assignments of `iupdate` to entry `k` of a block of inodes. -/
def write (ip : Dinode) (d : Block) (k : Nat) : Block :=
  let d := d.setUint 2 (64 * k) ip.type.toNat
  let d := d.setUint 2 (64 * k + 2) ip.major.toNat
  let d := d.setUint 2 (64 * k + 4) ip.minor.toNat
  let d := d.setUint 2 (64 * k + 6) ip.nlink.toNat
  let d := d.setUint 4 (64 * k + 8) ip.size.toNat
  d.putWords (64 * k + 12) (List.ofFn ip.addrs)

/-- The assignments of `ialloc` to a free entry. -/
def init (type : BitVec 16) (d : Block) (k : Nat) : Block :=
  (d.zero (64 * k) 64).setUint 2 (64 * k) type.toNat

theorem ext_iff' {a b : Dinode} (h : a.type = b.type) (hma : a.major = b.major)
    (hmi : a.minor = b.minor) (hn : a.nlink = b.nlink) (hs : a.size = b.size)
    (ha : ∀ j, a.addrs j = b.addrs j) : a = b := by
  cases a
  cases b
  simp only [Dinode.mk.injEq]
  exact ⟨h, hma, hmi, hn, hs, funext ha⟩

variable {k : Nat}

theorem read_congr {d e : Block}
    (h : ∀ i, 64 * k ≤ i → i < 64 * k + 64 → d.byte i = e.byte i) : read d k = read e k := by
  have h16 : ∀ o, o + 2 ≤ 64 → d.word16 (64 * k + o) = e.word16 (64 * k + o) := fun o ho =>
    Bytes.word16_congr fun i hi hi' => h i (by omega) (by omega)
  have h32 : ∀ o, o + 4 ≤ 64 → d.word32 (64 * k + o) = e.word32 (64 * k + o) := fun o ho =>
    Bytes.word32_congr fun i hi hi' => h i (by omega) (by omega)
  refine ext_iff' (h16 0 (by omega)) (h16 2 (by omega)) (h16 4 (by omega)) (h16 6 (by omega))
    (h32 8 (by omega)) fun j => ?_
  have hj : j.val < 13 := j.isLt
  have := h32 (12 + 4 * j.val) (by omega)
  simpa only [read, Nat.add_assoc] using this

theorem read_zero (k : Nat) : read (fun _ => 0) k = fresh 0 := by
  have h : ∀ m off, Bytes.uint m (fun _ => 0 : Block) off = 0 := fun m off =>
    Bytes.uint_eq_zero m _ _ fun i _ => by simp [Bytes.byte]
  apply ext_iff'
  all_goals simp only [read, fresh, Bytes.word16, Bytes.word32, h]
  all_goals intros
  all_goals rfl

theorem byte_write_of_out (ip : Dinode) (d : Block) {i : Nat}
    (h : i < 64 * k ∨ 64 * k + 64 ≤ i) : (ip.write d k).byte i = d.byte i := by
  unfold write
  rw [Bytes.byte_putWords_of_out _ _ _ (by simp; omega)]
  repeat rw [Bytes.byte_setUint_of_out _ _ _ _ (by omega)]

theorem read_write_ne (ip : Dinode) (d : Block) {k' : Nat} (h : k' ≠ k) :
    read (ip.write d k) k' = read d k' :=
  read_congr fun i hi hi' => byte_write_of_out ip d (by omega)

theorem read_write_same (ip : Dinode) (d : Block) (hk : k < IPB) : read (ip.write d k) k = ip := by
  have hn : 64 * k + 64 ≤ BSIZE := by
    simp only [IPB, BSIZE] at hk ⊢
    omega
  apply ext_iff'
  all_goals simp only [read, write]
  case h | hma | hmi | hn =>
    simp (disch := omega) only [Bytes.word16_putWords_ne, Bytes.word16_setUint_ne,
      Bytes.word16_setUint_same]
  case hs => simp (disch := omega) only [Bytes.word32_putWords_ne, Bytes.word32_setUint_same]
  case ha =>
    intro j
    rw [Bytes.word32_putWords _ _ _ (by simp; omega) (by simp), List.getElem_ofFn]

theorem read_init_ne (type : BitVec 16) (d : Block) {k' : Nat} (h : k' ≠ k) :
    read (init type d k) k' = read d k' := by
  refine read_congr fun i hi hi' => ?_
  rw [init, Bytes.byte_setUint_of_out _ _ _ _ (by omega), Bytes.byte_zero_out _ (by omega)]

theorem read_init_same (type : BitVec 16) (d : Block) (hk : k < IPB) :
    read (init type d k) k = fresh type := by
  have hn : 64 * k + 64 ≤ BSIZE := by
    simp only [IPB, BSIZE] at hk ⊢
    omega
  have h16 : ∀ o, o + 2 ≤ 64 → (d.zero (64 * k) 64).word16 (64 * k + o) = 0 := by
    intro o ho
    rw [Bytes.word16, Bytes.uint_eq_zero 2 _ _ fun i hi => Bytes.byte_zero_in _ (by omega) (by omega)]
    rfl
  have h32 : ∀ o, o + 4 ≤ 64 → (d.zero (64 * k) 64).word32 (64 * k + o) = 0 := by
    intro o ho
    rw [Bytes.word32, Bytes.uint_eq_zero 4 _ _ fun i hi => Bytes.byte_zero_in _ (by omega) (by omega)]
    rfl
  apply ext_iff'
  all_goals simp only [read, init, fresh]
  case h => exact Bytes.word16_setUint_same _ _ (by omega)
  case hma =>
    rw [Bytes.word16_setUint_ne _ _ (by omega)]
    exact h16 2 (by omega)
  case hmi =>
    rw [Bytes.word16_setUint_ne _ _ (by omega)]
    exact h16 4 (by omega)
  case hn =>
    rw [Bytes.word16_setUint_ne _ _ (by omega)]
    exact h16 6 (by omega)
  case hs =>
    rw [Bytes.word32_setUint_ne _ _ (by omega)]
    exact h32 8 (by omega)
  case ha =>
    intro j
    have hj : j.val < 13 := j.isLt
    rw [Bytes.word32_setUint_ne _ _ (by omega), Nat.add_assoc]
    exact h32 _ (by omega)

end Dinode

/-! ## Where things lie -/

namespace Superblock

variable (sb : Superblock)

def iblock (inum : Nat) : Nat := inum / IPB + sb.inodestart

/-- Block of the free map containing the bit for block `b`. -/
def bblock (b : Nat) : Nat := b / BPB + sb.bmapstart

def datastart : Nat := sb.bmapstart + (sb.size / BPB + 1)

def Data (b : Nat) : Prop := sb.datastart ≤ b ∧ b < sb.size

instance (b : Nat) : Decidable (sb.Data b) := inferInstanceAs (Decidable (_ ∧ _))

/-- The geometry that `mkfs` lays out: inode blocks before the free map, and block numbers that an
`int` can count. -/
structure Wf : Prop where
  inodes : ∀ inum < sb.ninodes, sb.iblock inum < sb.bmapstart
  size : sb.size < 2 ^ 31

end Superblock

end Xv6
