import Xv6.Fs.Code
import Xv6.Fs.Volume

/-!
# Running `fs.c` on a disk

One call at a time, the layers below `fs.c` are a disk: `bread` returns what was last put into the
block. This file says what the functions that allocate blocks and inodes do to the volume.
-/

namespace Xv6

open Prog (wp_bind wp_lift wp_op lift_bind wp_pure)

/-- The disk as `fs.c` sees it, and the panic that has stopped the machine. -/
structure FWorld where
  disk : Store
  msg : Option String

abbrev FWorld.put (w : FWorld) (b : Nat) (d : Block) : FWorld :=
  { w with disk := Function.update w.disk b d }

/-- A call of `fs.c` into the layers below. -/
def FOp.exec : ∀ γ, FOp γ → FWorld → Option γ × FWorld
  | _, .bread b, w => (some (w.disk b), w)
  | _, .setData b d, w => (some (), w.put b d)
  | _, .logWrite _, w => (some (), w)
  | _, .brelse _, w => (some (), w)
  | _, .panic msg, w => (none, { w with msg := some msg })

/-- What stops the machine is not a block freed twice. -/
def FWorld.NoDoubleFree (w : FWorld) : Prop := w.msg ≠ some "freeing free block"

/-- Execution that may run out of blocks or inodes, but frees no block twice. -/
abbrev storeWp := Prog.execWp FOp.exec FWorld.NoDoubleFree

section

variable {w : FWorld}

variable {b : Nat} {Q : Unit → FWorld → Prop}

@[simp] theorem storeWp_bread {Q : Block → FWorld → Prop} :
    storeWp _ (.bread b) Q w ↔ Q (w.disk b) w := Iff.rfl

@[simp] theorem storeWp_setData {d : Block} :
    storeWp _ (.setData b d) Q w ↔ Q () (w.put b d) := Iff.rfl

@[simp] theorem storeWp_logWrite : storeWp _ (.logWrite b) Q w ↔ Q () w := Iff.rfl

@[simp] theorem storeWp_brelse : storeWp _ (.brelse b) Q w ↔ Q () w := Iff.rfl

@[simp] theorem storeWp_panic {msg : String} {Q : Empty → FWorld → Prop} :
    storeWp _ (.panic msg) Q w ↔ msg ≠ "freeing free block" := by
  simp [Prog.execWp, FOp.exec, FWorld.NoDoubleFree]

end

variable {sb : Superblock} {w : FWorld} {b n : Nat}

/-! ## Blocks -/

theorem wp_bzero (hsb : sb.Wf) (hb : sb.Data b) {Q : Unit → FWorld → Prop}
    (h : ∀ w', vol sb w'.disk = (vol sb w.disk).setData b (fun _ => 0) → Q () w') :
    (bzero b).wp storeWp Q w := by
  simp only [bzero, lift_bind, wp_op, wp_lift, storeWp_bread, storeWp_setData,
    storeWp_logWrite, storeWp_brelse]
  exact h _ (vol_setData hsb hb _)

/-- Every block below the data area is marked. -/
def Vol.System (sb : Superblock) (v : Vol) : Prop :=
  ∀ b, b < sb.datastart → b < sb.size → v.used b = true

theorem freeBit_eq_some {bi : Nat} {d : Block} {k i : Nat} (h : freeBit sb b d k i = some bi) :
    bi < i + k ∧ b + bi < sb.size ∧ d.testBit bi = false := by
  induction k generalizing i with
  | zero => cases h
  | succ k ih =>
    simp only [freeBit] at h
    split at h
    next hsize =>
      split at h
      · obtain ⟨hlt, hrest⟩ := ih h
        exact ⟨by omega, hrest⟩
      next hbit =>
        obtain rfl : i = bi := by simpa using h
        exact ⟨by omega, hsize, by simpa using hbit⟩
    · cases h

variable {Q : Nat → FWorld → Prop}

section
variable (hsb : sb.Wf) (hsys : (vol sb w.disk).System sb)
  (h : ∀ b w', sb.Data b → (vol sb w.disk).used b = false →
    vol sb w'.disk = ((vol sb w.disk).setUsed b true).setData b (fun _ => 0) → Q b w')
include hsb hsys h

theorem wp_ballocFrom (bs : List Nat) (hbs : ∀ b ∈ bs, b % BPB = 0) :
    (ballocFrom sb bs).wp storeWp Q w := by
  induction bs with
  | nil => simp [ballocFrom]
  | cons b bs ih =>
    simp only [ballocFrom, lift_bind, wp_op, storeWp_bread]
    split
    next bi hfind =>
      obtain ⟨hbi, hsize, hbit⟩ := freeBit_eq_some hfind
      have hb : b % BPB = 0 := hbs b (List.mem_cons_self ..)
      -- the bit that was found is that of block `b + bi`
      have hblk : sb.bblock b = sb.bblock (b + bi) := by
        simp only [Superblock.bblock, BPB, BSIZE] at *
        omega
      have hmod : (b + bi) % BPB = bi := by
        simp only [BPB, BSIZE] at *
        omega
      have hfree : (vol sb w.disk).used (b + bi) = false := by
        rw [vol_used hsize, ← hblk, hmod]
        exact hbit
      have hdata : sb.Data (b + bi) := by
        refine ⟨not_lt.mp fun hlt => ?_, hsize⟩
        simp [hsys _ hlt hsize] at hfree
      have hset : vol sb (Function.update w.disk (sb.bblock b)
          ((w.disk (sb.bblock b)).setBit bi)) = (vol sb w.disk).setUsed (b + bi) true := by
        rw [hblk]
        refine vol_setUsed hsb hsize fun i => ?_
        rw [Bytes.testBit_setBit _ (by simp only [BPB] at hbi; omega), hmod]
        by_cases hi : i = bi
        · simp [hi]
        · simp [hi, Ne.symm hi]
      simp only [wp_op, storeWp_setData, storeWp_logWrite, storeWp_brelse, wp_bind,
        Prog.pure_eq, wp_pure]
      refine wp_bzero hsb hdata fun w' hw' => h _ w' hdata hfree ?_
      rw [hw', hset]
    · exact ih fun c hc => hbs c (List.mem_cons_of_mem _ hc)

theorem wp_balloc : (balloc sb).wp storeWp Q w := by
  refine wp_ballocFrom hsb hsys h _ ?_
  intro b hb
  obtain ⟨k, -, rfl⟩ := List.mem_map.mp hb
  exact Nat.mul_mod_left ..

end

theorem wp_bfree (hsb : sb.Wf) (hb : sb.Data b) (hu : (vol sb w.disk).used b = true)
    {Q : Unit → FWorld → Prop}
    (h : ∀ w', vol sb w'.disk = (vol sb w.disk).setUsed b false → Q () w') :
    (bfree sb b).wp storeWp Q w := by
  have hbit : (w.disk (sb.bblock b)).testBit (b % BPB) = true := by rwa [vol_used hb.2] at hu
  simp only [bfree, lift_bind, wp_op, storeWp_bread, hbit, if_true, storeWp_setData,
    storeWp_logWrite, wp_lift, storeWp_brelse]
  refine h _ (vol_setUsed hsb hb.2 fun i => ?_)
  have hmod : b % BPB / 8 < BSIZE := by
    have : b % BPB < BPB := Nat.mod_lt _ (by decide)
    simp only [BPB, BSIZE] at this ⊢
    omega
  rw [Bytes.testBit_clearBit _ hmod]
  by_cases hi : i = b % BPB
  · simp [hi]
  · simp [hi, Ne.symm hi]

/-! ## Inodes -/

theorem wp_iupdate (hsb : sb.Wf) (hn : n < sb.ninodes) {ip : Dinode} {Q : Unit → FWorld → Prop}
    (h : ∀ w', vol sb w'.disk = (vol sb w.disk).setIno n ip → Q () w') :
    (iupdate sb n ip).wp storeWp Q w := by
  simp only [iupdate, lift_bind, wp_op, wp_lift, storeWp_bread, storeWp_setData,
    storeWp_logWrite, storeWp_brelse]
  exact h _ (vol_setIno hsb hn (Dinode.read_write_same ip _ (Nat.mod_lt _ (by decide)))
    fun k hk => Dinode.read_write_ne ip _ hk)

theorem wp_iread (hn : n < sb.ninodes) {Q : Dinode → FWorld → Prop}
    (h : Q ((vol sb w.disk).ino n) w) : (iread sb n).wp storeWp Q w := by
  simp only [iread, lift_bind, wp_op, storeWp_bread, storeWp_brelse, Prog.pure_eq, wp_pure]
  rwa [vol_ino hn] at h

theorem wp_iallocFrom (hsb : sb.Wf) (type : BitVec 16) (inums : List Nat)
    (hin : ∀ n ∈ inums, 1 ≤ n ∧ n < sb.ninodes)
    (h : ∀ n w', 1 ≤ n → n < sb.ninodes → ((vol sb w.disk).ino n).type = 0 →
      vol sb w'.disk = (vol sb w.disk).setIno n (.fresh type) → Q n w') :
    (iallocFrom sb type inums).wp storeWp Q w := by
  induction inums with
  | nil => simp [iallocFrom]
  | cons n inums ih =>
    obtain ⟨hpos, hn⟩ := hin n (List.mem_cons_self ..)
    simp only [iallocFrom, lift_bind, wp_op, storeWp_bread]
    split
    next htype =>
      refine h n _ hpos hn (by rwa [vol_ino hn]) ?_
      exact vol_setIno hsb hn (Dinode.read_init_same type _ (Nat.mod_lt _ (by decide)))
        fun k hk => Dinode.read_init_ne type _ hk
    · exact ih fun m hm => hin m (List.mem_cons_of_mem _ hm)

theorem wp_ialloc (hsb : sb.Wf) (type : BitVec 16)
    (h : ∀ n w', 1 ≤ n → n < sb.ninodes → ((vol sb w.disk).ino n).type = 0 →
      vol sb w'.disk = (vol sb w.disk).setIno n (.fresh type) → Q n w') :
    (ialloc sb type).wp storeWp Q w := by
  refine wp_iallocFrom hsb type _ (fun n hn => ?_) h
  simp only [List.mem_range'_1] at hn
  omega

end Xv6
