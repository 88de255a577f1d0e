import Xv6.Vm.Proofs.Arguments

/-!
# What `exec` loads

The program headers and the segments of a file, at the 64-bit offsets that are in it. `exec` narrows the
offsets to 32 bits; a file whose offsets are that small is loaded as it says.
-/

namespace Xv6.Vm

open BitVec (ofNat toNat_ofNat ofNat_add)

variable {T O : Multiset Nat} {w w' : KWorld} {t : PageTable} {sz trampoline tf k : Nat}
  {L : List Proghdr}
variable {file : List (BitVec 8)}

theorem readBytes_full {o n : Nat} (hn : 0 < n) (ho : o < 2 ^ 32) (hn' : n < 2 ^ 32)
    (h : (readBytes file (ofNat 32 o) (ofNat 32 n)).length = n) :
    readBytes file (ofNat 32 o) (ofNat 32 n) = (file.drop o).take n ∧ o + n ≤ file.length := by
  have hto : (ofNat 32 o).toNat = o := by rw [toNat_ofNat, Nat.mod_eq_of_lt ho]
  have htn : (ofNat 32 n).toNat = n := by rw [toNat_ofNat, Nat.mod_eq_of_lt hn']
  rw [readBytes, hto, htn] at h ⊢
  split_ifs at h ⊢ with hbad
  · rw [List.length_nil] at h
    omega
  · rw [List.length_take, List.length_drop] at h
    exact ⟨rfl, by omega⟩

variable {ph : Proghdr}

theorem chunk_eq (hph : 0 < ph.filesz → ph.off + ph.filesz ≤ 2 ^ 32) (hk : k < pages ph.filesz)
    (hlen : (ph.chunk file k).length = min PGSIZE (ph.filesz - k * PGSIZE)) :
    ph.chunk file k = (file.drop (ph.off + k * PGSIZE)).take (min PGSIZE (ph.filesz - k * PGSIZE)) ∧
      ph.off + k * PGSIZE + min PGSIZE (ph.filesz - k * PGSIZE) ≤ file.length := by
  have hk' : k * PGSIZE < ph.filesz := by
    have : k < (ph.filesz + 4096 - 1) / 4096 := hk
    show k * 4096 < ph.filesz
    omega
  have hmin : min PGSIZE (ph.filesz - k * PGSIZE) ≤ PGSIZE := Nat.min_le_left ..
  have hpos : 0 < min PGSIZE (ph.filesz - k * PGSIZE) :=
    Nat.lt_min.mpr ⟨by decide, Nat.sub_pos_of_lt hk'⟩
  rw [Proghdr.chunk, chunk, ← ofNat_add] at hlen ⊢
  have hph := hph (Nat.zero_lt_of_lt hk')
  exact readBytes_full hpos (by omega) (lt_of_le_of_lt hmin (by decide)) hlen

theorem Holds.byte (h : Holds file w t sz L) (hpw : L.Pairwise Proghdr.Apart)
    (hmem : ph ∈ L) (hph : 0 < ph.filesz → ph.off + ph.filesz ≤ 2 ^ 32) (hk : k < ph.memsz) :
    userByte w t (ph.vaddr + k) = if k < ph.filesz then file.getD (ph.off + k) 0 else 0 := by
  obtain ⟨hva, hfile, -⟩ := h.fits ph hmem
  have hdiv : (ph.vaddr + k) / PGSIZE = ph.vaddr / PGSIZE + k / PGSIZE := by
    have hva : ph.vaddr % 4096 = 0 := hva
    show (ph.vaddr + k) / 4096 = ph.vaddr / 4096 + k / 4096
    omega
  have hmod : (ph.vaddr + k) % PGSIZE = k % PGSIZE := by
    have hva : ph.vaddr % 4096 = 0 := hva
    show (ph.vaddr + k) % 4096 = k % 4096
    omega
  have hhas : ph.Has (ph.vaddr / PGSIZE + k / PGSIZE) :=
    ⟨Nat.le_add_right .., hdiv ▸ page_lt (Nat.add_lt_add_left hk _)⟩
  have hlt : k % PGSIZE < PGSIZE := Nat.mod_lt _ (by decide)
  rw [userByte, hdiv, hmod, h.page hpw ph hmem _ hhas, Nat.add_sub_cancel_left,
    Bytes.byte_blit _ _ _ hlt]
  have hzero : (fillPage 0).byte (k % PGSIZE) = 0 := by
    rw [Bytes.byte, dif_pos hlt]
    rfl
  by_cases hkf : k < ph.filesz
  · -- a byte of the file
    have hpage : k / PGSIZE < pages ph.filesz := page_lt hkf
    have hlen := h.read ph hmem _ hpage
    have hin : k % PGSIZE < min PGSIZE (ph.filesz - k / PGSIZE * PGSIZE) := by
      refine Nat.lt_min.mpr ⟨hlt, ?_⟩
      show k % 4096 < ph.filesz - k / 4096 * 4096
      omega
    rw [if_pos hpage, if_pos hkf, hlen, if_pos ⟨Nat.zero_le _, by rw [Nat.zero_add]; exact hin⟩,
      (chunk_eq hph hpage hlen).1, Nat.sub_zero, List.getD_eq_getElem?_getD, List.getElem?_take,
      if_pos hin, List.getElem?_drop, ← List.getD_eq_getElem?_getD]
    refine congrArg (fun a => file.getD a 0) ?_
    rw [Nat.add_assoc]
    exact congrArg _ (Nat.div_add_mod' k PGSIZE)
  · -- behind it
    rw [if_neg hkf, hzero]
    refine ite_eq_right_iff.mpr fun hin => ?_
    by_cases hpage : k / PGSIZE < pages ph.filesz
    · rw [if_pos hpage, h.read ph hmem _ hpage] at hin
      have hle : min PGSIZE (ph.filesz - k / PGSIZE * PGSIZE) ≤ ph.filesz - k / PGSIZE * PGSIZE :=
        Nat.min_le_right ..
      have hno : ¬ k % 4096 < ph.filesz - k / 4096 * 4096 := by omega
      exact absurd (lt_of_lt_of_le (by simpa using hin.2) hle) hno
    · rw [if_neg hpage] at hin
      exact absurd hin.2 (Nat.not_lt_zero _)

theorem Holds.inside (h : Holds file w t sz L) (hmem : ph ∈ L)
    (hph : 0 < ph.filesz → ph.off + ph.filesz ≤ 2 ^ 32) (hpos : 0 < ph.filesz) :
    ph.off + ph.filesz ≤ file.length := by
  have hpages : 0 < (ph.filesz + 4096 - 1) / 4096 := by omega
  have hk : pages ph.filesz - 1 < pages ph.filesz := Nat.sub_one_lt (Nat.pos_iff_ne_zero.mp hpages)
  have hend := (chunk_eq hph hk (h.read ph hmem _ hk)).2
  have hlast : (pages ph.filesz - 1) * PGSIZE + min PGSIZE (ph.filesz - (pages ph.filesz - 1) * PGSIZE) =
      ph.filesz := by
    show ((ph.filesz + 4096 - 1) / 4096 - 1) * 4096 +
      min 4096 (ph.filesz - ((ph.filesz + 4096 - 1) / 4096 - 1) * 4096) = ph.filesz
    omega
  rw [Nat.add_assoc, hlast] at hend
  exact hend

end Xv6.Vm
