import Xv6.Mkfs.Proofs.Image
import Xv6.Fs.Proofs.Reading

/-!
# The declared layout and holes

Where `mkfs` ends with status 0 its blocks lie in the data area, because a block behind the end of
the image cannot be read back. Nothing guards the inode numbers. The root directory's size is rounded
up after its last block has been allocated.
-/

namespace Xv6.Mkfs

open Prog (wp_execWp forEach wp_bind wp_seq lift_bind wp_op)
open Dir

variable {files : List Input} {w : World} {image : Option Bool} {k : Nat} (i : Nat)

/-! ## Runs -/

theorem opened_of_run (h : (run image files).1 = some ()) : image = some true := by
  cases image with
  | none => cases h
  | some ok =>
    cases ok with
    | false => cases h
    | true => rfl

theorem image_of_run (hfiles : files.length + 2 ≤ layout.ninodes)
    (h : (run image files).1 = some ()) : Image files (run image files).2 := by
  obtain rfl := opened_of_run h
  have hwp : (build files).wp (mkWp True) (fun _ w' => Image files w') .start :=
    wp_build hfiles (fun _ => trivial) (fun _ => trivial) fun _ hw => hw
  rw [wp_execWp] at hwp
  exact hwp.1 () h

structure Fits (files : List Input) : Prop where
  inodes : files.length + 2 ≤ NINODES
  good : ∀ f ∈ files, f.Good
  blocks : nmeta + need (16 * (files.length + 2)) + (files.map fun f => need f.bytes.length).sum ≤
    FSSIZE

/-! ## What the inodes hold -/

variable (fs : List Input)

theorem addAll_of_lt : ∀ (c : Nat → List (BitVec 8)) {n m : Nat}, m < n →
    m ≠ ROOTINO → addAll c n fs m = c m := by
  induction fs with
  | nil => exact fun _ _ _ _ _ => rfl
  | cons f fs ih =>
    intro c n m hm hr
    rw [addAll, ih _ (hm.trans (Nat.lt_succ_self n)) hr, addTo_ne hm.ne hr]

theorem addAll_getElem : ∀ (c : Nat → List (BitVec 8)) {n k : Nat}, ROOTINO < n →
    (hk : k < fs.length) → addAll c n fs (n + k) = fs[k].bytes := by
  induction fs with
  | nil => exact fun _ _ _ _ hk => absurd hk (Nat.not_lt_zero _)
  | cons f fs ih =>
    intro c n k hn hk
    rw [addAll]
    cases k with
    | zero => exact (addAll_of_lt fs _ (Nat.lt_succ_self n) hn.ne').trans (addTo_self n f)
    | succ k =>
      rw [List.getElem_cons_succ,
        ← ih (addTo c n f) (hn.trans (Nat.lt_succ_self n)) (Nat.lt_of_succ_lt_succ hk)]
      congr 1
      omega

theorem contents_file (hk : k < files.length) : contents files (k + 2) = files[k].bytes := by
  rw [Nat.add_comm]
  exact addAll_getElem files dots (by decide) hk

theorem contents_zero : contents files 0 = [] := by
  rw [contents, addAll_of_lt _ _ (by decide) (by decide)]
  rfl

theorem length_addAll_root : ∀ (c : Nat → List (BitVec 8)) {n : Nat}, ROOTINO < n →
    (addAll c n fs ROOTINO).length = (c ROOTINO).length + 16 * fs.length := by
  induction fs with
  | nil => exact fun _ _ _ => rfl
  | cons f fs ih =>
    intro c n hn
    rw [addAll, ih _ (hn.trans (Nat.lt_succ_self n)), addTo_root hn, List.length_append,
      length_dirent, List.length_cons]
    omega

theorem length_contents_root : (contents files ROOTINO).length = 16 * (files.length + 2) := by
  have hdots : (dots ROOTINO).length = 32 := by
    rw [dots, Function.update_self, List.length_append, length_dirent, length_dirent]
  rw [contents, length_addAll_root _ _ (by decide), hdots]
  omega

theorem cost_contents : cost (contents files) (files.length + 2) =
    need (16 * (files.length + 2)) + (files.map fun f => need f.bytes.length).sum := by
  have hrest : ∑ k ∈ Finset.range files.length, need (contents files (k + 2)).length =
      (files.map fun f => need f.bytes.length).sum := by
    rw [Finset.sum_range, ← Fin.sum_univ_fun_getElem]
    apply Finset.sum_congr rfl
    intro k _
    rw [contents_file k.isLt]
  have hzero : need 0 = 0 := by decide
  rw [cost, Finset.sum_range_succ', Finset.sum_range_succ', contents_zero, List.length_nil, hzero,
    hrest, show (0 + 1 : Nat) = ROOTINO from rfl, length_contents_root]
  omega

theorem run_of_room (hfiles : files.length + 2 ≤ layout.ninodes) (hgood : ∀ f ∈ files, f.Good)
    (hblocks : nmeta + need (16 * (files.length + 2)) +
      (files.map fun f => need f.bytes.length).sum ≤ FSSIZE) :
    (run (some true) files).1 = some () := by
  have hwp : (build files).wp (mkWp False) (fun _ _ => True) .start := by
    apply wp_build hfiles
    · rintro ⟨f, hf, hnot⟩
      exact hnot (hgood f hf)
    · intro hfull
      rw [cost_contents, ← Nat.add_assoc] at hfull
      exact absurd hblocks (Nat.not_le.mpr hfull)
    · exact fun _ _ => trivial
  rw [wp_execWp] at hwp
  cases hrun : (run (some true) files).1 with
  | none => exact (hwp.2 hrun).elim
  | some u => rfl

theorem Fits.run (h : Fits files) : (run (some true) files).1 = some () :=
  run_of_room (h.inodes.trans (by decide)) h.good h.blocks

/-! ## The kernel's view -/

variable {n : Nat} {s : Store}

theorem vol_sb_ino (hn : n < NINODES) : (vol sb s).ino n = (vol layout s).ino n := by
  have hl : n < layout.ninodes := hn.trans (by decide)
  rw [vol_ino hl]
  exact vol_ino hn

theorem vol_sb_ref {x : Slot} (hx : x.inum < NINODES) : (vol sb s).ref x = (vol layout s).ref x :=
  Vol.ref_congr (by rw [vol_sb_ino hx]) rfl

theorem vol_sb_block (hn : n < NINODES) (bn : Nat) :
    (vol sb s).block n bn = (vol layout s).block n bn :=
  Vol.block_congr fun _ hx => vol_sb_ref (hx ▸ hn)

theorem vol_sb_ino_of_le (hn : NINODES ≤ n) : (vol sb s).ino n = .fresh 0 :=
  if_neg (Nat.not_lt.mpr hn)

theorem notMem_letters {c : BitVec 8} (hc : c ≠ 0x66)
    (hne : ∀ k : Fin 64, c ≠ BitVec.ofNat 8 (0x30 + k.val)) :
    c ∉ [0x66, BitVec.ofNat 8 (0x30 + i / 64 % 64), BitVec.ofNat 8 (0x30 + i % 64)] := by
  simp only [List.mem_cons, List.not_mem_nil, or_false]
  rintro (h | h | h)
  · exact hc h
  · exact hne ⟨i / 64 % 64, Nat.mod_lt _ (by decide)⟩ h
  · exact hne ⟨i % 64, Nat.mod_lt _ (by decide)⟩ h

/-- An empty file with a name of three letters. -/
def emptyFile (i : Nat) : Input where
  path := [0x66, BitVec.ofNat 8 (0x30 + i / 64 % 64), BitVec.ofNat 8 (0x30 + i % 64)]
  reads := some []
  nul := notMem_letters i (by decide) (by decide)
  chunk := by
    intro cs hcs
    cases hcs
    nofun

theorem emptyFile_good : (emptyFile i).Good where
  slash := by
    have hshort : (emptyFile i).shortname = (emptyFile i).path := by
      rw [Input.shortname, if_neg]
      intro h
      have hlen := congrArg List.length h
      simp [emptyFile, userSlash] at hlen
    rw [hshort]
    exact notMem_letters i (by decide) (by decide)
  opens := nofun
  max := Nat.zero_le _

def emptyFiles (n : Nat) : List Input := (List.range n).map emptyFile

theorem length_emptyFiles (n : Nat) : (emptyFiles n).length = n := by simp [emptyFiles]

theorem emptyFiles_good (n : Nat) : ∀ f ∈ emptyFiles n, f.Good := by
  intro f hf
  obtain ⟨i, -, rfl⟩ := List.mem_map.mp hf
  exact emptyFile_good i

theorem emptyFiles_blocks (n : Nat) : ((emptyFiles n).map fun f => need f.bytes.length).sum = 0 := by
  apply List.sum_eq_zero
  intro k hk
  obtain ⟨f, hf, rfl⟩ := List.mem_map.mp hk
  obtain ⟨i, -, rfl⟩ := List.mem_map.mp hf
  show need 0 = 0
  decide

theorem emptyFiles_room (h : n ≤ 206) : nmeta + need (16 * ((emptyFiles n).length + 2)) +
    ((emptyFiles n).map fun f => need f.bytes.length).sum ≤ FSSIZE := by
  rw [length_emptyFiles, emptyFiles_blocks]
  have hneed : need (16 * (n + 2)) ≤ need (16 * 208) := need_mono (by omega)
  have : need (16 * 208) = 4 := by decide
  show 46 + need (16 * (n + 2)) + 0 ≤ 1000
  omega

namespace Image

variable (h : Image files w)

include h

theorem root_size : ((vol layout w.img).ino ROOTINO).size.toNat =
    (16 * (files.length + 2) / BSIZE + 1) * BSIZE := by
  have hle := (h.holds ROOTINO).length_le
  rw [h.entries] at hle
  rw [h.root.2.2, BitVec.toNat_ofNat, ← h.inum, Nat.mod_eq_of_lt]
  rw [Nat.succ_mul]
  simp only [MAXFILE, NDIRECT, NINDIRECT, BSIZE] at *
  omega

theorem whole_of_ne (hn : n ≠ ROOTINO) : (vol layout w.img).Whole n :=
  h.ok.whole n (by simpa using Ne.symm hn)

theorem whole_root (hmod : (files.length + 2) % 64 ≠ 0) : (vol layout w.img).Whole ROOTINO := by
  intro bn hbn
  rw [h.root_size] at hbn
  rw [(h.holds ROOTINO).blocks, h.entries, h.inum]
  simp only [BSIZE] at *
  omega

/-- The last block of the root directory is missing when its entries fill the one before. -/
theorem hole (hmod : (files.length + 2) % 64 = 0) :
    (vol layout w.img).block ROOTINO ((files.length + 2) / 64) = none := by
  have hblocks := (h.holds ROOTINO).blocks ((files.length + 2) / 64)
  rw [h.entries, h.inum] at hblocks
  by_contra hne
  have := hblocks.mp hne
  simp only [BSIZE] at this
  omega

theorem whole_iff : (∀ n, (vol sb w.img).Whole n) ↔ (files.length + 2) % 64 ≠ 0 := by
  refine ⟨fun hwhole hmod => ?_, fun hmod n bn hbn => ?_⟩
  · refine hwhole ROOTINO ((files.length + 2) / 64) ?_ ((vol_sb_block (by decide) _).trans (h.hole hmod))
    rw [vol_sb_ino (by decide), h.root_size]
    simp only [BSIZE]
    omega
  · by_cases hn : n < NINODES
    · rw [vol_sb_ino hn] at hbn
      rw [vol_sb_block hn]
      by_cases hroot : n = ROOTINO
      · subst hroot
        exact h.whole_root hmod bn hbn
      · exact h.whole_of_ne hroot bn hbn
    · rw [vol_sb_ino_of_le (Nat.not_lt.mp hn)] at hbn
      exact absurd hbn (Nat.not_lt_zero _)

end Image

/-- For files that fit, `mkfs` leaves no hole and no `readi` of the image allocates a block, unless the root
directory has 64 entries or a multiple of that: then there is a hole. -/
theorem mkfs_no_holes (files : List Input) (hfit : Fits files) :
    (run (some true) files).1 = some () ∧
      ((∀ n, (vol sb (run (some true) files).2.img).Whole n ∧
        ∀ sp dst off len, ∃ r, (readi sb ((vol sb (run (some true) files).2.img).ino n) sp dst off
          len).run FOp.outside ⟨(run (some true) files).2.img, none⟩ =
            (some r, ⟨(run (some true) files).2.img, none⟩)) ↔ (files.length + 2) % 64 ≠ 0) := by
  have himg := image_of_run (hfit.inodes.trans (by decide)) hfit.run
  refine ⟨hfit.run, ?_⟩
  generalize (run (some true) files).2 = w at himg ⊢
  rw [← himg.whole_iff]
  refine forall_congr' fun n => ⟨And.left, fun hwhole => ⟨hwhole, fun sp dst off len => ?_⟩⟩
  have hread := wp_readi_outside (w := ⟨w.img, none⟩) hwhole sp dst off len
  rw [wp_execWp] at hread
  generalize Prog.run _ _ _ = res at hread ⊢
  obtain ⟨_ | r, w'⟩ := res
  · exact (hread.2 rfl).elim
  · obtain rfl := hread.1 r rfl
    exact ⟨r, rfl⟩

theorem emptyFiles_fits (h : n ≤ 198) : Fits (emptyFiles n) :=
  ⟨by rw [length_emptyFiles]; exact Nat.add_le_add_right h 2, emptyFiles_good n,
    emptyFiles_room (h.trans (by decide))⟩

theorem mkfs_no_holes_two :
    Fits (emptyFiles 2) ∧ ((emptyFiles 2).length + 2) % 64 ≠ 0 ∧
      (vol sb (run (some true) (emptyFiles 2)).2.img).Whole ROOTINO :=
  have hmod : ((emptyFiles 2).length + 2) % 64 ≠ 0 := by rw [length_emptyFiles]; decide
  ⟨emptyFiles_fits (by decide), hmod,
    ((mkfs_no_holes (emptyFiles 2) (emptyFiles_fits (by decide))).2.mpr hmod ROOTINO).1⟩

/-- The image with 62 input files. -/
def fullRoot : Store := (run (some true) (emptyFiles 62)).2.img

/-- The root directory says that it has 2048 bytes, and it has only one block. A `readi` of the entry
behind the last one, as in `dirlookup`, panics. -/
theorem mkfs_root_hole :
    Fits (emptyFiles 62) ∧ ((vol sb fullRoot).ino ROOTINO).size = 2048 ∧
      (vol sb fullRoot).block ROOTINO 1 = none ∧
      ((readi sb ((vol sb fullRoot).ino ROOTINO) (.kernel fun _ => 0) 0 1024 16).run FOp.outside
        ⟨fullRoot, none⟩).1 = none ∧
      ((readi sb ((vol sb fullRoot).ino ROOTINO) (.kernel fun _ => 0) 0 1024 16).run FOp.outside
        ⟨fullRoot, none⟩).2.msg = some "log_write outside of trans" :=
  ⟨emptyFiles_fits (by decide), by decide +kernel⟩

end Xv6.Mkfs
