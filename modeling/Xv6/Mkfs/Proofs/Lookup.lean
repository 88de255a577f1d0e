import Xv6.Mkfs.Proofs.Layout
import Xv6.Dir.Disk
import Mathlib.Data.List.TakeWhile

/-!
# The kernel on the image

The kernel finds every input file under its name in the root directory, and reads the bytes that
`mkfs` was given.
-/

namespace Xv6

open BitVec (ofNat toNat_ofNat)
open Prog (lift_bind wp_op execWp wp_bind wp_pure pure_eq)

theorem Vol.Holds.byteAt {v : Vol} {n i : Nat} {bs : List (BitVec 8)} (h : v.Holds n bs)
    (hi : i < bs.length) : v.byteAt n i = some (bs.getD i 0) := by
  have hdiv := Nat.div_add_mod i BSIZE
  rw [Nat.mul_comm] at hdiv
  have hblock := (h.blocks (i / BSIZE)).mpr ((Nat.div_mul_le_self i BSIZE).trans_lt hi)
  obtain ⟨b, hb⟩ := Option.ne_none_iff_exists'.mp hblock
  rw [Vol.byteAt, hb, Option.map_some, h.bytes _ b hb _ (Nat.mod_lt i (by decide)), hdiv]

namespace Mkfs

open Dir

variable {files : List Input} {w : World} {dp : Fin NINODE} {e : Nat × CString} {k n : Nat}
  {name : CString} {s : FsState}

/-! ## Directory entries -/

/-- The entries of the input files, of which the first one has inode `n`. -/
def numbered : Nat → List Input → List (Nat × CString)
  | _, [] => []
  | n, f :: fs => (n, f.name) :: numbered (n + 1) fs

def rootEntries (files : List Input) : List (Nat × CString) :=
  (ROOTINO, dot) :: (ROOTINO, dotdot) :: numbered 2 files

variable (fs : List Input)

theorem length_numbered : ∀ n, (numbered n fs).length = fs.length := by
  induction fs with
  | nil => exact fun _ => rfl
  | cons f fs ih => exact fun n => congrArg Nat.succ (ih (n + 1))

theorem getElem_numbered : ∀ {n k : Nat} (hk : k < fs.length),
    (numbered n fs)[k]? = some (n + k, fs[k].name) := by
  induction fs with
  | nil => exact fun hk => absurd hk (Nat.not_lt_zero _)
  | cons f fs ih =>
    intro n k hk
    cases k with
    | zero => rfl
    | succ k =>
      rw [numbered, List.getElem?_cons_succ, ih (Nat.lt_of_succ_lt_succ hk),
        List.getElem_cons_succ, Nat.add_right_comm, Nat.add_assoc]

theorem addAll_root : ∀ (c : Nat → List (BitVec 8)) {n : Nat}, ROOTINO < n →
    addAll c n fs ROOTINO = c ROOTINO ++ (numbered n fs).flatMap fun e => dirent e.1 e.2 := by
  induction fs with
  | nil =>
    intro c n _
    rw [numbered, List.flatMap_nil, List.append_nil]
    rfl
  | cons f fs ih =>
    intro c n hn
    rw [addAll, ih _ (hn.trans (Nat.lt_succ_self n)), addTo_root hn, numbered, List.flatMap_cons,
      List.append_assoc]

theorem contents_root :
    contents files ROOTINO = (rootEntries files).flatMap fun e => dirent e.1 e.2 := by
  rw [contents, addAll_root _ _ (by decide), rootEntries, List.flatMap_cons, List.flatMap_cons, dots,
    Function.update_self, List.append_assoc]
  rfl

theorem getD_flatMap {α : Type} {f : α → List (BitVec 8)} (hf : ∀ a, (f a).length = 16)
    (l : List α) : ∀ {k i : Nat} {a : α}, l[k]? = some a → i < 16 →
      (l.flatMap f).getD (16 * k + i) 0 = (f a).getD i 0 := by
  induction l with
  | nil =>
    intro k i a ha
    rw [List.getElem?_nil] at ha
    cases ha
  | cons b l ih =>
    intro k i a ha hi
    rw [List.flatMap_cons]
    cases k with
    | zero =>
      cases ha
      rw [List.getD_append _ _ _ _ (by rw [hf]; omega)]
      congr 1
      omega
    | succ k =>
      rw [List.getD_append_right _ _ _ _ (by rw [hf]; omega), hf, ← ih ha hi]
      congr 1
      omega

theorem direntAt_dirent {mem : Nat → BitVec 8} (hnul : 0 ∉ name)
    (hmem : ∀ i < 16, mem i = (dirent n name).getD i 0) :
    direntAt mem = ⟨ofNat 16 n, name.take DIRSIZ⟩ := by
  have hinum : ofNat 16 ((mem 0).toNat + 256 * (mem 1).toNat) = ofNat 16 n := by
    rw [hmem 0 (by decide), hmem 1 (by decide)]
    apply BitVec.eq_of_toNat_eq
    simp only [dirent, List.getD_cons_zero, List.getD_cons_succ, toNat_ofNat]
    omega
  have hbytes : ((List.range DIRSIZ).map fun i => mem (2 + i)) =
      name.take DIRSIZ ++ List.replicate (DIRSIZ - name.length) 0 := by
    apply List.ext_getElem
    · simp only [List.length_map, List.length_range, List.length_append, List.length_take,
        List.length_replicate]
      omega
    · intro i hi _
      rw [List.length_map, List.length_range] at hi
      have hi : i < 14 := hi
      rw [List.getElem_map, List.getElem_range, hmem _ (by omega), dirent, Nat.add_comm 2 i,
        List.getD_cons_succ, List.getD_cons_succ, List.getD_eq_getElem]
  have htake : ∀ b ∈ name.take DIRSIZ, decide (b ≠ 0) = true := by
    intro b hb
    apply decide_eq_true
    rintro rfl
    exact hnul (List.mem_of_mem_take hb)
  rw [direntAt, hinum, hbytes, List.takeWhile_append_of_pos htake]
  congr 1
  cases DIRSIZ - name.length with
  | zero | succ j => exact List.append_nil _

/-! ## Reading -/

namespace Image

variable (h : Image files w)

include h

theorem data {bn b : Nat} (hn : n < NINODES) (hb : (vol sb w.img).block n bn = some b) :
    sb.Data b := by
  rw [vol_sb_block hn] at hb
  obtain ⟨x, -, hx⟩ := Option.bind_eq_some_iff.mp hb
  exact h.ok.owned.dom_ref hx

theorem byteAt {i : Nat} (hn : n < NINODES) (hi : i < (contents files n).length) :
    (vol sb w.img).byteAt n i = some ((contents files n).getD i 0) := by
  rw [Vol.byteAt, vol_sb_block hn]
  exact (h.holds n).byteAt hi

theorem run_readi (hn : n < NINODES) (mem : Nat → BitVec 8) (dst : Nat) (off len : BitVec 32)
    (cnt : Nat) (hoff : off.toNat ≤ ((vol sb w.img).ino n).size.toNat)
    (hover : off.toNat ≤ (off + len).toNat)
    (hcnt : (if ((vol sb w.img).ino n).size.toNat < (off + len).toNat then
      ((vol sb w.img).ino n).size.toNat - off.toNat else len.toNat) = cnt)
    (hin : off.toNat + cnt ≤ (contents files n).length) :
    (readi sb ((vol sb w.img).ino n) (.kernel mem) dst off len).run FOp.outside ⟨w.img, none⟩ =
      (some (cnt, (vol sb w.img).ino n,
        .kernel (putMem mem dst off.toNat cnt ((contents files n).getD · 0))), ⟨w.img, none⟩) := by
  have hwp : (readi sb ((vol sb w.img).ino n) (.kernel mem) dst off len).wp outsideWp
      (fun r w' => r = (cnt, (vol sb w.img).ino n,
        .kernel (putMem mem dst off.toNat cnt ((contents files n).getD · 0))) ∧
          w' = ⟨w.img, none⟩) ⟨w.img, none⟩ := by
    rw [readi, if_neg (by omega)]
    rw [hcnt]
    apply wp_readLoop_bytes (w := ⟨w.img, none⟩) (fun bn b hb => h.data hn hb)
      ((contents files n).getD · 0) cnt mem dst off.toNat 0 cnt (by omega) (Nat.zero_le _)
    · intro i hi
      exact h.byteAt hn (by omega)
    · exact ⟨rfl, rfl⟩
  rw [Prog.wp_execWp] at hwp
  generalize Prog.run _ _ _ = res at hwp ⊢
  obtain ⟨_ | r, w'⟩ := res
  · exact (hwp.2 rfl).elim
  · obtain ⟨rfl, rfl⟩ := hwp.1 r rfl
    rfl

theorem run_readi_file (hk : k < files.length) (hfiles : files.length + 2 ≤ NINODES)
    (mem : Nat → BitVec 8) (dst : Nat) {len : BitVec 32} (hlen : files[k].bytes.length ≤ len.toNat) :
    (readi sb ((vol sb w.img).ino (k + 2)) (.kernel mem) dst 0 len).run FOp.outside ⟨w.img, none⟩ =
      (some (files[k].bytes.length, (vol sb w.img).ino (k + 2),
        .kernel (putMem mem dst 0 files[k].bytes.length (files[k].bytes.getD · 0))),
        ⟨w.img, none⟩) := by
  have hn : k + 2 < NINODES := by omega
  have hino := h.inode (k + 2) (by show 1 < k + 2; omega) (by rw [h.inum]; omega)
  have hmax := (h.holds (k + 2)).length_le
  rw [contents_file hk] at hino hmax
  have hsize : ((vol sb w.img).ino (k + 2)).size.toNat = files[k].bytes.length := by
    rw [vol_sb_ino hn, hino.size, toNat_ofNat, Nat.mod_eq_of_lt (hmax.trans_lt (by decide))]
  have hzero : (0 : BitVec 32) + len = len := BitVec.zero_add len
  have hread := h.run_readi hn mem dst 0 len files[k].bytes.length
    (Nat.zero_le _) (Nat.zero_le _)
    (by
      rw [hzero, hsize]
      split
      · rfl
      · omega)
    (by rw [contents_file hk]; exact Nat.le_of_eq (Nat.zero_add _))
  rw [contents_file hk] at hread
  exact hread

theorem readEntry (he : (rootEntries files)[k]? = some e) (hnul : 0 ∉ e.2) (hdisk : s.disk = w.img)
    (hcopy : (s.inode dp).copy = (vol sb w.img).ino ROOTINO) :
    readEntry sb s dp k = (some (some ⟨ofNat 16 e.1, e.2.take DIRSIZ⟩), s) := by
  have hlen : (rootEntries files).length = files.length + 2 := by
    simp only [rootEntries, List.length_cons, length_numbered]
  have hk : k < files.length + 2 := by
    rw [← hlen]
    exact (List.getElem?_eq_some_iff.mp he).1
  have hentries : (contents files ROOTINO).length = 16 * (files.length + 2) := length_contents_root
  have hmax := (h.holds ROOTINO).length_le
  rw [hentries] at hmax
  have hsize : ((vol sb w.img).ino ROOTINO).size.toNat =
      (16 * (files.length + 2) / BSIZE + 1) * BSIZE := by
    rw [vol_sb_ino (by decide)]
    exact h.root_size
  have hround : 16 * (files.length + 2) ≤ (16 * (files.length + 2) / BSIZE + 1) * BSIZE := by
    have hlt := Nat.lt_mul_div_succ (16 * (files.length + 2)) (show 0 < BSIZE by decide)
    rw [Nat.mul_comm BSIZE] at hlt
    exact hlt.le
  have hoff : (ofNat 32 (16 * k)).toNat = 16 * k := by rw [toNat_ofNat, Nat.mod_eq_of_lt (by omega)]
  have hsum : (ofNat 32 (16 * k) + 16).toNat = 16 * k + 16 := by
    rw [BitVec.toNat_add, hoff]
    show (16 * k + 16) % 2 ^ 32 = _
    rw [Nat.mod_eq_of_lt (by omega)]
  have hread := h.run_readi (show ROOTINO < NINODES by decide) (fun _ => 0) 0
    (ofNat 32 (16 * k)) 16 16 (by rw [hoff, hsize]; omega)
    (by rw [hoff, hsum]; omega) (by rw [hsum, hsize, if_neg (by omega)]; rfl)
    (by rw [hoff, hentries]; omega)
  have hdirent : direntAt (putMem (fun _ => 0) 0 (16 * k) 16
      ((contents files ROOTINO).getD · 0)) = ⟨ofNat 16 e.1, e.2.take DIRSIZ⟩ := by
    apply direntAt_dirent hnul
    intro i hi
    rw [putMem, if_pos (by omega), Nat.sub_zero, contents_root]
    exact getD_flatMap (fun e => length_dirent e.1 e.2) _ he hi
  rw [hoff] at hread
  rw [Dir.readEntry, onFs, hdisk, hcopy, hread]
  simp only [hdirent]
  congr 1
  obtain ⟨disk, inode⟩ := s
  obtain rfl : disk = w.img := hdisk
  have hself : ({ inode dp with copy := (vol sb w.img).ino ROOTINO } : Xv6.Inode) = inode dp := by
    rw [← hcopy]
  simp only [FsState.setInode, hself, Function.update_eq_self]

/-! ## Walking a path -/

theorem wp_dirlookupFrom {j : Nat}
    (he : (rootEntries files)[j]? = some e) (hnul : ∀ e ∈ rootEntries files, 0 ∉ e.2)
    (hinum : ofNat 16 e.1 ≠ 0) (hsame : namecmp name (e.2.take DIRSIZ) = true)
    (hfirst : ∀ i < j, ∀ e', (rootEntries files)[i]? = some e' →
      namecmp name (e'.2.take DIRSIZ) = false) (hdisk : s.disk = w.img)
    (hcopy : (s.inode dp).copy = (vol sb w.img).ino ROOTINO)
    {Q : Option (Fin NINODE × Nat) → FsState → Prop}
    (hQ : diskWp sb _ (.iget (ofNat 16 e.1).toNat) (fun ip s' => Q (some (ip, j)) s') s)
    (fuel : Nat) : ∀ k, k ≤ j → j < k + fuel →
      (dirlookupFrom dp name fuel k).wp (diskWp sb) Q s := by
  induction fuel with
  | zero => exact fun k hk hj => absurd hj (Nat.not_lt.mpr hk)
  | succ fuel ih =>
    intro k hk hj
    have hlt : k < (rootEntries files).length := hk.trans_lt (List.getElem?_eq_some_iff.mp he).1
    have hentry : (rootEntries files)[k]? = some (rootEntries files)[k] :=
      List.getElem?_eq_getElem hlt
    have hread := h.readEntry hentry (hnul _ (List.getElem_mem hlt)) hdisk hcopy
    rw [dirlookupFrom]
    simp only [lift_bind, wp_op]
    show execWp (IOp.onDisk sb) _ _ (.readDirent dp k) _ s
    unfold execWp
    simp only [IOp.onDisk, hread]
    by_cases hkj : k = j
    · subst hkj
      rw [he] at hentry
      rw [← Option.some.inj hentry, if_pos ⟨hinum, hsame⟩]
      exact hQ
    · rw [if_neg]
      · exact ih (k + 1) (by omega) (by omega)
      · intro hand
        rw [hfirst k (by omega) _ hentry] at hand
        cases hand.2

theorem root_typed : ((vol sb w.img).ino ROOTINO).type = T_DIR := by
  rw [vol_sb_ino (by decide)]
  exact h.root.1

theorem root_linked : ((vol sb w.img).ino ROOTINO).nlink ≠ 0 := by
  rw [vol_sb_ino (by decide), h.root.2.1]
  decide

end Image

end Mkfs

namespace Dir

theorem skipelem_slash {name : CString} (hne : name ≠ []) (hslash : slash ∉ name) :
    skipelem (slash :: name) = some (name.take DIRSIZ, []) := by
  have hall : ∀ b ∈ name, decide (b ≠ slash) = true := by
    intro b hb
    apply decide_eq_true
    rintro rfl
    exact hslash hb
  have hdrop : (slash :: name).dropWhile (· = slash) = name := by
    rw [List.dropWhile_cons_of_pos (by decide)]
    cases name with
    | nil => rfl
    | cons b rest =>
      apply List.dropWhile_cons_of_neg
      intro hb
      exact hslash (of_decide_eq_true hb ▸ List.mem_cons_self)
  have htake : name.takeWhile (· ≠ slash) = name := List.takeWhile_eq_self_iff.mpr hall
  have hrest : name.dropWhile (· ≠ slash) = [] := List.dropWhile_eq_nil_iff.mpr hall
  rw [skipelem, hdrop]
  cases name with
  | nil => exact absurd rfl hne
  | cons b rest =>
    simp only []
    rw [htake, hrest]
    rfl

theorem namexFrom_nil (fuel : Nat) (ip : Fin NINODE) (name : CString) :
    namexFrom false fuel ip name [] = .pure (some (ip, name)) := by
  cases fuel <;> rfl

end Dir

namespace Mkfs

open Dir

theorem Image.wp_lookup (h : Image files w) {name : CString} (hne : name ≠ []) (hslash : slash ∉ name)
    {j : Nat} {e : Nat × CString} (he : (rootEntries files)[j]? = some e)
    (hnul : ∀ e ∈ rootEntries files, 0 ∉ e.2) (hpos : 1 ≤ e.1) (hlt : e.1 < NINODES)
    (htype : ((vol sb w.img).ino e.1).type ≠ 0)
    (hsame : namecmp (name.take DIRSIZ) (e.2.take DIRSIZ) = true)
    (hfirst : ∀ i < j, ∀ e', (rootEntries files)[i]? = some e' →
      namecmp (name.take DIRSIZ) (e'.2.take DIRSIZ) = false) :
    (lookup (slash :: name)).wp (diskWp sb) (fun r s => ∃ ip, r = some ip ∧ s.disk = w.img ∧
      (s.inode ip).inum = e.1 ∧ (s.inode ip).copy = (vol sb w.img).ino e.1) (bootState w.img) := by
  have hinum : (ofNat 16 e.1).toNat = e.1 := by
    rw [toNat_ofNat, Nat.mod_eq_of_lt (hlt.trans (by decide))]
  have hne0 : ofNat 16 e.1 ≠ 0 := by
    intro hz
    rw [hz] at hinum
    have hinum : 0 = e.1 := hinum
    omega
  have htdir : ((vol sb w.img).ino ROOTINO).type ≠ 0 := by rw [h.root_typed]; decide
  rw [lookup, wp_bind, namei, wp_bind, namex, wp_bind, namexStart,
    if_pos List.head?_cons, Prog.wp_lift]
  -- the root directory is taken into the cache and locked
  obtain ⟨e0, -, hget0⟩ := iget_new (s := bootState w.img) ROOTINO
    (fun e he => absurd he (Nat.lt_irrefl 0)) ⟨0, rfl⟩
  apply diskWp_iget hget0
  rw [List.length_cons, namexFrom, skipelem_slash hne hslash]
  rw [wp_bind]
  apply wp_ilock_disk ((vol sb w.img).ino ROOTINO) (by rw [setInode_same])
    (by rw [setInode_same]) (by rw [setInode_same]; exact (vol_ino (show ROOTINO < sb.ninodes by decide)).symm) htdir
  set s1 : FsState := (bootState w.img).setInode e0
    { (bootState w.img).inode e0 with inum := ROOTINO, ref := 1, valid := false } with hs1
  set s2 : FsState := s1.setInode e0
    { s1.inode e0 with valid := true, copy := (vol sb w.img).ino ROOTINO } with hs2
  have hroot : s2.inode e0 = ⟨1, ROOTINO, true, (vol sb w.img).ino ROOTINO⟩ := by
    rw [hs2, setInode_same, hs1, setInode_same]
  have hother : ∀ e, e ≠ e0 → (s2.inode e).ref = 0 := by
    intro e hne
    rw [hs2, setInode_ne _ hne, hs1, setInode_ne _ hne]
    rfl
  have hdisk : s2.disk = w.img := rfl
  clear_value s2
  simp only [lift_bind, wp_op, diskWp_attr, hroot]
  rw [if_neg (not_not.mpr h.root_typed), if_neg (by simp)]
  rw [wp_bind, dirlookup]
  simp only [lift_bind, wp_op, diskWp_attr, hroot]
  rw [if_neg (not_not.mpr h.root_typed)]
  simp only [wp_op, diskWp_size, hroot]
  have hcopy : (s2.inode e0).copy = (vol sb w.img).ino ROOTINO := by rw [hroot]
  apply h.wp_dirlookupFrom he hnul hne0 hsame hfirst hdisk hcopy _ _ 0 (Nat.zero_le _)
  · have hj := (List.getElem?_eq_some_iff.mp he).1
    rw [rootEntries, List.length_cons, List.length_cons, length_numbered] at hj
    have hlt := Nat.lt_mul_div_succ (16 * (files.length + 2)) (show 0 < BSIZE by decide)
    rw [Nat.mul_comm BSIZE] at hlt
    rw [vol_sb_ino (by decide), h.root_size]
    omega
  rw [hinum]
  by_cases hself : e.1 = ROOTINO
  · -- `.` and `..` are the root directory itself, which is in the cache
    have hget := iget_old e.1 (by rw [hroot, hself]; exact ⟨Nat.one_pos, rfl⟩) (by
      rintro e' ⟨hused, -⟩
      by_contra hne
      rw [hother e' hne] at hused
      exact absurd hused (Nat.lt_irrefl 0))
    apply diskWp_iget hget
    rw [wp_bind]
    apply wp_iunlockput_disk
    · rw [setInode_same]
      exact Nat.le_add_left _ _
    · rw [setInode_same, hcopy]
      exact h.root_linked
    · rw [namexFrom_nil]
      simp only [wp_pure, pure_eq, Option.map_some]
      rw [wp_bind]
      apply wp_ilock_cached
      · rw [setInode_same, setInode_same, hroot]
        exact le_rfl
      · rw [setInode_same, setInode_same, hroot]
      · refine ⟨e0, rfl, hdisk, ?_, ?_⟩
        · rw [setInode_same, setInode_same, hroot, hself]
        · rw [setInode_same, setInode_same, hroot, hself]
  · obtain ⟨e1, hfree, hget⟩ := iget_new e.1 (by
      intro e' hused hinum'
      by_cases heq : e' = e0
      · rw [heq, hroot] at hinum'
        exact hself hinum'.symm
      · rw [hother e' heq] at hused
        exact absurd hused (Nat.lt_irrefl 0)) (by
      by_cases hzero : (0 : Fin NINODE) = e0
      · exact ⟨1, hother 1 (by rw [← hzero]; decide)⟩
      · exact ⟨0, hother 0 hzero⟩)
    have hne1 : e1 ≠ e0 := by
      rintro rfl
      rw [hroot] at hfree
      cases hfree
    apply diskWp_iget hget
    rw [wp_bind]
    apply wp_iunlockput_disk
    · rw [setInode_ne _ hne1.symm, hroot]
    · rw [setInode_ne _ hne1.symm, hcopy]
      exact h.root_linked
    · rw [namexFrom_nil]
      simp only [wp_pure, pure_eq, Option.map_some]
      rw [wp_bind]
      apply wp_ilock_disk ((vol sb w.img).ino e.1)
      · rw [setInode_ne _ hne1, setInode_same]
      · rw [setInode_ne _ hne1, setInode_same]
      · rw [setInode_ne _ hne1, setInode_same, setInode_disk, setInode_disk, hdisk]
        exact (vol_ino hlt).symm
      · exact htype
      · refine ⟨e1, rfl, hdisk, ?_, ?_⟩
        · rw [setInode_same, setInode_ne _ hne1, setInode_same]
        · rw [setInode_same]

/-! ## Names -/

theorem strn_of_nul {name : CString} (h : 0 ∉ name) (n : Nat) : strn n name = name.take n := by
  have hall : ∀ b ∈ name, decide (b ≠ 0) = true := by
    intro b hb
    apply decide_eq_true
    rintro rfl
    exact h hb
  rw [strn, List.takeWhile_eq_self_iff.mpr hall]

theorem namecmp_take {a b : CString} (ha : 0 ∉ a) (hb : 0 ∉ b) :
    namecmp (a.take DIRSIZ) (b.take DIRSIZ) = decide (a.take DIRSIZ = b.take DIRSIZ) := by
  rw [namecmp, strn_of_nul (fun h => ha (List.mem_of_mem_take h)),
    strn_of_nul (fun h => hb (List.mem_of_mem_take h)), List.take_take, List.take_take, Nat.min_self]

theorem Input.name_subset (f : Input) : ∀ b ∈ f.name, b ∈ f.shortname := by
  intro b hb
  unfold Input.name at hb
  split at hb
  next rest heq =>
    rw [heq]
    exact List.mem_cons_of_mem _ hb
  · exact hb

theorem Input.shortname_subset (f : Input) : ∀ b ∈ f.shortname, b ∈ f.path := by
  intro b hb
  unfold Input.shortname at hb
  split at hb
  · exact List.mem_of_mem_drop hb
  · exact hb

theorem Input.nul_name (f : Input) : 0 ∉ f.name :=
  fun h => f.nul (f.shortname_subset 0 (f.name_subset 0 h))

theorem nul_numbered (fs : List Input) : ∀ n, ∀ e ∈ numbered n fs, 0 ∉ e.2 := by
  induction fs with
  | nil => exact fun n e he => absurd he List.not_mem_nil
  | cons f fs ih =>
    intro n e he
    rcases List.mem_cons.mp he with rfl | he
    · exact f.nul_name
    · exact ih (n + 1) e he

theorem nul_rootEntries (files : List Input) : ∀ e ∈ rootEntries files, 0 ∉ e.2 := by
  intro e he
  rcases List.mem_cons.mp he with rfl | he
  · decide
  · rcases List.mem_cons.mp he with rfl | he
    · decide
    · exact nul_numbered files 2 e he

/-- The names of the files in the root directory are names, and different ones. -/
structure Names (files : List Input) : Prop where
  nonempty : ∀ f ∈ files, f.name.take DIRSIZ ≠ []
  not_dot : ∀ f ∈ files, f.name.take DIRSIZ ≠ dot
  not_dotdot : ∀ f ∈ files, f.name.take DIRSIZ ≠ dotdot
  distinct : (files.map fun f => f.name.take DIRSIZ).Nodup

theorem Names.first (h : Names files) {k : Nat} (hk : k < files.length) :
    ∀ i < k + 2, ∀ e, (rootEntries files)[i]? = some e →
      namecmp (files[k].name.take DIRSIZ) (e.2.take DIRSIZ) = false := by
  intro i hi e he
  have hmem : files[k] ∈ files := List.getElem_mem hk
  match i with
  | 0 =>
    cases he
    rw [namecmp_take files[k].nul_name (by decide)]
    exact decide_eq_false (h.not_dot _ hmem)
  | 1 =>
    cases he
    rw [namecmp_take files[k].nul_name (by decide)]
    exact decide_eq_false (h.not_dotdot _ hmem)
  | i + 2 =>
    have hik : i < k := by omega
    have hi : i < files.length := hik.trans hk
    have he : (numbered 2 files)[i]? = some e := he
    rw [getElem_numbered files hi] at he
    cases he
    rw [namecmp_take files[k].nul_name files[i].nul_name]
    apply decide_eq_false
    intro heq
    have hnodup := List.nodup_iff_injective_get.mp h.distinct
    have hidx : (⟨k, by simpa using hk⟩ : Fin (files.map fun f => f.name.take DIRSIZ).length) =
        ⟨i, by simpa using hi⟩ := by
      apply hnodup
      simpa using heq
    have := congrArg Fin.val hidx
    simp only at this
    omega

/-! ## The super block -/

/-- The magic number of a super block, and the fields the kernel uses. -/
def readsb (d : Block) : BitVec 32 × Superblock :=
  (d.word32 0,
    { size := (d.word32 4).toNat
      ninodes := (d.word32 12).toNat
      nlog := (d.word32 16).toNat
      logstart := (d.word32 20).toNat
      inodestart := (d.word32 24).toNat
      bmapstart := (d.word32 28).toNat })

theorem readsb_superBlock : readsb superBlock = (ofNat 32 FSMAGIC, sb) := by decide

/-! ## The kernel and `mkfs` agree -/

structure Agrees (files : List Input) (w : World) : Prop where
  super : readsb (w.img 1) = (BitVec.ofNat 32 FSMAGIC, sb)
  /-- The bitmap marks the blocks below `freeblock`. -/
  bitmap : ∀ b < sb.size, (vol sb w.img).used b = true ↔ b < w.freeblock
  /-- No two slots name the same block. -/
  once : ∀ x y b, (vol sb w.img).ref x = some b → (vol sb w.img).ref y = some b → x = y
  /-- A file is found under its name, and `readi` from offset 0 returns its length and its bytes. -/
  file : ∀ k, (hk : k < files.length) → ∃ ip s,
    (lookup (slash :: files[k].name.take DIRSIZ)).run (IOp.onDisk sb) (bootState w.img) =
      (some (some ip), s) ∧ (s.inode ip).inum = k + 2 ∧
    ∀ mem dst len, files[k].bytes.length ≤ len.toNat →
      (readi sb (s.inode ip).copy (.kernel mem) dst 0 len).run FOp.outside ⟨s.disk, none⟩ =
        (some (files[k].bytes.length, (s.inode ip).copy,
          .kernel (putMem mem dst 0 files[k].bytes.length (files[k].bytes.getD · 0))),
          ⟨s.disk, none⟩)
  /-- `/.` and `/..` are the root directory. -/
  root : ∀ name ∈ [dot, dotdot], ∃ ip s,
    (lookup (slash :: name)).run (IOp.onDisk sb) (bootState w.img) = (some (some ip), s) ∧
      (s.inode ip).inum = ROOTINO

theorem Image.run_lookup (h : Image files w) (name : CString) (hne : name ≠ []) (hslash : slash ∉ name)
    {j : Nat} {e : Nat × CString} (he : (rootEntries files)[j]? = some e) (hpos : 1 ≤ e.1)
    (hlt : e.1 < NINODES) (htype : ((vol sb w.img).ino e.1).type ≠ 0)
    (hsame : namecmp (name.take DIRSIZ) (e.2.take DIRSIZ) = true)
    (hfirst : ∀ i < j, ∀ e', (rootEntries files)[i]? = some e' →
      namecmp (name.take DIRSIZ) (e'.2.take DIRSIZ) = false) :
    ∃ ip s, (lookup (slash :: name)).run (IOp.onDisk sb) (bootState w.img) = (some (some ip), s) ∧
      s.disk = w.img ∧ (s.inode ip).inum = e.1 ∧ (s.inode ip).copy = (vol sb w.img).ino e.1 := by
  have hwp := h.wp_lookup hne hslash he (nul_rootEntries files) hpos hlt htype hsame hfirst
  rw [Prog.wp_execWp] at hwp
  generalize Prog.run _ _ _ = res at hwp ⊢
  obtain ⟨_ | r, s⟩ := res
  · exact (hwp.2 rfl).elim
  · obtain ⟨ip, rfl, hrest⟩ := hwp.1 r rfl
    exact ⟨ip, s, rfl, hrest⟩

theorem Image.agrees (h : Image files w) (hnames : Names files) (hfiles : files.length + 2 ≤ NINODES) :
    Agrees files w := by
  have hrootType : ((vol sb w.img).ino ROOTINO).type ≠ 0 := by rw [h.root_typed]; decide
  have hclear : ∀ x : Slot, NINODES ≤ x.inum → (vol sb w.img).ref x = none :=
    fun x hx => Vol.ref_of_fresh (vol_sb_ino_of_le hx)
  refine ⟨?_, fun b hb => ?_, fun x y b hx hy => ?_, fun k hk => ?_, fun name hname => ?_⟩
  · rw [h.super]
    exact readsb_superBlock
  · have hused : (vol sb w.img).used b = decide (b < w.freeblock) := h.used b hb
    rw [hused, decide_eq_true_eq]
  · have hxn : x.inum < NINODES := by
      by_contra hle
      rw [hclear x (Nat.not_lt.mp hle)] at hx
      cases hx
    have hyn : y.inum < NINODES := by
      by_contra hle
      rw [hclear y (Nat.not_lt.mp hle)] at hy
      cases hy
    rw [vol_sb_ref hxn] at hx
    rw [vol_sb_ref hyn] at hy
    exact h.ok.owned.inj hx hy
  · have hmem : files[k] ∈ files := List.getElem_mem hk
    have hn : k + 2 < NINODES := by omega
    have hslash : slash ∉ files[k].name.take DIRSIZ := fun hin =>
      (h.good _ hmem).slash (files[k].name_subset _ (List.mem_of_mem_take hin))
    have hentry : (rootEntries files)[k + 2]? = some (k + 2, files[k].name) := by
      have := getElem_numbered files (n := 2) hk
      rw [Nat.add_comm 2 k] at this
      exact this
    have htype : ((vol sb w.img).ino (k + 2)).type ≠ 0 := by
      rw [vol_sb_ino hn]
      exact (h.inode (k + 2) (by show 1 < k + 2; omega) (by rw [h.inum]; omega)).typed
    have hcut : (files[k].name.take DIRSIZ).take DIRSIZ = files[k].name.take DIRSIZ := by
      rw [List.take_take, Nat.min_self]
    obtain ⟨ip, s, hrun, hdisk, hinum, hcopy⟩ := h.run_lookup _ (hnames.nonempty _ hmem) hslash hentry
      (by show 1 ≤ k + 2; omega) hn htype
      (by rw [hcut, namecmp_take files[k].nul_name files[k].nul_name, decide_eq_true rfl])
      (by rw [hcut]; exact hnames.first hk)
    refine ⟨ip, s, hrun, hinum, fun mem dst len hlen => ?_⟩
    rw [hcopy, hdisk]
    exact h.run_readi_file hk hfiles mem dst hlen
  · have hone : (1 : Nat) < NINODES := by decide
    rcases List.mem_cons.mp hname with rfl | hname
    · obtain ⟨ip, s, hrun, -, hinum, -⟩ := h.run_lookup dot
        (by decide) (by decide) rfl le_rfl hone hrootType (by decide)
        (fun i hi => absurd hi (Nat.not_lt_zero i))
      exact ⟨ip, s, hrun, hinum⟩
    · obtain rfl := List.mem_singleton.mp hname
      obtain ⟨ip, s, hrun, -, hinum, -⟩ := h.run_lookup dotdot (j := 1)
        (by decide) (by decide) rfl le_rfl hone hrootType (by decide) (by
          intro i hi e' he'
          obtain rfl : i = 0 := by omega
          cases he'
          decide)
      exact ⟨ip, s, hrun, hinum⟩

/-- `mkfs` on files with different names that fit the image. It ends with status 0 unless a file
cannot be opened or there is a `/` in its name, and the kernel agrees with the image it leaves. -/
theorem mkfs_kernel_agree (files : List Input) (hnames : Names files)
    (hinodes : files.length + 2 ≤ NINODES) (hmax : ∀ f ∈ files, f.bytes.length ≤ MAXFILE * BSIZE)
    (hblocks : nmeta + need (16 * (files.length + 2)) +
      (files.map fun f => need f.bytes.length).sum ≤ FSSIZE) :
    ((∀ f ∈ files, slash ∉ f.shortname ∧ f.reads ≠ none) → (run (some true) files).1 = some ()) ∧
      ((run (some true) files).1 = some () → Agrees files (run (some true) files).2) := by
  constructor
  · intro hopen
    apply run_of_room (hinodes.trans (by decide)) _ hblocks
    exact fun f hf => ⟨(hopen f hf).1, (hopen f hf).2, hmax f hf⟩
  · intro hrun
    exact (image_of_run (hinodes.trans (by decide)) hrun).agrees hnames hinodes

/-- The file `user/_hi`, read in two parts. -/
def hiFile : Input where
  path := userSlash ++ [0x5f, 0x68, 0x69]
  reads := some [[0x68, 0x65], [0x79]]
  nul := by decide
  chunk := by
    intro cs hcs
    cases hcs
    decide

/-- The kernel finds `/hi` and reads its three bytes. -/
theorem mkfs_kernel_agree_hi :
    (run (some true) [hiFile]).1 = some () ∧ ∃ ip s,
      (lookup [slash, 0x68, 0x69]).run (IOp.onDisk sb) (bootState (run (some true) [hiFile]).2.img) =
        (some (some ip), s) ∧ (s.inode ip).inum = 2 := by
  have hagree := mkfs_kernel_agree [hiFile]
    ⟨by decide, by decide, by decide, by decide⟩ (by decide) (by decide) (by decide)
  have hrun := hagree.1 (by decide)
  obtain ⟨ip, s, hlookup, hinum, -⟩ := (hagree.2 hrun).file 0 (by decide)
  exact ⟨hrun, ip, s, hlookup, hinum⟩

end Mkfs

end Xv6
