import Xv6.Mkfs.Proofs.Append

/-!
# The image

What `mkfs` leaves: the root directory holds an entry for each input file, and the inodes behind that
of the root hold the files in order. The program stops early only where a file cannot be taken or
there is no room.
-/

namespace Xv6.Mkfs

open Prog (wp_bind wp_lift wp_op lift_bind)
open Dir Function
open BitVec (ofNat toNat_ofNat)

variable {w : World} {n : Nat} {F : Prop} {c : Nat → List (BitVec 8)} {v : Vol} (fs : List Input)

structure Inode (n : Nat) (bs : List (BitVec 8)) (ip : Dinode) : Prop where
  type : ip.type = if n = ROOTINO then T_DIR else T_FILE
  nlink : ip.nlink = 1
  size : ip.size = BitVec.ofNat 32 bs.length

variable {bs : List (BitVec 8)} {ip : Dinode}

theorem Inode.typed (h : Inode n bs ip) : ip.type ≠ 0 := by
  rw [h.type]
  split <;> decide

structure Saved (w : World) (c : Nat → List (BitVec 8)) : Prop where
  ready : Ready w
  ok : (mvol w).Ok layout none []
  holds : ∀ m, (mvol w).Holds m (c m)
  count : w.freeblock = nmeta + cost c w.freeinode
  inode : ∀ m, 1 ≤ m → m < w.freeinode → Inode m (c m) ((mvol w).ino m)
  blank : ∀ m, m = 0 ∨ w.freeinode ≤ m → c m = [] ∧ (mvol w).ino m = .fresh 0
  room : w.freeinode ≤ layout.ninodes
  pos : 1 ≤ w.freeinode

/-! ## Inodes -/

variable {m : Nat}

theorem iblock_range (hm : m < layout.ninodes) :
    sb.inodestart ≤ sb.iblock m ∧ sb.iblock m < sb.bmapstart := by
  have hm : m < 208 := hm
  show 32 ≤ m / 16 + 32 ∧ m / 16 + 32 < 45
  omega

theorem iblock_lt_nmeta (hm : m < layout.ninodes) : sb.iblock m < nmeta :=
  (iblock_range hm).2.trans (by decide)

theorem mvol_winode (caller : Caller) (hm : m < layout.ninodes) (ip : Dinode) :
    mvol (w.write caller (sb.iblock m) (ip.write (w.img (sb.iblock m)) (m % IPB))) =
      (mvol w).setIno m ip := by
  have hvol := vol_setIno layout_wf hm
    (Dinode.read_write_same ip (w.img (sb.iblock m)) (Nat.mod_lt m (by decide)))
    (fun k hk => Dinode.read_write_ne ip (w.img (sb.iblock m)) hk)
  show ({ vol layout (update w.img (layout.iblock m) _) with used := _ } : Vol) = _
  rw [hvol]
  rfl

theorem Ready.winode (h : Ready w) (hm : m < layout.ninodes) (d : Block) :
    Ready (w.write .winode (sb.iblock m) d) := by
  obtain ⟨hlo, hhi⟩ := iblock_range hm
  have hmeta := iblock_lt_nmeta hm
  have hsize : nmeta < FSSIZE := by decide
  refine ⟨?_, h.low, h.high, ?_, ?_, ?_⟩
  · show max w.len (sb.iblock m + 1) = FSSIZE
    rw [h.len]
    omega
  · intro b hb
    show update w.img _ d b = _
    rw [update_of_ne (by have := h.low; have hb : w.freeblock ≤ b := hb; omega)]
    exact h.clear b hb
  · show update w.img (sb.iblock m) d 1 = superBlock
    rw [update_of_ne (by have : 32 ≤ sb.iblock m := hlo; omega)]
    exact h.super
  · intro k hk hcall
    rcases List.mem_cons.mp hk with rfl | hk
    · exact ⟨hlo, hhi⟩
    · exact h.writes k hk hcall

variable {Q : Unit → World → Prop}

theorem wp_winode (h : Ready w) (hm : m < layout.ninodes)
    (hQ : ∀ d, Ready (w.write .winode (sb.iblock m) d) →
      mvol (w.write .winode (sb.iblock m) d) = (mvol w).setIno m ip →
      Q () (w.write .winode (sb.iblock m) d)) : (winode m ip).wp (mkWp F) Q w := by
  unfold winode
  rw [wp_bind]
  apply wp_rsect
  · intro _
    exact hQ _ (h.winode hm _) (mvol_winode _ hm ip)
  · intro hlen
    rw [h.len] at hlen
    have := iblock_lt_nmeta hm
    have : nmeta < FSSIZE := by decide
    omega

theorem wp_rinode (h : Ready w) (hm : m < layout.ninodes) {Q : Dinode → World → Prop}
    (hQ : Q ((mvol w).ino m) w) : (rinode m).wp (mkWp F) Q w := by
  unfold rinode
  rw [wp_bind]
  apply wp_rsect
  · intro _
    have hino : (mvol w).ino m = Dinode.read (w.img (sb.iblock m)) (m % IPB) := vol_ino hm
    rw [hino] at hQ
    exact hQ
  · intro hlen
    rw [h.len] at hlen
    have := iblock_lt_nmeta hm
    have : nmeta < FSSIZE := by decide
    omega

/-! ## Appending -/

theorem Vol.Holds.setIno (h : v.Holds m bs)
    (ha : ip.addrs = (v.ino n).addrs) : (v.setIno n ip).Holds m bs := by
  have href := Vol.ref_setIno_of_addrs ha
  apply h.congr
  · intro bn
    unfold Vol.block
    rw [href]
  · exact fun _ _ _ => rfl
  · rw [href]

theorem Vol.Holds.whole (h : v.Holds n bs)
    (hsize : (v.ino n).size = ofNat 32 bs.length) : v.Whole n := by
  intro bn hbn
  rw [hsize] at hbn
  apply (h.blocks bn).mpr
  exact hbn.trans_le (by rw [toNat_ofNat]; exact Nat.mod_le _ _)

theorem Files.save {din : Dinode} (h : Files w n din c) {old : Nat → List (BitVec 8)} (hn : 1 ≤ n)
    (hlt : n < w.freeinode) (hroom : w.freeinode ≤ layout.ninodes) (hc : c = update old n bs)
    (hother : ∀ m, 1 ≤ m → m < w.freeinode → Inode m (old m) ((mvol w).ino m))
    (hblank : ∀ m, m = 0 ∨ w.freeinode ≤ m → old m = [] ∧ (mvol w).ino m = .fresh 0)
    (hdin : Inode n (old n) din) {w' : World} (hready : Ready w')
    (hfree : w'.freeblock = w.freeblock) (hinum : w'.freeinode = w.freeinode)
    (hvol : mvol w' = (mvol w).setIno n { din with size := ofNat 32 bs.length }) : Saved w' c := by
  have hview : mvol w' = (view w n din).setIno n { din with size := ofNat 32 bs.length } := by
    rw [hvol, Vol.setIno_setIno]
  have haddrs : ({ din with size := ofNat 32 bs.length } : Dinode).addrs =
      ((view w n din).ino n).addrs := by simp
  have hholds : ∀ m, (mvol w').Holds m (c m) := by
    intro m
    rw [hview]
    exact Vol.Holds.setIno (h.holds m) haddrs
  have hbs : c n = bs := by rw [hc, update_self]
  refine ⟨hready, ?_, hholds, ?_, ?_, ?_, hinum ▸ hroom, ?_⟩
  · have hok : (mvol w').Ok layout (some n) [] := by
      rw [hview]
      apply h.work.ok.setMeta _ haddrs
      intro ht
      exact absurd ht h.work.type
    apply hok.done
    apply Vol.Holds.whole (hholds n)
    rw [hview, Vol.setIno_ino_same, hbs]
  · rw [hfree, hinum]
    exact h.count
  · intro m hm hmlt
    rw [hinum] at hmlt
    by_cases heq : m = n
    · subst heq
      rw [hvol, Vol.setIno_ino_same, hbs]
      exact ⟨hdin.type, hdin.nlink, rfl⟩
    · rw [hvol, Vol.setIno_ino_ne _ _ heq, hc, update_of_ne heq]
      exact hother m hm hmlt
  · intro m hm
    rw [hinum] at hm
    have heq : m ≠ n := by omega
    rw [hvol, Vol.setIno_ino_ne _ _ heq, hc, update_of_ne heq]
    exact hblank m hm
  · omega

theorem Saved.files (h : Saved w c) (hn : 1 ≤ n) (hlt : n < w.freeinode) :
    Files w n ((mvol w).ino n) c := by
  have hview : view w n ((mvol w).ino n) = mvol w := Vol.setIno_self _ _
  refine ⟨⟨h.ready, ?_, (h.inode n hn hlt).typed⟩, ?_, h.count⟩
  · rw [hview]
    exact h.ok.work n
  · rw [hview]
    exact h.holds

theorem wp_iappend (h : Saved w c) (hn : 1 ≤ n) (hlt : n < w.freeinode) {p : List (BitVec 8)}
    (hmax : MAXFILE * BSIZE < (c n ++ p).length → F)
    (hF : FSSIZE < nmeta + cost (update c n (c n ++ p)) w.freeinode → F)
    (hQ : ∀ w', Saved w' (update c n (c n ++ p)) → w'.freeinode = w.freeinode → Q () w') :
    (iappend n p).wp (mkWp F) Q w := by
  have hm : n < layout.ninodes := hlt.trans_le h.room
  have hino := h.inode n hn hlt
  unfold iappend
  rw [wp_bind]
  apply wp_rinode h.ready hm
  rw [wp_bind]
  have hsize : ((mvol w).ino n).size.toNat = (c n).length := by
    have hle := (h.holds n).length_le
    rw [hino.size, toNat_ofNat, Nat.mod_eq_of_lt (hle.trans_lt (by decide))]
  rw [hsize]
  apply wp_iappendLoop p.length p w _ c le_rfl (h.files hn hlt) hlt hmax hF
  intro w' din' hfiles hinum hsame hrest
  apply wp_winode hfiles.work.ready hm
  intro d hready hvol
  have hfree : (w'.write .winode (sb.iblock n) d).freeinode = w.freeinode := hinum
  apply hQ _ _ hfree
  apply hfiles.save hn (hinum ▸ hlt) (hinum ▸ h.room) rfl _ _ _ hready rfl rfl hvol
  · intro m hm' hmlt
    rw [hsame]
    exact h.inode m hm' (hinum ▸ hmlt)
  · intro m hm'
    rw [hsame]
    exact h.blank m (hinum ▸ hm')
  · rw [hrest]
    exact ⟨hino.type, hino.nlink, hino.size⟩

theorem wp_iappends (cs : List (List (BitVec 8))) :
    ∀ (w : World) (c : Nat → List (BitVec 8)), Saved w c → 1 ≤ n → n < w.freeinode →
      (MAXFILE * BSIZE < (c n ++ cs.flatten).length → F) →
      (FSSIZE < nmeta + cost (update c n (c n ++ cs.flatten)) w.freeinode → F) →
      ∀ Q : Unit → World → Prop,
      (∀ w', Saved w' (update c n (c n ++ cs.flatten)) → w'.freeinode = w.freeinode → Q () w') →
      (Prog.forEach (iappend n) cs).wp (mkWp F) Q w := by
  induction cs with
  | nil =>
    intro w c h hn hlt hmax hF Q hQ
    simp only [List.flatten_nil, List.append_nil, update_eq_self] at hQ
    exact hQ w h rfl
  | cons p cs ih =>
    intro w c h hn hlt hmax hF Q hQ
    rw [List.flatten_cons, ← List.append_assoc] at hmax hF hQ
    have hlen : (c n ++ p).length ≤ (c n ++ p ++ cs.flatten).length :=
      (List.prefix_append _ _).length_le
    rw [Prog.forEach, wp_bind]
    apply wp_iappend h hn hlt
    · exact fun hlong => hmax (hlong.trans_le hlen)
    · intro hfull
      apply hF
      have hless := cost_update (c := c) hlt (c n ++ p)
      have hmore := cost_update (c := c) hlt (c n ++ p ++ cs.flatten)
      have := need_mono hlen
      omega
    · intro w' h' hinum
      have hself : update c n (c n ++ p) n = c n ++ p := update_self ..
      apply ih w' _ h' hn (hinum ▸ hlt)
      · rwa [hself]
      · rwa [hself, update_idem, hinum]
      · intro w'' h'' hinum'
        rw [hself, update_idem] at h''
        exact hQ w'' h'' (hinum'.trans hinum)

/-! ## Allocating an inode -/

theorem cost_succ (c : Nat → List (BitVec 8)) (N : Nat) :
    cost c (N + 1) = cost c N + need (c N).length := Finset.sum_range_succ _ _

theorem wp_ialloc (h : Saved w c) (hlt : w.freeinode < layout.ninodes) {type : BitVec 16}
    (htype : type = if w.freeinode = ROOTINO then T_DIR else T_FILE) {Q : Nat → World → Prop}
    (hQ : ∀ w', Saved w' c → w'.freeinode = w.freeinode + 1 → Q w.freeinode w') :
    (ialloc type).wp (mkWp F) Q w := by
  obtain ⟨hempty, hfresh⟩ := h.blank w.freeinode (.inr le_rfl)
  unfold ialloc
  simp only [lift_bind, wp_op, mkWp_nextInode]
  rw [wp_bind]
  have hready : Ready { w with freeinode := w.freeinode + 1 } := { h.ready with }
  apply wp_winode hready hlt
  intro d hready' hvol
  have hinum : (World.write { w with freeinode := w.freeinode + 1 } .winode
    (sb.iblock w.freeinode) d).freeinode = w.freeinode + 1 := rfl
  refine hQ _ ?_ hinum
  have hvol : mvol (World.write { w with freeinode := w.freeinode + 1 } .winode
      (sb.iblock w.freeinode) d) =
        (mvol w).setIno w.freeinode { Dinode.fresh type with nlink := 1 } := hvol
  have haddrs : ({ Dinode.fresh type with nlink := 1 } : Dinode).addrs =
      ((mvol w).ino w.freeinode).addrs := by
    rw [hfresh]
    rfl
  have hne : type ≠ 0 := by
    rw [htype]
    split <;> decide
  have hholds : ∀ m, (mvol (World.write { w with freeinode := w.freeinode + 1 } .winode
      (sb.iblock w.freeinode) d)).Holds m (c m) := by
    intro m
    rw [hvol]
    exact Vol.Holds.setIno (h.holds m) haddrs
  refine ⟨hready', ?_, hholds, ?_, ?_, ?_, hlt, Nat.succ_pos _⟩
  · have hok := (h.ok.work w.freeinode).setMeta _ haddrs fun ht => absurd ht hne
    rw [← hvol] at hok
    apply hok.done
    apply Vol.Holds.whole (hholds _)
    rw [hvol, Vol.setIno_ino_same, hempty]
    rfl
  · rw [hinum, cost_succ, hempty]
    exact h.count
  · intro m hm hmlt
    rw [hvol]
    by_cases heq : m = w.freeinode
    · rw [heq, Vol.setIno_ino_same, hempty]
      exact ⟨htype, rfl, rfl⟩
    · rw [Vol.setIno_ino_ne _ _ heq]
      exact h.inode m hm (by omega)
  · intro m hm
    have hpos := h.pos
    rw [hvol, Vol.setIno_ino_ne _ _ (by omega)]
    exact h.blank m (by omega)

/-! ## Adding files -/

def Input.bytes (f : Input) : List (BitVec 8) := (f.reads.getD []).flatten

structure Input.Good (f : Input) : Prop where
  slash : 0x2f ∉ f.shortname
  opens : f.reads ≠ none
  max : f.bytes.length ≤ MAXFILE * BSIZE

/-- The files with one more, which gets inode `n`. -/
def addTo (c : Nat → List (BitVec 8)) (n : Nat) (f : Input) : Nat → List (BitVec 8) :=
  update (update c ROOTINO (c ROOTINO ++ dirent n f.name)) n f.bytes

/-- The files after the input files `fs`, of which the first one gets inode `n`. -/
def addAll (c : Nat → List (BitVec 8)) : Nat → List Input → Nat → List (BitVec 8)
  | _, [] => c
  | n, f :: fs => addAll (addTo c n f) (n + 1) fs

theorem length_dirent (inum : Nat) (name : CString) : (dirent inum name).length = 16 := by
  simp only [dirent, List.length_cons, List.length_append, List.length_take, List.length_replicate,
    DIRSIZ]
  omega

theorem addTo_root (hn : ROOTINO < n) (f : Input) :
    addTo c n f ROOTINO = c ROOTINO ++ dirent n f.name := by
  rw [addTo, update_of_ne hn.ne, update_self]

theorem addTo_self (n : Nat) (f : Input) : addTo c n f n = f.bytes := update_self ..

theorem addTo_ne (hm : m ≠ n) (hr : m ≠ ROOTINO) (f : Input) : addTo c n f m = c m := by
  rw [addTo, update_of_ne hm, update_of_ne hr]

theorem length_le_addTo (hn : ROOTINO < n) (hc : c n = []) (f : Input) (m : Nat) :
    (c m).length ≤ (addTo c n f m).length := by
  by_cases hm : m = n
  · rw [hm, hc]
    exact Nat.zero_le _
  · by_cases hr : m = ROOTINO
    · rw [hr, addTo_root hn]
      exact (List.prefix_append _ _).length_le
    · rw [addTo_ne hm hr]

theorem length_le_addAll : ∀ (c : Nat → List (BitVec 8)) (n : Nat), ROOTINO < n →
    (∀ m, n ≤ m → c m = []) → ∀ m, (c m).length ≤ (addAll c n fs m).length := by
  induction fs with
  | nil => exact fun _ _ _ _ _ => le_rfl
  | cons f fs ih =>
    intro c n hn hc m
    apply (length_le_addTo hn (hc n le_rfl) f m).trans
    apply ih (addTo c n f) (n + 1) (hn.trans (Nat.lt_succ_self n))
    intro k hk
    rw [addTo_ne (by omega) (by omega)]
    exact hc k (by omega)

theorem cost_mono {c' : Nat → List (BitVec 8)} {N N' : Nat}
    (h : ∀ m, (c m).length ≤ (c' m).length) (hN : N ≤ N') : cost c N ≤ cost c' N' := by
  apply (Finset.sum_le_sum fun m _ => need_mono (h m)).trans
  apply Finset.sum_le_sum_of_subset
  exact Finset.range_subset_range.mpr hN

theorem wp_addFile (h : Saved w c) (hroot : ROOTINO < w.freeinode)
    (hlt : w.freeinode < layout.ninodes) (hlen : (c ROOTINO).length = 16 * w.freeinode) {f : Input}
    (hbad : ¬f.Good → F) (hF : FSSIZE < nmeta + cost (addTo c w.freeinode f) (w.freeinode + 1) → F)
    (hQ : ∀ w', Saved w' (addTo c w.freeinode f) → w'.freeinode = w.freeinode + 1 → f.Good →
      Q () w') : (addFile ROOTINO f).wp (mkWp F) Q w := by
  unfold addFile
  rw [wp_bind]
  apply wp_assert
  · intro hslash
    cases hreads : f.reads with
    | none => exact hbad fun hgood => hgood.opens hreads
    | some chunks =>
      have hbytes : chunks.flatten = f.bytes := by rw [Input.bytes, hreads]; rfl
      have hempty := (h.blank w.freeinode (.inr le_rfl)).1
      rw [wp_bind]
      apply wp_ialloc h hlt (by rw [if_neg hroot.ne'])
      intro w1 h1 hinum1
      rw [wp_bind]
      have hself : update c ROOTINO (c ROOTINO ++ dirent w.freeinode f.name) w.freeinode =
          [] := by rw [update_of_ne hroot.ne', hempty]
      apply wp_iappend h1 le_rfl (by omega)
      · -- the root directory is short
        intro hlong
        rw [List.length_append, length_dirent, hlen] at hlong
        have hlt : w.freeinode < 208 := hlt
        simp only [MAXFILE, NDIRECT, NINDIRECT, BSIZE] at hlong
        omega
      · intro hfull
        apply hF
        rw [hinum1] at hfull
        apply hfull.trans_le
        apply Nat.add_le_add_left
        apply cost_mono _ le_rfl
        intro m
        by_cases hm : m = w.freeinode
        · rw [hm, hself]
          exact Nat.zero_le _
        · rw [addTo, update_of_ne hm]
      · intro w2 h2 hinum2
        have hfinal : update
            (update c ROOTINO (c ROOTINO ++ dirent w.freeinode f.name)) w.freeinode
            (update c ROOTINO (c ROOTINO ++ dirent w.freeinode f.name) w.freeinode ++
              chunks.flatten) = addTo c w.freeinode f := by
          rw [hself, hbytes, List.nil_append, addTo]
        apply wp_iappends chunks w2 _ h2 h.pos (by omega)
        · intro hlong
          rw [hself, hbytes, List.nil_append] at hlong
          exact hbad fun hgood => absurd hgood.max (Nat.not_le.mpr hlong)
        · rw [hfinal, hinum2, hinum1]
          exact hF
        · intro w3 h3 hinum3
          rw [hfinal] at h3
          apply hQ w3 h3 (by omega)
          refine ⟨hslash, by rw [hreads]; nofun, ?_⟩
          have hmax := (h3.holds w.freeinode).length_le
          rwa [addTo_self] at hmax
  · intro hslash
    exact hbad fun hgood => hslash hgood.slash

/-- All files are added, or one is not taken or there is no room. -/
theorem wp_addFiles :
    ∀ (w : World) (c : Nat → List (BitVec 8)), Saved w c → ROOTINO < w.freeinode →
      w.freeinode + fs.length ≤ layout.ninodes → (c ROOTINO).length = 16 * w.freeinode →
      ((∃ f ∈ fs, ¬f.Good) → F) →
      (FSSIZE < nmeta + cost (addAll c w.freeinode fs) (w.freeinode + fs.length) → F) →
      ∀ Q : Unit → World → Prop,
      (∀ w', Saved w' (addAll c w.freeinode fs) → w'.freeinode = w.freeinode + fs.length →
        (addAll c w.freeinode fs ROOTINO).length = 16 * w'.freeinode → (∀ f ∈ fs, f.Good) →
        Q () w') →
      (Prog.forEach (addFile ROOTINO) fs).wp (mkWp F) Q w := by
  induction fs with
  | nil =>
    intro w c h hroot hroom hlen hbad hF Q hQ
    exact hQ w h rfl hlen nofun
  | cons f fs ih =>
    intro w c h hroot hroom hlen hbad hF Q hQ
    have hblank : ∀ m, w.freeinode + 1 ≤ m → addTo c w.freeinode f m = [] := by
      intro m hm
      rw [addTo_ne (by omega) (by omega)]
      exact (h.blank m (.inr (by omega))).1
    have hnext : w.freeinode + (f :: fs).length = w.freeinode + 1 + fs.length := by
      rw [List.length_cons]
      omega
    rw [Prog.forEach, wp_bind]
    apply wp_addFile h hroot (by omega) hlen
    · exact fun hf => hbad ⟨f, List.mem_cons_self, hf⟩
    · intro hfull
      apply hF
      apply hfull.trans_le
      apply Nat.add_le_add_left
      apply cost_mono
      · exact length_le_addAll fs _ _ (hroot.trans (Nat.lt_succ_self _)) hblank
      · rw [hnext]
        exact Nat.le_add_right _ _
    · intro w' h' hinum hgood
      rw [hnext] at hF hQ
      apply ih w' _ h' (by omega) (by omega)
      · rw [addTo_root hroot, List.length_append, length_dirent, hlen, hinum]
        omega
      · rintro ⟨g, hg, hnot⟩
        exact hbad ⟨g, List.mem_cons_of_mem _ hg, hnot⟩
      · rw [hinum]
        exact hF
      · intro w'' h'' hinum' hlen' hall
        rw [hinum] at h'' hinum' hlen'
        apply hQ w'' h'' hinum' hlen'
        intro g hg
        rcases List.mem_cons.mp hg with rfl | hg
        · exact hgood
        · exact hall g hg

/-! ## The whole program -/

theorem wp_zeroes (j : Nat) :
    ∀ (k : Nat) (w : World), w.img = (fun _ _ => 0) → w.len = k → (∀ e ∈ w.writes, e.1 = .main) →
      ∀ Q : Unit → World → Prop,
      (∀ w', w'.img = (fun _ _ => 0) → w'.len = k + j → (∀ e ∈ w'.writes, e.1 = .main) →
        w'.freeinode = w.freeinode → w'.freeblock = w.freeblock → Q () w') →
      (Prog.forEach (fun i => wsect .main i fun _ => 0) (List.range' k j)).wp (mkWp F) Q w := by
  induction j with
  | zero =>
    intro k w himg hlen hwrites Q hQ
    exact hQ w himg hlen hwrites rfl rfl
  | succ j ih =>
    intro k w himg hlen hwrites Q hQ
    rw [List.range'_succ, Prog.forEach, wp_bind]
    apply ih (k + 1)
    · show update w.img k _ = _
      rw [himg]
      exact update_eq_self k _
    · show max w.len (k + 1) = k + 1
      omega
    · intro e he
      rcases List.mem_cons.mp he with rfl | he
      · rfl
      · exact hwrites e he
    · intro w' himg' hlen' hwrites' hinum hfree
      exact hQ w' himg' (by omega) hwrites' hinum hfree

theorem Saved.start (himg : w.img = update (fun _ _ => 0) 1 superBlock)
    (hlen : w.len = FSSIZE) (hwrites : ∀ e ∈ w.writes, e.1 = .main) (hinum : w.freeinode = 1)
    (hfree : w.freeblock = nmeta) : Saved w fun _ => [] := by
  have hzero : ∀ b, b ≠ 1 → w.img b = fun _ => 0 := by
    intro b hb
    rw [himg, update_of_ne hb]
  have hino : ∀ m, (mvol w).ino m = .fresh 0 := by
    intro m
    show (if m < layout.ninodes then _ else _) = _
    split
    next hm =>
      have hlo : 32 ≤ layout.iblock m := (iblock_range hm).1
      rw [hzero _ (by omega), Dinode.read_zero]
    · rfl
  have href : ∀ x, (mvol w).ref x = none := fun x => Vol.ref_of_fresh (hino x.inum)
  have hblock : ∀ m bn, (mvol w).block m bn = none := by
    intro m bn
    unfold Vol.block
    cases Slot.ofBlock m bn with
    | none => rfl
    | some x => exact href x
  refine ⟨⟨hlen, hfree.ge, ?_, ?_, ?_, ?_⟩, ⟨⟨?_, ?_, nofun, List.nodup_nil, nofun, ?_⟩, ?_, ?_, ?_⟩,
    ?_, ?_, ?_, ?_, ?_, hinum.ge⟩
  · rw [hfree]
    decide
  · intro b hb
    have : nmeta = 46 := rfl
    exact hzero b (by omega)
  · rw [himg, update_self]
  · intro e he hcall
    rw [hwrites e he] at hcall
    cases hcall
  · intro x b hx
    rw [href] at hx
    cases hx
  · intro x y b hx
    rw [href] at hx
    cases hx
  · intro b hb
    have hlo : ¬b < w.freeblock := by
      rw [hfree]
      exact Nat.not_lt.mpr (layout_data.mp hb).1
    have hused : (mvol w).used b = false := by simp [mvol, hlo]
    rw [hused]
    simp [href]
  · intro b hb hsize
    have hlt : b < w.freeblock := by
      rw [hfree]
      exact hb
    have hsize : b < FSSIZE := hsize
    simp [mvol, hlt, hsize]
  · intro m _ i
    rw [hino]
    rfl
  · intro m _ bn hbn
    rw [hino] at hbn
    exact absurd hbn (Nat.not_lt_zero _)
  · intro m
    refine ⟨fun bn => ?_, fun bn b hb => ?_, ?_⟩
    · simp [hblock]
    · rw [hblock] at hb
      cases hb
    · simp [href]
  · rw [hfree, hinum]
    rfl
  · intro m hm hlt
    omega
  · intro m _
    exact ⟨rfl, hino m⟩
  · rw [hinum]
    decide

/-- The root directory of an empty file system. -/
def dots : Nat → List (BitVec 8) :=
  update (fun _ => []) ROOTINO (dirent ROOTINO [0x2e] ++ dirent ROOTINO [0x2e, 0x2e])

def contents (files : List Input) : Nat → List (BitVec 8) := addAll dots 2 files

structure Image (files : List Input) (w : World) : Prop where
  good : ∀ f ∈ files, f.Good
  inum : w.freeinode = files.length + 2
  super : w.img 1 = superBlock
  writes : ∀ e ∈ w.writes, e.1 = .winode → sb.inodestart ≤ e.2 ∧ e.2 < sb.bmapstart
  used : ∀ b < FSSIZE, (vol layout w.img).used b = decide (b < w.freeblock)
  ok : (vol layout w.img).Ok layout (some ROOTINO) []
  holds : ∀ m, (vol layout w.img).Holds m (contents files m)
  inode : ∀ m, ROOTINO < m → m < w.freeinode → Inode m (contents files m) ((vol layout w.img).ino m)
  root : ((vol layout w.img).ino ROOTINO).type = T_DIR ∧
    ((vol layout w.img).ino ROOTINO).nlink = 1 ∧
    ((vol layout w.img).ino ROOTINO).size =
      BitVec.ofNat 32 ((16 * w.freeinode / BSIZE + 1) * BSIZE)
  entries : (contents files ROOTINO).length = 16 * w.freeinode

theorem testBit_bitmap {used b : Nat} (hused : used ≤ BSIZE * 8) :
    (bitmap used).testBit b = decide (b < used) := by
  induction used with
  | zero =>
    rw [Bytes.testBit_eq, bitmap]
    simp [Bytes.byte]
  | succ i ih =>
    rw [bitmap, Bytes.testBit_setBit _ (by omega), ih (by omega)]
    by_cases hb : i = b
    · simp [hb]
    · have : b < i + 1 ↔ b < i := by omega
      simp [hb, this]

theorem vol_balloc (hhigh : w.freeblock ≤ FSSIZE) :
    vol layout (w.write .balloc sb.bmapstart (bitmap w.freeblock)).img = mvol w := by
  have hblock : ∀ b < FSSIZE, layout.bblock b = sb.bmapstart := by
    intro b hb
    have hb : b < 1000 := hb
    show b / 8192 + 45 = 45
    omega
  simp only [vol, mvol, World.write, Vol.mk.injEq]
  refine ⟨funext fun b => ?_, funext fun m => ?_, funext fun b => ?_⟩
  · by_cases hb : b < FSSIZE
    · have hmod : b % BPB = b := Nat.mod_eq_of_lt (hb.trans (by decide))
      rw [hblock b hb, update_self, hmod, testBit_bitmap (hhigh.trans (by decide))]
      simp [hb, layout, sb]
    · have hb' : ¬b < layout.size := hb
      simp [hb, hb']
  · split
    next hm =>
      have hne : layout.iblock m ≠ sb.bmapstart := (iblock_range hm).2.ne
      rw [update_of_ne hne]
    · rfl
  · split
    next hb =>
      have hlo : 46 ≤ b := (layout_data.mp hb).1
      have hne : b ≠ sb.bmapstart := by
        have : sb.bmapstart = 45 := rfl
        omega
      rw [update_of_ne hne]
    · rfl

variable {files : List Input}

section
variable (h : Saved w (contents files)) (hinum : w.freeinode = files.length + 2)
  (hlen : (contents files ROOTINO).length = 16 * w.freeinode) (hgood : ∀ f ∈ files, f.Good)
include h hinum hlen hgood

theorem Saved.image {w1 : World} (hready : Ready w1)
    (hsame : w1.freeinode = w.freeinode)
    (hvol : mvol w1 = (mvol w).setIno ROOTINO { (mvol w).ino ROOTINO with
      size := ofNat 32 ((16 * w.freeinode / BSIZE + 1) * BSIZE) }) :
    Image files (w1.write .balloc sb.bmapstart (bitmap w1.freeblock)) := by
  have himg := vol_balloc hready.high
  have hroot := h.inode ROOTINO le_rfl (by rw [hinum]; exact Nat.lt_add_left _ Nat.one_lt_two)
  refine ⟨hgood, hsame.trans hinum, ?_, ?_, ?_, ?_, ?_, ?_, ?_, ?_⟩
  · show update w1.img sb.bmapstart (bitmap w1.freeblock) 1 = superBlock
    rw [update_of_ne (by decide)]
    exact hready.super
  · intro e he hcall
    rcases List.mem_cons.mp he with rfl | he
    · cases hcall
    · exact hready.writes e he hcall
  · intro b hb
    rw [himg]
    show decide (b < FSSIZE ∧ b < w1.freeblock) = decide (b < w1.freeblock)
    simp [hb]
  · rw [himg, hvol]
    refine (h.ok.work ROOTINO).setMeta { (mvol w).ino ROOTINO with
      size := ofNat 32 ((16 * w.freeinode / BSIZE + 1) * BSIZE) } rfl ?_
    intro ht
    exact absurd ht hroot.typed
  · intro m
    rw [himg, hvol]
    exact Vol.Holds.setIno (h.holds m) rfl
  · intro m hm hlt
    rw [himg, hvol, Vol.setIno_ino_ne _ _ hm.ne']
    exact h.inode m hm.le (hsame ▸ hlt)
  · rw [himg, hvol, Vol.setIno_ino_same]
    refine ⟨?_, hroot.nlink, ?_⟩
    · have htype := hroot.type
      rwa [if_pos rfl] at htype
    · show _ = ofNat 32 ((16 * w1.freeinode / BSIZE + 1) * BSIZE)
      rw [hsame]
  · show _ = 16 * w1.freeinode
    rw [hsame]
    exact hlen

theorem wp_finish (hQ : ∀ w', Image files w' → Q () w') :
    (do
      fixRoot ROOTINO
      let used ← .lift .freeblock
      balloc used : MProg Unit).wp (mkWp F) Q w := by
  have hm : ROOTINO < layout.ninodes := by decide
  have hroot := h.inode ROOTINO le_rfl (by rw [hinum]; exact Nat.lt_add_left _ Nat.one_lt_two)
  have hsize : ((mvol w).ino ROOTINO).size.toNat = 16 * w.freeinode := by
    have hle := (h.holds ROOTINO).length_le
    rw [hroot.size, toNat_ofNat, Nat.mod_eq_of_lt (hle.trans_lt (by decide)), hlen]
  rw [wp_bind]
  unfold fixRoot
  rw [wp_bind]
  apply wp_rinode h.ready hm
  rw [hsize]
  apply wp_winode h.ready hm
  intro d hready hvol
  simp only [lift_bind, wp_op, mkWp_freeblock, balloc]
  rw [wp_bind]
  apply wp_assert
  · intro _
    exact hQ _ (h.image hinum hlen hgood hready rfl hvol)
  · intro hlarge
    exact absurd (hready.high.trans_lt (by decide)) hlarge

end

/-- `mkfs` leaves the image, or it stops because it does not take a file or there is no room. -/
theorem wp_build (hfiles : files.length + 2 ≤ layout.ninodes) (hbad : (∃ f ∈ files, ¬f.Good) → F)
    (hF : FSSIZE < nmeta + cost (contents files) (files.length + 2) → F)
    (hQ : ∀ w', Image files w' → Q () w') : (build files).wp (mkWp F) Q .start := by
  unfold build
  simp only [lift_bind, wp_op, mkWp_setFreeblock]
  rw [wp_bind, List.range_eq_range']
  generalize hsize : FSSIZE = size
  apply wp_zeroes size 0 { World.start with freeblock := nmeta } rfl rfl fun e he =>
    absurd he List.not_mem_nil
  intro w himg hlen hwrites hinum hfree
  rw [Nat.zero_add, ← hsize] at hlen
  rw [wp_bind]
  simp only [wsect, wp_lift, mkWp_write]
  have hsaved : Saved (w.write .main 1 superBlock) fun _ => [] := by
    apply Saved.start
    · show update w.img 1 superBlock = _
      rw [himg]
    · show max w.len 2 = FSSIZE
      rw [hlen]
      rfl
    · intro e he
      rcases List.mem_cons.mp he with rfl | he
      · rfl
      · exact hwrites e he
    · exact hinum
    · exact hfree
  rw [wp_bind]
  have hone : (w.write .main 1 superBlock).freeinode = 1 := hinum
  apply wp_ialloc hsaved (by rw [hone]; decide) (by rw [hone]; rfl)
  intro w1 h1 hinum1
  rw [hone] at hinum1 ⊢
  rw [wp_bind]
  apply wp_assert _ (fun hne => absurd rfl hne)
  intro _
  -- the two entries are in one block, and there is room for it
  have hneed : ∀ bs : List (BitVec 8), bs.length ≤ 32 →
      ¬FSSIZE < nmeta + cost (update (fun _ => []) ROOTINO bs) 2 := by
    intro bs hbs
    have hcost : cost (update (fun _ => []) ROOTINO bs) 2 = need bs.length := by
      simp [cost, Finset.sum_range_succ, need]
    have hle : need bs.length ≤ need 32 := need_mono hbs
    have hone : need 32 = 1 := by decide
    rw [hcost]
    show ¬1000 < 46 + need bs.length
    omega
  rw [wp_bind]
  have hmax : 32 < MAXFILE * BSIZE := by decide
  apply wp_iappend h1 le_rfl (by omega)
  · intro hlong
    simp only [List.nil_append, length_dirent] at hlong
    omega
  · intro hfull
    rw [hinum1] at hfull
    exact absurd hfull (hneed _ (by simp [length_dirent]))
  intro w2 h2 hinum2
  rw [wp_bind]
  rw [List.nil_append] at h2
  apply wp_iappend h2 le_rfl (by omega)
  · intro hlong
    rw [update_self, List.length_append, length_dirent, length_dirent] at hlong
    omega
  · intro hfull
    rw [hinum2, hinum1, update_self, update_idem] at hfull
    exact absurd hfull (hneed _ (by simp [length_dirent]))
  intro w3 h3 hinum3
  rw [update_self, update_idem] at h3
  have hthree : w3.freeinode = 2 := by omega
  have hlen3 : (dots ROOTINO).length = 16 * w3.freeinode := by
    rw [dots, update_self, List.length_append, length_dirent, length_dirent, hthree]
  have hnext : w3.freeinode + files.length = files.length + 2 := by omega
  rw [wp_bind]
  apply wp_addFiles files w3 dots h3 (by rw [hthree]; decide) (by omega) hlen3 hbad
  · rw [hnext, hthree]
    exact hF
  · intro w4 h4 hinum4 hlen4 hgood
    rw [hthree] at h4 hlen4
    exact wp_finish h4 (hinum4.trans hnext) hlen4 hgood hQ

end Xv6.Mkfs
