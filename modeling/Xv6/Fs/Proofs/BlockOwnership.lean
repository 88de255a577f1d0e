import Xv6.Fs.Proofs.Contents
import Xv6.Fs.Icache

/-!
# Every block has one owner

The invariant of the volume between calls, with an inode cache that agrees with the disk. Every call
of `fs.c` keeps it, and no sequence of calls frees a block that is free.
-/

namespace Xv6

variable {sb : Superblock} {s : FsState} {disk : Store} {ip : Dinode}

/-- The call returns a value with `P`, or stops the machine for another reason than a block freed
twice. -/
def Outcomes {α : Type} (P : α → Prop) : Except String α → Prop
  | .ok a => P a
  | .error msg => msg ≠ "freeing free block"

theorem Outcomes.bind {α β : Type} {P : β → Prop} {x : Except String α} {f : α → Except String β}
    (h : Outcomes (fun a => Outcomes P (f a)) x) : Outcomes P (x >>= f) := by
  cases x with
  | ok a | error msg => exact h

theorem FsState.outcomes_exec {α : Type} {p : FProg α} {Q : α × Store → Prop}
    (h : p.wp storeWp (fun a w => Q (a, w.disk)) ⟨s.disk, none⟩) : Outcomes Q (s.exec p) := by
  obtain ⟨hsome, hnone⟩ := (Prog.wp_execWp _ p _ _).mp h
  unfold exec
  generalize p.run FOp.exec ⟨s.disk, none⟩ = r at hsome hnone
  obtain ⟨_ | a, w⟩ := r
  · have hmsg : w.msg ≠ some "freeing free block" := hnone rfl
    simp only [Outcomes]
    cases hm : w.msg with
    | none => simp
    | some msg => simpa [hm] using hmsg
  · exact hsome a rfl

/-! ## The invariant between calls -/

/-- The volume is in order, and every valid entry of the cache in use agrees with the disk. -/
structure FsInv (sb : Superblock) (s : FsState) : Prop where
  ok : (vol sb s.disk).Ok sb none []
  range : ∀ e, 1 ≤ (s.inode e).ref → (s.inode e).inum < sb.ninodes
  agree : ∀ e, 1 ≤ (s.inode e).ref → (s.inode e).valid = true →
    (vol sb s.disk).ino (s.inode e).inum = (s.inode e).copy ∧ (s.inode e).copy.type ≠ 0
  unique : ∀ e e', 1 ≤ (s.inode e).ref → 1 ≤ (s.inode e').ref →
    (s.inode e).inum = (s.inode e').inum → e = e'

namespace FsInv

theorem setInode (h : FsInv sb s) (e : Fin NINODE) (ip : Inode)
    (hrange : 1 ≤ ip.ref → ip.inum < sb.ninodes)
    (hagree : 1 ≤ ip.ref → ip.valid = true →
      (vol sb s.disk).ino ip.inum = ip.copy ∧ ip.copy.type ≠ 0)
    (hunique : 1 ≤ ip.ref → ∀ e', e' ≠ e → 1 ≤ (s.inode e').ref → (s.inode e').inum ≠ ip.inum) :
    FsInv sb (s.setInode e ip) := by
  have hsame : (s.setInode e ip).inode e = ip := by simp [FsState.setInode]
  have hne : ∀ e', e' ≠ e → (s.setInode e ip).inode e' = s.inode e' := by
    intro e' he
    simp [FsState.setInode, he]
  refine ⟨h.ok, fun e' => ?_, fun e' => ?_, fun e1 e2 h1 h2 heq => ?_⟩
  · by_cases he : e' = e
    · rw [he, hsame]
      exact hrange
    · rw [hne e' he]
      exact h.range e'
  · by_cases he : e' = e
    · rw [he, hsame]
      exact hagree
    · rw [hne e' he]
      exact h.agree e'
  · by_cases he1 : e1 = e <;> by_cases he2 : e2 = e
    · rw [he1, he2]
    · rw [he1, hsame] at h1 heq
      rw [hne e2 he2] at h2 heq
      exact absurd heq.symm (hunique h1 e2 he2 h2)
    · rw [he2, hsame] at h2 heq
      rw [hne e1 he1] at h1 heq
      exact absurd heq (hunique h2 e1 he1 h1)
    · rw [hne e1 he1] at h1 heq
      rw [hne e2 he2] at h2 heq
      exact h.unique e1 e2 h1 h2 heq

variable {e : Fin NINODE}

section
variable (h : FsInv sb s)
include h

theorem setRef (he : 1 ≤ (s.inode e).ref) (k : Nat) :
    FsInv sb (s.setInode e { s.inode e with ref := k }) :=
  h.setInode e _ (fun _ => h.range e he) (fun _ => h.agree e he)
    fun _ e' hne he' heq => hne (h.unique e' e he' he heq)

/-- A new disk on which one inode has changed, whose entry is the only one that may be valid. -/
theorem setDisk (disk : Store) {n : Nat} (hok : (vol sb disk).Ok sb none [])
    (hino : (vol sb disk).ino = Function.update (vol sb s.disk).ino n ip)
    (hn : ∀ e, 1 ≤ (s.inode e).ref → (s.inode e).valid = true → (s.inode e).inum ≠ n) :
    FsInv sb { s with disk := disk } := by
  refine ⟨hok, h.range, fun e he hv => ?_, h.unique⟩
  have := h.agree e he hv
  rwa [hino, Function.update_of_ne (hn e he hv)]

/-- A call that works on the inode of one entry, and leaves the entry equal to the inode on disk
unless it is no longer valid. -/
theorem change (he : 1 ≤ (s.inode e).ref) (disk : Store)
    (nip : Inode) (hok : (vol sb disk).Ok sb none [])
    (hino : (vol sb disk).ino = Function.update (vol sb s.disk).ino (s.inode e).inum ip)
    (hinum : nip.inum = (s.inode e).inum)
    (hagree : nip.valid = true → ip = nip.copy ∧ nip.copy.type ≠ 0) :
    FsInv sb { s.setInode e nip with disk := disk } := by
  -- forget the entry, change the disk, then put the new entry in its place
  have hdrop := h.setInode e { s.inode e with valid := false }
    (fun _ => h.range e he) nofun fun _ e' hne he' heq => hne (h.unique e' e he' he heq)
  have hdisk := hdrop.setDisk disk hok hino fun e' he' hv => by
    by_cases hee : e' = e
    · subst hee
      simp [FsState.setInode] at hv
    · simp only [FsState.setInode, Function.update_of_ne hee] at he' hv ⊢
      exact fun heq => hee (h.unique e' e he' he heq)
  have hfin := hdisk.setInode e nip (fun _ => hinum ▸ h.range e he)
    (fun _ hv => by
      obtain ⟨hip, htype⟩ := hagree hv
      refine ⟨?_, htype⟩
      rw [hinum, ← hip]
      exact (congrFun hino _).trans (Function.update_self ..))
    fun _ e' hne he' heq => by
      simp only [FsState.setInode, Function.update_of_ne hne] at he' heq
      exact hne (h.unique e' e he' he (heq.trans hinum))
  simpa [FsState.setInode] using hfin

theorem settle (he : 1 ≤ (s.inode e).ref) (hok : (vol sb disk).Ok sb none [])
    (hino : (vol sb disk).ino = Function.update (vol sb s.disk).ino (s.inode e).inum ip)
    (htype : ip.type ≠ 0) : FsInv sb (s.settle e ip disk) :=
  h.change he _ _ hok hino rfl fun _ => ⟨rfl, htype⟩

end

/-! ## Calls -/

theorem iget (h : FsInv sb s) {inum : Nat} (hn : inum < sb.ninodes) :
    Outcomes (fun r => FsInv sb r.2) (s.iget inum) := by
  unfold FsState.iget
  split
  next e hfind =>
    have he : 0 < (s.inode e).ref ∧ (s.inode e).inum = inum := by simpa using List.find?_some hfind
    exact h.setRef he.1 _
  next hnone =>
    split
    next e _ =>
      refine h.setInode _ _ (fun _ => hn) nofun fun _ e' _ he' heq => ?_
      have := List.find?_eq_none.mp hnone e' (List.mem_finRange e')
      exact this (by simpa using ⟨he', heq⟩)
    · simp [Outcomes]

section
variable (hsb : sb.Wf) (h : FsInv sb s) (he : 1 ≤ (s.inode e).ref) (hv : (s.inode e).valid = true)
  (sp : Space)
include hsb h he hv

omit he hv in
theorem ialloc (type : BitVec 16) : Outcomes (FsInv sb) ((FsCall.ialloc type).step sb s) := by
  refine Outcomes.bind (FsState.outcomes_exec ?_)
  refine wp_ialloc hsb type fun n w' _ hn hfree hw' => ?_
  have hmeta := (h.ok.work n).setMeta (.fresh type)
    (funext fun i => (h.ok.free n hfree i).symm) (fun _ _ => rfl)
  have hok : (vol sb w'.disk).Ok sb none [] := by
    rw [hw']
    refine hmeta.done fun bn hbn => ?_
    rw [Vol.setIno_ino_same] at hbn
    exact absurd hbn (Nat.not_lt_zero _)
  have hdisk := h.setDisk _ hok (congrArg Vol.ino hw') fun e he hv heq => by
    obtain ⟨hcopy, htype⟩ := h.agree e he hv
    rw [heq] at hcopy
    exact htype (by rw [← hcopy, hfree])
  refine Outcomes.bind ?_
  have hget := hdisk.iget hn
  generalize ({ s with disk := w'.disk } : FsState).iget n = r at hget
  cases r with
  | ok a | error msg => exact hget

omit hsb hv in
theorem ilock : Outcomes (FsInv sb) (s.ilock sb e) := by
  unfold FsState.ilock
  rw [if_neg (by omega)]
  split
  · exact h
  refine Outcomes.bind (FsState.outcomes_exec (wp_iread (h.range e he) ?_))
  simp only
  split
  · simp [Outcomes]
  next htype =>
    exact h.setInode e _ (fun _ => h.range e he) (fun _ _ => ⟨rfl, htype⟩)
      fun _ e' hne he' heq => hne (h.unique e' e he' he heq)

theorem update (major minor nlink : BitVec 16) :
    Outcomes (FsInv sb) ((FsCall.update e major minor nlink).step sb s) := by
  obtain ⟨hcopy, htype⟩ := h.agree e he hv
  refine Outcomes.bind (FsState.outcomes_exec (wp_iupdate hsb (h.range e he) fun w' hw' => ?_))
  have hmeta := (h.ok.work (s.inode e).inum).setMeta
    { (s.inode e).copy with major := major, minor := minor, nlink := nlink }
    (by rw [hcopy]) (fun ht => absurd ht htype)
  rw [← hw'] at hmeta
  refine h.settle he (hmeta.done ?_) (by rw [hw']; rfl) htype
  refine (h.ok.whole _ nofun).congr (fun x _ => ?_) ?_
  · rw [hw']
    exact congrFun (Vol.ref_setIno_of_addrs (by rw [hcopy])) x
  · rw [hw', Vol.setIno_ino_same, hcopy]

theorem itrunc : Outcomes (FsInv sb) ((FsCall.itrunc e).step sb s) := by
  obtain ⟨hcopy, htype⟩ := h.agree e he hv
  refine Outcomes.bind (FsState.outcomes_exec (wp_itrunc hsb (h.range e he) ?_ ?_))
  · rw [← hcopy, volAt, Vol.setIno_self]
    exact h.ok.work _
  · exact fun w' hok hino _ => h.settle he hok hino htype

theorem readi (dst : Nat) (off n : BitVec 32) :
    Outcomes (fun s' => s' = s) ((FsCall.readi e sp dst off n).step sb s) := by
  obtain ⟨hcopy, htype⟩ := h.agree e he hv
  have hself : volAt sb (s.inode e).inum (s.inode e).copy ⟨s.disk, none⟩ = vol sb s.disk := by
    rw [← hcopy, volAt, Vol.setIno_self]
  refine Outcomes.bind (FsState.outcomes_exec
    (wp_readi (n := (s.inode e).inum) hsb ?_ htype ?_ sp dst off n fun tot sp' => ?_))
  · rw [hself]
    exact h.ok.work _
  · rw [hself]
    exact h.ok.whole _ (by simp)
  · simp [Outcomes, FsState.settle, FsState.setInode]

theorem writei (src : Nat) (off n : BitVec 32) :
    Outcomes (FsInv sb) ((FsCall.writei e sp src off n).step sb s) := by
  obtain ⟨hcopy, htype⟩ := h.agree e he hv
  refine Outcomes.bind (FsState.outcomes_exec
    (wp_writei (w := ⟨s.disk, none⟩) hsb (h.range e he) h.ok hcopy htype sp src off n
      fun r ip' w' hok ht hino => ?_))
  exact h.settle he hok hino (by rwa [ht])

omit hv in
theorem iput : Outcomes (FsInv sb) (s.iput sb e) := by
  unfold FsState.iput
  split
  next hlast =>
    obtain ⟨hcopy, htype⟩ := h.agree e he hlast.2.1
    refine Outcomes.bind (FsState.outcomes_exec (wp_itrunc hsb (h.range e he) ?_ ?_))
    · rw [← hcopy, volAt, Vol.setIno_self]
      exact h.ok.work _
    intro w1 hok1 hino1 _
    have hinv1 := h.settle he hok1 hino1 htype
    -- the second `iupdate` only clears the type of the empty inode
    dsimp only
    generalize hs1 : s.settle e { (s.inode e).copy with addrs := fun _ => 0, size := 0 } w1.disk = s1
      at hinv1 ⊢
    have hentry : s1.inode e =
        { s.inode e with copy := { (s.inode e).copy with addrs := fun _ => 0, size := 0 } } := by
      simp [← hs1, FsState.settle, FsState.setInode]
    have he1 : 1 ≤ (s1.inode e).ref := by rwa [hentry]
    have hcopy1 := (hinv1.agree e he1 (by rw [hentry]; exact hlast.2.1)).1
    refine Outcomes.bind (FsState.outcomes_exec
      (wp_iupdate hsb (hinv1.range e he1) fun w2 hw2 => ?_))
    have hmeta := (hinv1.ok.work (s1.inode e).inum).setMeta
      { (s1.inode e).copy with type := 0 } (by rw [hcopy1])
      (fun _ i => by rw [hentry])
    have hcopy2 : (s1.inode e).copy =
        { (s.inode e).copy with addrs := fun _ => 0, size := 0 } := by rw [hentry]
    rw [hcopy2, ← hw2] at hmeta
    have hok2 : (vol sb w2.disk).Ok sb none [] := by
      refine hmeta.done fun bn hbn => ?_
      rw [hw2, Vol.setIno_ino_same] at hbn
      exact absurd hbn (Nat.not_lt_zero _)
    have hfin := hinv1.change he1 w2.disk
      { s1.inode e with
        copy := { (s.inode e).copy with addrs := fun _ => 0, size := 0, type := 0 }
        valid := false
        ref := (s1.inode e).ref - 1 }
      hok2 (by rw [hw2]; rfl) rfl (by simp)
    simpa [Outcomes, FsState.settle, FsState.setInode] using hfin
  · exact h.setRef he _

omit he hv in
theorem step (c : FsCall) (hc : c.Allowed sb s) : Outcomes (FsInv sb) (c.step sb s) := by
  cases c with
  | ialloc type => exact h.ialloc hsb type
  | iget inum =>
    refine Outcomes.bind ?_
    have hget := h.iget hc.2
    generalize s.iget inum = r at hget
    cases r with
    | ok a | error msg => exact hget
  | idup e => exact h.setRef hc _
  | ilock e => exact h.ilock hc
  | update e major minor nlink => exact h.update hsb hc.1 hc.2 major minor nlink
  | itrunc e => exact h.itrunc hsb hc.1 hc.2
  | readi e sp dst off n =>
    have hread := h.readi hsb hc.1 hc.2 sp dst off n
    generalize (FsCall.readi e sp dst off n).step sb s = r at hread
    cases r with
    | ok s' => exact hread ▸ h
    | error msg => exact hread
  | writei e sp src off n => exact h.writei hsb hc.1 hc.2 sp src off n
  | iput e => exact h.iput hsb hc

end

theorem run (hsb : sb.Wf) {s0 : FsState} (h0 : FsInv sb s0) (h : FsRun sb s0 s) : FsInv sb s := by
  induction h with
  | refl => exact h0
  | call c _ hc hs ih =>
    have := ih.step hsb c hc
    rwa [hs] at this

end FsInv

/-! ## Consistent images -/

theorem Vol.Ok.named {v : Vol} (h : v.Ok sb none []) {x : Slot} {b : Nat} (hx : v.ref x = some b) :
    (v.ino x.inum).type ≠ 0 := by
  intro ht
  have hnone : ∀ i, v.ref (.addr x.inum i) = none := fun i => by simp [Vol.ref, h.free _ ht i]
  cases x with
  | addr n i => exact absurd (hx.symm.trans (hnone i)) (Option.some_ne_none b)
  | entry n j => exact absurd (hx.symm.trans (Vol.ref_entry_none v (hnone _) j)) (Option.some_ne_none b)

theorem Vol.Ok.consistent (h : (vol sb disk).Ok sb none []) : Consistent sb disk := by
  refine ⟨fun b hb => ?_, fun x y b => h.owned.inj, fun x b hx => ⟨h.owned.dom_ref hx, h.named hx⟩,
    fun n => h.whole n nofun⟩
  by_cases hsys : b < sb.datastart
  · simp [hsys, h.system b hsys hb]
  · rw [h.owned.used_iff_unique ⟨not_lt.mp hsys, hb⟩]
    simp [hsys]

theorem Consistent.ok (h : Consistent sb disk) : (vol sb disk).Ok sb none [] where
  owned :=
    { dom_ref := fun hx => (h.named _ _ hx).1
      inj := fun hx hy => h.once _ _ _ hx hy
      dom_pend := by simp
      nodup := List.nodup_nil
      apart := by simp
      used_iff := by
        intro b hb
        rw [h.marked b hb.2]
        constructor
        · rintro (hlt | ⟨x, hx, -⟩)
          · exact absurd hb.1 (not_le.mpr hlt)
          · exact .inl ⟨x, hx⟩
        · rintro (⟨x, hx⟩ | hmem)
          · exact .inr ⟨x, hx, fun y hy => h.once _ _ _ hy hx⟩
          · cases hmem }
  system := fun b hb hb' => (h.marked b hb').mpr (.inl hb)
  free := by
    intro n ht i
    by_contra hi
    have hx : (vol sb disk).ref (.addr n i) = some (((vol sb disk).ino n).addrs i).toNat :=
      blockRef_eq_some.mpr ⟨hi, rfl⟩
    exact (h.named _ _ hx).2 ht
  whole := fun n _ => h.whole n

/-- Block ownership. After every sequence of calls from a consistent image the image is consistent;
free inodes name no block and no two files share one; no call frees a free block; and `readi` changes
nothing. -/
theorem block_ownership (hsb : sb.Wf) {s0 s : FsState} (h0 : Consistent sb s0.disk)
    (hcache : ∀ e, (s0.inode e).ref = 0) (h : FsRun sb s0 s) :
    Consistent sb s.disk ∧
    (∀ x : Slot, ((vol sb s.disk).ino x.inum).type = 0 → (vol sb s.disk).ref x = none) ∧
    (∀ n m bn bm b, (vol sb s.disk).block n bn = some b → (vol sb s.disk).block m bm = some b →
      n = m) ∧
    (∀ c : FsCall, c.Allowed sb s → c.step sb s ≠ .error "freeing free block") ∧
    ∀ e sp dst off n s', (FsCall.readi e sp dst off n).Allowed sb s →
      (FsCall.readi e sp dst off n).step sb s = .ok s' → s' = s := by
  have hempty : ∀ e, ¬ 1 ≤ (s0.inode e).ref := fun e => by simp [hcache e]
  have hinv0 : FsInv sb s0 := ⟨h0.ok, fun e he => absurd he (hempty e),
    fun e he => absurd he (hempty e), fun e _ he => absurd he (hempty e)⟩
  have hinv := FsInv.run hsb hinv0 h
  refine ⟨hinv.ok.consistent, fun x hx => ?_, fun n m bn bm b hn hm => ?_, fun c hc herr => ?_,
    fun e sp dst off n s' hc hs => ?_⟩
  · by_contra hne
    obtain ⟨b, hb⟩ := Option.ne_none_iff_exists'.mp hne
    exact hinv.ok.named hb hx
  · obtain ⟨x, hx, hxb⟩ := Option.bind_eq_some_iff.mp hn
    obtain ⟨y, hy, hyb⟩ := Option.bind_eq_some_iff.mp hm
    obtain rfl := hinv.ok.owned.inj hxb hyb
    rw [← Slot.ofBlock_inum hx, ← Slot.ofBlock_inum hy]
  · have := hinv.step hsb c hc
    rw [herr] at this
    exact this rfl
  · have := hinv.readi hsb hc.1 hc.2 sp dst off n
    rwa [hs] at this

/-- A small image: two free inode blocks' worth of inodes, and data blocks 4 and 5. -/
def tinySuperblock : Superblock where
  size := 6
  ninodes := 4
  nlog := 0
  logstart := 2
  inodestart := 2
  bmapstart := 3

/-- The metadata blocks of the small image are marked and everything else is clear. -/
def tinyDisk : Store := fun b => if b = 3 then (fun j => if j = 0 then 15 else 0) else fun _ => 0

theorem tiny_consistent : Consistent tinySuperblock tinyDisk := by
  have hino : ∀ n, (vol tinySuperblock tinyDisk).ino n = .fresh 0 := by
    intro n
    by_cases hn : n < tinySuperblock.ninodes
    · have hblk : tinySuperblock.iblock n = 2 := by
        simp only [tinySuperblock, Superblock.iblock, IPB, BSIZE] at hn ⊢
        omega
      rw [vol_ino hn, hblk]
      exact Dinode.read_zero _
    · simp [vol, hn]
  have href : ∀ x, (vol tinySuperblock tinyDisk).ref x = none := by
    intro x
    have haddr : ∀ n i, (vol tinySuperblock tinyDisk).ref (.addr n i) = none := fun n i => by
      simp [Vol.ref, hino, Dinode.fresh]
    cases x with
    | addr n i => exact haddr n i
    | entry n j => exact Vol.ref_entry_none _ (haddr n _) j
  have hused : ∀ b : Fin 6, (vol tinySuperblock tinyDisk).used b.val = decide (b.val < 4) := by
    decide +kernel
  refine ⟨fun b hb => ?_, fun x y b hx => ?_, fun x b hx => ?_, fun n bn hbn => ?_⟩
  · rw [hused ⟨b, hb⟩]
    have hstart : tinySuperblock.datastart = 4 := by decide
    simp [href, hstart]
  · simp [href] at hx
  · simp [href] at hx
  · rw [hino] at hbn
    exact absurd hbn (Nat.not_lt_zero _)

/-- The first write to a new file takes block 4. -/
theorem block_ownership_first_write :
    ∃ s, FsCall.run tinySuperblock [.ialloc 2, .ilock 0, .writei 0 (.kernel fun _ => 7) 0 0 5]
        ⟨tinyDisk, fun _ => ⟨0, 0, false, .fresh 0⟩⟩ = some s ∧
      (vol tinySuperblock s.disk).ref (.addr 1 0) = some 4 ∧ Consistent tinySuperblock s.disk := by
  have hrun : ((FsCall.run tinySuperblock [.ialloc 2, .ilock 0, .writei 0 (.kernel fun _ => 7) 0 0 5]
      ⟨tinyDisk, fun _ => ⟨0, 0, false, .fresh 0⟩⟩).map fun s =>
        (vol tinySuperblock s.disk).ref (.addr 1 0)) = some (some 4) := by
    decide +kernel
  obtain ⟨s, hs, href⟩ := Option.map_eq_some_iff.mp hrun
  exact ⟨s, hs, href, (block_ownership ⟨by decide, by decide⟩ tiny_consistent (fun _ => rfl)
    (FsRun.refl.of_run _ hs)).1⟩

end Xv6
