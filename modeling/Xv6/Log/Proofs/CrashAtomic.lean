import Xv6.Log.Crash

/-!
# Crash atomicity of the redo log

`logical d` is the file system that a complete recovery of the disk `d` would leave. Every block
write of a commit leaves it alone, except the write of the header that lists the transaction, which
applies the whole transaction at once. Recovery never changes it, at any of its own writes, so a
recovery may be cut and rerun at will.
-/

namespace Xv6.Crash

open List (mem_map snd_lt_of_mem_zipIdx append_nil map_append map mem_append map_map length_nil)
open Prog (wp_bind wp_lift wp_op lift_bind wp_pure wp_mono wp_execWp)

section

variable {sb : Superblock} {E : View → Prop} {b : Nat} {w : Nat × Block}

/-! ## Programs on views -/

def View.Idle (a : View) : Prop := a.held = [] ∧ a.ready = []

@[simp] theorem wp_bread (b : Nat) (Q : Block → View → Prop) (a : View) :
    (bread b).wp (viewWp sb E) Q a ↔
      Q (a.seen b) { a with held := b :: a.held, ready := b :: a.ready } := by
  simp [bread, viewWp]

@[simp] theorem wp_brelse (b : Nat) (Q : Unit → View → Prop) (a : View) :
    (brelse b).wp (viewWp sb E) Q a ↔
      (b ∈ a.pinned ∨ a.seen b = a.disk b) ∧
        Q () { a with held := a.held.erase b, ready := a.ready.filter (· ≠ b) } := by
  simp [brelse, viewWp]

/-- A view after some writes that went both to buffers and to the disk. -/
def View.wrote (a : View) (ws : List (Nat × Block)) : View :=
  { a with seen := applyWrites a.seen ws, disk := applyWrites a.disk ws, trace := a.trace ++ ws }

variable (a : View) {tail : Nat}

theorem View.wrote_append (ws vs : List (Nat × Block)) :
    a.wrote (ws ++ vs) = (a.wrote ws).wrote vs := by
  simp [View.wrote, applyWrites_append]

@[simp] theorem View.wrote_nil (a : View) : a.wrote [] = a := by simp [View.wrote]

/-- The write of the header that `write_head` makes. -/
def headWrite (sb : Superblock) (a : View) : Nat × Block :=
  (sb.logstart, putHead (a.seen sb.logstart) a.lh)

variable (Q : Unit → View → Prop)

theorem wp_writeHead (h : a.Idle)
    (hQ : Q () (a.wrote [headWrite sb a])) : (writeHead sb).wp (viewWp sb E) Q a := by
  obtain ⟨hh, hr⟩ := h
  simp only [writeHead, wp_bind, wp_bread, wp_lift, viewWp, wp_brelse]
  simpa [hh, hr, View.wrote, headWrite] using hQ

theorem wp_readHead (h : a.Idle) (hclean : a.seen sb.logstart = a.disk sb.logstart)
    (hQ : Q () { a with lh := headBlocks (a.seen sb.logstart) }) :
    (readHead sb).wp (viewWp sb E) Q a := by
  obtain ⟨hh, hr⟩ := h
  simp only [readHead, wp_bind, wp_bread, wp_lift, viewWp, wp_brelse]
  refine ⟨Or.inr hclean, ?_⟩
  simpa [hh, hr] using hQ

/-- The writes of `write_log` for the header `lh`. -/
def logWrites (sb : Superblock) (lh : List Nat) (seen : Nat → Block) : List (Nat × Block) :=
  lh.zipIdx.map fun p => (sb.logstart + p.2 + 1, seen p.1)

theorem wp_writeLogBlock (h : a.Idle) (hne : b ≠ sb.logstart + tail + 1) (hpin : b ∈ a.pinned)
    (hQ : Q () (a.wrote [(sb.logstart + tail + 1, a.seen b)])) :
    (writeLogBlock sb (b, tail)).wp (viewWp sb E) Q a := by
  obtain ⟨hh, hr⟩ := h
  simp only [writeLogBlock, wp_bind, wp_bread, wp_lift, viewWp, wp_brelse]
  simp only [hh, hr, View.wrote] at hQ ⊢
  simpa [hpin, hne, Ne.symm hne] using hQ

theorem mem_logWrites_inLog (lh : List Nat) (seen : Nat → Block) (hlen : lh.length < sb.nlog)
    (hw : w ∈ logWrites sb lh seen) : sb.InLog w.1 ∧ w.1 ≠ sb.logstart := by
  obtain ⟨⟨b, t⟩, hp, rfl⟩ := mem_map.mp hw
  have ht : t < lh.length := snd_lt_of_mem_zipIdx hp
  simp only [Superblock.InLog]
  omega

theorem wp_writeLog (h : a.Idle) (hhome : ∀ b ∈ a.lh, ¬ sb.InLog b) (hlen : a.lh.length < sb.nlog)
    (hpin : ∀ b ∈ a.lh, b ∈ a.pinned) (hQ : Q () (a.wrote (logWrites sb a.lh a.seen))) :
    (writeLog sb).wp (viewWp sb E) Q a := by
  -- the assertion says which entries have been copied
  let I : List (Nat × Nat) → View → Prop := fun rest a' =>
    ∃ done, done ++ rest = a.lh.zipIdx ∧
      a' = a.wrote (done.map fun p => (sb.logstart + p.2 + 1, a.seen p.1))
  refine wp_mono (viewWp_mono sb E) _ ?_
    (Prog.wp_forEach (viewWp_mono sb E) I ?_ a.lh.zipIdx a ⟨[], by simp⟩)
  · rintro - a' ⟨done, hdone, rfl⟩
    rw [append_nil] at hdone
    rwa [hdone]
  · rintro ⟨b, t⟩ rest a' ⟨done, hdone, rfl⟩
    have hmem : (b, t) ∈ a.lh.zipIdx := by rw [← hdone]; simp
    have hb : b ∈ a.lh := List.fst_mem_of_mem_zipIdx hmem
    have ht : t < a.lh.length := snd_lt_of_mem_zipIdx hmem
    have hbhome := hhome b hb
    apply wp_writeLogBlock
    · exact h
    · intro heq
      apply hbhome
      simp only [Superblock.InLog]
      omega
    · exact hpin b hb
    · refine ⟨done ++ [(b, t)], by simpa using hdone, ?_⟩
      have hseen : (a.wrote (done.map fun p => (sb.logstart + p.2 + 1, a.seen p.1))).seen b =
          a.seen b := by
        apply applyWrites_of_notMem
        intro hmem'
        obtain ⟨w, hw, rfl⟩ := mem_map.mp hmem'
        apply hbhome
        refine (mem_logWrites_inLog a.lh a.seen hlen ?_).1
        obtain ⟨p, hp, rfl⟩ := mem_map.mp hw
        exact mem_map.mpr ⟨p, by rw [← hdone]; simp [hp], rfl⟩
      rw [hseen, map_append, View.wrote_append]
      rfl

/-- The writes of `install_trans` for the header `lh`, with the logged blocks as `d` holds them. -/
def installWrites (sb : Superblock) (lh : List Nat) (d : Nat → Block) : List (Nat × Block) :=
  lh.zipIdx.map fun p => (p.1, d (sb.logstart + p.2 + 1))

variable {lh : List Nat} {d : Nat → Block}

theorem fst_mem_of_installWrites (hw : w ∈ installWrites sb lh d) : w.1 ∈ lh := by
  obtain ⟨p, hp, rfl⟩ := mem_map.mp hw
  exact List.fst_mem_of_mem_zipIdx hp

theorem wp_installBlock (h : a.Idle) (hne : b ≠ sb.logstart + tail + 1)
    (hclean : a.seen (sb.logstart + tail + 1) = a.disk (sb.logstart + tail + 1))
    (hQ : Q () { a.wrote [(b, a.seen (sb.logstart + tail + 1))] with pinned := a.pinned.erase b }) :
    (installBlock sb (b, tail)).wp (viewWp sb E) Q a := by
  obtain ⟨hh, hr⟩ := h
  simp only [installBlock, wp_bind, wp_bread, wp_lift, viewWp, wp_brelse]
  simp only [hh, hr, View.wrote] at hQ ⊢
  have hw : ∀ (d : Nat → Block) (v : Block),
      writeAt d (b, v) (sb.logstart + tail + 1) = d (sb.logstart + tail + 1) :=
    fun d v => writeAt_ne _ _ (Ne.symm hne)
  simpa [hne, Ne.symm hne, hw, hclean] using hQ

/-- `install_trans` writes the logged blocks home. What it unpins is left open: in a recovery
nothing was pinned. -/
theorem wp_installTrans (h : a.Idle)
    (hhome : ∀ b ∈ a.lh, ¬ sb.InLog b) (hlen : a.lh.length < sb.nlog)
    (hclean : ∀ t < a.lh.length, a.seen (sb.logstart + t + 1) = a.disk (sb.logstart + t + 1))
    (hQ : ∀ pinned, Q () { a.wrote (installWrites sb a.lh a.seen) with pinned := pinned }) :
    (installTrans sb).wp (viewWp sb E) Q a := by
  let ws : List (Nat × Nat) → List (Nat × Block) :=
    map fun p => (p.1, a.seen (sb.logstart + p.2 + 1))
  let I : List (Nat × Nat) → View → Prop := fun rest a' =>
    ∃ done pinned, done ++ rest = a.lh.zipIdx ∧ a' = { a.wrote (ws done) with pinned := pinned }
  refine wp_mono (viewWp_mono sb E) _ ?_
    (Prog.wp_forEach (viewWp_mono sb E) I ?_ a.lh.zipIdx a ⟨[], a.pinned, by simp [ws]⟩)
  · rintro - a' ⟨done, pinned, hdone, rfl⟩
    rw [append_nil] at hdone
    have := hQ pinned
    rwa [installWrites, ← hdone] at this
  · rintro ⟨b, t⟩ rest a' ⟨done, pinned, hdone, rfl⟩
    have hmem : (b, t) ∈ a.lh.zipIdx := by rw [← hdone]; simp
    have hb : b ∈ a.lh := List.fst_mem_of_mem_zipIdx hmem
    have ht : t < a.lh.length := snd_lt_of_mem_zipIdx hmem
    have hlog : sb.InLog (sb.logstart + t + 1) := by
      simp only [Superblock.InLog]
      omega
    -- home writes leave the logged block alone
    have hout : sb.logstart + t + 1 ∉ (ws done).map Prod.fst := by
      intro hm
      obtain ⟨w, hw, heq⟩ := mem_map.mp hm
      obtain ⟨p, hp, rfl⟩ := mem_map.mp hw
      have hpz : p ∈ a.lh.zipIdx := by rw [← hdone]; simp [hp]
      exact hhome p.1 (List.fst_mem_of_mem_zipIdx hpz) (by simpa [← heq] using hlog)
    have hseen : applyWrites a.seen (ws done) (sb.logstart + t + 1) = a.seen (sb.logstart + t + 1) :=
      applyWrites_of_notMem _ _ hout
    have hdisk : applyWrites a.disk (ws done) (sb.logstart + t + 1) = a.disk (sb.logstart + t + 1) :=
      applyWrites_of_notMem _ _ hout
    apply wp_installBlock
    · exact h
    · rintro rfl
      exact hhome _ hb hlog
    · simp only [View.wrote, hseen, hdisk, hclean t ht]
    · refine ⟨done ++ [(b, t)], pinned.erase b, by simpa using hdone, ?_⟩
      simp only [View.wrote, hseen, ws, map_append, applyWrites_append]
      simp [applyWrites]

theorem installWrites_congr {e : Nat → Block}
    (h : ∀ t < lh.length, d (sb.logstart + t + 1) = e (sb.logstart + t + 1)) :
    installWrites sb lh d = installWrites sb lh e := by
  apply List.map_congr_left
  rintro ⟨b, t⟩ hp
  rw [h t (snd_lt_of_mem_zipIdx hp)]

/-- The writes of a commit of `lh`, where the buffers hold `seen`: the log, the header, the home
blocks, and the empty header. -/
def commitWrites (sb : Superblock) (lh : List Nat) (seen d : Nat → Block) (old old' : Block) :
    List (Nat × Block) :=
  logWrites sb lh seen ++ [(sb.logstart, putHead old lh)] ++
    installWrites sb lh (writeAt (applyWrites d (logWrites sb lh seen))
      (sb.logstart, putHead old lh)) ++
    [(sb.logstart, putHead old' [])]

theorem fst_mem_commitWrites {seen : Nat → Block} {old old' : Block}
    (hb : b ∈ lh) : b ∈ (commitWrites sb lh seen d old old').map Prod.fst := by
  obtain ⟨t, ht, rfl⟩ := List.mem_iff_getElem.mp hb
  have hmem : (lh[t], t) ∈ lh.zipIdx := List.mk_mem_zipIdx_iff_getElem?.mpr (by simp)
  simp only [commitWrites, map_append, mem_append, installWrites, map_map]
  exact Or.inl (Or.inr (mem_map.mpr ⟨_, hmem, rfl⟩))

theorem wp_commit_stages (h : a.Idle) (hne : a.lh ≠ [])
    (hhome : ∀ b ∈ a.lh, ¬ sb.InLog b) (hlen : a.lh.length < sb.nlog)
    (hpin : ∀ b ∈ a.lh, b ∈ a.pinned)
    (hQ : ∀ pinned old old', Q () { a.wrote (commitWrites sb a.lh a.seen a.disk old old') with
      pinned := pinned, lh := [] }) :
    (commit sb).wp (viewWp sb E) Q a := by
  have hpos : a.lh.length > 0 := List.length_pos_iff.mpr hne
  simp only [commit, lift_bind, wp_op, viewWp, if_pos hpos, wp_bind]
  apply wp_writeLog _ _ h hhome hlen hpin
  apply wp_writeHead
  · exact h
  -- every logged copy is now on disk
  have hsame : ∀ t < a.lh.length,
      applyWrites a.seen (logWrites sb a.lh a.seen) (sb.logstart + t + 1) =
        applyWrites a.disk (logWrites sb a.lh a.seen) (sb.logstart + t + 1) := by
    intro t ht
    apply applyWrites_congr
    refine Or.inl (mem_map.mpr ⟨(sb.logstart + t + 1, a.seen a.lh[t]), ?_, rfl⟩)
    exact mem_map.mpr ⟨(a.lh[t], t), List.mk_mem_zipIdx_iff_getElem?.mpr (by simp), rfl⟩
  have hsame' : ∀ w : Nat × Block, w.1 = sb.logstart → ∀ t < a.lh.length,
      writeAt (applyWrites a.seen (logWrites sb a.lh a.seen)) w (sb.logstart + t + 1) =
        writeAt (applyWrites a.disk (logWrites sb a.lh a.seen)) w (sb.logstart + t + 1) := by
    intro w hw t ht
    rw [writeAt_ne _ _ (by omega), writeAt_ne _ _ (by omega), hsame t ht]
  apply wp_installTrans
  · exact h
  · exact hhome
  · exact hlen
  · exact hsame' _ rfl
  · intro pinned
    apply wp_writeHead
    · exact h
    · have hinst : installWrites sb a.lh _ = _ := installWrites_congr (hsame' (headWrite sb
        (a.wrote (logWrites sb a.lh a.seen))) rfl)
      have := hQ pinned (applyWrites a.seen (logWrites sb a.lh a.seen) sb.logstart)
      simp only [View.wrote, headWrite, commitWrites, applyWrites_append, applyWrites_cons,
        applyWrites_nil, List.append_assoc] at this hinst ⊢
      rw [hinst]
      exact this _

end

/-! ## The file system that recovery leaves -/

section

variable (sb : Superblock) {lh : List Nat} {vs : List (Nat × Block)} (old : Block)

/-- The blocks that the log header on `d` lists lie outside the log, and their copies inside. -/
structure LogWf (d : Nat → Block) : Prop where
  home : ∀ b ∈ headBlocks (d sb.logstart), ¬ sb.InLog b
  fits : (headBlocks (d sb.logstart)).length < sb.nlog

/-- The disk after a complete recovery, as far as it differs from `d` outside the log. -/
def logical (d : Nat → Block) : Nat → Block :=
  applyWrites d (installWrites sb (headBlocks (d sb.logstart)) d)

/-- The disk `d` recovers to the file system `fs`. -/
def RecoversTo (fs d : Nat → Block) : Prop :=
  LogWf sb d ∧ ∀ b, ¬ sb.InLog b → logical sb d b = fs b

/-- Whatever prefix of the writes `ws` reaches the disk `d`, the disk recovers to the file system
`after k'`, where `k'` is `k` plus the number of commits in that prefix. -/
def SafeFrom (after : Nat → Nat → Block) (k : Nat) (d : Nat → Block) (ws : List (Nat × Block)) :
    Prop :=
  ∀ j, RecoversTo sb (after (k + commits sb (ws.take j))) (applyWrites d (ws.take j))

variable {sb} {after : Nat → Nat → Block} {k : Nat} {d : Nat → Block}

variable {ws : List (Nat × Block)}

theorem SafeFrom.all (h : SafeFrom sb after k d ws) :
    RecoversTo sb (after (k + commits sb ws)) (applyWrites d ws) := by
  have := h ws.length
  rwa [List.take_length] at this

theorem safeFrom_nil (h : RecoversTo sb (after k) d) : SafeFrom sb after k d [] := by
  intro j
  simpa [commits] using h

theorem commits_append (ws vs : List (Nat × Block)) :
    commits sb (ws ++ vs) = commits sb ws + commits sb vs := by
  simp [commits, List.countP_append]

theorem SafeFrom.append (hws : SafeFrom sb after k d ws)
    (hvs : SafeFrom sb after (k + commits sb ws) (applyWrites d ws) vs) :
    SafeFrom sb after k d (ws ++ vs) := by
  intro j
  rcases Nat.le_total j ws.length with hj | hj
  · rw [List.take_append_of_le_length hj]
    exact hws j
  · have hsplit : (ws ++ vs).take j = ws ++ vs.take (j - ws.length) := by
      rw [List.take_append, List.take_of_length_le hj]
    rw [hsplit, commits_append, applyWrites_append, ← Nat.add_assoc]
    exact hvs (j - ws.length)

theorem safeFrom_singleton {w : Nat × Block} (h : RecoversTo sb (after k) d)
    (hw : RecoversTo sb (after (k + commits sb [w])) (writeAt d w)) :
    SafeFrom sb after k d [w] := by
  intro j
  cases j with
  | zero => simpa [commits] using h
  | succ j => simpa using hw

theorem logical_of_empty (h : headBlocks (d sb.logstart) = []) : logical sb d = d := by
  simp [logical, h, installWrites]

theorem commits_eq_zero (h : ∀ w ∈ ws, w.1 ≠ sb.logstart) : commits sb ws = 0 := by
  rw [commits, List.countP_eq_zero]
  intro w hw
  simp [h w hw]

theorem safeFrom_logWrites (h : RecoversTo sb (after k) d)
    (hempty : headBlocks (d sb.logstart) = []) (hws : ∀ w ∈ ws, sb.InLog w.1 ∧ w.1 ≠ sb.logstart) :
    SafeFrom sb after k d ws := by
  intro j
  have hin : ∀ w ∈ ws.take j, sb.InLog w.1 ∧ w.1 ≠ sb.logstart :=
    fun w hw => hws w (List.mem_of_mem_take hw)
  have hhead : applyWrites d (ws.take j) sb.logstart = d sb.logstart := by
    apply applyWrites_of_notMem
    intro hm
    obtain ⟨w, hw, heq⟩ := mem_map.mp hm
    exact (hin w hw).2 heq
  have hempty' : headBlocks (applyWrites d (ws.take j) sb.logstart) = [] := by rw [hhead, hempty]
  rw [commits_eq_zero fun w hw => (hin w hw).2, Nat.add_zero]
  refine ⟨⟨by simp [hempty'], by simpa [hempty', hempty] using h.1.fits⟩, ?_⟩
  intro b hb
  rw [logical_of_empty hempty', applyWrites_of_notMem, ← h.2 b hb, logical_of_empty hempty]
  intro hm
  obtain ⟨w, hw, rfl⟩ := mem_map.mp hm
  exact hb (hin w hw).1

/-- While the logged blocks are being written home, the header and the log still say what to do. -/
theorem logical_installing (hwf : LogWf sb d)
    (hvs : vs.Sublist (installWrites sb (headBlocks (d sb.logstart)) d)) :
    applyWrites d vs sb.logstart = d sb.logstart ∧ logical sb (applyWrites d vs) = logical sb d := by
  have hout : ∀ x, sb.InLog x → applyWrites d vs x = d x := by
    intro x hx
    apply applyWrites_of_notMem
    intro hm
    obtain ⟨w, hw, rfl⟩ := mem_map.mp hm
    exact hwf.home _ (fst_mem_of_installWrites (hvs.subset hw)) hx
  have hhead : applyWrites d vs sb.logstart = d sb.logstart := by
    apply hout
    have := hwf.fits
    simp only [Superblock.InLog]
    omega
  refine ⟨hhead, ?_⟩
  have hinst : installWrites sb (headBlocks (applyWrites d vs sb.logstart)) (applyWrites d vs) =
      installWrites sb (headBlocks (d sb.logstart)) d := by
    rw [hhead]
    apply List.map_congr_left
    rintro ⟨b, t⟩ hp
    have ht := snd_lt_of_mem_zipIdx hp
    have := hwf.fits
    rw [hout (sb.logstart + t + 1)]
    simp only [Superblock.InLog]
    omega
  rw [logical, hinst, applyWrites_of_sublist d hvs, logical]

theorem safeFrom_installWrites (h : RecoversTo sb (after k) d) :
    SafeFrom sb after k d (installWrites sb (headBlocks (d sb.logstart)) d) := by
  intro j
  obtain ⟨hhead, hlog⟩ := logical_installing h.1 (List.take_sublist j
    (installWrites sb (headBlocks (d sb.logstart)) d))
  have hstart : sb.InLog sb.logstart := by
    have := h.1.fits
    simp only [Superblock.InLog]
    omega
  rw [commits_eq_zero, Nat.add_zero]
  · refine ⟨⟨by rw [hhead]; exact h.1.home, by rw [hhead]; exact h.1.fits⟩, ?_⟩
    rw [hlog]
    exact h.2
  · intro w hw heq
    exact h.1.home _ (fst_mem_of_installWrites (List.mem_of_mem_take hw)) (heq ▸ hstart)

/-- Clearing the header once the disk itself is the file system. -/
theorem safeFrom_clear (h : RecoversTo sb (after k) d) (hd : ∀ b, ¬ sb.InLog b → d b = after k b)
    (old : Block) : SafeFrom sb after k d [(sb.logstart, putHead old [])] := by
  apply safeFrom_singleton h
  have hstart : sb.InLog sb.logstart := by
    have := h.1.fits
    simp only [Superblock.InLog]
    omega
  have hempty : headBlocks (writeAt d (sb.logstart, putHead old []) sb.logstart) = [] := by simp
  have hzero : commits sb [(sb.logstart, putHead old [])] = 0 := by
    simp [commits, headN_putHead old [] (by decide)]
  rw [hzero, Nat.add_zero]
  refine ⟨⟨by simp, by simpa using Nat.zero_lt_of_lt h.1.fits⟩, ?_⟩
  intro b hb
  have hne : b ≠ sb.logstart := fun e => hb (e ▸ hstart)
  rw [logical_of_empty hempty, writeAt_ne _ _ hne, hd b hb]

theorem zipIdx_map_fst_snd {α β : Type} (f : α → β) (l : List α) :
    (l.zipIdx.map fun p => f p.1) = l.map f := by
  rw [← Function.comp_def, ← map_map, List.zipIdx_map_fst]

theorem applyWrites_logWrites (lh : List Nat) (seen : Nat → Block) (d : Nat → Block) {b t : Nat}
    (hp : (b, t) ∈ lh.zipIdx) : applyWrites d (logWrites sb lh seen) (sb.logstart + t + 1) = seen b := by
  have hkeys : ((logWrites sb lh seen).map Prod.fst).Nodup := by
    have hmap : (logWrites sb lh seen).map Prod.fst =
        (lh.zipIdx.map Prod.snd).map (fun t => sb.logstart + t + 1) := by
      simp only [logWrites, map_map, Function.comp_def]
    rw [hmap, List.zipIdx_map_snd]
    exact (List.nodup_range').map (fun x y hxy => by simpa using hxy)
  exact applyWrites_of_mem_nodup d hkeys
    (mem_map.mpr ⟨(b, t), hp, rfl⟩ : (sb.logstart + t + 1, seen b) ∈ logWrites sb lh seen)

theorem recoversTo_head {val : Nat → Block} (hhome : ∀ b ∈ lh, ¬ sb.InLog b)
    (hfits : lh.length < sb.nlog) (hsize : lh.length ≤ LOGSIZE) (hlt : ∀ b ∈ lh, b < 2 ^ 32)
    (hlog : ∀ b t, (b, t) ∈ lh.zipIdx → d (sb.logstart + t + 1) = val b) :
    RecoversTo sb (fun b => if b ∈ lh then val b else d b)
      (writeAt d (sb.logstart, putHead old lh)) := by
  have hhead : headBlocks (writeAt d (sb.logstart, putHead old lh) sb.logstart) = lh := by
    rw [writeAt_same]
    apply headBlocks_putHead _ _ _ hlt
    simp only [LOGSIZE, MAXOPBLOCKS, BSIZE] at hsize ⊢
    omega
  refine ⟨⟨by rwa [hhead], by rwa [hhead]⟩, ?_⟩
  have hinst : installWrites sb lh (writeAt d (sb.logstart, putHead old lh)) =
      lh.map fun b => (b, val b) := by
    rw [← zipIdx_map_fst_snd, installWrites]
    apply List.map_congr_left
    rintro ⟨b, t⟩ hp
    rw [writeAt_ne _ _ (by simp; omega), hlog b t hp]
  intro b hb
  have hne : b ≠ sb.logstart := by
    rintro rfl
    apply hb
    simp only [Superblock.InLog]
    omega
  rw [logical, hhead, hinst, applyWrites_map, writeAt_ne _ _ hne]

theorem commits_singleton (lh : List Nat) (hsize : lh.length ≤ LOGSIZE) :
    commits sb [(sb.logstart, putHead old lh)] = if lh = [] then 0 else 1 := by
  have hN : headN (putHead old lh) = lh.length := by
    apply headN_putHead
    simp only [LOGSIZE, MAXOPBLOCKS, BSIZE] at hsize ⊢
    omega
  cases lh with
  | nil | cons b bs => simp [commits, hN]

theorem safeFrom_commit {seen : Nat → Block} (h : RecoversTo sb (after k) d)
    (hempty : headBlocks (d sb.logstart) = []) (hne : lh ≠ []) (hhome : ∀ b ∈ lh, ¬ sb.InLog b)
    (hfits : lh.length < sb.nlog) (hsize : lh.length ≤ LOGSIZE) (hlt : ∀ b ∈ lh, b < 2 ^ 32)
    (hafter : ∀ b, ¬ sb.InLog b → after (k + 1) b = if b ∈ lh then seen b else d b)
    (old old' : Block) {d2 : Nat → Block}
    (hd2 : d2 = writeAt (applyWrites d (logWrites sb lh seen)) (sb.logstart, putHead old lh)) :
    SafeFrom sb after k d (logWrites sb lh seen ++ [(sb.logstart, putHead old lh)] ++
      installWrites sb lh d2 ++ [(sb.logstart, putHead old' [])]) ∧
    commits sb (logWrites sb lh seen ++ [(sb.logstart, putHead old lh)] ++
      installWrites sb lh d2 ++ [(sb.logstart, putHead old' [])]) = 1 := by
  have hin : ∀ w ∈ logWrites sb lh seen, sb.InLog w.1 ∧ w.1 ≠ sb.logstart :=
    fun w hw => mem_logWrites_inLog lh seen hfits hw
  have hstart : sb.InLog sb.logstart := by
    simp only [Superblock.InLog]
    omega
  have hL : commits sb (logWrites sb lh seen) = 0 := commits_eq_zero fun w hw => (hin w hw).2
  have hH : commits sb [(sb.logstart, putHead old lh)] = 1 := by
    rw [commits_singleton _ _ hsize, if_neg hne]
  have hI : commits sb (installWrites sb lh d2) = 0 :=
    commits_eq_zero fun w hw heq => hhome _ (fst_mem_of_installWrites hw) (heq ▸ hstart)
  have hC : commits sb [(sb.logstart, putHead old' [])] = 0 := by
    rw [commits_singleton _ _ (by simp), if_pos rfl]
  -- the log is filled behind an empty header
  have s1 := safeFrom_logWrites h hempty hin
  have hrec1 := s1.all
  rw [hL, Nat.add_zero] at hrec1
  -- the header commits
  have hrec2 : RecoversTo sb (after (k + 1)) d2 := by
    have hval := recoversTo_head old hhome hfits hsize hlt
      (fun b t hp => applyWrites_logWrites lh seen d hp)
    rw [← hd2] at hval
    refine ⟨hval.1, fun b hb => ?_⟩
    have hout : applyWrites d (logWrites sb lh seen) b = d b := by
      apply applyWrites_of_notMem
      intro hm
      obtain ⟨w, hw, rfl⟩ := mem_map.mp hm
      exact hb (hin w hw).1
    rw [hval.2 b hb, hafter b hb]
    simp only [hout]
  have s2 : SafeFrom sb after k (applyWrites d (logWrites sb lh seen))
      [(sb.logstart, putHead old lh)] := by
    apply safeFrom_singleton hrec1
    rw [hH, ← hd2]
    exact hrec2
  -- the blocks go home
  have hhead : headBlocks (d2 sb.logstart) = lh := by
    rw [hd2, writeAt_same]
    apply headBlocks_putHead _ _ _ hlt
    simp only [LOGSIZE, MAXOPBLOCKS, BSIZE] at hsize ⊢
    omega
  have s3 := safeFrom_installWrites hrec2
  rw [hhead] at s3
  have hrec3 := s3.all
  rw [hI, Nat.add_zero] at hrec3
  -- and the header is cleared
  have hdisk : ∀ b, ¬ sb.InLog b → applyWrites d2 (installWrites sb lh d2) b = after (k + 1) b := by
    intro b hb
    rw [← hrec2.2 b hb, logical, hhead]
  have s4 := safeFrom_clear hrec3 hdisk old'
  refine ⟨?_, by simp only [commits_append, hL, hH, hI, hC]⟩
  refine SafeFrom.append (SafeFrom.append (SafeFrom.append s1 ?_) ?_) ?_
  · rwa [hL, Nat.add_zero]
  · rwa [commits_append, hL, hH, applyWrites_append, applyWrites_cons, applyWrites_nil, ← hd2,
      Nat.zero_add]
  · rwa [commits_append, commits_append, hL, hH, hI, applyWrites_append, applyWrites_append,
      applyWrites_cons, applyWrites_nil, ← hd2]

end

/-! ## Runs of transactions -/

section

variable {sb : Superblock} {after : Nat → Nat → Block} {d0 : Nat → Block} {u : List (Nat × Block)}

/-- What every prefix of the block writes made so far must satisfy. -/
def Safe (sb : Superblock) (after : Nat → Nat → Block) (d0 : Nat → Block) (a : View) : Prop :=
  SafeFrom sb after 0 d0 a.trace

/-- Between two transactions, of which `k` have been committed. -/
structure Quiet (sb : Superblock) (after : Nat → Nat → Block) (d0 : Nat → Block) (k : Nat)
    (a : View) : Prop where
  idle : a.Idle
  lh : a.lh = []
  outstanding : a.outstanding = 0
  committing : a.committing = false
  seen : a.seen = a.disk
  empty : headBlocks (a.disk sb.logstart) = []
  disk : a.disk = applyWrites d0 a.trace
  count : commits sb a.trace = k
  safe : Safe sb after d0 a

/-- Inside a transaction that has made the updates `u`, on top of the quiet view `q`. -/
structure InTx (sb : Superblock) (q : View) (out : Int) (com : Bool) (u : List (Nat × Block))
    (a : View) : Prop where
  idle : a.Idle
  disk : a.disk = q.disk
  trace : a.trace = q.trace
  seen : a.seen = applyWrites q.disk u
  lh : ∀ b, b ∈ a.lh ↔ b ∈ u.map Prod.fst
  pinned : ∀ b ∈ a.lh, b ∈ a.pinned
  fits : a.lh.length < sb.nlog
  size : a.lh.length ≤ LOGSIZE
  outstanding : a.outstanding = out
  committing : a.committing = com

variable {a q : View}

theorem Quiet.recoversTo {k : Nat} (h : Quiet sb after d0 k a) :
    RecoversTo sb (after k) a.disk := by
  have := SafeFrom.all h.safe
  rwa [h.count, Nat.zero_add, ← h.disk] at this

theorem Quiet.home {k : Nat} (h : Quiet sb after d0 k a) {b : Nat} (hb : ¬ sb.InLog b) :
    a.disk b = after k b := by
  rw [← h.recoversTo.2 b hb, logical_of_empty h.empty]

section

variable {k : Nat} (hq : Quiet sb after d0 k q)
include hq

theorem wp_update {done : List (Nat × Block)} {out : Int} {com : Bool} (u : Nat × Block)
    (h : InTx sb q out com done a) : (update u).wp (viewWp sb (Safe sb after d0))
      (fun _ a' => InTx sb q out com (done ++ [u]) a') a := by
  obtain ⟨⟨hh, hr⟩, hdisk, htrace, hseen, hlh, hpin, hfits, hsize, hout, hcom⟩ := h
  obtain ⟨b, d⟩ := u
  simp only [update, logWrite, wp_bind, wp_bread, wp_lift, viewWp, wp_brelse]
  refine ⟨by simp, ?_⟩
  have hseen' : writeAt a.seen (b, d) = applyWrites q.disk (done ++ [(b, d)]) := by
    rw [hseen, applyWrites_append]
    rfl
  split
  · simpa [Safe, htrace] using hq.safe
  next hfull =>
    simp only [logFull, not_or, not_le, not_lt] at hfull
    split
    next hb =>
      refine ⟨Or.inl (hpin b hb), ⟨by simp [hh], by simp [hr]⟩, hdisk, htrace, hseen', ?_, hpin, hfits,
        hsize, hout, hcom⟩
      intro x
      have hx := hlh x
      simp only [map_append, List.map_cons, List.map_nil, mem_append, List.mem_singleton]
      constructor
      · exact fun hm => Or.inl (hx.mp hm)
      · rintro (hm | rfl)
        · exact hx.mpr hm
        · exact hb
    · refine ⟨Or.inl (by simp), ⟨by simp [hh], by simp [hr]⟩, hdisk, htrace, hseen', ?_, ?_, ?_, ?_,
        hout, hcom⟩
      · intro x
        simp [hlh x]
      · intro x hx
        rcases mem_append.mp hx with hx | hx
        · exact List.mem_cons_of_mem _ (hpin x hx)
        · simp at hx
          simp [hx]
      · simp only [List.length_append, List.length_cons, length_nil]
        omega
      · simp only [List.length_append, List.length_cons, length_nil]
        omega

theorem Quiet.inTx (out : Int) (com : Bool) :
    InTx sb q out com [] { q with outstanding := out, committing := com } where
  idle := hq.idle
  disk := rfl
  trace := rfl
  seen := hq.seen
  lh := by simp [hq.lh]
  pinned := by simp [hq.lh]
  fits := by
    have := hq.recoversTo.1.fits
    simp only [hq.lh]
    rw [hq.empty] at this
    exact this
  size := by simp [hq.lh]
  outstanding := rfl
  committing := rfl

variable (hhome : ∀ w ∈ u, ¬ sb.InLog w.1) (hlt : ∀ w ∈ u, w.1 < 2 ^ 32)
include hhome hlt

theorem wp_commit
    (hafter : u ≠ [] → ∀ b, ¬ sb.InLog b → after (k + 1) b = applyWrites (after k) u b)
    (h : InTx sb q 0 true u a) : (commit sb).wp (viewWp sb (Safe sb after d0))
      (fun _ a' => Quiet sb after d0 (if u = [] then k else k + 1) { a' with committing := false })
      a := by
  have hmem : ∀ {b}, b ∈ a.lh → ∃ w ∈ u, w.1 = b := fun {b} hb => by simpa using (h.lh b).mp hb
  have hlhhome : ∀ b ∈ a.lh, ¬ sb.InLog b := by
    intro b hb
    obtain ⟨w, hw, rfl⟩ := hmem hb
    exact hhome w hw
  have hlhlt : ∀ b ∈ a.lh, b < 2 ^ 32 := by
    intro b hb
    obtain ⟨w, hw, rfl⟩ := hmem hb
    exact hlt w hw
  by_cases hnil : a.lh = []
  · -- a transaction without updates writes nothing
    have hu : u = [] := by
      have : u.map Prod.fst = [] := List.eq_nil_iff_forall_not_mem.mpr (by simp [← h.lh, hnil])
      simpa using this
    subst hu
    simp only [commit, lift_bind, wp_op, viewWp, hnil, length_nil, gt_iff_lt,
      Nat.lt_irrefl, if_false, if_true, Prog.pure_eq, wp_pure]
    exact
      { idle := h.idle
        lh := rfl
        outstanding := h.outstanding
        committing := rfl
        seen := by simpa [h.disk] using h.seen
        empty := by simpa [h.disk] using hq.empty
        disk := by simpa [h.disk, h.trace] using hq.disk
        count := by simpa [h.trace] using hq.count
        safe := by simpa [Safe, h.trace] using hq.safe }
  · have hne : u ≠ [] := by
      rintro rfl
      exact hnil (List.eq_nil_iff_forall_not_mem.mpr (by simp [h.lh]))
    have hd : ∀ b, ¬ sb.InLog b →
        after (k + 1) b = if b ∈ a.lh then a.seen b else a.disk b := by
      intro b hb
      rw [hafter hne b hb, h.seen, h.disk]
      split
      next hm => exact applyWrites_congr u (Or.inl ((h.lh b).mp hm))
      next hm => rw [applyWrites_of_notMem _ _ (fun hm' => hm ((h.lh b).mpr hm')), hq.home hb]
    apply wp_commit_stages _ _ h.idle hnil hlhhome h.fits h.pinned
    intro pinned old old'
    obtain ⟨hsafe, hcount⟩ := safeFrom_commit (by rw [h.disk]; exact hq.recoversTo)
      (by rw [h.disk]; exact hq.empty) hnil hlhhome h.fits h.size hlhlt hd old old' rfl
    rw [if_neg hne]
    have hstart : ∀ d : Nat → Block, applyWrites d
        (commitWrites sb a.lh a.seen a.disk old old') sb.logstart = putHead old' [] := by
      intro d
      simp [commitWrites, applyWrites_append]
    exact
      { idle := h.idle
        lh := rfl
        outstanding := h.outstanding
        committing := rfl
        seen := by
          funext x
          apply applyWrites_congr
          by_cases hx : x ∈ a.lh
          · exact Or.inl (fst_mem_commitWrites hx)
          · refine Or.inr ?_
            rw [h.seen, h.disk]
            exact applyWrites_of_notMem _ _ (fun hm => hx ((h.lh x).mpr hm))
        empty := by simp [View.wrote, hstart]
        disk := by simp only [View.wrote, applyWrites_append, h.trace, ← hq.disk, h.disk]
        count := by
          simp only [View.wrote, commits_append, h.trace, hq.count]
          exact congrArg (k + ·) hcount
        safe := by
          simp only [Safe, View.wrote, h.trace]
          apply SafeFrom.append hq.safe
          rw [hq.count, Nat.zero_add, ← hq.disk, ← h.disk]
          exact hsafe }

theorem wp_transaction
    (hafter : u ≠ [] → ∀ b, ¬ sb.InLog b → after (k + 1) b = applyWrites (after k) u b) :
    (transaction sb u).wp (viewWp sb (Safe sb after d0))
      (fun _ a' => Quiet sb after d0 (if u = [] then k else k + 1) a') q := by
  simp only [transaction, beginOp, lift_bind, wp_op, viewWp, hq.committing, hq.lh, hq.outstanding]
  split
  · exact hq.safe
  rw [wp_bind]
  -- the updates made so far, then the commit
  let I : List (Nat × Block) → View → Prop := fun rest a =>
    ∃ done, done ++ rest = u ∧ InTx sb q 1 false done a
  refine wp_mono (viewWp_mono sb _) _ ?_ (Prog.wp_forEach (viewWp_mono sb _) I ?_ u _ ⟨[], rfl, ?_⟩)
  · rintro - a ⟨done, hdone, ha⟩
    rw [append_nil] at hdone
    subst hdone
    simp only [endOp, lift_bind, wp_op, viewWp, ha.committing, ha.outstanding]
    refine ⟨trivial, ?_⟩
    rw [if_pos (by decide), if_pos trivial, wp_bind]
    refine wp_mono (viewWp_mono sb _) _ ?_
      (wp_commit hq hhome hlt hafter { ha with outstanding := rfl, committing := rfl })
    intro _ a' ha'
    exact ha'
  · rintro w rest a ⟨done, hdone, ha⟩
    refine wp_mono (viewWp_mono sb _) _ ?_ (wp_update hq w ha)
    intro _ a' ha'
    exact ⟨done ++ [w], by simpa using hdone, ha'⟩
  · simpa [hq.lh, hq.outstanding, hq.committing] using hq.inTx 1 false

end

/-- The transactions of a workload that write anything. -/
def effective (txs : List (List (Nat × Block))) : List (List (Nat × Block)) :=
  txs.filter fun tx => tx ≠ []

/-- The disk `d0` after the first `k` transactions that write anything. -/
def afterTxs (d0 : Nat → Block) (txs : List (List (Nat × Block))) (k : Nat) : Nat → Block :=
  applyWrites d0 ((effective txs).take k).flatten

variable (d0 : Nat → Block)

theorem afterTxs_succ (done rest : List (List (Nat × Block)))
    {tx : List (Nat × Block)} (hne : tx ≠ []) :
    afterTxs d0 (done ++ tx :: rest) ((effective done).length + 1) =
      applyWrites (afterTxs d0 (done ++ tx :: rest) (effective done).length) tx := by
  have hsplit : effective (done ++ tx :: rest) = effective done ++ tx :: effective rest := by
    simp [effective, hne]
  simp [afterTxs, hsplit, List.take_append, List.take_of_length_le, applyWrites_append]

variable (txs : List (List (Nat × Block)))

theorem quiet_boot (hlog : 0 < sb.nlog) (hinit : headN (d0 sb.logstart) = 0) :
    Quiet sb (afterTxs d0 txs) d0 0 (View.boot d0) := by
  have hempty := headBlocks_eq_nil_of_headN hinit
  have hrec : RecoversTo sb (afterTxs d0 txs 0) d0 := by
    refine ⟨⟨by simp [hempty], by simpa [hempty] using hlog⟩, fun b _ => ?_⟩
    rw [logical_of_empty hempty]
    simp [afterTxs]
  exact
    { idle := ⟨rfl, rfl⟩
      lh := rfl
      outstanding := rfl
      committing := rfl
      seen := rfl
      empty := hempty
      disk := rfl
      count := rfl
      safe := safeFrom_nil hrec }

theorem wp_workload (hlog : 0 < sb.nlog) (hhome : ∀ tx ∈ txs, ∀ w ∈ tx, ¬ sb.InLog w.1)
    (hlt : ∀ tx ∈ txs, ∀ w ∈ tx, w.1 < 2 ^ 32) (hinit : headN (d0 sb.logstart) = 0) :
    (workload sb txs).wp (viewWp sb (Safe sb (afterTxs d0 txs) d0))
      (fun _ a => Safe sb (afterTxs d0 txs) d0 a) (View.boot d0) := by
  let I : List (List (Nat × Block)) → View → Prop := fun rest a =>
    ∃ done, done ++ rest = txs ∧ Quiet sb (afterTxs d0 txs) d0 (effective done).length a
  refine wp_mono (viewWp_mono sb _) _ ?_
    (Prog.wp_forEach (viewWp_mono sb _) I ?_ txs _ ⟨[], rfl, quiet_boot d0 txs hlog hinit⟩)
  · rintro - a ⟨done, -, ha⟩
    exact ha.safe
  · rintro tx rest a ⟨done, rfl, ha⟩
    refine wp_mono (viewWp_mono sb _) _ ?_
      (wp_transaction ha (hhome tx (by simp)) (hlt tx (by simp)) ?_)
    · intro _ a' ha'
      refine ⟨done ++ [tx], by simp, ?_⟩
      by_cases hne : tx = []
      · simpa [effective, hne] using ha'
      · simpa [effective, hne] using ha'
    · intro hne b _
      rw [afterTxs_succ d0 done rest hne]

/-! ## Recovery -/

/-- A recovery of a disk that recovers to `fs` ends, leaves `fs` outside the log, and may be cut
after any of its writes. -/
theorem wp_recover {fs d : Nat → Block} (h : RecoversTo sb fs d) :
    (recoverFromLog sb).wp (viewWp sb fun _ => False)
      (fun _ a => (∀ j, RecoversTo sb fs (applyWrites d (a.trace.take j))) ∧
        ∀ b, ¬ sb.InLog b → a.disk b = fs b) (View.boot d) := by
  have s1 : SafeFrom sb (fun _ => fs) 0 d _ := safeFrom_installWrites h
  simp only [recoverFromLog, wp_bind, wp_lift, viewWp]
  apply wp_readHead
  · exact ⟨rfl, rfl⟩
  · rfl
  apply wp_installTrans
  · exact ⟨rfl, rfl⟩
  · exact h.1.home
  · exact h.1.fits
  · intros; rfl
  intro pinned
  apply wp_writeHead
  · exact ⟨rfl, rfl⟩
  simp only [View.wrote, View.boot, headWrite, List.nil_append]
  refine ⟨s1.append (safeFrom_clear s1.all h.2 _), fun b hb => ?_⟩
  have hne : b ≠ sb.logstart := by
    rintro rfl
    have := h.1.fits
    apply hb
    simp only [Superblock.InLog]
    omega
  rw [applyWrites_cons, applyWrites_nil, writeAt_ne _ _ hne]
  exact h.2 b hb

theorem recovery_spec {fs d : Nat → Block} (h : RecoversTo sb fs d) (evict : Nat → Nat → Bool) :
    (recovery sb evict d).1 = some () ∧
      (∀ j, RecoversTo sb fs (recoverCut sb evict j d)) ∧
      ∀ b, ¬ sb.InLog b → (recovery sb evict d).2.disk b = fs b := by
  have hwp := (wp_execWp _ _ _ _).mp (wp_of_viewWp evict _ (shows_boot d) (wp_recover h))
  obtain ⟨hdone, hstop⟩ := hwp
  rw [← recovery] at hdone hstop
  simp only [recoverCut]
  generalize recovery sb evict d = out at hdone hstop ⊢
  have hres : out.1 = some () := by
    cases hr : out.1 with
    | some u => rfl
    | none =>
      obtain ⟨-, -, hfalse⟩ := hstop hr
      exact hfalse.elim
  obtain ⟨a, hshows, hcut, hdisk⟩ := hdone () hres
  refine ⟨hres, ?_, ?_⟩
  · intro j
    have := hcut j
    rwa [← hshows.trace] at this
  · intro b hb
    have := hdisk b hb
    rwa [← hshows.disk] at this

/-- Whatever prefix of the writes of a workload reached the disk, the disk recovers to the
transactions whose header is among them. -/
theorem workload_spec (hlog : 0 < sb.nlog)
    (hhome : ∀ tx ∈ txs, ∀ w ∈ tx, ¬ sb.InLog w.1) (hlt : ∀ tx ∈ txs, ∀ w ∈ tx, w.1 < 2 ^ 32)
    (hinit : headN (d0 sb.logstart) = 0) (evict : Nat → Nat → Bool) (j : Nat) :
    RecoversTo sb (afterTxs d0 txs (commits sb ((workloadTrace sb evict txs d0).take j)))
      (applyWrites d0 ((workloadTrace sb evict txs d0).take j)) := by
  obtain ⟨hdone, hstop⟩ := (wp_execWp _ _ _ _).mp
    (wp_of_viewWp evict _ (shows_boot d0) (wp_workload d0 txs hlog hhome hlt hinit))
  have hsafe : SafeFrom sb (afterTxs d0 txs) 0 d0 (workloadTrace sb evict txs d0) := by
    have hview : ∃ a, Shows ((workload sb txs).run (exec sb evict) (boot d0)).2 a ∧
        Safe sb (afterTxs d0 txs) d0 a := by
      cases hr : ((workload sb txs).run (exec sb evict) (boot d0)).1 with
      | some u => exact hdone u hr
      | none => exact hstop hr
    obtain ⟨a, hshows, ha⟩ := hview
    rw [Safe, ← hshows.trace] at ha
    exact ha
  simpa using hsafe j

end

/-- Crash atomicity. A workload runs from a disk whose log header is empty and is cut after `j`
block writes. Recovery is started, and cut, any number of times (`cuts` holds, for each attempt,
the buffers it finds recycled and the number of its writes that reach the disk). The recovery that
completes leaves, outside the log, the file system after exactly the transactions whose header
write was among the `j`. -/
theorem crash_atomic (sb : Superblock) (hlog : 0 < sb.nlog) (d0 : Nat → Block)
    (txs : List (List (Nat × Block)))
    (hhome : ∀ tx ∈ txs, ∀ w ∈ tx, ¬ sb.InLog w.1) (hlt : ∀ tx ∈ txs, ∀ w ∈ tx, w.1 < 2 ^ 32)
    (hinit : headN (d0 sb.logstart) = 0) (evict : Nat → Nat → Bool) (j : Nat)
    (cuts : List ((Nat → Nat → Bool) × Nat)) (evict' : Nat → Nat → Bool) :
    let reached := (workloadTrace sb evict txs d0).take j
    let crashed := cuts.foldl (fun d c => recoverCut sb c.1 c.2 d) (applyWrites d0 reached)
    (recovery sb evict' crashed).1 = some () ∧
      ∀ b, ¬ sb.InLog b →
        (recovery sb evict' crashed).2.disk b = afterTxs d0 txs (commits sb reached) b := by
  intro reached crashed
  have hcrashed : RecoversTo sb (afterTxs d0 txs (commits sb reached)) crashed := by
    have hstart := workload_spec d0 txs hlog hhome hlt hinit evict j
    simp only [crashed]
    generalize applyWrites d0 reached = d at hstart
    induction cuts generalizing d with
    | nil => exact hstart
    | cons c cs ih => exact ih _ ((recovery_spec hstart c.1).2.1 c.2)
  obtain ⟨hres, -, hdisk⟩ := recovery_spec hcrashed evict'
  exact ⟨hres, hdisk⟩

/-- Two transactions, cut right after the second header; the first recovery is cut after one
write. -/
theorem crash_atomic_second_header :
    let txs : List (List (Nat × Block)) := [[(50, fun _ => 1)], [(51, fun _ => 2), (50, fun _ => 3)]]
    let reached := (workloadTrace mkfsSuperblock (fun _ _ => false) txs (fun _ _ => 0)).take 7
    let crashed := [(fun _ _ => true, 1)].foldl (fun d c => recoverCut mkfsSuperblock c.1 c.2 d)
      (applyWrites (fun _ _ => 0) reached)
    commits mkfsSuperblock reached = 2 ∧
      (recovery mkfsSuperblock (fun _ _ => true) crashed).1 = some () ∧
      (recovery mkfsSuperblock (fun _ _ => true) crashed).2.disk 50 = fun _ => 3 := by
  intro txs reached crashed
  have hcount : commits mkfsSuperblock reached = 2 := by decide +kernel
  have h := crash_atomic mkfsSuperblock (by decide) (fun _ _ => 0) txs (by decide) (by decide)
    (by decide) (fun _ _ => false) 7 [(fun _ _ => true, 1)] (fun _ _ => true)
  have hdisk := h.2 50 (by decide)
  have hval : afterTxs (fun _ _ => 0) txs 2 50 = fun _ => 3 := by
    simp [afterTxs, effective, txs, applyWrites]
  rw [show commits mkfsSuperblock _ = 2 from hcount, hval] at hdisk
  exact ⟨hcount, h.1, by simpa only [crashed, reached] using hdisk⟩

end Xv6.Crash
