import Xv6.File.Proofs.Writing
import Xv6.File.Shared

/-!
# Writers that share an open file

However the turns of several calls of `filewrite` are mixed, the file grows by whole chunks: no chunk is
lost, written twice or overwritten, and those of one call stay in their order.
-/

namespace Xv6.Rw

open Function

abbrev Call.len (c : Call) : Nat := c.n.toInt.toNat

/-- Chunk `k` of a call whose source is `g`. -/
def Call.chunk (c : Call) (g : Nat → BitVec 8) (k : Nat) : List (BitVec 8) :=
  bytesFrom g (c.addr + k * maxChunk) (min (c.len - k * maxChunk) maxChunk)

variable {ι : Type} [DecidableEq ι] [Fintype ι] {sb : Superblock} {inum : Nat} {calls : ι → Call}
  {g : ι → Nat → BitVec 8} {bs : List (BitVec 8)} {ts : List ι} {s : Sharing ι} {w : FWorld}
  {log : List (ι × Nat)} {t : ι}

/-- Number of chunks of call `t` in the file. -/
def chunks (log : List (ι × Nat)) (t : ι) : Nat := log.countP (·.1 = t)

/-- Number of bytes of call `t` in the file. -/
def written (calls : ι → Call) (log : List (ι × Nat)) (t : ι) : Nat :=
  min (chunks log t * maxChunk) (calls t).len

/-- After the turns `ts` the file, which was `bs`, has grown by the chunks of `log`. -/
structure Appends (sb : Superblock) (inum : Nat) (calls : ι → Call) (g : ι → Nat → BitVec 8)
    (bs : List (BitVec 8)) (ts : List ι) (s : Sharing ι) (w : FWorld) (log : List (ι × Nat)) :
    Prop where
  file : Holding sb w inum s.ip (bs ++ log.flatMap fun e => (calls e.1).chunk (g e.1) e.2)
  /-- The chunks of a call are there once each, and in order. -/
  order : ∀ t, (log.filter (·.1 = t)).map (·.2) = List.range (chunks log t)
  off : s.f.off.toNat = s.ip.size.toNat
  size : s.ip.size.toNat = bs.length + ∑ t, written calls log t
  /-- A call in its loop has written a chunk in each of its turns; one that has returned has written
  everything. -/
  pos : ∀ t, (s.pos t = .loop (written calls log t) ∧ chunks log t = ts.count t ∧
      ts.count t * maxChunk < (calls t).len + maxChunk) ∨
    (s.pos t = (calls t).answer (calls t).len ∧ written calls log t = (calls t).len)

section
omit [Fintype ι]

theorem chunks_append (log : List (ι × Nat)) (t u : ι) (k : Nat) :
    chunks (log ++ [(t, k)]) u = if u = t then chunks log t + 1 else chunks log u := by
  rw [chunks, List.countP_append]
  by_cases hu : u = t
  · simp [hu, chunks]
  · simp [hu, Ne.symm hu, chunks]

theorem count_turn {u : ι} (hu : u ≠ t) (ts : List ι) : (ts ++ [t]).count u = ts.count u := by
  simp [Ne.symm hu]

theorem written_le (calls : ι → Call) (log : List (ι × Nat)) (t : ι) :
    written calls log t ≤ (calls t).len := Nat.min_le_right ..

/-- The next chunk of call `t`. -/
theorem written_append (hlt : written calls log t < (calls t).len) :
    written calls (log ++ [(t, chunks log t)]) =
      update (written calls log) t (written calls log t +
        ((calls t).chunk (g t) (chunks log t)).length) := by
  funext u
  by_cases hu : u = t
  · subst hu
    rw [update_self, Call.chunk, length_bytesFrom]
    simp only [written, chunks_append, if_true, Nat.add_mul] at hlt ⊢
    omega
  · rw [update_of_ne hu, written, chunks_append, if_neg hu, written]

end

theorem sum_written_append (hlt : written calls log t < (calls t).len) :
    ∑ u, written calls (log ++ [(t, chunks log t)]) u =
      ∑ u, written calls log u + ((calls t).chunk (g t) (chunks log t)).length := by
  rw [written_append (g := g) hlt, Finset.sum_update_of_mem (Finset.mem_univ t),
    Finset.sum_eq_sum_sdiff_singleton_add (Finset.mem_univ t) (written calls log)]
  omega

section

variable (hsb : sb.Wf) (hn : inum < sb.ninodes)
  (hmapped : ∀ t, Mapped (calls t).sp (g t) (calls t).addr (calls t).len)
  (hroom : bs.length + ∑ t, (calls t).len ≤ MAXFILE * BSIZE)
include hsb hn hmapped hroom

theorem Appends.turn (h : Appends sb inum calls g bs ts s w log) {i : Nat}
    (hloop : s.pos t = .loop i) :
    (filewriteTurn sb inum (calls t) i s.f s.ip).wp anyWp (fun x w' =>
      ∃ log', Appends sb inum calls g bs (ts ++ [t]) ⟨x.2.1, x.2.2, update s.pos t x.1⟩ w' log') w := by
  rcases h.pos t with ⟨hpos, hcount, hbound⟩ | ⟨hpos, -⟩
  swap
  · rw [hpos, Call.answer] at hloop
    cases hloop
  obtain rfl := Progress.loop.inj (hpos.symm.trans hloop)
  have hwritten := written_le calls log t
  have hlen : (calls t).len = (calls t).n.toInt.toNat := rfl
  rw [filewriteTurn]
  split_ifs with hlt
  · have hlt' : written calls log t < (calls t).len := by omega
    have hstart : chunks log t * maxChunk = written calls log t := by
      unfold written at hlt' ⊢
      omega
    have hsum := sum_written_append (g := g) hlt'
    have hle := Finset.sum_le_sum fun u (_ : u ∈ Finset.univ) =>
      written_le calls (log ++ [(t, chunks log t)]) u
    have hmax : MAXFILE * BSIZE = 274432 := rfl
    have hchunk : maxChunk = 3072 := rfl
    generalize hn1 : min ((calls t).n.toInt - written calls log t).toNat maxChunk = n1
    have hn1' : (BitVec.ofNat 32 n1).toNat = n1 := by
      rw [BitVec.toNat_ofNat, Nat.mod_eq_of_lt (by omega)]
    have hnew : (calls t).chunk (g t) (chunks log t) =
        bytesFrom (g t) ((calls t).addr + written calls log t) n1 := by
      rw [Call.chunk, hstart]
      congr 1
      omega
    rw [hnew, length_bytesFrom] at hsum
    have hpart : Mapped (calls t).sp (g t) ((calls t).addr + written calls log t)
        (BitVec.ofNat 32 n1).toNat := fun a ha ha' => hmapped t a (by omega) (by omega)
    have hsize := h.size
    have hoff := h.off
    have hacc : ¬WriteRefused s.ip.size s.f.off (BitVec.ofNat 32 n1) := by
      unfold WriteRefused
      rw [hn1', hoff, hmax]
      omega
    refine Prog.wp_seq (Prog.wp_mono (Prog.execWp_mono _) _ ?_
      (wp_writei_accepted hsb hn h.file hpart hacc))
    rintro ⟨r, ip'⟩ w' ⟨hr, h'⟩
    rw [hn1'] at hr h'
    dsimp only at hr h' ⊢
    subst hr
    have hfull : ¬((n1 : Int) ≠ n1) := fun hne => hne rfl
    rw [if_neg (by omega), if_neg hfull, if_pos (by omega), Int.toNat_natCast]
    rw [hoff, h.file.size, overwrite_length, ← hnew] at h'
    have hsize' := h'.size
    rw [List.length_append, ← h.file.size, hnew, length_bytesFrom] at hsize'
    have hflat : (log ++ [(t, chunks log t)]).flatMap (fun e => (calls e.1).chunk (g e.1) e.2) =
        (log.flatMap fun e => (calls e.1).chunk (g e.1) e.2) ++
          (calls t).chunk (g t) (chunks log t) := by
      rw [List.flatMap_append, List.flatMap_singleton]
    refine ⟨log ++ [(t, chunks log t)], ?_, fun u => ?_, ?_, ?_, fun u => ?_⟩
    · rwa [hflat, ← List.append_assoc]
    · rw [List.filter_append, List.map_append, h.order u, chunks_append]
      by_cases hu : u = t
      · simp [hu, List.range_succ]
      · simp [hu, Ne.symm hu]
    · dsimp only
      rw [BitVec.ofInt_natCast, BitVec.toNat_add, hn1', Nat.mod_eq_of_lt (by omega)]
      omega
    · rw [hsum, hsize', hsize, Nat.add_assoc]
    · dsimp only
      rw [written_append (g := g) hlt', chunks_append]
      by_cases hu : u = t
      · subst hu
        rw [update_self, update_self, if_pos rfl, hnew, length_bytesFrom, List.count_append,
          List.count_singleton_self, ← hcount, Nat.add_mul, hstart]
        exact .inl ⟨rfl, rfl, by omega⟩
      · rw [update_of_ne hu, update_of_ne hu, if_neg hu, count_turn hu]
        exact h.pos u
  · have hall : written calls log t = (calls t).len := by omega
    refine ⟨log, h.file, h.order, h.off, h.size, fun u => ?_⟩
    dsimp only
    by_cases hu : u = t
    · subst hu
      exact .inr ⟨by rw [update_self, hall], hall⟩
    · rw [update_of_ne hu, count_turn hu]
      exact h.pos u

omit hsb hn hmapped hroom in
/-- A call that has returned takes no turn. -/
theorem Appends.idle (h : Appends sb inum calls g bs ts s w log) {r : Int} (hret : s.pos t = .ret r) :
    Appends sb inum calls g bs (ts ++ [t]) s w log := by
  refine ⟨h.file, h.order, h.off, h.size, fun u => ?_⟩
  by_cases hu : u = t
  · subst hu
    refine (h.pos u).imp_left fun hpos => ?_
    rw [hpos.1] at hret
    cases hret
  · rw [count_turn hu]
    exact h.pos u

theorem Appends.turns (us : List ι) (h : Appends sb inum calls g bs ts s w log) :
    (takeTurns sb inum calls us s).wp anyWp
      (fun s' w' => ∃ log', Appends sb inum calls g bs (ts ++ us) s' w' log') w := by
  induction us generalizing ts s w log with
  | nil => exact ⟨log, by rwa [List.append_nil]⟩
  | cons t us ih =>
    rw [takeTurns, List.append_cons]
    split
    next hret => exact ih (h.idle hret)
    next hloop =>
      refine Prog.wp_seq (Prog.wp_mono (Prog.execWp_mono _) _ ?_
        (h.turn hsb hn hmapped hroom hloop))
      rintro ⟨p, f, ip⟩ w' ⟨log', h'⟩
      exact ih h'

end

/-- Calls of `filewrite` on one file that start with the offset at the end of it. After any turns of
theirs the file has grown by the chunks of `log`; who has had enough turns has returned; and when all
have, the offset and the size are what they were and all that the calls return. -/
theorem filewrite_shared (hsb : sb.Wf) (hn : inum < sb.ninodes) (hc : Consistent sb w.disk)
    (htype : ((vol sb w.disk).ino inum).type ≠ 0) (f : File) (hwritable : f.writable = true)
    (hoff : f.off = ((vol sb w.disk).ino inum).size)
    (hmapped : ∀ t, Mapped (calls t).sp (g t) (calls t).addr (calls t).len)
    (hroom : f.off.toNat + ∑ t, (calls t).len ≤ MAXFILE * BSIZE) (ts : List ι) {s' : Sharing ι}
    {w' : FWorld} (hrun : (takeTurns sb inum calls ts
      (.start f ((vol sb w.disk).ino inum))).run FOp.exec w = (some s', w')) :
    (∃ log, Appends sb inum calls g ((vol sb w.disk).contents inum) ts s' w' log) ∧
    (∀ t, (calls t).len + maxChunk ≤ ts.count t * maxChunk → ∃ r, s'.pos t = .ret r) ∧
    ∀ ret : ι → Int, (∀ t, s'.pos t = .ret (ret t)) →
      s'.f.off = s'.ip.size ∧ s'.f.off.toNat = f.off.toNat + ∑ t, (ret t).toNat ∧
      ∀ t, 0 ≤ (calls t).n.toInt → ret t = (calls t).n.toInt := by
  have hlen : ((vol sb w.disk).contents inum).length = f.off.toNat := by
    rw [Vol.length_contents, hoff]
  have h0 : Appends sb inum calls g ((vol sb w.disk).contents inum) []
      (.start f ((vol sb w.disk).ino inum)) w [] := by
    refine ⟨⟨hc, rfl, htype, (List.append_nil _).symm⟩, fun t => rfl, congrArg _ hoff, ?_, fun t =>
      .inl ⟨?_, rfl, by simp⟩⟩
    · simp [Sharing.start, written, chunks]
    · simp [Sharing.start, hwritable, written, chunks]
  have hwp := h0.turns hsb hn hmapped (by rwa [hlen]) ts
  rw [Prog.wp_execWp, hrun] at hwp
  obtain ⟨log, h⟩ := hwp.1 _ rfl
  refine ⟨⟨log, h⟩, fun t ht => ?_, fun ret hret => ?_⟩
  · rcases h.pos t with ⟨-, -, hbound⟩ | ⟨hpos, -⟩
    · exact absurd ht (Nat.not_le.mpr hbound)
    · exact ⟨_, hpos⟩
  · have hdone : ∀ t, Progress.ret (ret t) = (calls t).answer (calls t).len ∧
        written calls log t = (calls t).len := fun t => by
      rcases h.pos t with ⟨hpos, -⟩ | hpos
      · cases (hret t).symm.trans hpos
      · rwa [hret t] at hpos
    have hans : ∀ t, ret t = if ((calls t).len : Int) = (calls t).n.toInt then (calls t).n.toInt
        else -1 := fun t => Progress.ret.inj (hdone t).1
    refine ⟨BitVec.eq_of_toNat_eq h.off, ?_, fun t hpos => ?_⟩
    · rw [h.off, h.size, hlen]
      refine congrArg _ (Finset.sum_congr rfl fun t _ => ?_)
      have hlen : (calls t).len = (calls t).n.toInt.toNat := rfl
      rw [(hdone t).2, hans]
      split_ifs <;> omega
    · rw [hans, if_pos (Int.toNat_of_nonneg hpos)]

/-- Two calls of four and of two bytes, whose turns are mixed. -/
theorem filewrite_shared_two :
    ∃ s' w', (takeTurns tinySuperblock 1 (fun t : Bool => ⟨onePage, 0, if t then 4 else 2⟩)
        [true, false, false, true] (.start rdwr ((vol tinySuperblock oneFileDisk).ino 1))).run FOp.exec
          ⟨oneFileDisk, none⟩ = (some s', w') ∧ s'.f.off = 6 ∧
      ∃ log, Appends tinySuperblock 1 (fun t : Bool => ⟨onePage, 0, if t then 4 else 2⟩) (fun _ _ => 0)
        ((vol tinySuperblock oneFileDisk).contents 1) [true, false, false, true] s' w' log := by
  have hoff : ((takeTurns tinySuperblock 1 (fun t : Bool => ⟨onePage, 0, if t then 4 else 2⟩)
      [true, false, false, true] (.start rdwr ((vol tinySuperblock oneFileDisk).ino 1))).run FOp.exec
        ⟨oneFileDisk, none⟩).1.map (fun s => s.f.off) = some 6 := by decide +kernel
  have hinode : (vol tinySuperblock oneFileDisk).ino 1 = .fresh 2 := by
    rw [vol_oneFileDisk, Vol.setIno_ino_same]
  rcases hrun : (takeTurns tinySuperblock 1 (fun t : Bool => ⟨onePage, 0, if t then 4 else 2⟩)
      [true, false, false, true] (.start rdwr ((vol tinySuperblock oneFileDisk).ino 1))).run FOp.exec
        ⟨oneFileDisk, none⟩ with ⟨_ | s', w'⟩
  · rw [hrun] at hoff
    cases hoff
  rw [hrun] at hoff
  refine ⟨s', w', rfl, Option.some.inj hoff, (filewrite_shared (w := ⟨oneFileDisk, none⟩) tiny_wf
    (by decide) oneFileDisk_consistent (by rw [hinode]; decide) rdwr rfl (by rw [hinode]; rfl)
    (fun t a _ ha => ?_) (by decide) _ hrun).1⟩
  have ha : a < 4096 := by cases t <;> simp at ha <;> omega
  simp [onePage, Space.byteAt, Nat.div_eq_of_lt ha, Bytes.byte]

end Xv6.Rw
