import Xv6.Pipe.Copy
import Xv6.Pipe.Proofs.Fifo
import Xv6.Sv39.Proofs.Copy

/-!
# Pipes and buffers that are not mapped

`piperead` takes a byte out of the ring before it copies it. A byte whose copy fails is in neither.
-/

namespace Xv6

open Sv39

variable {Tid : Type} {m : PhysMem} {root addr va : BitVec 64}

/-- The physical address of byte `i` of the buffer. -/
def bufferByte (m : PhysMem) (root addr : BitVec 64) (i : Nat) : Option (BitVec 64) :=
  translate m root (addr + BitVec.ofNat 64 i).toNat

/-- `copyout` takes the bytes one after the other, from byte `i` of the buffer on. -/
def Delivers (root addr : BitVec 64) : PhysMem → Nat → List (BitVec 8) → PhysMem → Prop
  | m, _, [], m' => m' = m
  | m, i, b :: bs, m' => ∃ m1, Sv39.copyout m root (addr + BitVec.ofNat 64 i) [b] = .ok (true, m1) ∧
      Delivers root addr m1 (i + 1) bs m'

/-- Whatever the page table, `copyout` of a byte returns. -/
theorem copyout_byte_returns (m : PhysMem) (root va : BitVec 64) (b : BitVec 8) :
    ∃ ok m', Sv39.copyout m root va [b] = .ok (ok, m') ∧ (ok = false → m' = m) := by
  have hwalk : ∃ pa, walkaddr m root (PGROUNDDOWN va) = .ok pa := by
    by_cases hlt : MAXVA ≤ PGROUNDDOWN va
    · exact ⟨0, if_pos hlt⟩
    · exact ⟨_, walkaddr_eq m root (BitVec.not_le.mp hlt)⟩
  obtain ⟨pa, hwalk⟩ := hwalk
  rw [Sv39.copyout, List.length_singleton, copyoutLoop,
    if_neg (show ¬[b].length = 0 from Nat.one_ne_zero)]
  simp only [hwalk, bind, Except.bind]
  split_ifs with hpa
  · exact ⟨false, m, rfl, fun _ => rfl⟩
  · exact ⟨true, _, rfl, fun h => by cases h⟩

/-- The loop delivers bytes and takes them out of the ring, as many as there are; or it stops at one that
is taken out and not delivered. -/
theorem pipereadLoop_spec (root addr : BitVec 64) (k i : Nat) (m : PhysMem) (pi : Pipe Tid) :
    ∃ r m' d, pipereadLoop root addr k i m pi =
        .ok (i + r, m', { pi with nread := pi.nread + BitVec.ofNat 32 d }) ∧
      Delivers root addr m i (pi.contents.take r) m' ∧
      (r = (pi.contents.take k).length ∧ d = r ∨ r < (pi.contents.take k).length ∧ d = r + 1 ∧
        ∀ m'', ¬ Delivers root addr m i (pi.contents.take k) m'') := by
  induction k generalizing i m pi with
  | zero => exact ⟨0, m, 0, by rw [pipereadLoop, BitVec.add_zero]; rfl, rfl, .inl ⟨rfl, rfl⟩⟩
  | succ k ih =>
    rw [pipereadLoop]
    by_cases hempty : pi.nread = pi.nwrite
    · have hnil : pi.contents = [] := RingBuffer.contents_eq_nil_iff.mpr hempty
      rw [if_pos hempty, hnil, List.take_nil]
      exact ⟨0, m, 0, by rw [BitVec.add_zero]; rfl, rfl, .inl ⟨rfl, rfl⟩⟩
    have hcons : pi.contents = pi.data (RingBuffer.slot PIPESIZE pi.nread) ::
        Pipe.contents { pi with nread := pi.nread + 1 } := RingBuffer.contents_pop hempty
    rw [if_neg hempty, hcons, List.take_succ_cons]
    obtain ⟨ok, m1, hcopy, hkept⟩ := copyout_byte_returns m root (addr + BitVec.ofNat 64 i)
      (pi.data (RingBuffer.slot PIPESIZE pi.nread))
    simp only [hcopy, bind, Except.bind]
    cases ok with
    | false =>
      refine ⟨0, m1, 1, rfl, hkept rfl, .inr ⟨Nat.succ_pos _, rfl, ?_⟩⟩
      rintro m'' ⟨m2, hcopy', -⟩
      rw [hcopy] at hcopy'
      cases hcopy'
    | true =>
      obtain ⟨r, m', d, hrun, hdel, hend⟩ := ih (i + 1) m1 { pi with nread := pi.nread + 1 }
      refine ⟨r + 1, m', d + 1, ?_, ⟨m1, hcopy, hdel⟩, ?_⟩
      · rw [if_pos rfl, hrun, BitVec.ofNat_add, BitVec.add_assoc, BitVec.add_comm 1, Nat.add_right_comm,
          Nat.add_assoc]
        rfl
      · rw [List.length_cons]
        refine hend.imp (fun h => ⟨by omega, by omega⟩) fun ⟨hlt, hd, hno⟩ => ⟨by omega, by omega, ?_⟩
        rintro m'' ⟨m2, hcopy', hdel'⟩
        rw [hcopy] at hcopy'
        cases hcopy'
        exact hno m'' hdel'

/-- What `copyout` of a byte does that succeeds, where the byte is not in page 0 nor in a table. -/
theorem copyout_byte (hal : Aligned root) {b : BitVec 8} {m' : PhysMem}
    (hu : ∀ p, translate m root va.toNat = some p → 4096 ≤ p.toNat ∧ NotTable m root (PGROUNDDOWN p))
    (h : Sv39.copyout m root va [b] = .ok (true, m')) :
    ∃ p, translate m root va.toNat = some p ∧ m' = setByte m p b ∧ SameTables m m' root := by
  have hreach : ∀ p, Reaches m root va.toNat [b].length p → translate m root va.toNat = some p := by
    rintro p ⟨i, hi, hp⟩
    have hle := (reach_spec (translate m root) va.toNat [b].length).1
    rw [List.length_singleton] at hle hi
    obtain rfl : i = 0 := by omega
    exact hp
  have hsame := writeUser_same hal fun p hp => (hu p (hreach p hp)).2
  have hrun : Sv39.copyout m root va [b] = _ :=
    copyoutLoop_eq hal (fun p hp => hu p (hreach p hp)) (Nat.le_refl [b].length)
  rw [hrun] at h
  cases htr : translate m root va.toNat with
  | none =>
    rw [writeUser, htr] at h
    cases h
  | some p =>
    rw [writeUser, htr] at h hsame
    cases h
    exact ⟨p, rfl, rfl, hsame⟩

theorem Delivers.writes (hal : Aligned root) {bs : List (BitVec 8)} {m' : PhysMem} {i : Nat}
    (hu : ∀ j < bs.length, ∀ p, bufferByte m root addr (i + j) = some p →
      4096 ≤ p.toNat ∧ NotTable m root (PGROUNDDOWN p)) (h : Delivers root addr m i bs m') :
    writeUser (bufferByte m root addr) m i bs = (true, m') := by
  induction bs generalizing m i with
  | nil => exact Prod.ext rfl h.symm
  | cons b bs ih =>
    obtain ⟨m1, hcopy, hrest⟩ := h
    obtain ⟨p, hp, rfl, hsame⟩ := copyout_byte hal (hu 0 (Nat.succ_pos _)) hcopy
    have hbuf : bufferByte (setByte m p b) root addr = bufferByte m root addr := by
      funext j
      rw [bufferByte, bufferByte, hsame.translate]
    have hbyte : bufferByte m root addr i = some p := hp
    have hrest := ih (fun j hj q hq => ?_) hrest
    · rw [hbuf] at hrest
      rw [writeUser, hbyte]
      exact hrest
    · rw [hbuf, Nat.add_assoc, Nat.add_comm 1] at hq
      obtain ⟨hle, hno⟩ := hu (j + 1) (Nat.succ_lt_succ hj) q hq
      exact ⟨hle, fun ρ hρ hq => hno ρ hρ (hsame.table ρ hρ ▸ hq)⟩

/-- `r` bytes have been taken out of the ring, and these have been delivered. -/
structure PipereadExact (m : PhysMem) (root addr : BitVec 64) (pi : Pipe Tid) (r : Nat) (m' : PhysMem)
    (pi' : Pipe Tid) : Prop where
  le : r ≤ pi.contents.length
  removed : pi'.contents = pi.contents.drop r
  delivered : Delivers root addr m 0 (pi.contents.take r) m'
  rest : pi' = { pi with nread := pi'.nread }

/-- For any page table, a `piperead` that returns has removed the bytes that it delivers and no others just
when `copyout` takes all the bytes that it comes to; one that is killed has removed none. Where the buffer
has no byte in page 0 or in a table of the page table, memory is as it was but for the bytes written there. -/
theorem piperead_exact (killed : Bool) (m : PhysMem) (root addr : BitVec 64) (pi : Pipe Tid) (n : Int) :
    ∃ turn, piperead killed m root pi addr n = .ok turn ∧ ∀ r m' pi', turn = .ret r m' pi' →
      (r < 0 → m' = m ∧ pi' = pi) ∧
      (0 ≤ r → (PipereadExact m root addr pi r.toNat m' pi' ↔
        ∃ m'', Delivers root addr m 0 (pi.contents.take n.toNat) m'') ∧
        (Aligned root → (∀ i < r.toNat, ∀ p, bufferByte m root addr i = some p →
          4096 ≤ p.toNat ∧ NotTable m root (PGROUNDDOWN p)) →
          writeUser (bufferByte m root addr) m 0 (pi.contents.take r.toNat) = (true, m'))) := by
  rw [piperead]
  split_ifs with hwait hkilled
  · refine ⟨_, rfl, fun r m' pi' h => ?_⟩
    cases h
    exact ⟨fun _ => ⟨rfl, rfl⟩, fun h => absurd h (by decide)⟩
  · exact ⟨_, rfl, fun r m' pi' h => by cases h⟩
  · obtain ⟨r, m', d, hrun, hdel, hend⟩ := pipereadLoop_spec root addr n.toNat 0 m pi
    rw [Nat.zero_add] at hrun
    simp only [hrun, bind, Except.bind]
    refine ⟨_, rfl, fun r m' pi' h => ?_⟩
    cases h
    rw [Int.toNat_natCast]
    have hlen : (pi.contents.take n.toNat).length = min n.toNat pi.contents.length := List.length_take
    refine ⟨fun h => by omega, fun _ => ⟨?_, fun hal hu => hdel.writes hal fun i hi p hp =>
      hu i (hi.trans_le (List.length_take_le ..)) p (by rwa [Nat.zero_add] at hp)⟩⟩
    rcases hend with ⟨hr, rfl⟩ | ⟨hlt, rfl, hno⟩
    · have hle : d ≤ pi.contents.length := by omega
      refine iff_of_true ⟨hle, RingBuffer.contents_drop hle, hdel, rfl⟩ ⟨m', ?_⟩
      rwa [List.take_eq_take_min, ← hlen, ← hr]
    · refine iff_of_false (fun h => ?_) (not_exists.mpr hno)
      have hdrop : _ = pi.contents.drop (r + 1) := RingBuffer.contents_drop (by
        show r + 1 ≤ pi.contents.length
        omega)
      have := congrArg List.length (hdrop.symm.trans h.removed)
      simp only [List.length_drop] at this
      omega

/-- One byte in the pipe, and a buffer that is not mapped: 0 is returned, and the byte is gone. -/
theorem piperead_loses : ∃ m' pi', piperead false (smallTable []) 0x80200000
      (⟨some 0, fun _ => 7, 0, 1, true, true⟩ : Pipe Nat) 0 1 = .ok (.ret 0 m' pi') ∧
    Pipe.contents (⟨some 0, fun _ => 7, 0, 1, true, true⟩ : Pipe Nat) = [7] ∧ pi'.contents = [] :=
  ⟨_, _, rfl, by decide, by decide⟩

end Xv6
