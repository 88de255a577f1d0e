import Xv6.Bio.Proofs.RefCore
import Xv6.Log.Proofs.GroupCommit

/-!
# Exact reference counts over runs

The kernel boots: one process runs `recover_from_log`, and then any number of processes make calls.
Where recovery finds an empty log, every reference count is exact in every state. Where it finds a
committed transaction, `install_trans` unpins buffers that were never pinned.
-/

namespace Xv6

open BOp (looseNext looseAfter)
open Function Pool
open BState (exec_sameLog setPtr setBuf_ne boot onBuf_eq_done logAppend bget)
open Ledger (note note_endOp_pinned empty)
open LogInv (inCommit no_commit header nodup booted)

variable {sb : Superblock} {c : Conf Proc BOp (BWorld Proc)} {s : BState Proc}
  {loose : Proc → Option Nat} {disk : Nat → Block}

/-! ## Booting and running -/

def recoverMachine (sb : Superblock) : Machine Proc BOp (BWorld Proc) where
  exec := BWorld.exec sb
  starts := fun _ _ => False
  guard := fun t _ _ _ => t = 0

/-- The kernel starts on a disk; process 0 is to recover the log. -/
def bootConf (sb : Superblock) (disk : Nat → Block) : Conf Proc BOp (BWorld Proc) where
  st := ⟨.boot disk, .empty⟩
  prog := update (fun _ => .pure ()) 0 (recoverFromLog sb)
  panicked := none

/-- The states of the system: those of recovery, and once it is done those of any interleaving of
calls. -/
inductive System (m : Machine Proc BOp (BWorld Proc)) (sb : Superblock) (disk : Nat → Block) :
    Conf Proc BOp (BWorld Proc) → Prop
  | recovering {c : Conf Proc BOp (BWorld Proc)}
      (h : Reach (recoverMachine sb) (bootConf sb disk) c) : System m sb disk c
  | running {c1 c : Conf Proc BOp (BWorld Proc)}
      (h1 : Reach (recoverMachine sb) (bootConf sb disk) c1)
      (hdone : ∀ t, c1.prog t = .pure ()) (h : Reach m c1 c) : System m sb disk c

/-! ## Steps -/

/-- Which blocks are pinned: those of the header between commits, those not yet installed during
one. -/
structure PinOk (w : BWorld Proc) (ts : Proc → Phase) : Prop where
  idle : (∀ t, w.gh.inCommit t = false) → ∀ b, b ∈ w.gh.pinned ↔ b ∈ w.st.lh
  commit : ∀ t lh p, ts t = .committing lh p → p.Nodup ∧ ∀ b, b ∈ w.gh.pinned ↔ b ∈ p
  listed : ∀ t, (ts t).PinsListed

/-- What is assumed of the pins at a step. -/
def PinPre (w : BWorld Proc) (t : Proc) : ∀ γ, BOp γ → Prop
  | _, .bunpin b => b ∈ w.gh.pinned
  | _, .logAppend b =>
    ∀ i, w.st.bufOf t b = some i → (w.st.buf i).blockno ∉ w.st.lh →
      (w.st.buf i).blockno ∉ w.gh.pinned
  | _, _ => True

variable {s' : BState Proc} {w w' : BWorld Proc} {b : Nat} {φ : Phase} {t : Proc}
  {ts : Proc → Phase × Option Nat} {γ : Type} {Q : γ → Phase × Option Nat → Prop}

variable {o : BOp γ} {r : γ}

theorem RefCore.op (h : RefCore w.st w.gh.pinned loose) (hloose : BOp.LooseOk γ o (loose t))
    (hpin : PinPre w t γ o) (hexec : w.exec sb t γ o = .done r w') :
    RefCore w'.st w'.gh.pinned (update loose t (looseNext γ o (loose t))) := by
  obtain ⟨s', he, rfl⟩ := Outcome.map_eq_done.mp hexec
  -- the steps between which the process has no loose reference
  have hstay : loose t = none → update loose t none = loose := fun ht => by
    rw [← ht, update_eq_self]
  cases o with
  | bget b => exact h.bget hloose he
  | acquiresleep b =>
    obtain ⟨i, hi, he⟩ := onBuf_eq_done.mp he
    split at he
    next hfree =>
      cases he
      exact h.acquire hloose hi hfree
    · cases he
  | releasesleep b =>
    obtain ⟨i, hi, he⟩ := onBuf_eq_done.mp he
    split at he
    · cases he
      exact h.release hloose hi
    · cases he
  | unref b =>
    obtain ⟨i, hi, he⟩ := onBuf_eq_done.mp he
    cases he
    exact h.drop hloose hi
  | fill b =>
    obtain ⟨i, hi, he⟩ := onBuf_eq_done.mp he
    simp only [looseNext, looseAfter]
    rw [hstay hloose]
    split at he
    · cases he
      exact h
    · cases he
      exact h.setBuf i _ fun x => ⟨rfl, rfl, rfl, rfl⟩
  | setData b d =>
    obtain ⟨i, hi, he⟩ := onBuf_eq_done.mp he
    cases he
    simp only [looseNext, looseAfter]
    rw [hstay hloose]
    exact h.setBuf i _ fun x => ⟨rfl, rfl, rfl, rfl⟩
  | bwrite b =>
    obtain ⟨i, hi, he⟩ := onBuf_eq_done.mp he
    simp only [looseNext, looseAfter]
    rw [hstay hloose]
    split at he
    · cases he
      exact h.frame rfl rfl fun j => ⟨rfl, rfl, rfl, rfl⟩
    · cases he
  | bunpin b =>
    obtain ⟨i, hi, he⟩ := onBuf_eq_done.mp he
    cases he
    have hc := h.caches_of_bufOf hi
    simp only [looseNext, looseAfter, note, hi, hc.2]
    rw [hstay hloose]
    exact h.unpin hc hpin
  | logAppend b =>
    obtain ⟨i, hi, he⟩ := onBuf_eq_done.mp he
    cases he
    have hc := h.caches_of_bufOf hi
    simp only [looseNext, looseAfter, note, hi, Ledger.log, logAppend]
    rw [hstay hloose]
    split
    · exact h
    next hnew =>
      have hp := h.pin ⟨hc.1, rfl⟩ (hpin i hi hnew)
      exact hp.frame rfl rfl fun j => ⟨rfl, rfl, rfl, rfl⟩
  | logCheck =>
    simp only [looseNext, looseAfter]
    rw [hstay hloose]
    simp only [BState.exec] at he
    split at he
    · cases he
    · split at he <;> cases he
      exact h
  | beginOp =>
    simp only [looseNext, looseAfter]
    rw [hstay hloose]
    simp only [BState.exec] at he
    split at he
    · cases he
    · split at he <;> cases he
      exact h.frame rfl rfl fun j => ⟨rfl, rfl, rfl, rfl⟩
  | endOp =>
    simp only [looseNext, looseAfter]
    rw [hstay hloose]
    rw [note_endOp_pinned]
    simp only [BState.exec] at he
    split at he
    · cases he
    · split at he <;> cases he <;> exact h.frame rfl rfl fun j => ⟨rfl, rfl, rfl, rfl⟩
  | endCommit | logHeader | setLogHeader l =>
    cases he
    simp only [looseNext, looseAfter]
    rw [hstay hloose]
    exact h.frame rfl rfl fun j => ⟨rfl, rfl, rfl, rfl⟩
  | panic msg => cases he

theorem LogGood.not_committing_of_inOp {ts : Proc → Phase} (h : LogGood w ts) {u : Proc}
    (ht : ts t = .inOp) (lh p : List Nat) : ts u ≠ .committing lh p := fun hu => by
  have := (inCommit h u).mpr ⟨lh, p, hu⟩
  simp [no_commit h ht u] at this

theorem PinOk.frame {ts : Proc → Phase} (h : PinOk w ts) (hlh : w'.st.lh = w.st.lh)
    (hpinned : w'.gh.pinned = w.gh.pinned) (hcommit : ∀ u, w'.gh.inCommit u = w.gh.inCommit u)
    (hφ : ∀ lh p, φ = .committing lh p → ts t = .committing lh p)
    (hlisted : ∀ u, (update ts t φ u).PinsListed) : PinOk w' (update ts t φ) := by
  refine ⟨fun hno b => ?_, fun u lh p hu => ?_, hlisted⟩
  · rw [hpinned, hlh]
    exact h.idle (fun u => by rw [← hcommit u, hno u]) b
  · rw [hpinned]
    by_cases hut : u = t
    · subst hut
      exact h.commit u lh p (hφ lh p (by simpa using hu))
    · exact h.commit u lh p (by simpa [hut] using hu)

theorem PinOk.op {ts : Proc → Phase} (hlog : LogGood w ts) (h : PinOk w ts)
    (hcore : RefCore w.st w.gh.pinned loose)
    (hstep : PhaseStep γ o r (ts t) φ) (hlog' : LogGood w' (update ts t φ))
    (hexec : w.exec sb t γ o = .done r w') : PinOk w' (update ts t φ) := by
  obtain ⟨s', he, rfl⟩ := Outcome.map_eq_done.mp hexec
  have hlisted : ∀ u, (update ts t φ u).PinsListed := by
    intro u
    by_cases hu : u = t
    · subst hu
      rw [update_self]
      exact hstep.pinsListed (h.listed u)
    · rw [update_of_ne hu]
      exact h.listed u
  cases o with
  | bunpin b =>
    obtain ⟨i, hi, he⟩ := onBuf_eq_done.mp he
    cases he
    obtain ⟨lh, p, ht, hb, rfl⟩ := hstep
    have hc := hcore.caches_of_bufOf hi
    obtain ⟨hnodup, hp⟩ := h.commit t lh p ht
    have hcommit : w.gh.inCommit t = true := (inCommit hlog t).mpr ⟨lh, p, ht⟩
    simp only [note, hi, hc.2]
    refine ⟨fun hno => absurd hcommit (Bool.eq_false_iff.mp (hno t)), fun u lh' p' hu => ?_, hlisted⟩
    have hut : u = t := by
      by_contra hut
      have hu' : w.gh.inCommit u = true := (inCommit hlog u).mpr ⟨lh', p', by simpa [hut] using hu⟩
      exact hut (LogInv.unique hlog u t hu' hcommit)
    subst hut
    simp only [update_self, Phase.committing.injEq] at hu
    obtain ⟨rfl, rfl⟩ := hu
    refine ⟨hnodup.erase b, fun c => ?_⟩
    rw [hnodup.mem_erase_iff, hcore.nodup.mem_erase_iff, hp c]
  | logAppend b =>
    obtain ⟨i, hi, he⟩ := onBuf_eq_done.mp he
    cases he
    obtain ⟨ht, rfl⟩ := hstep
    have hno := no_commit hlog ht
    have hidle := h.idle hno
    simp only [note, hi, Ledger.log, logAppend]
    refine ⟨fun _ c => ?_, fun u lh p hu => ?_, hlisted⟩
    · split
      · exact hidle c
      · simp [hidle c, or_comm]
    · have hu' : ts u = .committing lh p := by
        by_cases hut : u = t
        · simp [hut] at hu
        · simpa [hut] using hu
      exact absurd hu' (hlog.not_committing_of_inOp ht lh p)
  | endOp =>
    obtain ⟨ht, hr⟩ := hstep
    have hno := no_commit hlog ht
    have hidle := h.idle hno
    have hlh : s'.lh = w.st.lh := by
      simp only [BState.exec] at he
      split at he
      · cases he
      · split at he <;> cases he <;> rfl
    refine ⟨fun _ b => by rw [note_endOp_pinned, hlh]; exact hidle b, fun u lh p hu => ?_, hlisted⟩
    rw [note_endOp_pinned]
    by_cases hut : u = t
    · subst hut
      rw [update_self] at hu
      subst hu
      have hh : lh = s'.lh := header hlog' u lh p (by simp)
      cases r with
      | false => simp at hr
      | true =>
        obtain ⟨l, hl⟩ : ∃ l, Phase.committing lh p = .committing l l := by simpa using hr
        cases hl
        rw [hh, hlh]
        exact ⟨nodup hlog, hidle⟩
    · exact absurd (by simpa [hut] using hu) (hlog.not_committing_of_inOp ht lh p)
  | endCommit =>
    cases he
    obtain ⟨ht, rfl⟩ := hstep
    obtain ⟨-, hp⟩ := h.commit t [] [] ht
    have hlh := header hlog t [] [] ht
    refine ⟨fun _ b => ?_, fun u lh p hu => ?_, hlisted⟩
    · simp only [note]
      rw [hp b, ← hlh]
    · have hut : u ≠ t := by
        rintro rfl
        simp at hu
      exact h.commit u lh p (by simpa [hut] using hu)
  | setLogHeader l =>
    cases he
    obtain ⟨rfl, ⟨lh, ht, rfl⟩ | ⟨ht, -⟩⟩ := hstep
    · obtain ⟨-, hp⟩ := h.commit t lh [] ht
      have hcommit : w.gh.inCommit t = true := (inCommit hlog t).mpr ⟨lh, [], ht⟩
      refine ⟨fun hno => absurd hcommit (Bool.eq_false_iff.mp (hno t)), fun u lh' p' hu => ?_,
        hlisted⟩
      by_cases hut : u = t
      · subst hut
        simp only [update_self, Phase.committing.injEq] at hu
        obtain ⟨rfl, rfl⟩ := hu
        exact ⟨List.nodup_nil, hp⟩
      · exact h.commit u lh' p' (by simpa [hut] using hu)
    · exact absurd ht (booted hlog t)
  | beginOp =>
    obtain ⟨-, rfl⟩ := hstep
    simp only [BState.exec] at he
    split at he
    · cases he
    · split at he <;> cases he
      exact h.frame rfl rfl (fun _ => rfl) (by simp) hlisted
  | logCheck =>
    obtain ⟨ht, rfl⟩ := hstep
    exact h.frame (exec_sameLog he id).1 rfl (fun _ => rfl) (by simp) hlisted
  | bwrite b =>
    obtain ⟨ht, -⟩ | ⟨-, rfl⟩ := hstep
    · exact absurd ht (booted hlog t)
    · exact h.frame (exec_sameLog he id).1 rfl (fun _ => rfl) (fun _ _ hφ => hφ) hlisted
  | _ =>
    cases hstep
    exact h.frame (exec_sameLog he id).1 rfl (fun _ => rfl) (fun _ _ hφ => hφ) hlisted

/-! ## Runs -/

structure RefGood (w : BWorld Proc) (ts : Proc → Phase × Option Nat) : Prop where
  log : LogGood w fun t => (ts t).1
  core : RefCore w.st w.gh.pinned fun t => (ts t).2
  pins : PinOk w fun t => (ts t).1

theorem RefGood.pre (h : RefGood w ts) (hstep : PhaseStep γ o r (ts t).1 φ) : PinPre w t γ o := by
  cases o with
  | bunpin b =>
    obtain ⟨lh, p, ht, hb, -⟩ := hstep
    exact ((h.pins.commit t lh p ht).2 b).mpr hb
  | logAppend b =>
    intro i _ hnew
    rwa [h.pins.idle (no_commit h.log hstep.1)]
  | _ => trivial

theorem RefGood.listed (h : RefGood w ts) (hb : b ∈ w.gh.pinned) : b ∈ w.st.lh := by
  by_cases hcommit : ∃ t, w.gh.inCommit t = true
  · obtain ⟨t, ht⟩ := hcommit
    obtain ⟨lh, p, hts⟩ := (inCommit h.log t).mp ht
    have hlisted := h.pins.listed t
    rw [hts] at hlisted
    have hhead : lh = w.st.lh := header h.log t lh p hts
    exact hhead ▸ hlisted b (((h.pins.commit t lh p hts).2 b).mp hb)
  · exact (h.pins.idle (fun t => by simpa using fun e => hcommit ⟨t, e⟩) b).mp hb

theorem RefGood.op (h : RefGood w ts) (hw : holdWp sb γ o Q (ts t))
    (hexec : w.exec sb t γ o = .done r w') : ∃ a, Q r a ∧ RefGood w' (update ts t a) := by
  obtain ⟨φ, ⟨hQ, hstep⟩, hlog⟩ := h.log.op (phaseWp_step hw.2) hexec
  refine ⟨(φ, looseNext γ o (ts t).2), hQ, ?_, ?_, ?_⟩
  · rw [Pool.fst_update]
    exact hlog
  · rw [Pool.snd_update]
    exact h.core.op hw.1 (h.pre hstep) hexec
  · rw [Pool.fst_update]
    exact h.pins.op h.log h.core hstep hlog hexec

theorem sound_callMachine_ref : Sound (callMachine sb : Machine Proc BOp (BWorld Proc))
    (holdWp sb) (fun a => a.1 = .outside ∧ a.2 = none) RefGood where
  start := by
    rintro t p ⟨φ, e⟩ hp ⟨rfl, rfl⟩
    exact holdWp_calls hp
  op := fun hgood _ hw he => hgood.op hw he

/-! ## Recovery from an empty log -/

/-- What holds while the boot process has not yet cleared the log. -/
structure RecGood (sb : Superblock) (w : BWorld Proc) (ts : Proc → Phase × Option Nat) : Prop where
  phase : (ts 0).1 = .recovering
  others : ∀ t, t ≠ 0 → (ts t).1 = .outside
  lh : w.st.lh = []
  outstanding : w.st.outstanding = 0
  committing : w.st.committing = false
  ledger : w.gh = .empty
  core : RefCore w.st [] fun t => (ts t).2
  disk : headBlocks (w.st.disk sb.logstart) = []
  head : ∀ i, (w.st.buf i).valid = true → w.st.Caches sb.logstart i →
    headBlocks (w.st.buf i).data = []

/-- Recovery, and what follows the write that clears the log. -/
def BootGood (sb : Superblock) (w : BWorld Proc) (ts : Proc → Phase × Option Nat) : Prop :=
  RecGood sb w ts ∨ RefGood w ts

/-- The buffers after `bget`: the data of a buffer is kept, or it was unused and is recycled. -/
theorem BState.bget_buf (h : s.bget t b = .done () s') (j : Fin NBUF) :
    (s'.buf j).valid = false ∧ (s.buf j).refcnt = 0 ∨
      (s'.buf j).dev = (s.buf j).dev ∧ (s'.buf j).blockno = (s.buf j).blockno ∧
      (s'.buf j).valid = (s.buf j).valid ∧ (s'.buf j).data = (s.buf j).data := by
  unfold bget at h
  split at h
  next i _ =>
    cases h
    right
    by_cases hj : j = i
    · subst hj
      simp [setPtr]
    · simp [setPtr, setBuf_ne _ _ hj]
  · split at h
    next i hi =>
      cases h
      have hzero : (s.buf i).refcnt = 0 := by simpa using List.find?_some hi
      by_cases hj : j = i
      · subst hj
        simp [setPtr, hzero]
      · simp [setPtr, setBuf_ne _ _ hj]
    · cases h

theorem BState.bget_disk (h : s.bget t b = .done () s') : s'.disk = s.disk := by
  unfold bget at h
  split at h
  · cases h
    rfl
  · split at h
    · cases h
      rfl
    · cases h

section
variable (h : RecGood sb w ts)
include h

/-- The header is not looked at by steps that keep the data of all buffers. -/
theorem RecGood.keep {e : Option Nat} (hsame : w.st.SameLog s')
    (hcore : RefCore s' [] (update (fun u => (ts u).2) 0 e)) (hdisk : s'.disk = w.st.disk)
    (hhead : ∀ j, (s'.buf j).valid = true → s'.Caches sb.logstart j → headBlocks (s'.buf j).data = []) :
    RecGood sb ⟨s', .empty⟩ (update ts 0 (.recovering, e)) where
  phase := by simp
  others := fun t ht => by simpa [ht] using h.others t ht
  lh := hsame.1.trans h.lh
  outstanding := hsame.2.1.trans h.outstanding
  committing := hsame.2.2.trans h.committing
  ledger := rfl
  core := by
    rw [Pool.snd_update]
    exact hcore
  disk := by
    rw [hdisk]
    exact h.disk
  head := hhead

theorem RecGood.head_setBuf {i : Fin NBUF} {f : Buf Proc → Buf Proc}
    (hbuf : s'.buf = (w.st.setBuf i f).buf)
    (hf : (f (w.st.buf i)).valid = true → (f (w.st.buf i)).dev = ROOTDEV →
      (f (w.st.buf i)).blockno = sb.logstart → headBlocks (f (w.st.buf i)).data = []) :
    ∀ j, (s'.buf j).valid = true → s'.Caches sb.logstart j → headBlocks (s'.buf j).data = [] := by
  intro j hv hc
  simp only [BState.Caches] at hc
  rw [hbuf] at hv hc ⊢
  by_cases hj : j = i
  · subst hj
    rw [BState.setBuf_same] at hv hc ⊢
    exact hf hv hc.1 hc.2
  · rw [setBuf_ne _ _ hj] at hv hc ⊢
    exact h.head j hv hc

theorem RecGood.op (hw : holdWp sb γ o Q (ts 0))
    (hexec : w.exec sb 0 γ o = .done r w') : ∃ a, Q r a ∧ BootGood sb w' (update ts 0 a) := by
  obtain ⟨hloose, hw⟩ := hw
  rw [h.phase] at hw
  have hpinned : w.gh.pinned = [] := by simp [h.ledger, empty]
  have hcore0 : RefCore w.st w.gh.pinned fun t => (ts t).2 := by
    rw [hpinned]
    exact h.core
  have hcore : PinPre w 0 γ o → RefCore w'.st w'.gh.pinned
      (update (fun t => (ts t).2) 0 (looseNext γ o (ts 0).2)) := fun hpre =>
    hcore0.op hloose hpre hexec
  obtain ⟨s', he, rfl⟩ := Outcome.map_eq_done.mp hexec
  have hgh : w.gh = .empty := h.ledger
  cases o with
  | bget b =>
    refine ⟨_, hw, .inl ?_⟩
    simp only [note, hgh] at hcore ⊢
    refine h.keep (exec_sameLog he id) (hcore trivial) (BState.bget_disk he) fun j hv hc => ?_
    rcases BState.bget_buf he j with ⟨hinv, -⟩ | ⟨hdev, hblk, hval, hdata⟩
    · simp [hinv] at hv
    · rw [hdata]
      exact h.head j (hval ▸ hv) ⟨hdev ▸ hc.1, hblk ▸ hc.2⟩
  | acquiresleep b | releasesleep b =>
    obtain ⟨i, hi, he'⟩ := onBuf_eq_done.mp he
    split at he'
    · cases he'
      refine ⟨_, hw, .inl ?_⟩
      simp only [note, hgh] at hcore ⊢
      exact h.keep (exec_sameLog he id) (hcore trivial) rfl
        (h.head_setBuf rfl fun hv hd hb => h.head i hv ⟨hd, hb⟩)
    · cases he'
  | unref b =>
    obtain ⟨i, hi, he'⟩ := onBuf_eq_done.mp he
    cases he'
    obtain ⟨hbuf, -, hdisk, -⟩ := w.st.unref_fields 0 b i
    refine ⟨_, hw, .inl ?_⟩
    simp only [note, hgh] at hcore ⊢
    exact h.keep (exec_sameLog he id) (hcore trivial) hdisk
      (h.head_setBuf hbuf fun hv hd hb => h.head i hv ⟨hd, hb⟩)
  | fill b =>
    obtain ⟨i, hi, he'⟩ := onBuf_eq_done.mp he
    have hc := h.core.caches_of_bufOf hi
    simp only [note, hgh] at hcore ⊢
    split at he'
    next hv =>
      cases he'
      refine ⟨_, hw _ fun hb => h.head i hv (hb ▸ hc), .inl ?_⟩
      exact h.keep (exec_sameLog he id) (hcore trivial) rfl h.head
    · cases he'
      have hdisk : (w.st.buf i).blockno = sb.logstart →
          headBlocks (w.st.disk (w.st.buf i).blockno) = [] := fun hb => hb ▸ h.disk
      refine ⟨_, hw _ fun hb => hdisk (hc.2.trans hb), .inl ?_⟩
      exact h.keep (exec_sameLog he id) (hcore trivial) rfl
        (h.head_setBuf rfl fun _ _ hb => hdisk hb)
  | setData b d =>
    obtain ⟨i, hi, he'⟩ := onBuf_eq_done.mp he
    cases he'
    have hc := h.core.caches_of_bufOf hi
    refine ⟨_, hw.2, .inl ?_⟩
    simp only [note, hgh] at hcore ⊢
    refine h.keep (exec_sameLog he id) (hcore trivial) rfl (h.head_setBuf rfl fun _ _ hb => hw.1 ?_)
    rw [← hc.2, hb]
  | bwrite b =>
    obtain ⟨i, hi, he'⟩ := onBuf_eq_done.mp he
    refine ⟨_, hw.2, .inr ?_⟩
    split at he'
    · cases he'
      simp only [note, hgh] at hcore ⊢
      have hphases : (fun u => (update ts 0
          (Phase.outside, looseNext Unit (.bwrite b) (ts 0).2) u).1) = fun _ => .outside := by
        funext u
        by_cases hu : u = 0
        · simp [hu]
        · simpa [hu] using h.others u hu
      refine ⟨?_, ?_, ?_⟩
      · rw [hphases]
        simp only [LogGood, h.lh, h.outstanding, h.committing]
        exact LogInv.idle
      · rw [Pool.snd_update]
        exact hcore trivial
      · rw [hphases]
        exact ⟨fun _ c => by simp [h.lh, empty], by simp, fun _ => trivial⟩
    · cases he'
  | logHeader =>
    cases he
    refine ⟨_, by rw [h.lh]; exact hw, .inl ?_⟩
    simp only [note, hgh] at hcore ⊢
    exact h.keep ⟨rfl, rfl, rfl⟩ (hcore trivial) rfl h.head
  | setLogHeader l =>
    cases he
    obtain ⟨rfl, hw⟩ := hw
    refine ⟨_, hw, .inl ?_⟩
    simp only [note, hgh] at hcore ⊢
    exact h.keep ⟨h.lh.symm, rfl, rfl⟩ (hcore trivial) rfl h.head
  | bunpin b => exact hw.elim
  | logCheck | logAppend b | beginOp | endOp | endCommit => exact absurd hw.1 (by simp)
  | panic msg => cases he

end

theorem sound_recoverMachine : Sound (recoverMachine sb) (holdWp sb)
    (fun a => a.1 = .outside ∧ a.2 = none) (BootGood sb) where
  start := fun hp _ => hp.elim
  op := by
    rintro w w' ts t γ o r Q (hrec | href) rfl hw hexec
    · exact hrec.op hw hexec
    · obtain ⟨a, hQ, hgood⟩ := href.op hw hexec
      exact ⟨a, hQ, .inr hgood⟩

theorem recover_typed (hhead : headN (disk sb.logstart) = 0)
    (h : Reach (recoverMachine sb) (bootConf sb disk) c) :
    ∃ ts, Typed (holdWp sb) (fun a => a.1 = .outside ∧ a.2 = none) (BootGood sb) c ts := by
  refine h.typed sound_recoverMachine
    ⟨fun t => if t = 0 then (.recovering, none) else (.outside, none), .inl ?_, fun t => ?_⟩
  · have hloose : (fun t : Proc => (if t = 0 then (Phase.recovering, (none : Option Nat))
        else (.outside, none)).2) = fun _ => none := by
      funext t
      split <;> rfl
    constructor
    case phase => rfl
    case others => exact fun t ht => by simp [ht]
    case lh => rfl
    case outstanding => rfl
    case committing => rfl
    case ledger => rfl
    case core =>
      rw [hloose]
      exact RefCore.boot disk
    case disk => exact headBlocks_eq_nil_of_headN hhead
    case head => exact fun i hv => by simp [bootConf, boot] at hv
  · by_cases ht : t = 0
    · subst ht
      simpa [bootConf] using holdWp_recoverFromLog sb
    · simp [bootConf, ht]

theorem BootGood.ready (h : BootGood sb w ts) (hidle : (ts 0).1 = .outside) : RefGood w ts :=
  h.resolve_left fun hrec => absurd (hrec.phase.symm.trans hidle) nofun

theorem booted_typed (hhead : headN (disk sb.logstart) = 0)
    (h : Reach (recoverMachine sb) (bootConf sb disk) c) (hdone : ∀ t, c.prog t = .pure ()) :
    ∃ ts, Typed (holdWp sb) (fun a => a.1 = .outside ∧ a.2 = none) RefGood c ts := by
  obtain ⟨ts, hgood, hwp⟩ := recover_typed hhead h
  have hidle := hwp 0
  rw [hdone] at hidle
  exact ⟨ts, hgood.ready hidle.1, hwp⟩

theorem BootGood.exact (h : BootGood sb w ts) :
    RefCore w.st w.gh.pinned (fun t => (ts t).2) ∧
      ((∀ t, w.gh.inCommit t = false) → ∀ b, b ∈ w.gh.pinned ↔ b ∈ w.st.lh) := by
  rcases h with hrec | href
  · have hpinned : w.gh.pinned = [] := by simp [hrec.ledger, empty]
    refine ⟨by rw [hpinned]; exact hrec.core, fun _ b => ?_⟩
    simp [hpinned, hrec.lh]
  · exact ⟨href.core, href.pins.idle⟩

theorem BootGood.listed (h : BootGood sb w ts) (hb : b ∈ w.gh.pinned) : b ∈ w.st.lh := by
  rcases h with hrec | href
  · simp [hrec.ledger, empty] at hb
  · exact href.listed hb

/-- Exact reference counts, across a boot that finds the log empty: in every state each count is
the number of references that processes have, plus one if the block is pinned; between commits the
pinned blocks are those of the header; and a buffer nobody uses has count zero, so that `bget` does
not run out of buffers while there is one. -/
theorem refcnt_exact (disk : Nat → Block) (hhead : headN (disk sb.logstart) = 0)
    {c : Conf Proc BOp (BWorld Proc)} (h : System (callMachine sb) sb disk c) :
    (∀ i, (c.st.st.buf i).refcnt.toNat =
      c.st.st.holders i + c.st.st.pins c.st.gh.pinned i) ∧
    ((∀ t, c.st.gh.inCommit t = false) → ∀ b, b ∈ c.st.gh.pinned ↔ b ∈ c.st.st.lh) ∧
    ∀ i, c.st.st.holders i = 0 → c.st.st.pins c.st.gh.pinned i = 0 →
      (c.st.st.buf i).refcnt = 0 ∧ ∀ t b msg, c.st.st.bget t b ≠ .panic msg := by
  have hgood : ∃ ts, BootGood sb c.st ts := by
    cases h with
    | recovering h =>
      obtain ⟨ts, hts⟩ := recover_typed hhead h
      exact ⟨ts, hts.good⟩
    | running h1 hdone h =>
      obtain ⟨ts, hts⟩ := h.typed sound_callMachine_ref (booted_typed hhead h1 hdone)
      exact ⟨ts, .inr hts.good⟩
  obtain ⟨ts, hts⟩ := hgood
  obtain ⟨hcore, hpins⟩ := hts.exact
  refine ⟨hcore.exact, hpins, fun i hhold hpin => ?_⟩
  have hzero : (c.st.st.buf i).refcnt = 0 := by
    apply BitVec.eq_of_toNat_eq
    rw [hcore.exact i, hhold, hpin]
    rfl
  refine ⟨hzero, fun t b msg hp => ?_⟩
  unfold bget at hp
  split at hp
  · cases hp
  · split at hp
    · cases hp
    next hvictim =>
      have := List.find?_eq_none.mp hvictim i (List.mem_reverse.mpr (hcore.lru i))
      simp [hzero] at this

/-- A boot from an empty log that has read the header: its buffer is in use once. -/
theorem refcnt_exact_boot :
    let c := (bootConf mkfsSuperblock fun _ _ => 0).sched (BWorld.exec mkfsSuperblock)
      (fun t _ _ _ => t = 0) (List.replicate 3 (0, .go))
    c.st.st.holders 0 = 1 ∧ (c.st.st.buf 0).refcnt.toNat = 1 ∧
      ∀ t b msg, c.st.st.bget t b ≠ .panic msg := by
  intro c
  have hreach : Reach (recoverMachine mkfsSuperblock)
      (bootConf mkfsSuperblock fun _ _ => 0) c :=
    Reach.sched _ (fun _ _ _ _ ht => by simpa [recoverMachine] using ht) .refl _ (by simp)
  obtain ⟨hexact, -, hfree⟩ := refcnt_exact _ (by decide) (.recovering hreach)
  have hhold : c.st.st.holders 0 = 1 := by decide +kernel
  have hpin : c.st.st.pins c.st.gh.pinned 0 = 0 := by decide +kernel
  refine ⟨hhold, by rw [hexact, hhold, hpin], (hfree 1 (by decide +kernel) (by decide +kernel)).2⟩

/-- A boot that finds a committed transaction of one block: when recovery is done nobody uses the
buffer of that block, nothing is pinned, and its count has wrapped. -/
theorem refcnt_wraps_on_recovery :
    ∃ c, System (callMachine mkfsSuperblock) mkfsSuperblock
        (fun b => if b = 2 then putHead (fun _ => 0) [50] else fun _ => 0) c ∧
      c.prog 0 = .pure () ∧ c.st.st.holders 2 = 0 ∧ c.st.st.pins c.st.gh.pinned 2 = 0 ∧
      (c.st.st.buf 2).blockno = 50 ∧ (c.st.st.buf 2).refcnt.toNat = 2 ^ 32 - 1 := by
  refine ⟨(bootConf mkfsSuperblock fun b =>
      if b = 2 then putHead (fun _ => 0) [50] else fun _ => 0).sched
    (recoverMachine mkfsSuperblock).exec (fun t _ _ _ => t = 0) (List.replicate 29 (0, .go)),
    .recovering ?_, rfl, by decide +kernel, by decide +kernel, by decide +kernel,
    by decide +kernel⟩
  exact Reach.sched _ (fun _ _ _ _ ht => by simpa [recoverMachine] using ht) .refl _ (by simp)

end Xv6
