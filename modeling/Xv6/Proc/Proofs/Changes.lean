import Xv6.Proc.Proofs.OneCpu

/-!
# What a step can do

The ways in which the code changes the state, the channel and the parent of a slot, and what it shows.
-/

namespace Xv6

open ProcState

variable {Cpu X L : Type} {lkOf : X → L} {s : Kernel Cpu X L} {c : Cpu} {th : Thread Cpu}
  {pc : Pc X} {i : Instr Cpu X L} {e : ProcEvent}

/-- Thread `th` at `pc` writes `new` to slot `q`. -/
inductive Change (s : Kernel Cpu X L) (th : Thread Cpu) (pc : Pc X) (q : Proc) (new : ProcSlot Cpu X) :
    Prop
  | same (hstate : new.state = (s.slot q).state) (hchan : new.chan = (s.slot q).chan)
      (hparent : new.parent = (s.slot q).parent)
  | woken (hold : (s.slot q).state = SLEEPING) (hstate : new.state = RUNNABLE)
      (hparent : new.parent = (s.slot q).parent)
  | picked (hold : (s.slot q).state = RUNNABLE) (hstate : new.state = RUNNING)
      (hparent : new.parent = (s.slot q).parent)
  | yields (hth : th = .proc q) (hstate : new.state = RUNNABLE)
      (hparent : new.parent = (s.slot q).parent)
  | sleeps {x : X} (hth : th = .proc q) (hpc : pc = .sleepSet x) (hstate : new.state = SLEEPING)
      (hchan : new.chan = some (.chan x)) (hparent : new.parent = (s.slot q).parent)
  | waits {addr : Nat} {flags : BitVec 32} {i : Nat} {havekids : Bool} (hth : th = .proc q)
      (hpc : pc = .waitScan addr flags i havekids) (hi : NPROC ≤ i) (hflags : flags ≠ 1)
      (hstate : new.state = SLEEPING) (hchan : new.chan = some (.proc q))
      (hparent : new.parent = (s.slot q).parent)
  | wakes (hth : th = .proc q) (hstate : new.state = (s.slot q).state) (hchan : new.chan = none)
      (hparent : new.parent = (s.slot q).parent)
  | freed (hpc : pc.forking = some q) (hstate : new.state = UNUSED) (hparent : new.parent = none)
  | forked {p : Proc} (hth : th = .proc p) (hpc : pc = .forkParent q)
      (hstate : new.state = (s.slot q).state) (hchan : new.chan = (s.slot q).chan)
      (hparent : new.parent = some p)
  | born (hpc : pc = .forkEnd q) (hstate : new.state = RUNNABLE)
      (hparent : new.parent = (s.slot q).parent)
  | given {p op : Proc} {status : BitVec 32} (hth : th = .proc p) (hpc : pc = .exitGive status op q)
      (hstate : new.state = (s.slot q).state) (hchan : new.chan = (s.slot q).chan)
      (hparent : new.parent = some initproc)
  | dies {op : Proc} {status : BitVec 32} (hth : th = .proc q) (hpc : pc = .exitZombie status op)
      (hstate : new.state = ZOMBIE) (hparent : new.parent = (s.slot q).parent)

section
variable [DecidableEq X] {q : Proc} {new : ProcSlot Cpu X}

theorem Change.wakeup (ch : Chan X) : Change s th pc q ((s.slot q).wakeup ch) := by
  unfold ProcSlot.wakeup
  split
  · exact .woken (‹_ ∧ _›).1 rfl rfl
  · exact .same rfl rfl rfl

omit [DecidableEq X] in
theorem Change.kill : Change s th pc q (s.slot q).kill := by
  unfold ProcSlot.kill
  split
  · exact .woken ‹_› rfl rfl
  · exact .same rfl rfl rfl

theorem Does.change (h : Does lkOf s c th pc e i) (hw : i.wrote = some (q, new)) :
    Change s th pc q new := by
  cases h with
  | wakeHeld | exitInitHeld | exitWake =>
    cases hw
    exact .wakeup _
  | pick hq =>
    cases hw
    exact .picked hq rfl rfl
  | yieldHeld =>
    cases hw
    exact .yields rfl rfl rfl
  | sleepSet =>
    cases hw
    exact .sleeps rfl rfl rfl rfl rfl
  | waitSleep hj hflags =>
    cases hw
    exact .waits rfl rfl (Nat.le_of_not_lt hj) hflags rfl rfl rfl
  | sleepEnd | waitEnd =>
    cases hw
    exact .wakes rfl rfl rfl rfl
  | kill =>
    cases hw
    exact .kill
  | noTable | noCopy =>
    cases hw
    exact .freed rfl rfl rfl
  | forkParent =>
    cases hw
    exact .forked rfl rfl rfl rfl rfl
  | forkEnd =>
    cases hw
    exact .born rfl rfl rfl
  | exitGive =>
    cases hw
    exact .given rfl rfl rfl rfl rfl
  | exitZombie =>
    cases hw
    exact .dies rfl rfl rfl rfl
  | _ => cases hw <;> exact .same rfl rfl rfl

end

section
variable {s' : Kernel Cpu X L}

theorem Change.congr {q : Proc} {new new' : ProcSlot Cpu X}
    (h : Change s th pc q new) (hstate : new'.state = new.state) (hchan : new'.chan = new.chan)
    (hparent : new'.parent = new.parent) : Change s th pc q new' := by
  cases h with
  | same h1 h2 h3 => exact .same (hstate.trans h1) (hchan.trans h2) (hparent.trans h3)
  | woken h1 h2 h3 => exact .woken h1 (hstate.trans h2) (hparent.trans h3)
  | picked h1 h2 h3 => exact .picked h1 (hstate.trans h2) (hparent.trans h3)
  | yields h1 h2 h3 => exact .yields h1 (hstate.trans h2) (hparent.trans h3)
  | sleeps h1 h2 h3 h4 h5 =>
    exact .sleeps h1 h2 (hstate.trans h3) (hchan.trans h4) (hparent.trans h5)
  | waits h1 h2 h3 h4 h5 h6 h7 =>
    exact .waits h1 h2 h3 h4 (hstate.trans h5) (hchan.trans h6) (hparent.trans h7)
  | wakes h1 h2 h3 h4 => exact .wakes h1 (hstate.trans h2) (hchan.trans h3) (hparent.trans h4)
  | freed h1 h2 h3 => exact .freed h1 (hstate.trans h2) (hparent.trans h3)
  | forked h1 h2 h3 h4 h5 =>
    exact .forked h1 h2 (hstate.trans h3) (hchan.trans h4) (hparent.trans h5)
  | born h1 h2 h3 => exact .born h1 (hstate.trans h2) (hparent.trans h3)
  | given h1 h2 h3 h4 h5 => exact .given h1 h2 (hstate.trans h3) (hchan.trans h4) (hparent.trans h5)
  | dies h1 h2 h3 h4 => exact .dies h1 h2 (hstate.trans h3) (hparent.trans h4)

variable [DecidableEq Cpu] [DecidableEq X] [DecidableEq L]

/-- A slot after a step is the one that was written, or it has kept its state, channel and parent. -/
theorem Kernel.instr_slot_cases (hi : s.instr c (s.exec c) i = some s') (r : Proc) :
    (∃ new, i.wrote = some (r, new) ∧ (s'.slot r).state = new.state ∧ (s'.slot r).chan = new.chan ∧
      (s'.slot r).parent = new.parent) ∨
    ((∀ new, i.wrote ≠ some (r, new)) ∧ (s'.slot r).state = (s.slot r).state ∧
      (s'.slot r).chan = (s.slot r).chan ∧ (s'.slot r).parent = (s.slot r).parent) := by
  have hstate := instr_slot hi ProcSlot.state (fun _ _ => rfl) (fun _ _ => rfl) (fun _ _ => rfl) r
  have hchan := instr_slot hi ProcSlot.chan (fun _ _ => rfl) (fun _ _ => rfl) (fun _ _ => rfl) r
  have hparent := instr_slot hi ProcSlot.parent (fun _ _ => rfl) (fun _ _ => rfl) (fun _ _ => rfl) r
  cases hw : i.wrote with
  | none =>
    simp only [hw] at hstate hchan hparent
    exact .inr ⟨nofun, hstate, hchan, hparent⟩
  | some w =>
    obtain ⟨q, new⟩ := w
    simp only [hw] at hstate hchan hparent
    by_cases hr : r = q
    · rw [if_pos hr] at hstate hchan hparent
      exact .inl ⟨new, by rw [hr], hstate, hchan, hparent⟩
    · rw [if_neg hr] at hstate hchan hparent
      refine .inr ⟨?_, hstate, hchan, hparent⟩
      rintro new' ⟨⟩
      exact hr rfl

theorem Code.change_slot (h : Code lkOf s c (s.exec c) e i) (hi : s.instr c (s.exec c) i = some s')
    (r : Proc) : Change s (s.exec c) (s.pc (s.exec c)) r (s'.slot r) := by
  rcases Kernel.instr_slot_cases hi r with ⟨new, hw, hstate, hchan, hparent⟩ | ⟨-, hstate, hchan, hparent⟩
  · exact (h.does.change hw).congr hstate hchan hparent
  · exact .same hstate hchan hparent

end

/-- The condition that an instruction sets. -/
def Instr.conds : Instr Cpu X L → Option (X × Bool)
  | .setCond x v _ => some (x, v)
  | _ => none

/-! ## Events -/

/-- An event of thread `th` at `pc`, before its instruction. -/
inductive Shows (s : Kernel Cpu X L) (th : Thread Cpu) (pc : Pc X) (i : Instr Cpu X L) :
    ProcEvent → Prop
  | quiet : Shows s th pc i .quiet
  | reaped {p np : Proc} {addr : Nat} {flags : BitVec 32} (hth : th = .proc p)
      (hpc : pc = .waitHeld addr flags np) (hstate : (s.slot np).state = ZOMBIE)
      (hi : i = .release np (s.slot np) s.freelist .waitDone) :
      Shows s th pc i (.reaped p np (s.slot np).pid (if addr = 0 then none else some (s.slot np).xstate))
  | waitFailed {p : Proc} (hth : th = .proc p)
      (hpc : (∃ addr flags j havekids, pc = .waitScan addr flags j havekids ∧ NPROC ≤ j) ∨
        ∃ addr flags np, pc = .waitHeld addr flags np ∧ (s.slot np).state = ZOMBIE) :
      Shows s th pc i (.waitFailed p)
  | killed {r : Proc} (hpc : pc = .killHeld (s.slot r).pid r)
      (hi : i = .release r (s.slot r).kill s.freelist .run) : Shows s th pc i (.killed (s.slot r).pid r)
  | forked {np : Proc} (hpc : pc = .forkEnd np)
      (hi : i = .release np { s.slot np with state := RUNNABLE } s.freelist .run) :
      Shows s th pc i (.forked np)
  | noFrame {np : Proc} (hpc : pc = .forkFound np) : Shows s th pc i (.noFrame np)

section
variable [DecidableEq X]

theorem Does.shows (h : Does lkOf s c th pc e i) : Shows s th pc i e := by
  cases h with
  | reap hq => exact .reaped rfl rfl hq rfl
  | waitFail hj => exact .waitFailed rfl (.inl ⟨_, _, _, _, rfl, Nat.le_of_not_lt hj⟩)
  | waitFault hq => exact .waitFailed rfl (.inr ⟨_, _, _, rfl, hq.1⟩)
  | kill hpid =>
    subst hpid
    exact .killed rfl rfl
  | forkEnd => exact .forked rfl rfl
  | noFrame => exact .noFrame rfl
  | _ => exact .quiet

theorem Code.shows (h : Code lkOf s c th e i) : Shows s th (s.pc th) i e := h.does.shows

end

end Xv6
