import Xv6.Proc.Proofs.Family

/-!
# Slots that are not in use

What the code does to a slot that is not in use: `fork` takes it, fills it and may give it up again.
-/

namespace Xv6

open ProcState
open Kernel (instr setSlot goto)

variable {Cpu X L : Type} {pc : Pc X} {r p : Proc} {lkOf : X → L} {s s' : Kernel Cpu X L} {c : Cpu}
  {th : Thread Cpu} {i : Instr Cpu X L} {a : Act X} {e : ProcEvent}

namespace Pc

/-- The slot that `fork` fills, before it sets the parent. -/
def filling : Pc X → Option Proc
  | .forkFound np | .forkContext np | .forkCopy np | .forkParent np => some np
  | _ => none

/-- Neither at the slot that `fork` fills, nor at a slot that `kill` or `reparent` looks at. -/
def mild : Pc X → Bool
  | .forkFound _ | .forkContext _ | .forkCopy _ | .forkParent _ | .forkEnd _ | .exitGive _ _ _
  | .killHeld _ _ => false
  | _ => true

attribute [local simp] filling forking Pc.open mild resume leaving

theorem forking_of_filling (h : pc.filling = some r) : pc.forking = some r := by
  cases pc <;> simp_all

theorem forking_of_open (h : pc.open = true) : pc.forking = none := by
  cases pc <;> simp_all

theorem mild_of_open (h : pc.open = true) : pc.mild = true := by
  cases pc <;> simp_all

theorem mild_of_resume (h : pc.resume = true) : pc.mild = true := by
  cases pc <;> simp_all

theorem filling_of_mild (h : pc.mild = true) : pc.filling = none := by
  cases pc <;> simp_all

theorem resume_of_forking (h : pc.forking = some r) : pc.resume = false := by
  cases pc <;> simp_all

theorem filling_or_forkEnd (h : pc.forking = some r) : pc.filling = some r ∨ pc = .forkEnd r := by
  cases pc <;> simp_all

end Pc

/-! ## What the code does to free slots -/

/-- Thread `th` at `pc` leaves `new` in slot `r`, which is not in use, and goes on at `next`. -/
inductive Touch (s : Kernel Cpu X L) (th : Thread Cpu) (pc next : Pc X) (e : ProcEvent) (r : Proc)
    (new : ProcSlot Cpu X) : Prop
  | same (hnew : new = { s.slot r with lock := new.lock })
      (hfork : pc.forking = some r → next.forking = some r ∧ pc ≠ .forkParent r)
  | own (hth : th = .proc r) (hpc : pc.leaving = false)
  | kill {pid : BitVec 32} (hpc : pc = .killHeld pid r) (hpid : (s.slot r).pid = pid)
      (hparent : new.parent = (s.slot r).parent)
  | give {status : BitVec 32} {op : Proc} (hpc : pc = .exitGive status op r)
  | noFrame (hpc : pc = .forkFound r) (he : e = .noFrame r)
      (hparent : new.parent = (s.slot r).parent)
  | found (hpc : pc = .forkHeld r) (hnext : next = .forkFound r)
      (hnew : new = { s.slot r with pid := new.pid, lock := new.lock })
  | freed (hpc : pc.filling = some r) (hnext : next = .run)
      (hnew : new = { (s.slot r).freeproc with lock := new.lock })
  | fill (hpc : pc.filling = some r) (hnext : next.filling = some r)
      (hparent : new.parent = (s.slot r).parent) (hkilled : new.killed = (s.slot r).killed)
      (hofile : new.ofile = (s.slot r).ofile)
  | forked {p : Proc} (hth : th = .proc p) (hpc : pc = .forkParent r) (hnext : next = .forkEnd r)
      (hparent : new.parent = some p) (hkilled : new.killed = (s.slot r).killed)
  | born (hpc : pc = .forkEnd r) (hstate : new.state = RUNNABLE)

section
variable [DecidableEq X] {new : ProcSlot Cpu X}

theorem ProcSlot.wakeup_of_unused {q : ProcSlot Cpu X} (h : q.state = UNUSED) (ch : Chan X) :
    q.wakeup ch = q := by
  unfold wakeup
  rw [if_neg]
  rintro ⟨hstate, -⟩
  rw [h] at hstate
  cases hstate

theorem Does.touch (h : Does lkOf s c th pc e i) (hw : i.wrote = some (r, new))
    (hr : (s.slot r).state = UNUSED) : Touch s th pc i.next e r new := by
  cases h with
  | wakeHeld | exitInitHeld | exitWake =>
    cases hw
    exact .same (by rw [ProcSlot.wakeup_of_unused hr]) nofun
  | pick hq =>
    cases hw
    rw [hr] at hq
    cases hq
  | yieldHeld | sleepSet | yieldEnd | sleepEnd | exitZombie | waitFail | waitSleep | waitDone | forkret
  | waitEnd =>
    cases hw
    exact .own rfl rfl
  | kill hpid =>
    cases hw
    refine .kill rfl hpid ?_
    unfold ProcSlot.kill
    split <;> rfl
  | noFrame =>
    cases hw
    exact .noFrame rfl rfl rfl
  | noTable | noCopy =>
    cases hw
    exact .freed rfl rfl rfl
  | frame | copy =>
    cases hw
    exact .fill rfl rfl rfl rfl rfl
  | forkParent =>
    cases hw
    exact .forked rfl rfl rfl rfl rfl
  | forkEnd =>
    cases hw
    exact .born rfl rfl
  | exitGive =>
    cases hw
    exact .give rfl
  | _ => cases hw <;> exact .same rfl nofun

end

/-! ## Where threads come from -/

/-- Instructions that change a slot by themselves. -/
def Instr.direct : Instr Cpu X L → Bool
  | .allocpid _ _ | .closeFiles _ _ => true
  | _ => false

structure Instr.Tends (s : Kernel Cpu X L) (th : Thread Cpu) (pc : Pc X) (i : Instr Cpu X L) :
    Prop where
  forking : ∀ r, pc.forking = some r → (∃ new, i.wrote = some (r, new)) ∨
    (i.next.forking = some r ∧ pc ≠ .forkParent r)
  filling : ∀ r, i.next.filling = some r → pc.filling = some r ∨
    (pc = .forkHeld r ∧ (s.slot r).state = UNUSED)
  ending : ∀ r, i.next = .forkEnd r → pc = .forkParent r
  giving : ∀ status op r, i.next = .exitGive status op r →
    ∃ p j, th = .proc p ∧ pc = .exitScan status op j ∧ (s.slot r).parent = some p
  killing : ∀ pid r, i.next = .killHeld pid r → ∃ j, pc = .killScan pid j
  allocs : ∀ np k, i = .allocpid np k → pc = .forkHeld np ∧ k = .forkFound np
  closes : ∀ p k, i = .closeFiles p k → th = .proc p ∧ pc.leaving = false

section
variable [DecidableEq X]

section
omit [DecidableEq X]

theorem Instr.Tends.of_mild (hpc : pc.forking = none) (hnext : i.next.mild = true)
    (hi : i.direct = false) : i.Tends s th pc where
  forking r h := by
    rw [hpc] at h
    cases h
  filling r h := by
    rw [Pc.filling_of_mild hnext] at h
    cases h
  ending r h := by
    rw [h] at hnext
    cases hnext
  giving status op r h := by
    rw [h] at hnext
    cases hnext
  killing pid r h := by
    rw [h] at hnext
    cases hnext
  allocs np k h := by
    rw [h] at hi
    cases hi
  closes p k h := by
    rw [h] at hi
    cases hi

theorem Instr.Tends.of_wrote {new : ProcSlot Cpu X} (hpc : pc.forking = some r)
    (hw : i.wrote = some (r, new)) (hnext : ∀ r', i.next.filling = some r' → pc.filling = some r')
    (hend : ∀ r', i.next = .forkEnd r' → pc = .forkParent r')
    (hgive : ∀ status op r', i.next ≠ .exitGive status op r')
    (hkill : ∀ pid r', i.next ≠ .killHeld pid r') : i.Tends s th pc where
  forking r' h := by
    rw [hpc] at h
    cases h
    exact .inl ⟨new, hw⟩
  filling r' h := .inl (hnext r' h)
  ending := hend
  giving status op r' h := absurd h (hgive status op r')
  killing pid r' h := absurd h (hkill pid r')
  allocs np k h := by
    rw [h] at hw
    cases hw
  closes p k h := by
    rw [h] at hw
    cases hw

end

theorem Does.tends (h : Does lkOf s c th pc e i) (hof : pc.of th) : i.Tends s th pc := by
  cases h with
  | tick hopen | intr hopen => exact .of_mild (Pc.forking_of_open hopen) rfl rfl
  | wakeDone => exact .of_mild rfl (Pc.mild_of_open (Pc.open_of_wakeScan hof)) rfl
  | yieldEnd => exact .of_mild rfl (Pc.mild_of_open hof) rfl
  | load => exact .of_mild rfl (Pc.mild_of_resume (Bool.and_eq_true_iff.mp hof).1) rfl
  | test => split <;> exact .of_mild rfl rfl rfl
  | callExit =>
    refine ⟨nofun, nofun, nofun, nofun, nofun, nofun, ?_⟩
    rintro p k ⟨⟩
    exact ⟨rfl, rfl⟩
  | killNext =>
    refine ⟨nofun, nofun, nofun, nofun, ?_, nofun, nofun⟩
    rintro pid' r ⟨⟩
    exact ⟨_, rfl⟩
  | forkTake hq =>
    refine ⟨nofun, ?_, nofun, nofun, nofun, ?_, nofun⟩
    · rintro r ⟨⟩
      exact .inr ⟨rfl, hq⟩
    · rintro np k ⟨⟩
      exact ⟨rfl, rfl⟩
  | noFrame | noTable | noCopy | forkEnd => exact .of_wrote rfl rfl nofun nofun nofun nofun
  | frame | copy => exact .of_wrote rfl rfl (fun _ h => h) nofun nofun nofun
  | forkContext =>
    exact ⟨fun _ h => .inr ⟨h, nofun⟩, fun _ h => .inl h, nofun, nofun, nofun, nofun, nofun⟩
  | forkParent =>
    refine .of_wrote rfl rfl nofun ?_ nofun nofun
    rintro r ⟨⟩
    rfl
  | exitChild hj hq =>
    refine ⟨nofun, nofun, nofun, ?_, nofun, nofun, nofun⟩
    rintro st op r ⟨⟩
    exact ⟨_, _, rfl, rfl, hq⟩
  | _ => exact .of_mild rfl rfl rfl

theorem Code.tends (h : Code lkOf s c th e i) (hof : (s.pc th).of th) : i.Tends s th (s.pc th) :=
  h.does.tends hof

end

section
variable {next : Pc X}

theorem Touch.setLock {new : ProcSlot Cpu X} (h : Touch s th pc next e r new) (l : Option Cpu) :
    Touch s th pc next e r { new with lock := l } := by
  cases h with
  | same hnew hfork => exact .same (by rw [hnew]) hfork
  | own hth hpc => exact .own hth hpc
  | kill hpc hpid hparent => exact .kill hpc hpid hparent
  | give hpc => exact .give hpc
  | noFrame hpc he hparent => exact .noFrame hpc he hparent
  | found hpc hnext hnew => exact .found hpc hnext (by rw [hnew])
  | freed hpc hnext hnew => exact .freed hpc hnext (by rw [hnew])
  | fill hpc hnext hparent hkilled hofile => exact .fill hpc hnext hparent hkilled hofile
  | forked hth hpc hnext hparent hkilled => exact .forked hth hpc hnext hparent hkilled
  | born hpc hstate => exact .born hpc hstate

variable [DecidableEq Cpu] [DecidableEq X] [DecidableEq L]

theorem Code.touch (h : Code lkOf s c (s.exec c) e i) (hi : s.instr c (s.exec c) i = some s')
    (hof : (s.pc (s.exec c)).of (s.exec c)) (hr : (s.slot r).state = UNUSED) :
    Touch s (s.exec c) (s.pc (s.exec c)) i.next e r (s'.slot r) := by
  have htends := h.tends hof
  have hsame : (∀ new, i.wrote ≠ some (r, new)) →
      s'.slot r = { s.slot r with lock := (s'.slot r).lock } →
      Touch s (s.exec c) (s.pc (s.exec c)) i.next e r (s'.slot r) := by
    intro hno heq
    refine .same heq fun hfork => ?_
    rcases htends.forking r hfork with ⟨new, hw⟩ | hnext
    · exact absurd hw (hno new)
    · exact hnext
  have hnone : i.wrote = none → ∀ new, i.wrote ≠ some (r, new) := fun h new hw => by
    rw [h] at hw
    cases hw
  cases i with
  | acquire q k =>
    simp only [instr] at hi
    split at hi <;> cases hi
    refine hsame (hnone rfl) ?_
    by_cases hq : r = q
    · subst hq
      simp [setSlot, goto]
    · simp [setSlot, goto, hq]
  | write q new fl k | release q new fl k =>
    cases hi
    by_cases hq : r = q
    · subst hq
      simp only [setSlot, goto, Function.update_self]
      exact (h.does.touch rfl hr).setLock _
    · refine hsame (fun new' hw => ?_) ?_
      · cases hw
        exact hq rfl
      · simp [setSlot, goto, hq]
  | allocpid np k =>
    cases hi
    by_cases hq : r = np
    · subst hq
      obtain ⟨hpc, hk⟩ := htends.allocs r k rfl
      exact .found hpc hk (by simp [setSlot, goto])
    · exact hsame (hnone rfl) (by simp [setSlot, goto, hq])
  | closeFiles p k =>
    cases hi
    obtain ⟨hth, hpc⟩ := htends.closes p k rfl
    by_cases hq : r = p
    · subst hq
      exact .own hth hpc
    · exact hsame (hnone rfl) (by simp [setSlot, goto, hq])
  | acquireLk l k =>
    simp only [instr] at hi
    split at hi <;> cases hi
    exact hsame (hnone rfl) rfl
  | _ =>
    cases hi
    exact hsame (hnone rfl) rfl

end

section
variable [DecidableEq Cpu] [DecidableEq X] [DecidableEq L]

namespace KInv

section
omit [DecidableEq Cpu] [DecidableEq X] [DecidableEq L]

theorem used_of_exec (h : KInv lkOf s) (hexec : s.exec c = .proc r)
    (hpc : (s.pc (s.exec c)).leaving = false) : (s.slot r).state ≠ UNUSED := by
  rw [(h.running.active hexec).mpr (hexec ▸ hpc)]
  nofun

theorem eq_of_forking (h : KInv lkOf s) (hmem : r ∈ s.heldAt c)
    (hfork : (s.pc (.proc p)).forking = some r) : s.exec c = .proc p :=
  h.eq_of_held hmem (Pc.resume_of_forking hfork) (Pc.mem_held_of_forking hfork _)

end

section
variable (h : KInv lkOf s) (hcode : Code lkOf s c (s.exec c) e i)
  (hi : s.instr c (s.exec c) i = some s') (hth : .proc p ≠ s.exec c)
  (hfork : (s.pc (.proc p)).forking = some r)
include h hcode hi hth hfork

theorem forking_other : s'.pc (.proc p) = s.pc (.proc p) := by
  rcases h.pc_other hi hcode hth with heq | ⟨hres, -⟩
  · exact heq
  · rw [Pc.forking_of_resume hres] at hfork
    cases hfork

theorem touch_other : s'.slot r = { s.slot r with lock := (s'.slot r).lock } := by
  have hother : r ∉ s.heldAt c := fun hmem => hth (h.eq_of_forking hmem hfork).symm
  have hheld : ∀ {pc : Pc X}, s.pc (s.exec c) = pc → r ∉ pc.held (s.exec c).own := by
    rintro pc rfl
    exact hother
  cases hcode.touch hi (h.locks.of _) (h.running.forking hfork) with
  | same hnew => exact hnew
  | own hexec hpc => exact absurd (h.running.forking hfork) (h.used_of_exec hexec hpc)
  | kill hpc | noFrame hpc | found hpc | forked _ hpc | born hpc =>
    exact absurd (List.mem_singleton_self r) (hheld hpc)
  | give hpc => exact absurd List.mem_cons_self (hheld hpc)
  | freed hpc | fill hpc =>
    exact absurd (Pc.mem_held_of_forking (Pc.forking_of_filling hpc) _) (hheld rfl)

end

end KInv

end

end Xv6
