import Xv6.Proc.Proofs.Changes

/-!
# No lost wakeups

A process that calls `sleep` has found the condition false, and it holds the lock of the channel until
it has its own. From then on it is asleep, or about to be, and the condition is false or a `wakeup`
that still has to come to its slot is under way.
-/

namespace Xv6

open ProcState
open Kernel (lkAt heldAt instr_here)

variable {Cpu X L : Type}

namespace Pc

/-- In `sleep` with the lock of channel `x`. -/
def sleeping : Pc X → Option X
  | .sleep x | .sleepRelease x => some x
  | _ => none

/-- In `wakeup` of channel `x`, at slot `p` or before. -/
def wakes (x : X) (p : Proc) : Pc X → Prop
  | .wakeScan y i _ => y = x ∧ i ≤ p
  | .wakeHeld y i _ => y = x ∧ i ≤ p
  | _ => False

variable {pc : Pc X} {x : X} {p : Proc}

attribute [local simp] sleeping heldLk resume Pc.open wakes

theorem heldLk_of_sleeping (h : pc.sleeping = some x) (lkOf : X → L) :
    pc.heldLk lkOf = some (lkOf x) := by
  cases pc <;> simp_all

theorem sleeping_of_resume (h : pc.resume = true) : pc.sleeping = none := by
  cases pc <;> simp_all

theorem sleeping_of_open (h : pc.open = true) : pc.sleeping = none := by
  cases pc <;> simp_all

theorem not_wakes_of_resume (h : pc.resume = true) : ¬ pc.wakes x p := by
  cases pc <;> simp_all

theorem not_wakes_of_open (h : pc.open = true) : ¬ pc.wakes x p := by
  cases pc <;> simp_all

theorem ne_sleepSet_of_open (h : pc.open = true) : pc ≠ .sleepSet x := by
  rintro rfl
  cases h

end Pc

/-! ## What the code does about sleepers -/

/-- What an instruction at `pc` means to those who sleep. -/
structure Instr.Wakeful [DecidableEq X] (s : Kernel Cpu X L) (pc : Pc X) (i : Instr Cpu X L) :
    Prop where
  sleeping : ∀ x, i.next.sleeping = some x → s.cond x = false ∨ pc.sleeping = some x
  setting : ∀ x, i.next = .sleepSet x → pc.sleeping = some x
  wakes : ∀ x p, pc.wakes x p → i.next.wakes x p ∨ ∃ back, pc = .wakeHeld x p back
  woken : ∀ x p back, pc = .wakeHeld x p back → i.wrote = some (p, (s.slot p).wakeup (.chan x))
  conds : ∀ x, i.conds = some (x, true) → ∃ back, pc = .wakeSet x back ∧ i.next = .wakeScan x 0 back

section
variable [DecidableEq X] {lkOf : X → L} {s : Kernel Cpu X L} {c : Cpu} {th : Thread Cpu}
  {pc : Pc X} {i : Instr Cpu X L} {e : ProcEvent}

theorem Instr.Wakeful.of_not (hwakes : ∀ x p, ¬ pc.wakes x p) (hsleep : ∀ x, i.next.sleeping ≠ some x)
    (hset : ∀ x, i.next ≠ .sleepSet x) (hconds : i.conds = none) : i.Wakeful s pc where
  sleeping x h := absurd h (hsleep x)
  setting x h := absurd h (hset x)
  wakes x p h := absurd h (hwakes x p)
  woken x p back h := absurd (show pc.wakes x p by rw [h]; exact ⟨rfl, le_rfl⟩) (hwakes x p)
  conds x h := by
    rw [hconds] at h
    cases h

theorem Does.wakeful (h : Does lkOf s c th pc e i) (hof : pc.of th) : i.Wakeful s pc := by
  cases h with
  | tick hopen | intr hopen => exact .of_not (fun _ _ => Pc.not_wakes_of_open hopen) nofun nofun rfl
  | wakeSet =>
    refine ⟨nofun, nofun, nofun, nofun, ?_⟩
    rintro y ⟨⟩
    exact ⟨_, rfl, rfl⟩
  | wakeNext => exact ⟨nofun, nofun, fun _ _ hw => .inl hw, nofun, nofun⟩
  | wakeDone hj =>
    -- no slot is left
    have hback := Pc.open_of_wakeScan hof
    refine .of_not ?_ (fun y => ?_) (fun y => Pc.ne_sleepSet_of_open hback) rfl
    · rintro y p ⟨-, hle⟩
      exact hj (hle.trans_lt p.isLt)
    · rw [Instr.next, Pc.sleeping_of_open hback]
      nofun
  | @wakeHeld _ _ _ back =>
    refine ⟨nofun, nofun, ?_, ?_, nofun⟩
    · rintro y p ⟨rfl, hle⟩
      rcases hle.eq_or_lt with rfl | hlt
      · exact .inr ⟨back, rfl⟩
      · exact .inl ⟨rfl, hlt⟩
    · rintro y p back' ⟨⟩
      rfl
  | yieldEnd =>
    refine .of_not nofun (fun y => ?_) (fun y => Pc.ne_sleepSet_of_open hof) rfl
    rw [Instr.next, Pc.sleeping_of_open hof]
    nofun
  | load =>
    have hk := (Bool.and_eq_true_iff.mp hof).1
    refine .of_not nofun (fun y => ?_) (fun y => ?_) rfl
    · rw [Instr.next, Pc.sleeping_of_resume hk]
      nofun
    · rintro rfl
      cases hk
  | @test _ x =>
    by_cases hcond : s.cond x = true
    · rw [if_pos hcond]
      exact .of_not nofun nofun nofun rfl
    · rw [if_neg hcond]
      refine ⟨?_, nofun, nofun, nofun, nofun⟩
      rintro y ⟨⟩
      exact .inl (Bool.not_eq_true _ ▸ hcond)
  | reset => exact ⟨nofun, nofun, nofun, nofun, nofun⟩
  | sleep => exact ⟨fun _ hy => .inr hy, nofun, nofun, nofun, nofun⟩
  | sleepRelease =>
    refine ⟨nofun, ?_, nofun, nofun, nofun⟩
    rintro y ⟨⟩
    rfl
  | _ => exact .of_not nofun nofun nofun rfl

theorem Code.wakeful (h : Code lkOf s c th e i) (hof : (s.pc th).of th) : i.Wakeful s (s.pc th) :=
  h.does.wakeful hof

end

/-! ## Sleepers -/

/-- `p` is about to set its state, or it is `SLEEPING` on channel `x`. -/
def Kernel.Asleep (s : Kernel Cpu X L) (p : Proc) (x : X) : Prop :=
  s.pc (.proc p) = .sleepSet x ∨
    ((s.slot p).state = SLEEPING ∧ (s.slot p).chan = some (.chan x))

structure Sleepers (s : Kernel Cpu X L) : Prop where
  tested : ∀ {p x}, (s.pc (.proc p)).sleeping = some x → s.cond x = false
  covered : ∀ {p x}, s.Asleep p x → s.cond x = false ∨ ∃ th, (s.pc th).wakes x p

section
variable {lkOf : X → L} {s s' : Kernel Cpu X L} {c : Cpu} {p q : Proc} {x : X}

section
variable (h : KInv lkOf s)
include h

theorem KInv.exec_of_resume (hpc : (s.pc (.proc p)).resume = false) : ∃ c, s.exec c = .proc p := by
  by_contra hno
  rw [h.running.resume fun c hc => hno ⟨c, hc⟩] at hpc
  cases hpc

theorem KInv.exec_proc (hpc : (s.pc (s.exec c)).ofSched = false) : ∃ p, s.exec c = .proc p := by
  cases hexec : s.exec c with
  | proc p => exact ⟨p, rfl⟩
  | sched c' =>
    have hof := h.locks.of (s.exec c)
    rw [hexec] at hof hpc
    rw [show (s.pc (.sched c')).ofSched = true from hof] at hpc
    cases hpc

theorem KInv.eq_of_heldLk {l : L} (hc : (s.pc (s.exec c)).heldLk lkOf = some l)
    (hp : (s.pc (.proc p)).heldLk lkOf = some l) : s.exec c = .proc p := by
  obtain ⟨c', hexec⟩ : ∃ c', s.exec c' = .proc p := by
    refine h.exec_of_resume ?_
    by_contra hres
    rw [Pc.heldLk_of_resume (by simpa using hres)] at hp
    cases hp
  have hl : l ∈ s.lkAt lkOf c := by simp [lkAt, hc]
  have hl' : l ∈ s.lkAt lkOf c' := by simp [lkAt, hexec, hp]
  rw [h.locks.lk.eq_of_mem hl hl', hexec]

theorem KInv.eq_of_held (hc : q ∈ s.heldAt c) (hpc : (s.pc (.proc p)).resume = false)
    (hp : q ∈ (s.pc (.proc p)).held [p]) : s.exec c = .proc p := by
  obtain ⟨c', hexec⟩ := h.exec_of_resume hpc
  have hq : q ∈ s.heldAt c' := by
    unfold heldAt
    rw [hexec]
    exact hp
  rw [h.locks.proc.eq_of_mem hc hq, hexec]

end

variable [DecidableEq Cpu] [DecidableEq X] [DecidableEq L] {i : Instr Cpu X L} {e : ProcEvent}

theorem Kernel.instr_cond (hi : s.instr c (s.exec c) i = some s') (hx : s'.cond x = true) :
    s.cond x = true ∨ i.conds = some (x, true) := by
  cases i with
  | acquire q k | acquireLk l k =>
    simp only [instr] at hi
    split at hi <;> cases hi
    exact .inl hx
  | setCond y v k =>
    cases hi
    by_cases hy : x = y
    · subst hy
      rw [show v = true from (Function.update_self ..).symm.trans hx]
      exact .inr rfl
    · exact .inl ((Function.update_of_ne hy ..).symm.trans hx)
  | _ =>
    cases hi
    exact .inl hx

omit [DecidableEq Cpu] in
theorem ProcSlot.wakeup_not_asleep {ch : Chan X} {sl : ProcSlot Cpu X}
    (hstate : (sl.wakeup ch).state = SLEEPING) : (sl.wakeup ch).chan ≠ some ch := by
  unfold wakeup at hstate ⊢
  split at hstate
  · cases hstate
  next hnot =>
    rw [if_neg hnot]
    exact fun hchan => hnot ⟨hstate, hchan⟩

namespace Sleepers

/-- Who is asleep after a step was so before, or has just released the lock of the channel. -/
theorem asleep_cases (h : KInv lkOf s) (hcode : Code lkOf s c (s.exec c) e i)
    (hi : s.instr c (s.exec c) i = some s') (hp : s'.Asleep p x) :
    s.Asleep p x ∨ (s.exec c = .proc p ∧ i.next = .sleepSet x) := by
  rcases hp with hpc | ⟨hstate, hchan⟩
  · rcases h.pc_cases hcode hi hpc nofun with ⟨hth, hpc⟩ | ⟨hth, hpc⟩
    · exact .inr ⟨hth.symm, hpc⟩
    · exact .inl (.inl hpc)
  refine .inl ?_
  cases hcode.change_slot hi p with
  | same hs hc hp | forked hth hpc hs hc hp | given hth hpc hs hc hp =>
    exact .inr ⟨hs ▸ hstate, hc ▸ hchan⟩
  | sleeps hth hpc hs hc hp =>
    rw [hchan] at hc
    cases hc
    exact .inl (hth ▸ hpc)
  | waits hth hpc hj hflags hs hc hp | wakes hth hs hc hp =>
    rw [hchan] at hc
    cases hc
  | woken _ hs | picked _ hs | yields _ hs | freed _ hs | born _ hs | dies _ _ hs =>
    rw [hstate] at hs
    cases hs

theorem not_asleep (h : KInv lkOf s) (hcode : Code lkOf s c (s.exec c) e i)
    (hi : s.instr c (s.exec c) i = some s') {back : Pc X}
    (hpc : s.pc (s.exec c) = .wakeHeld x p back) : ¬ s'.Asleep p x := by
  have hw := (hcode.wakeful (h.locks.of _)).woken x p back hpc
  rintro (hset | ⟨hstate, hchan⟩)
  · -- who is about to sleep holds its own lock
    rcases h.pc_cases hcode hi hset nofun with ⟨hth, hset⟩ | ⟨hth, hset⟩
    · have := (hcode.wakeful (h.locks.of _)).setting x hset
      rw [hpc] at this
      cases this
    refine hth (h.eq_of_held (q := p) ?_ ?_ ?_).symm
    · unfold heldAt
      rw [hpc]
      exact List.mem_singleton_self p
    · rw [hset]
      rfl
    · rw [hset]
      exact List.mem_singleton_self p
  · rcases Kernel.instr_slot_cases hi p with ⟨new, hnew, hs, hc, -⟩ | ⟨hno, -⟩
    · rw [hw] at hnew
      cases hnew
      rw [hs] at hstate
      rw [hc] at hchan
      exact ProcSlot.wakeup_not_asleep hstate hchan
    · exact hno _ hw

theorem step (h : Sleepers s) (hinv : KInv lkOf s) (hs : KStep lkOf s e s') : Sleepers s' := by
  obtain ⟨hcode, hi⟩ := hs
  rename_i c i
  have hw := hcode.wakeful (hinv.locks.of _)
  -- a condition that is true now was so, or the thread has just made it true
  have hcond : ∀ x, s.cond x = false → s'.cond x = false ∨
      ∃ back, s.pc (s.exec c) = .wakeSet x back ∧ i.next = .wakeScan x 0 back := by
    intro x hx
    cases hx' : s'.cond x with
    | false => exact .inl rfl
    | true =>
      rcases Kernel.instr_cond hi hx' with hold | hset
      · rw [hx] at hold
        cases hold
      · exact .inr (hw.conds x hset)
  refine ⟨fun {p x} hp => ?_, fun {p x} hp => ?_⟩
  · rcases hinv.view_cases Pc.sleeping hcode hi hp nofun with ⟨hth, hp⟩ | ⟨hth, hp⟩
    · have hx : s.cond x = false := by
        rcases hw.sleeping x hp with hx | hold
        · exact hx
        · exact h.tested (hth ▸ hold)
      rcases hcond x hx with hx' | ⟨back, -, hnext⟩
      · exact hx'
      · rw [hnext] at hp
        cases hp
    · rcases hcond x (h.tested hp) with hx' | ⟨back, hpc, -⟩
      · exact hx'
      · -- both would hold the lock of the channel
        refine absurd (hinv.eq_of_heldLk ?_ (Pc.heldLk_of_sleeping hp lkOf)).symm hth
        rw [hpc]
        rfl
  · rcases asleep_cases hinv hcode hi hp with hold | ⟨hexec, hnext⟩
    · rcases h.covered hold with hx | ⟨th, hth⟩
      · rcases hcond x hx with hx' | ⟨back, -, hnext⟩
        · exact .inl hx'
        · refine .inr ⟨s.exec c, ?_⟩
          rw [instr_here hi, hnext]
          exact ⟨rfl, Nat.zero_le _⟩
      · refine .inr ?_
        by_cases heq : th = s.exec c
        · subst heq
          rcases hw.wakes x p hth with hnext | ⟨back, hpc⟩
          · exact ⟨s.exec c, by rwa [instr_here hi]⟩
          · exact absurd hp (not_asleep hinv hcode hi hpc)
        · rcases hinv.pc_other hi hcode heq with hpc | ⟨hres, -⟩
          · exact ⟨th, by rwa [hpc]⟩
          · exact absurd hth (Pc.not_wakes_of_resume hres)
    · have hx := h.tested (hexec ▸ hw.setting x hnext)
      rcases hcond x hx with hx' | ⟨back, -, hnext'⟩
      · exact .inl hx'
      · rw [hnext] at hnext'
        cases hnext'

omit [DecidableEq X] [DecidableEq L] in
theorem boot {tf : Page} {pt free : List Page} {cond : X → Bool} :
    Sleepers (Kernel.boot tf pt free cond : Kernel Cpu X L) := by
  refine ⟨nofun, ?_⟩
  rintro p x (hpc | ⟨hstate, -⟩)
  · cases hpc
  · by_cases hp : p = initproc
    · simp [Kernel.boot, hp] at hstate
    · simp [Kernel.boot, hp, ProcSlot.empty] at hstate

end Sleepers

theorem KRun.sleepers {ok : Kernel Cpu X L → ProcEvent → Kernel Cpu X L → Prop} {s0 : Kernel Cpu X L}
    {es : List ProcEvent} (h : KRun lkOf ok s0 es s) (h0 : KInv lkOf s0) (hs0 : Sleepers s0) :
    Sleepers s := by
  induction h with
  | boot => exact hs0
  | step hrun _ hs ih => exact ih.step (hrun.inv h0) hs

/-- No wakeup is lost: when the condition of a channel is true and a process is `SLEEPING` on it, a
thread that has made the condition true is in `wakeup` and has yet to come to the process. -/
theorem no_lost_wakeup (tf : Page) (pt free : List Page) (cond : X → Bool) {es : List ProcEvent}
    (h : KRun lkOf (fun _ _ _ => True) (.boot tf pt free cond) es s) (hcond : s.cond x = true)
    (hstate : (s.slot p).state = SLEEPING) (hchan : (s.slot p).chan = some (.chan x)) :
    ∃ th, (s.pc th).wakes x p := by
  rcases (h.sleepers KInv.boot Sleepers.boot).covered (.inr ⟨hstate, hchan⟩) with hx | hth
  · rw [hcond] at hx
    cases hx
  · exact hth

end

/-- The first process goes to sleep, and then the CPU is interrupted. -/
def sleepTurns : List (Turn Unit Unit) :=
  [⟨(), false, .dispatch initproc⟩, ⟨(), false, .go⟩, ⟨(), false, .go⟩, ⟨(), false, .go⟩,
    ⟨(), false, .go⟩, ⟨(), false, .go⟩, ⟨(), false, .lock ()⟩] ++
  List.replicate 9 ⟨(), false, .go⟩ ++ [⟨(), true, .wake ()⟩, ⟨(), false, .go⟩, ⟨(), false, .go⟩]

/-- The interrupt makes the condition true and begins to wake up the channel. -/
theorem no_lost_wakeup_init :
    ∃ (es : List ProcEvent) (s : Kernel Unit Unit Unit),
      KRun id (fun _ _ _ => True) (.boot 0 [] [] fun _ => false) es s ∧ s.cond () = true ∧
      (s.slot initproc).state = SLEEPING ∧ ∃ th, (s.pc th).wakes () initproc := by
  obtain ⟨es, s, hrun, heq⟩ := KRun.of_turns [] sleepTurns
    (fun r => (r.2.cond (), (r.2.slot initproc).state, (r.2.slot initproc).chan))
    (show _ = some (true, SLEEPING, some (.chan ())) by decide +kernel)
  simp only [Prod.mk.injEq] at heq
  obtain ⟨hcond, hstate, hchan⟩ := heq
  exact ⟨es, s, hrun, hcond, hstate, no_lost_wakeup _ _ _ _ hrun hcond hstate hchan⟩

end Xv6
