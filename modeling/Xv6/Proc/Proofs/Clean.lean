import Xv6.Proc.Proofs.Kids

/-!
# Free slots

`kill` looks for a process number in all slots, and `fork` counts on a free slot to be as `freeproc`
leaves it. Two things break that: `allocproc` returns without `freeproc` when `kalloc` has no page for
the trapframe, and the slots that are not in use have process number 0.
-/

namespace Xv6

open ProcState

variable {Cpu X L : Type}

structure ProcSlot.Free (q : ProcSlot Cpu X) : Prop where
  pid : q.pid = 0
  killed : q.killed = false
  parent : q.parent = none
  trapframe : q.trapframe = none
  pagetable : q.pagetable = none
  ofile : q.ofile = false

theorem ProcSlot.Free.setLock {q : ProcSlot Cpu X} (h : q.Free) (l : Option Cpu) :
    ProcSlot.Free { q with lock := l } :=
  { h with }

/-! ## Clean slots -/

/-- No process calls `kill(0)`, and `kalloc` has a page for each trapframe. -/
def Careful (_ : Kernel Cpu X L) (e : ProcEvent) (s' : Kernel Cpu X L) : Prop :=
  (∀ np, e ≠ .noFrame np) ∧ ∀ p i, s'.pc (.proc p) ≠ .killScan 0 i

/-- Slots that are not in use are free or being filled. -/
structure Clean (s : Kernel Cpu X L) : Prop where
  free : ∀ {r}, (s.slot r).state = UNUSED → (∀ p, (s.pc (.proc p)).forking ≠ some r) →
    (s.slot r).Free
  filling : ∀ {p r}, (s.pc (.proc p)).filling = some r →
    (s.slot r).killed = false ∧ (s.slot r).ofile = false
  ending : ∀ {p r}, s.pc (.proc p) = .forkEnd r → (s.slot r).killed = false
  scan : ∀ p i, s.pc (.proc p) ≠ .killScan 0 i
  kill : ∀ p i, s.pc (.proc p) ≠ .killHeld 0 i

section
variable [DecidableEq Cpu] [DecidableEq X] [DecidableEq L] {lkOf : X → L} {s s' : Kernel Cpu X L}
  {c : Cpu} {p q r : Proc} {i : Instr Cpu X L} {e : ProcEvent}

namespace Clean

section
omit [DecidableEq Cpu] [DecidableEq X] [DecidableEq L]

/-- A slot that the thread holds and that no thread fills is free. -/
theorem free_of_held (h : Clean s) (hinv : KInv lkOf s) (hr : (s.slot r).state = UNUSED)
    (hmem : r ∈ s.heldAt c) (hpc : (s.pc (s.exec c)).forking ≠ some r) : (s.slot r).Free := by
  refine h.free hr fun p hfork => hpc ?_
  rw [hinv.eq_of_forking hmem hfork]
  exact hfork

theorem used_of_kill (h : Clean s) (hinv : KInv lkOf s) {pid : BitVec 32}
    (hpc : s.pc (s.exec c) = .killHeld pid r) (hpid : (s.slot r).pid = pid) :
    (s.slot r).state ≠ UNUSED := by
  intro hunused
  have hfree := h.free_of_held hinv hunused
    (by rw [Kernel.heldAt, hpc]; exact List.mem_singleton_self r) (by rw [hpc]; nofun)
  obtain ⟨p, hexec⟩ := hinv.exec_proc (by rw [hpc]; rfl)
  rw [← hpid, hfree.pid, hexec] at hpc
  exact h.kill p r hpc

end

section
variable (hinv : KInv lkOf s) (hcode : Code lkOf s c (s.exec c) e i)
  (hi : s.instr c (s.exec c) i = some s')
include hinv hcode hi

theorem step_free (h : Clean s) (hkids : Kids s) (hok : ∀ np, e ≠ .noFrame np)
    (hr : (s'.slot r).state = UNUSED) (hfork : ∀ p, (s'.pc (.proc p)).forking ≠ some r) :
    (s'.slot r).Free := by
  have hold : (s.slot r).state = UNUSED := by
    by_contra hused
    exact (hinv.used hcode hi hused).1 hr
  have hnext : i.next.forking ≠ some r := by
    intro hnext
    cases hexec : s.exec c with
    | proc p =>
      refine hfork p ?_
      rw [← hexec, Kernel.instr_here hi, hnext]
    | sched c' =>
      have hof := (hcode.fits (hinv.locks.of _)).of
      rw [hexec] at hof
      rw [Pc.forking_of_ofSched hof] at hnext
      cases hnext
  -- who has filled the slot before the step is the thread itself
  have hmine : ∀ p, (s.pc (.proc p)).forking = some r → .proc p = s.exec c := by
    intro p hp
    by_contra hth
    exact hfork p (by rw [hinv.forking_other hcode hi hth hp, hp])
  cases hcode.touch hi (hinv.locks.of _) hold with
  | same hnew hgo =>
    rw [hnew]
    refine (h.free hold fun p hp => ?_).setLock _
    rw [hmine p hp] at hp
    exact hnext (hgo hp).1
  | own hexec hpc => exact absurd hold (hinv.used_of_exec hexec hpc)
  | kill hpc hpid => exact absurd hold (h.used_of_kill hinv hpc hpid)
  | give hpc =>
    obtain ⟨p, hexec⟩ := hinv.exec_proc (by rw [hpc]; rfl)
    have hpc' : s.pc (.proc p) = _ := hexec ▸ hpc
    exact absurd hold (hkids.used (hkids.giving hpc') (by rw [hpc']; nofun))
  | noFrame _ he => exact absurd he (hok r)
  | found hpc hnext' | forked hth hpc hnext' =>
    rw [hnext'] at hnext
    exact absurd rfl hnext
  | freed hpc hnext' hnew =>
    obtain ⟨p, hexec⟩ := hinv.exec_proc (Pc.ofSched_of_forking (Pc.forking_of_filling hpc))
    rw [hnew]
    exact ⟨rfl, rfl, rfl, rfl, rfl, (h.filling (hexec ▸ hpc)).2⟩
  | fill hpc hnext' => exact absurd (Pc.forking_of_filling hnext') hnext
  | born hpc hstate =>
    rw [hr] at hstate
    cases hstate

theorem step_filling (h : Clean s) (hok : ∀ np, e ≠ .noFrame np)
    (hp : (s'.pc (.proc p)).filling = some r) :
    (s'.slot r).killed = false ∧ (s'.slot r).ofile = false := by
  rcases hinv.view_cases Pc.filling hcode hi hp nofun with ⟨hth, hp⟩ | ⟨hth, hp⟩
  · have hbefore : (s.slot r).state = UNUSED ∧ (s.slot r).killed = false ∧
        (s.slot r).ofile = false := by
      rcases (hcode.tends (hinv.locks.of _)).filling r hp with hpc | ⟨hpc, hunused⟩
      · exact ⟨hinv.unused_of_forking (Pc.forking_of_filling hpc), h.filling (hth ▸ hpc)⟩
      · have hfree := h.free_of_held hinv hunused
          (by rw [Kernel.heldAt, hpc]; exact List.mem_singleton_self r) (by rw [hpc]; nofun)
        exact ⟨hunused, hfree.killed, hfree.ofile⟩
    obtain ⟨hunused, hkilled, hofile⟩ := hbefore
    cases hcode.touch hi (hinv.locks.of _) hunused with
    | same hnew | found _ _ hnew =>
      rw [hnew]
      exact ⟨hkilled, hofile⟩
    | own hexec hpc => exact absurd hunused (hinv.used_of_exec hexec hpc)
    | kill hpc | give hpc | born hpc =>
      rcases (hcode.tends (hinv.locks.of _)).filling r hp with hpc' | ⟨hpc', -⟩ <;>
        rw [hpc] at hpc' <;> cases hpc'
    | noFrame _ he => exact absurd he (hok r)
    | freed _ hnext | forked _ _ hnext =>
      rw [hnext] at hp
      cases hp
    | fill _ _ _ hkilled' hofile' => exact ⟨hkilled'.trans hkilled, hofile'.trans hofile⟩
  · rw [hinv.touch_other hcode hi hth (Pc.forking_of_filling hp)]
    exact h.filling hp

theorem step_ending (h : Clean s) (hok : ∀ np, e ≠ .noFrame np)
    (hp : s'.pc (.proc p) = .forkEnd r) : (s'.slot r).killed = false := by
  rcases hinv.pc_cases hcode hi hp nofun with ⟨hth, hp⟩ | ⟨hth, hp⟩
  · have hpc := (hcode.tends (hinv.locks.of _)).ending r hp
    have hpc' : s.pc (.proc p) = .forkParent r := hth ▸ hpc
    have hunused := hinv.running.forking (show (s.pc (.proc p)).forking = some r by rw [hpc']; rfl)
    have hkilled := (h.filling (show (s.pc (.proc p)).filling = some r by rw [hpc']; rfl)).1
    cases hcode.touch hi (hinv.locks.of _) hunused with
    | same _ hgo => exact absurd hpc (hgo (by rw [hpc]; rfl)).2
    | own hexec hleave => exact absurd hunused (hinv.used_of_exec hexec hleave)
    | noFrame _ he => exact absurd he (hok r)
    | fill _ hnext | freed _ hnext =>
      rw [hp] at hnext
      cases hnext
    | forked _ _ _ _ hkilled' => exact hkilled'.trans hkilled
    | kill hpc'' | give hpc'' | found hpc'' | born hpc'' =>
      rw [hpc] at hpc''
      cases hpc''
  · rw [hinv.touch_other hcode hi hth (by rw [hp]; rfl)]
    exact h.ending hp

end

theorem step (h : Clean s) (hinv : KInv lkOf s) (hkids : Kids s) (hs : KStep lkOf s e s')
    (hok : Careful s e s') : Clean s' := by
  obtain ⟨hcode, hi⟩ := hs
  rename_i c i
  refine ⟨h.step_free hinv hcode hi hkids hok.1, h.step_filling hinv hcode hi hok.1,
    h.step_ending hinv hcode hi hok.1, hok.2, fun p j hp => ?_⟩
  rcases hinv.pc_cases hcode hi hp nofun with ⟨hth, hp⟩ | ⟨hth, hp⟩
  · obtain ⟨n, hpc⟩ := (hcode.tends (hinv.locks.of _)).killing 0 j hp
    exact h.scan p n (hth ▸ hpc)
  · exact h.kill p j hp

omit [DecidableEq X] [DecidableEq L] in
theorem boot {tf : Page} {pt free : List Page} {cond : X → Bool} :
    Clean (Kernel.boot tf pt free cond : Kernel Cpu X L) := by
  refine ⟨fun {r} hr _ => ?_, nofun, nofun, nofun, nofun⟩
  by_cases hinit : r = initproc
  · simp [Kernel.boot, hinit] at hr
  · simp only [Kernel.boot, if_neg hinit]
    exact ⟨rfl, rfl, rfl, rfl, rfl, rfl⟩

end Clean

def Pc.kills : Pc X → Bool
  | .killScan _ _ | .killHeld _ _ => true
  | _ => false

theorem Clean.kill_keeps (h : Clean s) (hinv : KInv lkOf s) (hcode : Code lkOf s c (s.exec c) e i)
    (hi : s.instr c (s.exec c) i = some s') (hpc : (s.pc (s.exec c)).kills = true)
    (hr : (s.slot r).state = UNUSED) : s'.slot r = { s.slot r with lock := (s'.slot r).lock } := by
  cases hcode.touch hi (hinv.locks.of _) hr with
  | same hnew => exact hnew
  | own hexec hleave => exact absurd hr (hinv.used_of_exec hexec hleave)
  | kill hpc' hpid => exact absurd hr (h.used_of_kill hinv hpc' hpid)
  | freed hpc' | fill hpc' =>
    have : (s.pc (s.exec c)).filling = none := by
      generalize s.pc (s.exec c) = pc at hpc
      cases pc <;> first | rfl | cases hpc
    rw [this] at hpc'
    cases hpc'
  | give hpc' | noFrame hpc' | found hpc' | forked _ hpc' | born hpc' =>
    rw [hpc'] at hpc
    cases hpc

theorem KRun.clean {s0 : Kernel Cpu X L} {es : List ProcEvent} (h : KRun lkOf Careful s0 es s)
    (h0 : KInv lkOf s0) (hk0 : Kids s0) (hc0 : Clean s0) : Clean s := by
  induction h with
  | boot => exact hc0
  | step hrun hok hs ih => exact ih.step (hrun.inv h0) (hrun.kids h0 hk0) hs hok

/-- Free slots are clean and new processes start clean, when no process calls `kill(0)` and `kalloc` has
a page for each trapframe: a slot that is not in use and not locked has nothing left of a process;
`kill` returns 0 for a process in use with the process number it was given, and changes no slot that is
not in use; and a process that `fork` makes runnable is not killed. -/
theorem clean_slots (tf : Page) (pt free : List Page) (cond : X → Bool) {es : List ProcEvent}
    (h : KRun lkOf Careful (.boot tf pt free cond) es s) :
    (∀ r, (s.slot r).state = UNUSED → (s.slot r).lock = none →
      (s.slot r).pid = 0 ∧ (s.slot r).killed = false ∧ (s.slot r).parent = none ∧
      (s.slot r).trapframe = none ∧ (s.slot r).pagetable = none ∧ (s.slot r).ofile = false) ∧
    (∀ pid r s', KStep lkOf s (.killed pid r) s' →
      (s.slot r).pid = pid ∧ (s.slot r).state ≠ UNUSED) ∧
    (∀ c e i s', (s.pc (s.exec c)).kills = true → Code lkOf s c (s.exec c) e i →
      s.instr c (s.exec c) i = some s' → ∀ r, (s.slot r).state = UNUSED →
      s'.slot r = { s.slot r with lock := (s'.slot r).lock }) ∧
    ∀ np s', KStep lkOf s (.forked np) s' →
      (s'.slot np).state = RUNNABLE ∧ (s'.slot np).killed = false := by
  have hinv := h.inv KInv.boot
  have hclean := h.clean KInv.boot Kids.boot Clean.boot
  refine ⟨fun r hr hlock => ?_, ?_, fun c e i s' hpc hcode hi r =>
    hclean.kill_keeps hinv hcode hi hpc, ?_⟩
  · have hfree : (s.slot r).Free := by
      refine hclean.free hr fun p hfork => ?_
      obtain ⟨c, hexec⟩ := hinv.exec_of_resume (Pc.resume_of_forking hfork)
      have hheld : (s.slot r).lock = some c := hinv.locks.proc.mem.mpr (by
        unfold Kernel.heldAt
        rw [hexec]
        exact Pc.mem_held_of_forking hfork _)
      rw [hlock] at hheld
      cases hheld
    exact ⟨hfree.pid, hfree.killed, hfree.parent, hfree.trapframe, hfree.pagetable, hfree.ofile⟩
  · rintro pid r s' ⟨hcode, hi⟩
    cases hcode.shows with
    | killed hpc => exact ⟨rfl, hclean.used_of_kill hinv hpc rfl⟩
  · rintro np s' ⟨hcode, hi⟩
    rename_i c i
    cases hcode.shows with
    | forked hpc hrel =>
      subst hrel
      cases hi
      obtain ⟨p, hexec⟩ := hinv.exec_proc (by rw [hpc]; rfl)
      have hkilled := hclean.ending (hexec ▸ hpc)
      simpa [Kernel.setSlot, Kernel.goto] using hkilled

end

def careful (_ : Kernel Cpu X L) (e : ProcEvent) (s' : Kernel Cpu X L) : Bool :=
  (match e with
    | .noFrame _ => false
    | _ => true) &&
  decide (∀ p, (match s'.pc (.proc p) with
    | .killScan pid _ => pid != 0
    | _ => true) = true)

theorem Careful.of_careful (s : Kernel Cpu X L) (e : ProcEvent) (s' : Kernel Cpu X L)
    (h : careful s e s' = true) : Careful s e s' := by
  obtain ⟨he, hpc⟩ := Bool.and_eq_true_iff.mp h
  refine ⟨?_, fun p i hp => ?_⟩
  · rintro np rfl
    cases he
  · have := of_decide_eq_true hpc p
    rw [hp] at this
    cases this

/-- The first process forks and calls `kill` for its child. -/
theorem clean_slots_fork :
    ∃ (es : List ProcEvent) (s : Kernel Unit Unit Unit),
      KRun id Careful (.boot 0 [] [1] fun _ => false) es s ∧ es.getLast? = some (.killed 2 1) ∧
      (s.slot 1).killed = true ∧ (s.slot 2).state = UNUSED ∧ (s.slot 2).killed = false := by
  obtain ⟨es, s, hrun, heq⟩ := KRun.of_play Careful.of_careful
    (show ((Kernel.boot 0 [] [1] fun _ => false : Kernel Unit Unit Unit).play id careful
      (startTurns 0 ++ forkTurns 1 ++ ⟨(), false, .kill 2⟩ :: goTurns 4)).map
        (fun r => (r.1.getLast?, (r.2.slot 1).killed, (r.2.slot 2).state, (r.2.slot 2).lock)) =
      some (some (.killed 2 1), true, UNUSED, none) by decide +kernel)
  simp only [Prod.mk.injEq] at heq
  obtain ⟨hlast, hkilled, hstate, hlock⟩ := heq
  obtain ⟨hfree, -⟩ := clean_slots _ _ _ _ hrun
  exact ⟨es, s, hrun, hlast, hkilled, hstate, (hfree 2 hstate hlock).2.1⟩

/-- The first process forks, and `kalloc` has no page for the trapframe. -/
def noFrameTurns : List (Turn Unit Unit) :=
  startTurns 0 ++ ⟨(), false, .fork⟩ :: goTurns 4 ++ [⟨(), false, .fail⟩]

/-- The free slot 1 has kept the process number 2 of the failed `fork`. `kill(2)` returns 0 for it and
marks it, and the next process that is made in it is killed from the start. `kill(0)` does the same to
a slot that has never been used. -/
theorem stale_slots :
    (∃ (es : List ProcEvent) (s : Kernel Unit Unit Unit),
      KRun id (fun _ _ _ => True) (.boot 0 [] [1] fun _ => false) es s ∧
      (s.slot 1).state = UNUSED ∧ (s.slot 1).lock = none ∧ (s.slot 1).pid = 2) ∧
    (∃ (es : List ProcEvent) (s : Kernel Unit Unit Unit),
      KRun id (fun _ _ _ => True) (.boot 0 [] [1] fun _ => false) es s ∧
      es.getLast? = some (.killed 2 1) ∧ (s.slot 1).state = UNUSED ∧ (s.slot 1).killed = true) ∧
    (∃ (es : List ProcEvent) (s : Kernel Unit Unit Unit),
      KRun id (fun _ _ _ => True) (.boot 0 [] [1] fun _ => false) es s ∧
      es.getLast? = some (.forked 1) ∧ (s.slot 1).state = RUNNABLE ∧ (s.slot 1).killed = true) ∧
    ∃ (es : List ProcEvent) (s : Kernel Unit Unit Unit),
      KRun id (fun _ _ _ => True) (.boot 0 [] [1] fun _ => false) es s ∧
      es.getLast? = some (.killed 0 1) ∧ (s.slot 1).state = UNUSED ∧ (s.slot 1).killed = true := by
  refine ⟨?_, ?_, ?_, ?_⟩
  · obtain ⟨es, s, hrun, heq⟩ := KRun.of_turns [1] noFrameTurns
      (fun r => ((r.2.slot 1).state, (r.2.slot 1).lock, (r.2.slot 1).pid))
      (show _ = some (UNUSED, none, 2) by decide +kernel)
    simp only [Prod.mk.injEq] at heq
    exact ⟨es, s, hrun, heq⟩
  · obtain ⟨es, s, hrun, heq⟩ := KRun.of_turns [1]
      (noFrameTurns ++ ⟨(), false, .kill 2⟩ :: goTurns 4)
      (fun r => (r.1.getLast?, (r.2.slot 1).state, (r.2.slot 1).killed))
      (show _ = some (some (.killed 2 1), UNUSED, true) by decide +kernel)
    simp only [Prod.mk.injEq] at heq
    exact ⟨es, s, hrun, heq⟩
  · obtain ⟨es, s, hrun, heq⟩ := KRun.of_turns [1]
      (noFrameTurns ++ ⟨(), false, .kill 2⟩ :: goTurns 4 ++ forkTurns 1)
      (fun r => (r.1.getLast?, (r.2.slot 1).state, (r.2.slot 1).killed))
      (show _ = some (some (.forked 1), RUNNABLE, true) by decide +kernel)
    simp only [Prod.mk.injEq] at heq
    exact ⟨es, s, hrun, heq⟩
  · obtain ⟨es, s, hrun, heq⟩ := KRun.of_turns [1]
      (startTurns 0 ++ ⟨(), false, .kill 0⟩ :: goTurns 4)
      (fun r => (r.1.getLast?, (r.2.slot 1).state, (r.2.slot 1).killed))
      (show _ = some (some (.killed 0 1), UNUSED, true) by decide +kernel)
    simp only [Prod.mk.injEq] at heq
    exact ⟨es, s, hrun, heq⟩

end Xv6
