import Xv6.Proc.Proofs.Wakeup

/-!
# Parents and children

A process other than the first that is asleep in `wait` has no child that has exited. It has seen that
none of its children was a `ZOMBIE` while it held its own lock, and a child takes the lock of the parent
it has read, wakes the parent up and becomes a `ZOMBIE` before it gives the lock back. When the child
is given away in between, its parent is the first process.
-/

namespace Xv6

open ProcState

variable {Cpu X L : Type} {pc : Pc X} {lkOf : X → L} {s : Kernel Cpu X L} {c : Cpu} {p op : Proc}
  {i : Instr Cpu X L} {e : ProcEvent}

namespace Pc

/-- The parent that `exit` has read. An interrupt may come before its lock is taken. -/
def exiting : Pc X → Option Proc
  | .exitParent _ op | .exitSelf _ op | .exitScan _ op _ | .exitGive _ op _ | .exitWake _ op
  | .exitZombie _ op => some op
  | .yield back | .yieldHeld back | .yieldEnd back | .save back | .load back | .wakeLock _ back
  | .wakeSet _ back | .wakeScan _ _ back | .wakeHeld _ _ back => back.exiting
  | _ => none

/-- The slots that the loop of `wait` has seen. -/
def scanned : Pc X → Option Nat
  | .waitScan _ _ i _ => some i
  | .waitHeld _ _ i => some i
  | _ => none

variable {n : Nat}

attribute [local simp] exiting scanned Pc.open resume held

theorem scanned_of_open (h : pc.open = true) : pc.scanned = none := by
  cases pc <;> simp_all

theorem scanned_of_resume (h : pc.resume = true) : pc.scanned = none := by
  cases pc <;> simp_all

theorem resume_of_scanned (h : pc.scanned = some n) : pc.resume = false := by
  cases pc <;> simp_all

theorem mem_held_of_scanned (h : pc.scanned = some n) (p : Proc) : p ∈ pc.held [p] := by
  cases pc <;> simp_all

end Pc

/-! ## What the code does about parents -/

/-- What an instruction of thread `th` at `pc` means to parents and children. -/
structure Instr.Kin [DecidableEq X] (s : Kernel Cpu X L) (th : Thread Cpu) (pc : Pc X)
    (i : Instr Cpu X L) : Prop where
  exiting : ∀ op, i.next.exiting = some op → pc.exiting = some op ∨
    ∃ p status, th = .proc p ∧ pc = .exitReadHeld status ∧ (s.slot p).parent = some op
  scanned : ∀ n, i.next.scanned = some n → n = 0 ∨ ∃ p m, th = .proc p ∧ pc.scanned = some m ∧
    (n = m ∨ (n = m + 1 ∧ ∀ q : Proc, q.val = m → (s.slot q).parent = some p →
      (s.slot q).state ≠ ZOMBIE))
  woken : ∀ status op, i.next = .exitZombie status op →
    i.wrote = some (op, (s.slot op).wakeup (.proc op))
  loop : ∀ n, i.next.scanned = some n →
    ∃ p a e, th = .proc p ∧ s.waitCode p pc a = some (e, i)

section
variable [DecidableEq X] {th : Thread Cpu} {a : Act X}

namespace Instr.Kin

theorem of_eq (hexit : i.next.exiting = pc.exiting) (hscan : i.next.scanned = none)
    (hzombie : ∀ status op, i.next ≠ .exitZombie status op) : i.Kin s th pc where
  exiting op h := .inl (hexit ▸ h)
  scanned n h := by
    rw [hscan] at h
    cases h
  woken status op h := absurd h (hzombie status op)
  loop n h := by
    rw [hscan] at h
    cases h

end Instr.Kin

omit [DecidableEq X] in
theorem Pc.ne_exitZombie_of_open (h : pc.open = true) (status : BitVec 32) (op : Proc) :
    pc ≠ .exitZombie status op := by
  rintro rfl
  cases h

theorem Does.kin (h : Does lkOf s c th pc e i) (hof : pc.of th) : i.Kin s th pc := by
  cases h with
  | wakeDone =>
    have hback := Pc.open_of_wakeScan hof
    exact .of_eq rfl (Pc.scanned_of_open hback) (Pc.ne_exitZombie_of_open hback)
  | yieldEnd => exact .of_eq rfl (Pc.scanned_of_open hof) (Pc.ne_exitZombie_of_open hof)
  | load =>
    have hk := (Bool.and_eq_true_iff.mp hof).1
    refine .of_eq rfl (Pc.scanned_of_resume hk) ?_
    rintro status op rfl
    cases hk
  | test => split <;> exact .of_eq rfl rfl (by rintro _ _ ⟨⟩)
  | exitReadHeld hop =>
    refine ⟨?_, by rintro _ ⟨⟩, by rintro _ _ ⟨⟩, by rintro _ ⟨⟩⟩
    rintro op' ⟨⟩
    exact .inr ⟨_, _, rfl, rfl, hop⟩
  | exitWake =>
    refine ⟨fun _ h => .inl h, by rintro _ ⟨⟩, ?_, by rintro _ ⟨⟩⟩
    rintro st op ⟨⟩
    rfl
  | exitZombie => exact ⟨by rintro _ ⟨⟩, by rintro _ ⟨⟩, by rintro _ _ ⟨⟩, by rintro _ ⟨⟩⟩
  | wait =>
    refine ⟨by rintro _ ⟨⟩, ?_, by rintro _ _ ⟨⟩, fun _ _ => ⟨_, .go, .quiet, rfl, rfl⟩⟩
    rintro n ⟨⟩
    exact .inl rfl
  | waitChild hj hq =>
    refine ⟨by rintro _ ⟨⟩, ?_, by rintro _ _ ⟨⟩, fun _ _ => ⟨_, .go, .quiet, rfl, ?_⟩⟩
    · rintro n ⟨⟩
      exact .inr ⟨_, _, rfl, rfl, .inl rfl⟩
    · simp [Kernel.waitCode, Kernel.scan, hj, hq]
  | waitNext hj hq =>
    refine ⟨by rintro _ ⟨⟩, ?_, by rintro _ _ ⟨⟩, fun _ _ => ⟨_, .go, .quiet, rfl, ?_⟩⟩
    · rintro n ⟨⟩
      refine .inr ⟨_, _, rfl, rfl, .inr ⟨rfl, ?_⟩⟩
      rintro q rfl hq'
      exact absurd hq' hq
    · simp [Kernel.waitCode, Kernel.scan, hj, hq]
  | waitAlive hq =>
    refine ⟨by rintro _ ⟨⟩, ?_, by rintro _ _ ⟨⟩, fun _ _ => ⟨_, .go, .quiet, rfl, ?_⟩⟩
    · rintro n ⟨⟩
      refine .inr ⟨_, _, rfl, rfl, .inr ⟨rfl, fun q hq' _ => ?_⟩⟩
      rw [Fin.ext hq']
      exact hq
    · simp [Kernel.waitCode, Kernel.waitChild, hq]
  | _ => exact .of_eq rfl rfl (by rintro _ _ ⟨⟩)

theorem Code.kin (h : Code lkOf s c th e i) (hof : (s.pc th).of th) : i.Kin s th (s.pc th) :=
  h.does.kin hof

end

/-! ## Families -/

/-- Parents, those who exit and those who wait. -/
structure Family (s : Kernel Cpu X L) : Prop where
  exiting : ∀ {p op}, (s.pc (.proc p)).exiting = some op → (s.slot p).state ≠ UNUSED ∧
    ((s.slot p).parent = some op ∨ (s.slot p).parent = some initproc)
  scanned : ∀ {q n}, q ≠ initproc → (s.pc (.proc q)).scanned = some n →
    ∀ r : Proc, r < n → (s.slot r).parent = some q → (s.slot r).state ≠ ZOMBIE
  asleep : ∀ {q}, q ≠ initproc → (s.slot q).state = SLEEPING → (s.slot q).chan = some (.proc q) →
    ∀ r, (s.slot r).parent = some q → (s.slot r).state ≠ ZOMBIE
  woken : ∀ {p status op}, s.pc (.proc p) = .exitZombie status op → (s.slot op).state = SLEEPING →
    (s.slot op).chan ≠ some (.proc op)

section
variable {s' : Kernel Cpu X L} {q r : Proc} {x : X}

theorem KInv.unused_of_forking (h : KInv lkOf s) (hpc : (s.pc (s.exec c)).forking = some q) :
    (s.slot q).state = UNUSED := by
  obtain ⟨p, hexec⟩ := h.exec_proc (Pc.ofSched_of_forking hpc)
  exact h.running.forking (hexec ▸ hpc)

variable [DecidableEq Cpu] [DecidableEq X] [DecidableEq L]

/-- A slot in use stays in use, and its parent does not change unless it is given away. -/
theorem KInv.used (h : KInv lkOf s) (hcode : Code lkOf s c (s.exec c) e i)
    (hi : s.instr c (s.exec c) i = some s') (hused : (s.slot r).state ≠ UNUSED) :
    (s'.slot r).state ≠ UNUSED ∧
      ((s'.slot r).parent = (s.slot r).parent ∨ (s'.slot r).parent = some initproc) := by
  cases hcode.change_slot hi r with
  | same hs hc hp | wakes hth hs hc hp => exact ⟨hs ▸ hused, .inl hp⟩
  | woken hold hs hp | picked hold hs hp | yields hth hs hp | born hpc hs hp
  | sleeps hth hpc hs hc hp | waits hth hpc hj hflags hs hc hp | dies hth hpc hs hp =>
    exact ⟨by rw [hs]; nofun, .inl hp⟩
  | freed hpc hs hp => exact absurd (h.unused_of_forking hpc) hused
  | forked hth hpc hs hc hp => exact absurd (h.unused_of_forking (by rw [hpc]; rfl)) hused
  | given hth hpc hs hc hp => exact ⟨hs ▸ hused, .inr hp⟩

namespace Family

/-- A child that was no `ZOMBIE` before a step is none after it, unless it exits. -/
theorem child (h : Family s) (hcode : Code lkOf s c (s.exec c) e i)
    (hi : s.instr c (s.exec c) i = some s') (hq : q ≠ initproc)
    (hold : (s.slot r).parent = some q → (s.slot r).state ≠ ZOMBIE)
    (hfork : s.exec c = .proc q → ∀ np, s.pc (.proc q) ≠ .forkParent np)
    (hdies : s.exec c = .proc r → ∀ status, s.pc (.proc r) ≠ .exitZombie status q)
    (hparent : (s'.slot r).parent = some q) : (s'.slot r).state ≠ ZOMBIE := by
  cases hcode.change_slot hi r with
  | same hs hc hp | wakes hth hs hc hp =>
    rw [hs]
    exact hold (hp ▸ hparent)
  | woken _ hs | picked _ hs | yields _ hs | born _ hs | sleeps _ _ hs | waits _ _ _ _ hs
  | freed _ hs =>
    rw [hs]
    nofun
  | forked hth hpc hs hc hp =>
    rw [hparent] at hp
    cases hp
    exact absurd (hth ▸ hpc) (hfork hth _)
  | given hth hpc hs hc hp =>
    rw [hparent] at hp
    cases hp
    exact absurd rfl hq
  | dies hth hpc hs hp =>
    -- the parent that it has read is `q`: it has not been given away
    rename_i op status
    rw [hth] at hpc
    rw [hparent] at hp
    rcases (h.exiting (show (s.pc (.proc r)).exiting = some op by rw [hpc]; rfl)).2 with hop | hop
    · rw [← hp] at hop
      cases hop
      exact absurd hpc (hdies hth status)
    · rw [← hp] at hop
      cases hop
      exact absurd rfl hq

section
variable (hinv : KInv lkOf s) (hcode : Code lkOf s c (s.exec c) e i)
  (hi : s.instr c (s.exec c) i = some s')
include hinv hcode hi

theorem step_exiting (h : Family s) (hp : (s'.pc (.proc p)).exiting = some op) :
    (s'.slot p).state ≠ UNUSED ∧
      ((s'.slot p).parent = some op ∨ (s'.slot p).parent = some initproc) := by
  have hbefore : (s.slot p).state ≠ UNUSED ∧
      ((s.slot p).parent = some op ∨ (s.slot p).parent = some initproc) := by
    rcases hinv.view_cases Pc.exiting hcode hi hp nofun with ⟨hth, hp⟩ | ⟨hth, hp⟩
    · rcases (hcode.kin (hinv.locks.of _)).exiting op hp with hold | ⟨p', status, hp', hpc, hparent⟩
      · exact h.exiting (hth ▸ hold)
      · rw [← hth] at hpc hp'
        cases hp'
        have hrunning := (hinv.running.active hth.symm).mpr (by rw [hpc]; rfl)
        exact ⟨by rw [hrunning]; nofun, .inl hparent⟩
    · exact h.exiting hp
  obtain ⟨hused, hparent⟩ := hinv.used hcode hi hbefore.1
  refine ⟨hused, ?_⟩
  rcases hparent with heq | hinit
  · rw [heq]
    exact hbefore.2
  · exact .inr hinit

theorem step_scanned (h : Family s) (hq : q ≠ initproc) {n : Nat}
    (hpc : (s'.pc (.proc q)).scanned = some n) (hr : r < n)
    (hparent : (s'.slot r).parent = some q) : (s'.slot r).state ≠ ZOMBIE := by
  rcases hinv.view_cases Pc.scanned hcode hi hpc nofun with ⟨hth, hpc⟩ | ⟨hth, hpc⟩
  · rcases (hcode.kin (hinv.locks.of _)).scanned n hpc with rfl | ⟨q', m, hq', hm, hn⟩
    · exact absurd hr (Nat.not_lt_zero _)
    rw [← hth] at hq' hm
    cases hq'
    refine h.child hcode hi hq (fun hp => ?_) (fun _ np heq => ?_) (fun hexec st heq => ?_) hparent
    · rcases hn with rfl | ⟨rfl, hlast⟩
      · exact h.scanned hq hm r hr hp
      · rcases (Nat.lt_succ_iff.mp hr).lt_or_eq with hlt | heq
        · exact h.scanned hq hm r hlt hp
        · exact hlast r heq hp
    · rw [heq] at hm
      cases hm
    · rw [← hth] at hexec
      cases hexec
      rw [heq] at hm
      cases hm
  · refine h.child hcode hi hq (h.scanned hq hpc r hr) (fun hexec => absurd hexec.symm hth)
      (fun hexec st hst => ?_) hparent
    -- a child that exits has the lock of `q`, which `q` has
    refine hth (hinv.eq_of_held ?_ (Pc.resume_of_scanned hpc) (Pc.mem_held_of_scanned hpc q)).symm
    unfold Kernel.heldAt
    rw [hexec, hst]
    exact List.mem_cons_self

omit hinv in
/-- Who is asleep in `wait` after a step was so before, or has seen all slots. -/
theorem waiting_cases
    (hstate : (s'.slot q).state = SLEEPING) (hchan : (s'.slot q).chan = some (.proc q)) :
    ((s.slot q).state = SLEEPING ∧ (s.slot q).chan = some (.proc q)) ∨
      (s.exec c = .proc q ∧ ∃ n, NPROC ≤ n ∧ (s.pc (.proc q)).scanned = some n) := by
  cases hcode.change_slot hi q with
  | same hs hc hp | forked hth hpc hs hc hp | given hth hpc hs hc hp =>
    exact .inl ⟨hs ▸ hstate, hc ▸ hchan⟩
  | waits hth hpc hj hflags hs hc hp =>
    rw [hth] at hpc
    exact .inr ⟨hth, _, hj, by rw [hpc]; rfl⟩
  | sleeps hth hpc hs hc hp | wakes hth hs hc hp =>
    rw [hchan] at hc
    cases hc
  | woken _ hs | picked _ hs | yields _ hs | freed _ hs | born _ hs | dies _ _ hs =>
    rw [hstate] at hs
    cases hs

theorem step_asleep (h : Family s) (hq : q ≠ initproc)
    (hstate : (s'.slot q).state = SLEEPING) (hchan : (s'.slot q).chan = some (.proc q))
    (hparent : (s'.slot r).parent = some q) : (s'.slot r).state ≠ ZOMBIE := by
  rcases waiting_cases hcode hi hstate hchan with ⟨hstate', hchan'⟩ | ⟨hexec, n, hn, hpc⟩
  · refine h.child hcode hi hq (h.asleep hq hstate' hchan' r) (fun hexec np heq => ?_)
      (fun _ status heq => h.woken heq hstate' hchan') hparent
    have hrunning := (hinv.running.active hexec).mpr (by rw [heq]; rfl)
    rw [hrunning] at hstate'
    cases hstate'
  · refine h.child hcode hi hq (h.scanned hq hpc r (r.isLt.trans_le hn)) (fun _ np heq => ?_)
      (fun hexec' status heq => ?_) hparent
    · rw [heq] at hpc
      cases hpc
    · rw [hexec] at hexec'
      cases hexec'
      rw [heq] at hpc
      cases hpc

theorem step_woken (h : Family s) {status : BitVec 32}
    (hpc : s'.pc (.proc p) = .exitZombie status op) (hstate : (s'.slot op).state = SLEEPING) :
    (s'.slot op).chan ≠ some (.proc op) := by
  intro hchan
  rcases hinv.pc_cases hcode hi hpc nofun with ⟨hth, hpc⟩ | ⟨hth, hpc⟩
  · have hw := (hcode.kin (hinv.locks.of _)).woken status op hpc
    rcases Kernel.instr_slot_cases hi op with ⟨new, hnew, hs, hc, -⟩ | ⟨hno, -⟩
    · rw [hw] at hnew
      cases hnew
      rw [hs] at hstate
      rw [hc] at hchan
      exact ProcSlot.wakeup_not_asleep hstate hchan
    · exact hno _ hw
  · rcases waiting_cases hcode hi hstate hchan with ⟨hstate', hchan'⟩ | ⟨hexec, n, hn, hscan⟩
    · exact h.woken hpc hstate' hchan'
    -- `p` has the lock of `op`
    refine hth (hinv.eq_of_held (q := op) ?_ (by rw [hpc]; rfl) ?_).symm
    · unfold Kernel.heldAt
      rw [hexec]
      exact Pc.mem_held_of_scanned hscan op
    · rw [hpc]
      exact List.mem_cons_self

end

theorem step (h : Family s) (hinv : KInv lkOf s) (hs : KStep lkOf s e s') : Family s' := by
  obtain ⟨hcode, hi⟩ := hs
  exact ⟨h.step_exiting hinv hcode hi, fun hq hpc _ => h.step_scanned hinv hcode hi hq hpc,
    fun hq hstate hchan _ => h.step_asleep hinv hcode hi hq hstate hchan,
    h.step_woken hinv hcode hi⟩

omit [DecidableEq X] [DecidableEq L] in
theorem boot {tf : Page} {pt free : List Page} {cond : X → Bool} :
    Family (Kernel.boot tf pt free cond : Kernel Cpu X L) := by
  refine ⟨nofun, nofun, ?_, nofun⟩
  intro q hq hstate
  simp [Kernel.boot, hq, ProcSlot.empty] at hstate

end Family

theorem KRun.family {ok : Kernel Cpu X L → ProcEvent → Kernel Cpu X L → Prop} {s0 : Kernel Cpu X L}
    {es : List ProcEvent} (h : KRun lkOf ok s0 es s) (h0 : KInv lkOf s0) (hs0 : Family s0) :
    Family s := by
  induction h with
  | boot => exact hs0
  | step hrun _ hs ih => exact ih.step (hrun.inv h0) hs

/-- A sleeping parent is never left with an exited child: in every reachable state a process other
than the first that is `SLEEPING` in `wait` has no `ZOMBIE` child. -/
theorem no_zombie_child (tf : Page) (pt free : List Page) (cond : X → Bool) {es : List ProcEvent}
    (h : KRun lkOf (fun _ _ _ => True) (.boot tf pt free cond) es s) (hq : q ≠ initproc)
    (hstate : (s.slot q).state = SLEEPING) (hchan : (s.slot q).chan = some (.proc q)) :
    ∀ r, (s.slot r).parent = some q → (s.slot r).state ≠ ZOMBIE :=
  (h.family KInv.boot Family.boot).asleep hq hstate hchan

end

/-- The child of the first process forks, and then it waits. -/
def waitTurns : List (Turn Unit Unit) :=
  startTurns 0 ++ forkTurns 1 ++ yieldTurns ++ startTurns 1 ++ forkTurns 2 ++
    ⟨(), false, .wait 0 0⟩ :: goTurns (NPROC + 7)

/-- The child of the first process sleeps in `wait`, and its own child is ready to run. -/
theorem no_zombie_child_wait :
    ∃ (es : List ProcEvent) (s : Kernel Unit Unit Unit),
      KRun id (fun _ _ _ => True) (.boot 0 [] [1, 2] fun _ => false) es s ∧
      (s.slot 1).state = SLEEPING ∧ (s.slot 1).chan = some (.proc 1) ∧ (s.slot 1).lock = none ∧
      (s.slot 2).parent = some 1 ∧ (s.slot 2).state ≠ ZOMBIE := by
  obtain ⟨es, s, hrun, heq⟩ := KRun.of_turns [1, 2] waitTurns
    (fun r => ((r.2.slot 1).state, (r.2.slot 1).chan, (r.2.slot 1).lock, (r.2.slot 2).parent))
    (show _ = some (SLEEPING, some (.proc 1), none, some 1) by decide +kernel)
  simp only [Prod.mk.injEq] at heq
  obtain ⟨hstate, hchan, hlock, hparent⟩ := heq
  exact ⟨es, s, hrun, hstate, hchan, hlock, hparent,
    no_zombie_child _ _ _ _ hrun (by decide) hstate hchan 2 hparent⟩

end Xv6
