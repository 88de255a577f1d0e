import Xv6.Proc.Proofs.Kids

/-!
# What `wait` reports

`wait` finds an exited child and returns its process number and its status, but it does not call
`freeproc`: the child stays a `ZOMBIE` with its memory, and the next `wait` reports it again.
-/

namespace Xv6

open ProcState

variable {Cpu X L : Type} {pid : BitVec 32} {status : Option (BitVec 32)}

def Pc.waitFlags : Pc X → Option (BitVec 32)
  | .wait _ flags | .waitScan _ flags _ _ | .waitHeld _ flags _ => some flags
  | _ => none

/-- No process in `wait` comes to a child that has exited. -/
def NoExited (s : Kernel Cpu X L) (_ : ProcEvent) (_ : Kernel Cpu X L) : Prop :=
  ∀ p addr flags np, s.pc (.proc p) = .waitHeld addr flags np → (s.slot np).state ≠ ZOMBIE

section
variable [DecidableEq Cpu] [DecidableEq X] [DecidableEq L] {lkOf : X → L} {s s' : Kernel Cpu X L}
  {c : Cpu} {p np : Proc} {i : Instr Cpu X L} {e : ProcEvent} {es : List ProcEvent}

theorem KRun.not_reaped {s0 : Kernel Cpu X L} (h : KRun lkOf NoExited s0 es s) :
    .reaped p np pid status ∉ es := by
  induction h with
  | boot => exact List.not_mem_nil
  | step hrun hok hs ih =>
    intro hmem
    rcases List.mem_append.mp hmem with hold | hnew
    · exact ih hold
    obtain ⟨hcode, -⟩ := hs
    rw [← List.mem_singleton.mp hnew] at hcode
    cases hcode.shows with
    | reaped hth hpc hstate =>
      rw [hth] at hpc
      exact hok _ _ _ _ hpc hstate

theorem Kids.reaped (h : Kids s) (hs : KStep lkOf s (.reaped p np pid status) s') :
    (s.slot np).parent = some p ∧ (s.slot np).state = ZOMBIE ∧ pid = (s.slot np).pid ∧
      (status = none ∨ status = some (s.slot np).xstate) := by
  obtain ⟨hcode, -⟩ := hs
  cases hcode.shows with
  | @reaped _ _ addr flags hth hpc hstate =>
    rw [hth] at hpc
    refine ⟨h.looking hpc, hstate, rfl, ?_⟩
    by_cases haddr : addr = 0
    · exact .inl (if_pos haddr)
    · exact .inr (if_neg haddr)

omit [DecidableEq Cpu] [DecidableEq X] [DecidableEq L] in
/-- At the end of its loop `wait` fails for a process without children. -/
theorem Kids.waitRest_eq (h : Kids s) {addr n : Nat} {flags : BitVec 32} {havekids : Bool}
    (hpc : s.pc (.proc p) = .waitScan addr flags n havekids) (hno : ∀ r, (s.slot r).parent ≠ some p) :
    s.waitRest p addr flags havekids = (.waitFailed p, .release p (s.slot p) s.freelist .run) := by
  have hkids : havekids = false := by
    cases havekids with
    | false => rfl
    | true =>
      obtain ⟨r, hr⟩ := h.kids hpc
      exact absurd hr (hno r)
  unfold Kernel.waitRest
  split
  · rfl
  · rw [if_pos (.inl hkids)]

theorem KInv.not_asleep (h : KInv lkOf s) (hexec : s.exec c = .proc p)
    (hflags : (s.pc (.proc p)).waitFlags = some 1) (hcode : Code lkOf s c (s.exec c) e i)
    (hi : s.instr c (s.exec c) i = some s') : (s'.slot p).state ≠ SLEEPING := by
  have hrunning : (s.slot p).state = RUNNING := by
    refine (h.running.active hexec).mpr ?_
    generalize s.pc (.proc p) = pc at hflags
    cases pc <;> first | rfl | cases hflags
  cases hcode.change_slot hi p with
  | same hs | wakes _ hs | forked _ _ hs | given _ _ hs =>
    rw [hs, hrunning]
    nofun
  | sleeps _ hpc =>
    rw [hexec] at hpc
    rw [hpc] at hflags
    cases hflags
  | waits _ hpc _ hne =>
    rw [hexec] at hpc
    rw [hpc] at hflags
    exact absurd (Option.some.inj hflags) hne
  | woken _ hs | picked _ hs | yields _ hs | freed _ hs | born _ hs | dies _ _ hs =>
    rw [hs]
    nofun

/-- `wait` as long as no process in it has come to an exited child. No child has been reported; a
report is of a child that is a `ZOMBIE` at that moment, with its process number and its status; a
process other than the first whose children have all exited has none when `wait` has looked at all
slots, and for a process without children `wait` fails; and `wait` with flags 1 never sleeps. -/
theorem wait_without_exited (tf : Page) (pt free : List Page) (cond : X → Bool)
    (h : KRun lkOf NoExited (.boot tf pt free cond) es s) :
    (∀ p np pid status, .reaped p np pid status ∉ es) ∧
    (∀ p np pid status s', KStep lkOf s (.reaped p np pid status) s' →
      (s.slot np).parent = some p ∧ (s.slot np).state = ZOMBIE ∧ pid = (s.slot np).pid ∧
      (status = none ∨ status = some (s.slot np).xstate)) ∧
    (∀ p addr flags n havekids, s.pc (.proc p) = .waitScan addr flags n havekids → NPROC ≤ n →
      ((p ≠ initproc → (∀ r, (s.slot r).parent = some p → (s.slot r).state = ZOMBIE) →
        ∀ r, (s.slot r).parent ≠ some p) ∧
      ((∀ r, (s.slot r).parent ≠ some p) → s.waitRest p addr flags havekids =
        (.waitFailed p, .release p (s.slot p) s.freelist .run)))) ∧
    ∀ c p e i s', s.exec c = .proc p → (s.pc (.proc p)).waitFlags = some 1 →
      Code lkOf s c (s.exec c) e i → s.instr c (s.exec c) i = some s' →
      (s'.slot p).state ≠ SLEEPING := by
  have hinv := h.inv KInv.boot
  have hkids := h.kids KInv.boot Kids.boot
  have hfamily := h.family KInv.boot Family.boot
  refine ⟨fun _ _ _ _ => h.not_reaped, fun _ _ _ _ _ => hkids.reaped,
    fun p addr flags n havekids hpc hn => ⟨fun hp hexited r hr => ?_, hkids.waitRest_eq hpc⟩,
    fun _ _ _ _ _ hexec hflags hcode hi => hinv.not_asleep hexec hflags hcode hi⟩
  exact hfamily.scanned (n := n) hp (by rw [hpc]; rfl) r (r.isLt.trans_le hn) hr (hexited r hr)

end

def noExited (s : Kernel Cpu X L) (_ : ProcEvent) (_ : Kernel Cpu X L) : Bool :=
  decide (∀ p, (match s.pc (.proc p) with
    | .waitHeld _ _ np => decide ((s.slot np).state ≠ ZOMBIE)
    | _ => true) = true)

theorem NoExited.of_noExited (s : Kernel Cpu X L) (e : ProcEvent) (s' : Kernel Cpu X L)
    (h : noExited s e s' = true) : NoExited s e s' := by
  intro p addr flags np hpc
  have := of_decide_eq_true h p
  rw [hpc] at this
  exact of_decide_eq_true this

/-- The first process forks, and it comes to its child in `wait`. -/
theorem wait_without_exited_fork :
    ∃ (es : List ProcEvent) (s : Kernel Unit Unit Unit),
      KRun id NoExited (.boot 0 [] [1] fun _ => false) es s ∧ (s.slot 1).parent = some 0 ∧
      (s.slot 1).lock = some () ∧ ∀ p np pid status, .reaped p np pid status ∉ es := by
  obtain ⟨es, s, hrun, heq⟩ := KRun.of_play NoExited.of_noExited
    (show ((Kernel.boot 0 [] [1] fun _ => false : Kernel Unit Unit Unit).play id noExited
      (startTurns 0 ++ forkTurns 1 ++ ⟨(), false, .wait 8 0⟩ :: goTurns 3)).map
        (fun r => ((r.2.slot 1).parent, (r.2.slot 1).lock)) = some (some 0, some ()) by
      decide +kernel)
  simp only [Prod.mk.injEq] at heq
  exact ⟨es, s, hrun, heq.1, heq.2, (wait_without_exited _ _ _ _ hrun).1⟩

/-- The first process forks, and its child exits. -/
def exitTurns : List (Turn Unit Unit) :=
  startTurns 0 ++ forkTurns 1 ++ yieldTurns ++ startTurns 1 ++
    ⟨(), false, .exit 7⟩ :: goTurns (NPROC + 14) ++ startTurns 0

/-- The first process calls `wait` twice and gets the process number of its child both times. The child
is still there, and its trapframe is not on the free list. -/
theorem reported_twice :
    ∃ (es : List ProcEvent) (s : Kernel Unit Unit Unit),
      KRun id (fun _ _ _ => True) (.boot 0 [] [1] fun _ => false) es s ∧
      es.count (.reaped 0 1 2 (some 7)) = 2 ∧ (s.slot 1).state = ZOMBIE ∧
      (s.slot 1).trapframe = some 1 ∧ s.freelist = [] := by
  obtain ⟨es, s, hrun, heq⟩ := KRun.of_turns [1]
    (exitTurns ++ ⟨(), false, .wait 8 0⟩ :: goTurns 5 ++ ⟨(), false, .wait 8 0⟩ :: goTurns 5)
    (fun r => (r.1.count (.reaped 0 1 2 (some 7)), (r.2.slot 1).state, (r.2.slot 1).trapframe,
      r.2.freelist))
    (show _ = some (2, ZOMBIE, some 1, []) by decide +kernel)
  simp only [Prod.mk.injEq] at heq
  exact ⟨es, s, hrun, heq⟩

end Xv6
