import Xv6.Proc.Does

/-!
# The locks that threads hold

Where a thread is says which spinlocks it holds. A thread that a CPU does not execute may be at a
place where it will hold its own lock when it goes on: the scheduler acquires the lock for it.
-/

namespace Xv6

variable {Cpu X L : Type} {pc : Pc X}

/-! ## Places -/

/-- The lock that a process may hold of itself. -/
def Thread.own : Thread Cpu → List Proc
  | .proc p => [p]
  | .sched _ => []

namespace Pc

/-- The process locks that a thread holds. -/
def held (own : List Proc) : Pc X → List Proc
  | .yieldHeld _ | .yieldEnd _ | .save _ | .load _ | .sleepRelease _ | .sleepSet _ | .sleepEnd _
  | .exitReadHeld _ | .waitScan _ _ _ _ | .waitDone | .waitEnd _ _ | .forkret | .zombie => own
  | .wakeHeld _ i _ | .killHeld _ i | .forkHeld i | .forkFound i | .forkContext i | .forkCopy i
  | .forkParent i | .forkEnd i | .schedHeld i | .schedSet i | .schedSave i | .schedLoad i
  | .schedBack i | .schedRelease i | .exitSelf _ i => [i]
  | .exitInitHeld _ => [initproc]
  | .exitScan _ op _ | .exitWake _ op | .exitZombie _ op | .exitRelease op => op :: own
  | .exitGive _ op i => i :: op :: own
  | .waitHeld _ _ i => i :: own
  | .run | .yield _ | .lock _ | .test _ | .locked _ | .sleep _ | .wakeLock _ _ | .wakeSet _ _
  | .wakeScan _ _ _ | .killScan _ _ | .forkScan _ | .exitInit _ | .exitRead _ | .exitParent _ _
  | .wait _ _ => []

/-- The other spinlock that a thread holds. -/
def heldLk (lkOf : X → L) : Pc X → Option L
  | .test x | .locked x | .sleep x | .sleepRelease x | .wakeSet x _ | .wakeScan x _ _
  | .wakeHeld x _ _ => some (lkOf x)
  | _ => none

/-- Where a process goes on when a CPU executes it again. -/
def resume : Pc X → Bool
  | .yieldEnd _ | .sleepEnd _ | .waitEnd _ _ | .forkret | .zombie => true
  | _ => false

def isRun : Pc X → Bool
  | .run => true
  | _ => false

/-- Places of a scheduler. It is interrupted at the top of its loop. -/
def ofSched : Pc X → Bool
  | .wakeLock _ back | .wakeSet _ back | .wakeScan _ _ back | .wakeHeld _ _ back => back.isRun
  | .run | .schedHeld _ | .schedSet _ | .schedSave _ | .schedLoad _ | .schedBack _ | .schedRelease _ => true
  | _ => false

/-- Places of a process. It is interrupted where it holds no lock. -/
def ofProc : Pc X → Bool
  | .yield back | .yieldHeld back | .yieldEnd back | .wakeLock _ back | .wakeSet _ back
  | .wakeScan _ _ back | .wakeHeld _ _ back => back.open
  | .save k | .load k => k.resume && k.ofProc
  | .schedHeld _ | .schedSet _ | .schedSave _ | .schedLoad _ | .schedBack _ | .schedRelease _ => false
  | _ => true

def of (th : Thread Cpu) (pc : Pc X) : Prop :=
  match th with
  | .proc _ => pc.ofProc = true
  | .sched _ => pc.ofSched = true

attribute [local simp] Pc.open held heldLk ofProc isRun ofSched resume

section
variable (h : pc.open = true)
include h

theorem held_of_open (own : List Proc) : pc.held own = [] := by
  cases pc <;> simp_all

theorem heldLk_of_open (lkOf : X → L) : pc.heldLk lkOf = none := by
  cases pc <;> simp_all

theorem ofProc_of_open : pc.ofProc = true := by
  cases pc <;> simp_all

end

theorem eq_run (h : pc.isRun = true) : pc = .run := by
  cases pc <;> simp_all

theorem isRun_of_open (h : pc.open = true) (hof : pc.ofSched = true) : pc.isRun = true := by
  cases pc <;> simp_all

theorem open_of_wakeScan {th : Thread Cpu} {x : X} {j : Nat} {back : Pc X}
    (h : (Pc.wakeScan x j back).of th) : back.open = true := by
  cases th with
  | proc p => exact h
  | sched c =>
    rw [eq_run (show back.isRun = true from h)]
    rfl

theorem held_of_resume (h : pc.resume = true) (own : List Proc) : pc.held own = own := by
  cases pc <;> simp_all

theorem heldLk_of_resume (h : pc.resume = true) (lkOf : X → L) : pc.heldLk lkOf = none := by
  cases pc <;> simp_all

end Pc

/-- The process locks that a thread holds at `pc`. -/
def Thread.held (th : Thread Cpu) (pc : Pc X) : List Proc := pc.held th.own

/-! ## What instructions do to locks -/

def Instr.next : Instr Cpu X L → Pc X
  | .jump k | .acquire _ k | .write _ _ _ k | .release _ _ _ k | .acquireLk _ k | .releaseLk _ k
  | .setCond _ _ k | .allocpid _ k | .closeFiles _ k | .context _ k | .setProc _ k | .save k
  | .load _ k => k

/-- The thread goes on at a place where it holds what the instruction leaves it. -/
def Instr.Keeps (lkOf : X → L) (th : Thread Cpu) (pc : Pc X) : Instr Cpu X L → Prop
  | .jump k | .closeFiles _ k | .setProc _ k | .save k =>
    th.held k = th.held pc ∧ k.heldLk lkOf = pc.heldLk lkOf
  | .acquire q k => (th.held k).Perm (q :: th.held pc) ∧ k.heldLk lkOf = pc.heldLk lkOf
  | .write q _ _ k | .allocpid q k =>
    q ∈ th.held pc ∧ th.held k = th.held pc ∧ k.heldLk lkOf = pc.heldLk lkOf
  | .context q k =>
    pc = .forkContext q ∧ th.held k = th.held pc ∧ k.heldLk lkOf = pc.heldLk lkOf
  | .release q _ _ k => th.held pc = q :: th.held k ∧ k.heldLk lkOf = pc.heldLk lkOf
  | .acquireLk l k =>
    th.held k = th.held pc ∧ pc.heldLk lkOf = none ∧ k.heldLk lkOf = some l
  | .releaseLk l k => th.held k = th.held pc ∧ pc.heldLk lkOf = some l ∧ k.heldLk lkOf = none
  | .setCond x _ k =>
    pc.heldLk lkOf = some (lkOf x) ∧ th.held k = th.held pc ∧ k.heldLk lkOf = pc.heldLk lkOf
  | .load _ _ => True

structure Instr.Fits (lkOf : X → L) (th : Thread Cpu) (pc : Pc X) (i : Instr Cpu X L) : Prop where
  of : i.next.of th
  keeps : i.Keeps lkOf th pc

variable [DecidableEq X]

section
variable {lkOf : X → L} {s : Kernel Cpu X L} {c : Cpu} {th : Thread Cpu} {e : ProcEvent}
  {i : Instr Cpu X L}

theorem Does.fits (h : Does lkOf s c th pc e i) (hof : pc.of th) : i.Fits lkOf th pc := by
  cases h with
  | tick hopen => exact ⟨hopen, (Pc.held_of_open hopen _).symm, (Pc.heldLk_of_open hopen lkOf).symm⟩
  | intr hopen =>
    refine ⟨?_, (Pc.held_of_open hopen _).symm, (Pc.heldLk_of_open hopen lkOf).symm⟩
    cases th with
    | proc p => exact hopen
    | sched c' => exact Pc.isRun_of_open hopen hof
  | wakeLock | wakeSet =>
    cases th <;> exact ⟨hof, by simp [Instr.Keeps, Thread.held, Pc.held, Pc.heldLk]⟩
  | wakeHeld => cases th <;> exact ⟨hof, rfl, rfl⟩
  | wakeNext => cases th <;> exact ⟨hof, .refl _, rfl⟩
  | wakeDone =>
    -- a thread that has been interrupted holds no locks at the place where it goes back to
    cases th with
    | proc p => exact ⟨Pc.ofProc_of_open hof, Pc.held_of_open hof _, rfl, Pc.heldLk_of_open hof _⟩
    | sched c' =>
      obtain rfl := Pc.eq_run hof
      exact ⟨rfl, rfl, rfl, rfl⟩
  | yield | sleep => exact ⟨hof, .refl _, rfl⟩
  | yieldHeld | sleepSet => exact ⟨hof, List.mem_singleton_self _, rfl, rfl⟩
  | yieldEnd =>
    exact ⟨Pc.ofProc_of_open hof, congrArg (List.cons _) (Pc.held_of_open hof _).symm,
      Pc.heldLk_of_open hof _⟩
  | save => exact ⟨hof, rfl, rfl⟩
  | load => exact ⟨(Bool.and_eq_true_iff.mp hof).2, trivial⟩
  | schedLoad => exact ⟨rfl, trivial⟩
  | test => split <;> exact ⟨rfl, rfl, rfl⟩
  | exitSelf => exact ⟨rfl, .swap _ _ _, rfl⟩
  | exitWake => exact ⟨rfl, List.mem_cons_self, rfl, rfl⟩
  | exitZombie => exact ⟨rfl, List.mem_cons_of_mem _ List.mem_cons_self, rfl, rfl⟩
  | pick | forkTake | frame | copy | forkParent | waitSleep =>
    exact ⟨rfl, List.mem_singleton_self _, rfl, rfl⟩
  | dispatch | killNext | forkNext | exitInit | exitRead | exitParent | exitChild | wait | waitChild =>
    exact ⟨rfl, .refl _, rfl⟩
  | lock | sleepRelease | reset | unlock | forkContext => exact ⟨rfl, rfl, rfl, rfl⟩
  | _ => exact ⟨rfl, rfl, rfl⟩

theorem Code.fits (h : Code lkOf s c th e i) (hof : (s.pc th).of th) : i.Fits lkOf th (s.pc th) :=
  h.does.fits hof

end

end Xv6
