import Xv6.Proc.Code

/-!
# What threads do

The code of all functions as one relation: each way in which a thread may go on from where it is.
-/

namespace Xv6

open ProcState

variable {Cpu X L : Type} [DecidableEq X]

section

variable (lkOf : X → L) (s : Kernel Cpu X L) (c : Cpu)

set_option autoImplicit true in
/-- Thread `th` at `pc` shows `e` and does instruction `i`. -/
inductive Does : Thread Cpu → Pc X → ProcEvent → Instr Cpu X L → Prop
  | tick (hopen : pc.open = true) : Does (.proc p) pc .quiet (.jump (.yield pc))
  | intr (hopen : pc.open = true) : Does th pc .quiet (.jump (.wakeLock x pc))
  | wakeLock : Does th (.wakeLock x back) .quiet (.acquireLk (lkOf x) (.wakeSet x back))
  | wakeSet : Does th (.wakeSet x back) .quiet (.setCond x true (.wakeScan x 0 back))
  | wakeNext (hj : j < NPROC) : Does th (.wakeScan x j back) .quiet
      (.acquire ⟨j, hj⟩ (.wakeHeld x ⟨j, hj⟩ back))
  | wakeDone (hj : ¬j < NPROC) : Does th (.wakeScan x j back) .quiet
      (.releaseLk (lkOf x) back)
  | wakeHeld : Does th (.wakeHeld x q back) .quiet
      (.release q ((s.slot q).wakeup (.chan x)) s.freelist (.wakeScan x (q + 1) back))
  | dispatch : Does (.sched c') .run .quiet (.acquire q (.schedHeld q))
  | pick (hq : (s.slot q).state = RUNNABLE) : Does (.sched c') (.schedHeld q) .quiet
      (.write q { s.slot q with state := RUNNING } s.freelist (.schedSet q))
  | skip (hq : ¬(s.slot q).state = RUNNABLE) : Does (.sched c') (.schedHeld q) .quiet
      (.release q (s.slot q) s.freelist .run)
  | schedSet : Does (.sched c') (.schedSet q) .quiet (.setProc (some q) (.schedSave q))
  | schedSave : Does (.sched c') (.schedSave q) .quiet (.save (.schedLoad q))
  | schedLoad : Does (.sched c') (.schedLoad q) .quiet (.load (.proc q) (.schedBack q))
  | schedBack : Does (.sched c') (.schedBack q) .quiet (.setProc none (.schedRelease q))
  | schedRelease : Does (.sched c') (.schedRelease q) .quiet
      (.release q (s.slot q) s.freelist .run)
  | callLock : Does (.proc p) .run .quiet (.jump (.lock x))
  | callKill : Does (.proc p) .run .quiet (.jump (.killScan pid 0))
  | callFork : Does (.proc p) .run .quiet (.jump (.forkScan 0))
  | callExit (hp : ¬p = initproc) : Does (.proc p) .run .quiet (.closeFiles p (.exitInit st))
  | callWait : Does (.proc p) .run .quiet (.jump (.wait addr flags))
  | yield : Does (.proc p) (.yield back) .quiet (.acquire p (.yieldHeld back))
  | yieldHeld : Does (.proc p) (.yieldHeld back) .quiet
      (.write p { s.slot p with state := RUNNABLE } s.freelist (.save (.yieldEnd back)))
  | yieldEnd : Does (.proc p) (.yieldEnd back) .quiet (.release p (s.slot p) s.freelist back)
  | save : Does (.proc p) (.save k) .quiet (.save (.load k))
  | load : Does (.proc p) (.load k) .quiet (.load (.sched c) k)
  | lock : Does (.proc p) (.lock x) .quiet (.acquireLk (lkOf x) (.test x))
  | test : Does (.proc p) (.test x) .quiet
      (.jump (if s.cond x = true then .locked x else .sleep x))
  | reset : Does (.proc p) (.locked x) .quiet (.setCond x false (.locked x))
  | unlock : Does (.proc p) (.locked x) .quiet (.releaseLk (lkOf x) .run)
  | sleep : Does (.proc p) (.sleep x) .quiet (.acquire p (.sleepRelease x))
  | sleepRelease : Does (.proc p) (.sleepRelease x) .quiet (.releaseLk (lkOf x) (.sleepSet x))
  | sleepSet : Does (.proc p) (.sleepSet x) .quiet
      (.write p { s.slot p with chan := some (.chan x), state := SLEEPING } s.freelist
        (.save (.sleepEnd x)))
  | sleepEnd : Does (.proc p) (.sleepEnd x) .quiet
      (.release p { s.slot p with chan := none } s.freelist (.lock x))
  | killNext (hj : j < NPROC) : Does (.proc p) (.killScan pid j) .quiet
      (.acquire ⟨j, hj⟩ (.killHeld pid ⟨j, hj⟩))
  | killDone : Does (.proc p) (.killScan pid j) .quiet (.jump .run)
  | kill (hpid : (s.slot q).pid = pid) : Does (.proc p) (.killHeld pid q) (.killed pid q)
      (.release q (s.slot q).kill s.freelist .run)
  | spare : Does (.proc p) (.killHeld pid q) .quiet
      (.release q (s.slot q) s.freelist (.killScan pid (q + 1)))
  | forkNext (hj : j < NPROC) : Does (.proc p) (.forkScan j) .quiet
      (.acquire ⟨j, hj⟩ (.forkHeld ⟨j, hj⟩))
  | forkFull : Does (.proc p) (.forkScan j) .quiet (.jump .run)
  | forkTake (hq : (s.slot q).state = UNUSED) : Does (.proc p) (.forkHeld q) .quiet
      (.allocpid q (.forkFound q))
  | forkSkip : Does (.proc p) (.forkHeld q) .quiet
      (.release q (s.slot q) s.freelist (.forkScan (q + 1)))
  | noFrame : Does (.proc p) (.forkFound q) (.noFrame q)
      (.release q { s.slot q with trapframe := none } s.freelist .run)
  | noTable : Does (.proc p) (.forkFound q) .quiet
      (.release q (s.slot q).freeproc s.freelist .run)
  | frame (hfree : s.freelist = tf :: rest) : Does (.proc p) (.forkFound q) .quiet
      (.write q { s.slot q with trapframe := some tf, pagetable := some (rest.take n) } (rest.drop n)
        (.forkContext q))
  | forkContext : Does (.proc p) (.forkContext q) .quiet (.context q (.forkCopy q))
  | noCopy : Does (.proc p) (.forkCopy q) .quiet
      (.release q (s.slot q).freeproc ((s.slot q).pages ++ s.freelist) .run)
  | copy : Does (.proc p) (.forkCopy q) .quiet
      (.write q { s.slot q with pagetable := (s.slot q).pagetable.map (s.freelist.take n ++ ·) }
        (s.freelist.drop n) (.forkParent q))
  | forkParent : Does (.proc p) (.forkParent q) .quiet
      (.write q { s.slot q with parent := some p, ofile := true } s.freelist (.forkEnd q))
  | forkEnd : Does (.proc p) (.forkEnd q) (.forked q)
      (.release q { s.slot q with state := RUNNABLE } s.freelist .run)
  | exitInit : Does (.proc p) (.exitInit st) .quiet (.acquire initproc (.exitInitHeld st))
  | exitInitHeld : Does (.proc p) (.exitInitHeld st) .quiet
      (.release initproc ((s.slot initproc).wakeup (.proc initproc)) s.freelist (.exitRead st))
  | exitRead : Does (.proc p) (.exitRead st) .quiet (.acquire p (.exitReadHeld st))
  | exitReadHeld (hop : (s.slot p).parent = some op) : Does (.proc p) (.exitReadHeld st) .quiet
      (.release p (s.slot p) s.freelist (.exitParent st op))
  | exitParent : Does (.proc p) (.exitParent st op) .quiet (.acquire op (.exitSelf st op))
  | exitSelf : Does (.proc p) (.exitSelf st op) .quiet (.acquire p (.exitScan st op 0))
  | exitChild (hj : j < NPROC) (hq : (s.slot ⟨j, hj⟩).parent = some p) :
      Does (.proc p) (.exitScan st op j) .quiet (.acquire ⟨j, hj⟩ (.exitGive st op ⟨j, hj⟩))
  | exitNext (hj : j < NPROC) (hq : ¬(s.slot ⟨j, hj⟩).parent = some p) :
      Does (.proc p) (.exitScan st op j) .quiet (.jump (.exitScan st op (j + 1)))
  | exitDone (hj : ¬j < NPROC) :
      Does (.proc p) (.exitScan st op j) .quiet (.jump (.exitWake st op))
  | exitGive : Does (.proc p) (.exitGive st op q) .quiet
      (.release q { s.slot q with parent := some initproc } s.freelist (.exitScan st op (q + 1)))
  | exitWake : Does (.proc p) (.exitWake st op) .quiet
      (.write op ((s.slot op).wakeup (.proc op)) s.freelist (.exitZombie st op))
  | exitZombie : Does (.proc p) (.exitZombie st op) .quiet
      (.write p { s.slot p with xstate := st, state := ZOMBIE } s.freelist (.exitRelease op))
  | exitRelease : Does (.proc p) (.exitRelease op) .quiet
      (.release op (s.slot op) s.freelist (.save .zombie))
  | wait : Does (.proc p) (.wait addr flags) .quiet (.acquire p (.waitScan addr flags 0 false))
  | waitChild (hj : j < NPROC) (hq : (s.slot ⟨j, hj⟩).parent = some p) :
      Does (.proc p) (.waitScan addr flags j havekids) .quiet
        (.acquire ⟨j, hj⟩ (.waitHeld addr flags ⟨j, hj⟩))
  | waitNext (hj : j < NPROC) (hq : ¬(s.slot ⟨j, hj⟩).parent = some p) :
      Does (.proc p) (.waitScan addr flags j havekids) .quiet
        (.jump (.waitScan addr flags (j + 1) havekids))
  | waitFail (hj : ¬j < NPROC) : Does (.proc p) (.waitScan addr flags j havekids) (.waitFailed p)
      (.release p (s.slot p) s.freelist .run)
  | waitSleep (hj : ¬j < NPROC) (hflags : ¬flags = 1)
      (hkids : ¬(havekids = false ∨ (s.slot p).killed = true)) :
      Does (.proc p) (.waitScan addr flags j havekids) .quiet
        (.write p { s.slot p with chan := some (.proc p), state := SLEEPING } s.freelist
          (.save (.waitEnd addr flags)))
  | reap (hq : (s.slot q).state = ZOMBIE) : Does (.proc p) (.waitHeld addr flags q)
      (.reaped p q (s.slot q).pid (if addr = 0 then none else some (s.slot q).xstate))
      (.release q (s.slot q) s.freelist .waitDone)
  | waitAlive (hq : ¬(s.slot q).state = ZOMBIE) : Does (.proc p) (.waitHeld addr flags q) .quiet
      (.release q (s.slot q) s.freelist (.waitScan addr flags (q + 1) true))
  | waitFault (hq : (s.slot q).state = ZOMBIE ∧ addr ≠ 0) :
      Does (.proc p) (.waitHeld addr flags q) (.waitFailed p)
        (.release q (s.slot q) s.freelist .waitDone)
  | waitDone : Does (.proc p) .waitDone .quiet (.release p (s.slot p) s.freelist .run)
  | waitEnd : Does (.proc p) (.waitEnd addr flags) .quiet
      (.release p { s.slot p with chan := none } s.freelist (.wait addr flags))
  | forkret : Does (.proc p) .forkret .quiet (.release p (s.slot p) s.freelist .run)

end

variable {lkOf : X → L} {s : Kernel Cpu X L} {c : Cpu} {th : Thread Cpu} {e : ProcEvent}
  {i : Instr Cpu X L}

theorem Code.does (h : Code lkOf s c th e i) : Does lkOf s c th (s.pc th) e i := by
  cases h with
  | @interrupt _ a _ hopen h =>
    cases a <;> try cases h
    · cases th <;> cases h
      exact .tick hopen
    · exact .intr hopen
  | wake h =>
    generalize s.pc th = pc at h ⊢
    cases pc <;> simp only [Kernel.wakeCode, Kernel.scan, reduceCtorEq] at h <;>
      (try split at h) <;> (cases h; constructor)
    assumption
  | @sched c' a _ h =>
    generalize s.pc (.sched c') = pc at h ⊢
    cases pc <;> cases a <;> simp only [Kernel.schedCode, reduceCtorEq] at h <;>
      (try split at h) <;> cases h <;> constructor <;> assumption
  | @call p a _ hrun h =>
    rw [hrun]
    cases a <;> simp only [Kernel.call, reduceCtorEq] at h <;>
      (try split at h) <;> cases h <;> constructor
    assumption
  | @sleep p a _ h =>
    generalize s.pc (.proc p) = pc at h ⊢
    cases pc <;> cases a <;> cases h <;> constructor
  | @kill p _ _ h =>
    generalize s.pc (.proc p) = pc at h ⊢
    cases pc with
    | killScan pid j =>
      cases h
      unfold Kernel.scan
      split <;> constructor
    | killHeld pid q =>
      simp only [Kernel.killCode, Option.some.injEq] at h
      split at h <;> cases h <;> constructor
      assumption
    | _ => cases h
  | @fork p a _ _ h =>
    generalize s.pc (.proc p) = pc at h ⊢
    cases pc with
    | forkScan j =>
      cases h
      unfold Kernel.scan
      split <;> constructor
    | forkHeld q =>
      cases h
      split <;> constructor
      assumption
    | forkFound q | forkCopy q =>
      cases a <;> simp only [Kernel.forkCode, Kernel.allocproc, Kernel.uvmcopy, reduceCtorEq] at h <;>
        (try split at h) <;> (try split at h) <;> cases h <;> constructor <;> assumption
    | _ => cases h <;> constructor
  | @exit p _ h =>
    generalize s.pc (.proc p) = pc at h ⊢
    cases pc with
    | exitReadHeld st =>
      obtain ⟨op, hop, rfl⟩ := Option.map_eq_some_iff.mp h
      exact .exitReadHeld hop
    | exitScan st op j =>
      simp only [Kernel.exitCode, Kernel.scan, Option.some.injEq] at h
      (try split at h) <;> (try split at h) <;> cases h <;> constructor <;> assumption
    | _ => cases h <;> constructor
  | @wait p a _ _ h =>
    generalize s.pc (.proc p) = pc at h ⊢
    cases pc with
    | waitScan addr flags j havekids =>
      simp only [Kernel.waitCode, Kernel.scan, Kernel.waitRest, Option.some.injEq] at h
      split at h <;> (try split at h) <;> (try split at h) <;> cases h <;> constructor <;> assumption
    | waitHeld addr flags q =>
      cases a <;> simp only [Kernel.waitCode, Kernel.waitChild, reduceCtorEq] at h <;>
        (try split at h) <;> cases h <;> constructor <;> assumption
    | _ => cases h <;> constructor

end Xv6
