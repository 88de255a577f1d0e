import Xv6.Param

/-!
# Processes

The process table and the code of `proc.c` that works on it: `scheduler`, `sched`, `yield`,
`sleep`, `wakeup`, `fork` with `allocproc` and `freeproc`, `exit` with `reparent`, `wait` and `kill`.
A thread is a process in the kernel or the scheduler of a CPU. `Code` gives its next instruction: what
happens between two operations on locks is one or a few instructions, so that threads on
different CPUs interleave there.

Of the rest of the kernel there are pairs of a lock and a channel. A process may take the lock and
wait for the condition of a channel, and a process or an interrupt may make the condition true and
wake up the channel.
-/

namespace Xv6

open Option (map_eq_some_iff orElse_eq_some some)
open Function

inductive ProcState
  | UNUSED
  | SLEEPING
  | RUNNABLE
  | RUNNING
  | ZOMBIE
  deriving DecidableEq, Repr

open ProcState

/-- What a process sleeps on: a channel of the rest of the kernel, or a process, in `wait`. -/
inductive Chan (X : Type)
  | chan (x : X)
  | proc (p : Proc)
  deriving DecidableEq

abbrev Page := Nat

/-- `struct proc`. Spinlocks are held by CPUs. -/
structure ProcSlot (Cpu X : Type) where
  lock : Option Cpu
  state : ProcState
  parent : Option Proc
  chan : Option (Chan X)
  killed : Bool
  xstate : BitVec 32
  pid : BitVec 32
  trapframe : Option Page
  /-- The pages of the page table and the user pages that it maps. -/
  pagetable : Option (List Page)
  /-- The process has open files or a current directory. -/
  ofile : Bool

inductive Thread (Cpu : Type)
  | proc (p : Proc)
  /-- The scheduler of a CPU. -/
  | sched (c : Cpu)
  deriving DecidableEq

/-- Where a thread is. `back` is where it goes on after an interrupt. -/
inductive Pc (X : Type)
  /-- A process outside of the functions below; a scheduler at the top of its loop. -/
  | run
  /-- `yield`. -/
  | yield (back : Pc X)
  | yieldHeld (back : Pc X)
  | yieldEnd (back : Pc X)
  /-- In `sched`, where `swtch` saves registers. -/
  | save (k : Pc X)
  /-- In `sched`, where `swtch` loads registers. -/
  | load (k : Pc X)
  /-- Before the lock of channel `x` is taken. -/
  | lock (x : X)
  /-- At the test of the condition, with the lock. -/
  | test (x : X)
  /-- After the test, with the lock. -/
  | locked (x : X)
  /-- `sleep`. -/
  | sleep (x : X)
  | sleepRelease (x : X)
  | sleepSet (x : X)
  | sleepEnd (x : X)
  /-- Before the lock of channel `x` is taken, to wake it up. -/
  | wakeLock (x : X) (back : Pc X)
  | wakeSet (x : X) (back : Pc X)
  /-- `wakeup` at slot `i`. -/
  | wakeScan (x : X) (i : Nat) (back : Pc X)
  | wakeHeld (x : X) (i : Proc) (back : Pc X)
  /-- `kill` at slot `i`. -/
  | killScan (pid : BitVec 32) (i : Nat)
  | killHeld (pid : BitVec 32) (i : Proc)
  /-- `fork`, in `allocproc` at slot `i`. -/
  | forkScan (i : Nat)
  | forkHeld (i : Proc)
  | forkFound (np : Proc)
  | forkContext (np : Proc)
  | forkCopy (np : Proc)
  | forkParent (np : Proc)
  | forkEnd (np : Proc)
  /-- `exit` before it wakes up `initproc`. -/
  | exitInit (status : BitVec 32)
  | exitInitHeld (status : BitVec 32)
  | exitRead (status : BitVec 32)
  | exitReadHeld (status : BitVec 32)
  | exitParent (status : BitVec 32) (op : Proc)
  | exitSelf (status : BitVec 32) (op : Proc)
  /-- `reparent` at slot `i`. -/
  | exitScan (status : BitVec 32) (op : Proc) (i : Nat)
  | exitGive (status : BitVec 32) (op i : Proc)
  | exitWake (status : BitVec 32) (op : Proc)
  | exitZombie (status : BitVec 32) (op : Proc)
  | exitRelease (op : Proc)
  /-- After the last `sched` of a process. -/
  | zombie
  /-- `wait`. -/
  | wait (addr : Nat) (flags : BitVec 32)
  /-- The loop of `wait` at slot `i`. -/
  | waitScan (addr : Nat) (flags : BitVec 32) (i : Nat) (havekids : Bool)
  | waitHeld (addr : Nat) (flags : BitVec 32) (i : Proc)
  | waitDone
  | waitEnd (addr : Nat) (flags : BitVec 32)
  /-- Where a new process starts. -/
  | forkret
  /-- The loop of `scheduler` at `p`. -/
  | schedHeld (p : Proc)
  | schedSet (p : Proc)
  | schedSave (p : Proc)
  | schedLoad (p : Proc)
  | schedBack (p : Proc)
  | schedRelease (p : Proc)

structure Kernel (Cpu X L : Type) where
  slot : Proc → ProcSlot Cpu X
  pc : Thread Cpu → Pc X
  /-- The thread whose registers a CPU has. -/
  exec : Cpu → Thread Cpu
  cproc : Cpu → Option Proc
  /-- The registers of the thread are saved in its context. -/
  saved : Thread Cpu → Bool
  lk : L → Option Cpu
  /-- The conditions that processes wait for. -/
  cond : X → Bool
  nextpid : BitVec 32
  freelist : List Page

def initproc : Proc := 0

/-- What an instruction shows to the outside. -/
inductive ProcEvent
  | quiet
  /-- `wait` by `p` finds that `np` has exited. `status` is what it copies out. -/
  | reaped (p np : Proc) (pid : BitVec 32) (status : Option (BitVec 32))
  /-- `wait` by `p` returns -1. -/
  | waitFailed (p : Proc)
  /-- `kill(pid)` returns 0, for slot `i`. -/
  | killed (pid : BitVec 32) (i : Proc)
  /-- `fork` makes `np` runnable. -/
  | forked (np : Proc)
  /-- `kalloc` has no page for the trapframe of `np`. -/
  | noFrame (np : Proc)
  deriving DecidableEq

/-- The instructions that threads are made of. `k` is where the thread goes on. -/
inductive Instr (Cpu X L : Type)
  | jump (k : Pc X)
  /-- `acquire(&q->lock)`. -/
  | acquire (q : Proc) (k : Pc X)
  /-- Change slot `q`, whose lock is held. -/
  | write (q : Proc) (new : ProcSlot Cpu X) (freelist : List Page) (k : Pc X)
  /-- Change slot `q`, then `release(&q->lock)`. -/
  | release (q : Proc) (new : ProcSlot Cpu X) (freelist : List Page) (k : Pc X)
  | acquireLk (l : L) (k : Pc X)
  | releaseLk (l : L) (k : Pc X)
  | setCond (x : X) (v : Bool) (k : Pc X)
  /-- Give slot `np` a process number from `nextpid`. -/
  | allocpid (np : Proc) (k : Pc X)
  /-- Close the files of `p`. -/
  | closeFiles (p : Proc) (k : Pc X)
  /-- Set up the context of `np`. -/
  | context (np : Proc) (k : Pc X)
  /-- Set `c->proc`. -/
  | setProc (p : Option Proc) (k : Pc X)
  /-- The first half of `swtch`. -/
  | save (k : Pc X)
  /-- The second half of `swtch`. -/
  | load (th : Thread Cpu) (k : Pc X)

inductive Act (X : Type)
  | go
  /-- The timer. -/
  | tick
  /-- An interrupt or a call that makes the condition of `x` true. -/
  | wake (x : X)
  | lock (x : X)
  | kill (pid : BitVec 32)
  | fork
  | exit (status : BitVec 32)
  | wait (addr : Nat) (flags : BitVec 32)
  /-- The scheduler comes to slot `p`. -/
  | dispatch (p : Proc)
  /-- An allocation or a copy fails. -/
  | fail
  /-- `proc_pagetable` fails. -/
  | failTable
  /-- Allocations succeed and take `n` pages. -/
  | alloc (n : Nat)
  /-- Make the condition false again. -/
  | reset

/-- The places where no spinlock is held, so that an interrupt may come. -/
def Pc.open {X : Type} : Pc X → Bool
  | .run | .lock _ | .killScan _ _ | .forkScan _ | .exitInit _ | .exitRead _ | .exitParent _ _
  | .wait _ _ => true
  | _ => false

namespace ProcSlot

variable {Cpu X : Type}

def wakeup [DecidableEq X] (ch : Chan X) (q : ProcSlot Cpu X) : ProcSlot Cpu X :=
  if q.state = SLEEPING ∧ q.chan = some ch then { q with state := RUNNABLE } else q

def kill (q : ProcSlot Cpu X) : ProcSlot Cpu X :=
  if q.state = SLEEPING then { q with killed := true, state := RUNNABLE }
  else { q with killed := true }

def pages (q : ProcSlot Cpu X) : List Page := q.trapframe.toList ++ q.pagetable.getD []

def freeproc (q : ProcSlot Cpu X) : ProcSlot Cpu X :=
  { q with
    trapframe := none
    pagetable := none
    pid := 0
    parent := none
    chan := none
    killed := false
    xstate := 0
    state := UNUSED }

end ProcSlot

namespace Kernel

variable {Cpu X L : Type} [DecidableEq X]

/-- ProcSlot `i` of the table, or the end of a loop. -/
def scan {α : Type} (i : Nat) (slot : Proc → α) (done : α) : α :=
  if h : i < NPROC then slot ⟨i, h⟩ else done

/-! ## Instructions of processes -/

/-- `allocproc` after it has found a slot. -/
def allocproc (s : Kernel Cpu X L) (np : Proc) : Act X → Option (ProcEvent × Instr Cpu X L)
  | .fail => some (.noFrame np,
      .release np { s.slot np with trapframe := none } s.freelist .run)
  | .failTable =>
    match s.freelist with
    | [] => none
    | _ :: _ => some (.quiet, .release np (s.slot np).freeproc s.freelist .run)
  | .alloc n =>
    match s.freelist with
    | [] => none
    | tf :: rest =>
      if n ≤ rest.length then
        some (.quiet, .write np { s.slot np with
          trapframe := some tf, pagetable := some (rest.take n) } (rest.drop n) (.forkContext np))
      else none
  | _ => none

def uvmcopy (s : Kernel Cpu X L) (np : Proc) : Act X → Option (ProcEvent × Instr Cpu X L)
  | .fail => some (.quiet,
      .release np (s.slot np).freeproc ((s.slot np).pages ++ s.freelist) .run)
  | .alloc n =>
    if n ≤ s.freelist.length then
      some (.quiet, .write np { s.slot np with
        pagetable := (s.slot np).pagetable.map (s.freelist.take n ++ ·) } (s.freelist.drop n)
        (.forkParent np))
    else none
  | _ => none

/-- The body of the loop of `wait` for child `np`, with both locks. -/
def waitChild (s : Kernel Cpu X L) (p np : Proc) (addr : Nat) (flags : BitVec 32) :
    Act X → Option (ProcEvent × Instr Cpu X L)
  | .go =>
    if (s.slot np).state = ZOMBIE then
      some (.reaped p np (s.slot np).pid (if addr = 0 then none else some (s.slot np).xstate),
        .release np (s.slot np) s.freelist .waitDone)
    else some (.quiet, .release np (s.slot np) s.freelist (.waitScan addr flags (np + 1) true))
  | .fail =>
    if (s.slot np).state = ZOMBIE ∧ addr ≠ 0 then
      some (.waitFailed p, .release np (s.slot np) s.freelist .waitDone)
    else none
  | _ => none

def waitRest (s : Kernel Cpu X L) (p : Proc) (addr : Nat) (flags : BitVec 32) (havekids : Bool) :
    ProcEvent × Instr Cpu X L :=
  if flags = 1 then (.waitFailed p, .release p (s.slot p) s.freelist .run)
  else if havekids = false ∨ (s.slot p).killed = true then
    (.waitFailed p, .release p (s.slot p) s.freelist .run)
  else (.quiet, .write p { s.slot p with chan := some (.proc p), state := SLEEPING } s.freelist
    (.save (.waitEnd addr flags)))

/-- A process outside of the functions above makes a call. -/
def call (p : Proc) : Act X → Option (Instr Cpu X L)
  | .lock x => some (.jump (.lock x))
  | .kill pid => some (.jump (.killScan pid 0))
  | .fork => some (.jump (.forkScan 0))
  -- `exit` panics in the first process
  | .exit status => if p = initproc then none else some (.closeFiles p (.exitInit status))
  | .wait addr flags => some (.jump (.wait addr flags))
  | _ => none

section
variable (lkOf : X → L)

/-- `wakeup`, with the lock of the channel. -/
def wakeCode (s : Kernel Cpu X L) : Pc X → Option (Instr Cpu X L)
  | .wakeLock x back => some (.acquireLk (lkOf x) (.wakeSet x back))
  | .wakeSet x back => some (.setCond x true (.wakeScan x 0 back))
  | .wakeScan x i back =>
    some (scan i (fun q => .acquire q (.wakeHeld x q back)) (.releaseLk (lkOf x) back))
  | .wakeHeld x i back =>
    some (.release i ((s.slot i).wakeup (.chan x)) s.freelist (.wakeScan x (i + 1) back))
  | _ => none

def sleepCode (s : Kernel Cpu X L) (c : Cpu) (p : Proc) : Pc X → Act X → Option (Instr Cpu X L)
  | .yield back, _ => some (.acquire p (.yieldHeld back))
  | .yieldHeld back, _ => some
      (.write p { s.slot p with state := RUNNABLE } s.freelist (.save (.yieldEnd back)))
  | .yieldEnd back, _ => some (.release p (s.slot p) s.freelist back)
  | .save k, _ => some (.save (.load k))
  | .load k, _ => some (.load (.sched c) k)
  | .lock x, _ => some (.acquireLk (lkOf x) (.test x))
  | .test x, _ => some (.jump (if s.cond x = true then .locked x else .sleep x))
  | .locked x, .reset => some (.setCond x false (.locked x))
  | .locked x, _ => some (.releaseLk (lkOf x) .run)
  | .sleep x, _ => some (.acquire p (.sleepRelease x))
  | .sleepRelease x, _ => some (.releaseLk (lkOf x) (.sleepSet x))
  | .sleepSet x, _ => some (.write p { s.slot p with chan := some (.chan x), state := SLEEPING }
      s.freelist (.save (.sleepEnd x)))
  | .sleepEnd x, _ => some (.release p { s.slot p with chan := none } s.freelist (.lock x))
  | _, _ => none

end

def killCode (s : Kernel Cpu X L) : Pc X → Option (ProcEvent × Instr Cpu X L)
  | .killScan pid i => some (.quiet, scan i (fun q => .acquire q (.killHeld pid q)) (.jump .run))
  | .killHeld pid i => some
      (if (s.slot i).pid = pid then (.killed pid i, .release i (s.slot i).kill s.freelist .run)
      else (.quiet, .release i (s.slot i) s.freelist (.killScan pid (i + 1))))
  | _ => none

def forkCode (s : Kernel Cpu X L) (p : Proc) : Pc X → Act X → Option (ProcEvent × Instr Cpu X L)
  | .forkScan i, _ => some (.quiet, scan i (fun q => .acquire q (.forkHeld q)) (.jump .run))
  | .forkHeld i, _ => some (.quiet,
      if (s.slot i).state = UNUSED then .allocpid i (.forkFound i)
      else .release i (s.slot i) s.freelist (.forkScan (i + 1)))
  | .forkFound np, a => s.allocproc np a
  | .forkContext np, _ => some (.quiet, .context np (.forkCopy np))
  | .forkCopy np, a => s.uvmcopy np a
  | .forkParent np, _ => some (.quiet,
      .write np { s.slot np with parent := some p, ofile := true } s.freelist (.forkEnd np))
  | .forkEnd np, _ => some (.forked np,
      .release np { s.slot np with state := RUNNABLE } s.freelist .run)
  | _, _ => none

def exitCode (s : Kernel Cpu X L) (p : Proc) : Pc X → Option (Instr Cpu X L)
  | .exitInit st => some (.acquire initproc (.exitInitHeld st))
  | .exitInitHeld st => some
      (.release initproc ((s.slot initproc).wakeup (.proc initproc)) s.freelist (.exitRead st))
  | .exitRead st => some (.acquire p (.exitReadHeld st))
  | .exitReadHeld st => (s.slot p).parent.map fun op =>
      .release p (s.slot p) s.freelist (.exitParent st op)
  | .exitParent st op => some (.acquire op (.exitSelf st op))
  | .exitSelf st op => some (.acquire p (.exitScan st op 0))
  | .exitScan st op i => some (scan i
      (fun q => if (s.slot q).parent = some p then .acquire q (.exitGive st op q)
        else .jump (.exitScan st op (i + 1)))
      (.jump (.exitWake st op)))
  | .exitGive st op i => some (.release i { s.slot i with parent := some initproc } s.freelist
      (.exitScan st op (i + 1)))
  | .exitWake st op => some
      (.write op ((s.slot op).wakeup (.proc op)) s.freelist (.exitZombie st op))
  | .exitZombie st op => some
      (.write p { s.slot p with xstate := st, state := ZOMBIE } s.freelist (.exitRelease op))
  | .exitRelease op => some (.release op (s.slot op) s.freelist (.save .zombie))
  | _ => none

def waitCode (s : Kernel Cpu X L) (p : Proc) : Pc X → Act X → Option (ProcEvent × Instr Cpu X L)
  | .wait addr flags, _ => some (.quiet, .acquire p (.waitScan addr flags 0 false))
  | .waitScan addr flags i havekids, _ => some (scan i
      (fun q => (.quiet, if (s.slot q).parent = some p then .acquire q (.waitHeld addr flags q)
        else .jump (.waitScan addr flags (i + 1) havekids)))
      (s.waitRest p addr flags havekids))
  | .waitHeld addr flags i, a => s.waitChild p i addr flags a
  | .waitDone, _ => some (.quiet, .release p (s.slot p) s.freelist .run)
  | .waitEnd addr flags, _ => some (.quiet,
      .release p { s.slot p with chan := none } s.freelist (.wait addr flags))
  | .forkret, _ => some (.quiet, .release p (s.slot p) s.freelist .run)
  | _, _ => none

def schedCode (s : Kernel Cpu X L) : Pc X → Act X → Option (Instr Cpu X L)
  | .run, .dispatch p => some (.acquire p (.schedHeld p))
  | .schedHeld p, _ => some
      (if (s.slot p).state = RUNNABLE then
        .write p { s.slot p with state := RUNNING } s.freelist (.schedSet p)
      else .release p (s.slot p) s.freelist .run)
  | .schedSet p, _ => some (.setProc (some p) (.schedSave p))
  | .schedSave p, _ => some (.save (.schedLoad p))
  | .schedLoad p, _ => some (.load (.proc p) (.schedBack p))
  | .schedBack p, _ => some (.setProc none (.schedRelease p))
  | .schedRelease p, _ => some (.release p (s.slot p) s.freelist .run)
  | _, _ => none

/-- An interrupt. Only a process yields. -/
def interrupt (th : Thread Cpu) (pc : Pc X) : Act X → Option (Instr Cpu X L)
  | .tick =>
    match th with
    | .proc _ => some (.jump (.yield pc))
    | .sched _ => none
  | .wake x => some (.jump (.wakeLock x pc))
  | _ => none

/-! ## Semantics of instructions -/

variable [DecidableEq Cpu] [DecidableEq L]

def setSlot (s : Kernel Cpu X L) (q : Proc) (new : ProcSlot Cpu X) : Kernel Cpu X L :=
  { s with slot := update s.slot q new }

def goto (s : Kernel Cpu X L) (th : Thread Cpu) (k : Pc X) : Kernel Cpu X L :=
  { s with pc := update s.pc th k }

/-- Instruction `i` of thread `th` on CPU `c`. A thread waits for a lock that is not free. -/
def instr (s : Kernel Cpu X L) (c : Cpu) (th : Thread Cpu) : Instr Cpu X L → Option (Kernel Cpu X L)
  | .jump k => some (s.goto th k)
  | .acquire q k =>
    if (s.slot q).lock = none then
      some ((s.setSlot q { s.slot q with lock := some c }).goto th k)
    else none
  | .write q new fl k =>
    some { (s.setSlot q { new with lock := (s.slot q).lock }).goto th k with freelist := fl }
  | .release q new fl k =>
    some { (s.setSlot q { new with lock := none }).goto th k with freelist := fl }
  | .acquireLk l k =>
    if s.lk l = none then some { s.goto th k with lk := update s.lk l (some c) } else none
  | .releaseLk l k => some { s.goto th k with lk := update s.lk l none }
  | .setCond x v k => some { s.goto th k with cond := update s.cond x v }
  | .allocpid np k => some
      { (s.setSlot np { s.slot np with pid := s.nextpid }).goto th k with nextpid := s.nextpid + 1 }
  | .closeFiles p k => some ((s.setSlot p { s.slot p with ofile := false }).goto th k)
  | .context np k => some
      { (s.goto (.proc np) .forkret).goto th k with
        saved := update s.saved (.proc np) true }
  | .setProc p k => some { s.goto th k with cproc := update s.cproc c p }
  | .save k => some { s.goto th k with saved := update s.saved th true }
  | .load th' k => some
      { s.goto th k with
        saved := update s.saved th' false
        exec := update s.exec c th' }

end Kernel

/-! ## Runs -/

variable {Cpu X L α : Type} [DecidableEq X] {e : ProcEvent}

/-- The next instruction of thread `th` on CPU `c`. -/
inductive Code (lkOf : X → L) (s : Kernel Cpu X L) (c : Cpu) :
    Thread Cpu → ProcEvent → Instr Cpu X L → Prop
  | interrupt {th : Thread Cpu} {a : Act X} {i : Instr Cpu X L} (hopen : (s.pc th).open = true)
      (h : Kernel.interrupt th (s.pc th) a = some i) : Code lkOf s c th .quiet i
  | wake {th : Thread Cpu} {i : Instr Cpu X L} (h : s.wakeCode lkOf (s.pc th) = some i) :
      Code lkOf s c th .quiet i
  | sched {c' : Cpu} {a : Act X} {i : Instr Cpu X L}
      (h : s.schedCode (s.pc (.sched c')) a = some i) : Code lkOf s c (.sched c') .quiet i
  | call {p : Proc} {a : Act X} {i : Instr Cpu X L} (hrun : s.pc (.proc p) = .run)
      (h : Kernel.call p a = some i) : Code lkOf s c (.proc p) .quiet i
  | sleep {p : Proc} {a : Act X} {i : Instr Cpu X L}
      (h : s.sleepCode lkOf c p (s.pc (.proc p)) a = some i) : Code lkOf s c (.proc p) .quiet i
  | kill {p : Proc} {e : ProcEvent} {i : Instr Cpu X L}
      (h : s.killCode (s.pc (.proc p)) = some (e, i)) : Code lkOf s c (.proc p) e i
  | fork {p : Proc} {a : Act X} {e : ProcEvent} {i : Instr Cpu X L}
      (h : s.forkCode p (s.pc (.proc p)) a = some (e, i)) : Code lkOf s c (.proc p) e i
  | exit {p : Proc} {i : Instr Cpu X L} (h : s.exitCode p (s.pc (.proc p)) = some i) :
      Code lkOf s c (.proc p) .quiet i
  | wait {p : Proc} {a : Act X} {e : ProcEvent} {i : Instr Cpu X L}
      (h : s.waitCode p (s.pc (.proc p)) a = some (e, i)) : Code lkOf s c (.proc p) e i

variable [DecidableEq Cpu] [DecidableEq L] {v : α}

/-- A step: a CPU does an instruction of the thread that it executes. -/
inductive KStep (lkOf : X → L) (s : Kernel Cpu X L) (e : ProcEvent) (s' : Kernel Cpu X L) : Prop
  | mk {c : Cpu} {i : Instr Cpu X L} (hcode : Code lkOf s c (s.exec c) e i)
      (hinstr : s.instr c (s.exec c) i = some s')

def ProcSlot.empty : ProcSlot Cpu X := ⟨none, UNUSED, none, none, false, 0, 0, none, none, false⟩

/-- After `userinit`: the first process is ready to run, with trapframe `tf` and page table `pt`. -/
def Kernel.boot (tf : Page) (pt free : List Page) (cond : X → Bool) : Kernel Cpu X L where
  slot := fun p => if p = initproc then
      ⟨none, RUNNABLE, none, none, false, 0, 1, some tf, some pt, true⟩
    else .empty
  pc := fun
    | .proc _ => .forkret
    | .sched _ => .run
  exec := .sched
  cproc := fun _ => none
  saved := fun th => th = .proc initproc
  lk := fun _ => none
  cond := cond
  nextpid := 2
  freelist := free

/-- Runs of steps that keep to `ok`, with what they show. -/
inductive KRun (lkOf : X → L) (ok : Kernel Cpu X L → ProcEvent → Kernel Cpu X L → Prop)
    (s₀ : Kernel Cpu X L) : List ProcEvent → Kernel Cpu X L → Prop
  | boot : KRun lkOf ok s₀ [] s₀
  | step {es : List ProcEvent} {s s' : Kernel Cpu X L} {e : ProcEvent} (h : KRun lkOf ok s₀ es s)
      (hok : ok s e s') (hs : KStep lkOf s e s') : KRun lkOf ok s₀ (es ++ [e]) s'

/-! ## Schedules -/

/-- One step of a schedule: an interrupt of a CPU, or the next instruction there. -/
structure Turn (Cpu X : Type) where
  cpu : Cpu
  intr : Bool := false
  act : Act X := .go

namespace Kernel

variable {Cpu X L : Type} [DecidableEq X] {lkOf : X → L} {s s' : Kernel Cpu X L}

/-- The next instruction of process `p`, at `pc`, outside of `wakeup`. -/
def procCode (lkOf : X → L) (s : Kernel Cpu X L) (c : Cpu) (p : Proc) (pc : Pc X) (a : Act X) :
    Option (ProcEvent × Instr Cpu X L) :=
  match pc with
  | .run => (call p a).map (.quiet, ·)
  | pc =>
    (s.sleepCode lkOf c p pc a).map (.quiet, ·) <|> s.killCode pc <|> s.forkCode p pc a <|>
      (s.exitCode p pc).map (.quiet, ·) <|> s.waitCode p pc a

def turn (lkOf : X → L) (s : Kernel Cpu X L) (t : Turn Cpu X) : Option (ProcEvent × Instr Cpu X L) :=
  let th := s.exec t.cpu
  if t.intr = true then
    if (s.pc th).open = true then (interrupt th (s.pc th) t.act).map (.quiet, ·) else none
  else
    (s.wakeCode lkOf (s.pc th)).map (.quiet, ·) <|>
      match th with
      | .sched c => (s.schedCode (s.pc (.sched c)) t.act).map (.quiet, ·)
      | .proc p => s.procCode lkOf t.cpu p (s.pc (.proc p)) t.act

theorem code_of_procCode {c : Cpu} {p : Proc} {a : Act X} {i : Instr Cpu X L}
    (h : s.procCode lkOf c p (s.pc (.proc p)) a = some (e, i)) : Code lkOf s c (.proc p) e i := by
  unfold procCode at h
  split at h
  next hrun =>
    obtain ⟨j, hj, heq⟩ := map_eq_some_iff.mp h
    cases heq
    exact .call hrun hj
  · rcases (orElse_eq_some _ _ _).mp h with h | ⟨-, h⟩
    · obtain ⟨j, hj, heq⟩ := map_eq_some_iff.mp h
      cases heq
      exact .sleep hj
    rcases (orElse_eq_some _ _ _).mp h with h | ⟨-, h⟩
    · exact .kill h
    rcases (orElse_eq_some _ _ _).mp h with h | ⟨-, h⟩
    · exact .fork h
    rcases (orElse_eq_some _ _ _).mp h with h | ⟨-, h⟩
    · obtain ⟨j, hj, heq⟩ := map_eq_some_iff.mp h
      cases heq
      exact .exit hj
    · exact .wait h

theorem code_of_turn {t : Turn Cpu X} {i : Instr Cpu X L}
    (h : s.turn lkOf t = some (e, i)) : Code lkOf s t.cpu (s.exec t.cpu) e i := by
  simp only [turn] at h
  split at h
  · split at h
    next hopen =>
      obtain ⟨j, hj, heq⟩ := map_eq_some_iff.mp h
      cases heq
      exact .interrupt hopen hj
    · cases h
  · rcases (orElse_eq_some _ _ _).mp h with h | ⟨-, h⟩
    · obtain ⟨j, hj, heq⟩ := map_eq_some_iff.mp h
      cases heq
      exact .wake hj
    generalize s.exec t.cpu = th at h
    cases th with
    | sched c =>
      obtain ⟨j, hj, heq⟩ := map_eq_some_iff.mp h
      cases heq
      exact .sched hj
    | proc p => exact code_of_procCode h

variable [DecidableEq Cpu] [DecidableEq L]

/-- Run a schedule, as long as its steps keep to `ok`. -/
def play (lkOf : X → L) (ok : Kernel Cpu X L → ProcEvent → Kernel Cpu X L → Bool)
    (s : Kernel Cpu X L) : List (Turn Cpu X) → Option (List ProcEvent × Kernel Cpu X L)
  | [] => some ([], s)
  | t :: ts => do
    let (e, i) ← s.turn lkOf t
    let s' ← s.instr t.cpu (s.exec t.cpu) i
    guard (ok s e s' = true)
    let (es, s'') ← s'.play lkOf ok ts
    return (e :: es, s'')

end Kernel

namespace KRun

variable {lkOf : X → L} {ok : Kernel Cpu X L → ProcEvent → Kernel Cpu X L → Prop}
  {check : Kernel Cpu X L → ProcEvent → Kernel Cpu X L → Bool} {s₀ s s' : Kernel Cpu X L}
  {es es' : List ProcEvent} {ts : List (Turn Cpu X)}

section
variable (hok : ∀ s e s', check s e s' = true → ok s e s')
include hok

theorem play (hrun : KRun lkOf ok s₀ es s)
    (h : s.play lkOf check ts = some (es', s')) : KRun lkOf ok s₀ (es ++ es') s' := by
  induction ts generalizing s es es' with
  | nil =>
    cases h
    rwa [List.append_nil]
  | cons t ts ih =>
    simp only [Kernel.play, bind, Option.bind_eq_some_iff, pure, some.injEq, guard] at h
    obtain ⟨⟨e, i⟩, hturn, s₁, hi, _, hcheck, ⟨es₁, s₂⟩, hplay, heq⟩ := h
    cases heq
    have hcheck : check s e s₁ = true := by
      by_contra hno
      rw [if_neg hno] at hcheck
      cases hcheck
    have hstep := hrun.step (hok _ _ _ hcheck) (.mk (Kernel.code_of_turn hturn) hi)
    have := ih hstep hplay
    rwa [List.append_assoc] at this

theorem of_play {f : List ProcEvent × Kernel Cpu X L → α}
    (h : (s₀.play lkOf check ts).map f = some v) :
    ∃ es s, KRun lkOf ok s₀ es s ∧ f (es, s) = v := by
  obtain ⟨⟨es, s⟩, hplay, hv⟩ := map_eq_some_iff.mp h
  exact ⟨es, s, KRun.boot.play hok hplay, hv⟩

end

/-! Schedules of one CPU. -/

theorem of_turns (free : List Page) (ts : List (Turn Unit Unit))
    (f : List ProcEvent × Kernel Unit Unit Unit → α)
    (h : ((Kernel.boot 0 [] free fun _ => false).play id (fun _ _ _ => true) ts).map f = some v) :
    ∃ es s, KRun id (fun _ _ _ => True) (.boot 0 [] free fun _ => false) es s ∧ f (es, s) = v :=
  of_play (fun _ _ _ _ => trivial) h

end KRun

def goTurns (n : Nat) : List (Turn Unit Unit) := List.replicate n ⟨(), false, .go⟩

/-- The scheduler starts process `p`, which comes out of `swtch` and releases its lock. -/
def startTurns (p : Proc) : List (Turn Unit Unit) := ⟨(), false, .dispatch p⟩ :: goTurns 5

/-- A process forks, past `n` slots in use. -/
def forkTurns (n : Nat) : List (Turn Unit Unit) :=
  ⟨(), false, .fork⟩ :: goTurns (2 * n + 2) ++
    [⟨(), false, .alloc 0⟩, ⟨(), false, .go⟩, ⟨(), false, .alloc 0⟩] ++ goTurns 2

def yieldTurns : List (Turn Unit Unit) := ⟨(), true, .tick⟩ :: goTurns 6

end Xv6
