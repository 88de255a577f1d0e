import Mathlib.Logic.Function.Basic

/-!
# Interrupts and spinlocks

`push_off` and `pop_off` of `spinlock.c`, with the calls that rest on them: `acquire` and `release`,
and `sched` and `scheduler` of `proc.c`, which take a kernel thread from one CPU to another. A thread
may be interrupted as long as interrupts are enabled, also in `push_off`, and be moved meanwhile.
-/

namespace Xv6.Spinlock

open Function

/-- `struct cpu`, with the bit of `sstatus` by which the CPU takes interrupts. -/
structure CpuState where
  noff : Int
  intena : Bool
  sie : Bool

/-- `push_off` after `intr_get` has returned `old`. -/
def CpuState.pushOff (x : CpuState) (old : Bool) : CpuState where
  noff := x.noff + 1
  intena := if x.noff = 0 then old else x.intena
  sie := false

def CpuState.popOff (x : CpuState) : Except String CpuState :=
  if x.sie = true then .error "pop_off - interruptible"
  else if x.noff < 1 then .error "pop_off"
  else .ok { x with
    noff := x.noff - 1
    sie := if x.noff - 1 = 0 ∧ x.intena = true then true else x.sie }

/-- Where a kernel thread is. -/
inductive Pos (L : Type)
  /-- In none of the functions below. -/
  | run
  /-- In `push_off`, which `acquire(lk)` or other code has called, after `intr_get`. -/
  | push (old : Bool) (lk : Option L)
  /-- In `acquire(lk)`, after `push_off`. -/
  | spin (lk : L)
  /-- In `swtch`, which `sched` has called. -/
  | away (intena : Bool)
  /-- In `sched`, back from `swtch`. -/
  | back (intena : Bool)
  /-- To start in `forkret`. -/
  | fresh

/-- Where `swtch` takes a process up. -/
def Pos.resumed {L : Type} : Pos L → Option (Pos L)
  | .away i => some (.back i)
  | .fresh => some .run
  | _ => none

structure Kthread (L : Type) where
  pos : Pos L
  /-- Where it was when the interrupts came that it is handling. -/
  traps : List (Pos L)
  /-- The calls of `push_off`, less those of `pop_off`. -/
  count : Nat
  /-- Whether interrupts were enabled when it last called `push_off` with a count of zero. -/
  outer : Option Bool

/-- The CPUs, and the kernel threads of the processes and of the schedulers. -/
structure Machine (C P L : Type) where
  cpu : C → CpuState
  exec : C → P ⊕ C
  thread : P ⊕ C → Kthread L
  /-- The CPU that holds a lock: `lk->cpu`, if `lk->locked`. -/
  lock : L → Option C

namespace Machine

variable {C P L : Type} [DecidableEq C] [DecidableEq P] [DecidableEq L]

/-- Every CPU is in its scheduler. A new process starts with a lock that the scheduler has taken. -/
def boot (intena sie : C → Bool) : Machine C P L where
  cpu c := ⟨0, intena c, sie c⟩
  exec := .inr
  thread
    | .inl _ => ⟨.fresh, [], 1, none⟩
    | .inr _ => ⟨.run, [], 0, none⟩
  lock _ := none

/-- The thread that a CPU executes. -/
def cur (s : Machine C P L) (c : C) : Kthread L := s.thread (s.exec c)

/-- The CPU, and the thread that it executes, change. -/
def put (s : Machine C P L) (c : C) (x : CpuState) (k : Kthread L) : Machine C P L :=
  { s with cpu := update s.cpu c x, thread := update s.thread (s.exec c) k }

/-- `swtch`: the thread is left as `k`, and the CPU goes on with `t` as `k'`. -/
def swtch (s : Machine C P L) (c : C) (k : Kthread L) (t : P ⊕ C) (k' : Kthread L) :
    Machine C P L :=
  { s with
    exec := update s.exec c t
    thread := update (update s.thread (s.exec c) k) t k' }

/-- What a CPU may do next, for processes with the locks `plock`. Threads keep to the protocol: they
undo only what they have done, in any order, and everything before they set `sie` themselves or return
from an interrupt; a scheduler holds one lock when it goes on with a process. -/
inductive Step (plock : P → L) (s : Machine C P L) (c : C) : Machine C P L → Prop
  /-- `push_off`, of `acquire(lk)` or not, up to `intr_get`. -/
  | intrGet (lk : Option L) (hpos : (s.cur c).pos = .run) :
    Step plock s c (s.put c (s.cpu c) { s.cur c with pos := .push (s.cpu c).sie lk })
  | pushOff (old : Bool) (lk : Option L) (hpos : (s.cur c).pos = .push old lk) :
    Step plock s c (s.put c ((s.cpu c).pushOff old) { s.cur c with
      pos := lk.elim .run .spin
      count := (s.cur c).count + 1
      outer := if (s.cur c).count = 0 then some (s.cpu c).sie else (s.cur c).outer })
  | acquire (lk : L) (hpos : (s.cur c).pos = .spin lk) (hfree : s.lock lk = none) :
    Step plock s c { s.put c (s.cpu c) { s.cur c with pos := .run } with
      lock := update s.lock lk (some c) }
  /-- `pop_off`, of `release(lk)` or not. -/
  | popOff (lk : Option L) (x : CpuState) (hpos : (s.cur c).pos = .run) (hk : 0 < (s.cur c).count)
    (hheld : ∀ l, lk = some l → s.lock l = some c) (hx : (s.cpu c).popOff = .ok x) :
    Step plock s c { s.put c x { s.cur c with count := (s.cur c).count - 1 } with
      lock := lk.elim s.lock fun l => update s.lock l none }
  | sched (p : P) (hexec : s.exec c = .inl p) (hpos : (s.cur c).pos = .run)
    (hheld : s.lock (plock p) = some c) (hnoff : (s.cpu c).noff = 1) (hsie : (s.cpu c).sie = false) :
    Step plock s c (s.swtch c { s.cur c with pos := .away (s.cpu c).intena } (.inr c)
      (s.thread (.inr c)))
  | scheduler (p : P) (q : Pos L) (hexec : s.exec c = .inr c) (hpos : (s.cur c).pos = .run)
    (hheld : s.lock (plock p) = some c) (hk : (s.cur c).count = 1)
    (hq : (s.thread (.inl p)).pos.resumed = some q) :
    Step plock s c (s.swtch c (s.cur c) (.inl p) { s.thread (.inl p) with pos := q })
  /-- The end of `sched`: `mycpu()->intena = intena`. -/
  | restore (i : Bool) (hpos : (s.cur c).pos = .back i) :
    Step plock s c (s.put c { s.cpu c with intena := i } { s.cur c with pos := .run })
  /-- `intr_on` or `intr_off`. -/
  | intrSet (sie : Bool) (hpos : (s.cur c).pos = .run) (hk : (s.cur c).count = 0) :
    Step plock s c (s.put c { s.cpu c with sie := sie } (s.cur c))
  /-- An interrupt, which the thread handles. -/
  | trap (hsie : (s.cpu c).sie = true) :
    Step plock s c (s.put c { s.cpu c with sie := false }
      { s.cur c with pos := .run, traps := (s.cur c).pos :: (s.cur c).traps })
  | sret (q : Pos L) (l : List (Pos L)) (hpos : (s.cur c).pos = .run) (hk : (s.cur c).count = 0)
    (htraps : (s.cur c).traps = q :: l) :
    Step plock s c (s.put c { s.cpu c with sie := true } { s.cur c with pos := q, traps := l })

/-- The states that the machine can be in. -/
inductive Reach (plock : P → L) : Machine C P L → Prop
  | boot (intena sie : C → Bool) : Reach plock (boot intena sie)
  | step {s s' : Machine C P L} {c : C} (h : Reach plock s) (hstep : Step plock s c s') :
    Reach plock s'

end Machine

end Xv6.Spinlock
