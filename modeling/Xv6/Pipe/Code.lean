import Xv6.Lib.RingBuffer

/-!
# Pipes

`pipewrite`, `piperead` and `pipeclose` of `pipe.c` as threads run them: each thread has a program
counter, and `advance` is its next step. The pipe's lock is held between the steps of a call, except
in `sleep`, from which a thread may come back at any moment to take the lock and test its condition
again. User buffers are mapped, so that the copies do not fail.
-/

namespace Xv6

open Function

abbrev PIPESIZE : Nat := 512

instance : NeZero PIPESIZE := ⟨by decide⟩

/-- `struct pipe`. `lock` is the thread that holds the lock. -/
structure Pipe (Tid : Type) where
  lock : Option Tid
  data : Fin PIPESIZE → BitVec 8
  nread : BitVec 32
  nwrite : BitVec 32
  readopen : Bool
  writeopen : Bool

/-- Where a thread is. `buf` is the user buffer of a writer and `i` the variable of the source. -/
inductive PipePc
  | idle
  /-- `pipewrite` before `acquire`. -/
  | writeStart (buf : Nat → BitVec 8) (n : Int)
  /-- At the `for` loop of `pipewrite`, with the lock. -/
  | writeLoop (buf : Nat → BitVec 8) (n : Int) (i : Nat)
  /-- In `sleep(&pi->nwrite, &pi->lock)`. -/
  | writeSleep (buf : Nat → BitVec 8) (n : Int) (i : Nat)
  /-- `piperead` before `acquire`. -/
  | readStart (n : Int)
  /-- At the `while` loop of `piperead`, with the lock. -/
  | readWait (n : Int)
  /-- In `sleep(&pi->nread, &pi->lock)`. -/
  | readSleep (n : Int)
  /-- At the `for` loop of `piperead`, with the lock. -/
  | readLoop (n : Int) (i : Nat)
  /-- `pipeclose` before `acquire`. -/
  | closeStart (writable : Bool)

inductive PipeEvent
  | quiet
  /-- A writer has stored a byte. -/
  | stored (ch : BitVec 8)
  /-- A reader has been given a byte. -/
  | delivered (ch : BitVec 8)
  /-- `pipewrite` returns `r`. -/
  | wrote (buf : Nat → BitVec 8) (n : Int) (r : Int)
  /-- `piperead` returns `r`. -/
  | read (n : Int) (r : Int)

structure PipeState (Tid : Type) where
  pipe : Pipe Tid
  pc : Tid → PipePc
  killed : Tid → Bool

namespace PipeState

variable {Tid : Type} [DecidableEq Tid]

/-- A new pipe, as `pipealloc` makes it. -/
def new (data : Fin PIPESIZE → BitVec 8) (killed : Tid → Bool) : PipeState Tid where
  pipe := ⟨none, data, 0, 0, true, true⟩
  pc := fun _ => .idle
  killed := killed

/-- The state with thread `t` at `pc` and another pipe. -/
def goto (s : PipeState Tid) (t : Tid) (pc : PipePc) (pipe : Pipe Tid) : PipeState Tid :=
  { s with pipe := pipe, pc := update s.pc t pc }

def release (s : PipeState Tid) : Pipe Tid := { s.pipe with lock := none }

/-- Take the lock and go to `pc`; the thread waits if somebody has it. -/
def acquire (s : PipeState Tid) (t : Tid) (pc : PipePc) : Option (PipeEvent × PipeState Tid) :=
  if s.pipe.lock = none then some (.quiet, s.goto t pc { s.pipe with lock := some t }) else none

/-- `pi->data[pi->nwrite++ % PIPESIZE] = ch`. -/
def push (s : PipeState Tid) (ch : BitVec 8) : Pipe Tid :=
  { s.pipe with
    data := update s.pipe.data (RingBuffer.slot PIPESIZE s.pipe.nwrite) ch
    nwrite := s.pipe.nwrite + 1 }

/-- One turn of the loop of `pipewrite`. -/
def writeTurn (s : PipeState Tid) (t : Tid) (buf : Nat → BitVec 8) (n : Int) (i : Nat) :
    PipeEvent × PipeState Tid :=
  if (i : Int) < n then
    if s.pipe.nwrite = s.pipe.nread + BitVec.ofNat 32 PIPESIZE then
      if s.pipe.readopen = false ∨ s.killed t = true then
        (.wrote buf n (-1), s.goto t .idle s.release)
      else (.quiet, s.goto t (.writeSleep buf n i) s.release)
    else (.stored (buf i), s.goto t (.writeLoop buf n (i + 1)) (s.push (buf i)))
  else (.wrote buf n i, s.goto t .idle s.release)

/-- One turn of the `while` loop of `piperead`. -/
def readTest (s : PipeState Tid) (t : Tid) (n : Int) : PipeEvent × PipeState Tid :=
  if s.pipe.nread = s.pipe.nwrite ∧ s.pipe.writeopen = true then
    if s.killed t = true then (.read n (-1), s.goto t .idle s.release)
    else (.quiet, s.goto t (.readSleep n) s.release)
  else (.quiet, s.goto t (.readLoop n 0) s.pipe)

/-- One turn of the `for` loop of `piperead`. -/
def readTurn (s : PipeState Tid) (t : Tid) (n : Int) (i : Nat) : PipeEvent × PipeState Tid :=
  if (i : Int) < n ∧ s.pipe.nread ≠ s.pipe.nwrite then
    (.delivered (s.pipe.data (RingBuffer.slot PIPESIZE s.pipe.nread)),
      s.goto t (.readLoop n (i + 1)) { s.pipe with nread := s.pipe.nread + 1 })
  else (.read n i, s.goto t .idle s.release)

def close (s : PipeState Tid) (t : Tid) (writable : Bool) : Option (PipeEvent × PipeState Tid) :=
  if s.pipe.lock = none then
    some (.quiet, s.goto t .idle (if writable then { s.pipe with writeopen := false }
      else { s.pipe with readopen := false }))
  else none

/-- The next step of thread `t`, if it has one. -/
def advance (s : PipeState Tid) (t : Tid) : Option (PipeEvent × PipeState Tid) :=
  match s.pc t with
  | .idle => none
  | .writeStart buf n => s.acquire t (.writeLoop buf n 0)
  | .writeLoop buf n i => some (s.writeTurn t buf n i)
  | .writeSleep buf n i => s.acquire t (.writeLoop buf n i)
  | .readStart n => s.acquire t (.readWait n)
  | .readWait n => some (s.readTest t n)
  | .readSleep n => s.acquire t (.readWait n)
  | .readLoop n i => some (s.readTurn t n i)
  | .closeStart writable => s.close t writable

def Entry : PipePc → Prop
  | .writeStart _ _ | .readStart _ | .closeStart _ => True
  | _ => False

end PipeState

/-! ## Runs -/

/-- What has gone through the pipe. Stored bytes carry the thread and the number of its call. -/
structure PipeHist (Tid : Type) where
  stored : List ((Tid × Nat) × BitVec 8)
  delivered : List (BitVec 8)
  calls : Tid → Nat

variable {Tid : Type} [DecidableEq Tid]

def PipeHist.note (h : PipeHist Tid) (t : Tid) : PipeEvent → PipeHist Tid
  | .stored ch => { h with stored := h.stored ++ [((t, h.calls t), ch)] }
  | .delivered ch => { h with delivered := h.delivered ++ [ch] }
  | .quiet | .wrote _ _ _ | .read _ _ => h

/-- The bytes that the current call of thread `t` has stored. -/
def PipeHist.bytesOf (h : PipeHist Tid) (t : Tid) : List (BitVec 8) :=
  (h.stored.filter fun x => x.1 = (t, h.calls t)).map Prod.snd

/-- A system of threads around a pipe, with its history. -/
structure PipeWorld (Tid : Type) where
  st : PipeState Tid
  hist : PipeHist Tid

/-- A step: a thread makes a call, goes on with one, or is killed. -/
inductive PipeStep : PipeWorld Tid → PipeWorld Tid → Prop
  | call {w : PipeWorld Tid} (t : Tid) (pc : PipePc) (hidle : w.st.pc t = .idle)
      (hpc : PipeState.Entry pc) :
      PipeStep w ⟨w.st.goto t pc w.st.pipe,
        { w.hist with calls := update w.hist.calls t (w.hist.calls t + 1) }⟩
  | run {w : PipeWorld Tid} (t : Tid) {e : PipeEvent} {s' : PipeState Tid}
      (h : w.st.advance t = some (e, s')) : PipeStep w ⟨s', w.hist.note t e⟩
  | kill {w : PipeWorld Tid} (t : Tid) :
      PipeStep w ⟨{ w.st with killed := update w.st.killed t true }, w.hist⟩

/-- The states of a new pipe and its threads. -/
def PipeReach (data : Fin PIPESIZE → BitVec 8) (killed : Tid → Bool) (w : PipeWorld Tid) : Prop :=
  Relation.ReflTransGen PipeStep ⟨.new data killed, ⟨[], [], fun _ => 0⟩⟩ w

end Xv6
