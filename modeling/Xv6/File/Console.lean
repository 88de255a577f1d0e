import Xv6.File.Code

/-!
# The console's line discipline

`consoleintr` of `console.c`, for each character that arrives, and `consoleread` cut at its waits: a call
holds `cons.lock` up to its `sleep` or its end, so calls of several processes and the interrupt handler
interleave at these turns. The processes are not killed and their buffers can be written.

An `Editor` says what the console is for: it edits one pending line, and appends it to a stream that is
read from its front.
-/

namespace Xv6.Rw

open Function

/-! ## The console -/

/-- The loop of `case C('U')`, which has ended when `e` is back at `w`. -/
def killLine : Nat → Cons → Cons
  | 0, cons => cons
  | k + 1, cons =>
    if cons.e ≠ cons.w ∧ cons.buf (RingBuffer.slot INPUT_BUF (cons.e - 1)) ≠ 10 then
      killLine k { cons with e := cons.e - 1 }
    else cons

/-- `cons.buf[cons.e++ % INPUT_BUF] = c` -/
def Cons.put (cons : Cons) (c : BitVec 8) : Cons :=
  { cons with buf := update cons.buf (RingBuffer.slot INPUT_BUF cons.e) c, e := cons.e + 1 }

/-- The console input interrupt handler, without the echo. -/
def consoleintr (c : BitVec 8) (cons : Cons) : Cons :=
  if c = ctrl 'P' then cons
  else if c = ctrl 'U' then killLine (cons.e - cons.w).toNat cons
  else if c = ctrl 'H' ∨ c = 0x7f then
    if cons.e ≠ cons.w then { cons with e := cons.e - 1 } else cons
  else if c ≠ 0 ∧ (cons.e - cons.r).toNat < INPUT_BUF then
    let c := if c = 13 then 10 else c
    let cons := cons.put c
    if c = 10 ∨ c = ctrl 'D' ∨ cons.e = cons.r + BitVec.ofNat 32 INPUT_BUF then
      { cons with w := cons.e }
    else cons
  else cons

/-- What a call does in one turn: the bytes that it copies out, and how many it still wants if it then
sleeps. -/
structure Turn where
  bytes : List (BitVec 8)
  left : Option Nat
  deriving DecidableEq

/-- The loop of `consoleread`, for a call that wants `n` of its `target` bytes. -/
def consolereadTurn (target : Nat) : Nat → Cons → Turn × Cons
  | 0, cons => (⟨[], none⟩, cons)
  | n + 1, cons =>
    if cons.r = cons.w then (⟨[], some (n + 1)⟩, cons)
    else
      let c := cons.next
      let cons := { cons with r := cons.r + 1 }
      if c = ctrl 'D' then
        (⟨[], none⟩, if n + 1 < target then { cons with r := cons.r - 1 } else cons)
      else if c = 10 then (⟨[c], none⟩, cons)
      else
        let (o, cons) := consolereadTurn target n cons
        (⟨c :: o.bytes, o.left⟩, cons)

/-! ## The editor -/

structure Editor where
  /-- All that was ever committed. -/
  stream : List (BitVec 8)
  /-- How much of it has been read. -/
  pos : Nat
  pending : List (BitVec 8)

def Editor.unread (s : Editor) : List (BitVec 8) := s.stream.drop s.pos

/-- A character is typed; those in `ignored` are no input. -/
def Editor.typed (ignored : List (BitVec 8)) (c : BitVec 8) (s : Editor) : Editor :=
  if c ∈ ignored then s
  else if c = ctrl 'U' then { s with pending := [] }
  else if c = ctrl 'H' ∨ c = 0x7f then { s with pending := s.pending.dropLast }
  else if s.unread.length + s.pending.length < INPUT_BUF then
    let c := if c = 13 then 10 else c
    let pending := s.pending ++ [c]
    if c = 10 ∨ c = ctrl 'D' ∨ s.unread.length + pending.length = INPUT_BUF then
      { s with stream := s.stream ++ pending, pending := [] }
    else { s with pending }
  else s

/-- A call reads up to the end of a line; a `^D` ends it too, and stays if the call has bytes. -/
def Editor.turn (target : Nat) : Nat → Editor → Turn × Editor
  | 0, s => (⟨[], none⟩, s)
  | n + 1, s =>
    match s.unread with
    | [] => (⟨[], some (n + 1)⟩, s)
    | c :: _ =>
      let next := { s with pos := s.pos + 1 }
      if c = ctrl 'D' then (⟨[], none⟩, if n + 1 < target then s else next)
      else if c = 10 then (⟨[c], none⟩, next)
      else
        let (o, s) := Editor.turn target n next
        (⟨c :: o.bytes, o.left⟩, s)

/-- The bytes of a stream, without the marks of its ends of file. -/
def text (l : List (BitVec 8)) : List (BitVec 8) := l.filter (· ≠ ctrl 'D')

/-! ## Calls and characters in any order -/

/-- A call of `consoleread` that sleeps. -/
structure Reading where
  target : Nat
  n : Nat
  got : List (BitVec 8)

/-- A device with the calls that sleep in it, the answers of those that ended, and the bytes copied out,
oldest first. -/
structure Line (D Tid : Type) where
  dev : D
  calls : Tid → Option Reading
  log : List (Tid × List (BitVec 8))
  taken : List (Tid × BitVec 8)

inductive Input (Tid : Type)
  | typed (c : BitVec 8)
  | read (t : Tid) (n : Int)
  | wake (t : Tid)

namespace Line

variable {D Tid : Type}

def start (dev : D) : Line D Tid := ⟨dev, fun _ => none, [], []⟩

variable [DecidableEq Tid] (typed : BitVec 8 → D → D) (turn : Nat → Nat → D → Turn × D)

def takeTurn (t : Tid) (call : Reading) (s : Line D Tid) : Line D Tid :=
  let (o, dev) := turn call.target call.n s.dev
  let got := call.got ++ o.bytes
  let s := { s with dev, taken := s.taken ++ o.bytes.map (t, ·) }
  match o.left with
  | some n => { s with calls := update s.calls t (some { call with n, got }) }
  | none => { s with calls := update s.calls t none, log := s.log ++ [(t, got)] }

/-- A process makes one call at a time. -/
def step (s : Line D Tid) : Input Tid → Line D Tid
  | .typed c => { s with dev := typed c s.dev }
  | .read t n =>
    match s.calls t with
    | none => s.takeTurn turn t ⟨n.toNat, n.toNat, []⟩
    | some _ => s
  | .wake t =>
    match s.calls t with
    | none => s
    | some call => s.takeTurn turn t call

def run (s : Line D Tid) (inputs : List (Input Tid)) : Line D Tid :=
  inputs.foldl (step typed turn) s

end Line

/-- All that `t` got: the answers of its calls and what a call that sleeps has so far. -/
def Line.gotBy {D Tid : Type} [DecidableEq Tid] (s : Line D Tid) (t : Tid) : List (BitVec 8) :=
  (s.log.filter (·.1 = t)).flatMap (·.2) ++ ((s.calls t).elim [] (·.got))

end Xv6.Rw
