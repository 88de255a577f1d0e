import Xv6.Lib.Ring
import Xv6.Bio.Machine

/-!
# The buffer cache with its links

`bio.c` keeps the buffers in a doubly linked ring through `bcache.head`. The functions here follow
the links as the source does; the block layer of `BState` has the order as a list instead. Each is
what happens under `bcache.lock`.
-/

namespace Xv6

open Function

/-- `bcache`: the buffers and the links through them. -/
structure Bcache (Tid : Type) where
  buf : Fin NBUF → Buf Tid
  links : Links (Fin NBUF)

inductive BioOp
  | bget (dev blockno : Nat)
  | brelse (b : Fin NBUF)
  | bpin (b : Fin NBUF)
  | bunpin (b : Fin NBUF)

namespace Bcache

variable {Tid : Type}

def binit : Bcache Tid where
  buf := fun _ => ⟨false, 0, 0, 0, none, fun _ => 0⟩
  links := (List.finRange NBUF).foldl Links.pushFront .empty

def setBuf (c : Bcache Tid) (b : Fin NBUF) (x : Buf Tid) : Bcache Tid :=
  { c with buf := update c.buf b x }

/-- Look through buffer cache for block on device dev. If not found, recycle the least recently used
unused buffer. -/
def bget (c : Bcache Tid) (dev blockno : Nat) : Outcome (Fin NBUF) (Bcache Tid) :=
  match Links.scan c.links.next (fun b => (c.buf b).dev = dev ∧ (c.buf b).blockno = blockno) NBUF
      (c.links.next none) with
  | some b => .done b (c.setBuf b { c.buf b with refcnt := (c.buf b).refcnt + 1 })
  | none =>
    match Links.scan c.links.prev (fun b => (c.buf b).refcnt = 0) NBUF (c.links.prev none) with
    | some b =>
      .done b (c.setBuf b { c.buf b with dev := dev, blockno := blockno, valid := false, refcnt := 1 })
    | none => .panic "bget: no buffers"

/-- Release a buffer. Move to the head of the most-recently-used list if no one is waiting for
it. -/
def brelse (c : Bcache Tid) (b : Fin NBUF) : Bcache Tid :=
  let c := c.setBuf b { c.buf b with refcnt := (c.buf b).refcnt - 1 }
  if (c.buf b).refcnt = 0 then { c with links := (c.links.unlink b).pushFront b } else c

def bpin (c : Bcache Tid) (b : Fin NBUF) : Bcache Tid :=
  c.setBuf b { c.buf b with refcnt := (c.buf b).refcnt + 1 }

def bunpin (c : Bcache Tid) (b : Fin NBUF) : Bcache Tid :=
  c.setBuf b { c.buf b with refcnt := (c.buf b).refcnt - 1 }

/-- The effect of a call, and the buffer it is about. -/
def step (c : Bcache Tid) : BioOp → Outcome (Fin NBUF) (Bcache Tid)
  | .bget dev blockno => c.bget dev blockno
  | .brelse b => .done b (c.brelse b)
  | .bpin b => .done b (c.bpin b)
  | .bunpin b => .done b (c.bunpin b)

end Bcache

/-! ## Runs -/

/-- What a run has done: the calls of `bget` not yet matched by `brelse` and those of `bpin` not yet
matched by `bunpin`, for each buffer, and when `brelse` last brought its count to zero. -/
structure BioTrail where
  now : Nat
  released : Fin NBUF → Nat
  held : Fin NBUF → Nat
  pinned : Fin NBUF → Nat

namespace BioTrail

def start : BioTrail := ⟨0, fun _ => 0, fun _ => 0, fun _ => 0⟩

/-- Record a call about buffer `b`, which left it with the count `n`. -/
def note (g : BioTrail) (b : Fin NBUF) (n : BitVec 32) : BioOp → BioTrail
  | .bget _ _ => { g with now := g.now + 1, held := update g.held b (g.held b + 1) }
  | .brelse _ =>
    { g with
      now := g.now + 1
      released := if n = 0 then update g.released b (g.now + 1) else g.released
      held := update g.held b (g.held b - 1) }
  | .bpin _ => { g with now := g.now + 1, pinned := update g.pinned b (g.pinned b + 1) }
  | .bunpin _ => { g with now := g.now + 1, pinned := update g.pinned b (g.pinned b - 1) }

/-- The call gives back what was taken, and no count overflows. -/
def Matched (g : BioTrail) : BioOp → Prop
  | .bget _ _ => ∀ b, g.held b + g.pinned b + 1 < 2 ^ 32
  | .brelse b => 0 < g.held b
  | .bpin b => g.held b + g.pinned b + 1 < 2 ^ 32
  | .bunpin b => 0 < g.pinned b

end BioTrail

/-- The caches that sequences of calls lead to, where every call is one that `ok` admits. -/
inductive BioRun {Tid : Type} (ok : BioTrail → BioOp → Prop) : Bcache Tid → BioTrail → Prop
  | binit : BioRun ok .binit .start
  | call {c c' : Bcache Tid} {g : BioTrail} {o : BioOp} {b : Fin NBUF} (h : BioRun ok c g)
      (ho : ok g o) (hs : c.step o = .done b c') : BioRun ok c' (g.note b (c'.buf b).refcnt o)

end Xv6
