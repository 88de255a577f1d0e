import Mathlib.Tactic

/-!
# The user heap allocator

`umalloc.c`: a circular list of free blocks in address order, entered at the rover `freep`. A block
starts with a `Header` of 16 bytes, its size counts units of 16 bytes with the header among them.
Pointers are byte addresses, the null pointer is 0. The two loops take a bound on the number of
rounds; they return `none` where it does not suffice. `sbrk` answers with the addresses of a given
list, `none` for the failure -1, and what it gave is returned with the result.
-/

namespace Xv6.Umalloc

structure Header where
  ptr : Nat
  size : Nat
  deriving Repr, DecidableEq

/-- The headers in memory, the address of the static `base`, and `freep`. -/
structure Heap where
  base : Nat
  mem : Nat → Header
  freep : Nat

def setPtr (m : Nat → Header) (p q : Nat) : Nat → Header :=
  Function.update m p { m p with ptr := q }

/-- `p->s.size = n`, with the width of a `uint`. -/
def setSize (m : Nat → Header) (p n : Nat) : Nat → Header :=
  Function.update m p { m p with size := n % 2 ^ 32 }

/-- The loop of `free`: the block behind which `bp` belongs. -/
def freeLoop (m : Nat → Header) (bp : Nat) : Nat → Nat → Option Nat
  | 0, _ => none
  | fuel + 1, p =>
    if p < bp ∧ bp < (m p).ptr then some p
    else if (m p).ptr ≤ p ∧ (p < bp ∨ bp < (m p).ptr) then some p
    else freeLoop m bp fuel (m p).ptr

/-- The block `bp` takes over what follows it, with the block above it where they touch. -/
def joinUpper (m : Nat → Header) (bp p : Nat) : Nat → Header :=
  if bp + 16 * (m bp).size = (m p).ptr then
    let m := setSize m bp ((m bp).size + (m (m p).ptr).size)
    setPtr m bp (m (m p).ptr).ptr
  else setPtr m bp (m p).ptr

/-- The block `p` is followed by `bp`, or takes it in where they touch. -/
def joinLower (m : Nat → Header) (bp p : Nat) : Nat → Header :=
  if p + 16 * (m p).size = bp then
    let m := setSize m p ((m p).size + (m bp).size)
    setPtr m p (m bp).ptr
  else setPtr m p bp

def free (fuel ap : Nat) (h : Heap) : Option Heap := do
  let bp := ap - 16
  let p ← freeLoop h.mem bp fuel h.freep
  let m := joinUpper h.mem bp p
  some { h with mem := joinLower m bp p, freep := p }

/-- A piece of memory: where it starts, and its units. -/
structure Block where
  addr : Nat
  size : Nat
  deriving Repr, DecidableEq

def moreUnits (nu : Nat) : Nat := if nu < 4096 then 4096 else nu

/-- The heap with the size that `morecore` writes to the memory that it got at `p`. -/
def setHeader (h : Heap) (p nu : Nat) : Heap := { h with mem := setSize h.mem p nu }

/-- `morecore` with what `sbrk` answers: the pointer that it returns and the heap. -/
def morecore (fuel nu : Nat) (answer : Option Nat) (h : Heap) : Option (Nat × Heap) :=
  match answer with
  | none => some (0, h)
  | some p => do
    let h ← free fuel (p + 16) (setHeader h p (moreUnits nu))
    some (h.freep, h)

/-- What a call of `malloc` did: its result, the heap after it, and the memory it got. -/
structure Out where
  ret : Nat
  heap : Heap
  got : List Block

/-- The block `p` fits: take it out, or cut off its end. -/
def carve (h : Heap) (nunits prevp p : Nat) : Nat × Heap :=
  if (h.mem p).size = nunits then
    (p + 16, { h with mem := setPtr h.mem prevp (h.mem p).ptr, freep := prevp })
  else
    let m := setSize h.mem p ((h.mem p).size - nunits)
    let p := p + 16 * (m p).size
    (p + 16, { h with mem := setSize m p nunits, freep := prevp })

def mallocLoop (nunits : Nat) : Nat → Heap → List (Option Nat) → List Block → Nat → Nat → Option Out
  | 0, _, _, _, _, _ => none
  | fuel + 1, h, os, got, prevp, p =>
    if nunits ≤ (h.mem p).size then
      let (ret, h) := carve h nunits prevp p
      some ⟨ret, h, got⟩
    else if p = h.freep then
      -- the list of answers at its end stands for an `sbrk` that fails
      match morecore fuel nunits (os.headD none) h with
      | none => none
      | some (q, h) =>
        let got := got ++ (os.headD none).toList.map (Block.mk · (moreUnits nunits))
        if q = 0 then some ⟨0, h, got⟩
        else mallocLoop nunits fuel h os.tail got q (h.mem q).ptr
    else mallocLoop nunits fuel h os got p (h.mem p).ptr

/-- The units for `nbytes` bytes and a header. -/
def nunits (nbytes : Nat) : Nat := (nbytes + 16 - 1) / 16 + 1

/-- The list at the first call: `base` alone. -/
def initBase (h : Heap) : Heap :=
  if h.freep = 0 then
    { h with mem := setSize (setPtr h.mem h.base h.base) h.base 0, freep := h.base }
  else h

def malloc (fuel nbytes : Nat) (os : List (Option Nat)) (h : Heap) : Option Out :=
  let h := initBase h
  mallocLoop (nunits nbytes) fuel h os [] h.freep (h.mem h.freep).ptr

end Xv6.Umalloc
