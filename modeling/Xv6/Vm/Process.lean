import Xv6.Vm.Code
import Xv6.Proc.Code

/-!
# The memory of a process

The part of `proc.c` that creates, copies, grows and frees the memory of a process. The locks are those
of `Xv6.Proc.Code`; here a call runs alone, and what other processes do to it is that `kalloc` may fail
at any call. Using a null page table or trapframe is a page fault in the kernel, which ends in
`panic("kerneltrap")`.
-/

namespace Xv6.Vm

structure Process where
  state : ProcState
  parent : Option Proc
  chan : Nat
  killed : BitVec 32
  xstate : BitVec 32
  pid : Nat
  sz : Nat
  pagetable : Option PageTable
  trapframe : Option Nat
  ofile : Fin NOFILE → Option Nat
  cwd : Nat
  name : Bytes 16

/-- The page of a pointer that the kernel uses. -/
def deref {α : Type} : Option α → KProg α
  | none => panic "kerneltrap"
  | some a => return a

/-- Create a user page table with no user memory, but with the page `trampoline` and the trapframe. -/
def procPagetable (trampoline : Nat) (trapframe : Nat) : KProg (Option PageTable) := do
  match ← uvmcreate with
  | none => return none
  | some t =>
    let (ok, t) ← mappages t TRAMPOLINE PGSIZE trampoline (PTE_R ||| PTE_X)
    if !ok then
      uvmfree t 0
      return none
    else
      let (ok, t) ← mappages t TRAPFRAME PGSIZE trapframe (PTE_R ||| PTE_W)
      if !ok then
        let t ← uvmunmap t TRAMPOLINE 1 false
        uvmfree t 0
        return none
      else return some t

/-- Free a process's page table, and the physical memory it refers to. -/
def procFreepagetable (t : PageTable) (sz : Nat) : KProg Unit := do
  let t ← uvmunmap t TRAMPOLINE 1 false
  let t ← uvmunmap t TRAPFRAME 1 false
  uvmfree t sz

/-- Grow or shrink user memory by `n` bytes. The local `sz` is a `uint`. -/
def growproc (p : Process) (n : BitVec 32) : KProg (Int × Process) := do
  let sz := BitVec.ofNat 32 p.sz
  let t ← deref p.pagetable
  if 0 < n.toInt then do
    let (r, t) ← uvmalloc t sz.toNat (sz + n).toNat
    let sz := BitVec.ofNat 32 r
    if sz = 0 then return (-1, { p with pagetable := some t })
    else return (0, { p with pagetable := some t, sz := sz.toNat })
  else if n.toInt < 0 then do
    let (r, t) ← uvmdealloc t sz.toNat (sz + n).toNat
    return (0, { p with pagetable := some t, sz := (BitVec.ofNat 32 r).toNat })
  else return (0, { p with sz := sz.toNat })

/-- The process table. `nextpid` starts as 1 and only grows; it is an `int`, which must not overflow. -/
structure Ptable where
  proc : Proc → Process
  nextpid : Nat
  pos : 0 < nextpid

def Ptable.set (s : Ptable) (i : Proc) (p : Process) : Ptable :=
  { s with proc := Function.update s.proc i p }

/-- Free a proc structure and the data hanging from it. -/
def freeproc (p : Process) : KProg Process := do
  match p.trapframe with
  | none => Prog.pure ()
  | some tf => .lift (.kfree tf)
  match p.pagetable with
  | none => Prog.pure ()
  | some t => procFreepagetable t p.sz
  return { p with
    trapframe := none, pagetable := none, sz := 0, pid := 0, parent := none
    name := p.name.setByte 0 0, chan := 0, killed := 0, xstate := 0, state := .UNUSED }

def findUnused (s : Ptable) : Option Proc :=
  (List.finRange NPROC).find? fun i => (s.proc i).state = .UNUSED

/-- Allocate the trapframe page and the page table of a slot. -/
def allocproc (trampoline : Nat) (s : Ptable) : KProg (Option Proc × Ptable) := do
  match findUnused s with
  | none => return (none, s)
  | some i =>
    let p := { s.proc i with pid := s.nextpid }
    let s := { s with nextpid := s.nextpid + 1, pos := Nat.succ_pos _ }
    match ← .lift .kalloc with
    | none => return (none, s.set i { p with trapframe := none })
    | some tf =>
      match ← procPagetable trampoline tf with
      | none =>
        let p ← freeproc { p with trapframe := some tf, pagetable := none }
        return (none, s.set i p)
      | some t => return (some i, s.set i { p with trapframe := some tf, pagetable := some t })

/-- The bytes that `safestrcpy(s, t, n)` writes to `s`; the string ends where the list ends or at a
null byte. Behind a null byte that it has copied it writes another one. -/
def safestrcpy : Nat → List (BitVec 8) → List (BitVec 8)
  | 0, _ => []
  | 1, _ => [0]
  | _ + 2, [] => [0, 0]
  | n + 2, c :: t => if c = 0 then [0, 0] else c :: safestrcpy (n + 1) t

/-- `np->ofile[i] = filedup(p->ofile[i])` for each open descriptor. -/
def dupFiles (p : Process) : List (Fin NOFILE) → Process → KProg Process
  | [], np => return np
  | i :: is, np =>
    match p.ofile i with
    | none => dupFiles p is np
    | some f => do
      .lift (.filedup f)
      dupFiles p is { np with ofile := Function.update np.ofile i (some f) }

abbrev tfA0 : Nat := 112
abbrev tfSize : Nat := 288

/-- Create a new process, copying process `cur`. -/
def fork (trampoline : Nat) (s : Ptable) (cur : Proc) : KProg (Int × Ptable) := do
  let (np, s) ← allocproc trampoline s
  match np with
  | none => return (-1, s)
  | some i =>
    let p := s.proc cur
    let old ← deref p.pagetable
    let new ← deref (s.proc i).pagetable
    let (ok, t) ← uvmcopy old new p.sz
    let np := { s.proc i with pagetable := some t }
    if !ok then
      let np ← freeproc np
      return (-1, s.set i np)
    else
      let tf ← deref p.trapframe
      let ntf ← deref np.trapframe
      let d ← .lift (.page tf)
      let d' ← .lift (.page ntf)
      .lift (.setPage ntf ((d'.copy 0 d 0 tfSize).setUint 8 tfA0 0))
      let np ← dupFiles p (List.finRange NOFILE) { np with sz := p.sz, parent := some cur }
      .lift (.idup p.cwd)
      let np := { np with
        cwd := p.cwd, name := np.name.blit 0 (safestrcpy 16 (List.ofFn p.name)), state := .RUNNABLE }
      return (np.pid, s.set i np)

end Xv6.Vm
