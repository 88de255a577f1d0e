import Mathlib.Tactic

/-!
# Page tables in memory

The part of `vm.c` that reads and writes page table entries, on the words of physical memory. A pointer
to an entry is its address. `Xv6.Vm.Code` has the same functions on the tree that the words stand for.
-/

namespace Xv6.Sv39

/-- One beyond the highest possible virtual address. -/
abbrev MAXVA : BitVec 64 := 1 <<< (9 + 9 + 9 + 12 - 1)
abbrev PGSIZE : BitVec 64 := 4096
abbrev PHYSTOP : BitVec 64 := 0x80000000 + 128 * 1024 * 1024

abbrev PTE_V : BitVec 64 := 1
abbrev PTE_U : BitVec 64 := 1 <<< 4

def PGROUNDDOWN (a : BitVec 64) : BitVec 64 := a &&& ~~~(PGSIZE - 1)

/-- Shift a physical address to the right place for a PTE. -/
def PA2PTE (pa : BitVec 64) : BitVec 64 := (pa >>> 12) <<< 10

def PTE2PA (pte : BitVec 64) : BitVec 64 := (pte >>> 10) <<< 12

def PTE_FLAGS (pte : BitVec 64) : BitVec 64 := pte &&& 0x3FF

/-- The index for a level from a virtual address. -/
def PX (level : Nat) (va : BitVec 64) : BitVec 64 := (va >>> (12 + 9 * level)) &&& 0x1FF

/-- Physical memory as words of 64 bits, and the pages on the list of the allocator. -/
structure PhysMem where
  word : BitVec 64 → BitVec 64
  freelist : List (BitVec 64)
  /-- The first address after the kernel, `end`. -/
  kernelEnd : BitVec 64

def store (m : PhysMem) (p v : BitVec 64) : PhysMem := { m with word := Function.update m.word p v }

/-- `memset(p, c, PGSIZE)`, with the word that has `c` in every byte. -/
def memset (m : PhysMem) (p c : BitVec 64) : PhysMem :=
  { m with word := fun a => if a - p < PGSIZE then c else m.word a }

/-- Allocate one page, filled with junk. -/
def kalloc (m : PhysMem) : Option (BitVec 64) × PhysMem :=
  match m.freelist with
  | [] => (none, m)
  | r :: rs => (some r, memset { m with freelist := rs } r 0x0505050505050505)

def kfree (m : PhysMem) (pa : BitVec 64) : Except String PhysMem :=
  if pa % PGSIZE ≠ 0 ∨ pa < m.kernelEnd ∨ PHYSTOP ≤ pa then .error "kfree"
  else
    let m := memset m pa 0x0101010101010101
    .ok { m with freelist := pa :: m.freelist }

def slot (pagetable i : BitVec 64) : BitVec 64 := pagetable + 8 * i

def walkLoop (va : BitVec 64) (alloc : Bool) :
    Nat → PhysMem → BitVec 64 → Option (BitVec 64) × PhysMem
  | 0, m, pagetable => (some (slot pagetable (PX 0 va)), m)
  | level + 1, m, pagetable =>
    let pte := slot pagetable (PX (level + 1) va)
    if m.word pte &&& PTE_V ≠ 0 then walkLoop va alloc level m (PTE2PA (m.word pte))
    else if alloc = false then (none, m)
    else match kalloc m with
      | (none, m) => (none, m)
      | (some p, m) =>
        walkLoop va alloc level (store (memset m p 0) pte (PA2PTE p ||| PTE_V)) p

/-- Return the address of the PTE in page table `pagetable` that corresponds to virtual address `va`. -/
def walk (m : PhysMem) (pagetable va : BitVec 64) (alloc : Bool) :
    Except String (Option (BitVec 64) × PhysMem) :=
  if MAXVA ≤ va then .error "walk" else .ok (walkLoop va alloc 2 m pagetable)

/-- Look up a virtual address, return the physical address, or 0 if not mapped. -/
def walkaddr (m : PhysMem) (pagetable va : BitVec 64) : Except String (BitVec 64) :=
  if MAXVA ≤ va then .ok 0
  else do
    let (pte, m) ← walk m pagetable va false
    match pte with
    | none => .ok 0
    | some pte =>
      if m.word pte &&& PTE_V = 0 then .ok 0
      else if m.word pte &&& PTE_U = 0 then .ok 0
      else .ok (PTE2PA (m.word pte))

/-- The loop of `mappages`, where `n` pages from `a` on are below `MAXVA`. -/
def mappagesLoop (pagetable last : BitVec 64) (perm : BitVec 10) :
    Nat → PhysMem → BitVec 64 → BitVec 64 → Except String (Bool × PhysMem)
  -- `walk` at `MAXVA`
  | 0, _, _, _ => .error "walk"
  | n + 1, m, a, pa => do
    let (pte, m) ← walk m pagetable a true
    match pte with
    | none => .ok (false, m)
    | some pte =>
      if m.word pte &&& PTE_V ≠ 0 then .error "remap"
      else
        let m := store m pte (PA2PTE pa ||| perm.setWidth 64 ||| PTE_V)
        if a = last then .ok (true, m)
        else mappagesLoop pagetable last perm n m (a + PGSIZE) (pa + PGSIZE)

/-- Create PTEs for virtual addresses starting at `va` that refer to physical addresses starting at
`pa`. The answer is whether it succeeded. -/
def mappages (m : PhysMem) (pagetable va size pa : BitVec 64) (perm : BitVec 10) :
    Except String (Bool × PhysMem) :=
  let a := PGROUNDDOWN va
  let last := PGROUNDDOWN (va + size - 1)
  mappagesLoop pagetable last perm ((2 ^ 38 - a.toNat) / 4096) m a pa

/-- The loop of `uvmunmap`, where `n` pages from `a` on are below `MAXVA`. -/
def uvmunmapLoop (pagetable bound : BitVec 64) (doFree : Bool) :
    Nat → PhysMem → BitVec 64 → Except String PhysMem
  | 0, m, a => if a < bound then .error "walk" else .ok m
  | n + 1, m, a =>
    if a < bound then do
      let (pte, m) ← walk m pagetable a false
      match pte with
      | none => .error "uvmunmap: walk"
      | some pte =>
        if m.word pte &&& PTE_V = 0 then .error "uvmunmap: not mapped"
        else if PTE_FLAGS (m.word pte) = PTE_V then .error "uvmunmap: not a leaf"
        else do
          let m' ← if doFree then kfree m (PTE2PA (m.word pte)) else .ok m
          uvmunmapLoop pagetable bound doFree n (store m' pte 0) (a + PGSIZE)
    else .ok m

/-- Remove `npages` of mappings starting from `va`. -/
def uvmunmap (m : PhysMem) (pagetable va npages : BitVec 64) (doFree : Bool) :
    Except String PhysMem :=
  if va % PGSIZE ≠ 0 then .error "uvmunmap: not aligned"
  else uvmunmapLoop pagetable (va + npages * PGSIZE) doFree ((2 ^ 38 - va.toNat) / 4096) m va

def uvmclear (m : PhysMem) (pagetable va : BitVec 64) : Except String PhysMem := do
  let (pte, m) ← walk m pagetable va false
  match pte with
  | none => .error "uvmclear"
  | some pte => .ok (store m pte (m.word pte &&& ~~~PTE_U))

end Xv6.Sv39
