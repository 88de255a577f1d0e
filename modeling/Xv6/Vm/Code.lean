import Xv6.Lib.Prog
import Xv6.Fs.Copy

/-!
# Address spaces

`vm.c` and the page allocator of `kalloc.c`. A page is named by its number. A page table is kept as the
tree that it is: which page the root is, which page each entry of a level-2 table points to (`dir1`) and
each entry of a level-1 table (`dir0`), and the leaf entries. Entries are numbered through, so that entry
`k` of the table behind entry `i` has number `512 * i + k`. What is in a page of another kind is its
`data`.
-/

namespace Xv6.Vm

open Function

/-- One beyond the highest possible virtual address. -/
abbrev MAXVA : Nat := 2 ^ 38
abbrev KERNBASE : Nat := 0x80000000
abbrev PHYSTOP : Nat := KERNBASE + 128 * 1024 * 1024
/-- The trampoline code is at the highest user virtual address. -/
abbrev TRAMPOLINE : Nat := MAXVA - PGSIZE
abbrev TRAPFRAME : Nat := TRAMPOLINE - PGSIZE

def PGROUNDUP (a : Nat) : Nat := (a + PGSIZE - 1) / PGSIZE * PGSIZE
def PGROUNDDOWN (a : Nat) : Nat := a / PGSIZE * PGSIZE

abbrev PTE_V : BitVec 10 := 1
abbrev PTE_R : BitVec 10 := 2
abbrev PTE_W : BitVec 10 := 4
abbrev PTE_X : BitVec 10 := 8
abbrev PTE_U : BitVec 10 := 16

/-- A page table entry: the page it points to, and its flags. -/
structure Pte where
  ppn : Nat
  flags : BitVec 10
  deriving DecidableEq

def Pte.zero : Pte := ⟨0, 0⟩

def Pte.has (e : Pte) (f : BitVec 10) : Bool := e.flags &&& f ≠ 0

structure PageTable where
  root : Nat
  dir1 : Nat → Option Nat
  dir0 : Nat → Option Nat
  leaf : Nat → Pte

namespace PageTable

def empty (root : Nat) : PageTable := ⟨root, fun _ => none, fun _ => none, fun _ => .zero⟩

/-- Entry `i` of the level-2 table is set to the cleared page `p`. -/
def addDir1 (t : PageTable) (i p : Nat) : PageTable :=
  { t with
    dir1 := update t.dir1 i (some p)
    dir0 := fun j => if j / 512 = i then none else t.dir0 j }

/-- Entry `j` of the level-1 tables is set to the cleared page `p`. -/
def addDir0 (t : PageTable) (j p : Nat) : PageTable :=
  { t with
    dir0 := update t.dir0 j (some p)
    leaf := fun v => if v / 512 = j then .zero else t.leaf v }

def setLeaf (t : PageTable) (v : Nat) (e : Pte) : PageTable :=
  { t with leaf := update t.leaf v e }

end PageTable

/-- The 9 bits of a virtual address that index level `level`. -/
def PX (level va : Nat) : Nat := va / 2 ^ (12 + 9 * level) % 512

/-! ## What the code asks of the machine -/

/-- Operations of the kernel that change more than local variables. The file system is there for
`exec`: one inode, found by `namei`. -/
inductive KOp : Type → Type
  | kalloc : KOp (Option Nat)
  | kfree (p : Nat) : KOp Unit
  /-- The contents of a page. -/
  | page (p : Nat) : KOp (Bytes PGSIZE)
  | setPage (p : Nat) (d : Bytes PGSIZE) : KOp Unit
  | panic (msg : String) : KOp Empty
  | beginOp : KOp Unit
  | endOp : KOp Unit
  /-- Whether there is such a file. -/
  | namei (path : List (BitVec 8)) : KOp Bool
  | ilock : KOp Unit
  /-- The bytes that `readi` delivers. -/
  | readi (off n : BitVec 32) : KOp (List (BitVec 8))
  | iunlockput : KOp Unit
  | filedup (f : Nat) : KOp Unit
  | idup (i : Nat) : KOp Unit

abbrev KProg := Prog KOp

def panic {α : Type} (msg : String) : KProg α := .op (.panic msg) Empty.elim

structure KWorld where
  free : List Nat
  data : Nat → Bytes PGSIZE
  /-- The calls of `kalloc` that find the list empty because somebody else has taken the pages. -/
  oom : Nat → Bool
  /-- Number of calls of `kalloc` so far. -/
  tick : Nat
  /-- The first page behind the kernel. -/
  first : Nat
  files : List (BitVec 8) → Option (List (BitVec 8))
  file : List (BitVec 8)
  /-- Number of open file system operations. -/
  ops : Nat
  /-- Number of references to the inode. -/
  refs : Nat
  locked : Bool
  /-- The reference counts of open files. -/
  fileRef : Nat → Nat
  /-- The reference counts of inodes that are current directories. -/
  inodeRef : Nat → Nat
  msg : Option String

def fillPage (c : BitVec 8) : Bytes PGSIZE := fun _ => c

/-- The part of a file that `readi` reads. -/
def readBytes (file : List (BitVec 8)) (off n : BitVec 32) : List (BitVec 8) :=
  if file.length < off.toNat ∨ 2 ^ 32 ≤ off.toNat + n.toNat then []
  else (file.drop off.toNat).take n.toNat

/-- One operation. `kalloc` and `kfree` fill the page with junk. -/
def KOp.exec : ∀ γ, KOp γ → KWorld → Option γ × KWorld
  | _, .kalloc, w =>
    if w.oom w.tick then (some none, { w with tick := w.tick + 1 })
    else match w.free with
      | [] => (some none, { w with tick := w.tick + 1 })
      | p :: ps => (some (some p), { w with
          free := ps, data := update w.data p (fillPage 5), tick := w.tick + 1 })
  | _, .kfree p, w =>
    if p < w.first ∨ PHYSTOP / PGSIZE ≤ p then (none, { w with msg := some "kfree" })
    else (some (), { w with free := p :: w.free, data := update w.data p (fillPage 1) })
  | _, .page p, w => (some (w.data p), w)
  | _, .setPage p d, w => (some (), { w with data := update w.data p d })
  | _, .panic msg, w => (none, { w with msg := some msg })
  | _, .beginOp, w => (some (), { w with ops := w.ops + 1 })
  | _, .endOp, w => (some (), { w with ops := w.ops - 1 })
  | _, .namei path, w =>
    match w.files path with
    | none => (some false, w)
    | some file => (some true, { w with file := file, refs := w.refs + 1 })
  | _, .ilock, w => (some (), { w with locked := true })
  | _, .readi off n, w => (some (readBytes w.file off n), w)
  | _, .iunlockput, w => (some (), { w with locked := false, refs := w.refs - 1 })
  | _, .filedup f, w =>
    (some (), { w with fileRef := update w.fileRef f (w.fileRef f + 1) })
  | _, .idup i, w =>
    (some (), { w with inodeRef := update w.inodeRef i (w.inodeRef i + 1) })

/-! ## `vm.c` -/

/-- A cleared page for a page table, if `alloc` and there is one. -/
def newTable (alloc : Bool) : KProg (Option Nat) :=
  if alloc then do
    match ← .lift .kalloc with
    | none => return none
    | some p =>
      .lift (.setPage p (fillPage 0))
      return some p
  else return none

/-- The level-1 table behind entry `i`, made if it is not there. -/
def table1 (t : PageTable) (i : Nat) (alloc : Bool) : KProg (Option PageTable) :=
  match t.dir1 i with
  | some _ => return some t
  | none => do
    let p ← newTable alloc
    return p.map (t.addDir1 i)

/-- The level-0 table behind entry `j`, made if it is not there. -/
def table0 (t : PageTable) (j : Nat) (alloc : Bool) : KProg (Option PageTable) :=
  match t.dir0 j with
  | some _ => return some t
  | none => do
    let p ← newTable alloc
    return p.map (t.addDir0 j)

/-- The number of the leaf entry for virtual address `va`, with the page table. If `alloc`, create
any required page-table pages. -/
def walk (t : PageTable) (va : Nat) (alloc : Bool) : KProg (Option Nat × PageTable) :=
  if MAXVA ≤ va then panic "walk"
  else do
    let i := PX 2 va
    match ← table1 t i alloc with
    | none => return (none, t)
    | some t =>
      let j := 512 * i + PX 1 va
      match ← table0 t j alloc with
      | none => return (none, t)
      | some t => return (some (512 * j + PX 0 va), t)

/-- Look up a virtual address, return the physical page, or none if not mapped. Can only be used to
look up user pages. -/
def walkaddr (t : PageTable) (va : Nat) : KProg (Option Nat) :=
  if MAXVA ≤ va then return none
  else do
    let (v, _) ← walk t va false
    match v with
    | none => return none
    | some v =>
      if (t.leaf v).has PTE_V = false then return none
      else if (t.leaf v).has PTE_U = false then return none
      else return some (t.leaf v).ppn

/-- The loop of `mappages`, with `n` more pages to map from `a` on. -/
def mappagesLoop (perm : BitVec 10) : Nat → PageTable → Nat → Nat → KProg (Bool × PageTable)
  | 0, t, _, _ => return (true, t)
  | n + 1, t, a, ppn => do
    let (v, t) ← walk t a true
    match v with
    | none => return (false, t)
    | some v =>
      if (t.leaf v).has PTE_V then panic "remap"
      else mappagesLoop perm n (t.setLeaf v ⟨ppn, perm ||| PTE_V⟩) (a + PGSIZE) (ppn + 1)

/-- Create entries for virtual addresses starting at `va` that refer to pages starting at `ppn`. -/
def mappages (t : PageTable) (va size ppn : Nat) (perm : BitVec 10) : KProg (Bool × PageTable) :=
  let a := PGROUNDDOWN va
  let last := PGROUNDDOWN (va + size - 1)
  mappagesLoop perm ((last - a) / PGSIZE + 1) t a ppn

/-- The loop of `uvmunmap`, with `n` more pages to unmap from `a` on. -/
def uvmunmapLoop (doFree : Bool) : Nat → PageTable → Nat → KProg PageTable
  | 0, t, _ => return t
  | n + 1, t, a => do
    let (v, t) ← walk t a false
    match v with
    | none => panic "uvmunmap: walk"
    | some v =>
      if (t.leaf v).has PTE_V = false then panic "uvmunmap: not mapped"
      else if (t.leaf v).flags = PTE_V then panic "uvmunmap: not a leaf"
      else do
        if doFree then .lift (.kfree (t.leaf v).ppn) else Prog.pure ()
        uvmunmapLoop doFree n (t.setLeaf v .zero) (a + PGSIZE)

/-- Remove `npages` of mappings starting from `va`. Optionally free the physical memory. -/
def uvmunmap (t : PageTable) (va npages : Nat) (doFree : Bool) : KProg PageTable :=
  if va % PGSIZE ≠ 0 then panic "uvmunmap: not aligned" else uvmunmapLoop doFree npages t va

/-- Create an empty user page table. -/
def uvmcreate : KProg (Option PageTable) := do
  match ← .lift .kalloc with
  | none => return none
  | some p =>
    .lift (.setPage p (fillPage 0))
    return some (.empty p)

/-- Deallocate user pages to bring the process size from `oldsz` to `newsz`. -/
def uvmdealloc (t : PageTable) (oldsz newsz : Nat) : KProg (Nat × PageTable) :=
  if oldsz ≤ newsz then return (oldsz, t)
  else if PGROUNDUP newsz < PGROUNDUP oldsz then do
    let t ← uvmunmap t (PGROUNDUP newsz) ((PGROUNDUP oldsz - PGROUNDUP newsz) / PGSIZE) true
    return (newsz, t)
  else return (newsz, t)

/-- The loop of `uvmalloc`, with `n` more pages to allocate from `a` on; `oldsz` is rounded up. -/
def uvmallocLoop (oldsz : Nat) : Nat → PageTable → Nat → KProg (Bool × PageTable)
  | 0, t, _ => return (true, t)
  | n + 1, t, a => do
    match ← .lift .kalloc with
    | none =>
      let (_, t) ← uvmdealloc t a oldsz
      return (false, t)
    | some mem =>
      .lift (.setPage mem (fillPage 0))
      let (ok, t) ← mappages t a PGSIZE mem (PTE_W ||| PTE_X ||| PTE_R ||| PTE_U)
      if ok then uvmallocLoop oldsz n t (a + PGSIZE)
      else
        .lift (.kfree mem)
        let (_, t) ← uvmdealloc t a oldsz
        return (false, t)

/-- Allocate entries and physical memory to grow a process from `oldsz` to `newsz`. The answer is the
new size, or 0 on error. -/
def uvmalloc (t : PageTable) (oldsz newsz : Nat) : KProg (Nat × PageTable) :=
  if newsz < oldsz then return (oldsz, t)
  else do
    let n := (newsz - PGROUNDUP oldsz + PGSIZE - 1) / PGSIZE
    let (ok, t) ← uvmallocLoop (PGROUNDUP oldsz) n t (PGROUNDUP oldsz)
    return (if ok then newsz else 0, t)

@[irreducible] def entries : List Nat := List.range 512

/-- `freewalk` of a level-0 table, entry `j` of the level-1 tables. -/
def freewalk0 (t : PageTable) (j p : Nat) : KProg Unit := do
  Prog.forEach (fun k => if (t.leaf (512 * j + k)).has PTE_V then panic "freewalk: leaf"
    else Prog.pure ()) entries
  .lift (.kfree p)

/-- `freewalk` of a level-1 table, entry `i` of the level-2 table. -/
def freewalk1 (t : PageTable) (i p : Nat) : KProg Unit := do
  Prog.forEach (fun k => match t.dir0 (512 * i + k) with
    | some q => freewalk0 t (512 * i + k) q
    | none => Prog.pure ()) entries
  .lift (.kfree p)

/-- Recursively free page-table pages. All leaf mappings must already have been removed. -/
def freewalk (t : PageTable) : KProg Unit := do
  Prog.forEach (fun i => match t.dir1 i with
    | some p => freewalk1 t i p
    | none => Prog.pure ()) entries
  .lift (.kfree t.root)

/-- Free user memory pages, then free page-table pages. -/
def uvmfree (t : PageTable) (sz : Nat) : KProg Unit := do
  let t ← if 0 < sz then uvmunmap t 0 (PGROUNDUP sz / PGSIZE) true else Prog.pure t
  freewalk t

/-- The loop of `uvmcopy`, with `n` more pages to copy from `i` on. -/
def uvmcopyLoop (old : PageTable) : Nat → PageTable → Nat → KProg (Bool × PageTable)
  | 0, new, _ => return (true, new)
  | n + 1, new, i => do
    let (v, _) ← walk old i false
    match v with
    | none => panic "uvmcopy: pte should exist"
    | some v =>
      if (old.leaf v).has PTE_V = false then panic "uvmcopy: page not present"
      else do
        match ← .lift .kalloc with
        | none =>
          let new ← uvmunmap new 0 (i / PGSIZE) true
          return (false, new)
        | some mem =>
          let d ← .lift (.page (old.leaf v).ppn)
          .lift (.setPage mem d)
          let (ok, new) ← mappages new i PGSIZE mem (old.leaf v).flags
          if ok then uvmcopyLoop old n new (i + PGSIZE)
          else
            .lift (.kfree mem)
            let new ← uvmunmap new 0 (i / PGSIZE) true
            return (false, new)

/-- Given a parent process's page table, copy its memory into a child's page table. -/
def uvmcopy (old new : PageTable) (sz : Nat) : KProg (Bool × PageTable) :=
  uvmcopyLoop old ((sz + PGSIZE - 1) / PGSIZE) new 0

/-- Mark a page invalid for user access. -/
def uvmclear (t : PageTable) (va : Nat) : KProg PageTable := do
  let (v, t) ← walk t va false
  match v with
  | none => panic "uvmclear"
  | some v => return t.setLeaf v { t.leaf v with flags := (t.leaf v).flags &&& ~~~PTE_U }

/-- Copy from kernel to user: `src` to virtual address `dstva`; `fuel` bounds the number of pages. -/
def copyout (t : PageTable) : Nat → Nat → List (BitVec 8) → KProg Bool
  | 0, _, src => return src.isEmpty
  | fuel + 1, dstva, src =>
    if src.isEmpty then return true
    else do
      match ← walkaddr t (PGROUNDDOWN dstva) with
      | none => return false
      | some pa =>
        let n := min (PGSIZE - dstva % PGSIZE) src.length
        let d ← .lift (.page pa)
        .lift (.setPage pa (d.blit (dstva % PGSIZE) (src.take n)))
        copyout t fuel (PGROUNDDOWN dstva + PGSIZE) (src.drop n)

end Xv6.Vm
