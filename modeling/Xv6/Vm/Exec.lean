import Xv6.Vm.Process

/-!
# `exec`

`exec.c` and `sys_exec`. `goto bad` is a return from the part of the call that is in progress, with the
page table and the size that the cleanup is for. `off` is an `int` in `exec` and a `uint` for `loadseg`
and `readi`, so that both are 32 bits here; addresses and the fields of the file are 64 bits.
-/

namespace Xv6.Vm

open BitVec (ofNat)

abbrev MAXARG : Nat := 32
abbrev MAXPATH : Nat := 128
abbrev ELF_MAGIC : Nat := 0x464C457F
abbrev ELF_PROG_LOAD : Nat := 1
abbrev elfSize : Nat := 64
abbrev phSize : Nat := 56

/-- The `k`-byte field at `off` of a struct that has been read. -/
def field (l : List (BitVec 8)) : Nat → Nat → Nat
  | 0, _ => 0
  | k + 1, off => (l.getD off 0).toNat + 256 * field l k (off + 1)

/-- The fields of `struct elfhdr` that `exec` uses. -/
structure Elfhdr where
  magic : Nat
  entry : Nat
  phoff : Nat
  phnum : Nat

def Elfhdr.ofBytes (l : List (BitVec 8)) : Elfhdr where
  magic := field l 4 0
  entry := field l 8 24
  phoff := field l 8 32
  phnum := field l 2 56

/-- The fields of `struct proghdr` that `exec` uses. -/
structure Proghdr where
  type : Nat
  off : Nat
  vaddr : Nat
  filesz : Nat
  memsz : Nat

def Proghdr.ofBytes (l : List (BitVec 8)) : Proghdr where
  type := field l 4 0
  off := field l 8 8
  vaddr := field l 8 16
  filesz := field l 8 32
  memsz := field l 8 40

def sub64 (a b : Nat) : Nat := (a + 2 ^ 64 - b) % 2 ^ 64

/-- The loop of `loadseg`, with `n` pages to go. `i` is a `uint` that does not wrap: the pages are mapped. -/
def loadsegLoop (t : PageTable) (va : Nat) (offset : BitVec 32) (sz : Nat) : Nat → Nat → KProg Bool
  | 0, _ => return true
  | n + 1, i => do
    match ← walkaddr t (va + i) with
    | none => panic "loadseg: address should exist"
    | some pa =>
      let k := if sz - i < PGSIZE then sz - i else PGSIZE
      let l ← .lift (.readi (offset + ofNat 32 i) (ofNat 32 k))
      let d ← .lift (.page pa)
      .lift (.setPage pa (d.blit 0 l))
      if l.length ≠ k then return false else loadsegLoop t va offset sz n (i + PGSIZE)

/-- Load a program segment into the page table at virtual address `va`. -/
def loadseg (t : PageTable) (va : Nat) (offset : BitVec 32) (sz : Nat) : KProg Bool :=
  if va % PGSIZE ≠ 0 then panic "loadseg: va must be page aligned"
  else loadsegLoop t va offset sz ((sz + PGSIZE - 1) / PGSIZE) 0

/-- Load program into memory: the loop over the `n` program headers that are left. -/
def loadProgram : Nat → BitVec 32 → PageTable → Nat → KProg (Bool × PageTable × Nat)
  | 0, _, t, sz => return (true, t, sz)
  | n + 1, off, t, sz => do
    let l ← .lift (.readi off (ofNat 32 phSize))
    let ph := Proghdr.ofBytes l
    if l.length ≠ phSize then return (false, t, sz)
    else if ph.type ≠ ELF_PROG_LOAD then loadProgram n (off + ofNat 32 phSize) t sz
    else if ph.memsz < ph.filesz then return (false, t, sz)
    else if (ph.vaddr + ph.memsz) % 2 ^ 64 < ph.vaddr then return (false, t, sz)
    else do
      let (sz1, t) ← uvmalloc t sz ((ph.vaddr + ph.memsz) % 2 ^ 64)
      if sz1 = 0 then return (false, t, sz)
      else if ph.vaddr % PGSIZE ≠ 0 then return (false, t, sz1)
      else do
        let ok ← loadseg t ph.vaddr (ofNat 32 ph.off) (ph.filesz % 2 ^ 32)
        if ok then loadProgram n (off + ofNat 32 phSize) t sz1
        else return (false, t, sz1)

def bad (pagetable : Option (PageTable × Nat)) (ip : Bool) : KProg Unit := do
  match pagetable with
  | none => Prog.pure ()
  | some (t, sz) => procFreepagetable t sz
  if ip then
    .lift .iunlockput
    .lift .endOp
  else Prog.pure ()

/-- Allocate two pages at the next page boundary, and use the second as the user stack. -/
def allocStack (t : PageTable) (sz : Nat) : KProg (Option PageTable × PageTable × Nat) := do
  let sz := PGROUNDUP sz
  let (sz1, t) ← uvmalloc t sz (sz + 2 * PGSIZE)
  if sz1 = 0 then return (none, t, sz)
  else do
    let t ← uvmclear t (sz1 - 2 * PGSIZE)
    return (some t, t, sz1)

/-- Everything up to the stack: the new page table, its size and the entry point. -/
def loadImage (trampoline tf : Nat) (path : List (BitVec 8)) : KProg (Option (PageTable × Nat × Nat)) := do
  .lift .beginOp
  let found ← .lift (.namei path)
  if !found then
    .lift .endOp
    return none
  else do
    .lift .ilock
    let l ← .lift (.readi 0 (ofNat 32 elfSize))
    let elf := Elfhdr.ofBytes l
    if l.length ≠ elfSize ∨ elf.magic ≠ ELF_MAGIC then
      bad none true
      return none
    else do
      match ← procPagetable trampoline tf with
      | none =>
        bad none true
        return none
      | some t =>
        let (ok, t, sz) ← loadProgram elf.phnum (ofNat 32 elf.phoff) t 0
        if !ok then
          bad (some (t, sz)) true
          return none
        else do
          .lift .iunlockput
          .lift .endOp
          let (r, t, sz) ← allocStack t sz
          match r with
          | none =>
            bad (some (t, sz)) false
            return none
          | some t => return some (t, sz, elf.entry)

/-- Push argument strings; the addresses of those that have been pushed are in `ustack`. -/
def pushArgs (t : PageTable) (stackbase : Nat) :
    List (List (BitVec 8)) → Nat → List Nat → KProg (Option (Nat × List Nat))
  | [], sp, ustack => return some (sp, ustack)
  | a :: argv, sp, ustack =>
    if MAXARG ≤ ustack.length then return none
    else do
      let sp := sub64 sp (a.length + 1)
      let sp := sp - sp % 16
      if sp < stackbase then return none
      else do
        let ok ← copyout t (a.length + 1) sp (a ++ [0])
        if !ok then return none else pushArgs t stackbase argv sp (ustack ++ [sp])

def bytes64 (v : Nat) : List (BitVec 8) := (List.range 8).map fun k => ofNat 8 (v / 256 ^ k)

/-- Push the strings and the array of `argv[]` pointers. -/
def pushStack (t : PageTable) (sz : Nat) (argv : List (List (BitVec 8))) : KProg (Option Nat) := do
  let stackbase := sz - PGSIZE
  match ← pushArgs t stackbase argv sz [] with
  | none => return none
  | some (sp, ustack) =>
    let sp := sub64 sp ((ustack.length + 1) * 8)
    let sp := sp - sp % 16
    if sp < stackbase then return none
    else do
      let l := (ustack ++ [0]).flatMap bytes64
      let ok ← copyout t l.length sp l
      if !ok then return none else return some sp

/-- The part of the path behind the last `/`. -/
def lastName (path : List (BitVec 8)) : List (BitVec 8) :=
  (path.reverse.takeWhile (· ≠ 0x2f)).reverse

/-- Where the saved registers are in the trapframe. -/
abbrev tfEpc : Nat := 24
abbrev tfSp : Nat := 48
abbrev tfA1 : Nat := 120

/-- The rest of `exec`, with the new image loaded: push the arguments and commit to the image. -/
def commitImage (p : Process) (tf : Nat) (path : List (BitVec 8)) (argv : List (List (BitVec 8)))
    (t : PageTable) (sz entry : Nat) : KProg (Int × Process) := do
  match ← pushStack t sz argv with
  | none =>
    bad (some (t, sz)) false
    return (-1, p)
  | some sp =>
    let old ← deref p.pagetable
    let d ← .lift (.page tf)
    .lift (.setPage tf (((d.setUint 8 tfA1 sp).setUint 8 tfEpc entry).setUint 8 tfSp sp))
    procFreepagetable old p.sz
    return (argv.length, { p with
      name := p.name.blit 0 (safestrcpy 16 (lastName path)), pagetable := some t, sz := sz })

/-- Replace the image of a process by that of a file. -/
def exec (trampoline : Nat) (p : Process) (path : List (BitVec 8)) (argv : List (List (BitVec 8))) :
    KProg (Int × Process) := do
  let tf ← deref p.trapframe
  match ← loadImage trampoline tf path with
  | none => return (-1, p)
  | some (t, sz, entry) => commitImage p tf path argv t sz entry

/-! ## `sys_exec` -/

def copyin (t : PageTable) : Nat → Nat → Nat → KProg (Option (List (BitVec 8)))
  | 0, _, len => return if len = 0 then some [] else none
  | fuel + 1, srcva, len =>
    if len = 0 then return some []
    else do
      match ← walkaddr t (PGROUNDDOWN srcva) with
      | none => return none
      | some pa =>
        let n := min (PGSIZE - srcva % PGSIZE) len
        let d ← .lift (.page pa)
        let rest ← copyin t fuel (PGROUNDDOWN srcva + PGSIZE) (len - n)
        return rest.map (((List.range n).map fun i => d.byte (srcva % PGSIZE + i)) ++ ·)

/-- Copy a null-terminated string from user to kernel. What has been copied when it fails is not kept. -/
def copyinstr (t : PageTable) : Nat → Nat → Nat → KProg (Option (List (BitVec 8)))
  | 0, _, _ => return none
  | fuel + 1, srcva, max =>
    if max = 0 then return none
    else do
      match ← walkaddr t (PGROUNDDOWN srcva) with
      | none => return none
      | some pa =>
        let n := min (PGSIZE - srcva % PGSIZE) max
        let d ← .lift (.page pa)
        let l := (List.range n).map fun i => d.byte (srcva % PGSIZE + i)
        if (0 : BitVec 8) ∈ l then return some (l.takeWhile (· ≠ 0))
        else do
          let rest ← copyinstr t fuel (PGROUNDDOWN srcva + PGSIZE) (max - n)
          return rest.map (l ++ ·)

def fetchaddr (t : PageTable) (sz addr : Nat) : KProg (Option Nat) :=
  if sz ≤ addr ∨ sz < (addr + 8) % 2 ^ 64 then return none
  else do
    let r ← copyin t 8 addr 8
    return r.map fun l => field l 8 0

/-- The loop that fetches the arguments; `argv` holds the pages and the strings in them. -/
def fetchArgs (t : PageTable) (sz uargv : Nat) :
    Nat → Nat → List (Nat × List (BitVec 8)) → KProg (Bool × List (Nat × List (BitVec 8)))
  | 0, _, argv => return (false, argv)
  | n + 1, i, argv => do
    match ← fetchaddr t sz ((uargv + 8 * i) % 2 ^ 64) with
    | none => return (false, argv)
    | some uarg =>
      if uarg = 0 then return (true, argv)
      else do
        match ← .lift .kalloc with
        | none => return (false, argv)
        | some mem =>
          match ← copyinstr t PGSIZE uarg PGSIZE with
          | none => return (false, argv ++ [(mem, [])])
          | some s =>
            let d ← .lift (.page mem)
            .lift (.setPage mem (d.blit 0 (s ++ [0])))
            fetchArgs t sz uargv n (i + 1) (argv ++ [(mem, s)])

def sysExec (trampoline : Nat) (p : Process) : KProg (Int × Process) := do
  let t ← deref p.pagetable
  let tf ← deref p.trapframe
  let d ← .lift (.page tf)
  match ← copyinstr t MAXPATH (d.uint 8 tfA0) MAXPATH with
  | none => return (-1, p)
  | some path =>
    let (ok, argv) ← fetchArgs t p.sz (d.uint 8 tfA1) MAXARG 0 []
    let (ret, p) ← if ok then exec trampoline p path (argv.map Prod.snd) else Prog.pure (-1, p)
    Prog.forEach (fun a => .lift (.kfree a.1)) argv
    return (ret, p)

end Xv6.Vm
