import Xv6.Fs.Copy

/-!
# Process names

The writers of `p->name`: `userinit`, `fork` and `exec` through `safestrcpy`, `freeproc`, and
`sys_rename`, which fetches a user string into a buffer of its own first. Kernel memory is an array of
bytes; the table of processes lies in it as the C layout has it. User memory is given by its pages.
-/

namespace Xv6.Names

open Function

abbrev Mem := Nat → BitVec 8

abbrev MAXPATH : Nat := 128
abbrev procSize : Nat := 360
/-- The offset of `name` in `struct proc`, its last field. -/
abbrev nameOffset : Nat := 344
/-- `sizeof(p->name)`, and of the buffer in `sys_rename`. -/
abbrev nameSize : Nat := 16

/-- The address of `proc[i].name`, for a table at `table`. -/
def nameAddr (table i : Nat) : Nat := table + procSize * i + nameOffset

/-! ## `string.c` -/

/-- The loop of `safestrcpy`, with `n` more bytes to copy, and the assignment behind it. -/
def safestrcpyLoop : Nat → Mem → Nat → Nat → Mem
  | 0, mem, s, _ => update mem s 0
  | n + 1, mem, s, t =>
    let c := mem t
    let mem := update mem s c
    if c ≠ 0 then safestrcpyLoop n mem (s + 1) (t + 1) else update mem (s + 1) 0

/-- Like `strncpy` but guaranteed to NUL-terminate. -/
def safestrcpy (mem : Mem) (s t n : Nat) : Mem :=
  if n = 0 then mem else safestrcpyLoop (n - 1) mem s t

def memmove (mem : Mem) (dst src n : Nat) : Mem := fun a =>
  if dst ≤ a ∧ a < dst + n then mem (src + (a - dst)) else mem a

/-- `strlen`; the string ends within `fuel` bytes. -/
def strlen (mem : Mem) : Nat → Nat → Nat
  | 0, _ => 0
  | fuel + 1, s => if mem s = 0 then 0 else strlen mem fuel (s + 1) + 1

/-! ## Fetching a string -/

/-- The inner loop of `copyinstr`: `n` bytes of a page from `off` on. The answer is whether the NUL
was among them, with the memory. -/
def copyinstrPage (pg : Bytes PGSIZE) : Nat → Nat → Mem → Nat → Bool × Mem
  | 0, _, mem, _ => (false, mem)
  | n + 1, off, mem, dst =>
    if pg.byte off = 0 then (true, update mem dst 0)
    else copyinstrPage pg n (off + 1) (update mem dst (pg.byte off)) (dst + 1)

/-- Copy a null-terminated string from user to kernel: bytes to `dst` from `srcva`, until a NUL or
`max` bytes. The answer is whether it found the NUL; `fuel` bounds the number of pages. -/
def copyinstr (page : Nat → Option (Bytes PGSIZE)) : Nat → Mem → Nat → Nat → Nat → Bool × Mem
  | 0, mem, _, _, _ => (false, mem)
  | fuel + 1, mem, dst, srcva, max =>
    if max = 0 then (false, mem)
    else match page (srcva / PGSIZE) with
      | none => (false, mem)
      | some pg =>
        let n := min (PGSIZE - srcva % PGSIZE) max
        let (null, mem) := copyinstrPage pg n (srcva % PGSIZE) mem dst
        if null then (true, mem)
        else copyinstr page fuel mem (dst + n) (srcva / PGSIZE * PGSIZE + PGSIZE) (max - n)

/-- Fetch the nul-terminated string at `addr`. Returns length of string, not including nul, or -1 for
error. `argstr` is this with `addr` taken from a register. -/
def fetchstr (page : Nat → Option (Bytes PGSIZE)) (mem : Mem) (addr buf max : Nat) : Int × Mem :=
  let (ok, mem) := copyinstr page max mem buf addr max
  if ok then (strlen mem max buf, mem) else (-1, mem)

/-- `sys_rename` of process `i`. `buf` is the address of its local `name`. -/
def sysRename (table i : Nat) (page : Nat → Option (Bytes PGSIZE)) (addr buf : Nat) (mem : Mem) :
    Int × Mem :=
  let (len, mem) := fetchstr page mem addr buf MAXPATH
  if len < 0 then (-1, mem)
  else
    let mem := memmove mem (nameAddr table i) buf len.toNat
    (0, update mem (nameAddr table i + len.toNat) 0)

/-! ## The other writers -/

/-- The loop of `exec` for the last component of `path`, which ends within `fuel` bytes. -/
def lastName (mem : Mem) : Nat → Nat → Nat → Nat
  | 0, _, last => last
  | fuel + 1, s, last =>
    if mem s = 0 then last
    else lastName mem fuel (s + 1) (if mem s = BitVec.ofNat 8 '/'.toNat then s + 1 else last)

/-- A run of the writers of names. `initcode` is the address of that string, `np` a new process and
`path` the kernel's copy of a path. -/
inductive Step (table : Nat) (Safe : (Nat → Option (Bytes PGSIZE)) → Nat → Prop) : Mem → Mem → Prop
  | userinit (mem : Mem) (i : Nat) (hi : i < NPROC) (initcode : Nat) :
      Step table Safe mem (safestrcpy mem (nameAddr table i) initcode nameSize)
  | fork (mem : Mem) (p np : Nat) (hp : p < NPROC) (hnp : np < NPROC) :
      Step table Safe mem (safestrcpy mem (nameAddr table np) (nameAddr table p) nameSize)
  | exec (mem : Mem) (i : Nat) (hi : i < NPROC) (path : Nat) :
      Step table Safe mem
        (safestrcpy mem (nameAddr table i) (lastName mem MAXPATH path path) nameSize)
  | rename (mem : Mem) (i : Nat) (hi : i < NPROC) (page : Nat → Option (Bytes PGSIZE))
      (addr buf : Nat) (hsafe : Safe page addr)
      (hbuf : buf + nameSize ≤ table ∨ table + procSize * NPROC ≤ buf) :
      Step table Safe mem (sysRename table i page addr buf mem).2
  | freeproc (mem : Mem) (i : Nat) (hi : i < NPROC) :
      Step table Safe mem (update mem (nameAddr table i) 0)
  /-- The rest of the kernel does not write names. -/
  | other (mem mem' : Mem) (h : ∀ i < NPROC, ∀ k < nameSize,
      mem' (nameAddr table i + k) = mem (nameAddr table i + k)) : Step table Safe mem mem'

end Xv6.Names
