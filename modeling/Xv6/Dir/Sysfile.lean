import Xv6.Dir.Code

/-!
# The calls of `sysfile.c`

The system calls on paths and descriptors, and what `fork` and `exit` do with inodes and files. A
path argument is `none` where `argstr` fails. What the allocator answers, and whether user memory
can be read and written, is an argument of a call.
-/

namespace Xv6.Dir

/-! ## Files -/

/-- Allocate a file descriptor for the given file, from `fds` on. -/
def fdallocFrom (f : Fin NFILE) : List (Fin NOFILE) → IProg (Option (Fin NOFILE))
  | [] => return none
  | fd :: fds => do
    match ← .lift (.ofile fd) with
    | none =>
      .lift (.setOfile fd (some f))
      return some fd
    | some _ => fdallocFrom f fds

/-- Allocate a file descriptor for the given file. -/
def fdalloc (f : Fin NFILE) : IProg (Option (Fin NOFILE)) :=
  fdallocFrom f (List.finRange NOFILE)

/-- Fetch a file descriptor argument and return both the descriptor and the file. -/
def argfd (fd : Int) : IProg (Option (Fin NOFILE × Fin NFILE)) :=
  if h : 0 ≤ fd ∧ fd < NOFILE then do
    let fd : Fin NOFILE := ⟨fd.toNat, by omega⟩
    let f ← .lift (.ofile fd)
    return f.map fun f => (fd, f)
  else return none

/-- The end of `fileclose`, after it has released `ftable.lock`. -/
def fileRelease : Option FileKind → IProg Unit
  | some (.pipe pi writable) => .lift (.pipeclose pi writable)
  | some (.inode ip) | some (.device ip) => do
    .lift .beginOp
    iput ip
    .lift .endOp
  | some .none | none => return ()

/-- Close file f. (Decrement ref count, close when reaches 0.) -/
def fileclose (f : Fin NFILE) : IProg Unit := do
  let ff ← .lift (.fileUnref f)
  fileRelease ff

def sysDup (fd : Int) : IProg Int := do
  match ← argfd fd with
  | none => return -1
  | some (_, f) =>
    match ← fdalloc f with
    | none => return -1
    | some fd =>
      .lift (.filedup f)
      return fd.val

def sysClose (fd : Int) : IProg Int := do
  match ← argfd fd with
  | none => return -1
  | some (fd, f) =>
    .lift (.setOfile fd none)
    fileclose f
    return 0

/-- Get metadata about file f. `ok` is whether the result can be copied out. -/
def filestat (f : Fin NFILE) (ok : Bool) : IProg Int := do
  match ← .lift (.file f) with
  | .inode ip | .device ip =>
    ilock ip
    let _ ← .lift (.attr ip)
    .lift (.iunlock ip)
    return if ok then 0 else -1
  | .none | .pipe _ _ => return -1

def sysFstat (fd : Int) (ok : Bool) : IProg Int := do
  match ← argfd fd with
  | none => return -1
  | some (_, f) => filestat f ok

/-! ## Pipes -/

/-- Close a file that has been allocated. -/
def filecloseOpt : Option (Fin NFILE) → IProg Unit
  | some f => fileclose f
  | none => return ()

/-- The label `bad` of `pipealloc`; there is no page yet. -/
def pipeallocBad (f0 f1 : Option (Fin NFILE)) : IProg (Option (Fin NFILE × Fin NFILE)) := do
  filecloseOpt f0
  filecloseOpt f1
  return none

/-- Make a pipe, with a file for each end. `page` is what `kalloc` answers. -/
def pipealloc (page : Option Nat) : IProg (Option (Fin NFILE × Fin NFILE)) := do
  match ← .lift .filealloc with
  | none => pipeallocBad none none
  | some f0 =>
    match ← .lift .filealloc with
    | none => pipeallocBad (some f0) none
    | some f1 =>
      match page with
      | none => pipeallocBad (some f0) (some f1)
      | some pi =>
        .lift (.pipeNew pi)
        .lift (.setFile f0 (.pipe pi false))
        .lift (.setFile f1 (.pipe pi true))
        return some (f0, f1)

def pipeFail (rf wf : Fin NFILE) : IProg Int := do
  fileclose rf
  fileclose wf
  return -1

/-- `ok` is whether the descriptors can be copied out. -/
def sysPipe (page : Option Nat) (ok : Bool) : IProg Int := do
  match ← pipealloc page with
  | none => return -1
  | some (rf, wf) =>
    match ← fdalloc rf with
    | none => pipeFail rf wf
    | some fd0 =>
      match ← fdalloc wf with
      | none =>
        .lift (.setOfile fd0 none)
        pipeFail rf wf
      | some fd1 =>
        if ok then return 0
        else
          .lift (.setOfile fd0 none)
          .lift (.setOfile fd1 none)
          pipeFail rf wf

/-! ## Links -/

/-- The label `bad` of `sys_link`: take the link count back. -/
def linkBad (ip : Fin NINODE) : IProg Int := do
  ilock ip
  let a ← .lift (.attr ip)
  .lift (.update ip { a with nlink := a.nlink - 1 })
  iunlockput ip
  .lift .endOp
  return -1

/-- Create the path new as a link to the same inode as old. -/
def sysLink (old new : Option CString) : IProg Int :=
  match old, new with
  | some old, some new => do
    .lift .beginOp
    match ← namei old with
    | none =>
      .lift .endOp
      return -1
    | some ip =>
      ilock ip
      let a ← .lift (.attr ip)
      if a.type = T_DIR then
        iunlockput ip
        .lift .endOp
        return -1
      else
        .lift (.update ip { a with nlink := a.nlink + 1 })
        .lift (.iunlock ip)
        match ← nameiparent new with
        | none => linkBad ip
        | some (dp, name) =>
          ilock dp
          let inum ← .lift (.inum ip)
          if ← dirlink dp name inum then
            iunlockput dp
            iput ip
            .lift .endOp
            return 0
          else
            iunlockput dp
            linkBad ip
  | _, _ => return -1

/-- The loop of `isdirempty` from entry `k` on. -/
def isdiremptyFrom (dp : Fin NINODE) : Nat → Nat → IProg Bool
  | 0, _ => return true
  | fuel + 1, k => do
    match ← .lift (.readDirent dp k) with
    | none => .panic "isdirempty: readi"
    | some de => if de.inum ≠ 0 then return false else isdiremptyFrom dp fuel (k + 1)

/-- Is the directory dp empty except for "." and ".." ? -/
def isdirempty (dp : Fin NINODE) : IProg Bool := do
  let n ← .lift (.size dp)
  isdiremptyFrom dp (n - 2) 2

/-- Is the inode something that `sys_unlink` may remove? -/
def removable (ip : Fin NINODE) (a : Attr) : IProg Bool :=
  if a.type = T_DIR then isdirempty ip else return true

/-- Drop the link that `..` of a removed directory was. -/
def dropParentLink (dp : Fin NINODE) (a : Attr) : IProg Unit :=
  if a.type = T_DIR then do
    let d ← .lift (.attr dp)
    .lift (.update dp { d with nlink := d.nlink - 1 })
  else return ()

def unlinkBad (dp : Fin NINODE) : IProg Int := do
  iunlockput dp
  .lift .endOp
  return -1

/-- The part of `sys_unlink` that removes the entry `k` of `dp` for `ip`. -/
def unlinkEntry (dp ip : Fin NINODE) (k : Nat) : IProg Int := do
  ilock ip
  let a ← .lift (.attr ip)
  if a.nlink.toInt < 1 then .panic "unlink: nlink < 1"
  else
    if ← removable ip a then
      if ← .lift (.writeDirent dp k ⟨0, []⟩) then
        dropParentLink dp a
        iunlockput dp
        let a ← .lift (.attr ip)
        .lift (.update ip { a with nlink := a.nlink - 1 })
        iunlockput ip
        .lift .endOp
        return 0
      else .panic "unlink: writei"
    else
      iunlockput ip
      unlinkBad dp

def sysUnlink (path : Option CString) : IProg Int :=
  match path with
  | none => return -1
  | some path => do
    .lift .beginOp
    match ← nameiparent path with
    | none =>
      .lift .endOp
      return -1
    | some (dp, name) =>
      ilock dp
      -- cannot unlink "." or ".."
      if namecmp name dot ∨ namecmp name dotdot then unlinkBad dp
      else
        match ← dirlookup dp name with
        | none => unlinkBad dp
        | some (ip, k) => unlinkEntry dp ip k

/-! ## Creating -/

/-- Create . and .. entries in a new directory. -/
def createDots (dp ip : Fin NINODE) (type : BitVec 16) : IProg Unit :=
  if type = T_DIR then do
    let d ← .lift (.attr dp)
    -- for ".."; there is none for ".", to avoid a cyclic ref count
    .lift (.update dp { d with nlink := d.nlink + 1 })
    let inum ← .lift (.inum ip)
    if ← dirlink ip dot inum then
      let inum ← .lift (.inum dp)
      if ← dirlink ip dotdot inum then return ()
      else .panic "create dots"
    else .panic "create dots"
  else return ()

/-- The part of `create` that makes a new inode for `name` in `dp`. -/
def createNew (dp : Fin NINODE) (name : CString) (type major minor : BitVec 16) :
    IProg (Option (Fin NINODE)) := do
  let ip ← ialloc type
  ilock ip
  let a ← .lift (.attr ip)
  .lift (.update ip { a with major := major, minor := minor, nlink := 1 })
  createDots dp ip type
  let inum ← .lift (.inum ip)
  if ← dirlink dp name inum then
    iunlockput dp
    return some ip
  else .panic "create: dirlink"

/-- Find or create the inode at a path; it is returned locked. -/
def create (path : CString) (type major minor : BitVec 16) :
    IProg (Option (Fin NINODE)) := do
  match ← nameiparent path with
  | none => return none
  | some (dp, name) =>
    ilock dp
    match ← dirlookup dp name with
    | some (ip, _) =>
      iunlockput dp
      ilock ip
      let a ← .lift (.attr ip)
      if type = T_FILE ∧ (a.type = T_FILE ∨ a.type = T_DEVICE) then return some ip
      else
        iunlockput ip
        return none
    | none => createNew dp name type major minor

abbrev O_RDONLY : BitVec 32 := 0x000
abbrev O_CREATE : BitVec 32 := 0x200
abbrev O_TRUNC : BitVec 32 := 0x400

/-- The inode that `sys_open` opens; it is returned locked. -/
def openInode (path : CString) (omode : BitVec 32) : IProg (Option (Fin NINODE)) :=
  if omode &&& O_CREATE ≠ 0 then create path T_FILE 0 0
  else do
    match ← namei path with
    | none => return none
    | some ip =>
      ilock ip
      let a ← .lift (.attr ip)
      if a.type = T_DIR ∧ omode ≠ O_RDONLY then
        iunlockput ip
        return none
      else return some ip

/-- Give up the locked inode that was to be opened. -/
def openFail (ip : Fin NINODE) : IProg Int := do
  iunlockput ip
  .lift .endOp
  return -1

/-- Truncate a regular file that is opened with `O_TRUNC`. -/
def openTrunc (ip : Fin NINODE) (a : Attr) (omode : BitVec 32) : IProg Unit :=
  if omode &&& O_TRUNC ≠ 0 ∧ a.type = T_FILE then .lift (.itrunc ip) else return ()

def openFile (ip : Fin NINODE) (f : Fin NFILE) (fd : Fin NOFILE) (omode : BitVec 32) :
    IProg Int := do
  let a ← .lift (.attr ip)
  .lift (.setFile f (if a.type = T_DEVICE then .device ip else .inode ip))
  openTrunc ip a omode
  .lift (.iunlock ip)
  .lift .endOp
  return fd.val

def sysOpen (path : Option CString) (omode : BitVec 32) : IProg Int :=
  match path with
  | none => return -1
  | some path => do
    .lift .beginOp
    match ← openInode path omode with
    | none =>
      .lift .endOp
      return -1
    | some ip =>
      let a ← .lift (.attr ip)
      if a.type = T_DEVICE ∧ (a.major.toInt < 0 ∨ NDEV ≤ a.major.toInt) then openFail ip
      else
        match ← .lift .filealloc with
        | none => openFail ip
        | some f =>
          match ← fdalloc f with
          | none =>
            fileclose f
            openFail ip
          | some fd => openFile ip f fd omode

/-- What `sys_mkdir` and `sys_mknod` do with the new inode. -/
def createAndPut (path : Option CString) (type major minor : BitVec 16) : IProg Int := do
  .lift .beginOp
  match path with
  | none =>
    .lift .endOp
    return -1
  | some path =>
    match ← create path type major minor with
    | none =>
      .lift .endOp
      return -1
    | some ip =>
      iunlockput ip
      .lift .endOp
      return 0

def sysMkdir (path : Option CString) : IProg Int := createAndPut path T_DIR 0 0

def sysMknod (path : Option CString) (major minor : BitVec 16) : IProg Int :=
  createAndPut path T_DEVICE major minor

/-! ## Processes -/

def sysChdir (path : Option CString) : IProg Int := do
  .lift .beginOp
  match path with
  | none =>
    .lift .endOp
    return -1
  | some path =>
    match ← namei path with
    | none =>
      .lift .endOp
      return -1
    | some ip =>
      ilock ip
      let a ← .lift (.attr ip)
      if a.type ≠ T_DIR then
        iunlockput ip
        .lift .endOp
        return -1
      else
        .lift (.iunlock ip)
        let old ← .lift .cwd
        iput old
        .lift .endOp
        .lift (.setCwd (some ip))
        return 0

inductive ExecResult
  /-- It fails while it reads the program. -/
  | badProgram
  /-- It fails after it has given up the inode. -/
  | badStack
  | ok (argc : Nat)

/-- The part of `exec` that handles the inode. -/
def exec (path : CString) (result : ExecResult) : IProg Int := do
  .lift .beginOp
  match ← namei path with
  | none =>
    .lift .endOp
    return -1
  | some ip =>
    ilock ip
    match result with
    | .badProgram =>
      iunlockput ip
      .lift .endOp
      return -1
    | .badStack =>
      iunlockput ip
      .lift .endOp
      return -1
    | .ok argc =>
      iunlockput ip
      .lift .endOp
      return argc

/-- `sys_exec`; the argument is `none` where the path or the arguments cannot be fetched. -/
def sysExec (path : Option CString) (result : ExecResult) : IProg Int :=
  match path with
  | none => return -1
  | some path => exec path result

/-- Close one descriptor of an exiting process. -/
def exitClose (fd : Fin NOFILE) : IProg Unit := do
  match ← .lift (.ofile fd) with
  | none => return ()
  | some f =>
    fileclose f
    .lift (.setOfile fd none)

/-- The part of `exit` that gives files and the current directory back. -/
def exit : IProg Int := do
  let p ← .lift .myproc
  if p = 0 then .panic "init exiting"
  else
    Prog.forEach exitClose (List.finRange NOFILE)
    .lift .beginOp
    let ip ← .lift .cwd
    iput ip
    .lift .endOp
    .lift (.setCwd none)
    .lift .zombie
    return 0

/-- Share one descriptor with a new process. -/
def forkDup (np : Proc) (fd : Fin NOFILE) : IProg Unit := do
  match ← .lift (.ofile fd) with
  | none => return ()
  | some f =>
    .lift (.filedup f)
    .lift (.forkOfile np fd f)

/-- The part of `fork` that shares files and the current directory, where `allocproc` takes slot
`np`. The slot is `none` where `uvmcopy` fails, which is before anything is shared. -/
def fork (np : Option Proc) : IProg Int :=
  match np with
  | none => return -1
  | some np => do
    if ← .lift (.allocproc np) then
      Prog.forEach (forkDup np) (List.finRange NOFILE)
      let ip ← .lift .cwd
      .lift (.idup ip)
      .lift (.forkCwd np ip)
      .lift (.runnable np)
      return np.val
    else return -1

inductive Call
  | open (path : Option CString) (omode : BitVec 32)
  | mkdir (path : Option CString)
  | mknod (path : Option CString) (major minor : BitVec 16)
  | link (old new : Option CString)
  | unlink (path : Option CString)
  | chdir (path : Option CString)
  | dup (fd : Int)
  | close (fd : Int)
  | fstat (fd : Int) (ok : Bool)
  | pipe (page : Option Nat) (ok : Bool)
  | exec (path : Option CString) (result : ExecResult)
  | fork (np : Option Proc)
  | exit

def Call.code : Call → IProg Int
  | .open path omode => sysOpen path omode
  | .mkdir path => sysMkdir path
  | .mknod path major minor => sysMknod path major minor
  | .link old new => sysLink old new
  | .unlink path => sysUnlink path
  | .chdir path => sysChdir path
  | .dup fd => sysDup fd
  | .close fd => sysClose fd
  | .fstat fd ok => sysFstat fd ok
  | .pipe page ok => sysPipe page ok
  | .exec path result => sysExec path result
  | .fork np => Dir.fork np
  | .exit => Dir.exit

/-- What a process runs that makes a call. -/
def Call.prog (c : Call) : IProg Int := do
  .lift .enter
  c.code

end Xv6.Dir
