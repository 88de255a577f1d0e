import Xv6.Dir.Op

/-!
# Directories, paths and the calls of `sysfile.c`

The code of `fs.c` from `iput` up to `nameiparent`, and of `sysfile.c`, `file.c` and `proc.c` as far
as it handles inodes, files and current directories.
-/

namespace Xv6.Dir

/-! ## In-memory inodes -/

/-- Free an inode that has no links and no other references. -/
def freeInode (ip : Fin NINODE) : IProg Unit := do
  .lift (.itrunc ip)
  let a ← .lift (.attr ip)
  .lift (.update ip { a with type := 0 })
  .lift (.invalidate ip)

/-- Drop a reference to an in-memory inode. If that was the last reference and the inode has no
links to it, free the inode (and its content) on disk. -/
def iput (ip : Fin NINODE) : IProg Unit := do
  let last ← .lift (.lastRef ip)
  if last then
    freeInode ip
    .lift (.deref ip)
  else return ()

/-- Lock the given inode. Reads the inode from disk if necessary. -/
def ilock (ip : Fin NINODE) : IProg Unit := do
  .lift (.acquiresleep ip)
  if ← .lift (.valid ip) then return ()
  else
    let type ← .lift (.load ip)
    if type = 0 then .panic "ilock: no type" else return ()

def iunlockput (ip : Fin NINODE) : IProg Unit := do
  .lift (.iunlock ip)
  iput ip

/-- The loop of `ialloc` over the inodes that are left. -/
def iallocFrom (type : BitVec 16) : List Nat → IProg (Fin NINODE)
  | [] => .panic "ialloc: no inodes"
  | inum :: rest => do
    if ← .lift (.claim inum type) then .lift (.iget inum) else iallocFrom type rest

/-- Allocate an inode and mark it as allocated by giving it type `type`. -/
def ialloc (type : BitVec 16) : IProg (Fin NINODE) := do
  let n ← .lift .ninodes
  iallocFrom type (List.range' 1 (n - 1))

/-! ## Directories -/

/-- The bytes of a string that `strncmp` and `strncpy` with bound `n` look at. -/
def strn (n : Nat) (s : CString) : CString := (s.takeWhile (· ≠ 0)).take n

def namecmp (s t : CString) : Bool := strn DIRSIZ s = strn DIRSIZ t

def dot : CString := [0x2e]

def dotdot : CString := [0x2e, 0x2e]

/-- The loop of `dirlookup` from entry `k` on; `fuel` entries are left. -/
def dirlookupFrom (dp : Fin NINODE) (name : CString) :
    Nat → Nat → IProg (Option (Fin NINODE × Nat))
  | 0, _ => return none
  | fuel + 1, k => do
    match ← .lift (.readDirent dp k) with
    | none => .panic "dirlookup read"
    | some de =>
      if de.inum ≠ 0 ∧ namecmp name de.name then
        let ip ← .lift (.iget de.inum.toNat)
        return some (ip, k)
      else dirlookupFrom dp name fuel (k + 1)

/-- Look for a directory entry in a directory. If found, also return its index. -/
def dirlookup (dp : Fin NINODE) (name : CString) : IProg (Option (Fin NINODE × Nat)) := do
  let a ← .lift (.attr dp)
  if a.type ≠ T_DIR then .panic "dirlookup not DIR"
  else
    let n ← .lift (.size dp)
    dirlookupFrom dp name n 0

/-- Look for an empty dirent from entry `k` on; the index behind the last if there is none. -/
def emptyDirent (dp : Fin NINODE) : Nat → Nat → IProg Nat
  | 0, k => return k
  | fuel + 1, k => do
    match ← .lift (.readDirent dp k) with
    | none => .panic "dirlink read"
    | some de => if de.inum = 0 then return k else emptyDirent dp fuel (k + 1)

/-- Write a new directory entry (name, inum) into the directory dp. The answer is whether the name
was not present. -/
def dirlink (dp : Fin NINODE) (name : CString) (inum : Nat) : IProg Bool := do
  match ← dirlookup dp name with
  | some (ip, _) =>
    iput ip
    return false
  | none =>
    let n ← .lift (.size dp)
    let k ← emptyDirent dp n 0
    if ← .lift (.writeDirent dp k ⟨BitVec.ofNat 16 inum, strn DIRSIZ name⟩) then return true
    else .panic "dirlink"

/-! ## Paths -/

def slash : BitVec 8 := 0x2f

/-- Copy the next path element from path into name. Return the name and the rest of the path
following the copied element. -/
def skipelem (path : CString) : Option (CString × CString) :=
  match path.dropWhile (· = slash) with
  | [] => none
  | path =>
    some ((path.takeWhile (· ≠ slash)).take DIRSIZ,
      (path.dropWhile (· ≠ slash)).dropWhile (· = slash))

/-- What `namex` does when the path is at its end. -/
def namexEnd (parent : Bool) (ip : Fin NINODE) (name : CString) :
    IProg (Option (Fin NINODE × CString)) :=
  if parent then do
    iput ip
    return none
  else return some (ip, name)

/-- The loop of `namex`. `fuel` bounds the number of elements; the length of the path is enough. -/
def namexFrom (parent : Bool) :
    Nat → Fin NINODE → CString → CString → IProg (Option (Fin NINODE × CString))
  | 0, ip, name, _ => namexEnd parent ip name
  | fuel + 1, ip, name, path =>
    match skipelem path with
    | none => namexEnd parent ip name
    | some (name, path) => do
      ilock ip
      let a ← .lift (.attr ip)
      if a.type ≠ T_DIR then
        iunlockput ip
        return none
      else if parent ∧ path = [] then
        -- stop one level early
        .lift (.iunlock ip)
        return some (ip, name)
      else
        match ← dirlookup ip name with
        | none =>
          iunlockput ip
          return none
        | some (next, _) =>
          iunlockput ip
          namexFrom parent fuel next name path

def namexStart (path : CString) : IProg (Fin NINODE) :=
  if path.head? = some slash then .lift (.iget ROOTINO)
  else do
    let ip ← .lift .cwd
    .lift (.idup ip)
    return ip

/-- Look up and return the inode for a path name. If `parent`, return the inode for the parent and
the final path element. -/
def namex (path : CString) (parent : Bool) : IProg (Option (Fin NINODE × CString)) := do
  let ip ← namexStart path
  namexFrom parent path.length ip [] path

def namei (path : CString) : IProg (Option (Fin NINODE)) := do
  let r ← namex path false
  return r.map Prod.fst

def nameiparent (path : CString) : IProg (Option (Fin NINODE × CString)) := namex path true

end Xv6.Dir
