import Xv6.Bio.Op

/-!
# `kernel/log.c`

The on-disk format is a header block holding `n` and the home block numbers, followed by one block
for each of them. Appends are synchronous. `log.lh` is the list `block[0..n)`: the entries at or
above `n` are never read.
-/

namespace Xv6

/-! ## The header block -/

/-- The 32-bit word at `off`, read as a C `int`. -/
def Bytes.int32 {n : Nat} (b : Bytes n) (off : Nat) : Int :=
  (BitVec.ofNat 32 (b.uint 4 off)).toInt

def headN (d : Block) : Int := d.int32 0

/-- `lh->block[0..n)` of a header block. The loop of `read_head` runs while `i < n`, so a header
with `n ≤ 0` lists nothing. -/
def headBlocks (d : Block) : List Nat :=
  (List.range (headN d).toNat).map fun i => d.uint 4 (4 + 4 * i)

/-- The copy loop of `write_head`, from index `i` on. -/
def putBlocks : Nat → List Nat → Block → Block
  | _, [], d => d
  | i, b :: bs, d => putBlocks (i + 1) bs (d.setUint 4 (4 + 4 * i) b)

/-- The header buffer after the assignments of `write_head`. Entries at or above `n` keep what the
buffer held. -/
def putHead (d : Block) (lh : List Nat) : Block :=
  putBlocks 0 lh (d.setUint 4 0 lh.length)

/-! ## The functions -/

section

variable (sb : Superblock)

/-- The body of the loop of `install_trans`, at `block[tail] = b`. -/
def installBlock : Nat × Nat → BProg Unit
  | (b, tail) => do
    let l ← bread (sb.logstart + tail + 1)
    let _ ← bread b
    .lift (.setData b l)
    .lift (.bwrite b)
    .lift (.bunpin b)
    brelse (sb.logstart + tail + 1)
    brelse b

/-- Copy committed blocks from log to their home location. -/
def installTrans : BProg Unit := do
  let lh ← .lift .logHeader
  .forEach (installBlock sb) lh.zipIdx

/-- Read the log header from disk into the in-memory log header. -/
def readHead : BProg Unit := do
  let d ← bread sb.logstart
  .lift (.setLogHeader (headBlocks d))
  brelse sb.logstart

def writeHead : BProg Unit := do
  let d ← bread sb.logstart
  let lh ← .lift .logHeader
  .lift (.setData sb.logstart (putHead d lh))
  .lift (.bwrite sb.logstart)
  brelse sb.logstart

def recoverFromLog : BProg Unit := do
  readHead sb
  installTrans sb
  .lift (.setLogHeader [])
  writeHead sb

/-- The body of the loop of `write_log`, at `block[tail] = b`. -/
def writeLogBlock : Nat × Nat → BProg Unit
  | (b, tail) => do
    let _ ← bread (sb.logstart + tail + 1)
    let d ← bread b
    .lift (.setData (sb.logstart + tail + 1) d)
    .lift (.bwrite (sb.logstart + tail + 1))
    brelse b
    brelse (sb.logstart + tail + 1)

/-- Copy modified blocks from cache to log. -/
def writeLog : BProg Unit := do
  let lh ← .lift .logHeader
  .forEach (writeLogBlock sb) lh.zipIdx

def commit : BProg Unit := do
  let lh ← .lift .logHeader
  if lh.length > 0 then
    writeLog sb
    writeHead sb
    installTrans sb
    .lift (.setLogHeader [])
    writeHead sb

/-- Called at the start of each file-system call. -/
def beginOp : BProg Unit := .lift .beginOp

/-- Called at the end of each file-system call. Commits if this was the last outstanding
operation. -/
def endOp : BProg Unit := do
  let doCommit ← .lift .endOp
  if doCommit then
    commit sb
    .lift .endCommit

/-- Record the block number of a modified buffer and pin it in the cache. -/
def logWrite (b : Nat) : BProg Unit := do
  .lift .logCheck
  .lift (.logAppend b)

end

/-! ## Reading back a header -/

theorem byte_putBlocks (lh : List Nat) (i : Nat) (d : Block) {k : Nat} (h : k < 4 + 4 * i) :
    (putBlocks i lh d).byte k = d.byte k := by
  induction lh generalizing i d with
  | nil => rfl
  | cons b bs ih =>
    rw [putBlocks, ih (i + 1) _ (by omega), Bytes.byte_setUint_of_out _ _ _ _ (by omega)]

theorem uint_putBlocks (lh : List Nat) (i : Nat) (d : Block) (hlen : 4 + 4 * (i + lh.length) ≤ BSIZE)
    (hlt : ∀ b ∈ lh, b < 2 ^ 32) {k : Nat} (hk : k < lh.length) :
    (putBlocks i lh d).uint 4 (4 + 4 * (i + k)) = lh[k] := by
  induction lh generalizing i d k with
  | nil => simp at hk
  | cons b bs ih =>
    simp only [List.length_cons] at hlen hk
    cases k with
    | zero =>
      have hb : b < 2 ^ 32 := hlt b (by simp)
      have hout : (putBlocks (i + 1) bs (d.setUint 4 (4 + 4 * i) b)).uint 4 (4 + 4 * i) =
          (d.setUint 4 (4 + 4 * i) b).uint 4 (4 + 4 * i) :=
        Bytes.uint_congr _ _ _ _ (fun j hj => byte_putBlocks _ _ _ (by omega))
      simp only [putBlocks, Nat.add_zero, List.getElem_cons_zero, hout]
      rw [Bytes.uint_setUint_same _ _ _ _ (by omega), Nat.mod_eq_of_lt (by simpa using hb)]
    | succ k =>
      have := ih (i + 1) (d.setUint 4 (4 + 4 * i) b) (by omega)
        (fun x hx => hlt x (List.mem_cons_of_mem _ hx)) (k := k) (by omega)
      rw [putBlocks, show i + (k + 1) = i + 1 + k by omega, this]
      rfl

theorem headN_putHead (d : Block) (lh : List Nat) (hlen : 4 + 4 * lh.length ≤ BSIZE) :
    headN (putHead d lh) = lh.length := by
  have hsmall : lh.length < 256 := by
    simp only [BSIZE] at hlen
    omega
  have hword : (putHead d lh).uint 4 0 = lh.length := by
    have hout : (putHead d lh).uint 4 0 = (d.setUint 4 0 lh.length).uint 4 0 :=
      Bytes.uint_congr _ _ _ _ (fun j hj => byte_putBlocks _ _ _ (by omega))
    rw [hout, Bytes.uint_setUint_same _ _ _ _ (by decide), Nat.mod_eq_of_lt (by omega)]
  unfold headN Bytes.int32
  rw [hword, BitVec.toInt_eq_toNat_of_lt]
  · simp only [BitVec.toNat_ofNat]
    omega
  · simp only [BitVec.toNat_ofNat]
    omega

theorem headBlocks_putHead (d : Block) (lh : List Nat) (hlen : 4 + 4 * lh.length ≤ BSIZE)
    (hlt : ∀ b ∈ lh, b < 2 ^ 32) : headBlocks (putHead d lh) = lh := by
  unfold headBlocks
  rw [headN_putHead d lh hlen]
  apply List.ext_getElem
  · simp
  · intro k hk hk'
    have := uint_putBlocks lh 0 (d.setUint 4 0 lh.length) (by omega) hlt hk'
    simpa [putHead] using this

theorem headBlocks_eq_nil_of_headN {d : Block} (h : headN d = 0) : headBlocks d = [] := by
  simp [headBlocks, h]

@[simp] theorem headBlocks_putHead_nil (d : Block) : headBlocks (putHead d []) = [] :=
  headBlocks_eq_nil_of_headN (headN_putHead d [] (by decide))

end Xv6
