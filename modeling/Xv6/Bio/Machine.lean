import Xv6.Bio.Op
import Xv6.Lib.Pool

/-!
# The block layer shared by many processes

The buffer cache of `bio.c` with its LRU list, sleep-locks and 32-bit reference counts, the
in-memory log of `log.c`, and for every process its `struct buf *` variables. `exec` is what one
atomic step of one process does; processes interleave between steps.
-/

namespace Xv6

open Function

/-- `struct buf`. `lock` is the process that holds the sleep-lock. -/
structure Buf (Tid : Type) where
  valid : Bool
  dev : Nat
  blockno : Nat
  refcnt : BitVec 32
  lock : Option Tid
  data : Block

structure BState (Tid : Type) where
  disk : Nat → Block
  buf : Fin NBUF → Buf Tid
  /-- The buffers in the order of `bcache.head.next`: most recently released first. -/
  lru : List (Fin NBUF)
  lh : List Nat
  outstanding : Int
  committing : Bool
  /-- The buffers a process has obtained and not released, under the block number it asked for. -/
  ptr : Tid → List (Nat × Fin NBUF)

namespace BState

variable {Tid : Type}

/-- The state in which the kernel starts: `binit` has linked the buffers of a zeroed cache, and the
in-memory log is zero. -/
def boot (disk : Nat → Block) : BState Tid where
  disk := disk
  buf := fun _ => ⟨false, 0, 0, 0, none, fun _ => 0⟩
  lru := (List.finRange NBUF).reverse
  lh := []
  outstanding := 0
  committing := false
  ptr := fun _ => []

def Caches (s : BState Tid) (b : Nat) (i : Fin NBUF) : Prop :=
  (s.buf i).dev = ROOTDEV ∧ (s.buf i).blockno = b

instance (s : BState Tid) (b : Nat) (i : Fin NBUF) : Decidable (s.Caches b i) :=
  inferInstanceAs (Decidable (_ ∧ _))

def cached (s : BState Tid) (b : Nat) : Option (Fin NBUF) :=
  s.lru.find? fun i => s.Caches b i

/-- The second loop of `bget`, from the least recently used end. -/
def victim (s : BState Tid) : Option (Fin NBUF) :=
  s.lru.reverse.find? fun i => (s.buf i).refcnt = 0

def setBuf (s : BState Tid) (i : Fin NBUF) (f : Buf Tid → Buf Tid) : BState Tid :=
  { s with buf := update s.buf i (f (s.buf i)) }

variable [DecidableEq Tid]

/-- Assign to the variables of one process. -/
def setPtr (s : BState Tid) (t : Tid) (l : List (Nat × Fin NBUF)) : BState Tid :=
  { s with ptr := update s.ptr t l }

/-- The buffer that process `t` obtained for block `b`. -/
def bufOf (s : BState Tid) (t : Tid) (b : Nat) : Option (Fin NBUF) := (s.ptr t).lookup b

/-- A step on a buffer that the process has obtained; it has no other way to name one. -/
def onBuf {γ : Type} (s : BState Tid) (t : Tid) (b : Nat) (f : Fin NBUF → Outcome γ (BState Tid)) :
    Outcome γ (BState Tid) :=
  match s.bufOf t b with
  | some i => f i
  | none => .blocked

/-- `bget` up to the release of `bcache.lock`. -/
def bget (s : BState Tid) (t : Tid) (b : Nat) : Outcome Unit (BState Tid) :=
  match s.cached b with
  | some i =>
    .done () ((s.setBuf i fun x => { x with refcnt := x.refcnt + 1 }).setPtr t ((b, i) :: s.ptr t))
  | none =>
    match s.victim with
    | some i =>
      .done () ((s.setBuf i fun x => { x with
        dev := ROOTDEV, blockno := b, valid := false, refcnt := 1 }).setPtr t ((b, i) :: s.ptr t))
    | none => .panic "bget: no buffers"

/-- The part of `brelse` under `bcache.lock`. -/
def unref (s : BState Tid) (t : Tid) (b : Nat) (i : Fin NBUF) : BState Tid :=
  let s' := (s.setBuf i fun x => { x with refcnt := x.refcnt - 1 }).setPtr t
    ((s.ptr t).erase (b, i))
  if (s'.buf i).refcnt = 0 then { s' with lru := i :: s.lru.erase i } else s'

/-- The part of `log_write` under `log.lock`. -/
def logAppend (s : BState Tid) (i : Fin NBUF) : BState Tid :=
  if (s.buf i).blockno ∈ s.lh then s
  else { s.setBuf i fun x => { x with refcnt := x.refcnt + 1 } with
    lh := s.lh ++ [(s.buf i).blockno] }

def exec (sb : Superblock) (t : Tid) : ∀ γ, BOp γ → BState Tid → Outcome γ (BState Tid)
  | _, .bget b, s => s.bget t b
  | _, .acquiresleep b, s => s.onBuf t b fun i =>
    if (s.buf i).lock = none then .done () (s.setBuf i fun x => { x with lock := some t })
    else .blocked
  | _, .fill b, s => s.onBuf t b fun i =>
    if (s.buf i).valid then .done (s.buf i).data s
    else .done (s.disk (s.buf i).blockno)
      (s.setBuf i fun x => { x with valid := true, data := s.disk x.blockno })
  | _, .setData b d, s => s.onBuf t b fun i => .done () (s.setBuf i fun x => { x with data := d })
  | _, .bwrite b, s => s.onBuf t b fun i =>
    if (s.buf i).lock = some t then
      .done () { s with disk := update s.disk (s.buf i).blockno (s.buf i).data }
    else .panic "bwrite"
  | _, .releasesleep b, s => s.onBuf t b fun i =>
    if (s.buf i).lock = some t then .done () (s.setBuf i fun x => { x with lock := none })
    else .panic "brelse"
  | _, .unref b, s => s.onBuf t b fun i => .done () (s.unref t b i)
  | _, .bunpin b, s => s.onBuf t b fun i =>
    .done () (s.setBuf i fun x => { x with refcnt := x.refcnt - 1 })
  | _, .logCheck, s =>
    if LOGSIZE ≤ s.lh.length ∨ (sb.nlog : Int) - 1 ≤ s.lh.length then
      .panic "too big a transaction"
    else if s.outstanding < 1 then .panic "log_write outside of trans"
    else .done () s
  | _, .logAppend b, s => s.onBuf t b fun i => .done () (s.logAppend i)
  | _, .beginOp, s =>
    if s.committing then .blocked
    else if (LOGSIZE : Int) < s.lh.length + (s.outstanding + 1) * MAXOPBLOCKS then .blocked
    else .done () { s with outstanding := s.outstanding + 1 }
  | _, .endOp, s =>
    if s.committing then .panic "log.committing"
    else if s.outstanding - 1 = 0 then
      .done true { s with outstanding := s.outstanding - 1, committing := true }
    else .done false { s with outstanding := s.outstanding - 1 }
  | _, .endCommit, s => .done () { s with committing := false }
  | _, .logHeader, s => .done s.lh s
  | _, .setLogHeader lh, s => .done () { s with lh := lh }
  | _, .panic msg, _ => .panic msg

end BState

/-! ### What a step leaves alone -/

/-- The steps that assign to `struct log`. -/
def BOp.SetsLog {γ : Type} : BOp γ → Prop
  | .logAppend _ => True
  | .beginOp => True
  | .endOp => True
  | .endCommit => True
  | .setLogHeader _ => True
  | _ => False

namespace BState

variable {Tid γ : Type} {b : Nat} {t : Tid}

@[simp] theorem setBuf_same (s : BState Tid) (i : Fin NBUF) (f : Buf Tid → Buf Tid) :
    (s.setBuf i f).buf i = f (s.buf i) := by
  simp [setBuf]

theorem setBuf_ne (s : BState Tid) {i j : Fin NBUF} (f : Buf Tid → Buf Tid) (h : j ≠ i) :
    (s.setBuf i f).buf j = s.buf j := by
  simp [setBuf, h]

variable {s s' : BState Tid} {r : γ}

theorem onBuf_eq_done {f : Fin NBUF → Outcome γ (BState Tid)} :
    s.onBuf t b f = .done r s' ↔ ∃ i, s.bufOf t b = some i ∧ f i = .done r s' := by
  unfold onBuf
  cases s.bufOf t b <;> simp

def SameLog (s s' : BState Tid) : Prop :=
  s'.lh = s.lh ∧ s'.outstanding = s.outstanding ∧ s'.committing = s.committing

variable [DecidableEq Tid]

theorem unref_sameLog (s : BState Tid) (t : Tid) (b : Nat) (i : Fin NBUF) :
    s.SameLog (s.unref t b i) := by
  unfold unref
  dsimp only
  split <;> exact ⟨rfl, rfl, rfl⟩

theorem unref_fields (s : BState Tid) (t : Tid) (b : Nat) (i : Fin NBUF) :
    (s.unref t b i).buf = (s.setBuf i fun x => { x with refcnt := x.refcnt - 1 }).buf ∧
      (s.unref t b i).ptr = update s.ptr t ((s.ptr t).erase (b, i)) ∧
      (s.unref t b i).disk = s.disk ∧ ∀ j, j ∈ s.lru → j ∈ (s.unref t b i).lru := by
  unfold unref
  dsimp only
  split
  · refine ⟨rfl, rfl, rfl, fun j hj => ?_⟩
    by_cases hji : j = i
    · simp [hji]
    · exact List.mem_cons_of_mem _ ((List.mem_erase_of_ne hji).mpr hj)
  · exact ⟨rfl, rfl, rfl, fun _ => id⟩

theorem bget_sameLog (h : s.bget t b = .done () s') : s.SameLog s' := by
  unfold bget at h
  split at h
  · cases h
    exact ⟨rfl, rfl, rfl⟩
  · split at h
    · cases h
      exact ⟨rfl, rfl, rfl⟩
    · cases h

theorem exec_sameLog {sb : Superblock} {o : BOp γ}
    (h : s.exec sb t γ o = .done r s') (ho : ¬ o.SetsLog) : s.SameLog s' := by
  cases o with
  | bget b => exact bget_sameLog h
  | unref b =>
    obtain ⟨i, -, h⟩ := onBuf_eq_done.mp h
    cases h
    exact unref_sameLog ..
  | acquiresleep b | fill b | bwrite b | releasesleep b =>
    obtain ⟨i, -, h⟩ := onBuf_eq_done.mp h
    split at h <;> cases h <;> exact ⟨rfl, rfl, rfl⟩
  | setData b d | bunpin b =>
    obtain ⟨i, -, h⟩ := onBuf_eq_done.mp h
    cases h
    exact ⟨rfl, rfl, rfl⟩
  | logCheck =>
    simp only [exec] at h
    split at h
    · cases h
    · split at h <;> cases h
      exact ⟨rfl, rfl, rfl⟩
  | logHeader =>
    cases h
    exact ⟨rfl, rfl, rfl⟩
  | panic msg => cases h
  | logAppend b | beginOp | endOp | endCommit | setLogHeader l => exact absurd trivial ho

end BState

/-! ## What the operations do, recorded beside the machine

`Ledger` never influences a run. It names the operations (what lies between a `begin_op` and its
`end_op`), remembers the blocks each has logged, and the header of every transaction. -/

/-- The blocks that one operation has logged, latest first. -/
structure OpLog where
  id : Nat
  blocks : List Nat
  deriving DecidableEq

/-- A transaction: the header that `commit` found in memory, and the operations it covers. -/
structure Tx where
  header : List Nat
  ops : List OpLog
  deriving DecidableEq

structure Ledger (Tid : Type) where
  begun : Nat
  active : Tid → Option OpLog
  /-- The operations that have ended since the last transaction. -/
  ended : List OpLog
  /-- Is the process between the two critical sections of the `end_op` that commits? -/
  inCommit : Tid → Bool
  txs : List Tx
  /-- The blocks pinned by `log_write` and not yet unpinned. -/
  pinned : List Nat

namespace Ledger

variable {Tid : Type}

def empty : Ledger Tid where
  begun := 0
  active := fun _ => none
  ended := []
  inCommit := fun _ => false
  txs := []
  pinned := []

variable [DecidableEq Tid]

/-- `log_write` of block `b` by process `t`. -/
def log (g : Ledger Tid) (t : Tid) (b : Nat) (lh : List Nat) : Ledger Tid :=
  { g with
    active := update g.active t
      ((g.active t).map fun a => { a with blocks := if b ∈ a.blocks then a.blocks else b :: a.blocks })
    pinned := if b ∈ lh then g.pinned else b :: g.pinned }

def close (g : Ledger Tid) (t : Tid) : Ledger Tid :=
  { g with active := update g.active t none, ended := (g.active t).toList ++ g.ended }

/-- Process `t` enters `commit` with `lh` in memory. -/
def enter (g : Ledger Tid) (t : Tid) (lh : List Nat) : Ledger Tid :=
  if lh = [] then { g with inCommit := update g.inCommit t true }
  else { g with
    inCommit := update g.inCommit t true
    txs := ⟨lh, g.ended⟩ :: g.txs
    ended := [] }

/-- Record a step that was taken in state `s` with answer `r`. -/
def note (g : Ledger Tid) (s : BState Tid) (t : Tid) : ∀ γ, BOp γ → γ → Ledger Tid
  | _, .beginOp, _ => { g with
      begun := g.begun + 1
      active := update g.active t (some ⟨g.begun, []⟩) }
  | _, .logAppend b, _ =>
    match s.bufOf t b with
    | some i => g.log t (s.buf i).blockno s.lh
    | none => g
  | _, .endOp, commits => if commits then (g.close t).enter t s.lh else g.close t
  | _, .endCommit, _ => { g with inCommit := update g.inCommit t false }
  | _, .bunpin b, _ =>
    match s.bufOf t b with
    | some i => { g with pinned := g.pinned.erase (s.buf i).blockno }
    | none => g
  | _, _, _ => g

@[simp] theorem note_endOp_pinned (g : Ledger Tid) (s : BState Tid) (t : Tid) (commits : Bool) :
    (g.note s t Bool .endOp commits).pinned = g.pinned := by
  simp only [note, enter]
  split
  · split <;> rfl
  · rfl

end Ledger

structure BWorld (Tid : Type) where
  st : BState Tid
  gh : Ledger Tid

def BWorld.exec {Tid : Type} [DecidableEq Tid] (sb : Superblock) (t : Tid) (γ : Type) (o : BOp γ)
    (w : BWorld Tid) : Outcome γ (BWorld Tid) :=
  (w.st.exec sb t γ o).map fun r s' => ⟨s', w.gh.note w.st t γ o r⟩

end Xv6
