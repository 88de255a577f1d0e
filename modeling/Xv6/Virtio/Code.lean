import Xv6.Param
import Xv6.Lib.RingBuffer

/-!
# The virtio disk driver

`virtio_disk_rw` and `virtio_disk_intr` of `virtio_disk.c` as threads run them, and the device. The
driver's lock is held between the steps of a call, except in `sleep`, from which a thread may come
back at any moment to take the lock and test its condition again. The device takes a step at any
moment: it reads and writes the rings and the descriptors without the lock. An interrupt may come at
any moment too, late or without need.
-/

namespace Xv6

open Function

abbrev NUM : Nat := 8

instance : NeZero NUM := ⟨by decide⟩

/-- A call of `virtio_disk_rw`: its number among all calls, its buffer and its direction. -/
structure Req (B : Type) where
  tag : Nat
  b : B
  write : Bool
  deriving DecidableEq

inductive VAddr (B : Type)
  | null
  /-- `buf0`, on the kernel stack of a call. -/
  | buf0 (r : Req B)
  /-- `b->data`. -/
  | data (b : B)
  /-- `disk.info[i].status`. -/
  | status (i : Fin NUM)

structure VRingDesc (B : Type) where
  addr : VAddr B
  len : BitVec 32
  flags : BitVec 16
  next : BitVec 16

abbrev VRING_DESC_F_NEXT : BitVec 16 := 1
abbrev VRING_DESC_F_WRITE : BitVec 16 := 2

structure VInfo (B : Type) where
  b : Option B
  status : BitVec 8

inductive VFault
  | panic (msg : String)
  /-- `disk.info[id].b` is null. -/
  | null
  /-- An index that is not in its array. -/
  | range
  /-- The device finds something else than a request. -/
  | badChain

structure Idx where
  i0 : Fin NUM
  i1 : Fin NUM
  i2 : Fin NUM
  deriving DecidableEq

def Idx.toList (x : Idx) : List (Fin NUM) := [x.i0, x.i1, x.i2]

/-- `disk`, the `disk` fields of the buffers, and the device's own state. -/
structure Vdisk (Tid B : Type) where
  vdiskLock : Option Tid
  free : Fin NUM → Bool
  desc : Fin NUM → VRingDesc B
  availIdx : BitVec 16
  availRing : Fin NUM → BitVec 16
  usedId : BitVec 16
  /-- The `id` fields of `used->elems`. -/
  usedElems : Fin NUM → BitVec 32
  usedIdx : BitVec 16
  info : Fin NUM → VInfo B
  busy : B → Bool
  /-- How far the device has looked in `avail`. -/
  lastAvail : BitVec 16
  /-- Heads that the device has taken and not served. -/
  taken : List (BitVec 16)
  /-- The head that the device has just served, before it counts it in `used->id`. -/
  serving : Option (BitVec 16 × Req B)

namespace Vdisk

variable {Tid B : Type}

def init : Vdisk Tid B where
  vdiskLock := none
  free := fun _ => true
  desc := fun _ => ⟨.null, 0, 0, 0⟩
  availIdx := 0
  availRing := fun _ => 0
  usedId := 0
  usedElems := fun _ => 0
  usedIdx := 0
  info := fun _ => ⟨none, 0⟩
  busy := fun _ => false
  lastAvail := 0
  taken := []
  serving := none

/-! ## Descriptors -/

/-- Find a free descriptor and mark it non-free. -/
def allocDesc (d : Vdisk Tid B) : Option (Fin NUM × Vdisk Tid B) :=
  match (List.finRange NUM).find? (d.free ·) with
  | some i => some (i, { d with free := update d.free i false })
  | none => none

/-- Mark a descriptor as free. -/
def freeDesc (d : Vdisk Tid B) (i : Nat) : Except VFault (Vdisk Tid B) :=
  if h : i < NUM then
    if d.free ⟨i, h⟩ = true then .error (.panic "virtio_disk_intr 2")
    else .ok { d with
      desc := update d.desc ⟨i, h⟩ { d.desc ⟨i, h⟩ with addr := .null }
      free := update d.free ⟨i, h⟩ true }
  else .error (.panic "virtio_disk_intr 1")

/-- The loop of `free_chain`. After `NUM` turns every descriptor is free, and `free_desc` panics. -/
def freeChainLoop : Nat → Vdisk Tid B → Nat → Except VFault (Vdisk Tid B)
  | 0, _, _ => .error (.panic "virtio_disk_intr 2")
  | n + 1, d, i => do
    let d ← d.freeDesc i
    if h : i < NUM then
      if (d.desc ⟨i, h⟩).flags &&& VRING_DESC_F_NEXT ≠ 0 then
        freeChainLoop n d (d.desc ⟨i, h⟩).next.toNat
      else .ok d
    else .error .range

def freeChain (d : Vdisk Tid B) (i : Nat) : Except VFault (Vdisk Tid B) := freeChainLoop NUM d i

/-- Give back what `alloc3_desc` has got. -/
def freeAll (d : Vdisk Tid B) : List (Fin NUM) → Except VFault (Option Idx × Vdisk Tid B)
  | [] => .ok (none, d)
  | i :: is => do
    let d ← d.freeDesc i
    d.freeAll is

/-- All three descriptors of a request, or none. -/
def alloc3Desc (d : Vdisk Tid B) : Except VFault (Option Idx × Vdisk Tid B) :=
  match d.allocDesc with
  | none => d.freeAll []
  | some (i0, d) =>
    match d.allocDesc with
    | none => d.freeAll [i0]
    | some (i1, d) =>
      match d.allocDesc with
      | none => d.freeAll [i0, i1]
      | some (i2, d) => .ok (some ⟨i0, i1, i2⟩, d)

/-! ## Steps of `virtio_disk_rw` -/

variable [DecidableEq B]

/-- Format the three descriptors, and record the buffer for `virtio_disk_intr`. -/
def format (d : Vdisk Tid B) (r : Req B) (x : Idx) : Vdisk Tid B :=
  let desc0 := update d.desc x.i0
    ⟨.buf0 r, 16, VRING_DESC_F_NEXT, BitVec.ofNat 16 x.i1⟩
  let desc1 := update desc0 x.i1
    ⟨.data r.b, BitVec.ofNat 32 BSIZE, (if r.write then 0 else VRING_DESC_F_WRITE) ||| VRING_DESC_F_NEXT,
      BitVec.ofNat 16 x.i2⟩
  { d with
    desc := update desc1 x.i2 ⟨.status x.i0, 1, VRING_DESC_F_WRITE, 0⟩
    busy := update d.busy r.b true
    info := update d.info x.i0 ⟨some r.b, 0⟩ }

section
omit [DecidableEq B]

/-- `disk.avail[2 + (disk.avail[1] % NUM)] = idx[0]`. -/
def publish (d : Vdisk Tid B) (x : Idx) : Vdisk Tid B :=
  { d with
    availRing :=
      update d.availRing (RingBuffer.slot NUM d.availIdx) (BitVec.ofNat 16 x.i0) }

def clearInfo (d : Vdisk Tid B) (x : Idx) : Vdisk Tid B :=
  { d with info := update d.info x.i0 { d.info x.i0 with b := none } }

/-- `disk.info[idx[0]].b = 0; free_chain(idx[0]); release(&disk.vdisk_lock)`. -/
def finishRw (d : Vdisk Tid B) (x : Idx) : Except VFault (Vdisk Tid B) := do
  let d ← (d.clearInfo x).freeChain x.i0
  .ok { d with vdiskLock := none }

end

/-! ## Steps of `virtio_disk_intr` -/

/-- The body of the loop of `virtio_disk_intr`. -/
def intrTurn (d : Vdisk Tid B) : Except VFault (B × Vdisk Tid B) :=
  if hu : d.usedIdx.toNat < NUM then
    if hid : (d.usedElems ⟨d.usedIdx.toNat, hu⟩).toNat < NUM then
      let info := d.info ⟨(d.usedElems ⟨d.usedIdx.toNat, hu⟩).toNat, hid⟩
      if info.status ≠ 0 then .error (.panic "virtio_disk_intr status")
      else match info.b with
        | none => .error .null
        | some b => .ok (b, { d with
            busy := update d.busy b false
            usedIdx := (d.usedIdx + 1) % BitVec.ofNat 16 NUM })
    else .error .range
  else .error .range

/-! ## Steps of the device -/

omit [DecidableEq B]

/-- Take the next head of the avail ring. -/
def take (d : Vdisk Tid B) : Option (Vdisk Tid B) :=
  if d.lastAvail = d.availIdx then none
  else some { d with
    taken := d.taken ++ [d.availRing (RingBuffer.slot NUM d.lastAvail)]
    lastAvail := d.lastAvail + 1 }

/-- The descriptor that follows in a chain. -/
def nextDesc (d : Vdisk Tid B) (v : VRingDesc B) : Except VFault (VRingDesc B) :=
  if v.flags &&& VRING_DESC_F_NEXT ≠ 0 then
    if h : v.next.toNat < NUM then .ok (d.desc ⟨v.next.toNat, h⟩) else .error .range
  else .error .badChain

/-- What the device reads from a chain: the request, and where its status goes. -/
def readChain (d : Vdisk Tid B) (head : BitVec 16) : Except VFault (Req B × Fin NUM) := do
  if h : head.toNat < NUM then
    let v0 := d.desc ⟨head.toNat, h⟩
    let v1 ← d.nextDesc v0
    let v2 ← d.nextDesc v1
    match v0.addr, v1.addr, v2.addr with
    | .buf0 r, .data _, .status i => .ok (r, i)
    | _, _, _ => .error .badChain
  else .error .range

/-- Serve a head: do the transfer, write status 0, and write the element of the used ring. -/
def serve (d : Vdisk Tid B) (head : BitVec 16) : Except VFault (Vdisk Tid B) := do
  let (r, i) ← d.readChain head
  .ok { d with
    info := update d.info i { d.info i with status := 0 }
    usedElems :=
      update d.usedElems (RingBuffer.slot NUM d.usedId) (head.setWidth 32)
    taken := d.taken.erase head
    serving := some (head, r) }

end Vdisk

/-! ## Threads -/

inductive VPc (B : Type)
  | idle
  /-- `virtio_disk_rw` before `acquire`. -/
  | rwStart (r : Req B)
  /-- At the first loop, with the lock. -/
  | rwAlloc (r : Req B)
  /-- In `sleep(&disk.free[0], &disk.vdisk_lock)`. -/
  | rwAllocSleep (r : Req B)
  /-- With three descriptors. -/
  | rwFormat (r : Req B) (x : Idx)
  /-- Before the head is written to `avail`. -/
  | rwPublish (r : Req B) (x : Idx)
  /-- Before `avail[1]` is incremented. -/
  | rwNotify (r : Req B) (x : Idx)
  /-- At the second loop, with the lock. -/
  | rwWait (r : Req B) (x : Idx)
  /-- In `sleep(b, &disk.vdisk_lock)`. -/
  | rwWaitSleep (r : Req B) (x : Idx)
  /-- After the second loop. -/
  | rwFree (r : Req B) (x : Idx)
  /-- `virtio_disk_intr` before `acquire`. -/
  | intrStart
  /-- At the loop of `virtio_disk_intr`, with the lock. -/
  | intrLoop

inductive VEvent (B : Type)
  | quiet
  /-- The device has finished a request. -/
  | finished (r : Req B)
  /-- `virtio_disk_intr` has told the owner of `b`. -/
  | consumed (b : B)
  /-- `virtio_disk_intr` returns. -/
  | drained
  /-- `virtio_disk_rw` returns. -/
  | returned (r : Req B)

structure VState (Tid B : Type) where
  disk : Vdisk Tid B
  pc : Tid → VPc B

namespace VState

variable {Tid B : Type} [DecidableEq Tid] [DecidableEq B]

/-- The state with thread `t` at `pc` and another disk. -/
def goto (s : VState Tid B) (t : Tid) (pc : VPc B) (d : Vdisk Tid B) : VState Tid B :=
  ⟨d, update s.pc t pc⟩

/-- What a thread or the device can do next: nothing, a step, or a fault. -/
abbrev Next (Tid B : Type) := Option (Except VFault (VEvent B × VState Tid B))

/-- Take the lock and go to `pc`; the thread waits if somebody has it. -/
def acquire (s : VState Tid B) (t : Tid) (pc : VPc B) : Next Tid B :=
  if s.disk.vdiskLock = none then
    some (.ok (.quiet, s.goto t pc { s.disk with vdiskLock := some t }))
  else none

/-- One turn of the first loop of `virtio_disk_rw`. -/
def allocTurn (s : VState Tid B) (t : Tid) (r : Req B) :
    Except VFault (VEvent B × VState Tid B) := do
  match ← s.disk.alloc3Desc with
  | (some x, d) => .ok (.quiet, s.goto t (.rwFormat r x) d)
  | (none, d) => .ok (.quiet, s.goto t (.rwAllocSleep r) { d with vdiskLock := none })

/-- One turn of the second loop of `virtio_disk_rw`. -/
def waitTurn (s : VState Tid B) (t : Tid) (r : Req B) (x : Idx) : VState Tid B :=
  if s.disk.busy r.b = true then s.goto t (.rwWaitSleep r x) { s.disk with vdiskLock := none }
  else s.goto t (.rwFree r x) s.disk

def freeTurn (s : VState Tid B) (t : Tid) (r : Req B) (x : Idx) :
    Except VFault (VEvent B × VState Tid B) := do
  let d ← s.disk.finishRw x
  .ok (.returned r, s.goto t .idle d)

/-- One turn of the loop of `virtio_disk_intr`. -/
def intrStep (s : VState Tid B) (t : Tid) : Except VFault (VEvent B × VState Tid B) :=
  if s.disk.usedIdx.toNat % NUM ≠ s.disk.usedId.toNat % NUM then do
    let (b, d) ← s.disk.intrTurn
    .ok (.consumed b, s.goto t .intrLoop d)
  else .ok (.drained, s.goto t .idle { s.disk with vdiskLock := none })

def advance (s : VState Tid B) (t : Tid) : Next Tid B :=
  match s.pc t with
  | .idle => none
  | .rwStart r => s.acquire t (.rwAlloc r)
  | .rwAlloc r => some (s.allocTurn t r)
  | .rwAllocSleep r => s.acquire t (.rwAlloc r)
  | .rwFormat r x => some (.ok (.quiet, s.goto t (.rwPublish r x) (s.disk.format r x)))
  | .rwPublish r x => some (.ok (.quiet, s.goto t (.rwNotify r x) (s.disk.publish x)))
  | .rwNotify r x => some (.ok (.quiet,
      s.goto t (.rwWait r x) { s.disk with availIdx := s.disk.availIdx + 1 }))
  | .rwWait r x => some (.ok (.quiet, s.waitTurn t r x))
  | .rwWaitSleep r x => s.acquire t (.rwWait r x)
  | .rwFree r x => some (s.freeTurn t r x)
  | .intrStart => s.acquire t .intrLoop
  | .intrLoop => some (s.intrStep t)

inductive DevAct
  | take
  | serve (head : BitVec 16)
  /-- Increment `used->id`. -/
  | count

omit [DecidableEq Tid] [DecidableEq B] in
/-- The next step of the device. It serves the heads that it has taken in any order. -/
def device (s : VState Tid B) : DevAct → Next Tid B
  | .take => s.disk.take.map fun d => .ok (.quiet, { s with disk := d })
  | .serve head =>
    if head ∈ s.disk.taken ∧ s.disk.serving.isNone then
      some ((s.disk.serve head).map fun d => (.quiet, { s with disk := d }))
    else none
  | .count => s.disk.serving.map fun hr =>
      .ok (.finished hr.2,
        { s with disk := { s.disk with usedId := s.disk.usedId + 1, serving := none } })

end VState

/-! ## Runs -/

def VPc.req {B : Type} : VPc B → Option (Req B)
  | .rwStart r | .rwAlloc r | .rwAllocSleep r | .rwFormat r _ | .rwPublish r _ | .rwNotify r _
  | .rwWait r _ | .rwWaitSleep r _ | .rwFree r _ => some r
  | .idle | .intrStart | .intrLoop => none

/-- A system of threads and a device, with its history. -/
structure VWorld (Tid B : Type) where
  st : VState Tid B
  /-- Number of calls of `virtio_disk_rw` so far. -/
  calls : Nat
  finished : List (Req B)
  /-- What `virtio_disk_intr` has passed on. -/
  consumed : List B
  returned : List (Req B)

def VWorld.note {Tid B : Type} (w : VWorld Tid B) (s' : VState Tid B) : VEvent B → VWorld Tid B
  | .quiet | .drained => { w with st := s' }
  | .finished r => { w with st := s', finished := w.finished ++ [r] }
  | .consumed b => { w with st := s', consumed := w.consumed ++ [b] }
  | .returned r => { w with st := s', returned := w.returned ++ [r] }

variable {Tid B : Type} [DecidableEq Tid] [DecidableEq B]

/-- A step: a thread calls `virtio_disk_rw` with a buffer that no other call has, an interrupt comes,
a thread goes on, or the device does. -/
inductive VStep : VWorld Tid B → VWorld Tid B → Prop
  | call {w : VWorld Tid B} (t : Tid) (b : B) (write : Bool) (hidle : w.st.pc t = .idle)
      (hown : ∀ u r, (w.st.pc u).req = some r → r.b ≠ b) :
      VStep w { w with
        st := w.st.goto t (.rwStart ⟨w.calls, b, write⟩) w.st.disk, calls := w.calls + 1 }
  | intr {w : VWorld Tid B} (t : Tid) (hidle : w.st.pc t = .idle) :
      VStep w { w with st := w.st.goto t .intrStart w.st.disk }
  | run {w : VWorld Tid B} (t : Tid) {e : VEvent B} {s' : VState Tid B}
      (h : w.st.advance t = some (.ok (e, s'))) : VStep w (w.note s' e)
  | device {w : VWorld Tid B} (a : VState.DevAct) {e : VEvent B} {s' : VState Tid B}
      (h : w.st.device a = some (.ok (e, s'))) : VStep w (w.note s' e)

/-- The states after `virtio_disk_init`. -/
def VReach (w : VWorld Tid B) : Prop :=
  Relation.ReflTransGen VStep ⟨⟨.init, fun _ => .idle⟩, 0, [], [], []⟩ w

end Xv6
