import Xv6.Lib.RingBuffer

/-!
# The transmit buffer of the UART

`uartputc`, `uartputc_sync`, `uartstart` and `uartintr` of `uart.c` as threads run them; an
interrupt handler is a thread of its own. `uart_tx_lock` is held from one round of the loop in
`uartstart` to the next. What `ReadReg(LSR)` shows is up to the device.
-/

namespace Xv6.Uart

open Function RingBuffer

abbrev UART_TX_BUF_SIZE : Nat := 32

instance : NeZero UART_TX_BUF_SIZE := ⟨by decide⟩

/-- Where a thread is: `putc c` before it has the lock in `uartputc(c)`, `start` at the loop of
`uartstart`. -/
inductive Pc
  | out
  | putc (c : BitVec 8)
  | asleep (c : BitVec 8)
  | start

/-- The effect of `wakeup(&uart_tx_r)`, or of `kill`, on a thread. -/
def Pc.woken : Pc → Pc
  | .asleep c => .putc c
  | k => k

/-- The indices stay below `UART_TX_BUF_SIZE`. Beside the variables of the source, `thr` has what
was written to the register and whether it comes from the buffer, and `accepted` what `uartputc` has
buffered. -/
structure State (Tid : Type) where
  txBuf : Fin UART_TX_BUF_SIZE → BitVec 8
  txW : BitVec 5
  txR : BitVec 5
  txLock : Option Tid
  pc : Tid → Pc
  thr : List (BitVec 8 × Bool)
  accepted : List (BitVec 8)

variable {Tid : Type}

namespace State

def init : State Tid := ⟨fun _ => 0, 0, 0, none, fun _ => .out, [], []⟩

def pending (s : State Tid) : List (BitVec 8) := contents s.txBuf s.txR s.txW

variable [DecidableEq Tid]

def goto (s : State Tid) (t : Tid) (k : Pc) : State Tid := { s with pc := update s.pc t k }

/-- `uartputc` with the lock, up to its `sleep` or to its call of `uartstart`. -/
def uartputc (s : State Tid) (t : Tid) (c : BitVec 8) : State Tid :=
  if s.txW + 1 = s.txR then s.goto t (.asleep c)
  else
    { s.goto t .start with
      txBuf := update s.txBuf (slot _ s.txW) c
      txW := s.txW + 1
      txLock := some t
      accepted := s.accepted ++ [c] }

/-- A round of the loop in `uartstart`, where LSR shows `idle`. After the last one the lock is
released. -/
def uartstart (s : State Tid) (t : Tid) (idle : Bool) : State Tid :=
  if s.txW = s.txR ∨ idle = false then { s.goto t .out with txLock := none }
  else
    { s with
      txR := s.txR + 1
      pc := fun u => (s.pc u).woken
      thr := s.thr ++ [(s.txBuf (slot _ s.txR), true)] }

end State

variable [DecidableEq Tid] {s s' : State Tid}

inductive Step (s : State Tid) : State Tid → Prop
  | call (t : Tid) (c : BitVec 8) (h : s.pc t = .out) : Step s (s.goto t (.putc c))
  | putc (t : Tid) (c : BitVec 8) (h : s.pc t = .putc c) (hl : s.txLock = none) :
    Step s (s.uartputc t c)
  | intr (t : Tid) (h : s.pc t = .out) (hl : s.txLock = none) :
    Step s { s.goto t .start with txLock := some t }
  | start (t : Tid) (idle : Bool) (h : s.pc t = .start) : Step s (s.uartstart t idle)
  /-- `uartputc_sync` takes no lock. -/
  | sync (c : BitVec 8) : Step s { s with thr := s.thr ++ [(c, false)] }
  | kill (t : Tid) : Step s (s.goto t (s.pc t).woken)

/-- A writer sleeps only while the buffer is full. -/
structure Inv (s : State Tid) : Prop where
  full : ∀ t c, s.pc t = .asleep c → s.txW + 1 = s.txR
  fifo : (s.thr.filter (·.2)).map (·.1) ++ s.pending = s.accepted

theorem contents_putc {data : Fin UART_TX_BUF_SIZE → BitVec 8} {r w : BitVec 5} (h : w + 1 ≠ r)
    (c : BitVec 8) : contents (update data (slot _ w) c) r (w + 1) = contents data r w ++ [c] := by
  have hlen : (w + 1 - r).toNat = (w - r).toNat + 1 := by bv_omega
  unfold contents
  rw [hlen, List.range_succ, List.map_append, List.map_singleton, add_ofNat_toNat_sub, update_self]
  congr 1
  exact contents_update (w - r).isLt (by decide) c

namespace Inv

/-- A thread goes to `k`, and the buffer stays as it is. -/
theorem goto (h : Inv s) {t : Tid} {k : Pc} {l : Option Tid}
    (hk : ∀ c, k = .asleep c → s.txW + 1 = s.txR) : Inv { s.goto t k with txLock := l } where
  full u c hu := by
    by_cases hut : u = t
    · subst hut
      exact hk c (by simpa [State.goto] using hu)
    · exact h.full u c (by simpa [State.goto, hut] using hu)
  fifo := h.fifo

theorem step (h : Inv s) (hs : Step s s') : Inv s' := by
  cases hs with
  | call | intr => exact h.goto (by rintro _ ⟨⟩)
  | kill t =>
    refine h.goto fun c hc => ?_
    cases hpc : s.pc t <;> simp [Pc.woken, hpc] at hc
  | sync c => exact ⟨h.full, by simpa [State.pending] using h.fifo⟩
  | putc t c hpc hl =>
    unfold State.uartputc
    split
    next hfull => exact h.goto fun _ _ => hfull
    next hroom =>
      refine ⟨fun u d hu => ?_, ?_⟩
      · by_cases hut : u = t
        · simp [State.goto, hut] at hu
        · exact absurd (h.full u d (by simpa [State.goto, hut] using hu)) hroom
      · show _ ++ contents (update s.txBuf _ c) s.txR (s.txW + 1) = s.accepted ++ [c]
        rw [contents_putc hroom, ← List.append_assoc]
        exact congrArg (· ++ [c]) h.fifo
  | start t idle hpc =>
    unfold State.uartstart
    split
    · exact h.goto (by rintro _ ⟨⟩)
    next hgo =>
      have hne : s.txR ≠ s.txW := fun heq => hgo (.inl heq.symm)
      refine ⟨fun u c hu => ?_, ?_⟩
      · cases hpc : s.pc u <;> simp [Pc.woken, hpc] at hu
      · have hfifo := h.fifo
        rw [State.pending, contents_pop hne] at hfifo
        simpa [State.pending] using hfifo

end Inv

/-- In every interleaving the bytes that reach the register from the buffer are those that
`uartputc` has accepted, in order, up to at most 31 that are still buffered. While a writer sleeps
there are 31. -/
theorem uart_transmits (h : Relation.ReflTransGen Step .init s) :
    (s.thr.filter (·.2)).map (·.1) ++ s.pending = s.accepted ∧ s.pending.length ≤ 31 ∧
      ∀ t c, s.pc t = .asleep c → s.pending.length = 31 := by
  have hinv : Inv s := by
    induction h with
    | refl => exact ⟨by rintro _ _ ⟨⟩, contents_eq_nil_iff.mpr rfl⟩
    | tail _ hs ih => exact ih.step hs
  simp only [State.pending, length_contents]
  refine ⟨hinv.fifo, by bv_omega, fun t c ht => ?_⟩
  have := hinv.full t c ht
  bv_omega

/-- Two threads send a character each, and the device is busy when the second one is in the buffer. -/
theorem uart_transmits_two : ∃ s : State Bool, s.thr = [(65, true)] ∧ s.accepted = [65, 66] ∧
    (s.thr.filter (·.2)).map (·.1) ++ s.pending = s.accepted :=
  ⟨_, rfl, rfl, (uart_transmits (.head (.call true 65 rfl) <| .head (.putc true 65 rfl rfl) <|
    .head (.start true true rfl) <| .head (.start true true rfl) <| .head (.call false 66 rfl) <|
    .head (.putc false 66 rfl rfl) <| .single (.start false false rfl))).1⟩

end Xv6.Uart
