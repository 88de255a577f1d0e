import Xv6.Lib.Holders
import Xv6.Proc.Proofs.Locks

/-!
# Processes and CPUs

A CPU executes a process from the moment its scheduler loads the context of the process until the
process loads the context of the scheduler. All that time the process is `RUNNING` or it holds its own
lock, so that no other scheduler can pick it.
-/

namespace Xv6

open ProcState Function

variable {Cpu X L : Type} {s s' : Kernel Cpu X L} {c c' : Cpu}

namespace Pc

/-- The process has given up the CPU and is on its way to the scheduler. -/
def leaving : Pc X → Bool
  | .exitRelease _ | .save _ | .load _ => true
  | _ => false

def isLoad : Pc X → Bool
  | .load _ => true
  | _ => false

/-- The process that a scheduler is about to start. -/
def starts : Pc X → Option Proc
  | .schedSet p | .schedSave p | .schedLoad p => some p
  | _ => none

def target : Pc X → Option Proc
  | .schedSave p | .schedLoad p | .schedBack p => some p
  | _ => none

def forking : Pc X → Option Proc
  | .forkFound np | .forkContext np | .forkCopy np | .forkParent np | .forkEnd np => some np
  | _ => none

/-- The slot that `fork` fills, once its context is set up. -/
def forked : Pc X → Option Proc
  | .forkCopy np | .forkParent np | .forkEnd np => some np
  | _ => none

def plain : Pc X → Bool
  | .exitRelease _ | .save _ | .load _ | .schedSet _ | .schedSave _ | .schedLoad _ | .schedBack _
  | .forkFound _ | .forkContext _ | .forkCopy _ | .forkParent _ | .forkEnd _ => false
  | _ => true

variable {pc : Pc X} {p : Proc}

attribute [local simp] Pc.open plain leaving isLoad starts target forking forked held resume ofSched

theorem plain_of_open (h : pc.open = true) : pc.plain = true := by
  cases pc <;> simp_all

section

variable (h : pc.plain = true)
include h

theorem leaving_of_plain : pc.leaving = false := by
  cases pc <;> simp_all

theorem isLoad_of_plain : pc.isLoad = false := by
  cases pc <;> simp_all

theorem starts_of_plain : pc.starts = none := by
  cases pc <;> simp_all

theorem target_of_plain : pc.target = none := by
  cases pc <;> simp_all

theorem forking_of_plain : pc.forking = none := by
  cases pc <;> simp_all

theorem forked_of_plain : pc.forked = none := by
  cases pc <;> simp_all

end

theorem mem_held_of_starts (h : pc.starts = some p) (own : List Proc) : p ∈ pc.held own := by
  cases pc <;> simp_all

theorem mem_held_of_target (h : pc.target = some p) (own : List Proc) : p ∈ pc.held own := by
  cases pc <;> simp_all

theorem mem_held_of_forking (h : pc.forking = some p) (own : List Proc) : p ∈ pc.held own := by
  cases pc <;> simp_all

theorem mem_held_of_leaving (h : pc.leaving = true) (p : Proc) : p ∈ pc.held [p] := by
  cases pc <;> simp_all

theorem leaving_of_resume (h : pc.resume = true) : pc.leaving = false := by
  cases pc <;> simp_all

theorem forking_of_resume (h : pc.resume = true) : pc.forking = none := by
  cases pc <;> simp_all

theorem forking_of_forked (h : pc.forked = some p) : pc.forking = some p := by
  cases pc <;> simp_all

theorem ofSched_of_forking (h : pc.forking = some p) : pc.ofSched = false := by
  cases pc <;> simp_all

theorem forking_of_ofSched (h : pc.ofSched = true) : pc.forking = none := by
  cases pc <;> simp_all

end Pc

/-! ## Invariants -/

/-- The process locks of the thread that `c` executes. -/
def Kernel.heldAt (s : Kernel Cpu X L) (c : Cpu) : List Proc := (s.exec c).held (s.pc (s.exec c))

/-- The other spinlock of the thread that `c` executes. -/
def Kernel.lkAt (lkOf : X → L) (s : Kernel Cpu X L) (c : Cpu) : List L :=
  ((s.pc (s.exec c)).heldLk lkOf).toList

/-- Threads hold the locks that their places say. -/
structure Locks (lkOf : X → L) (s : Kernel Cpu X L) : Prop where
  of : ∀ th, (s.pc th).of th
  proc : Holders (fun q => (s.slot q).lock) s.heldAt
  lk : Holders s.lk (s.lkAt lkOf)

structure Running (s : Kernel Cpu X L) : Prop where
  own : ∀ {c c'}, s.exec c = .sched c' → c' = c
  inj : ∀ {c c'}, s.exec c = s.exec c' → c = c'
  proc : ∀ {c p}, s.exec c = .proc p → s.cproc c = some p ∧ s.pc (.sched c) = .schedBack p
  idle : ∀ {c}, s.exec c = .sched c → s.cproc c = (s.pc (.sched c)).target
  active : ∀ {c p}, s.exec c = .proc p →
    ((s.slot p).state = RUNNING ↔ (s.pc (.proc p)).leaving = false)
  running : ∀ {p}, (s.slot p).state = RUNNING →
    ∃ c, s.exec c = .proc p ∨ (s.exec c = .sched c ∧ (s.pc (.sched c)).starts = some p)
  starts : ∀ {c p}, s.exec c = .sched c → (s.pc (.sched c)).starts = some p →
    (s.slot p).state = RUNNING
  apart : ∀ {c p}, s.exec c = .sched c →
    (s.pc (.sched c)).starts = some p ∨ (s.pc (.sched c)).target = some p →
    ∀ c', s.exec c' ≠ .proc p
  resume : ∀ {p}, (∀ c, s.exec c ≠ .proc p) → (s.pc (.proc p)).resume = true
  saved : ∀ {p}, (∀ c, s.exec c ≠ .proc p) → (s.slot p).state ≠ UNUSED → s.saved (.proc p) = true
  loading : ∀ {c p}, s.exec c = .proc p → (s.pc (.proc p)).isLoad = true → s.saved (.proc p) = true
  forking : ∀ {p np}, (s.pc (.proc p)).forking = some np → (s.slot np).state = UNUSED
  forked : ∀ {p np}, (s.pc (.proc p)).forked = some np → s.saved (.proc np) = true

/-- The invariant of the table, the locks and the CPUs. -/
structure KInv (lkOf : X → L) (s : Kernel Cpu X L) : Prop where
  locks : Locks lkOf s
  running : Running s

/-! ## Instructions that do not switch threads -/

/-- CPU `c` has gone on to `k`, and what other CPUs execute is where it was. -/
structure Moves (s : Kernel Cpu X L) (c : Cpu) (k : Pc X) (s' : Kernel Cpu X L) : Prop where
  exec : s'.exec = s.exec
  here : s'.pc (s.exec c) = k
  others : ∀ th, th ≠ s.exec c → s'.pc th = s.pc th ∨
    ∃ np, th = .proc np ∧ (∀ c', s.exec c' ≠ th) ∧ s'.pc th = .forkret

namespace Moves

variable {k : Pc X}

section
variable (h : Moves s c k s')
include h

theorem pc_exec (hinj : ∀ {c c'}, s.exec c = s.exec c' → c = c')
    (hc : c' ≠ c) : s'.pc (s.exec c') = s.pc (s.exec c') := by
  rcases h.others (s.exec c') fun heq => hc (hinj heq) with heq | ⟨np, -, hno, -⟩
  · exact heq
  · exact absurd rfl (hno c')

theorem pc_sched (hc : .sched c' ≠ s.exec c) :
    s'.pc (.sched c') = s.pc (.sched c') := by
  rcases h.others (.sched c') hc with heq | ⟨np, hnp, -⟩
  · exact heq
  · cases hnp

theorem pc_proc {p : Proc} (hp : .proc p ≠ s.exec c) :
    s'.pc (.proc p) = s.pc (.proc p) ∨ s'.pc (.proc p) = .forkret := by
  rcases h.others (.proc p) hp with heq | ⟨np, -, -, heq⟩
  · exact .inl heq
  · exact .inr heq

end

variable [DecidableEq Cpu]

theorem heldAt_eq (h : Moves s c k s') (hinj : ∀ {c c'}, s.exec c = s.exec c' → c = c') :
    s'.heldAt = update s.heldAt c ((s.exec c).held k) := by
  funext c'
  unfold Kernel.heldAt
  rw [h.exec]
  by_cases hc : c' = c
  · rw [hc, update_self, h.here]
  · rw [update_of_ne hc, h.pc_exec hinj hc]

theorem lkAt_eq (h : Moves s c k s') (lkOf : X → L)
    (hinj : ∀ {c c'}, s.exec c = s.exec c' → c = c') :
    s'.lkAt lkOf = update (s.lkAt lkOf) c (k.heldLk lkOf).toList := by
  funext c'
  unfold Kernel.lkAt
  rw [h.exec]
  by_cases hc : c' = c
  · rw [hc, update_self, h.here]
  · rw [update_of_ne hc, h.pc_exec hinj hc]

end Moves

/-- Instructions other than the second half of `swtch`. -/
def Instr.stays : Instr Cpu X L → Bool
  | .load _ _ => false
  | _ => true

def Instr.sets : Instr Cpu X L → Bool
  | .setProc _ _ => true
  | _ => false

/-- The slot that an instruction changes with its lock held. -/
def Instr.wrote : Instr Cpu X L → Option (Proc × ProcSlot Cpu X)
  | .write q new _ _ | .release q new _ _ => some (q, new)
  | _ => none

section
variable [DecidableEq Cpu] [DecidableEq X] [DecidableEq L] {lkOf : X → L} {i : Instr Cpu X L}

section

variable (hi : s.instr c (s.exec c) i = some s')
include hi

theorem Kernel.instr_here : s'.pc (s.exec c) = i.next := by
  cases i with
  | acquire q k | acquireLk l k =>
    simp only [instr] at hi
    split at hi <;> cases hi
    exact update_self ..
  | _ =>
    cases hi
    exact update_self ..

theorem Kernel.instr_pc {th : Thread Cpu} (hth : th ≠ s.exec c) :
    s'.pc th = s.pc th ∨ ∃ np k, i = .context np k ∧ th = .proc np ∧ s'.pc th = .forkret := by
  cases i with
  | acquire q k | acquireLk l k =>
    simp only [instr] at hi
    split at hi <;> cases hi
    exact .inl (update_of_ne hth ..)
  | context np k =>
    cases hi
    by_cases hnp : th = .proc np
    · refine .inr ⟨np, k, rfl, hnp, ?_⟩
      show update (update s.pc (.proc np) .forkret) (s.exec c) k th = _
      rw [update_of_ne hth, hnp, update_self]
    · refine .inl ?_
      show update (update s.pc (.proc np) .forkret) (s.exec c) k th = _
      rw [update_of_ne hth, update_of_ne hnp]
  | _ =>
    cases hi
    exact .inl (update_of_ne hth ..)

theorem Kernel.instr_moves (hstay : i.stays = true)
    (hnew : ∀ np k, i = .context np k → ∀ c', s.exec c' ≠ .proc np) : Moves s c i.next s' := by
  refine ⟨?_, instr_here hi, fun th hth => ?_⟩
  · cases i with
    | acquire q k | acquireLk l k =>
      simp only [instr] at hi
      split at hi <;> cases hi
      rfl
    | load th k => cases hstay
    | _ =>
      cases hi
      rfl
  · rcases instr_pc hi hth with heq | ⟨np, k, hctx, hnp, heq⟩
    · exact .inl heq
    · exact .inr ⟨np, hnp, fun c' => hnp ▸ hnew np k hctx c', heq⟩

/-- What an instruction leaves in a field of the slots, other than those that it may change by itself. -/
theorem Kernel.instr_slot {α : Type} (f : ProcSlot Cpu X → α)
    (hlock : ∀ sl l, f { sl with lock := l } = f sl) (hpid : ∀ sl n, f { sl with pid := n } = f sl)
    (hofile : ∀ sl b, f { sl with ofile := b } = f sl) (r : Proc) :
    f (s'.slot r) = match i.wrote with
      | some (q, new) => if r = q then f new else f (s.slot r)
      | none => f (s.slot r) := by
  have hupdate : ∀ q new, f (update s.slot q new r) =
      if r = q then f new else f (s.slot r) := by
    intro q new
    by_cases hr : r = q
    · rw [hr, update_self, if_pos rfl]
    · rw [update_of_ne hr, if_neg hr]
  have hsame : ∀ q new, f new = f (s.slot q) → f (update s.slot q new r) = f (s.slot r) := by
    intro q new hnew
    rw [hupdate]
    split
    next hr => rw [hr, hnew]
    · rfl
  cases i with
  | acquire q k =>
    simp only [instr] at hi
    split at hi <;> cases hi
    exact hsame _ _ (hlock _ _)
  | acquireLk l k =>
    simp only [instr] at hi
    split at hi <;> cases hi
    rfl
  | write q new fl k | release q new fl k =>
    cases hi
    refine (hupdate _ _).trans ?_
    rw [hlock]
    rfl
  | allocpid np k =>
    cases hi
    exact hsame _ _ (hpid _ _)
  | closeFiles p k =>
    cases hi
    exact hsame _ _ (hofile _ _)
  | _ =>
    cases hi
    rfl

theorem Kernel.instr_state (r : Proc) : (s'.slot r).state = match i.wrote with
      | some (q, new) => if r = q then new.state else (s.slot r).state
      | none => (s.slot r).state :=
  instr_slot hi ProcSlot.state (fun _ _ => rfl) (fun _ _ => rfl) (fun _ _ => rfl) r

theorem Kernel.instr_saved (hstay : i.stays = true) {p : Proc} (h : s.saved (.proc p) = true) :
    s'.saved (.proc p) = true := by
  have hupdate : ∀ th, update s.saved th true (.proc p) = true := by
    intro th
    by_cases hth : .proc p = th
    · rw [← hth, update_self]
    · rw [update_of_ne hth, h]
  cases i with
  | acquire q k | acquireLk l k =>
    simp only [instr] at hi
    split at hi <;> cases hi
    exact h
  | context np k | save k =>
    cases hi
    exact hupdate _
  | load th k => cases hstay
  | _ =>
    cases hi
    exact h

theorem Kernel.instr_cproc (hset : i.sets = false) : s'.cproc = s.cproc := by
  cases i with
  | acquire q k | acquireLk l k =>
    simp only [instr] at hi
    split at hi <;> cases hi
    rfl
  | setProc o k => cases hset
  | _ =>
    cases hi
    rfl

end

theorem Locks.instr (h : Locks lkOf s) (hinj : ∀ {c c'}, s.exec c = s.exec c' → c = c')
    (hi : s.instr c (s.exec c) i = some s') (hstay : i.stays = true)
    (hfits : i.Fits lkOf (s.exec c) (s.pc (s.exec c))) (hmoves : Moves s c i.next s') :
    Locks lkOf s' := by
  have hheld := hmoves.heldAt_eq hinj
  have hlk := hmoves.lkAt_eq lkOf hinj
  have hof : ∀ th, (s'.pc th).of th := by
    intro th
    by_cases hth : th = s.exec c
    · rw [hth, hmoves.here]
      exact hfits.of
    · rcases hmoves.others th hth with heq | ⟨np, rfl, -, heq⟩
      · rw [heq]
        exact h.of th
      · rw [heq]
        rfl
  -- what an instruction leaves alone
  have hsameHeld : (s.exec c).held i.next = s.heldAt c → s'.heldAt = s.heldAt := fun heq => by
    rw [hheld, heq, update_eq_self]
  have hsameLk : i.next.heldLk lkOf = (s.pc (s.exec c)).heldLk lkOf → s'.lkAt lkOf = s.lkAt lkOf :=
    fun heq => by
      rw [hlk, heq]
      exact update_eq_self ..
  have hlocks : ∀ q new, (fun r => (update s.slot q new r).lock) =
      update (fun r => (s.slot r).lock) q new.lock := by
    intro q new
    funext r
    by_cases hr : r = q
    · rw [hr, update_self, update_self]
    · rw [update_of_ne hr, update_of_ne hr]
  have hkeeps := hfits.keeps
  cases i with
  | jump k | setProc p k | save k =>
    cases hi
    refine ⟨hof, ?_, ?_⟩
    · rw [hsameHeld hkeeps.1]
      exact h.proc
    · rw [hsameLk hkeeps.2]
      exact h.lk
  | acquire q k =>
    simp only [Kernel.instr] at hi
    split at hi <;> cases hi
    rename_i hfree
    refine ⟨hof, ?_, ?_⟩
    · rw [hheld]
      show Holders (fun r => (update s.slot q _ r).lock) _
      rw [hlocks]
      exact h.proc.acquire hfree hkeeps.1
    · rw [hsameLk hkeeps.2]
      exact h.lk
  | release q new fl k =>
    cases hi
    refine ⟨hof, ?_, ?_⟩
    · rw [hheld]
      show Holders (fun r => (update s.slot q _ r).lock) _
      rw [hlocks]
      exact h.proc.release hkeeps.1
    · rw [hsameLk hkeeps.2]
      exact h.lk
  | write q new fl k =>
    cases hi
    refine ⟨hof, ?_, ?_⟩
    · rw [hsameHeld hkeeps.2.1]
      show Holders (fun r => (update s.slot q _ r).lock) _
      rw [hlocks, update_eq_self_iff.mpr rfl]
      exact h.proc
    · rw [hsameLk hkeeps.2.2]
      exact h.lk
  | allocpid np k =>
    cases hi
    refine ⟨hof, ?_, ?_⟩
    · rw [hsameHeld hkeeps.2.1]
      show Holders (fun r => (update s.slot np _ r).lock) _
      rw [hlocks, update_eq_self_iff.mpr rfl]
      exact h.proc
    · rw [hsameLk hkeeps.2.2]
      exact h.lk
  | closeFiles p k =>
    cases hi
    refine ⟨hof, ?_, ?_⟩
    · rw [hsameHeld hkeeps.1]
      show Holders (fun r => (update s.slot p _ r).lock) _
      rw [hlocks, update_eq_self_iff.mpr rfl]
      exact h.proc
    · rw [hsameLk hkeeps.2]
      exact h.lk
  | context np k | setCond x v k =>
    cases hi
    refine ⟨hof, ?_, ?_⟩
    · rw [hsameHeld hkeeps.2.1]
      exact h.proc
    · rw [hsameLk hkeeps.2.2]
      exact h.lk
  | acquireLk l k =>
    simp only [Kernel.instr] at hi
    split at hi <;> cases hi
    rename_i hfree
    refine ⟨hof, ?_, ?_⟩
    · rw [hsameHeld hkeeps.1]
      exact h.proc
    · rw [hlk]
      refine h.lk.acquire hfree ?_
      show (k.heldLk lkOf).toList.Perm (l :: ((s.pc (s.exec c)).heldLk lkOf).toList)
      rw [hkeeps.2.1, hkeeps.2.2]
      rfl
  | releaseLk l k =>
    cases hi
    refine ⟨hof, ?_, ?_⟩
    · rw [hsameHeld hkeeps.1]
      exact h.proc
    · rw [hlk]
      refine h.lk.release ?_
      show ((s.pc (s.exec c)).heldLk lkOf).toList = l :: (k.heldLk lkOf).toList
      rw [hkeeps.2.1, hkeeps.2.2]
      rfl
  | load th k => cases hstay

end

end Xv6
