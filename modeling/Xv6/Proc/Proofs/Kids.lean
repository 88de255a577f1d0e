import Xv6.Proc.Proofs.Slots

/-!
# Whose child a slot is

The parent of a slot is what the code that looks at children takes it for: `reparent` gives away, and
`wait` looks at, children of the process itself.
-/

namespace Xv6

open ProcState

variable {Cpu X L : Type} {addr : Nat} {flags : BitVec 32}

structure Kids (s : Kernel Cpu X L) : Prop where
  unused : ∀ {r}, (s.slot r).state = UNUSED → (∀ p, s.pc (.proc p) ≠ .forkEnd r) →
    (s.slot r).parent = none
  ending : ∀ {p r}, s.pc (.proc p) = .forkEnd r → (s.slot r).parent = some p
  giving : ∀ {p status op r}, s.pc (.proc p) = .exitGive status op r → (s.slot r).parent = some p
  looking : ∀ {p addr flags r}, s.pc (.proc p) = .waitHeld addr flags r →
    (s.slot r).parent = some p
  kids : ∀ {p addr flags n}, s.pc (.proc p) = .waitScan addr flags n true →
    ∃ r, (s.slot r).parent = some p

section
variable {lkOf : X → L} {s s' : Kernel Cpu X L}
  {c : Cpu} {p q r : Proc} {i : Instr Cpu X L} {e : ProcEvent}

theorem Kernel.waitCode_next {pc : Pc X} {a : Act X} (h : s.waitCode p pc a = some (e, i)) :
    (∀ addr flags, i.next = .waitHeld addr flags r →
      ∃ n havekids, pc = .waitScan addr flags n havekids ∧ (s.slot r).parent = some p) ∧
    ∀ addr flags n, i.next = .waitScan addr flags n true →
      (∃ m, pc = .waitScan addr flags m true) ∨ ∃ j, pc = .waitHeld addr flags j := by
  cases pc with
  | wait addr flags | waitDone | waitEnd addr flags | forkret =>
    cases h
    exact ⟨by rintro _ _ ⟨⟩, by rintro _ _ _ ⟨⟩⟩
  | waitScan addr flags j havekids =>
    simp only [waitCode, Option.some.injEq, scan, waitRest] at h
    split at h
    · split at h <;> cases h
      next hparent =>
        refine ⟨?_, by rintro _ _ _ ⟨⟩⟩
        rintro _ _ ⟨⟩
        exact ⟨j, havekids, rfl, hparent⟩
      · refine ⟨by rintro _ _ ⟨⟩, ?_⟩
        rintro _ _ _ ⟨⟩
        exact .inl ⟨j, rfl⟩
    · split at h
      · cases h
        exact ⟨by rintro _ _ ⟨⟩, by rintro _ _ _ ⟨⟩⟩
      · split at h <;> cases h <;> exact ⟨by rintro _ _ ⟨⟩, by rintro _ _ _ ⟨⟩⟩
  | waitHeld addr flags j =>
    cases a with
    | go =>
      simp only [waitCode, waitChild] at h
      split at h <;> cases h
      · exact ⟨by rintro _ _ ⟨⟩, by rintro _ _ _ ⟨⟩⟩
      · refine ⟨by rintro _ _ ⟨⟩, ?_⟩
        rintro _ _ _ ⟨⟩
        exact .inr ⟨j, rfl⟩
    | fail =>
      simp only [waitCode, waitChild] at h
      split at h <;> cases h
      exact ⟨by rintro _ _ ⟨⟩, by rintro _ _ _ ⟨⟩⟩
    | _ => cases h
  | _ => cases h

variable [DecidableEq Cpu] [DecidableEq X] [DecidableEq L]

namespace Kids

omit [DecidableEq Cpu] [DecidableEq X] [DecidableEq L] in
theorem used (h : Kids s) (hparent : (s.slot r).parent = some p)
    (hpc : s.pc (.proc p) ≠ .forkEnd r) : (s.slot r).state ≠ UNUSED := by
  intro hunused
  by_cases hend : ∃ q, s.pc (.proc q) = .forkEnd r
  · obtain ⟨q, hq⟩ := hend
    rw [h.ending hq] at hparent
    cases hparent
    exact hpc hq
  · rw [h.unused hunused fun q hq => hend ⟨q, hq⟩] at hparent
    cases hparent

section
variable (hinv : KInv lkOf s) (hcode : Code lkOf s c (s.exec c) e i)
  (hi : s.instr c (s.exec c) i = some s') (h : Kids s)
include hinv hcode hi h

/-- A child in use keeps its parent, unless the parent gives it away. -/
theorem parent_kept (hused : (s.slot r).state ≠ UNUSED) (hparent : (s.slot r).parent = some p)
    (hgive : s.exec c = .proc p → ∀ status op, s.pc (.proc p) ≠ .exitGive status op r) :
    (s'.slot r).parent = some p := by
  cases hcode.change_slot hi r with
  | freed hpc => exact absurd (hinv.unused_of_forking hpc) hused
  | forked _ hpc => exact absurd (hinv.unused_of_forking (by rw [hpc]; rfl)) hused
  | given hth hpc =>
    rw [hth] at hpc
    rw [h.giving hpc] at hparent
    cases hparent
    exact absurd hpc (hgive hth _ _)
  | same _ _ hp | woken _ _ hp | picked _ _ hp | yields _ _ hp | sleeps _ _ _ _ hp
  | waits _ _ _ _ _ _ hp | wakes _ _ _ hp | born _ _ hp | dies _ _ _ hp => exact hp.trans hparent

theorem step_unused (hr : (s'.slot r).state = UNUSED)
    (hno : ∀ p, s'.pc (.proc p) ≠ .forkEnd r) : (s'.slot r).parent = none := by
  have hunused : (s.slot r).state = UNUSED := by
    by_contra hused
    exact (hinv.used hcode hi hused).1 hr
  have htends := hcode.tends (hinv.locks.of _)
  -- who was at the end of `fork` for the slot has not made it runnable
  have hend : ∀ p, s.pc (.proc p) ≠ .forkEnd r := by
    intro p hp
    by_cases hth : .proc p = s.exec c
    · rw [hth] at hp
      cases hcode.touch hi (hinv.locks.of _) hunused with
      | same _ hgo =>
        rcases Pc.filling_or_forkEnd (hgo (by rw [hp]; rfl)).1 with hfill | hend
        · rcases htends.filling r hfill with hpc | ⟨hpc, -⟩ <;> rw [hp] at hpc <;> cases hpc
        · have hpc := htends.ending r hend
          rw [hp] at hpc
          cases hpc
      | own hexec hleave => exact hinv.used_of_exec hexec hleave hunused
      | born _ hstate =>
        rw [hr] at hstate
        cases hstate
      | kill hpc | give hpc | noFrame hpc | found hpc | freed hpc | fill hpc | forked _ hpc =>
        rw [hp] at hpc
        cases hpc
    · have heq := hinv.forking_other hcode hi hth (by rw [hp]; rfl)
      exact hno p (heq.trans hp)
  have hnone := h.unused hunused hend
  cases hcode.touch hi (hinv.locks.of _) hunused with
  | same hnew | found _ _ hnew =>
    rw [hnew]
    exact hnone
  | own hexec hleave => exact absurd hunused (hinv.used_of_exec hexec hleave)
  | kill _ _ hp | noFrame _ _ hp | fill _ _ hp => exact hp.trans hnone
  | give hpc =>
    obtain ⟨p, hexec⟩ := hinv.exec_proc (by rw [hpc]; rfl)
    have := h.giving (hexec ▸ hpc)
    rw [hnone] at this
    cases this
  | freed _ _ hnew =>
    rw [hnew]
    rfl
  | @forked p hth _ hnext => exact absurd (by rw [← hth, Kernel.instr_here hi, hnext]) (hno p)
  | born _ hstate =>
    rw [hr] at hstate
    cases hstate

theorem step_ending (hp : s'.pc (.proc p) = .forkEnd r) : (s'.slot r).parent = some p := by
  rcases hinv.pc_cases hcode hi hp nofun with ⟨hth, hp⟩ | ⟨hth, hp⟩
  · have hpc := (hcode.tends (hinv.locks.of _)).ending r hp
    have hunused := hinv.unused_of_forking (show (s.pc (s.exec c)).forking = some r by rw [hpc]; rfl)
    cases hcode.touch hi (hinv.locks.of _) hunused with
    | same _ hgo => exact absurd hpc (hgo (by rw [hpc]; rfl)).2
    | own hexec hleave => exact absurd hunused (hinv.used_of_exec hexec hleave)
    | fill _ hnext | freed _ hnext =>
      rw [hp] at hnext
      cases hnext
    | forked hexec _ _ hparent =>
      rw [← hth] at hexec
      cases hexec
      exact hparent
    | kill hpc' | give hpc' | noFrame hpc' | found hpc' | born hpc' =>
      rw [hpc] at hpc'
      cases hpc'
  · rw [hinv.touch_other hcode hi hth (by rw [hp]; rfl)]
    exact h.ending hp

theorem step_giving {status : BitVec 32} {op : Proc}
    (hp : s'.pc (.proc p) = .exitGive status op r) : (s'.slot r).parent = some p := by
  rcases hinv.pc_cases hcode hi hp nofun with ⟨hth, hp⟩ | ⟨hth, hp⟩
  · obtain ⟨p', j, hp', hpc, hparent⟩ := (hcode.tends (hinv.locks.of _)).giving status op r hp
    rw [← hth] at hp' hpc
    cases hp'
    refine h.parent_kept hinv hcode hi (h.used hparent ?_) hparent fun _ _ _ => ?_ <;>
      rw [hpc] <;> nofun
  · exact h.parent_kept hinv hcode hi (h.used (h.giving hp) (by rw [hp]; nofun)) (h.giving hp)
      fun hexec => absurd hexec.symm hth

theorem step_looking
    (hp : s'.pc (.proc p) = .waitHeld addr flags r) : (s'.slot r).parent = some p := by
  rcases hinv.pc_cases hcode hi hp nofun with ⟨hth, hp⟩ | ⟨hth, hp⟩
  · obtain ⟨p', a, e', hp', hwait⟩ := (hcode.kin (hinv.locks.of _)).loop r (by rw [hp]; rfl)
    rw [← hth] at hp' hwait
    cases hp'
    obtain ⟨n, havekids, hpc, hparent⟩ := (Kernel.waitCode_next hwait).1 addr flags hp
    refine h.parent_kept hinv hcode hi (h.used hparent ?_) hparent fun _ _ _ => ?_ <;>
      rw [hpc] <;> nofun
  · exact h.parent_kept hinv hcode hi (h.used (h.looking hp) (by rw [hp]; nofun)) (h.looking hp)
      fun hexec => absurd hexec.symm hth

theorem step_kids {n : Nat}
    (hp : s'.pc (.proc p) = .waitScan addr flags n true) : ∃ r, (s'.slot r).parent = some p := by
  -- a child that the process has while it is in the loop stays one
  have hkept : ∀ {m}, (s.pc (.proc p)).scanned = some m → (∃ r, (s.slot r).parent = some p) →
      ∃ r, (s'.slot r).parent = some p := by
    rintro m hm ⟨r, hr⟩
    refine ⟨r, h.parent_kept hinv hcode hi (h.used hr ?_) hr fun _ st op => ?_⟩ <;>
      intro hpc <;> rw [hpc] at hm <;> cases hm
  rcases hinv.pc_cases hcode hi hp nofun with ⟨hth, hp⟩ | ⟨hth, hp⟩
  · obtain ⟨p', a, e', hp', hwait⟩ := (hcode.kin (hinv.locks.of _)).loop n (by rw [hp]; rfl)
    rw [← hth] at hp' hwait
    cases hp'
    rcases (Kernel.waitCode_next (r := p) hwait).2 addr flags n hp with ⟨m, hpc⟩ | ⟨j, hpc⟩
    · exact hkept (by rw [hpc]; rfl) (h.kids hpc)
    · exact hkept (by rw [hpc]; rfl) ⟨j, h.looking hpc⟩
  · exact hkept (by rw [hp]; rfl) (h.kids hp)

end

theorem step (h : Kids s) (hinv : KInv lkOf s) (hs : KStep lkOf s e s') : Kids s' := by
  obtain ⟨hcode, hi⟩ := hs
  exact ⟨h.step_unused hinv hcode hi, h.step_ending hinv hcode hi, h.step_giving hinv hcode hi,
    h.step_looking hinv hcode hi, h.step_kids hinv hcode hi⟩

omit [DecidableEq X] [DecidableEq L] in
theorem boot {tf : Page} {pt free : List Page} {cond : X → Bool} :
    Kids (Kernel.boot tf pt free cond : Kernel Cpu X L) := by
  refine ⟨fun {r} _ _ => ?_, nofun, nofun, nofun, nofun⟩
  by_cases hinit : r = initproc
  · simp [Kernel.boot, hinit]
  · simp [Kernel.boot, hinit, ProcSlot.empty]

end Kids

theorem KRun.kids {ok : Kernel Cpu X L → ProcEvent → Kernel Cpu X L → Prop} {s0 : Kernel Cpu X L}
    {es : List ProcEvent} (h : KRun lkOf ok s0 es s) (h0 : KInv lkOf s0) (hk0 : Kids s0) :
    Kids s := by
  induction h with
  | boot => exact hk0
  | step hrun _ hs ih => exact ih.step (hrun.inv h0) hs

end

end Xv6
