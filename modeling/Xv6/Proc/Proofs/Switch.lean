import Xv6.Proc.Proofs.Running

/-!
# Instructions and CPUs

How instructions change which CPU executes which process. `Running.move` is for instructions after
which the same CPUs execute the same threads; the second half of `swtch` is apart.
-/

namespace Xv6

open ProcState Function
open Kernel (heldAt lkAt)

variable {Cpu X L : Type} {lkOf : X → L} {s s' : Kernel Cpu X L} {c : Cpu} {k : Pc X} {p q : Proc}
  {i : Instr Cpu X L} {u : Thread Cpu}

namespace Running

/-- A process that a CPU executes is not on its way out, unless the CPU holds its lock. -/
theorem leaving_of_exec (h : Running s) (hexec : s.exec c = .proc p)
    (hstate : (s.slot p).state ≠ RUNNING) : p ∈ s.heldAt c ∧ (s.pc (.proc p)).leaving = true := by
  have hleaving : (s.pc (.proc p)).leaving = true := by
    by_contra hno
    exact hstate ((h.active hexec).mpr (by simpa using hno))
  refine ⟨?_, hleaving⟩
  unfold heldAt
  rw [hexec]
  exact Pc.mem_held_of_leaving hleaving p

/-- A process whose lock another CPU holds and that is not `RUNNING` is not executed. -/
theorem not_exec (h : Running s) (hl : Locks lkOf s) (hmem : p ∈ s.heldAt c)
    (hstay : (s.pc (s.exec c)).leaving = false) (hstate : (s.slot p).state ≠ RUNNING) (c' : Cpu) :
    s.exec c' ≠ .proc p := by
  intro hexec
  obtain ⟨hheld, hleaving⟩ := h.leaving_of_exec hexec hstate
  obtain rfl := hl.proc.eq_of_mem hheld hmem
  rw [hexec, hleaving] at hstay
  cases hstay

/-- An instruction after which the same CPUs execute the same threads. -/
theorem move (h : Running s) (hm : Moves s c k s')
    (hcproc : ∀ c', c' ≠ c → s'.cproc c' = s.cproc c')
    (hproc : ∀ p, s.exec c = .proc p → s'.cproc c = some p)
    (hidle : s.exec c = .sched c → s'.cproc c = k.target)
    (hactive : ∀ p, s.exec c = .proc p → ((s'.slot p).state = RUNNING ↔ k.leaving = false))
    (hother : ∀ q, s.exec c ≠ .proc q → k.starts ≠ some q →
      ((s'.slot q).state = RUNNING ↔ (s.slot q).state = RUNNING))
    (hkeep : s.exec c = .sched c → ∀ q, (s.pc (s.exec c)).starts = some q → k.starts = some q)
    (hstarts : ∀ q, k.starts = some q → s.exec c = .sched c ∧ (s'.slot q).state = RUNNING)
    (hapart : s.exec c = .sched c → ∀ q, k.starts = some q ∨ k.target = some q →
      ∀ c', s.exec c' ≠ .proc q)
    (hsaved : ∀ p, s.saved (.proc p) = true → s'.saved (.proc p) = true)
    (hused : ∀ q, (∀ c', s.exec c' ≠ .proc q) → (s.slot q).state = UNUSED →
      (s'.slot q).state ≠ UNUSED → s'.saved (.proc q) = true)
    (hload : ∀ p, s.exec c = .proc p → k.isLoad = true → s'.saved (.proc p) = true)
    (hforking : ∀ np, k.forking = some np → (s'.slot np).state = UNUSED)
    (hstill : ∀ p np, s.exec c ≠ .proc p → (s.pc (.proc p)).forking = some np →
      (s'.slot np).state = UNUSED)
    (hforked : ∀ np, k.forked = some np → s'.saved (.proc np) = true) : Running s' := by
  have hsched : ∀ {c'}, c' ≠ c → s'.pc (.sched c') = s.pc (.sched c') := fun hc =>
    hm.pc_sched fun heq => hc (h.own heq.symm)
  have hpc : ∀ {p'}, s.exec c ≠ .proc p' →
      s'.pc (.proc p') = s.pc (.proc p') ∨ s'.pc (.proc p') = .forkret :=
    fun hp' => hm.pc_proc fun heq => hp' heq.symm
  refine ⟨?_, ?_, ?_, ?_, ?_, ?_, ?_, ?_, ?_, ?_, ?_, ?_, ?_⟩
  · rw [hm.exec]
    exact h.own
  · rw [hm.exec]
    exact h.inj
  · intro c' p hexec
    rw [hm.exec] at hexec
    by_cases hc : c' = c
    · subst hc
      refine ⟨hproc p hexec, ?_⟩
      rw [hm.pc_sched fun heq => by rw [hexec] at heq; cases heq]
      exact (h.proc hexec).2
    · rw [hcproc c' hc, hsched hc]
      exact h.proc hexec
  · intro c' hexec
    rw [hm.exec] at hexec
    by_cases hc : c' = c
    · subst hc
      rw [hidle hexec, ← hexec, hm.here]
    · rw [hcproc c' hc, hsched hc]
      exact h.idle hexec
  · intro c' p hexec
    rw [hm.exec] at hexec
    by_cases hc : c' = c
    · subst hc
      rw [hactive p hexec, ← hexec, hm.here]
    · have hp := hm.pc_exec h.inj hc
      rw [hexec] at hp
      have hne : s.exec c ≠ .proc p := fun heq => hc (h.inj (hexec.trans heq.symm))
      rw [hp, hother p hne fun hq => hapart (hstarts p hq).1 p (.inl hq) c' hexec]
      exact h.active hexec
  · intro q hq
    by_cases hown : s.exec c = .proc q
    · exact ⟨c, .inl (by rw [hm.exec, hown])⟩
    by_cases hk : k.starts = some q
    · have hexec := (hstarts q hk).1
      exact ⟨c, .inr ⟨by rw [hm.exec, hexec], by rw [← hexec, hm.here, hk]⟩⟩
    rw [hother q hown hk] at hq
    obtain ⟨c', hexec | ⟨hexec, hq'⟩⟩ := h.running hq
    · exact ⟨c', .inl (by rw [hm.exec, hexec])⟩
    · have hc : c' ≠ c := by
        rintro rfl
        exact hk (hkeep hexec q (by rw [hexec, hq']))
      exact ⟨c', .inr ⟨by rw [hm.exec, hexec], by rw [hsched hc, hq']⟩⟩
  · intro c' q hexec hq
    rw [hm.exec] at hexec
    by_cases hk : k.starts = some q
    · exact (hstarts q hk).2
    have hc : c' ≠ c := by
      rintro rfl
      rw [← hexec, hm.here] at hq
      exact hk hq
    rw [hsched hc] at hq
    rw [hother q (h.apart hexec (.inl hq) c) hk]
    exact h.starts hexec hq
  · intro c' q hexec hq
    rw [hm.exec] at hexec ⊢
    by_cases hc : c' = c
    · subst hc
      rw [← hexec, hm.here] at hq
      exact hapart hexec q hq
    · rw [hsched hc] at hq
      exact h.apart hexec hq
  · intro q hno
    rw [hm.exec] at hno
    rcases hpc (hno c) with heq | heq
    · rw [heq]
      exact h.resume hno
    · rw [heq]
      rfl
  · intro q hno hstate
    rw [hm.exec] at hno
    by_cases hold : (s.slot q).state = UNUSED
    · exact hused q hno hold hstate
    · exact hsaved q (h.saved hno hold)
  · intro c' p hexec hisload
    rw [hm.exec] at hexec
    by_cases hc : c' = c
    · subst hc
      rw [← hexec, hm.here] at hisload
      exact hload p hexec hisload
    · have hp := hm.pc_exec h.inj hc
      rw [hexec] at hp
      rw [hp] at hisload
      exact hsaved p (h.loading hexec hisload)
  · intro p np hp
    by_cases hexec : s.exec c = .proc p
    · rw [← hexec, hm.here] at hp
      exact hforking np hp
    · rcases hpc hexec with heq | heq
      · exact hstill p np hexec (heq ▸ hp)
      · rw [heq] at hp
        cases hp
  · intro p np hp
    by_cases hexec : s.exec c = .proc p
    · rw [← hexec, hm.here] at hp
      exact hforked np hp
    · rcases hpc hexec with heq | heq
      · exact hsaved np (h.forked (heq ▸ hp))
      · rw [heq] at hp
        cases hp

/-- The state of a slot is kept, or the thread changes it with the lock, and not from or to
`RUNNING` or `UNUSED`. -/
def Kept (s : Kernel Cpu X L) (s' : Kernel Cpu X L) : Prop :=
  ∀ q, (s'.slot q).state = (s.slot q).state ∨
    ((s.slot q).state = SLEEPING ∧ (s'.slot q).state = RUNNABLE)

theorem Kept.running_iff (h : Kept s s') (q : Proc) :
    (s'.slot q).state = RUNNING ↔ (s.slot q).state = RUNNING := by
  rcases h q with heq | ⟨hold, hnew⟩
  · rw [heq]
  · simp [hold, hnew]

theorem Kept.unused_iff (h : Kept s s') (q : Proc) :
    (s'.slot q).state = UNUSED ↔ (s.slot q).state = UNUSED := by
  rcases h q with heq | ⟨hold, hnew⟩
  · rw [heq]
  · simp [hold, hnew]

theorem Kept.of_instr [DecidableEq Cpu] [DecidableEq X] [DecidableEq L]
    (hi : s.instr c (s.exec c) i = some s') (hwrote : ∀ q new, i.wrote = some (q, new) →
      new.state = (s.slot q).state ∨ ((s.slot q).state = SLEEPING ∧ new.state = RUNNABLE)) :
    Kept s s' := by
  intro r
  rw [Kernel.instr_state hi]
  cases hw : i.wrote with
  | none => exact .inl rfl
  | some qn =>
    obtain ⟨q, new⟩ := qn
    show (if r = q then new.state else _) = _ ∨ _ ∧ (if r = q then new.state else _) = _
    by_cases hr : r = q
    · rw [if_pos hr, hr]
      exact hwrote q new hw
    · rw [if_neg hr]
      exact .inl rfl

theorem frame (h : Running s) (hm : Moves s c k s') (hkept : Kept s s')
    (hcproc : s'.cproc = s.cproc)
    (hsaved : ∀ p, s.saved (.proc p) = true → s'.saved (.proc p) = true)
    (hleaving : k.leaving = (s.pc (s.exec c)).leaving)
    (hstarts : k.starts = (s.pc (s.exec c)).starts) (htarget : k.target = (s.pc (s.exec c)).target)
    (hload : ∀ p, s.exec c = .proc p → k.isLoad = true → s'.saved (.proc p) = true)
    (hforking : ∀ np, k.forking = some np → (s.slot np).state = UNUSED)
    (hforked : ∀ np, k.forked = some np → s'.saved (.proc np) = true)
    (hsched : ∀ p, s.exec c = .proc p → (s.pc (s.exec c)).starts = none) : Running s' := by
  refine h.move hm (fun _ _ => by rw [hcproc]) (fun p hexec => ?_) (fun hexec => ?_)
    (fun p hexec => ?_) (fun q _ _ => hkept.running_iff q) (fun _ q hq => hstarts.trans hq)
    (fun q hq => ?_) (fun hexec q hq => ?_) hsaved (fun q _ hold hnew => ?_) hload
    (fun np hnp => (hkept.unused_iff np).mpr (hforking np hnp))
    (fun p np _ hnp => (hkept.unused_iff np).mpr (h.forking hnp)) hforked
  · rw [hcproc]
    exact (h.proc hexec).1
  · rw [hcproc, htarget, h.idle hexec, hexec]
  · rw [hkept.running_iff, hleaving, h.active hexec, hexec]
  · rw [hstarts] at hq
    cases hexec : s.exec c with
    | proc p =>
      rw [hsched p hexec] at hq
      cases hq
    | sched c' =>
      obtain rfl := h.own hexec
      rw [hexec] at hq
      exact ⟨rfl, (hkept.running_iff q).mpr (h.starts hexec hq)⟩
  · rw [hstarts, htarget, hexec] at hq
    exact h.apart hexec hq
  · exact absurd ((hkept.unused_iff q).mpr hold) hnew

theorem plain [DecidableEq Cpu] [DecidableEq X] [DecidableEq L] (h : Running s)
    (hi : s.instr c (s.exec c) i = some s') (hm : Moves s c i.next s')
    (hpc : (s.pc (s.exec c)).plain = true) (hk : i.next.plain = true) (hstay : i.stays = true)
    (hset : i.sets = false) (hwrote : ∀ q new, i.wrote = some (q, new) →
      new.state = (s.slot q).state ∨ ((s.slot q).state = SLEEPING ∧ new.state = RUNNABLE)) :
    Running s' := by
  refine h.frame hm (Kept.of_instr hi hwrote) (Kernel.instr_cproc hi hset)
    (fun p => Kernel.instr_saved hi hstay) ?_ ?_ ?_ (fun p _ hload => ?_) (fun np hnp => ?_)
    (fun np hnp => ?_) (fun p _ => Pc.starts_of_plain hpc)
  · rw [Pc.leaving_of_plain hk, Pc.leaving_of_plain hpc]
  · rw [Pc.starts_of_plain hk, Pc.starts_of_plain hpc]
  · rw [Pc.target_of_plain hk, Pc.target_of_plain hpc]
  · rw [Pc.isLoad_of_plain hk] at hload
    cases hload
  · rw [Pc.forking_of_plain hk] at hnp
    cases hnp
  · rw [Pc.forked_of_plain hk] at hnp
    cases hnp

section
variable (h : Running s) (hcproc : s'.cproc = s.cproc) (hsaved : s'.saved = s.saved)
  (hl : Locks lkOf s) (hexec : s.exec c = .sched c)
  (hother : ∀ r, r ≠ q → (s'.slot r).state = (s.slot r).state)
  (hothers : ∀ c', c' ≠ c → s'.cproc c' = s.cproc c')
include h hcproc hsaved hl hexec hother hothers

omit hl hexec hother hothers in
theorem leave (hm : Moves s c k s') (hexec : s.exec c = .proc p)
    (hother : ∀ q, q ≠ p → (s'.slot q).state = (s.slot q).state)
    (hnew : (s'.slot p).state ≠ RUNNING ∧ (s'.slot p).state ≠ UNUSED)
    (hstay : (s.pc (.proc p)).leaving = false) (hleaving : k.leaving = true)
    (hload : k.isLoad = false) (hstarts : k.starts = none) (hfork : k.forking = none) :
    Running s' := by
  have hrun : (s.slot p).state = RUNNING := (h.active hexec).mpr hstay
  have hne : ∀ {q}, s.exec c ≠ .proc q → q ≠ p := by
    rintro q hq rfl
    exact hq hexec
  refine h.move hm (fun _ _ => by rw [hcproc]) (fun p' hexec' => ?_) (fun hsched => ?_)
    (fun p' hexec' => ?_) (fun q hq _ => by rw [hother q (hne hq)]) (fun hsched => ?_)
    (fun q hq => ?_) (fun hsched => ?_) (fun p' hp' => by rw [hsaved, hp']) (fun q hno hold hused => ?_)
    (fun p' _ hl => ?_) (fun np hnp => ?_) (fun p' np _ hnp => ?_) (fun np hnp => ?_)
  · rw [hcproc]
    exact (h.proc hexec').1
  · rw [hexec] at hsched
    cases hsched
  · rw [hexec] at hexec'
    cases hexec'
    rw [hleaving]
    exact iff_of_false hnew.1 nofun
  · rw [hexec] at hsched
    cases hsched
  · rw [hstarts] at hq
    cases hq
  · rw [hexec] at hsched
    cases hsched
  · rw [hother q (hne (hno c))] at hused
    exact absurd hold hused
  · rw [hload] at hl
    cases hl
  · rw [hfork] at hnp
    cases hnp
  · have hunused := h.forking hnp
    have hnpp : np ≠ p := by
      rintro rfl
      rw [hrun] at hunused
      cases hunused
    rw [hother np hnpp]
    exact hunused
  · have := Pc.forking_of_forked hnp
    rw [hfork] at this
    cases this

omit hothers in
theorem pick (hm : Moves s c (.schedSet q) s') (hpc : s.pc (.sched c) = .schedHeld q)
    (hold : (s.slot q).state = RUNNABLE) (hnew : (s'.slot q).state = RUNNING) : Running s' := by
  have hmem : q ∈ s.heldAt c := by
    unfold heldAt
    rw [hexec, hpc]
    exact List.mem_singleton_self q
  have hnot : ∀ c', s.exec c' ≠ .proc q :=
    h.not_exec hl hmem (by rw [hexec, hpc]; rfl) (by rw [hold]; nofun)
  have hnoproc : ∀ {r}, s.exec c ≠ .proc r := by
    rw [hexec]
    nofun
  have hunused : ∀ {r}, (s.slot r).state = UNUSED → r ≠ q := by
    rintro r hr rfl
    rw [hold] at hr
    cases hr
  refine h.move hm (fun _ _ => by rw [hcproc]) (fun p hp => absurd hp hnoproc) (fun _ => ?_)
    (fun p hp => absurd hp hnoproc) (fun r _ hr => ?_) (fun _ r hr => ?_) (fun r hr => ?_)
    (fun _ r hr => ?_) (fun p hp => by rw [hsaved, hp]) (fun r _ hr hused => ?_)
    (fun p hp => absurd hp hnoproc) nofun (fun p np _ hnp => ?_) nofun
  · rw [hcproc, h.idle hexec, hpc]
    rfl
  · rw [hother r fun heq => hr (by rw [heq]; rfl)]
  · rw [hexec, hpc] at hr
    cases hr
  · cases hr
    exact ⟨hexec, hnew⟩
  · rcases hr with hr | hr <;> cases hr
    exact hnot
  · rw [hother r (hunused hr)] at hused
    exact absurd hr hused
  · rw [hother np (hunused (h.forking hnp))]
    exact h.forking hnp

section
omit hcproc hl hother

theorem setTarget (hm : Moves s c (.schedSave q) s') (hpc : s.pc (.sched c) = .schedSet q)
    (hcproc : s'.cproc c = some q) (hslot : s'.slot = s.slot) : Running s' := by
  have hstart : (s.pc (.sched c)).starts = some q := by rw [hpc]; rfl
  have hnoproc : ∀ {r}, s.exec c ≠ .proc r := by
    rw [hexec]
    nofun
  refine h.move hm hothers (fun p hp => absurd hp hnoproc) (fun _ => hcproc)
    (fun p hp => absurd hp hnoproc) (fun r _ _ => by rw [hslot]) (fun _ r hr => ?_) (fun r hr => ?_)
    (fun _ r hr => ?_) (fun p hp => by rw [hsaved, hp]) (fun r _ hr hused => ?_)
    (fun p hp => absurd hp hnoproc) nofun (fun p np _ hnp => ?_) nofun
  · rw [hexec, hpc] at hr
    exact hr
  · cases hr
    exact ⟨hexec, by rw [hslot]; exact h.starts hexec hstart⟩
  · rcases hr with hr | hr <;> cases hr <;> exact h.apart hexec (.inl hstart)
  · rw [hslot] at hused
    exact absurd hr hused
  · rw [hslot]
    exact h.forking hnp

theorem clearTarget (hm : Moves s c (.schedRelease q) s') (hpc : s.pc (.sched c) = .schedBack q)
    (hcproc : s'.cproc c = none) (hslot : s'.slot = s.slot) : Running s' := by
  have hnoproc : ∀ {r}, s.exec c ≠ .proc r := by
    rw [hexec]
    nofun
  refine h.move hm hothers (fun p hp => absurd hp hnoproc) (fun _ => hcproc)
    (fun p hp => absurd hp hnoproc) (fun r _ _ => by rw [hslot]) (fun _ r hr => ?_) nofun
    (fun _ r hr => ?_) (fun p hp => by rw [hsaved, hp]) (fun r _ hr hused => ?_)
    (fun p hp => absurd hp hnoproc) nofun (fun p np _ hnp => ?_) nofun
  · rw [hexec, hpc] at hr
    cases hr
  · rcases hr with hr | hr <;> cases hr
  · rw [hslot] at hused
    exact absurd hr hused
  · rw [hslot]
    exact h.forking hnp

end

omit hexec hothers in
theorem forkEnd (hm : Moves s c .run s') (hexec : s.exec c = .proc p)
    (hpc : s.pc (.proc p) = .forkEnd q) (hnew : (s'.slot q).state = RUNNABLE) : Running s' := by
  have hold : (s.slot q).state = UNUSED := h.forking (by rw [hpc]; rfl)
  have hmem : q ∈ s.heldAt c := by
    unfold heldAt
    rw [hexec, hpc]
    exact List.mem_singleton_self q
  have hrun : ∀ r, (s'.slot r).state = RUNNING ↔ (s.slot r).state = RUNNING := by
    intro r
    by_cases hr : r = q
    · simp [hr, hold, hnew]
    · rw [hother r hr]
  have hnosched : s.exec c ≠ .sched c := by
    rw [hexec]
    nofun
  refine h.move hm (fun _ _ => by rw [hcproc]) (fun p' hp' => ?_) (fun hc => absurd hc hnosched)
    (fun p' hp' => ?_) (fun r _ _ => hrun r) (fun hc => absurd hc hnosched) nofun
    (fun hc => absurd hc hnosched) (fun p' hp' => by rw [hsaved, hp']) (fun r _ hr hused => ?_)
    (fun _ _ hload => by cases hload) nofun (fun p' np hp' hnp => ?_) nofun
  · rw [hcproc]
    exact (h.proc hp').1
  · rw [hrun, h.active hp']
    rw [hexec] at hp'
    cases hp'
    rw [hpc]
    rfl
  · by_cases hrq : r = q
    · rw [hsaved, hrq]
      exact h.forked (by rw [hpc]; rfl)
    · rw [hother r hrq] at hused
      exact absurd hr hused
  · by_cases hnpq : np = q
    · -- another `fork` with the same slot would hold the same lock
      subst hnpq
      by_cases hex : ∃ c', s.exec c' = .proc p'
      · obtain ⟨c', hexec'⟩ := hex
        have hmem' : np ∈ s.heldAt c' := by
          unfold heldAt
          rw [hexec']
          exact Pc.mem_held_of_forking hnp _
        obtain rfl := hl.proc.eq_of_mem hmem hmem'
        exact absurd hexec' hp'
      · have hres := h.resume (not_exists.mp hex)
        rw [Pc.forking_of_resume hres] at hnp
        cases hnp
    · rw [hother np hnpq]
      exact h.forking hnp

end

end Running

/-! ## The second half of `swtch` -/

section
variable [DecidableEq Cpu] {th : Thread Cpu}

/-- CPU `c` leaves the thread that it executes at `k` and goes on with `th`. -/
structure Switches (s : Kernel Cpu X L) (c : Cpu) (th : Thread Cpu) (k : Pc X)
    (s' : Kernel Cpu X L) : Prop where
  pc : s'.pc = update s.pc (s.exec c) k
  exec : s'.exec = update s.exec c th
  saved : s'.saved = update s.saved th false
  slot : s'.slot = s.slot
  lk : s'.lk = s.lk
  cproc : s'.cproc = s.cproc

theorem Switches.locks (h : Switches s c th k s') (hl : Locks lkOf s)
    (hinj : ∀ {c c'}, s.exec c = s.exec c' → c = c') (hth : th ≠ s.exec c) (hof : k.of (s.exec c))
    (hheld : th.held (s.pc th) = s.heldAt c)
    (hlk : (s.pc th).heldLk lkOf = (s.pc (s.exec c)).heldLk lkOf) : Locks lkOf s' := by
  have hothers : ∀ c', c' ≠ c → s'.pc (s.exec c') = s.pc (s.exec c') := fun c' hc => by
    rw [h.pc, update_of_ne fun heq => hc (hinj heq)]
  have hhere : s'.pc th = s.pc th := by rw [h.pc, update_of_ne hth]
  refine ⟨fun th' => ?_, ?_, ?_⟩
  · rw [h.pc]
    by_cases heq : th' = s.exec c
    · rw [heq, update_self]
      exact hof
    · rw [update_of_ne heq]
      exact hl.of th'
  · have : s'.heldAt = s.heldAt := by
      funext c'
      unfold heldAt
      rw [h.exec]
      by_cases hc : c' = c
      · rw [hc, update_self, hhere]
        exact hheld
      · rw [update_of_ne hc, hothers c' hc]
    rw [this, h.slot]
    exact hl.proc
  · have : s'.lkAt lkOf = s.lkAt lkOf := by
      funext c'
      unfold lkAt
      rw [h.exec]
      by_cases hc : c' = c
      · rw [hc, update_self, hhere, hlk]
      · rw [update_of_ne hc, hothers c' hc]
    rw [this, h.lk]
    exact hl.lk

namespace Switches

variable (hs : Switches s c th k s')
include hs

theorem here : s'.exec c = th := by rw [hs.exec, update_self]

theorem other {c' : Cpu} (hc : c' ≠ c) : s'.exec c' = s.exec c' := by rw [hs.exec, update_of_ne hc]

theorem exec_cases {c' : Cpu} (h : s'.exec c' = u) : c = c' ∧ th = u ∨ c' ≠ c ∧ s.exec c' = u := by
  by_cases hc : c' = c
  · exact .inl ⟨hc.symm, by rw [← h, hc, hs.here]⟩
  · exact .inr ⟨hc, by rw [← h, hs.other hc]⟩

theorem pc_left : s'.pc (s.exec c) = k := by rw [hs.pc, update_self]

theorem pc_other (hu : u ≠ s.exec c) : s'.pc u = s.pc u := by
  rw [hs.pc, update_of_ne hu]

theorem saved_other (hu : u ≠ th) : s'.saved u = s.saved u := by
  rw [hs.saved, update_of_ne hu]

/-- A switch from a process that is ready to be resumed, or to one. -/
theorem running (h : Running s) (hth : ∀ c', s.exec c' ≠ th) (hown : ∀ c', th = .sched c' → c' = c)
    (hproc : ∀ {q}, th = .proc q →
      s.cproc c = some q ∧ s'.pc (.sched c) = .schedBack q ∧ (s.slot q).state = RUNNING)
    (hidle : th = .sched c → s.cproc c = (s.pc (.sched c)).target ∧ (s.pc (.sched c)).starts = none)
    (hleft : ∀ {p}, s.exec c = .proc p →
      k.resume = true ∧ s.saved (.proc p) = true ∧ (s.slot p).state ≠ RUNNING)
    (hrun : ∀ {r}, s.exec c = .sched c → (s.pc (.sched c)).starts = some r → th = .proc r)
    (hapart : ∀ {c' r}, s'.exec c' = .sched c' →
      (s'.pc (.sched c')).starts = some r ∨ (s'.pc (.sched c')).target = some r →
      (c' = c → s.exec c = .proc r) ∧ (c' ≠ c → th ≠ .proc r)) : Running s' := by
  have hnew : s'.pc th = s.pc th := hs.pc_other (hth c).symm
  have hsched {c'} (hc : c' ≠ c) : s'.pc (.sched c') = s.pc (.sched c') :=
    hs.pc_other fun heq => hc (h.own heq.symm)
  have hpc {c' p'} (hc : c' ≠ c) (hc' : s.exec c' = .proc p') : s'.pc (.proc p') = s.pc (.proc p') :=
    hs.pc_other fun heq => hc (h.inj (hc'.trans heq))
  have hold {p'} (hno : ∀ c', s'.exec c' ≠ .proc p') (hp : s.exec c ≠ .proc p') (c' : Cpu) :
      s.exec c' ≠ .proc p' := by
    by_cases hc : c' = c
    · rw [hc]
      exact hp
    · rw [← hs.other hc]
      exact hno c'
  refine ⟨?_, ?_, ?_, ?_, ?_, ?_, ?_, ?_, ?_, ?_, ?_, ?_, ?_⟩
  · intro c' c'' hc'
    rcases hs.exec_cases hc' with ⟨rfl, hu⟩ | ⟨-, hc'⟩
    · exact hown c'' hu
    · exact h.own hc'
  · intro c' c'' heq
    by_cases hc' : c' = c <;> by_cases hc'' : c'' = c
    · rw [hc', hc'']
    · rw [hc', hs.here, hs.other hc''] at heq
      exact absurd heq.symm (hth c'')
    · rw [hc'', hs.here, hs.other hc'] at heq
      exact absurd heq (hth c')
    · rw [hs.other hc', hs.other hc''] at heq
      exact h.inj heq
  · intro c' p' hc'
    rw [hs.cproc]
    rcases hs.exec_cases hc' with ⟨rfl, hu⟩ | ⟨hc, hc'⟩
    · exact ⟨(hproc hu).1, (hproc hu).2.1⟩
    · rw [hsched hc]
      exact h.proc hc'
  · intro c' hc'
    rw [hs.cproc]
    rcases hs.exec_cases hc' with ⟨rfl, hu⟩ | ⟨hc, hc'⟩
    · rw [← hu, hnew, hu]
      exact (hidle hu).1
    · rw [hsched hc]
      exact h.idle hc'
  · intro c' p' hc'
    rw [hs.slot]
    rcases hs.exec_cases hc' with ⟨rfl, rfl⟩ | ⟨hc, hc'⟩
    · rw [hnew]
      exact iff_of_true (hproc rfl).2.2 (Pc.leaving_of_resume (h.resume hth))
    · rw [hpc hc hc']
      exact h.active hc'
  · intro r hr
    rw [hs.slot] at hr
    obtain ⟨c', hc' | ⟨hc', hr'⟩⟩ := h.running hr
    · have hc : c' ≠ c := by
        rintro rfl
        exact (hleft hc').2.2 hr
      exact ⟨c', .inl (by rw [hs.other hc, hc'])⟩
    · by_cases hc : c' = c
      · rw [hc] at hc' hr'
        exact ⟨c, .inl (by rw [hs.here, hrun hc' hr'])⟩
      · exact ⟨c', .inr ⟨by rw [hs.other hc, hc'], by rw [hsched hc, hr']⟩⟩
  · intro c' r hc' hr
    rw [hs.slot]
    rcases hs.exec_cases hc' with ⟨rfl, hu⟩ | ⟨hc, hc'⟩
    · rw [← hu, hnew, hu, (hidle hu).2] at hr
      cases hr
    · rw [hsched hc] at hr
      exact h.starts hc' hr
  · intro c' r hc' hr c'' hc''
    obtain ⟨hhere, helse⟩ := hapart hc' hr
    by_cases hc : c' = c <;> by_cases hcc : c'' = c
    · rw [hcc, hs.here] at hc''
      exact hth c ((hhere hc).trans hc''.symm)
    · rw [hs.other hcc] at hc''
      exact hcc (h.inj (hc''.trans (hhere hc).symm))
    · rw [hcc, hs.here] at hc''
      exact helse hc hc''
    · rw [hs.other hc] at hc'
      rw [hs.other hcc] at hc''
      rw [hsched hc] at hr
      exact h.apart hc' hr c'' hc''
  · intro p' hno
    by_cases hp : s.exec c = .proc p'
    · rw [← hp, hs.pc_left]
      exact (hleft hp).1
    · rw [hs.pc_other fun heq => hp heq.symm]
      exact h.resume (hold hno hp)
  · intro p' hno hstate
    rw [hs.slot] at hstate
    rw [hs.saved_other fun heq => hno c (by rw [hs.here, heq])]
    by_cases hp : s.exec c = .proc p'
    · exact (hleft hp).2.1
    · exact h.saved (hold hno hp) hstate
  · intro c' p' hc' hload
    rcases hs.exec_cases hc' with ⟨rfl, rfl⟩ | ⟨hc, hc'⟩
    · rw [hnew] at hload
      have := Pc.leaving_of_resume (h.resume hth)
      cases hq : s.pc (.proc p') <;> rw [hq] at hload this <;> simp [Pc.isLoad, Pc.leaving] at hload this
    · rw [hpc hc hc'] at hload
      rw [hs.saved_other (hc' ▸ hth c')]
      exact h.loading hc' hload
  · intro p' np hnp
    rw [hs.slot]
    by_cases hp : s.exec c = .proc p'
    · rw [← hp, hs.pc_left, Pc.forking_of_resume (hleft hp).1] at hnp
      cases hnp
    · rw [hs.pc_other fun heq => hp heq.symm] at hnp
      exact h.forking hnp
  · intro p' np hnp
    by_cases hp : s.exec c = .proc p'
    · rw [← hp, hs.pc_left] at hnp
      have := Pc.forking_of_forked hnp
      rw [Pc.forking_of_resume (hleft hp).1] at this
      cases this
    · rw [hs.pc_other fun heq => hp heq.symm] at hnp
      have hunused := h.forking (Pc.forking_of_forked hnp)
      rw [hs.saved_other fun heq => by rw [(hproc heq.symm).2.2] at hunused; cases hunused]
      exact h.forked hnp

end Switches

theorem Running.start (h : Running s) (hl : Locks lkOf s)
    (hs : Switches s c (.proc q) (.schedBack q) s') (hexec : s.exec c = .sched c)
    (hpc : s.pc (.sched c) = .schedLoad q) : Running s' := by
  have hstart : (s.pc (.sched c)).starts = some q := by rw [hpc]; rfl
  refine hs.running h (h.apart hexec (.inl hstart)) nofun (fun heq => ?_) nofun (fun hp => ?_)
    (fun _ hr => ?_) (fun {c' r} hc' hr => ⟨fun hc => ?_, fun hc heq => ?_⟩)
  · cases heq
    refine ⟨?_, ?_, h.starts hexec hstart⟩
    · rw [h.idle hexec, hpc]
      rfl
    · rw [← hexec, hs.pc_left]
  · rw [hexec] at hp
    cases hp
  · rw [hstart] at hr
    cases hr
    rfl
  · rw [hc, hs.here] at hc'
    cases hc'
  · -- two schedulers would hold the lock of `q`
    cases heq
    rw [hs.other hc] at hc'
    rw [hs.pc_other fun heq => hc (h.own heq.symm)] at hr
    have hmem : q ∈ s.heldAt c' := by
      unfold heldAt
      rw [hc']
      rcases hr with hr | hr
      · exact Pc.mem_held_of_starts hr _
      · exact Pc.mem_held_of_target hr _
    have hmem' : q ∈ s.heldAt c := by
      unfold heldAt
      rw [hexec, hpc]
      exact List.mem_singleton_self q
    exact hc (hl.proc.eq_of_mem hmem hmem')

theorem Running.stop (h : Running s) (hs : Switches s c (.sched c) k s') (hexec : s.exec c = .proc p)
    (hpc : s.pc (.proc p) = .load k) (hk : k.resume = true) : Running s' := by
  obtain ⟨hcp, hback⟩ := h.proc hexec
  refine hs.running h (fun c' heq => ?_) (fun c' heq => ?_) nofun (fun _ => ?_) (fun hp => ?_)
    (fun hsched => ?_) (fun hc' hr => ⟨fun hc => ?_, fun _ => nofun⟩)
  · obtain rfl := h.own heq
    rw [hexec] at heq
    cases heq
  · cases heq
    rfl
  · rw [hback, hcp]
    exact ⟨rfl, rfl⟩
  · rw [hexec] at hp
    cases hp
    refine ⟨hk, h.loading hexec (by rw [hpc]; rfl), ?_⟩
    rw [Ne, h.active hexec, hpc]
    nofun
  · rw [hexec] at hsched
    cases hsched
  · rw [hc, hs.pc_other (by rw [hexec]; nofun), hback] at hr
    rcases hr with hr | hr <;> cases hr
    exact hexec

end

end Xv6
