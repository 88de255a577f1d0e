import Xv6.Spinlock.Code

/-!
# Interrupts are restored

`noff` of a CPU is the count of the thread that it executes, because threads that it does not execute
have a count of one. Between the first `push_off` of a process and the `pop_off` that undoes the last
one, `intena` is what the first one has read: on the CPU, or in `sched` while the process is away.
-/

namespace Xv6.Spinlock

open Function
open Machine (Step Reach)

variable {C P L : Type} {x y : CpuState}

/-- What a call of `pop_off` does that does not panic. -/
theorem CpuState.popOff_ok (h : x.popOff = .ok y) :
    x.sie = false ∧ y.noff = x.noff - 1 ∧ y.intena = x.intena ∧
      (y.sie = true ↔ x.noff = 1 ∧ x.intena = true) := by
  unfold popOff at h
  split at h
  · cases h
  next hsie =>
    split at h <;> cases h
    have hone : x.noff - 1 = 0 ↔ x.noff = 1 := by omega
    simp [hsie, hone]

/-- Where a thread can be that a CPU executes. What `push_off` has read is still true. -/
def Pos.Fits (sie : Bool) : Pos L → Prop
  | .push old _ => old = sie
  | .away _ | .fresh => False
  | _ => True

theorem Pos.not_fits {p q : Pos L} {sie : Bool} (h : p.resumed = some q) : ¬p.Fits sie := by
  cases p with
  | away i | fresh => exact id
  | _ => cases h

/-- What holds of a CPU that executes the thread `t`. -/
structure Runs (t : P ⊕ C) (x : CpuState) (k : Kthread L) : Prop where
  noff : x.noff = k.count
  off : x.sie = true → k.count = 0
  fits : k.pos.Fits x.sie
  traps : ∀ q ∈ k.traps, q.Fits true ∧ ∀ i, q ≠ .back i
  back : ∀ i, k.pos = .back i → k.count ≠ 0 ∧ ∀ b, k.outer = some b → i = b
  intena : ∀ p b, t = .inl p → (∀ i, k.pos ≠ .back i) → k.count ≠ 0 → k.outer = some b →
    x.intena = b

/-- What holds of a thread that no CPU executes. -/
structure Waits (t : P ⊕ C) (k : Kthread L) : Prop where
  count : k.count = 1
  traps : ∀ q ∈ k.traps, q.Fits true ∧ ∀ i, q ≠ .back i
  away : ∀ i b, k.pos = .away i → k.outer = some b → i = b
  fresh : k.pos = .fresh → k.outer = none
  sched : ∀ c, t = .inr c → k.pos = .run

structure Inv (s : Machine C P L) : Prop where
  own : ∀ {c c'}, s.exec c = .inr c' → c' = c
  inj : ∀ {c c'}, s.exec c = s.exec c' → c = c'
  runs : ∀ c, Runs (s.exec c) (s.cpu c) (s.cur c)
  waits : ∀ t, (∀ c, s.exec c ≠ t) → Waits t (s.thread t)

variable {s s' : Machine C P L} {c : C} {k : Kthread L} {t : P ⊕ C}

theorem Runs.sie_off (h : Runs t x k) (hk : k.count ≠ 0) : x.sie = false := by
  simpa using fun hsie => hk (h.off hsie)

theorem Runs.pop (h : Runs t x k) (hpos : k.pos = .run) (hk : 0 < k.count)
    (hx : x.popOff = .ok y) : Runs t y { k with count := k.count - 1 } := by
  obtain ⟨hsie, hnoff, hintena, hon⟩ := CpuState.popOff_ok hx
  have hcount := h.noff
  refine ⟨?_, fun hy => ?_, ?_, h.traps, ?_, fun p b hp hb _ => ?_⟩
  · dsimp only
    omega
  · have hone := (hon.mp hy).1
    dsimp only
    omega
  · rw [hpos]
    trivial
  · rw [hpos]
    nofun
  · rw [hintena]
    exact h.intena p b hp hb (Nat.ne_of_gt hk)

/-- The scheduler goes on when a process has left its CPU. -/
theorem Waits.sched_runs (h : Waits (.inr c : P ⊕ C) k) (hnoff : x.noff = 1)
    (hsie : x.sie = false) : Runs (.inr c : P ⊕ C) x k := by
  have hpos := h.sched c rfl
  have hcount := h.count
  refine ⟨by omega, by rw [hsie]; nofun, ?_, h.traps, ?_, nofun⟩ <;> rw [hpos]
  · trivial
  · nofun

/-- A process goes on where `swtch` takes it up. -/
theorem Waits.proc_runs {q : Pos L} (h : Waits t k) (hnoff : x.noff = 1) (hsie : x.sie = false)
    (hq : k.pos.resumed = some q) : Runs t x { k with pos := q } := by
  have hcount := h.count
  have hnoff' : x.noff = k.count := by omega
  have hoff : x.sie = true → k.count = 0 := by rw [hsie]; nofun
  cases hpos : k.pos <;> rw [hpos] at hq <;> cases hq
  · refine ⟨hnoff', hoff, trivial, h.traps, fun j hj => ?_, fun _ _ _ hb => absurd rfl (hb _)⟩
    cases hj
    exact ⟨by rw [hcount]; nofun, fun b hb => h.away _ b hpos hb⟩
  · refine ⟨hnoff', hoff, trivial, h.traps, nofun, fun _ b _ _ _ hb => ?_⟩
    rw [h.fresh hpos] at hb
    cases hb

namespace Inv

variable [DecidableEq C] [DecidableEq P] (h : Inv s)
include h

/-- A step of one thread. -/
theorem put (hr : Runs (s.exec c) x k) : Inv (s.put c x k) := by
  refine ⟨h.own, h.inj, fun c' => ?_, fun t ht => ?_⟩
  · show Runs (s.exec c') (update s.cpu c x c') (update s.thread (s.exec c) k (s.exec c'))
    by_cases hc : c' = c
    · rw [hc, update_self, update_self]
      exact hr
    · rw [update_of_ne hc, update_of_ne fun heq => hc (h.inj heq)]
      exact h.runs c'
  · have hne : t ≠ s.exec c := (ht c).symm
    show Waits t (update s.thread (s.exec c) k t)
    rw [update_of_ne hne]
    exact h.waits t ht

/-- A context switch. -/
theorem swtch {k' : Kthread L} (ht : ∀ c', s.exec c' ≠ t) (hown : ∀ c', t = .inr c' → c' = c)
    (hw : Waits (s.exec c) k) (hr : Runs t (s.cpu c) k') : Inv (s.swtch c k t k') := by
  have hhere : (s.swtch c k t k').exec c = t := update_self ..
  have helse {c'} (hc : c' ≠ c) : (s.swtch c k t k').exec c' = s.exec c' := update_of_ne hc ..
  have hthread : (s.swtch c k t k').thread = update (update s.thread (s.exec c) k) t k' := rfl
  refine ⟨fun {c₁ c₂} heq => ?_, fun {c₁ c₂} heq => ?_, fun c' => ?_, fun u hu => ?_⟩
  · by_cases hc : c₁ = c
    · rw [hc, hhere] at heq
      rw [hc]
      exact hown c₂ heq
    · rw [helse hc] at heq
      exact h.own heq
  · by_cases hc₁ : c₁ = c <;> by_cases hc₂ : c₂ = c
    · rw [hc₁, hc₂]
    · rw [hc₁, hhere, helse hc₂] at heq
      exact absurd heq.symm (ht c₂)
    · rw [hc₂, hhere, helse hc₁] at heq
      exact absurd heq (ht c₁)
    · rw [helse hc₁, helse hc₂] at heq
      exact h.inj heq
  · rw [Machine.cur, hthread]
    by_cases hc : c' = c
    · rw [hc, hhere, update_self]
      exact hr
    · rw [helse hc, update_of_ne (ht c'), update_of_ne fun heq => hc (h.inj heq)]
      exact h.runs c'
  · have hut : u ≠ t := fun heq => hu c (hhere.trans heq.symm)
    rw [hthread, update_of_ne hut]
    by_cases hold : u = s.exec c
    · rw [hold, update_self]
      exact hw
    · rw [update_of_ne hold]
      refine h.waits u fun c' hc' => ?_
      have hc : c' ≠ c := fun heq => hold (by rw [← hc', heq])
      exact hu c' ((helse hc).trans hc')

theorem step [DecidableEq L] {plock : P → L} (hs : Step plock s c s') : Inv s' := by
  have hr := h.runs c
  cases hs with
  | intrGet lk hpos =>
    exact h.put { hr with
      fits := rfl
      back := nofun
      intena := fun p b hp _ => hr.intena p b hp (by rw [hpos]; nofun) }
  | pushOff old lk hpos =>
    have hold : old = (s.cpu c).sie := by
      have hfits := hr.fits
      rw [hpos] at hfits
      exact hfits
    have hnoff : (s.cpu c).noff = 0 ↔ (s.cur c).count = 0 := by rw [hr.noff, Int.natCast_eq_zero]
    refine h.put ⟨?_, nofun, ?_, hr.traps, ?_, fun p b hp _ _ hb => ?_⟩
    · simp [CpuState.pushOff, hr.noff]
    · cases lk <;> trivial
    · cases lk <;> nofun
    · -- the outermost call sets `intena`, the others keep it
      by_cases hk : (s.cur c).count = 0
      · simp only [hk, if_true, Option.some.injEq] at hb
        rw [CpuState.pushOff, if_pos (hnoff.mpr hk), hold, hb]
      · simp only [hk, if_false] at hb
        rw [CpuState.pushOff, if_neg (mt hnoff.mp hk)]
        exact hr.intena p b hp (by rw [hpos]; nofun) hk hb
  | acquire lk hpos hfree =>
    have hrun : Runs (s.exec c) (s.cpu c) { s.cur c with pos := .run } :=
      { hr with
        fits := trivial
        back := nofun
        intena := fun p b hp _ => hr.intena p b hp (by rw [hpos]; nofun) }
    exact { h.put hrun with }
  | popOff lk y hpos hk hheld hx => exact { h.put (hr.pop hpos hk hx) with }
  | sched p hexec hpos hheld hnoff hsie =>
    have hnot : ∀ c', s.exec c' ≠ .inr c := fun c' heq => by
      rw [h.own heq, heq] at hexec
      cases hexec
    have hcount : (s.cur c).count = 1 := by
      have := hr.noff
      omega
    refine h.swtch hnot (fun c' heq => (Sum.inr.inj heq).symm)
      ⟨hcount, hr.traps, fun i b hi hb => ?_, nofun, fun c' heq => ?_⟩
      ((h.waits _ hnot).sched_runs hnoff hsie)
    · cases hi
      exact hr.intena p b hexec (by rw [hpos]; nofun) (by rw [hcount]; nofun) hb
    · rw [hexec] at heq
      cases heq
  | scheduler p q hexec hpos hheld hk hq =>
    have hnot : ∀ c', s.exec c' ≠ .inl p := fun c' heq => by
      have hfits := (h.runs c').fits
      rw [Machine.cur, heq] at hfits
      exact Pos.not_fits hq hfits
    have hnoff : (s.cpu c).noff = 1 := by rw [hr.noff, hk]; rfl
    refine h.swtch hnot nofun ⟨hk, hr.traps, ?_, ?_, fun _ _ => hpos⟩
      ((h.waits _ hnot).proc_runs hnoff (hr.sie_off (by rw [hk]; nofun)) hq) <;> rw [hpos] <;> nofun
  | restore i hpos =>
    exact h.put { hr with
      fits := trivial
      back := nofun
      intena := fun _ b _ _ _ hb => (hr.back i hpos).2 b hb }
  | intrSet sie hpos hk =>
    exact h.put { hr with
      off := fun _ => hk
      fits := by rw [hpos]; trivial
      intena := fun _ _ _ _ hne => absurd hk hne }
  | trap hsie =>
    have hk := hr.off hsie
    refine h.put { hr with
      off := nofun
      fits := trivial
      traps := fun q hq => ?_
      back := nofun
      intena := fun _ _ _ _ hne => absurd hk hne }
    rcases List.mem_cons.mp hq with rfl | hq
    · exact ⟨hsie ▸ hr.fits, fun i hi => (hr.back i hi).1 hk⟩
    · exact hr.traps q hq
  | sret q l hpos hk htraps =>
    obtain ⟨hfits, hback⟩ := hr.traps q (by rw [htraps]; exact List.mem_cons_self ..)
    exact h.put { hr with
      off := fun _ => hk
      fits := hfits
      traps := fun q' hq' => hr.traps q' (by rw [htraps]; exact List.mem_cons_of_mem _ hq')
      back := fun i hi => absurd hi (hback i)
      intena := fun _ _ _ _ hne => absurd hk hne }

end Inv

section
variable [DecidableEq C] [DecidableEq P] [DecidableEq L] {plock : P → L}

theorem Machine.Reach.inv (hs : Reach plock s) : Inv s := by
  induction hs with
  | boot intena sie =>
    refine ⟨fun heq => (Sum.inr.inj heq).symm, fun heq => Sum.inr.inj heq, fun c => ?_,
      fun t ht => ?_⟩
    · exact ⟨rfl, fun _ => rfl, trivial, nofun, nofun, nofun⟩
    · cases t with
      | inl p => exact ⟨rfl, nofun, nofun, fun _ => rfl, nofun⟩
      | inr c => exact absurd rfl (ht c)
  | step _ hstep ih => exact ih.step hstep

/-- The step by which a thread has nothing left to undo is a `pop_off`. -/
theorem Machine.Step.pop (hs : Step plock s c s') (hk : 0 < (s.cur c).count)
    (hk' : (s'.thread (s.exec c)).count = 0) :
    (s.cur c).pos = .run ∧ (s.cpu c).popOff = .ok (s'.cpu c) ∧ s'.exec c = s.exec c ∧
      (s'.thread (s.exec c)).outer = (s.cur c).outer := by
  have hput x k : (s.put c x k).thread (s.exec c) = k := update_self ..
  have hswtch {k t k'} (hne : s.exec c ≠ t) : (s.swtch c k t k').thread (s.exec c) = k :=
    Eq.trans (update_of_ne hne ..) (update_self ..)
  cases hs with
  | popOff lk y hpos _ hheld hx =>
    refine ⟨hpos, ?_, rfl, ?_⟩
    · simp [Machine.put, hx]
    · simp [Machine.put]
  | pushOff old lk hpos =>
    rw [hput] at hk'
    cases hk'
  | sched p hexec | scheduler p q hexec =>
    rw [hswtch (by rw [hexec]; nofun)] at hk'
    exact absurd hk' (Nat.ne_of_gt hk)
  | acquire lk hpos hfree => exact absurd (by simpa [Machine.put] using hk') (Nat.ne_of_gt hk)
  | _ =>
    rw [hput] at hk'
    exact absurd hk' (Nat.ne_of_gt hk)

/-- Interrupts are off while `noff` is positive, `pop_off` does not panic, and when a process has
undone all its calls of `push_off`, interrupts are enabled if and only if they were at the first. -/
theorem interrupts_restored (hs : Reach plock s) :
    (∀ c, 0 < (s.cpu c).noff → (s.cpu c).sie = false) ∧
    (∀ c, 0 < (s.cur c).count → ∀ msg, (s.cpu c).popOff ≠ .error msg) ∧
    ∀ c p s', Step plock s c s' → s.exec c = .inl p → 0 < (s.thread (.inl p)).count →
      (s'.thread (.inl p)).count = 0 → ∀ b, (s'.thread (.inl p)).outer = some b →
      (s'.cpu c).sie = b := by
  have h := hs.inv
  refine ⟨fun c hnoff => ?_, fun c hk msg => ?_, fun c p s' hstep hexec hk hk' b hb => ?_⟩
  · rw [(h.runs c).noff] at hnoff
    exact (h.runs c).sie_off (by omega)
  · have hnoff := (h.runs c).noff
    rw [CpuState.popOff, if_neg (by simp [(h.runs c).sie_off (Nat.ne_of_gt hk)]), if_neg (by omega)]
    nofun
  · rw [← hexec] at hk hk' hb
    obtain ⟨hpos, hpop, hexec', houter⟩ := hstep.pop hk hk'
    obtain ⟨-, hnoff, -, hon⟩ := CpuState.popOff_ok hpop
    have hintena := (h.runs c).intena p b hexec (by rw [hpos]; nofun) (Nat.ne_of_gt hk) (houter ▸ hb)
    have hzero := ((h.step hstep).runs c).noff
    rw [Machine.cur, hexec', hk'] at hzero
    have hone : (s.cpu c).noff = 1 := by omega
    rw [hone, hintena] at hon
    simpa using hon

/-- A process takes its lock with interrupts enabled on one CPU, and gives it up on another. -/
theorem interrupts_restored_moved : ∃ s s' : Machine Bool Unit Unit,
    Reach id s ∧ Step id s true s' ∧ (s'.cpu true).sie = true := by
  have h0 : Reach (C := Bool) (P := Unit) (L := Unit) id _ :=
    .boot (fun _ => false) fun _ => false
  have h1 := h0.step (.intrGet (c := false) (some ()) rfl)
  have h2 := h1.step (.pushOff (c := false) false (some ()) rfl)
  have h3 := h2.step (.acquire (c := false) () rfl rfl)
  have h4 := h3.step (.scheduler (c := false) () _ rfl rfl rfl rfl rfl)
  have h5 := h4.step (.popOff (c := false) (some ()) _ rfl (by decide) (fun _ _ => rfl) rfl)
  have h6 := h5.step (.intrSet (c := false) true rfl rfl)
  have h7 := h6.step (.intrGet (c := false) (some ()) rfl)
  have h8 := h7.step (.pushOff (c := false) true (some ()) rfl)
  have h9 := h8.step (.acquire (c := false) () rfl rfl)
  have h10 := h9.step (.sched (c := false) () rfl rfl rfl rfl rfl)
  have h11 := h10.step (.popOff (c := false) (some ()) _ rfl (by decide) (fun _ _ => rfl) rfl)
  have h12 := h11.step (.intrGet (c := true) (some ()) rfl)
  have h13 := h12.step (.pushOff (c := true) false (some ()) rfl)
  have h14 := h13.step (.acquire (c := true) () rfl rfl)
  have h15 := h14.step (.scheduler (c := true) () _ rfl rfl rfl rfl rfl)
  have h16 := h15.step (.restore (c := true) true rfl)
  have h17 := (interrupts_restored h16).2.2 true () _
    (.popOff (some ()) _ rfl (by decide) (fun _ _ => rfl) rfl) rfl (by decide) rfl true rfl
  exact ⟨_, _, h16, .popOff (some ()) _ rfl (by decide) (fun _ _ => rfl) rfl, h17⟩

end

end Xv6.Spinlock
