import Xv6.Proc.Proofs.Switch

/-!
# One CPU per process

Every step of the code keeps the invariant of locks and CPUs.
-/

namespace Xv6

open ProcState Function
open Kernel (instr_state instr_cproc instr_saved heldAt)

variable {Cpu X L : Type} {th : Thread Cpu} {new : ProcSlot Cpu X}

/-! ## Steps -/

/-- Instructions that do nothing to contexts and CPUs. -/
def Instr.simple : Instr Cpu X L → Bool
  | .context _ _ | .setProc _ _ | .save _ | .load _ _ => false
  | _ => true

/-- A slot is written back with its state, or woken up. -/
def Instr.Wakes (s : Kernel Cpu X L) (i : Instr Cpu X L) : Prop :=
  ∀ q new, i.wrote = some (q, new) →
    new.state = (s.slot q).state ∨ ((s.slot q).state = SLEEPING ∧ new.state = RUNNABLE)

namespace Instr.Wakes

variable {s : Kernel Cpu X L} {i : Instr Cpu X L}

theorem of_none (h : i.wrote = none) : i.Wakes s := by
  intro q new hw
  rw [h] at hw
  cases hw

theorem of_some {q : Proc} (h : i.wrote = some (q, new))
    (hnew : new.state = (s.slot q).state ∨
      ((s.slot q).state = SLEEPING ∧ new.state = RUNNABLE)) : i.Wakes s := by
  intro q' new' hw
  rw [h] at hw
  cases hw
  exact hnew

end Instr.Wakes

theorem ProcSlot.wakeup_state [DecidableEq X] (ch : Chan X) (q : ProcSlot Cpu X) :
    (q.wakeup ch).state = q.state ∨ (q.state = SLEEPING ∧ (q.wakeup ch).state = RUNNABLE) := by
  unfold wakeup
  split
  · exact .inr ⟨(‹_ ∧ _›).1, rfl⟩
  · exact .inl rfl

theorem ProcSlot.kill_state (q : ProcSlot Cpu X) :
    q.kill.state = q.state ∨ (q.state = SLEEPING ∧ q.kill.state = RUNNABLE) := by
  unfold kill
  split
  · exact .inr ⟨‹_›, rfl⟩
  · exact .inl rfl

namespace KInv

variable [DecidableEq Cpu] [DecidableEq X] [DecidableEq L] {lkOf : X → L} {s s' : Kernel Cpu X L}
  {c : Cpu} {i : Instr Cpu X L} {p : Proc} {pc : Pc X} {a : Act X} {e : ProcEvent}

section

variable (h : KInv lkOf s)
include h

theorem of_stays (hi : s.instr c (s.exec c) i = some s') (hstay : i.stays = true)
    (hfits : i.Fits lkOf (s.exec c) (s.pc (s.exec c)))
    (hnew : ∀ np k, i = .context np k → ∀ c', s.exec c' ≠ .proc np)
    (hrun : Moves s c i.next s' → Running s') : KInv lkOf s' := by
  have hm := Kernel.instr_moves hi hstay hnew
  exact ⟨h.locks.instr h.running.inj hi hstay hfits hm, hrun hm⟩

theorem of_plain (hi : s.instr c (s.exec c) i = some s')
    (hfits : i.Fits lkOf (s.exec c) (s.pc (s.exec c))) (hsimple : i.simple = true)
    (hhere : s.pc (s.exec c) = pc) (hpc : pc.plain = true) (hk : i.next.plain = true)
    (hwakes : i.Wakes s) : KInv lkOf s' := by
  subst hhere
  have hstay : i.stays = true := by
    cases i <;> first | rfl | cases hsimple
  have hset : i.sets = false := by
    cases i <;> first | rfl | cases hsimple
  refine h.of_stays hi hstay hfits (fun np k hctx => ?_) fun hm =>
    h.running.plain hi hm hpc hk hstay hset hwakes
  rw [hctx] at hsimple
  cases hsimple

theorem of_leave {fl : List Page} {k : Pc X}
    (hi : s.instr c (s.exec c) (.write p new fl k) = some s') (hexec : s.exec c = .proc p)
    (hfits : Instr.Fits lkOf (s.exec c) (s.pc (s.exec c)) (.write p new fl k))
    (hpc : (s.pc (.proc p)).leaving = false) (hnew : new.state ≠ RUNNING ∧ new.state ≠ UNUSED)
    (hk : k.leaving = true ∧ k.isLoad = false ∧ k.starts = none ∧ k.forking = none) :
    KInv lkOf s' := by
  refine h.of_stays hi rfl hfits nofun fun hm => ?_
  have hstate := instr_state hi
  refine h.running.leave (instr_cproc hi rfl) (by cases hi; rfl) hm hexec (fun q hq => ?_) ?_
    hpc hk.1 hk.2.1 hk.2.2.1 hk.2.2.2
  · exact (hstate q).trans (if_neg hq)
  · rw [show (s'.slot p).state = new.state from (hstate p).trans (if_pos rfl)]
    exact hnew

end

theorem of_fork (h : KInv lkOf s) (hi : s.instr c (s.exec c) i = some s')
    (hexec : s.exec c = .proc p) (hpc : s.pc (.proc p) = pc)
    (hfits : i.Fits lkOf (s.exec c) (s.pc (s.exec c))) (hstay : i.stays = true)
    (hset : i.sets = false) (hnew : ∀ np k, i = .context np k → ∀ c', s.exec c' ≠ .proc np)
    (hpart : pc.leaving = false ∧ pc.starts = none ∧ pc.target = none)
    (hnext : i.next.leaving = false ∧ i.next.isLoad = false ∧ i.next.starts = none ∧
      i.next.target = none)
    (hforking : ∀ np, i.next.forking = some np → (s.slot np).state = UNUSED)
    (hforked : ∀ np, i.next.forked = some np → s'.saved (.proc np) = true) (hwakes : i.Wakes s) :
    KInv lkOf s' := by
  have hhere : s.pc (s.exec c) = pc := by rw [hexec, hpc]
  refine h.of_stays hi hstay hfits hnew fun hm => ?_
  refine h.running.frame hm (Running.Kept.of_instr hi hwakes) (instr_cproc hi hset)
    (fun q => instr_saved hi hstay) ?_ ?_ ?_ (fun q _ hload => ?_) hforking hforked
    fun q _ => ?_
  · rw [hhere, hpart.1, hnext.1]
  · rw [hhere, hpart.2.1, hnext.2.2.1]
  · rw [hhere, hpart.2.2, hnext.2.2.2]
  · rw [hnext.2.1] at hload
    cases hload
  · rw [hhere, hpart.2.1]

omit [DecidableEq Cpu] [DecidableEq X] [DecidableEq L] in
theorem not_exec_forking (h : KInv lkOf s) {np : Proc} (hexec : s.exec c = .proc p)
    (hnp : (s.pc (.proc p)).forking = some np) (hstay : (s.pc (.proc p)).leaving = false) (c' : Cpu) :
    s.exec c' ≠ .proc np := by
  refine h.running.not_exec h.locks ?_ (by rw [hexec, hstay]) ?_ c'
  · unfold heldAt
    rw [hexec]
    exact Pc.mem_held_of_forking hnp _
  · rw [h.running.forking hnp]
    nofun

section
variable (h : KInv lkOf s) (hi : s.instr c (s.exec c) i = some s')
include h hi

theorem sched (hexec : s.exec c = .sched c)
    (hpc : s.pc (.sched c) = pc) (hdoes : Does lkOf s c (.sched c) pc e i) : KInv lkOf s' := by
  have hof : pc.ofSched = true := hpc ▸ h.locks.of (.sched c)
  have hhere : s.pc (s.exec c) = pc := hexec ▸ hpc
  have hfits : i.Fits lkOf (s.exec c) (s.pc (s.exec c)) := by
    rw [hhere, hexec]
    exact hdoes.fits hof
  cases hdoes with
  | intr hopen => exact h.of_plain hi hfits rfl hhere (Pc.plain_of_open hopen) rfl (.of_none rfl)
  | wakeDone =>
    obtain rfl := Pc.eq_run hof
    exact h.of_plain hi hfits rfl hhere rfl rfl (.of_none rfl)
  | wakeHeld => exact h.of_plain hi hfits rfl hhere rfl rfl (.of_some rfl (ProcSlot.wakeup_state _ _))
  | wakeLock | wakeSet | wakeNext | dispatch =>
    exact h.of_plain hi hfits rfl hhere rfl rfl (.of_none rfl)
  | skip | schedRelease => exact h.of_plain hi hfits rfl hhere rfl rfl (.of_some rfl (.inl rfl))
  | pick hq =>
    refine h.of_stays hi rfl hfits nofun fun hm => ?_
    cases hi
    exact h.running.pick rfl rfl h.locks hexec (fun r hr => by
      show (update s.slot _ _ r).state = _
      rw [update_of_ne hr]) hm hpc hq (by
      show (update s.slot _ _ _).state = _
      rw [update_self])
  | schedSet =>
    refine h.of_stays hi rfl hfits nofun fun hm => ?_
    cases hi
    exact h.running.setTarget rfl hexec (fun c' hc => update_of_ne hc ..) hm hpc (update_self ..) rfl
  | schedSave =>
    refine h.of_stays hi rfl hfits nofun fun hm => ?_
    refine h.running.frame hm (Running.Kept.of_instr hi (Instr.Wakes.of_none rfl))
      (instr_cproc hi rfl) (fun p => instr_saved hi rfl) ?_ ?_ ?_ nofun nofun nofun
      fun p hp => ?_
    · rw [hhere]
      rfl
    · rw [hhere]
      rfl
    · rw [hhere]
      rfl
    · rw [hexec] at hp
      cases hp
  | @schedLoad c' q =>
    have hs : Switches s c (.proc q) (.schedBack q) s' := by
      cases hi
      exact ⟨rfl, rfl, rfl, rfl, rfl, rfl⟩
    have hres := h.running.resume (h.running.apart hexec (.inl (by rw [hpc]; rfl)))
    refine ⟨hs.locks h.locks h.running.inj (by rw [hexec]; nofun) hfits.of ?_ ?_,
      h.running.start h.locks hs hexec hpc⟩
    · unfold heldAt
      rw [hexec, hpc]
      exact Pc.held_of_resume hres _
    · rw [hexec, hpc]
      exact Pc.heldLk_of_resume hres _
  | schedBack =>
    refine h.of_stays hi rfl hfits nofun fun hm => ?_
    cases hi
    exact h.running.clearTarget rfl hexec (fun c' hc => update_of_ne hc ..) hm hpc (update_self ..) rfl

theorem proc (hexec : s.exec c = .proc p)
    (hpc : s.pc (.proc p) = pc) (hdoes : Does lkOf s c (.proc p) pc e i) : KInv lkOf s' := by
  have hof : pc.ofProc = true := hpc ▸ h.locks.of (.proc p)
  have hhere : s.pc (s.exec c) = pc := hexec ▸ hpc
  have hfits : i.Fits lkOf (s.exec c) (s.pc (s.exec c)) := by
    rw [hhere, hexec]
    exact hdoes.fits hof
  have hunused : ∀ {np}, pc.forking = some np → (s.slot np).state = UNUSED := fun hnp =>
    h.running.forking (hpc ▸ hnp)
  have hsaved : ∀ {np}, pc.forked = some np → s.saved (.proc np) = true := fun hnp =>
    h.running.forked (hpc ▸ hnp)
  cases hdoes with
  | tick hopen | intr hopen =>
    exact h.of_plain hi hfits rfl hhere (Pc.plain_of_open hopen) rfl (.of_none rfl)
  | wakeDone => exact h.of_plain hi hfits rfl hhere rfl (Pc.plain_of_open hof) (.of_none rfl)
  | wakeHeld | exitInitHeld | exitWake =>
    exact h.of_plain hi hfits rfl hhere rfl rfl (.of_some rfl (ProcSlot.wakeup_state _ _))
  | kill => exact h.of_plain hi hfits rfl hhere rfl rfl (.of_some rfl (ProcSlot.kill_state _))
  | yieldEnd =>
    exact h.of_plain hi hfits rfl hhere rfl (Pc.plain_of_open hof) (.of_some rfl (.inl rfl))
  | sleepEnd | spare | forkSkip | exitGive | exitReadHeld | waitFail | reap | waitAlive | waitFault
  | waitDone | waitEnd | forkret =>
    exact h.of_plain hi hfits rfl hhere rfl rfl (.of_some rfl (.inl rfl))
  | test =>
    refine h.of_plain hi hfits rfl hhere rfl ?_ (.of_none rfl)
    split <;> rfl
  | yieldHeld | sleepSet | exitZombie | waitSleep =>
    exact h.of_leave hi hexec hfits (by rw [hpc]; rfl) ⟨nofun, nofun⟩ ⟨rfl, rfl, rfl, rfl⟩
  | save =>
    refine h.of_stays hi rfl hfits nofun fun hm => ?_
    refine h.running.frame hm (Running.Kept.of_instr hi (Instr.Wakes.of_none rfl))
      (instr_cproc hi rfl) (fun q => instr_saved hi rfl) ?_ ?_ ?_ (fun q hq _ => ?_)
      nofun nofun fun q _ => ?_
    · rw [hhere]
      rfl
    · rw [hhere]
      rfl
    · rw [hhere]
      rfl
    · cases hi
      show update s.saved (s.exec c) true (.proc q) = true
      rw [hq, update_self]
    · rw [hhere]
      rfl
  | @load _ k =>
    have hs : Switches s c (.sched c) k s' := by
      cases hi
      exact ⟨rfl, rfl, rfl, rfl, rfl, rfl⟩
    have hback := (h.running.proc hexec).2
    refine ⟨hs.locks h.locks h.running.inj (by rw [hexec]; nofun) hfits.of ?_ ?_,
      h.running.stop hs hexec hpc (Bool.and_eq_true_iff.mp hof).1⟩
    · unfold heldAt
      rw [hexec, hpc, hback]
      rfl
    · rw [hexec, hpc, hback]
      rfl
  | forkTake hq =>
    refine h.of_fork hi hexec hpc hfits rfl rfl nofun ⟨rfl, rfl, rfl⟩ ⟨rfl, rfl, rfl, rfl⟩ ?_ nofun
      (.of_none rfl)
    rintro np ⟨⟩
    exact hq
  | noFrame =>
    exact h.of_fork hi hexec hpc hfits rfl rfl nofun ⟨rfl, rfl, rfl⟩ ⟨rfl, rfl, rfl, rfl⟩ nofun nofun
      (.of_some rfl (.inl rfl))
  | noTable | noCopy =>
    exact h.of_fork hi hexec hpc hfits rfl rfl nofun ⟨rfl, rfl, rfl⟩ ⟨rfl, rfl, rfl, rfl⟩ nofun nofun
      (.of_some rfl (.inl (hunused rfl).symm))
  | frame =>
    refine h.of_fork hi hexec hpc hfits rfl rfl nofun ⟨rfl, rfl, rfl⟩ ⟨rfl, rfl, rfl, rfl⟩ ?_ nofun
      (.of_some rfl (.inl rfl))
    rintro np ⟨⟩
    exact hunused rfl
  | forkContext =>
    have hnot := h.not_exec_forking hexec (by rw [hpc]; rfl) (by rw [hpc]; rfl)
    refine h.of_fork hi hexec hpc hfits rfl rfl ?_ ⟨rfl, rfl, rfl⟩ ⟨rfl, rfl, rfl, rfl⟩ ?_ ?_
      (.of_none rfl)
    · rintro np k ⟨⟩
      exact hnot
    · rintro np ⟨⟩
      exact hunused rfl
    · rintro np ⟨⟩
      cases hi
      exact update_self ..
  | copy | forkParent =>
    refine h.of_fork hi hexec hpc hfits rfl rfl nofun ⟨rfl, rfl, rfl⟩ ⟨rfl, rfl, rfl, rfl⟩ ?_ ?_
      (.of_some rfl (.inl rfl))
    · rintro np ⟨⟩
      exact hunused rfl
    · rintro np ⟨⟩
      exact instr_saved hi rfl (hsaved rfl)
  | forkEnd =>
    refine h.of_stays hi rfl hfits nofun fun hm => ?_
    have hstate := instr_state hi
    exact h.running.forkEnd (instr_cproc hi rfl) (by cases hi; rfl) h.locks
      (fun r hr => (hstate r).trans (if_neg hr)) hm hexec
      hpc ((hstate _).trans (if_pos rfl))
  | exitRelease =>
    refine h.of_stays hi rfl hfits nofun fun hm => ?_
    refine h.running.frame hm (Running.Kept.of_instr hi (Instr.Wakes.of_some rfl (.inl rfl)))
      (instr_cproc hi rfl) (fun q => instr_saved hi rfl) ?_ ?_ ?_ nofun nofun nofun
      fun q _ => ?_
    · rw [hhere]
      rfl
    · rw [hhere]
      rfl
    · rw [hhere]
      rfl
    · rw [hhere]
      rfl
  | _ => exact h.of_plain hi hfits rfl hhere rfl rfl (.of_none rfl)

omit hi in
theorem step (hs : KStep lkOf s e s') : KInv lkOf s' := by
  obtain ⟨hcode, hi⟩ := hs
  rename_i c i
  have hdoes := hcode.does
  cases hexec : s.exec c with
  | proc p => exact h.proc hi hexec rfl (hexec ▸ hdoes)
  | sched c' =>
    obtain rfl := h.running.own hexec
    exact h.sched hi hexec rfl (hexec ▸ hdoes)

/-- A thread that does not move in a step of CPU `c` is where it was, or it is a new process. -/
theorem pc_other (hcode : Code lkOf s c (s.exec c) e i) (hth : th ≠ s.exec c) :
    s'.pc th = s.pc th ∨ ((s.pc th).resume = true ∧ s'.pc th = .forkret) := by
  rcases Kernel.instr_pc hi hth with heq | ⟨np, k, rfl, rfl, heq⟩
  · exact .inl heq
  refine .inr ⟨h.running.resume fun c' => ?_, heq⟩
  have hof := h.locks.of (s.exec c)
  have hpc := (hcode.fits hof).keeps.1
  cases hexec : s.exec c with
  | proc p =>
    rw [hexec] at hpc
    exact h.not_exec_forking hexec (by rw [hpc]; rfl) (by rw [hpc]; rfl) c'
  | sched c'' =>
    rw [hpc, hexec] at hof
    cases hof

end

theorem view_cases {α : Type} (view : Pc X → α) (h : KInv lkOf s)
    (hcode : Code lkOf s c (s.exec c) e i) (hi : s.instr c (s.exec c) i = some s')
    {a : α} (ha : view (s'.pc th) = a) (hne : view .forkret ≠ a) :
    (th = s.exec c ∧ view i.next = a) ∨ (th ≠ s.exec c ∧ view (s.pc th) = a) := by
  by_cases hth : th = s.exec c
  · rw [hth, Kernel.instr_here hi] at ha
    exact .inl ⟨hth, ha⟩
  · rcases h.pc_other hi hcode hth with heq | ⟨-, heq⟩
    · exact .inr ⟨hth, heq ▸ ha⟩
    · exact absurd (heq ▸ ha) hne

theorem pc_cases (h : KInv lkOf s) (hcode : Code lkOf s c (s.exec c) e i)
    (hi : s.instr c (s.exec c) i = some s') (hpc : s'.pc th = pc)
    (hne : .forkret ≠ pc) : (th = s.exec c ∧ i.next = pc) ∨ (th ≠ s.exec c ∧ s.pc th = pc) :=
  h.view_cases (fun pc => pc) hcode hi hpc hne

omit [DecidableEq X] [DecidableEq L] in
theorem boot {tf : Page} {pt free : List Page} {cond : X → Bool} :
    KInv lkOf (Kernel.boot tf pt free cond : Kernel Cpu X L) := by
  have hslot : ∀ p, ((Kernel.boot tf pt free cond : Kernel Cpu X L).slot p).lock = none ∧
      ((Kernel.boot tf pt free cond : Kernel Cpu X L).slot p).state ≠ RUNNING := by
    intro p
    by_cases hp : p = initproc
    · simp [Kernel.boot, hp]
    · simp [Kernel.boot, hp, ProcSlot.empty]
  refine ⟨⟨fun th => by cases th <;> rfl, ⟨fun c => List.nodup_nil, ?_⟩,
    ⟨fun c => List.nodup_nil, ?_⟩⟩, ⟨?_, ?_, nofun, fun _ => rfl, nofun,
    fun hrun => absurd hrun (hslot _).2, nofun, ?_, fun _ => rfl, fun {p} _ hused => ?_, nofun, nofun,
    nofun⟩⟩
  · intro q c
    rw [(hslot q).1]
    exact iff_of_false nofun nofun
  · intro l c
    exact iff_of_false nofun nofun
  · rintro c c' ⟨⟩
    rfl
  · rintro c c' ⟨⟩
    rfl
  · rintro c p - (h | h) <;> cases h
  · by_cases hp : p = initproc
    · simp [Kernel.boot, hp]
    · simp [Kernel.boot, hp, ProcSlot.empty] at hused

end KInv

section
variable [DecidableEq Cpu] [DecidableEq X] [DecidableEq L] {lkOf : X → L}
  {ok : Kernel Cpu X L → ProcEvent → Kernel Cpu X L → Prop} {s s0 : Kernel Cpu X L}
  {es : List ProcEvent} {p : Proc}

theorem KRun.inv (h : KRun lkOf ok s0 es s) (h0 : KInv lkOf s0) : KInv lkOf s := by
  induction h with
  | boot => exact h0
  | step _ _ hs ih => exact ih.step hs

section
omit [DecidableEq Cpu] [DecidableEq X] [DecidableEq L]

theorem KInv.cproc_cases (h : KInv lkOf s) {c : Cpu} (hp : s.cproc c = some p) :
    s.exec c = .proc p ∨
      (s.exec c = .sched c ∧ (s.pc (.sched c)).target = some p ∧ p ∈ s.heldAt c) := by
  cases hexec : s.exec c with
  | proc q =>
    have := (h.running.proc hexec).1
    rw [hp] at this
    cases this
    exact .inl rfl
  | sched c' =>
    obtain rfl := h.running.own hexec
    have htarget : (s.pc (.sched c')).target = some p := by rw [← h.running.idle hexec, hp]
    refine .inr ⟨rfl, htarget, ?_⟩
    unfold heldAt
    rw [hexec]
    exact Pc.mem_held_of_target htarget _

theorem KInv.cproc_inj (h : KInv lkOf s) {c c' : Cpu} (hp : s.cproc c = some p)
    (hp' : s.cproc c' = some p) : c = c' := by
  rcases h.cproc_cases hp with hexec | ⟨hexec, htarget, hmem⟩ <;>
    rcases h.cproc_cases hp' with hexec' | ⟨hexec', htarget', hmem'⟩
  · exact h.running.inj (hexec.trans hexec'.symm)
  · exact absurd hexec (h.running.apart hexec' (.inr htarget') c)
  · exact absurd hexec' (h.running.apart hexec (.inr htarget) c')
  · exact h.locks.proc.eq_of_mem hmem hmem'

end

/-- One CPU per process: in every reachable state no process is executed by two CPUs or the `c->proc`
of two CPUs; a process that is `RUNNING` and whose lock is free is the `c->proc` of exactly one CPU;
and when a scheduler comes to load the context of a process, the context is saved and no CPU is
still in the process. -/
theorem one_cpu_per_process (tf : Page) (pt free : List Page) (cond : X → Bool)
    (h : KRun lkOf (fun _ _ _ => True) (.boot tf pt free cond) es s) :
    (∀ c c' p, s.exec c = .proc p → s.exec c' = .proc p → c = c') ∧
    (∀ c c' p, s.cproc c = some p → s.cproc c' = some p → c = c') ∧
    (∀ c p, s.exec c = .proc p → s.cproc c = some p) ∧
    (∀ p, (s.slot p).state = RUNNING → (s.slot p).lock = none → ∃! c, s.cproc c = some p) ∧
    ∀ c p, s.exec c = .sched c → s.pc (.sched c) = .schedLoad p →
      s.saved (.proc p) = true ∧ ∀ c', s.exec c' ≠ .proc p := by
  have hinv := h.inv KInv.boot
  refine ⟨fun c c' p hc hc' => hinv.running.inj (hc.trans hc'.symm),
    fun c c' p => hinv.cproc_inj, fun c p hexec => (hinv.running.proc hexec).1,
    fun p hrun hfree => ?_, fun c p hexec hpc => ?_⟩
  · obtain ⟨c, hexec | ⟨hexec, hstart⟩⟩ := hinv.running.running hrun
    · have hcp := (hinv.running.proc hexec).1
      exact ⟨c, hcp, fun c' hc' => hinv.cproc_inj hc' hcp⟩
    · have hmem : p ∈ s.heldAt c := by
        unfold heldAt
        rw [hexec]
        exact Pc.mem_held_of_starts hstart _
      have hheld : (s.slot p).lock = some c := hinv.locks.proc.mem.mpr hmem
      rw [hfree] at hheld
      cases hheld
  · have hstart : (s.pc (.sched c)).starts = some p := by rw [hpc]; rfl
    have hno := hinv.running.apart hexec (.inl hstart)
    refine ⟨hinv.running.saved hno ?_, hno⟩
    rw [hinv.running.starts hexec hstart]
    nofun

end

/-- After boot a CPU comes to load the context of the first process. -/
theorem one_cpu_per_process_init :
    ∃ (es : List ProcEvent) (s : Kernel Bool Unit Unit),
      KRun id (fun _ _ _ => True) (.boot 0 [] [] fun _ => false) es s ∧
      s.pc (.sched false) = .schedLoad initproc ∧ s.saved (.proc initproc) = true := by
  have hrun : KRun (id : Unit → Unit) (fun _ _ _ => True)
      (.boot 0 [] [] fun _ => false : Kernel Bool Unit Unit) _ _ :=
    (((KRun.boot.step trivial (.mk (c := false) (.sched (a := .dispatch initproc) rfl) rfl)).step
      trivial (.mk (c := false) (.sched (a := .go) rfl) rfl)).step
      trivial (.mk (c := false) (.sched (a := .go) rfl) rfl)).step
      trivial (.mk (c := false) (.sched (a := .go) rfl) rfl)
  obtain ⟨-, -, -, -, hload⟩ := one_cpu_per_process _ _ _ _ hrun
  exact ⟨_, _, hrun, rfl, (hload false initproc rfl rfl).1⟩

end Xv6
