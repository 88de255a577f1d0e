import Xv6.Proc.Proofs.Kids

/-!
# The tree of processes

Every process in use other than the first has a parent in use that has not exited, and the first
process is an ancestor of all. A process gives all its children to the first one before it becomes a
`ZOMBIE`; nobody but the process itself makes children for it. Parents have a smaller rank than their
children, which a new process gets when it becomes runnable.
-/

namespace Xv6

open ProcState

variable {Cpu X L : Type}

namespace Pc

def given : Pc X → Option Nat
  | .exitScan _ _ i => some i
  | .exitGive _ _ i => some i
  | .exitWake _ _ | .exitZombie _ _ => some NPROC
  | _ => none

variable {pc : Pc X} {n : Nat}

attribute [local simp] given Pc.open resume exiting

theorem given_of_open (h : pc.open = true) : pc.given = none := by
  cases pc <;> simp_all

theorem given_of_resume (h : pc.resume = true) : pc.given = none := by
  cases pc <;> simp_all

theorem exiting_of_given (h : pc.given = some n) : ∃ op, pc.exiting = some op := by
  cases pc <;> simp_all

end Pc

/-! ## What `reparent` does -/

/-- Where an instruction of thread `th` at `pc` comes to in the loop of `reparent`: the slot that it
leaves behind has another parent, or gets one. -/
def Instr.Gives (s : Kernel Cpu X L) (th : Thread Cpu) (pc : Pc X) (i : Instr Cpu X L) : Prop :=
  ∀ n, i.next.given = some n → n = 0 ∨ ∃ p m, th = .proc p ∧ pc.given = some m ∧
    (n ≤ m ∨ NPROC ≤ m ∨ (n = m + 1 ∧ ∀ q : Proc, q.val = m →
      (s.slot q).parent ≠ some p ∨
        i.wrote = some (q, { s.slot q with parent := some initproc })))

section
variable [DecidableEq X] {lkOf : X → L} {s : Kernel Cpu X L} {c : Cpu} {th : Thread Cpu}
  {pc : Pc X} {p : Proc} {i : Instr Cpu X L} {a : Act X} {e : ProcEvent}

omit [DecidableEq X] in
theorem Instr.Gives.of_none (h : i.next.given = none) : i.Gives s th pc := by
  intro n hn
  rw [h] at hn
  cases hn

theorem Does.gives (h : Does lkOf s c th pc e i) (hof : pc.of th) : i.Gives s th pc := by
  cases h with
  | wakeDone => exact .of_none (Pc.given_of_open (Pc.open_of_wakeScan hof))
  | yieldEnd => exact .of_none (Pc.given_of_open hof)
  | load => exact .of_none (Pc.given_of_resume (Bool.and_eq_true_iff.mp hof).1)
  | test => split <;> exact .of_none rfl
  | exitSelf =>
    rintro n ⟨⟩
    exact .inl rfl
  | exitChild =>
    rintro n ⟨⟩
    exact .inr ⟨_, _, rfl, rfl, .inl le_rfl⟩
  | exitNext hj hq =>
    rintro n ⟨⟩
    refine .inr ⟨_, _, rfl, rfl, .inr (.inr ⟨rfl, ?_⟩)⟩
    rintro q rfl
    exact .inl hq
  | exitDone hj =>
    rintro n ⟨⟩
    exact .inr ⟨_, _, rfl, rfl, .inr (.inl (Nat.not_lt.mp hj))⟩
  | exitGive =>
    rintro n ⟨⟩
    refine .inr ⟨_, _, rfl, rfl, .inr (.inr ⟨rfl, fun q hq => ?_⟩)⟩
    rw [Fin.ext hq]
    exact .inr rfl
  | exitWake =>
    rintro n ⟨⟩
    exact .inr ⟨_, NPROC, rfl, rfl, .inl le_rfl⟩
  | _ => exact .of_none rfl

theorem Code.gives (h : Code lkOf s c th e i) (hof : (s.pc th).of th) : i.Gives s th (s.pc th) :=
  h.does.gives hof

end

/-! ## The tree -/

/-- The process is in use and has not exited. -/
def Kernel.Alive (s : Kernel Cpu X L) (q : Proc) : Prop :=
  (s.slot q).state ≠ UNUSED ∧ (s.slot q).state ≠ ZOMBIE

/-- Processes in use form a tree, with ranks that grow from the first process on. -/
structure Tree (s : Kernel Cpu X L) (rank : Proc → Nat) : Prop where
  root : (s.slot initproc).parent = none
  alive : s.Alive initproc
  low : rank initproc = 0
  parent : ∀ {r}, r ≠ initproc → (s.slot r).state ≠ UNUSED →
    ∃ q, (s.slot r).parent = some q ∧ rank q < rank r ∧ s.Alive q
  gave : ∀ {p n}, (s.pc (.proc p)).given = some n → ∀ r : Proc, r < n → (s.slot r).parent ≠ some p

section
variable [DecidableEq Cpu] [DecidableEq X] [DecidableEq L] {lkOf : X → L} {s s' : Kernel Cpu X L}
  {c : Cpu} {p q r : Proc} {i : Instr Cpu X L} {e : ProcEvent} {rank : Proc → Nat} {n : Nat}
  {pc : Pc X}

theorem KInv.alive_kept (h : KInv lkOf s) (hcode : Code lkOf s c (s.exec c) e i)
    (hi : s.instr c (s.exec c) i = some s') (hq : s.Alive q)
    (hdies : s.exec c = .proc q → ∀ status op, s.pc (.proc q) ≠ .exitZombie status op) :
    s'.Alive q := by
  refine ⟨(h.used hcode hi hq.1).1, ?_⟩
  cases hcode.change_slot hi q with
  | same hs _ _ | wakes _ hs _ _ | given _ _ hs _ _ | forked _ _ hs _ _ =>
    rw [hs]
    exact hq.2
  | woken _ hs _ | picked _ hs _ | yields _ hs _ | sleeps _ _ hs _ _ | waits _ _ _ _ hs _ _
  | freed _ hs _ | born _ hs _ =>
    rw [hs]
    nofun
  | dies hth hpc _ _ =>
    rw [hth] at hpc
    exact absurd hpc (hdies hth _ _)

omit [DecidableEq Cpu] [DecidableEq X] [DecidableEq L] in
theorem Pc.leaving_of_filling (h : pc.filling = some r) : pc.leaving = false := by
  cases pc <;> first | rfl | cases h

theorem KInv.born (h : KInv lkOf s) (hcode : Code lkOf s c (s.exec c) e i)
    (hi : s.instr c (s.exec c) i = some s') (hold : (s.slot r).state = UNUSED)
    (hused : (s'.slot r).state ≠ UNUSED) :
    s.pc (s.exec c) = .forkEnd r ∧ (s'.slot r).parent = (s.slot r).parent := by
  cases hcode.change_slot hi r with
  | same hs | wakes _ hs | given _ _ hs | forked _ _ hs => exact absurd (hs.trans hold) hused
  | freed _ hs => exact absurd hs hused
  | woken hs | picked hs =>
    rw [hold] at hs
    cases hs
  | sleeps hth hpc | waits hth hpc | dies hth hpc =>
    exact absurd hold (h.used_of_exec hth (by rw [hpc]; rfl))
  | yields hth hs =>
    cases hcode.touch hi (h.locks.of _) hold with
    | same hnew =>
      rw [hnew] at hused
      exact absurd hold hused
    | own _ hpc => exact absurd hold (h.used_of_exec hth hpc)
    | kill hpc | give hpc | noFrame hpc | found hpc | forked _ hpc | born hpc =>
      exact absurd hold (h.used_of_exec hth (by rw [hpc]; rfl))
    | freed hpc | fill hpc => exact absurd hold (h.used_of_exec hth (Pc.leaving_of_filling hpc))
  | born hpc _ hp => exact ⟨hpc, hp⟩

namespace Tree

omit [DecidableEq Cpu] [DecidableEq X] [DecidableEq L] in
theorem ne_init (h : Tree s rank) (hf : Family s) {op : Proc}
    (hpc : (s.pc (.proc p)).exiting = some op) : p ≠ initproc := by
  intro heq
  subst heq
  rcases (hf.exiting hpc).2 with hop | hop <;>
  · rw [h.root] at hop
    cases hop

section
variable (h : Tree s rank) (hinv : KInv lkOf s) (hcode : Code lkOf s c (s.exec c) e i)
  (hi : s.instr c (s.exec c) i = some s') (hf : Family s)
include h hinv hcode hi hf

omit hf in
theorem step_root (hkids : Kids s) : (s'.slot initproc).parent = none := by
  rw [← h.root]
  cases hcode.change_slot hi initproc with
  | same _ _ hp | woken _ _ hp | picked _ _ hp | yields _ _ hp | sleeps _ _ _ _ hp
  | waits _ _ _ _ _ _ hp | wakes _ _ _ hp | born _ _ hp | dies _ _ _ hp => exact hp
  | freed hpc _ _ => exact absurd (hinv.unused_of_forking hpc) h.alive.1
  | forked _ hpc _ _ _ => exact absurd (hinv.unused_of_forking (by rw [hpc]; rfl)) h.alive.1
  | given hth hpc _ _ _ =>
    rw [hth] at hpc
    have hgiven := hkids.giving hpc
    rw [h.root] at hgiven
    cases hgiven

theorem step_alive : s'.Alive initproc := by
  apply hinv.alive_kept hcode hi h.alive
  intro _ status op hpc
  exact h.ne_init hf (show (s.pc (.proc initproc)).exiting = some op by rw [hpc]; rfl) rfl

omit hinv in
theorem not_child (hpc : (s.pc (.proc p)).given = some n)
    (hr : (s.slot r).parent ≠ some p) : (s'.slot r).parent ≠ some p := by
  cases hcode.change_slot hi r with
  | same _ _ hp | woken _ _ hp | picked _ _ hp | yields _ _ hp | sleeps _ _ _ _ hp
  | waits _ _ _ _ _ _ hp | wakes _ _ _ hp | born _ _ hp | dies _ _ _ hp =>
    rw [hp]
    exact hr
  | freed _ _ hp =>
    rw [hp]
    nofun
  | forked hth hfork _ _ hp =>
    rw [hp]
    intro heq
    cases heq
    rw [hth] at hfork
    rw [hfork] at hpc
    cases hpc
  | given _ _ _ _ hp =>
    rw [hp]
    intro heq
    obtain ⟨op, hop⟩ := Pc.exiting_of_given hpc
    exact h.ne_init hf hop (Option.some.inj heq).symm

theorem step_gave
    (hpc : (s'.pc (.proc p)).given = some n) (hr : r < n) : (s'.slot r).parent ≠ some p := by
  rcases hinv.view_cases Pc.given hcode hi hpc nofun with ⟨hth, hpc⟩ | ⟨hth, hpc⟩
  · rcases hcode.gives (hinv.locks.of _) n hpc with rfl | ⟨p', m, hp', hm, hn⟩
    · exact absurd hr (Nat.not_lt_zero _)
    rw [← hth] at hp' hm
    cases hp'
    by_cases hlt : r < m
    · exact h.not_child hcode hi hf hm (h.gave hm r hlt)
    -- slot `r` is the one that the loop leaves behind
    rcases hn with hle | hall | ⟨rfl, hlast⟩
    · exact absurd (hr.trans_le hle) hlt
    · exact absurd (r.isLt.trans_le hall) hlt
    · have heq : r.val = m := Nat.le_antisymm (Nat.lt_succ_iff.mp hr) (Nat.not_lt.mp hlt)
      rcases hlast r heq with hno | hw
      · exact h.not_child hcode hi hf hm hno
      obtain ⟨op, hop⟩ := Pc.exiting_of_given hm
      have hne := h.ne_init hf hop
      rcases Kernel.instr_slot_cases hi r with ⟨new, hnew, -, -, hparent⟩ | ⟨hno, -⟩
      · rw [hw] at hnew
        cases hnew
        rw [hparent]
        exact fun heq => hne (Option.some.inj heq).symm
      · exact absurd hw (hno _)
  · exact h.not_child hcode hi hf hpc (h.gave hpc r hr)

end

/-- The rank of the process that `fork` makes runnable is behind that of its parent. -/
def newRank (rank : Proc → Nat) (th : Thread Cpu) (pc : Pc X) : Proc → Nat :=
  match th, pc with
  | .proc p, .forkEnd r => Function.update rank r (rank p + 1)
  | _, _ => rank

section
omit [DecidableEq Cpu] [DecidableEq X] [DecidableEq L]

theorem newRank_of_not_forking {th : Thread Cpu} (h : pc.forking ≠ some q) :
    newRank rank th pc q = rank q := by
  cases th with
  | sched c => rfl
  | proc p =>
    cases pc with
    | forkEnd r =>
      apply Function.update_of_ne
      intro heq
      exact h (by rw [heq]; rfl)
    | _ => rfl

theorem newRank_of_used (hinv : KInv lkOf s) (hq : (s.slot q).state ≠ UNUSED) :
    newRank rank (s.exec c) (s.pc (s.exec c)) q = rank q :=
  newRank_of_not_forking fun hfork => hq (hinv.unused_of_forking hfork)

end

theorem step_parent (h : Tree s rank) (hinv : KInv lkOf s) (hf : Family s) (hkids : Kids s)
    (hcode : Code lkOf s c (s.exec c) e i) (hi : s.instr c (s.exec c) i = some s')
    (hr : r ≠ initproc) (hused : (s'.slot r).state ≠ UNUSED) :
    ∃ q, (s'.slot r).parent = some q ∧
      newRank rank (s.exec c) (s.pc (s.exec c)) q < newRank rank (s.exec c) (s.pc (s.exec c)) r ∧
      s'.Alive q := by
  by_cases hold : (s.slot r).state = UNUSED
  · -- the process has just been made runnable
    obtain ⟨hpc, hp⟩ := hinv.born hcode hi hold hused
    obtain ⟨p, hexec⟩ := hinv.exec_proc (by rw [hpc]; rfl)
    have hfork : s.pc (.proc p) = .forkEnd r := hexec ▸ hpc
    have hrun := (hinv.running.active hexec).mpr (by rw [hfork]; rfl)
    have halive : s.Alive p := by
      unfold Kernel.Alive
      rw [hrun]
      exact ⟨nofun, nofun⟩
    refine ⟨p, hp.trans (hkids.ending hfork), ?_, ?_⟩
    · rw [newRank_of_used hinv halive.1, hexec, hfork]
      simp [newRank]
    · apply hinv.alive_kept hcode hi halive
      intro _ status op hpc'
      rw [hfork] at hpc'
      cases hpc'
  · obtain ⟨q, hq, hlt, halive⟩ := h.parent hr hold
    rcases (hinv.used hcode hi hold).2 with hsame | hinit
    · refine ⟨q, hsame.trans hq, ?_, ?_⟩
      · rw [newRank_of_used hinv halive.1, newRank_of_used hinv hold]
        exact hlt
      · -- a parent that exits has given all its children away
        apply hinv.alive_kept hcode hi halive
        intro _ status op hpc
        exact h.gave (show (s.pc (.proc q)).given = some NPROC by rw [hpc]; rfl) r r.isLt hq
    · refine ⟨initproc, hinit, ?_, h.step_alive hinv hcode hi hf⟩
      rw [newRank_of_used hinv h.alive.1, newRank_of_used hinv hold, h.low]
      exact Nat.zero_lt_of_lt hlt

theorem step (h : Tree s rank) (hinv : KInv lkOf s) (hf : Family s) (hkids : Kids s)
    (hs : KStep lkOf s e s') : ∃ rank', Tree s' rank' := by
  obtain ⟨hcode, hi⟩ := hs
  rename_i c i
  refine ⟨newRank rank (s.exec c) (s.pc (s.exec c)), h.step_root hinv hcode hi hkids,
    h.step_alive hinv hcode hi hf, ?_, h.step_parent hinv hf hkids hcode hi,
    fun hpc r => h.step_gave hinv hcode hi hf hpc⟩
  rw [newRank_of_used hinv h.alive.1]
  exact h.low

omit [DecidableEq X] [DecidableEq L] in
theorem boot {tf : Page} {pt free : List Page} {cond : X → Bool} :
    Tree (Kernel.boot tf pt free cond : Kernel Cpu X L) fun _ => 0 := by
  refine ⟨rfl, ⟨nofun, nofun⟩, rfl, ?_, nofun⟩
  intro r hr hused
  simp [Kernel.boot, hr, ProcSlot.empty] at hused

omit [DecidableEq Cpu] [DecidableEq X] [DecidableEq L] in
theorem reaches_init (h : Tree s rank) (hr : (s.slot r).state ≠ UNUSED) :
    Relation.ReflTransGen (fun r q => (s.slot r).parent = some q) r initproc := by
  induction hn : rank r using Nat.strong_induction_on generalizing r with
  | _ n ih =>
    by_cases hinit : r = initproc
    · rw [hinit]
    · obtain ⟨q, hq, hlt, halive⟩ := h.parent hinit hr
      exact .head hq (ih (rank q) (hn ▸ hlt) halive.1 rfl)

end Tree

theorem KRun.tree {ok : Kernel Cpu X L → ProcEvent → Kernel Cpu X L → Prop} {s0 : Kernel Cpu X L}
    {es : List ProcEvent} (h : KRun lkOf ok s0 es s) (h0 : KInv lkOf s0) (hf0 : Family s0)
    (hk0 : Kids s0) (ht0 : ∃ rank, Tree s0 rank) : ∃ rank, Tree s rank := by
  induction h with
  | boot => exact ht0
  | step hrun _ hs ih =>
    obtain ⟨rank, hrank⟩ := ih
    exact hrank.step (hrun.inv h0) (hrun.family h0 hf0) (hrun.kids h0 hk0) hs

/-- The processes form a tree with the first one as its root, in every state of a run: parents are in
use and have not exited, and parent pointers lead to the first process. A step frees no slot in use
and leaves its parent pointer, but for a new parent that is the first process. -/
theorem process_tree (tf : Page) (pt free : List Page) (cond : X → Bool) {es : List ProcEvent}
    (h : KRun lkOf (fun _ _ _ => True) (.boot tf pt free cond) es s) :
    (∀ r, r ≠ initproc → (s.slot r).state ≠ UNUSED →
      (∃ q, (s.slot r).parent = some q ∧ (s.slot q).state ≠ UNUSED ∧ (s.slot q).state ≠ ZOMBIE) ∧
      Relation.ReflTransGen (fun r q => (s.slot r).parent = some q) r initproc) ∧
    ∀ e s', KStep lkOf s e s' → ∀ r, (s.slot r).state ≠ UNUSED →
      (s'.slot r).state ≠ UNUSED ∧
      ((s'.slot r).parent = (s.slot r).parent ∨ (s'.slot r).parent = some initproc) := by
  obtain ⟨rank, htree⟩ := h.tree KInv.boot Family.boot Kids.boot ⟨_, Tree.boot⟩
  constructor
  · intro r hr hused
    obtain ⟨q, hq, -, halive⟩ := htree.parent hr hused
    exact ⟨⟨q, hq, halive⟩, htree.reaches_init hused⟩
  · rintro e s' ⟨hcode, hi⟩ r hused
    exact (h.inv KInv.boot).used hcode hi hused

end

/-- A grandchild of the first process, whose parent then exits. -/
def orphanTurns : List (Turn Unit Unit) :=
  startTurns 0 ++ forkTurns 1 ++ yieldTurns ++ startTurns 1 ++ forkTurns 2 ++
    ⟨(), false, .exit 7⟩ :: goTurns (NPROC + 15)

/-- The first process has adopted the orphan. -/
theorem process_tree_orphan :
    ∃ (es : List ProcEvent) (s : Kernel Unit Unit Unit),
      KRun id (fun _ _ _ => True) (.boot 0 [] [1, 2] fun _ => false) es s ∧
      (s.slot 1).state = ZOMBIE ∧ (∀ q, (s.slot q).lock = none) ∧
      (s.slot 2).parent = some initproc ∧
      Relation.ReflTransGen (fun r q => (s.slot r).parent = some q) 2 initproc := by
  obtain ⟨es, s, hrun, heq⟩ := KRun.of_turns [1, 2] orphanTurns
    (fun r => ((r.2.slot 1).state, (r.2.slot 2).state, decide (∀ q, (r.2.slot q).lock = none),
      (r.2.slot 2).parent))
    (show _ = some (ZOMBIE, RUNNABLE, true, some initproc) by decide +kernel)
  simp only [Prod.mk.injEq, decide_eq_true_eq] at heq
  obtain ⟨hzombie, hready, hlocks, hparent⟩ := heq
  refine ⟨es, s, hrun, hzombie, hlocks, hparent, ?_⟩
  exact ((process_tree _ _ _ _ hrun).1 2 (by decide) (by rw [hready]; nofun)).2

end Xv6
