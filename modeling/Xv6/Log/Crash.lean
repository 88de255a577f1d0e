import Xv6.Log.Code
import Xv6.Lib.Writes

/-!
# The log on a machine that can crash

One process runs; the machine keeps the disk, the valid buffers, and the list of block writes that
have reached the disk, so that the disk at a crash is the initial disk after a prefix of that list.
Which unreferenced buffers `bget` recycles is decided by an arbitrary oracle, consulted on every
call, so nothing below depends on the replacement policy or on the size of the cache.
-/

namespace Xv6.Crash

/-- What one running process sees of the block layer. -/
structure State where
  disk : Nat → Block
  cache : Nat → Option Block
  /-- Blocks whose buffers the process has obtained and not released. -/
  held : List Nat
  /-- Blocks whose buffers are pinned by `log_write`. -/
  pinned : List Nat
  lh : List Nat
  outstanding : Int
  committing : Bool
  /-- The writes made by `bwrite`, oldest first. -/
  trace : List (Nat × Block)
  /-- Number of calls of `bget` so far. -/
  clock : Nat

/-- The state after a reboot: an empty cache and the in-memory log cleared. -/
def boot (disk : Nat → Block) : State where
  disk := disk
  cache := fun _ => none
  held := []
  pinned := []
  lh := []
  outstanding := 0
  committing := false
  trace := []
  clock := 0

def logFull (sb : Superblock) (n : Nat) : Prop := LOGSIZE ≤ n ∨ (sb.nlog : Int) - 1 ≤ n

instance (sb : Superblock) (n : Nat) : Decidable (logFull sb n) :=
  inferInstanceAs (Decidable (_ ∨ _))

/-- One atomic step. `evict t b` says whether the `t`-th call of `bget` finds the buffer of `b`
recycled, provided nobody refers to it. An answer `none` stops the machine: a `panic`, or a sleep
that no other process can end. -/
def exec (sb : Superblock) (evict : Nat → Nat → Bool) : ∀ γ, BOp γ → State → Option γ × State
  | _, .bget b, s =>
    (some (), { s with
      cache := fun x =>
        if evict s.clock x = true ∧ x ∉ s.held ∧ x ∉ s.pinned then none else s.cache x
      held := b :: s.held
      clock := s.clock + 1 })
  | _, .acquiresleep _, s => (some (), s)
  | _, .fill b, s =>
    let d := (s.cache b).getD (s.disk b)
    (some d, { s with cache := Function.update s.cache b (some d) })
  | _, .setData b d, s => (some (), { s with cache := Function.update s.cache b (some d) })
  | _, .bwrite b, s =>
    match s.cache b with
    | none => (none, s)
    | some d =>
      (some (), { s with disk := writeAt s.disk (b, d), trace := s.trace ++ [(b, d)] })
  | _, .releasesleep _, s => (some (), s)
  | _, .unref b, s => (some (), { s with held := s.held.erase b })
  | _, .bunpin b, s => (some (), { s with pinned := s.pinned.erase b })
  | _, .logCheck, s =>
    if logFull sb s.lh.length ∨ s.outstanding < 1 then (none, s) else (some (), s)
  | _, .logAppend b, s =>
    if b ∈ s.lh then (some (), s)
    else (some (), { s with lh := s.lh ++ [b], pinned := b :: s.pinned })
  | _, .beginOp, s =>
    if s.committing ∨ (LOGSIZE : Int) < s.lh.length + (s.outstanding + 1) * MAXOPBLOCKS then
      (none, s)
    else (some (), { s with outstanding := s.outstanding + 1 })
  | _, .endOp, s =>
    if s.committing then (none, { s with outstanding := s.outstanding - 1 })
    else if s.outstanding - 1 = 0 then
      (some true, { s with outstanding := s.outstanding - 1, committing := true })
    else (some false, { s with outstanding := s.outstanding - 1 })
  | _, .endCommit, s => (some (), { s with committing := false })
  | _, .logHeader, s => (some s.lh, s)
  | _, .setLogHeader lh, s => (some (), { s with lh := lh })
  | _, .panic _, s => (none, s)

/-! ## Workloads and recovery -/

/-- One block update of a file-system call: read the block, change it, log it, release it. -/
def update (u : Nat × Block) : BProg Unit := do
  let _ ← bread u.1
  .lift (.setData u.1 u.2)
  logWrite u.1
  brelse u.1

/-- A transaction: its updates between `begin_op` and the `end_op` that commits. -/
def transaction (sb : Superblock) (tx : List (Nat × Block)) : BProg Unit := do
  beginOp
  .forEach update tx
  endOp sb

def workload (sb : Superblock) (txs : List (List (Nat × Block))) : BProg Unit :=
  .forEach (transaction sb) txs

/-- The block writes of a workload, run from a boot on `disk`. -/
def workloadTrace (sb : Superblock) (evict : Nat → Nat → Bool) (txs : List (List (Nat × Block)))
    (disk : Nat → Block) : List (Nat × Block) :=
  ((workload sb txs).run (exec sb evict) (boot disk)).2.trace

/-- A recovery run from a boot on `disk`. -/
def recovery (sb : Superblock) (evict : Nat → Nat → Bool) (disk : Nat → Block) :
    Option Unit × State :=
  (recoverFromLog sb).run (exec sb evict) (boot disk)

/-- The disk after a recovery that was cut after `cut` block writes. -/
def recoverCut (sb : Superblock) (evict : Nat → Nat → Bool) (cut : Nat) (disk : Nat → Block) :
    Nat → Block :=
  applyWrites disk ((recovery sb evict disk).2.trace.take cut)

/-- Number of writes in `tr` of a header that lists blocks. -/
def commits (sb : Superblock) (tr : List (Nat × Block)) : Nat :=
  tr.countP fun w => w.1 = sb.logstart ∧ 0 < headN w.2

/-! ## The same machine without a cache

A process that follows the buffer protocol cannot see whether a block it reads was cached. `View`
keeps, for every block, the contents a reader sees; `viewWp` reads each operation on a `View` and
refuses the programs that break the protocol. -/

/-- The state of the block layer as seen through the cache. -/
structure View where
  seen : Nat → Block
  disk : Nat → Block
  held : List Nat
  /-- The held buffers that are known to be valid. -/
  ready : List Nat
  pinned : List Nat
  lh : List Nat
  outstanding : Int
  committing : Bool
  trace : List (Nat × Block)

/-- `s` shows the view `a`, and every buffer that may be recycled agrees with the disk. -/
structure Shows (s : State) (a : View) : Prop where
  seen : ∀ b, (s.cache b).getD (s.disk b) = a.seen b
  clean : ∀ b, b ∉ s.held → b ∉ s.pinned → a.seen b = s.disk b
  ready : ∀ b ∈ a.ready, b ∈ s.held ∧ (s.cache b).isSome
  disk : s.disk = a.disk
  held : s.held = a.held
  pinned : s.pinned = a.pinned
  lh : s.lh = a.lh
  outstanding : s.outstanding = a.outstanding
  committing : s.committing = a.committing
  trace : s.trace = a.trace

/-- The reading of the operations on views. `E` is asked where the machine stops. -/
def viewWp (sb : Superblock) (E : View → Prop) : ∀ γ, BOp γ → (γ → View → Prop) → View → Prop
  | _, .bget b, Q, a => Q () { a with held := b :: a.held }
  | _, .acquiresleep _, Q, a => Q () a
  | _, .fill b, Q, a => b ∈ a.held ∧ Q (a.seen b) { a with ready := b :: a.ready }
  | _, .setData b d, Q, a => b ∈ a.held ∧ Q () { a with seen := writeAt a.seen (b, d) }
  | _, .bwrite b, Q, a =>
    b ∈ a.ready ∧ Q () { a with
      disk := writeAt a.disk (b, a.seen b), trace := a.trace ++ [(b, a.seen b)] }
  | _, .releasesleep _, Q, a => Q () a
  | _, .unref b, Q, a =>
    (b ∈ a.pinned ∨ a.seen b = a.disk b) ∧
      Q () { a with held := a.held.erase b, ready := a.ready.filter (· ≠ b) }
  | _, .bunpin b, Q, a =>
    (b ∈ a.held ∨ a.seen b = a.disk b) ∧ Q () { a with pinned := a.pinned.erase b }
  | _, .logCheck, Q, a =>
    if logFull sb a.lh.length ∨ a.outstanding < 1 then E a else Q () a
  | _, .logAppend b, Q, a =>
    if b ∈ a.lh then Q () a else Q () { a with lh := a.lh ++ [b], pinned := b :: a.pinned }
  | _, .beginOp, Q, a =>
    if a.committing ∨ (LOGSIZE : Int) < a.lh.length + (a.outstanding + 1) * MAXOPBLOCKS then E a
    else Q () { a with outstanding := a.outstanding + 1 }
  | _, .endOp, Q, a =>
    a.committing = false ∧
      if a.outstanding - 1 = 0 then
        Q true { a with outstanding := a.outstanding - 1, committing := true }
      else Q false { a with outstanding := a.outstanding - 1 }
  | _, .endCommit, Q, a => Q () { a with committing := false }
  | _, .logHeader, Q, a => Q a.lh a
  | _, .setLogHeader lh, Q, a => Q () { a with lh := lh }
  | _, .panic _, _, a => E a

theorem viewWp_mono (sb : Superblock) (E : View → Prop) : Prog.Mono (viewWp sb E) := by
  intro γ o P Q a h hP
  cases o <;> simp only [viewWp] at hP ⊢ <;> grind

section

variable (sb : Superblock) (evict : Nat → Nat → Bool) {E : View → Prop}

def View.boot (disk : Nat → Block) : View where
  seen := disk
  disk := disk
  held := []
  ready := []
  pinned := []
  lh := []
  outstanding := 0
  committing := false
  trace := []

theorem shows_boot (disk : Nat → Block) : Shows (boot disk) (View.boot disk) := by
  constructor <;> simp [Crash.boot, View.boot]

variable {b : Nat} {s : State} {a : View}

section

variable (h : Shows s a)
include h

theorem Shows.bget (b : Nat) :
    Shows (exec sb evict _ (.bget b) s).2 { a with held := b :: a.held } := by
  refine { h with
    seen := fun x => ?_
    clean := fun x hx => h.clean x fun hm => hx (List.mem_cons_of_mem _ hm)
    ready := fun x hx => ?_
    held := congrArg _ h.held }
  · simp only [exec]
    split
    next hx => simp [h.clean x hx.2.1 hx.2.2]
    · exact h.seen x
  · obtain ⟨hm, hc⟩ := h.ready x hx
    refine ⟨List.mem_cons_of_mem _ hm, ?_⟩
    simp only [exec]
    rwa [if_neg (by simp [hm])]

theorem Shows.fill (hb : b ∈ a.held) :
    Shows (exec sb evict _ (.fill b) s).2 { a with ready := b :: a.ready } := by
  refine { h with seen := fun x => ?_, ready := fun x hx => ?_ } <;> by_cases hxb : x = b
  · subst hxb
    simpa [exec] using h.seen x
  · simpa [exec, hxb] using h.seen x
  · subst hxb
    simp [exec, h.held, hb]
  · simpa [exec, hxb] using h.ready x (by simpa [hxb] using hx)

theorem Shows.setData (d : Block) (hb : b ∈ a.held) :
    Shows (exec sb evict _ (.setData b d) s).2 { a with seen := writeAt a.seen (b, d) } := by
  refine { h with seen := fun x => ?_, clean := fun x hx hp => ?_, ready := fun x hx => ?_ }
  · by_cases hx : x = b
    · subst hx
      simp [exec, writeAt]
    · simpa [exec, writeAt, hx] using h.seen x
  · have hne : x ≠ b := fun e => hx (by simpa [exec, h.held, e] using hb)
    simpa [exec, writeAt, hne] using h.clean x hx hp
  · obtain ⟨hm, hc⟩ := h.ready x hx
    refine ⟨hm, ?_⟩
    by_cases hxb : x = b <;> simp [exec, hxb, hc]

theorem Shows.bwrite (hb : b ∈ a.ready) : exec sb evict _ (.bwrite b) s = (some (), { s with
      disk := writeAt s.disk (b, a.seen b), trace := s.trace ++ [(b, a.seen b)] }) ∧
    Shows { s with disk := writeAt s.disk (b, a.seen b), trace := s.trace ++ [(b, a.seen b)] }
      { a with disk := writeAt a.disk (b, a.seen b), trace := a.trace ++ [(b, a.seen b)] } := by
  obtain ⟨-, hc⟩ := h.ready b hb
  obtain ⟨d, hd⟩ := Option.isSome_iff_exists.mp hc
  have hseen : d = a.seen b := by simpa [hd] using h.seen b
  refine ⟨by simp [exec, hd, hseen], { h with
    seen := fun x => ?_
    clean := fun x hx hp => ?_
    disk := by rw [h.disk]
    trace := by rw [h.trace] }⟩ <;> by_cases hxb : x = b
  · subst hxb
    simp [hd, hseen]
  · simpa [writeAt, hxb] using h.seen x
  · subst hxb
    simp [writeAt]
  · simpa [writeAt, hxb] using h.clean x hx hp

theorem Shows.unref (hb : b ∈ a.pinned ∨ a.seen b = a.disk b) :
    Shows (exec sb evict _ (.unref b) s).2
      { a with held := a.held.erase b, ready := a.ready.filter (· ≠ b) } := by
  refine { h with
    clean := fun x hx hp => ?_
    ready := fun x hx => ?_
    held := by rw [← h.held]; rfl }
  · by_cases hxb : x = b
    · subst hxb
      rcases hb with hb | hb
      · exact absurd (by simpa [exec, h.pinned] using hb) hp
      · simpa [exec, h.disk] using hb
    · exact h.clean x (fun hm => hx ((List.mem_erase_of_ne hxb).mpr hm)) hp
  · simp only [ne_eq, decide_not, List.mem_filter, Bool.not_eq_eq_eq_not, Bool.not_true,
      decide_eq_false_iff_not] at hx
    obtain ⟨hm, hc⟩ := h.ready x hx.1
    exact ⟨(List.mem_erase_of_ne hx.2).mpr hm, hc⟩

theorem Shows.bunpin (hb : b ∈ a.held ∨ a.seen b = a.disk b) :
    Shows (exec sb evict _ (.bunpin b) s).2 { a with pinned := a.pinned.erase b } := by
  refine { h with
    clean := fun x hx hp => ?_
    pinned := by rw [← h.pinned]; rfl }
  by_cases hxb : x = b
  · subst hxb
    rcases hb with hb | hb
    · exact absurd (by simpa [exec, h.held] using hb) hx
    · simpa [exec, h.disk] using hb
  · exact h.clean x hx fun hm => hp ((List.mem_erase_of_ne hxb).mpr hm)

theorem Shows.logAppend (b : Nat) : Shows { s with lh := s.lh ++ [b], pinned := b :: s.pinned }
      { a with lh := a.lh ++ [b], pinned := b :: a.pinned } :=
  { h with
    clean := fun x hx hp => h.clean x hx fun hm => hp (List.mem_cons_of_mem _ hm)
    lh := by rw [h.lh]
    pinned := by rw [h.pinned] }

theorem Shows.setLog (lh : List Nat) (out : Int) (com : Bool) :
    Shows { s with lh := lh, outstanding := out, committing := com }
      { a with lh := lh, outstanding := out, committing := com } :=
  { h with lh := rfl, outstanding := rfl, committing := rfl }

end

variable {sb}

theorem execWp_of_viewWp {γ : Type} (o : BOp γ) {Q : γ → View → Prop}
    (h : Shows s a) (ho : viewWp sb E γ o Q a) :
    Prog.execWp (exec sb evict) (fun s' => ∃ a', Shows s' a' ∧ E a') γ o
      (fun r s' => ∃ a', Shows s' a' ∧ Q r a') s := by
  have hlh := h.lh
  have hout := h.outstanding
  have hcom := h.committing
  cases o with
  | bget b => exact ⟨_, h.bget sb evict b, ho⟩
  | acquiresleep b | releasesleep b | panic msg => exact ⟨a, h, ho⟩
  | fill b => exact ⟨_, h.fill sb evict ho.1, by simpa only [exec, h.seen b] using ho.2⟩
  | setData b d => exact ⟨_, h.setData sb evict d ho.1, ho.2⟩
  | bwrite b =>
    obtain ⟨heq, hs⟩ := h.bwrite sb evict ho.1
    simp only [Prog.execWp, heq]
    exact ⟨_, hs, ho.2⟩
  | unref b => exact ⟨_, h.unref sb evict ho.1, ho.2⟩
  | bunpin b => exact ⟨_, h.bunpin sb evict ho.1, ho.2⟩
  | logCheck =>
    simp only [viewWp] at ho
    simp only [Prog.execWp, exec, hlh, hout]
    split at ho
    next hc =>
      rw [if_pos hc]
      exact ⟨a, h, ho⟩
    next hc =>
      rw [if_neg hc]
      exact ⟨a, h, ho⟩
  | logAppend b =>
    simp only [viewWp] at ho
    simp only [Prog.execWp, exec]
    split at ho
    next hc =>
      rw [if_pos (by rwa [hlh])]
      exact ⟨a, h, ho⟩
    next hc =>
      rw [if_neg (by rwa [hlh])]
      exact ⟨_, h.logAppend b, ho⟩
  | beginOp =>
    simp only [viewWp] at ho
    simp only [Prog.execWp, exec, hlh, hout, hcom]
    split at ho
    next hc =>
      rw [if_pos hc]
      exact ⟨a, h, ho⟩
    next hc =>
      rw [if_neg hc]
      exact ⟨_, h.setLog a.lh (a.outstanding + 1) a.committing, ho⟩
  | endOp =>
    obtain ⟨hc, ho⟩ := ho
    simp only [Prog.execWp, exec, hlh, hout, hcom, hc, Bool.false_eq_true, if_false]
    split at ho
    next hz =>
      rw [if_pos hz]
      exact ⟨_, h.setLog a.lh (a.outstanding - 1) true, ho⟩
    next hz =>
      rw [if_neg hz]
      have hs := h.setLog a.lh (a.outstanding - 1) a.committing
      rw [hc] at hs
      exact ⟨_, hs, by rwa [hc] at ho⟩
  | endCommit =>
    have hs := h.setLog a.lh a.outstanding false
    simp only [← hlh, ← hout] at hs
    exact ⟨_, hs, by simpa only [viewWp, ← hlh, ← hout] using ho⟩
  | logHeader =>
    simp only [Prog.execWp, exec, hlh]
    exact ⟨a, h, ho⟩
  | setLogHeader lh =>
    have hs := h.setLog lh a.outstanding a.committing
    simp only [← hcom, ← hout] at hs
    exact ⟨_, hs, by simpa only [viewWp, ← hcom, ← hout] using ho⟩

/-- The machine with a cache refines the machine without one: what is proved of a program on views
holds of its runs, whatever the replacement policy. -/
theorem wp_of_viewWp {α : Type} (p : BProg α) {Q : α → View → Prop}
    (h : Shows s a) (hp : p.wp (viewWp sb E) Q a) :
    p.wp (Prog.execWp (exec sb evict) (fun s' => ∃ a', Shows s' a' ∧ E a'))
      (fun r s' => ∃ a', Shows s' a' ∧ Q r a') s := by
  induction p generalizing s a with
  | pure r => exact ⟨a, h, hp⟩
  | op o k ih =>
    refine Prog.execWp_mono _ _ o _ _ s ?_ (execWp_of_viewWp evict o h hp)
    rintro r s' ⟨a', h', hk⟩
    exact ih r h' hk

end

end Xv6.Crash
