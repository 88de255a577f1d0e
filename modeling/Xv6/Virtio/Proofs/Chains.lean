import Xv6.Virtio.Proofs.Desc

/-!
# Requests and their descriptors

What is known about a request from the place where its thread is, and the two invariants that are
about threads only: each request has a number and a buffer to itself, and the descriptors in use are
the chains of the requests.
-/

namespace Xv6

open Function

variable {Tid B : Type} {p : VPc B} {x : Idx} {pc pc' : Tid → VPc B} {t : Tid}

/-! ## What the place of a thread says -/

namespace VPc

/-- The places where a thread has the lock. -/
def Holds : VPc B → Prop
  | .rwAlloc _ | .rwFormat _ _ | .rwPublish _ _ | .rwNotify _ _ | .rwWait _ _ | .rwFree _ _
  | .intrLoop => True
  | _ => False

def idx : VPc B → Option Idx
  | .rwFormat _ x | .rwPublish _ x | .rwNotify _ x | .rwWait _ x | .rwWaitSleep _ x
  | .rwFree _ x => some x
  | _ => none

/-- A request with formatted descriptors. -/
def ready : VPc B → Option (Req B × Idx)
  | .rwPublish r x | .rwNotify r x | .rwWait r x | .rwWaitSleep r x | .rwFree r x => some (r, x)
  | _ => none

/-- A request that is formatted and not yet published. -/
def armed : VPc B → Option (Req B)
  | .rwPublish r _ | .rwNotify r _ => some r
  | _ => none

/-- The head that `avail` holds and `avail[1]` does not count yet. -/
def notify : VPc B → Option Idx
  | .rwNotify _ x => some x
  | _ => none

/-- A request that has not been published. -/
def early : VPc B → Option (Req B)
  | .rwStart r | .rwAlloc r | .rwAllocSleep r | .rwFormat r _ | .rwPublish r _
  | .rwNotify r _ => some r
  | _ => none

def waiting : VPc B → Option (Req B × Idx)
  | .rwWait r x | .rwWaitSleep r x => some (r, x)
  | _ => none

def done : VPc B → Option (Req B)
  | .rwFree r _ => some r
  | _ => none

/-- The same for the request and its place in the queue. -/
structure Same (p q : VPc B) : Prop where
  req : p.req = q.req
  armed : p.armed = q.armed
  notify : p.notify = q.notify
  early : p.early = q.early
  waiting : p.waiting = q.waiting
  done : p.done = q.done

variable {r : Req B}

theorem req_of_ready (h : p.ready = some (r, x)) : p.req = some r := by
  cases p <;> simp_all [ready, req]

theorem idx_of_ready (h : p.ready = some (r, x)) : p.idx = some x := by
  cases p <;> simp_all [ready, idx]

theorem ready_of_waiting (h : p.waiting = some (r, x)) : p.ready = some (r, x) := by
  cases p <;> simp_all [ready, waiting]

theorem req_of_early (h : p.early = some r) : p.req = some r := by
  cases p <;> simp_all [early, req]

theorem req_of_armed (h : p.armed = some r) : p.req = some r := by
  cases p <;> simp_all [armed, req]

theorem early_of_waiting (h : p.waiting = some (r, x)) : p.early = none := by
  cases p <;> simp_all [early, waiting]

theorem armed_of_waiting (h : p.waiting = some (r, x)) : p.armed = none := by
  cases p <;> simp_all [armed, waiting]

theorem holds_of_notify (h : p.notify = some x) : p.Holds := by
  cases p <;> simp_all [notify, Holds]

end VPc

/-! ## VCalls -/

/-- Requests are numbered, and each has its own buffer. -/
structure VCalls (pc : Tid → VPc B) (calls : Nat) (fin : List (Req B)) : Prop where
  lt : ∀ {t r}, (pc t).req = some r → r.tag < calls
  inj : ∀ {t u r r'}, (pc t).req = some r → (pc u).req = some r' → r.tag = r'.tag → t = u
  buf : ∀ {t u r r'}, (pc t).req = some r → (pc u).req = some r' → r.b = r'.b → t = u
  fin_lt : ∀ r ∈ fin, r.tag < calls

namespace VCalls

variable {calls : Nat} {fin : List (Req B)}

theorem congr (h : VCalls pc calls fin) (hreq : ∀ u, (pc' u).req = (pc u).req) :
    VCalls pc' calls fin where
  lt := fun ht => h.lt (hreq _ ▸ ht)
  inj := fun ht hu => h.inj (hreq _ ▸ ht) (hreq _ ▸ hu)
  buf := fun ht hu => h.buf (hreq _ ▸ ht) (hreq _ ▸ hu)
  fin_lt := h.fin_lt

variable [DecidableEq Tid]

theorem call (h : VCalls pc calls fin) {b : B} {write : Bool}
    (hown : ∀ u r, (pc u).req = some r → r.b ≠ b) :
    VCalls (update pc t (.rwStart ⟨calls, b, write⟩)) (calls + 1) fin := by
  have hcases : ∀ {u : Tid} {r : Req B},
      (update pc t (.rwStart ⟨calls, b, write⟩) u).req = some r →
      (u = t ∧ r = ⟨calls, b, write⟩) ∨ (pc u).req = some r := by
    intro u r hu
    by_cases hut : u = t
    · subst hut
      simp only [update_self, VPc.req, Option.some.injEq] at hu
      exact .inl ⟨rfl, hu.symm⟩
    · exact .inr (by rwa [update_of_ne hut] at hu)
  refine ⟨fun ht => ?_, fun ht hu heq => ?_, fun ht hu heq => ?_, fun r hr => ?_⟩
  · rcases hcases ht with ⟨-, rfl⟩ | hold
    · exact Nat.lt_succ_self _
    · exact (h.lt hold).trans (Nat.lt_succ_self _)
  · rcases hcases ht with ⟨rfl, rfl⟩ | hold <;> rcases hcases hu with ⟨rfl, rfl⟩ | hold'
    · rfl
    · exact absurd heq.symm (h.lt hold').ne
    · exact absurd heq (h.lt hold).ne
    · exact h.inj hold hold' heq
  · rcases hcases ht with ⟨rfl, rfl⟩ | hold <;> rcases hcases hu with ⟨rfl, rfl⟩ | hold'
    · rfl
    · exact absurd heq.symm (hown _ _ hold')
    · exact absurd heq (hown _ _ hold)
    · exact h.buf hold hold' heq
  · exact (h.fin_lt r hr).trans (Nat.lt_succ_self _)

theorem returned (h : VCalls pc calls fin) : VCalls (update pc t .idle) calls fin := by
  have hold : ∀ {u : Tid} {r : Req B}, (update pc t .idle u).req = some r →
      (pc u).req = some r := by
    intro u r hu
    by_cases hut : u = t
    · subst hut
      simp [VPc.req] at hu
    · rwa [update_of_ne hut] at hu
  exact ⟨fun ht => h.lt (hold ht), fun ht hu => h.inj (hold ht) (hold hu),
    fun ht hu => h.buf (hold ht) (hold hu), h.fin_lt⟩

end VCalls

/-! ## Chains -/

/-- The descriptors in use are the chains of the requests, which are disjoint. -/
structure Chains (pc : Tid → VPc B) (free : Fin NUM → Bool) : Prop where
  owner : ∀ i, free i = false ↔ ∃ t x, (pc t).idx = some x ∧ i ∈ x.toList
  nodup : ∀ {t x}, (pc t).idx = some x → x.toList.Nodup
  disjoint : ∀ {t u x y i}, (pc t).idx = some x → (pc u).idx = some y → i ∈ x.toList →
    i ∈ y.toList → t = u

namespace Chains

variable {free free' : Fin NUM → Bool}

theorem congr (h : Chains pc free) (hidx : ∀ u, (pc' u).idx = (pc u).idx) : Chains pc' free where
  owner := fun i => by simpa only [hidx] using h.owner i
  nodup := fun ht => h.nodup (hidx _ ▸ ht)
  disjoint := fun ht hu => h.disjoint (hidx _ ▸ ht) (hidx _ ▸ hu)

variable [DecidableEq Tid]

theorem alloc (h : Chains pc free) (hnone : (pc t).idx = none) (hp : p.idx = some x)
    (hnodup : x.toList.Nodup) (hfree : ∀ i ∈ x.toList, free i = true)
    (hfree' : ∀ i, free' i = if i ∈ x.toList then false else free i) :
    Chains (update pc t p) free' := by
  have hcases : ∀ {u : Tid} {y : Idx}, (update pc t p u).idx = some y →
      (u = t ∧ y = x) ∨ (u ≠ t ∧ (pc u).idx = some y) := by
    intro u y hu
    by_cases hut : u = t
    · subst hut
      rw [update_self, hp] at hu
      exact .inl ⟨rfl, (Option.some.inj hu).symm⟩
    · exact .inr ⟨hut, by rwa [update_of_ne hut] at hu⟩
  have hnew : ∀ {u : Tid} {y : Idx} {i}, (pc u).idx = some y → i ∈ y.toList → i ∉ x.toList := by
    intro u y i hu hi hx
    have := (h.owner i).mpr ⟨u, y, hu, hi⟩
    simp [hfree i hx] at this
  refine ⟨fun i => ?_, fun hu => ?_, fun ht hu hi hi' => ?_⟩
  · rw [hfree']
    constructor
    · intro hi
      split at hi
      · exact ⟨t, x, by rw [update_self, hp], ‹_›⟩
      obtain ⟨u, y, hu, hy⟩ := (h.owner i).mp hi
      have hut : u ≠ t := by
        rintro rfl
        rw [hnone] at hu
        cases hu
      exact ⟨u, y, by rwa [update_of_ne hut], hy⟩
    · rintro ⟨u, y, hu, hy⟩
      rcases hcases hu with ⟨-, rfl⟩ | ⟨-, hold⟩
      · rw [if_pos hy]
      · rw [if_neg (hnew hold hy)]
        exact (h.owner i).mpr ⟨u, y, hold, hy⟩
  · rcases hcases hu with ⟨-, rfl⟩ | ⟨-, hold⟩
    · exact hnodup
    · exact h.nodup hold
  · rcases hcases ht with ⟨rfl, rfl⟩ | ⟨-, hold⟩ <;> rcases hcases hu with ⟨rfl, rfl⟩ | ⟨-, hold'⟩
    · rfl
    · exact absurd hi (hnew hold' hi')
    · exact absurd hi' (hnew hold hi)
    · exact h.disjoint hold hold' hi hi'

theorem put (h : Chains pc free) (hx : (pc t).idx = some x) (hp : p.idx = none)
    (hfree' : ∀ i, free' i = if i ∈ x.toList then true else free i) :
    Chains (update pc t p) free' := by
  have hcases : ∀ {u : Tid} {y : Idx}, (update pc t p u).idx = some y →
      u ≠ t ∧ (pc u).idx = some y := by
    intro u y hu
    by_cases hut : u = t
    · subst hut
      rw [update_self, hp] at hu
      cases hu
    · exact ⟨hut, by rwa [update_of_ne hut] at hu⟩
  refine ⟨fun i => ?_, fun hu => h.nodup (hcases hu).2,
    fun ht hu => h.disjoint (hcases ht).2 (hcases hu).2⟩
  rw [hfree']
  constructor
  · intro hi
    split at hi
    · cases hi
    next hix =>
      obtain ⟨u, y, hu, hy⟩ := (h.owner i).mp hi
      have hut : u ≠ t := by
        rintro rfl
        rw [hx] at hu
        cases hu
        exact hix hy
      exact ⟨u, y, by rwa [update_of_ne hut], hy⟩
  · rintro ⟨u, y, hu, hy⟩
    obtain ⟨hut, hold⟩ := hcases hu
    rw [if_neg fun hix => hut (h.disjoint hold hx hy hix)]
    exact (h.owner i).mpr ⟨u, y, hold, hy⟩

end Chains

end Xv6
