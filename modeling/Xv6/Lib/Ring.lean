import Mathlib.Data.List.Nodup

/-!
# Doubly linked rings

A ring goes from a head through nodes of a type `α` back to the head; a pointer is `none` for the
head and `some x` for a node. `Ring k l` says that the links `k` visit the nodes `l`, in this order
along `next` and in the opposite order along `prev`. Unlinking a node and inserting one behind the
head are the assignments that a program makes in place, and `scan` is its loop over the nodes.
-/

namespace Xv6

open Function

structure Links (α : Type) where
  next : Option α → Option α
  prev : Option α → Option α

/-- Following `f` from `a` visits the nodes `l` and arrives at `b`. -/
def Seg {α : Type} (f : Option α → Option α) : Option α → List α → Option α → Prop
  | a, [], b => f a = b
  | a, x :: l, b => f a = some x ∧ Seg f (some x) l b

namespace Seg

variable {α : Type} {f g : Option α → Option α} {m : List α} {x : α}

variable {a b p : Option α}

variable {l : List α}

theorem append_iff : Seg f a (l ++ x :: m) b ↔ Seg f a l (some x) ∧ Seg f (some x) m b := by
  induction l generalizing a with
  | nil => rfl
  | cons y l ih => simp only [List.cons_append, Seg, ih, and_assoc]

theorem congr (h : Seg f a l b) (ha : g a = f a)
    (hl : ∀ x ∈ l, g (some x) = f (some x)) : Seg g a l b := by
  induction l generalizing a with
  | nil => exact ha.trans h
  | cons x l ih => refine ⟨ha.trans h.1, ih h.2 (hl x (by simp)) fun y hy => hl y (by simp [hy])⟩

theorem restart {a' : Option α} (h : Seg f a l b) (ha : g a' = f a)
    (hl : ∀ x ∈ l, g (some x) = f (some x)) : Seg g a' l b := by
  cases l with
  | nil => exact ha.trans h
  | cons x l => exact ⟨ha.trans h.1, h.2.congr (hl x (by simp)) fun y hy => hl y (by simp [hy])⟩

theorem step_eq (h : Seg f a l b) : f a = (l.map some ++ [b]).head (by simp) := by
  cases l with
  | nil => exact h
  | cons x l => exact h.1

variable [DecidableEq α]

theorem retarget {c : Option α} (h : Seg f a l b) (hl : l.Nodup) (ha : ∀ x ∈ l, a ≠ some x)
    (hp : p = (a :: l.map some).getLast (by simp)) : Seg (update f p c) a l c := by
  induction l generalizing a with
  | nil =>
    subst hp
    simp [Seg]
  | cons x l ih =>
    have hx : ∀ y ∈ l, some x ≠ some y := by
      rintro y hy heq
      cases heq
      exact (List.nodup_cons.mp hl).1 hy
    have hp' : p = (some x :: l.map some).getLast (by simp) := by
      rw [hp, List.map_cons, List.getLast_cons]
    have hne : a ≠ p := by
      have hmem : p ∈ (x :: l).map some := by
        rw [hp', List.map_cons]
        exact List.getLast_mem _
      obtain ⟨y, hy, rfl⟩ := List.mem_map.mp hmem
      exact ha y hy
    exact ⟨by rw [update_of_ne hne]; exact h.1, ih h.2 (List.nodup_cons.mp hl).2 hx hp'⟩

theorem bypass (h : Seg f a (l ++ x :: m) b) (hn : (l ++ x :: m).Nodup)
    (ha : ∀ y ∈ l ++ x :: m, a ≠ some y) (hp : p = (a :: l.map some).getLast (by simp)) :
    Seg (update f p (f (some x))) a (l ++ m) b := by
  obtain ⟨hl, hm⟩ := append_iff.mp h
  have hnl : l.Nodup := (List.nodup_append.mp hn).1
  have hal : ∀ y ∈ l, a ≠ some y := fun y hy => ha y (by simp [hy])
  cases m with
  | nil =>
    rw [List.append_nil, show f (some x) = b from hm]
    exact hl.retarget hnl hal hp
  | cons y m =>
    obtain ⟨hy, hm⟩ := hm
    rw [hy, append_iff]
    refine ⟨hl.retarget hnl hal hp, ?_⟩
    -- the pointer that changed belongs to `a` or to `l`
    have hne : ∀ z ∈ y :: m, some z ≠ p := by
      rintro z hz rfl
      have hmem : some z ∈ a :: l.map some := hp ▸ List.getLast_mem _
      rcases List.mem_cons.mp hmem with heq | hmem
      · exact ha z (by simp [List.mem_cons.mp hz]) heq.symm
      · obtain ⟨w, hw, heq⟩ := List.mem_map.mp hmem
        cases heq
        exact (List.nodup_append.mp hn).2.2 z hw z (List.mem_cons_of_mem _ hz) rfl
    exact hm.congr (update_of_ne (hne y (by simp)) _ _)
      fun z hz => update_of_ne (hne z (by simp [hz])) _ _

end Seg

/-- The links visit `l`, forwards and backwards. -/
structure Ring {α : Type} (k : Links α) (l : List α) : Prop where
  nodup : l.Nodup
  next : Seg k.next none l none
  prev : Seg k.prev none l.reverse none

namespace Links

variable {α : Type} [DecidableEq α]

def empty : Links α := ⟨fun _ => none, fun _ => none⟩

/-- `b->next->prev = b->prev; b->prev->next = b->next`. -/
def unlink (k : Links α) (b : α) : Links α where
  next := update k.next (k.prev (some b)) (k.next (some b))
  prev := update k.prev (k.next (some b)) (k.prev (some b))

/-- `b->next = head.next; b->prev = &head; head.next->prev = b; head.next = b`. -/
def pushFront (k : Links α) (b : α) : Links α where
  next := update (update k.next (some b) (k.next none)) none (some b)
  prev := update (update k.prev (some b) none) (k.next none) (some b)

/-- A loop along `f` that stops at the first node with property `p`, or at the head. `fuel` bounds
the number of nodes. -/
def scan {α : Type} (f : Option α → Option α) (p : α → Bool) : Nat → Option α → Option α
  | 0, _ => none
  | _ + 1, none => none
  | fuel + 1, some x => if p x then some x else scan f p fuel (f (some x))

end Links

namespace Ring

variable {α : Type} {k : Links α} {l m : List α} {a : Option α} {b : α}

variable {fuel : Nat}

theorem scan_eq {f : Option α → Option α} (h : Seg f a m none)
    (p : α → Bool) (hfuel : m.length ≤ fuel) : Links.scan f p fuel (f a) = m.find? p := by
  induction m generalizing a fuel with
  | nil =>
    rw [show f a = none from h]
    cases fuel <;> rfl
  | cons x m ih =>
    obtain ⟨hx, hm⟩ := h
    cases fuel with
    | zero => simp at hfuel
    | succ fuel =>
      rw [hx, Links.scan, List.find?_cons]
      cases p x with
      | true => rfl
      | false => exact ih hm (by simpa using hfuel)

theorem scan_next (h : Ring k l) (p : α → Bool) (hfuel : l.length ≤ fuel) :
    Links.scan k.next p fuel (k.next none) = l.find? p := scan_eq h.next p hfuel

theorem scan_prev (h : Ring k l) (p : α → Bool) (hfuel : l.length ≤ fuel) :
    Links.scan k.prev p fuel (k.prev none) = l.reverse.find? p :=
  scan_eq h.prev p (by simpa using hfuel)

theorem empty : Ring (Links.empty : Links α) [] := ⟨List.nodup_nil, rfl, rfl⟩

theorem prev_next (h : Ring k l) (ha : a = none ∨ ∃ x ∈ l, a = some x) : k.prev (k.next a) = a := by
  -- split the ring at `a`
  rcases ha with rfl | ⟨x, hx, rfl⟩
  · cases l with
    | nil => rw [show k.next none = none from h.next]; exact h.prev
    | cons x l =>
      rw [h.next.1]
      have hprev := h.prev
      rw [List.reverse_cons, Seg.append_iff] at hprev
      exact hprev.2
  · obtain ⟨m, n, rfl⟩ := List.append_of_mem hx
    obtain ⟨-, hn⟩ := Seg.append_iff.mp h.next
    have hprev := h.prev
    rw [List.reverse_append, List.reverse_cons] at hprev
    cases n with
    | nil =>
      rw [show k.next (some x) = none from hn]
      exact hprev.1
    | cons y n =>
      rw [hn.1]
      rw [List.reverse_cons, List.append_assoc, List.append_assoc, List.singleton_append,
        List.singleton_append, Seg.append_iff] at hprev
      exact hprev.2.1

variable [DecidableEq α]

variable (h : Ring k l)
include h

theorem unlink (hb : b ∈ l) : Ring (k.unlink b) (l.erase b) := by
  obtain ⟨m, n, hbm, rfl, herase⟩ := List.exists_erase_eq hb
  rw [herase]
  have hrev : (m ++ b :: n).reverse = n.reverse ++ b :: m.reverse := by simp
  have hprev := h.prev
  rw [hrev] at hprev
  have hnodup := h.nodup
  refine ⟨?_, ?_, ?_⟩
  · exact hnodup.sublist (List.append_sublist_append_left m |>.mpr (List.sublist_cons_self b n))
  · refine h.next.bypass hnodup nofun ?_
    rw [(Seg.append_iff.mp hprev).2.step_eq]
    simp [List.getLast_eq_head_reverse]
  · rw [List.reverse_append]
    refine hprev.bypass (hrev ▸ List.nodup_reverse.mpr hnodup) nofun ?_
    rw [(Seg.append_iff.mp h.next).2.step_eq]
    simp [List.getLast_eq_head_reverse]

theorem pushFront (hb : b ∉ l) : Ring (k.pushFront b) (b :: l) := by
  have hne : ∀ x ∈ l, some x ≠ some b := by
    rintro x hx heq
    cases heq
    exact hb hx
  refine ⟨List.nodup_cons.mpr ⟨hb, h.nodup⟩, ⟨by simp [Links.pushFront], ?_⟩, ?_⟩
  · refine h.next.restart (by simp [Links.pushFront]) fun x hx => ?_
    simp [Links.pushFront, hne x hx]
  · rw [List.reverse_cons, Seg.append_iff]
    have hlast : k.next none = (none :: l.reverse.map some).getLast (by simp) := by
      rw [h.next.step_eq]
      simp [List.getLast_eq_head_reverse]
    have hnb : some b ≠ k.next none := by
      rw [hlast]
      intro heq
      have hmem : some b ∈ none :: l.reverse.map some := heq ▸ List.getLast_mem _
      simp [hb] at hmem
    refine ⟨?_, ?_⟩
    · refine Seg.retarget (b := none) ?_ (List.nodup_reverse.mpr h.nodup) nofun hlast
      exact h.prev.congr (by simp) fun x hx => by simp [hne x (by simpa using hx)]
    · simp [Links.pushFront, Seg, hnb]

theorem foldl_pushFront (hm : m.Nodup) (hl : ∀ x ∈ m, x ∉ l) :
    Ring (m.foldl Links.pushFront k) (m.reverse ++ l) := by
  induction m generalizing k l with
  | nil => exact h
  | cons x m ih =>
    obtain ⟨hx, hm⟩ := List.nodup_cons.mp hm
    rw [List.reverse_cons, List.append_assoc]
    refine ih (h.pushFront (hl x (by simp))) hm fun y hy hmem => ?_
    rcases List.mem_cons.mp hmem with rfl | hmem
    · exact hx hy
    · exact hl y (by simp [hy]) hmem

end Ring

end Xv6
