import Xv6.Lib.Refs
import Xv6.Icache.Proofs.Typing

/-!
# The invariant of the inode cache

The count of an entry is the number of references that the threads have, no two entries in use are
for one inode, and what is known of an entry follows from the state of its lock. In particular an
entry that nobody has locked agrees with the disk once it is valid.
-/

namespace Xv6.Icache

open Function

variable {Tid : Type} {x : Entry Tid} {s s' : IState Tid} {ts : Tid → Hold} {e : Fin NINODE}
  {t : Tid} {a : Hold} {inum n : Nat} (given : List (Fin NINODE))

def alive (d : Dinode) : Nat := if d.type = 0 then 0 else 1

variable {d : Dinode}

theorem alive_of_ne (h : d.type ≠ 0) : alive d = 1 := if_neg h

theorem alive_of_eq (h : d.type = 0) : alive d = 0 := if_pos h

/-- The copy agrees with the allocated inode `d`, which is the one of allocation `n`. -/
structure Agrees (x : Entry Tid) (d : Dinode) (n : Nat) : Prop where
  valid : x.valid = true
  copy : x.copy = d
  alive : d.type ≠ 0
  gen : x.gen = n

/-- The copy differs from the allocated inode `d`, but is of the same allocation. -/
structure Ahead (x : Entry Tid) (d : Dinode) (n : Nat) : Prop where
  valid : x.valid = true
  alive : d.type ≠ 0
  gen : x.gen = n

/-- What is known of an entry in use, by the state of its lock. -/
def Fits (x : Entry Tid) (d : Dinode) (n : Nat) : Option Lock → Prop
  | none => x.valid = true → Agrees x d n
  | some .taken => x.valid = true → Agrees x d n
  | some .unread => x.valid = false
  | some .clean => Agrees x d n
  | some .dirty => Ahead x d n ∧ x.copy.type ≠ 0
  | some .dying => Ahead x d n ∧ x.copy.type = 0
  | some .dead => True
  | some .cleared => x.valid = false

variable {l : Option Lock}

theorem Fits.congr {x' : Entry Tid} (h : Fits x d n l) (hvalid : x'.valid = x.valid)
    (hcopy : x'.copy = x.copy) (hgen : x'.gen = x.gen) : Fits x' d n l := by
  obtain ⟨ref, inum, valid, lock, copy, gen⟩ := x
  obtain ⟨ref', inum', valid', lock', copy', gen'⟩ := x'
  subst hvalid hcopy hgen
  have hagrees (ha : Agrees ⟨ref, inum, valid', lock, copy', gen'⟩ d n) :
      Agrees ⟨ref', inum', valid', lock', copy', gen'⟩ d n :=
    ⟨ha.valid, ha.copy, ha.alive, ha.gen⟩
  have hahead (ha : Ahead ⟨ref, inum, valid', lock, copy', gen'⟩ d n) :
      Ahead ⟨ref', inum', valid', lock', copy', gen'⟩ d n :=
    ⟨ha.valid, ha.alive, ha.gen⟩
  match l with
  | none | some .taken => exact fun hv => hagrees (h hv)
  | some .clean => exact hagrees h
  | some .dirty | some .dying => exact ⟨hahead h.1, h.2⟩
  | some .unread | some .cleared => exact h
  | some .dead => trivial

theorem Fits.of_free {d' : Dinode} {n' : Nat}
    (h : Fits x d n l) (hfree : d.type = 0) : Fits x d' n' l := by
  match l with
  | none | some .taken => exact fun hv => absurd hfree (h hv).alive
  | some .clean => exact absurd hfree h.alive
  | some .dirty | some .dying => exact absurd hfree h.1.alive
  | some .unread | some .cleared => exact h
  | some .dead => trivial

theorem Fits.usable {h : Hold}
    (hx : Fits x d n (h.lock e)) (huse : h.Usable e) : Ahead x d n ∧ x.copy.type ≠ 0 := by
  rcases huse with hl | hl
  · rw [hl] at hx
    exact ⟨⟨hx.valid, hx.alive, hx.gen⟩, hx.copy ▸ hx.alive⟩
  · rw [hl] at hx
    exact hx

def IState.phase (s : IState Tid) (ts : Tid → Hold) (e : Fin NINODE) : Option Lock :=
  (s.entry e).lock.bind fun t => (ts t).lock e

/-- Who has references: the threads, and nobody in particular. -/
def owned (given : List (Fin NINODE)) (ts : Tid → Hold) : Option Tid → List (Fin NINODE)
  | none => given
  | some t => (ts t).refs

/-- What holds of the inode cache, the disk and the threads. -/
structure Good [Fintype Tid] (disk : Nat → Dinode) (s : IState Tid) (ts : Tid → Hold) : Prop where
  counted : RefCounted (fun e => (s.entry e).ref) (owned s.given ts)
  lent : RefCounted (fun e => s.lent.count e) (fun t => (ts t).lent)
  backed : ∀ e ∈ s.lent, e ∈ s.given
  uniq : ∀ e e', 0 < (s.entry e).ref → 0 < (s.entry e').ref → (s.entry e).inum = (s.entry e').inum →
    e = e'
  locked : ∀ e t, (s.entry e).lock = some t ↔ (ts t).lock e ≠ none
  held : ∀ e t, (ts t).lock e ≠ none → (ts t).Has e
  fits : ∀ e, 0 < (s.entry e).ref →
    Fits (s.entry e) (s.disk (s.entry e).inum) (s.allocs (s.entry e).inum) (s.phase ts e)
  ledger : ∀ i, s.frees i + alive (s.disk i) = s.allocs i + alive (disk i)

section
variable {e' : Fin NINODE}

@[simp] theorem IState.set_entry_self : (s.set e x).entry e = x := update_self ..

theorem IState.set_entry_of_ne (h : e' ≠ e) : (s.set e x).entry e' = s.entry e' := update_of_ne h ..

@[simp] theorem IState.set_disk : (s.set e x).disk = s.disk := rfl

@[simp] theorem IState.set_allocs : (s.set e x).allocs = s.allocs := rfl

theorem Hold.set_lock_of_ne {h : Hold} (hne : e' ≠ e) : (h.set e l).lock e' = h.lock e' :=
  update_of_ne hne ..

/-- A field in which the new entry agrees with the old one. -/
theorem IState.set_field {α : Type} (f : Entry Tid → α) (hx : f x = f (s.entry e))
    (e' : Fin NINODE) : f ((s.set e x).entry e') = f (s.entry e') := by
  by_cases h : e' = e
  · subst h
    rw [set_entry_self, hx]
  · rw [set_entry_of_ne h]

variable [DecidableEq Tid] {h : Hold}

theorem owned_update (ts : Tid → Hold) (t : Tid) (a : Hold) :
    owned given (update ts t a) = update (owned given ts) (some t) a.refs := by
  funext u
  cases u with
  | none => rfl
  | some u =>
    by_cases hu : u = t
    · subst hu
      simp [owned]
    · simp [owned, hu]

theorem lent_update (ts : Tid → Hold) (t : Tid) (a : Hold) :
    (fun u => (update ts t a u).lent) = update (fun u => (ts u).lent) t a.lent := by
  funext u
  by_cases hu : u = t
  · subst hu
    simp
  · simp [hu]

theorem lent_update_self (ts : Tid → Hold) (t : Tid) (hh : h.lent = (ts t).lent) :
    (fun u => (update ts t h u).lent) = fun u => (ts u).lent := by
  rw [lent_update, hh]
  exact update_eq_self t fun u => (ts u).lent

theorem owned_update_self (ts : Tid → Hold) (t : Tid) (hh : h.refs = (ts t).refs) :
    owned given (update ts t h) = owned given ts := by
  rw [owned_update, hh]
  exact update_eq_self (some t) (owned given ts)

theorem IState.phase_of_ne (hlock : (s'.entry e').lock = (s.entry e').lock)
    (hh : h.lock e' = (ts t).lock e') : s'.phase (update ts t h) e' = s.phase ts e' := by
  unfold phase
  rw [hlock]
  congr 1
  funext u
  by_cases hu : u = t
  · subst hu
    rw [update_self, hh]
  · rw [update_of_ne hu]

end

namespace Good

variable [Fintype Tid] {disk : Nat → Dinode}

section

variable (h : Good disk s ts)
include h

theorem ref_pos (hhas : (ts t).Has e) : 0 < (s.entry e).ref := by
  rcases hhas with hmem | hmem
  · exact RefCounted.pos (a := e) (t := some t) h.counted hmem
  · have hlent := List.count_pos_iff.mp (RefCounted.pos (a := e) h.lent hmem)
    exact RefCounted.pos (a := e) (t := none) h.counted (h.backed e hlent)

section
variable (hl : (ts t).lock e ≠ none)
include hl

theorem lock_eq : (s.entry e).lock = some t := (h.locked e t).mpr hl

theorem phase_eq : s.phase ts e = (ts t).lock e := by
  unfold IState.phase
  rw [h.lock_eq hl]
  rfl

theorem fits_held :
    Fits (s.entry e) (s.disk (s.entry e).inum) (s.allocs (s.entry e).inum) ((ts t).lock e) := by
  rw [← h.phase_eq hl]
  exact h.fits e (h.ref_pos (h.held e t hl))

end

theorem fits_free (href : 0 < (s.entry e).ref) (hl : (s.entry e).lock = none)
    (hvalid : (s.entry e).valid = true) :
    Agrees (s.entry e) (s.disk (s.entry e).inum) (s.allocs (s.entry e).inum) := by
  have hfits := h.fits e href
  have hphase : s.phase ts e = none := by
    unfold IState.phase
    rw [hl]
    rfl
  rw [hphase] at hfits
  exact hfits hvalid

theorem lock_of_ref (href : (s.entry e).ref = 0) : (s.entry e).lock = none := by
  cases hl : (s.entry e).lock with
  | none => rfl
  | some t =>
    have := h.ref_pos (h.held e t ((h.locked e t).mp hl))
    omega

end

/-! ### What the critical sections do to the invariant -/

variable [DecidableEq Tid]

section

variable (h : Good disk s ts)
include h

theorem locked_update (ha : a.lock = (ts t).lock) (e : Fin NINODE) (u : Tid) :
    (s.entry e).lock = some u ↔ (update ts t a u).lock e ≠ none := by
  rw [h.locked e u]
  by_cases hu : u = t
  · rw [hu, update_self, ha]
  · rw [update_of_ne hu]

theorem held_update (ha : ∀ e, a.lock e ≠ none → a.Has e) (e : Fin NINODE) (u : Tid) :
    (update ts t a u).lock e ≠ none → (update ts t a u).Has e := by
  by_cases hu : u = t
  · rw [hu, update_self]
    exact ha e
  · rw [update_of_ne hu]
    exact h.held e u

/-- Thread `t` has a reference, and changes the entry and the state of its lock, which nobody else
holds. -/
theorem relock (hhas : (ts t).Has e) (hmine : (s.entry e).lock = none ∨ (s.entry e).lock = some t)
    (href : x.ref = (s.entry e).ref) (hinum : x.inum = (s.entry e).inum)
    (hlock : x.lock = l.map fun _ => t) (hfits : Fits x (s.disk x.inum) (s.allocs x.inum) l) :
    Good disk (s.set e x) (update ts t ((ts t).set e l)) where
  counted := by
    simp only [IState.set_field Entry.ref href]
    rw [owned_update_self (h := (ts t).set e l) _ ts t rfl]
    exact h.counted
  lent := by
    rw [lent_update_self (h := (ts t).set e l) ts t rfl]
    exact h.lent
  backed := h.backed
  uniq := by
    intro e1 e2
    simp only [IState.set_field Entry.ref href, IState.set_field Entry.inum hinum]
    exact h.uniq e1 e2
  locked := by
    intro e' u
    by_cases he : e' = e
    · subst he
      rw [IState.set_entry_self, hlock]
      by_cases hu : u = t
      · subst hu
        cases l <;> simp
      have hnot : (ts u).lock e' = none := by
        by_contra hne
        have := h.lock_eq hne
        rcases hmine with hm | hm
        · rw [hm] at this
          cases this
        · rw [hm] at this
          exact hu (Option.some.inj this).symm
      rw [update_of_ne hu, hnot]
      cases l <;> simp [Ne.symm hu]
    · rw [IState.set_entry_of_ne he, h.locked e' u]
      by_cases hu : u = t
      · subst hu
        rw [update_self, Hold.set_lock_of_ne he]
      · rw [update_of_ne hu]
  held := by
    refine h.held_update fun e' hl => ?_
    by_cases he : e' = e
    · subst he
      exact hhas
    · rw [Hold.set_lock_of_ne he] at hl
      exact h.held e' t hl
  fits := by
    intro e' hpos
    by_cases he : e' = e
    · subst he
      have hphase : (s.set e' x).phase (update ts t ((ts t).set e' l)) e' = l := by
        unfold IState.phase
        rw [IState.set_entry_self, hlock]
        cases l with
        | none => rfl
        | some l => simp
      rw [hphase, IState.set_entry_self]
      exact hfits
    · have hphase : (s.set e x).phase (update ts t ((ts t).set e l)) e' = s.phase ts e' :=
        IState.phase_of_ne (congrArg _ (IState.set_entry_of_ne he)) (Hold.set_lock_of_ne he)
      rw [hphase]
      rw [IState.set_entry_of_ne he] at hpos ⊢
      exact h.fits e' hpos
  ledger := h.ledger

theorem recount {refs : List (Fin NINODE)}
    (hcounted : RefCounted (update (fun e => (s.entry e).ref) e x.ref)
      (update (owned s.given ts) (some t) refs))
    (huniq : 0 < x.ref → ∀ e', e' ≠ e → 0 < (s.entry e').ref → (s.entry e').inum ≠ x.inum)
    (hlock : x.lock = (s.entry e).lock)
    (hheld : ∀ e', (ts t).lock e' ≠ none → e' ∈ refs ∨ e' ∈ (ts t).lent)
    (hfits : 0 < x.ref → Fits x (s.disk x.inum) (s.allocs x.inum) (s.phase ts e)) :
    Good disk (s.set e x) (update ts t ⟨refs, (ts t).lent, (ts t).lock⟩) where
  counted := by
    have hrefs : (fun e' => ((s.set e x).entry e').ref) =
        update (fun e' => (s.entry e').ref) e x.ref := by
      funext e'
      by_cases he : e' = e
      · subst he
        simp
      · rw [IState.set_entry_of_ne he, update_of_ne he]
    rw [owned_update, hrefs]
    exact hcounted
  lent := by
    rw [lent_update_self (h := ⟨refs, (ts t).lent, (ts t).lock⟩) ts t rfl]
    exact h.lent
  backed := h.backed
  uniq := by
    intro e1 e2 h1 h2 heq
    by_cases he1 : e1 = e
    · by_cases he2 : e2 = e
      · rw [he1, he2]
      · subst he1
        rw [IState.set_entry_self] at h1 heq
        rw [IState.set_entry_of_ne he2] at h2 heq
        exact absurd heq.symm (huniq h1 e2 he2 h2)
    · rw [IState.set_entry_of_ne he1] at h1 heq
      by_cases he2 : e2 = e
      · subst he2
        rw [IState.set_entry_self] at h2 heq
        exact absurd heq (huniq h2 e1 he1 h1)
      · rw [IState.set_entry_of_ne he2] at h2 heq
        exact h.uniq e1 e2 h1 h2 heq
  locked := by
    intro e' u
    rw [IState.set_field Entry.lock hlock]
    exact h.locked_update (by rfl) e' u
  held := h.held_update hheld
  fits := by
    intro e' hpos
    have hphase : (s.set e x).phase (update ts t ⟨refs, (ts t).lent, (ts t).lock⟩) e' =
        s.phase ts e' :=
      IState.phase_of_ne (IState.set_field Entry.lock hlock e') rfl
    rw [hphase]
    by_cases he : e' = e
    · subst he
      rw [IState.set_entry_self] at hpos ⊢
      exact hfits hpos
    · rw [IState.set_entry_of_ne he] at hpos ⊢
      exact h.fits e' hpos
  ledger := h.ledger

theorem take (href : 0 < (s.entry e).ref) (t : Tid) :
    Good disk (s.set e { s.entry e with ref := (s.entry e).ref + 1 })
      (update ts t ((ts t).take e)) := by
  refine h.recount (h.counted.take (some t) e) (fun _ e' he' hpos heq => ?_) rfl
    (fun e' hl => (h.held e' t hl).imp_left (List.mem_cons_of_mem _)) fun _ => ?_
  · exact he' (h.uniq e' e hpos href heq)
  · exact (h.fits e href).congr rfl rfl rfl

omit [DecidableEq Tid] in
theorem has_drop (hdrop : (ts t).Droppable e) {e' : Fin NINODE} (hl : (ts t).lock e' ≠ none) :
    ((ts t).drop e).Has e' := by
  by_cases he : e' = e
  · subst he
    exact hdrop.2.resolve_left hl
  · exact (h.held e' t hl).imp_left (List.mem_erase_of_ne he).mpr

theorem drop (hdrop : (ts t).Droppable e) :
    Good disk (s.set e { s.entry e with ref := (s.entry e).ref - 1 })
      (update ts t ((ts t).drop e)) := by
  have href := h.ref_pos (.inl hdrop.1)
  refine h.recount (h.counted.drop hdrop.1) (fun _ e' he' hpos heq => ?_) rfl
    (fun e' hl => h.has_drop hdrop hl) fun _ => ?_
  · exact he' (h.uniq e' e hpos href heq)
  · exact (h.fits e href).congr rfl rfl rfl

/-- An entry without references is recycled for an inode that is not cached. -/
theorem recycle (href : (s.entry e).ref = 0)
    (hnew : ∀ e', 0 < (s.entry e').ref → (s.entry e').inum ≠ inum) (t : Tid) :
    Good disk (s.set e { s.entry e with inum := inum, ref := 1, valid := false })
      (update ts t ((ts t).take e)) := by
  refine h.recount (h.counted.first (some t) href) (fun _ e' _ hpos => hnew e' hpos) rfl
    (fun e' hl => (h.held e' t hl).imp_left (List.mem_cons_of_mem _)) fun _ => ?_
  have hphase : s.phase ts e = none := by
    unfold IState.phase
    rw [h.lock_of_ref href]
    rfl
  rw [hphase]
  exact nofun

theorem hand {given lent : List (Fin NINODE)} (hlock : a.lock = (ts t).lock)
    (hcounted : RefCounted (fun e => (s.entry e).ref) (owned given (update ts t a)))
    (hlent : RefCounted (fun e => lent.count e) fun u => (update ts t a u).lent)
    (hbacked : ∀ e ∈ lent, e ∈ given) (hheld : ∀ e, (ts t).lock e ≠ none → a.Has e) :
    Good disk { s with given := given, lent := lent } (update ts t a) where
  counted := hcounted
  lent := hlent
  backed := hbacked
  uniq := h.uniq
  locked := h.locked_update hlock
  held := h.held_update fun e hl => hheld e (hlock ▸ hl)
  fits := by
    intro e hpos
    have hphase : IState.phase { s with given := given, lent := lent } (update ts t a) e =
        s.phase ts e :=
      IState.phase_of_ne rfl (congrFun hlock e)
    rw [hphase]
    exact h.fits e hpos
  ledger := h.ledger

end

omit [Fintype Tid] in
theorem owned_hand (a : Hold) :
    owned given (update ts t a) =
      update (update (owned s.given ts) (some t) a.refs) none given := by
  funext u
  cases u with
  | none => rfl
  | some u =>
    rw [owned_update, update_of_ne (Option.some_ne_none u)]
    by_cases hu : u = t
    · subst hu
      rw [update_self, update_self]
    · have hne : (some u : Option Tid) ≠ some t := fun heq => hu (Option.some.inj heq)
      rw [update_of_ne hne, update_of_ne hne]
      rfl

section

variable (h : Good disk s ts)
include h

theorem give (hdrop : (ts t).Droppable e) :
    Good disk { s with given := e :: s.given } (update ts t ((ts t).drop e)) := by
  refine h.hand rfl ?_ ?_ (fun e' hm => List.mem_cons_of_mem _ (h.backed e' hm))
    fun e' hl => h.has_drop hdrop hl
  · rw [owned_hand]
    exact h.counted.move hdrop.1 nofun
  · rw [lent_update_self (h := (ts t).drop e) ts t rfl]
    exact h.lent

theorem adopt (hmem : e ∈ s.given) (hleft : e ∈ s.lent → e ∈ s.given.erase e) :
    Good disk { s with given := s.given.erase e } (update ts t ((ts t).take e)) := by
  refine h.hand rfl ?_ ?_ (fun e' hm => ?_)
    fun e' hl => (h.held e' t hl).imp_left (List.mem_cons_of_mem _)
  · rw [owned_hand, update_comm (Option.some_ne_none t)]
    exact h.counted.move hmem nofun
  · rw [lent_update_self (h := (ts t).take e) ts t rfl]
    exact h.lent
  · by_cases he : e' = e
    · subst he
      exact hleft hm
    · exact (List.mem_erase_of_ne he).mpr (h.backed e' hm)

theorem borrow (hmem : e ∈ s.given) :
    Good disk { s with lent := e :: s.lent } (update ts t ((ts t).borrow e)) := by
  refine h.hand rfl ?_ ?_ (fun e' hm => ?_)
    fun e' hl => (h.held e' t hl).imp_right (List.mem_cons_of_mem _)
  · rw [owned_update_self (h := (ts t).borrow e) _ ts t rfl]
    exact h.counted
  · rw [lent_update]
    refine h.lent.update fun b => ?_
    simp only [Hold.borrow, List.count_cons]
    omega
  · rcases List.mem_cons.mp hm with rfl | hm
    · exact hmem
    · exact h.backed e' hm

theorem giveBack (hret : (ts t).Returnable e) :
    Good disk { s with lent := s.lent.erase e } (update ts t ((ts t).giveBack e)) := by
  refine h.hand rfl ?_ ?_ (fun e' hm => h.backed e' (List.mem_of_mem_erase hm)) fun e' hl => ?_
  · rw [owned_update_self (h := (ts t).giveBack e) _ ts t rfl]
    exact h.counted
  · rw [lent_update]
    refine h.lent.update fun b => ?_
    by_cases hb : b = e
    · subst hb
      have hpos := List.count_pos_iff.mpr hret.1
      have hle := RefCounted.le h.lent t b
      simp only [Hold.giveBack, List.count_erase_self]
      omega
    · simp only [Hold.giveBack, List.count_erase_of_ne hb]
  · by_cases he : e' = e
    · subst he
      exact hret.2.resolve_left hl
    · exact (h.held e' t hl).imp_right (List.mem_erase_of_ne he).mpr

section
omit [DecidableEq Tid]

theorem inode {i : Nat} (hentry : s'.entry = s.entry)
    (hgiven : s'.given = s.given) (hlent : s'.lent = s.lent)
    (hdisk : ∀ j, j ≠ i → s'.disk j = s.disk j) (hallocs : ∀ j, j ≠ i → s'.allocs j = s.allocs j)
    (hfrees : ∀ j, j ≠ i → s'.frees j = s.frees j)
    (hledger : s'.frees i + alive (s'.disk i) = s'.allocs i + alive (disk i))
    (hfits : ∀ e, 0 < (s.entry e).ref → (s.entry e).inum = i →
      Fits (s.entry e) (s'.disk i) (s'.allocs i) (s.phase ts e)) : Good disk s' ts where
  counted := by
    rw [hentry, hgiven]
    exact h.counted
  lent := by
    rw [hlent]
    exact h.lent
  backed := by
    rw [hlent, hgiven]
    exact h.backed
  uniq := by
    rw [hentry]
    exact h.uniq
  locked := by
    rw [hentry]
    exact h.locked
  held := h.held
  fits := by
    intro e hpos
    have hphase : s'.phase ts e = s.phase ts e := by
      unfold IState.phase
      rw [hentry]
    rw [hphase]
    rw [hentry] at hpos ⊢
    by_cases hi : (s.entry e).inum = i
    · rw [hi]
      exact hfits e hpos hi
    · rw [hdisk _ hi, hallocs _ hi]
      exact h.fits e hpos
  ledger := by
    intro j
    by_cases hj : j = i
    · subst hj
      exact hledger
    · rw [hfrees j hj, hdisk j hj, hallocs j hj]
      exact h.ledger j

theorem claim {type : BitVec 16} {b : Bool} (htype : type ≠ 0)
    (hexec : s.claim inum type = .done b s') : Good disk s' ts := by
  unfold IState.claim at hexec
  by_cases hfree : (s.disk inum).type = 0
  · rw [if_pos hfree] at hexec
    cases hexec
    refine h.inode rfl rfl rfl (fun j hj => update_of_ne hj ..)
      (fun j hj => update_of_ne hj ..) (fun _ _ => rfl) ?_ fun e hpos hi => ?_
    · have hledger := h.ledger inum
      rw [alive_of_eq hfree] at hledger
      simp only [update_self]
      rw [alive_of_ne htype]
      omega
    · have hfits := h.fits e hpos
      rw [hi] at hfits
      exact hfits.of_free hfree
  · rw [if_neg hfree] at hexec
    cases hexec
    exact h

end

theorem iupdate (huse : (ts t).Usable e) :
    Good disk (s.iupdate e) (update ts t ((ts t).set e (some .clean))) := by
  have hl : (ts t).lock e ≠ none := by rcases huse with hl | hl <;> simp [hl]
  have hmem := h.held e t hl
  obtain ⟨hahead, htype⟩ := (h.fits_held hl).usable huse
  -- first the inode on disk, then the state of the lock
  have hwritten : Good disk (s.iupdate e) ts := by
    refine h.inode rfl rfl rfl (fun j hj => update_of_ne hj ..) (fun _ _ => rfl)
      (fun j hj => ?_) ?_ fun e' hpos hi => ?_
    · simp only [IState.iupdate, if_neg htype]
    · have hledger := h.ledger (s.entry e).inum
      rw [alive_of_ne hahead.alive] at hledger
      simp only [IState.iupdate, if_neg htype, update_self]
      rw [alive_of_ne htype]
      exact hledger
    · obtain rfl := h.uniq e' e hpos (h.ref_pos hmem) hi
      rw [h.phase_eq hl]
      simp only [IState.iupdate, update_self]
      rcases huse with hl | hl
      · rw [hl]
        exact ⟨hahead.valid, rfl, htype, hahead.gen⟩
      · rw [hl]
        exact ⟨⟨hahead.valid, htype, hahead.gen⟩, htype⟩
  have hset : (s.iupdate e).set e (s.entry e) = s.iupdate e := by simp [IState.set, IState.iupdate]
  rw [← hset]
  refine hwritten.relock hmem (.inr (h.lock_eq hl)) rfl rfl (h.lock_eq hl) ?_
  simp only [IState.iupdate, update_self]
  exact ⟨hahead.valid, rfl, htype, hahead.gen⟩

theorem erase (hl : (ts t).lock e = some .dying) :
    Good disk (s.iupdate e) (update ts t ((ts t).set e (some .dead))) := by
  have hne : (ts t).lock e ≠ none := by simp [hl]
  have hmem := h.held e t hne
  have hfits := h.fits_held hne
  rw [hl] at hfits
  obtain ⟨hahead, htype⟩ := hfits
  -- first the state of the lock, then the inode on disk
  have hdead : Good disk s (update ts t ((ts t).set e (some .dead))) := by
    have hset : s.set e (s.entry e) = s := by simp [IState.set]
    rw [← hset]
    exact h.relock hmem (.inr (h.lock_eq hne)) rfl rfl (h.lock_eq hne) trivial
  refine hdead.inode rfl rfl rfl (fun j hj => update_of_ne hj ..) (fun _ _ => rfl)
    (fun j hj => ?_) ?_ fun e' hpos hi => ?_
  · simp only [IState.iupdate, if_pos htype, update_of_ne hj]
  · have hledger := h.ledger (s.entry e).inum
    rw [alive_of_ne hahead.alive] at hledger
    simp only [IState.iupdate, if_pos htype, update_self]
    rw [alive_of_eq htype]
    exact hledger
  · obtain rfl := h.uniq e' e hpos (h.ref_pos hmem) hi
    rw [hdead.phase_eq (t := t) (by simp)]
    simp only [update_self, Hold.set_lock_self]
    exact trivial

end

end Good

end Xv6.Icache
