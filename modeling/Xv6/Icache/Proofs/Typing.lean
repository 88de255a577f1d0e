import Xv6.Icache.Code

/-!
# What clients may do, section by section

The discipline of clients, read on the critical sections that their calls consist of.
-/

namespace Xv6.Icache

/-- What a critical section asks of the thread, and what the thread has afterwards. -/
def copWp : ∀ γ, COp γ → (γ → Hold → Prop) → Hold → Prop
  | _, .iget _, Q, h => ∀ e, Q e (h.take e)
  | _, .idup e, Q, h => h.Has e ∧ Q () (h.take e)
  | _, .acquiresleep e, Q, h => h.Has e ∧ h.lock e = none ∧ Q () (h.set e (some .taken))
  | _, .valid e, Q, h =>
    h.lock e = some .taken ∧ Q true (h.set e (some .clean)) ∧ Q false (h.set e (some .unread))
  | _, .load e, Q, h =>
    h.lock e = some .unread ∧ ∀ type, Q type (h.set e (some (if type = 0 then .dead else .clean)))
  | _, .iunlock e, Q, h => h.lock e = some .clean ∧ Q () (h.set e none)
  | _, .copy e, Q, h => h.Usable e ∧ ∀ d : Dinode, d.type ≠ 0 → Q d h
  | _, .assign e d, Q, h =>
    h.Usable e ∧ Q () (h.set e (some (if d.type = 0 then .dying else .dirty)))
  | _, .iupdate e, Q, h =>
    (h.Usable e ∧ Q () (h.set e (some .clean))) ∨
      (h.lock e = some .dying ∧ Q () (h.set e (some .dead)))
  | _, .lastRef e, Q, h =>
    h.Droppable e ∧ (h.lock e = none → Q true (h.set e (some .clean))) ∧ Q false h
  | _, .invalidate e, Q, h => h.lock e = some .dead ∧ Q () (h.set e (some .cleared))
  | _, .releasesleep e, Q, h => h.lock e = some .cleared ∧ Q () (h.set e none)
  | _, .deref e, Q, h => h.Droppable e ∧ Q () (h.drop e)
  | _, .claim _ type, Q, h => type ≠ 0 ∧ ∀ b, Q b h
  | _, .give e, Q, h => h.Droppable e ∧ Q () (h.drop e)
  | _, .adopt e, Q, h => Q () (h.take e)
  | _, .borrow e, Q, h => Q () (h.borrow e)
  | _, .giveBack e, Q, h => h.Returnable e ∧ Q () (h.giveBack e)
  | _, .panic _, _, _ => True

theorem copWp_mono : Prog.Mono copWp := by
  intro γ o P Q h hPQ hP
  cases o with
  | iget inum => exact fun e => hPQ _ _ (hP e)
  | idup e | iunlock e | assign e d | invalidate e | releasesleep e | deref e | give e
  | giveBack e => exact ⟨hP.1, hPQ _ _ hP.2⟩
  | acquiresleep e => exact ⟨hP.1, hP.2.1, hPQ _ _ hP.2.2⟩
  | valid e => exact ⟨hP.1, hPQ _ _ hP.2.1, hPQ _ _ hP.2.2⟩
  | load e => exact ⟨hP.1, fun type => hPQ _ _ (hP.2 type)⟩
  | copy e => exact ⟨hP.1, fun d hd => hPQ _ _ (hP.2 d hd)⟩
  | iupdate e => exact hP.imp (fun h => ⟨h.1, hPQ _ _ h.2⟩) (fun h => ⟨h.1, hPQ _ _ h.2⟩)
  | lastRef e => exact ⟨hP.1, fun hl => hPQ _ _ (hP.2.1 hl), hPQ _ _ hP.2.2⟩
  | claim inum type => exact ⟨hP.1, fun b => hPQ _ _ (hP.2 b)⟩
  | adopt e | borrow e => exact hPQ _ _ hP
  | panic msg => trivial

namespace Hold

variable {h : Hold} {e : Fin NINODE} {l l' : Option Lock}

@[simp] theorem set_refs : (h.set e l).refs = h.refs := rfl

@[simp] theorem set_lock_self : (h.set e l).lock e = l := Function.update_self ..

@[simp] theorem set_set : (h.set e l).set e l' = h.set e l' := by simp [set, Function.update_idem]

theorem set_eq_self (hl : h.lock e = l) : h.set e l = h := by
  subst hl
  simp [set]

theorem usable_clean : (h.set e (some .clean)).Usable e := .inl set_lock_self

theorem usable_dirty : (h.set e (some .dirty)).Usable e := .inr set_lock_self

end Hold

section
variable {Q : Unit → Hold → Prop}

theorem wp_iallocFrom {type : BitVec 16} (htype : type ≠ 0) {Q : Fin NINODE → Hold → Prop}
    (hQ : ∀ e, Q e (h.take e)) (l : List Nat) : (iallocFrom type l).wp copWp Q h := by
  induction l with
  | nil => exact trivial
  | cons inum rest ih =>
    refine ⟨htype, fun b => ?_⟩
    cases b with
    | true => exact hQ
    | false => exact ih

theorem wp_ilock (hmem : h.Has e) (hlock : h.lock e = none) (hQ : Q () (h.set e (some .clean))) :
    (ilock e).wp copWp Q h := by
  unfold ilock
  simp only [Prog.lift_bind, Prog.wp_op]
  refine ⟨hmem, hlock, Hold.set_lock_self, ?_, Hold.set_lock_self, fun type => ?_⟩
  · simpa using hQ
  · by_cases htype : type = 0
    · subst htype
      exact trivial
    · simp only [if_neg htype]
      simpa using hQ

theorem wp_itrunc (huse : h.Usable e) (hQ : Q () (h.set e (some .clean))) :
    (itrunc e).wp copWp Q h := by
  refine ⟨huse, fun d hd => ⟨huse, ?_⟩⟩
  rw [if_neg hd]
  refine .inl ⟨Hold.usable_dirty, ?_⟩
  simpa using hQ

theorem wp_free (huse : h.Usable e) (hQ : Q () (h.set e none)) : (free e).wp copWp Q h := by
  unfold free
  rw [Prog.wp_bind]
  refine wp_itrunc huse ⟨Hold.usable_clean, fun d hd => ⟨Hold.usable_clean, ?_⟩⟩
  rw [if_pos rfl]
  refine .inr ⟨Hold.set_lock_self, Hold.set_lock_self, Hold.set_lock_self, ?_⟩
  simpa using hQ

theorem wp_iput (hdrop : h.Droppable e) (hQ : Q () (h.drop e)) : (iput e).wp copWp Q h := by
  unfold iput
  refine ⟨hdrop, fun hlock => ?_, hdrop, hQ⟩
  refine Prog.wp_seq (wp_free Hold.usable_clean ?_)
  rw [Hold.set_set, Hold.set_eq_self hlock]
  exact ⟨hdrop, hQ⟩

end

theorem Use.code_wp (ninodes : Nat) {γ : Type} (o : Use γ) {Q : γ → Hold → Prop} {h : Hold}
    (ho : useWp γ o Q h) : (Use.code ninodes γ o).wp copWp Q h := by
  cases o with
  | ialloc type => exact wp_iallocFrom ho.1 ho.2 _
  | iget inum | idup e | iunlock e | copy e | give e | adopt e | borrow e | giveBack e => exact ho
  | ilock e => exact wp_ilock ho.1 ho.2.1 ho.2.2
  | iput e => exact wp_iput ho.1 ho.2
  | assign e d =>
    refine ⟨ho.1, ?_⟩
    rw [if_neg ho.2.1]
    exact ho.2.2
  | iupdate e => exact .inl ho

theorem Client.wp {q : Prog Use Unit} (hq : Client q) (ninodes : Nat) :
    (q.subst (Use.code ninodes)).wp copWp (fun _ h => h = .empty) .empty := by
  rw [Prog.wp_subst]
  refine Prog.wp_of_le ?_ (fun γ o Q h => Use.code_wp ninodes o) q hq
  intro γ o P Q h hPQ hP
  exact Prog.wp_mono copWp_mono _ hPQ hP

end Xv6.Icache
