import Xv6.Icache.Proofs.Cache

/-!
# Freeing and reusing inodes

`iput` lets go of `icache.lock` while it frees an inode, so the entry can be found again, and the
inode allocated again, at every point in between.
-/

namespace Xv6.Icache

open Hold (empty take set_lock_self drop)
open Pool

variable {Tid : Type} [DecidableEq Tid] [Fintype Tid] {l : Lock} {ninodes : Nat}

theorem ne_none_of_eq {l : Option Lock} {k : Lock} (h : l = some k) : l ≠ none := by
  rw [h]
  exact nofun

namespace Good

variable {disk : Nat → Dinode} {s s' : IState Tid} {ts : Tid → Hold} {e : Fin NINODE} {t : Tid}

section
variable (h : Good disk s ts) (hl : (ts t).lock e ≠ none)
include h hl

omit hl in
theorem iget {inum : Nat} (hexec : s.iget inum = .done e s') :
    Good disk s' (Function.update ts t ((ts t).take e)) := by
  unfold IState.iget at hexec
  cases hhit : (List.finRange NINODE).find? fun e => 0 < (s.entry e).ref ∧ (s.entry e).inum = inum with
  | some e0 =>
    rw [hhit] at hexec
    cases hexec
    have hfound := List.find?_some hhit
    simp only [decide_eq_true_eq] at hfound
    exact h.take hfound.1 t
  | none =>
    rw [hhit] at hexec
    cases hfree : (List.finRange NINODE).find? fun e => (s.entry e).ref = 0 with
    | none =>
      rw [hfree] at hexec
      cases hexec
    | some e0 =>
      rw [hfree] at hexec
      cases hexec
      have hfound := List.find?_some hfree
      rw [decide_eq_true_eq] at hfound
      refine h.recycle hfound (fun e' hpos heq => ?_) t
      have hmiss := List.find?_eq_none.mp hhit e' (List.mem_finRange e')
      simp only [decide_eq_true_eq] at hmiss
      exact hmiss ⟨hpos, heq⟩

theorem update {x : Entry Tid} (href : x.ref = (s.entry e).ref)
    (hinum : x.inum = (s.entry e).inum) (hlock : x.lock = (s.entry e).lock)
    (hfits : Fits x (s.disk (s.entry e).inum) (s.allocs (s.entry e).inum) (some l)) :
    Good disk (s.set e x) (Function.update ts t ((ts t).set e (some l))) := by
  refine h.relock (h.held e t hl) (.inr (h.lock_eq hl)) href hinum ?_ ?_
  · rw [hlock, h.lock_eq hl]
    rfl
  · rw [hinum]
    exact hfits

theorem unlock
    (hfits : (s.entry e).valid = true →
      Agrees (s.entry e) (s.disk (s.entry e).inum) (s.allocs (s.entry e).inum)) :
    Good disk (s.set e { s.entry e with lock := none })
      (Function.update ts t ((ts t).set e none)) := by
  refine h.relock (h.held e t hl) (.inr (h.lock_eq hl)) rfl rfl rfl fun hv => ?_
  have ha := hfits hv
  exact ⟨ha.valid, ha.copy, ha.alive, ha.gen⟩

omit hl in
theorem lock (hhas : (ts t).Has e) (hfree : (s.entry e).lock = none)
    (hfits : Fits (s.entry e) (s.disk (s.entry e).inum) (s.allocs (s.entry e).inum) (some l)) :
    Good disk (s.set e { s.entry e with lock := some t })
      (Function.update ts t ((ts t).set e (some l))) := by
  exact h.relock hhas (.inl hfree) rfl rfl rfl (hfits.congr rfl rfl rfl)

theorem learn
    (hfits : Fits (s.entry e) (s.disk (s.entry e).inum) (s.allocs (s.entry e).inum) (some l)) :
    Good disk s (Function.update ts t ((ts t).set e (some l))) := by
  have hset : s.set e (s.entry e) = s := by simp [IState.set]
  rw [← hset]
  exact h.update hl rfl rfl rfl hfits

theorem load : Good disk (s.set e { s.entry e with
      copy := s.disk (s.entry e).inum, valid := true, gen := s.allocs (s.entry e).inum })
    (Function.update ts t ((ts t).set e
      (some (if (s.disk (s.entry e).inum).type = 0 then .dead else .clean)))) := by
  refine h.update hl rfl rfl rfl ?_
  split_ifs with htype
  · exact trivial
  · exact ⟨rfl, rfl, htype, rfl⟩

end

section
variable (h : Good disk s ts)
include h

omit [DecidableEq Tid] in
theorem fits_of_lock (hl : (ts t).lock e = some l) :
    Fits (s.entry e) (s.disk (s.entry e).inum) (s.allocs (s.entry e).inum) (some l) :=
  hl ▸ h.fits_held (ne_none_of_eq hl)

omit [DecidableEq Tid] in
theorem lock_none (hfree : (s.entry e).lock = none) : (ts t).lock e = none := by
  by_contra hne
  have := h.lock_eq hne
  rw [hfree] at this
  cases this

theorem assign (huse : (ts t).Usable e) (d : Dinode) :
    Good disk (s.set e { s.entry e with copy := d })
      (Function.update ts t ((ts t).set e (some (if d.type = 0 then .dying else .dirty)))) := by
  have hne : (ts t).lock e ≠ none := huse.elim ne_none_of_eq ne_none_of_eq
  obtain ⟨hahead, -⟩ := (h.fits_held hne).usable huse
  refine h.update hne rfl rfl rfl ?_
  split_ifs with htype
  all_goals exact ⟨⟨hahead.valid, hahead.alive, hahead.gen⟩, htype⟩

theorem stay (t : Tid) : Good disk s (Function.update ts t (ts t)) := by
  rw [Function.update_eq_self]
  exact h

end

end Good

theorem machine_sound (ninodes : Nat) (disk : Nat → Dinode) :
    Sound (machine Tid ninodes) copWp (· = empty) (Good disk) where
  start := by
    rintro t p a ⟨q, hq, rfl⟩ rfl
    exact hq.wp ninodes
  op := by
    intro s s' ts t γ o r Q hgood _ hwp hexec
    cases o with
    | iget inum => exact ⟨_, hwp r, hgood.iget hexec⟩
    | idup e =>
      cases hexec
      exact ⟨_, hwp.2, hgood.take (hgood.ref_pos hwp.1) t⟩
    | acquiresleep e =>
      simp only [machine, IState.exec] at hexec
      split_ifs at hexec with href hlock
      cases hexec
      have hfree := not_not.mp hlock
      exact ⟨_, hwp.2.2, hgood.lock hwp.1 hfree (hgood.fits_free (hgood.ref_pos hwp.1) hfree)⟩
    | valid e =>
      obtain ⟨hl, htrue, hfalse⟩ := hwp
      have hne := ne_none_of_eq hl
      cases hexec
      cases hv : (s.entry e).valid with
      | true => exact ⟨_, htrue, hgood.learn hne (hgood.fits_of_lock hl hv)⟩
      | false => exact ⟨_, hfalse, hgood.learn hne hv⟩
    | load e =>
      cases hexec
      exact ⟨_, hwp.2 _, hgood.load (ne_none_of_eq hwp.1)⟩
    | iunlock e =>
      simp only [machine, IState.exec] at hexec
      split_ifs at hexec
      cases hexec
      exact ⟨_, hwp.2, hgood.unlock (ne_none_of_eq hwp.1) fun _ => hgood.fits_of_lock hwp.1⟩
    | copy e =>
      have hne : (ts t).lock e ≠ none := hwp.1.elim ne_none_of_eq ne_none_of_eq
      cases hexec
      exact ⟨_, hwp.2 _ ((hgood.fits_held hne).usable hwp.1).2, hgood.stay t⟩
    | assign e d =>
      cases hexec
      exact ⟨_, hwp.2, hgood.assign hwp.1 d⟩
    | iupdate e =>
      cases hexec
      rcases hwp with ⟨huse, hQ⟩ | ⟨hl, hQ⟩
      · exact ⟨_, hQ, hgood.iupdate huse⟩
      · exact ⟨_, hQ, hgood.erase hl⟩
    | lastRef e =>
      obtain ⟨hdrop, htrue, hfalse⟩ := hwp
      simp only [machine, IState.exec] at hexec
      split_ifs at hexec with hlast hlock
      · cases hexec
        obtain ⟨hone, hvalid, -⟩ := hlast
        have hfree := not_not.mp hlock
        -- the lock is free, so the thread itself has not got it
        exact ⟨_, htrue (hgood.lock_none hfree), hgood.lock (.inl hdrop.1) hfree
          (hgood.fits_free (hgood.ref_pos (.inl hdrop.1)) hfree hvalid)⟩
      · cases hexec
        exact ⟨_, hfalse, hgood.stay t⟩
    | invalidate e =>
      cases hexec
      exact ⟨_, hwp.2, hgood.update (ne_none_of_eq hwp.1) rfl rfl rfl rfl⟩
    | releasesleep e =>
      have hfits : (s.entry e).valid = false := hgood.fits_of_lock hwp.1
      cases hexec
      refine ⟨_, hwp.2, hgood.unlock (ne_none_of_eq hwp.1) fun hv => ?_⟩
      rw [hfits] at hv
      cases hv
    | deref e =>
      cases hexec
      exact ⟨_, hwp.2, hgood.drop hwp.1⟩
    | claim inum type =>
      exact ⟨_, hwp.2 r, (hgood.claim hwp.1 hexec).stay t⟩
    | give e =>
      cases hexec
      exact ⟨_, hwp.2, hgood.give hwp.1⟩
    | adopt e =>
      simp only [machine, IState.exec] at hexec
      split_ifs at hexec with hcond
      cases hexec
      exact ⟨_, hwp, hgood.adopt hcond.1 hcond.2⟩
    | borrow e =>
      simp only [machine, IState.exec] at hexec
      split_ifs at hexec with hmem
      cases hexec
      exact ⟨_, hwp, hgood.borrow hmem⟩
    | giveBack e =>
      cases hexec
      exact ⟨_, hwp.2, hgood.giveBack hwp.1⟩
    | panic msg => cases hexec

omit [DecidableEq Tid] in
theorem good_boot (disk : Nat → Dinode) : Good disk (.boot disk) fun _ : Tid => .empty where
  counted := by
    intro e
    simp [IState.boot, owned, empty, Fintype.sum_option]
  lent := by
    intro e
    simp [IState.boot, empty]
  backed := nofun
  uniq := fun _ _ hpos => absurd hpos (Nat.lt_irrefl 0)
  locked := fun _ _ => by simp [IState.boot, empty]
  held := fun _ _ hl => absurd rfl hl
  fits := fun _ hpos => absurd hpos (Nat.lt_irrefl 0)
  ledger := fun _ => rfl

theorem reach_typed {disk : Nat → Dinode} {c : Conf Tid COp (IState Tid)}
    (h : Reach (machine Tid ninodes) (.idle (.boot disk)) c) :
    ∃ ts, Typed copWp (· = empty) (Good disk) c ts :=
  h.typed (machine_sound ninodes disk) ⟨_, typed_idle (good_boot disk) fun _ => rfl⟩

/-- The next step of thread `t` completes `ilock`: the entry is valid, or the inode that is read
has a type. -/
def CompletesIlock (c : Conf Tid COp (IState Tid)) (t : Tid) (e : Fin NINODE) : Prop :=
  (∃ k, c.prog t = .op (.valid e) k ∧ (c.st.entry e).valid = true) ∨
    ∃ k, c.prog t = .op (.load e) k ∧ (c.st.disk (c.st.entry e).inum).type ≠ 0

theorem agrees_of_ilock {disk : Nat → Dinode} {c c' : Conf Tid COp (IState Tid)}
    {ts : Tid → Hold} (h : Typed copWp (· = empty) (Good disk) c ts) {t : Tid} {e : Fin NINODE}
    (hdone : CompletesIlock c t e) (hs : Step (machine Tid ninodes) t c c') :
    Agrees (c'.st.entry e) (c'.st.disk (c'.st.entry e).inum)
      (c'.st.allocs (c'.st.entry e).inum) := by
  have hwp := h.wp t
  rcases hdone with ⟨k, hprog, hvalid⟩ | ⟨k, hprog, htype⟩
  · rw [hprog] at hwp
    have hfits := h.good.fits_held (ne_none_of_eq hwp.1)
    rw [hwp.1] at hfits
    cases hs with
    | start hrun hidle hp =>
      rw [hidle] at hprog
      cases hprog
    | op hrun hprog' hguard hexec =>
      rw [hprog] at hprog'
      cases hprog'
      cases hexec
      exact hfits hvalid
    | panic hrun hprog' hguard hexec =>
      rw [hprog] at hprog'
      cases hprog'
      cases hexec
  · cases hs with
    | start hrun hidle hp =>
      rw [hidle] at hprog
      cases hprog
    | op hrun hprog' hguard hexec =>
      rw [hprog] at hprog'
      cases hprog'
      cases hexec
      simp only [IState.set_entry_self, IState.set_disk, IState.set_allocs]
      exact ⟨rfl, rfl, htype, rfl⟩
    | panic hrun hprog' hguard hexec =>
      rw [hprog] at hprog'
      cases hprog'
      cases hexec

/-- In every interleaving no inode is cached twice; allocations and frees of an inode alternate,
starting from the state of the inode on disk; an entry in use that is valid and not locked agrees
with the disk; whoever completes `ilock` agrees with the disk and has read the inode after its last
allocation; and only what has been read after the last allocation of an inode, while it is still
allocated, is ever written back to it. -/
theorem inode_reuse (ninodes : Nat) (disk : Nat → Dinode) {c : Conf Tid COp (IState Tid)}
    (h : Reach (machine Tid ninodes) (.idle (.boot disk)) c) :
    (∀ e e', 0 < (c.st.entry e).ref → 0 < (c.st.entry e').ref →
      (c.st.entry e).inum = (c.st.entry e').inum → e = e') ∧
    (∀ i, c.st.frees i + alive (c.st.disk i) = c.st.allocs i + alive (disk i)) ∧
    (∀ e, 0 < (c.st.entry e).ref → (c.st.entry e).valid = true → (c.st.entry e).lock = none →
      (c.st.entry e).copy = c.st.disk (c.st.entry e).inum) ∧
    (∀ t e c', CompletesIlock c t e → Step (machine Tid ninodes) t c c' →
      (c'.st.entry e).copy = c'.st.disk (c'.st.entry e).inum ∧
        (c'.st.entry e).gen = c'.st.allocs (c'.st.entry e).inum) ∧
    ∀ t e k, c.prog t = .op (.iupdate e) k →
      (c.st.disk (c.st.entry e).inum).type ≠ 0 ∧
        (c.st.entry e).gen = c.st.allocs (c.st.entry e).inum := by
  obtain ⟨ts, hty⟩ := reach_typed h
  refine ⟨hty.good.uniq, hty.good.ledger, fun e hpos hvalid hlock => ?_, fun t e c' hdone hs => ?_,
    fun t e k hprog => ?_⟩
  · exact (hty.good.fits_free hpos hlock hvalid).copy
  · have hagrees := agrees_of_ilock hty hdone hs
    exact ⟨hagrees.copy, hagrees.gen⟩
  · have hwp := hty.wp t
    rw [hprog] at hwp
    rcases hwp with ⟨huse, -⟩ | ⟨hl, -⟩
    · have hne : (ts t).lock e ≠ none := huse.elim ne_none_of_eq ne_none_of_eq
      obtain ⟨hahead, -⟩ := (hty.good.fits_held hne).usable huse
      exact ⟨hahead.alive, hahead.gen⟩
    · have hfits := hty.good.fits_of_lock hl
      exact ⟨hfits.1.alive, hfits.1.gen⟩

/-! ### An entry that is not in use -/

/-- The client uses inode 2 in one entry, and again in another one once the first of all entries is
free. -/
def wander : Prog Use Unit := do
  let a ← .lift (.iget 1)
  let b ← .lift (.iget 2)
  .lift (.ilock b)
  .lift (.iunlock b)
  .lift (.iput b)
  .lift (.iput a)
  let e ← .lift (.iget 2)
  .lift (.ilock e)
  let d ← .lift (.copy e)
  .lift (.assign e { d with nlink := d.nlink + 1 })
  .lift (.iupdate e)
  .lift (.iunlock e)
  .lift (.iput e)

theorem wander_client : Client wander := by
  unfold Client wander
  intro a b
  refine ⟨.inl (by simp [take]), rfl, set_lock_self, ⟨by simp [take], ?_⟩,
    ⟨by simp [take, drop], ?_⟩, fun e => ⟨.inl (by simp [take]), ?_,
      Hold.usable_clean, fun d hd => ⟨Hold.usable_clean, hd, Hold.usable_dirty, set_lock_self,
        ⟨by simp [take], ?_⟩, ?_⟩⟩⟩
  all_goals simp [Hold.set, take, drop, empty]

/-- The pool after `n` steps of the client alone. -/
def wandering (n : Nat) : Conf Unit COp (IState Unit) :=
  (Conf.idle (IState.boot fun _ => { Dinode.fresh 2 with nlink := 1 })).sched
    (machine Unit 10).exec (fun _ _ _ _ => true)
    (((), .start (wander.subst (Use.code 10))) :: List.replicate n ((), .go))

theorem wandering_reach (n : Nat) : Reach (machine Unit 10)
    (.idle (.boot fun _ => { Dinode.fresh 2 with nlink := 1 })) (wandering n) := by
  apply Reach.sched _ (fun _ _ _ _ _ => trivial) .refl
  intro t p hp
  rcases List.mem_cons.mp hp with hp | hp
  · cases hp
    exact ⟨wander, wander_client, rfl⟩
  · cases List.eq_of_mem_replicate hp

/-- The client allocates an inode and never links it, so that its `iput` frees the inode. -/
def scratch : Prog Use Unit := do
  let e ← .lift (.ialloc 2)
  .lift (.ilock e)
  .lift (.iunlock e)
  .lift (.iput e)

theorem scratch_client : Client scratch := by
  refine ⟨by decide, fun e => ⟨.inl (by simp [take]), rfl, set_lock_self,
    ⟨by simp [Hold.set, take], ?_⟩, ?_⟩⟩
  all_goals simp [Hold.set, take, drop, empty]

/-- Thread 0 frees its inode; thread 1 allocates it again and finds the entry before thread 0 has
dropped its reference. -/
def reusing : List (Fin 2 × Act COp) :=
  (0, .start (scratch.subst (Use.code 10))) :: List.replicate 13 (0, .go) ++
    (1, .start (scratch.subst (Use.code 10))) :: List.replicate 2 (1, .go) ++
    List.replicate 3 (0, .go) ++ List.replicate 4 (1, .go)

def reused : Conf (Fin 2) COp (IState (Fin 2)) :=
  (Conf.idle (IState.boot fun _ => .fresh 0)).sched (machine (Fin 2) 10).exec (fun _ _ _ _ => true)
    reusing

theorem inode_reuse_reused :
    (reused.st.entry 0).ref = 1 ∧ (reused.st.entry 0).inum = 1 ∧ (reused.st.entry 0).gen = 2 ∧
      reused.st.frees 1 + alive (reused.st.disk 1) = 2 + alive (.fresh 0) ∧
      (reused.st.entry 0).copy = reused.st.disk (reused.st.entry 0).inum := by
  have hreach : Reach (machine (Fin 2) 10) (.idle (.boot fun _ => .fresh 0)) reused := by
    apply Reach.sched _ (fun _ _ _ _ _ => trivial) .refl
    intro t p hp
    simp only [reusing, List.mem_append, List.mem_cons, List.mem_replicate] at hp
    simp at hp
    obtain ⟨-, rfl⟩ | ⟨-, rfl⟩ := hp
    all_goals exact ⟨scratch, scratch_client, rfl⟩
  obtain ⟨-, hledger, hcopy, -⟩ := inode_reuse 10 _ hreach
  exact ⟨by decide +kernel, by decide +kernel, by decide +kernel, hledger 1,
    hcopy 0 (by decide +kernel) (by decide +kernel) (by decide +kernel)⟩

/-- An entry whose last reference has been dropped stays valid. The inode is then cached in another
entry, and what is written from there does not show in the first one. -/
theorem stale_entry : ∃ c : Conf Unit COp (IState Unit),
    Reach (machine Unit 10) (.idle (.boot fun _ => { Dinode.fresh 2 with nlink := 1 })) c ∧
      ∃ e, (c.st.entry e).valid = true ∧ (c.st.entry e).lock = none ∧
        (c.st.entry e).copy ≠ c.st.disk (c.st.entry e).inum := by
  refine ⟨wandering 20, wandering_reach 20, 1, by decide +kernel, by decide +kernel, fun heq => ?_⟩
  have hlinks := congrArg Dinode.nlink heq
  revert hlinks
  decide +kernel

end Xv6.Icache
