import Xv6.Fs.Body
import Xv6.Bio.Mark

/-!
# `fs.c` settles what it changes

Every function of `fs.c` passes a buffer it has changed to `log_write` before it releases it, except
`writei` where the copy from user memory stops in the middle of a chunk.
-/

namespace Xv6

variable {α β : Type} {sb : Superblock} {b : Nat} {k : Unit → FProg α} {p : FProg α} (inum : Nat)

namespace FProg

/-- The program settles every buffer it changes. -/
def Tidy (p : FProg α) : Prop := Xv6.Tidy p.code

namespace Tidy

theorem pure (a : α) : Tidy (.pure a) := Xv6.Tidy.pure a

theorem bind {f : α → FProg β} (hp : Tidy p) (hf : ∀ a, Tidy (f a)) : Tidy (p >>= f) := by
  rw [Tidy, FProg.code, Prog.subst_bind]
  exact Xv6.Tidy.bind hp hf

theorem bread {k : Block → FProg α} (hk : ∀ d, Tidy (k d)) : Tidy (.lift (.bread b) >>= k) :=
  Xv6.Tidy.bind (.bread b) hk

theorem brelse (hk : Tidy (k ())) : Tidy (.lift (.brelse b) >>= k) :=
  Xv6.Tidy.bind (.brelse b) fun _ => hk

theorem release (b : Nat) : Tidy (.lift (.brelse b)) := brelse (pure ())

theorem panic (msg : String) : Tidy (.op (.panic msg) Empty.elim : FProg α) :=
  Xv6.Tidy.bind (.panic msg) nofun

theorem put {d : Block} (hk : Tidy (k ())) :
    Tidy ((.lift (.setData b d) : FProg Unit) >>= fun _ => .lift (.logWrite b) >>= k) :=
  Xv6.Tidy.logged hk

theorem forEach {ι : Type} {f : ι → FProg Unit} (hf : ∀ x, Tidy (f x)) (xs : List ι) :
    Tidy (.forEach f xs) := by
  induction xs with
  | nil => exact pure ()
  | cons x xs ih => exact (hf x).bind fun _ => ih

/-! ## Blocks and inodes -/

theorem bzero (b : Nat) : Tidy (bzero b) := bread fun _ => put (release _)

theorem ballocFrom (bs : List Nat) : Tidy (ballocFrom sb bs) := by
  induction bs with
  | nil => exact panic _
  | cons b bs ih =>
    refine bread fun d => ?_
    split
    · exact put (brelse (.bind (bzero _) fun _ => pure _))
    · exact brelse ih

theorem balloc : Tidy (balloc sb) := ballocFrom _

theorem bfree (b : Nat) : Tidy (bfree sb b) := by
  refine bread fun d => ?_
  split
  · exact put (release _)
  · exact panic _

theorem iallocFrom (type : BitVec 16) (inums : List Nat) : Tidy (iallocFrom sb type inums) := by
  induction inums with
  | nil => exact panic _
  | cons inum inums ih =>
    refine bread fun d => ?_
    split
    · exact put (brelse (pure _))
    · exact brelse ih

theorem iupdate (ip : Dinode) : Tidy (iupdate sb inum ip) :=
  bread fun _ => put (release _)

theorem iread : Tidy (iread sb inum) := bread fun _ => brelse (pure _)

/-! ## Contents -/

variable (ip : Dinode)

theorem bmapSlot (i : Fin (NDIRECT + 1)) : Tidy (bmapSlot sb ip i) := by
  unfold Xv6.bmapSlot
  split
  · exact .bind balloc fun _ => pure _
  · exact pure _

theorem bmap (bn : Nat) : Tidy (bmap sb ip bn) := by
  unfold Xv6.bmap
  split
  · exact bmapSlot _ _
  split
  · refine .bind (bmapSlot _ _) fun r => bread fun a => ?_
    split
    · exact .bind balloc fun _ => put (brelse (pure _))
    · exact brelse (pure _)
  · exact panic _

theorem truncDirect (is : List (Fin (NDIRECT + 1))) :
    ∀ ip : Dinode, Tidy (truncDirect sb ip is) := by
  induction is with
  | nil => exact fun ip => pure ip
  | cons i is ih =>
    intro ip
    unfold Xv6.truncDirect
    split
    · exact ih ip
    · exact .bind (bfree _) fun _ => ih _

theorem truncEntries (a : Block) : Tidy (truncEntries sb a) := by
  refine forEach (fun j => ?_) _
  split
  · exact pure ()
  · exact bfree _

theorem truncIndirect : Tidy (truncIndirect sb ip) := by
  unfold Xv6.truncIndirect
  split
  · exact pure _
  · exact bread fun a => .bind (truncEntries a) fun _ => brelse (.bind (bfree _) fun _ => pure _)

theorem itrunc (ip : Dinode) : Tidy (itrunc sb inum ip) :=
  .bind (truncDirect _ _) fun _ => .bind (truncIndirect _) fun _ =>
    .bind (iupdate _ _) fun _ => pure _

theorem readLoop (fuel : Nat) :
    ∀ (ip : Dinode) (sp : Space) (dst off tot n : Nat),
      Tidy (readLoop sb fuel ip sp dst off tot n) := by
  induction fuel with
  | zero => exact fun _ _ _ _ _ _ => pure _
  | succ fuel ih =>
    intro ip sp dst off tot n
    unfold Xv6.readLoop
    split
    · refine .bind (bmap _ _) fun r => bread fun d => ?_
      dsimp only
      generalize eitherCopyout sp dst d (off % BSIZE) (min (n - tot) (BSIZE - off % BSIZE)) = c
      refine brelse ?_
      split
      · exact ih _ _ _ _ _ _
      · exact pure _
    · exact pure _

theorem readi (sp : Space) (dst : Nat) (off n : BitVec 32) : Tidy (readi sb ip sp dst off n) := by
  unfold Xv6.readi
  split
  · exact pure _
  · exact readLoop _ _ _ _ _ _ _

end Tidy

end FProg

/-! ## `writei` -/

variable (page : Nat → Option (Bytes PGSIZE)) (sp : Space) (fuel : Nat) (d : Block)
  (doff src len : Nat)

theorem copyin_moved :
    ∀ (d d' : Block) (doff doff' src len : Nat),
      (copyin page fuel d doff src len).2.1 = (copyin page fuel d' doff' src len).2.1 := by
  induction fuel with
  | zero => exact fun _ _ _ _ _ _ => rfl
  | succ fuel ih =>
    intro d d' doff doff' src len
    simp only [copyin]
    split
    · rfl
    · cases page (src / PGSIZE) with
      | none => rfl
      | some pg => exact congrArg (_ + ·) (ih ..)

theorem copyin_ok_iff :
    ∀ (d : Block) (doff src len : Nat), len ≤ fuel →
      (copyin page fuel d doff src len).2.1 ≤ len ∧
        ((copyin page fuel d doff src len).1 = true ↔
          (copyin page fuel d doff src len).2.1 = len) := by
  induction fuel with
  | zero =>
    intro d doff src len hlen
    simp [copyin]
    omega
  | succ fuel ih =>
    intro d doff src len hlen
    simp only [copyin]
    split
    · simp_all
    next hpos =>
      cases page (src / PGSIZE) with
      | none => simp [Ne.symm hpos]
      | some pg =>
        have hpage : 1 ≤ min (PGSIZE - (src - src / PGSIZE * PGSIZE)) len := by
          have := Nat.div_add_mod' src PGSIZE
          have : src % PGSIZE < PGSIZE := Nat.mod_lt _ (by decide)
          omega
        obtain ⟨hle, hiff⟩ := ih (d.copy doff pg (src - src / PGSIZE * PGSIZE)
          (min (PGSIZE - (src - src / PGSIZE * PGSIZE)) len))
          (doff + min (PGSIZE - (src - src / PGSIZE * PGSIZE)) len)
          (src / PGSIZE * PGSIZE + PGSIZE)
          (len - min (PGSIZE - (src - src / PGSIZE * PGSIZE)) len) (by omega)
        refine ⟨?_, hiff.trans ?_⟩
        · simp only
          omega
        · simp only
          omega

theorem copied_eq : (eitherCopyin sp d doff src len).2.1 = copied sp src len := by
  cases sp with
  | user page => exact copyin_moved ..
  | kernel mem => rfl

theorem eitherCopyin_ok_iff :
    (eitherCopyin sp d doff src len).1 = true ↔ copied sp src len = len := by
  rw [← copied_eq sp d doff]
  cases sp with
  | user page => exact (copyin_ok_iff page len d doff src len le_rfl).2
  | kernel mem => simp [eitherCopyin]

namespace FProg.Tidy

theorem writeLoop :
    ∀ (ip : Dinode) (src off tot n : Nat), UntornFrom sp fuel src off tot n →
      Tidy (writeLoop sb sp fuel ip src off tot n) := by
  induction fuel with
  | zero => exact fun _ _ _ _ _ _ => pure _
  | succ fuel ih =>
    intro ip src off tot n hun
    unfold Xv6.writeLoop
    split
    next htot =>
      refine .bind (bmap _ _) fun r => bread fun d => ?_
      have hok := eitherCopyin_ok_iff sp d (off % BSIZE) src (min (n - tot) (BSIZE - off % BSIZE))
      have hmoved := copied_eq sp d (off % BSIZE) src (min (n - tot) (BSIZE - off % BSIZE))
      have hm : 0 < min (n - tot) (BSIZE - off % BSIZE) := by
        have : off % BSIZE < BSIZE := Nat.mod_lt _ (by decide)
        omega
      unfold copyinBuf
      dsimp only
      rcases hun htot with hnone | ⟨hall, hrest⟩
      · have hfail : (eitherCopyin sp d (off % BSIZE) src
            (min (n - tot) (BSIZE - off % BSIZE))).1 = false := by
          rw [Bool.eq_false_iff, ne_eq, hok]
          omega
        rw [hnone] at hmoved
        generalize eitherCopyin sp d (off % BSIZE) src (min (n - tot) (BSIZE - off % BSIZE)) = c
          at hfail hmoved ⊢
        obtain ⟨ok, moved, d'⟩ := c
        obtain rfl : ok = false := hfail
        obtain rfl : moved = 0 := hmoved
        exact brelse (pure _)
      · have hdone := hok.mpr hall
        rw [hall] at hmoved
        generalize eitherCopyin sp d (off % BSIZE) src (min (n - tot) (BSIZE - off % BSIZE)) = c
          at hdone hmoved ⊢
        obtain ⟨ok, moved, d'⟩ := c
        obtain rfl : ok = true := hdone
        obtain rfl : moved = _ := hmoved
        simp only [if_pos hm]
        exact put (brelse (ih _ _ _ _ _ hrest))
    · exact pure _

theorem writei (ip : Dinode) {sp : Space} {src : Nat} {off n : BitVec 32}
    (h : Untorn sp src off n) : Tidy (writei sb inum ip sp src off n) := by
  unfold Xv6.writei
  split
  · exact pure _
  split
  · exact pure _
  · refine .bind (writeLoop sp _ _ _ _ _ _ h) fun r => ?_
    dsimp only
    split
    · exact .bind (iupdate _ _) fun _ => pure _
    · exact pure _

/-- An operation whose writes are not torn settles every buffer it changes. -/
theorem body (h : FsBody sb Untorn p) : Tidy p := by
  induction h with
  | pure a => exact pure a
  | bind _ _ hp hf => exact bind hp hf
  | panic msg => exact panic msg
  | ialloc type => exact iallocFrom type _
  | iread inum => exact iread inum
  | iupdate inum ip => exact iupdate inum ip
  | itrunc inum ip => exact itrunc inum ip
  | readi ip sp dst off n => exact readi ip sp dst off n
  | writei inum ip sp src off n h => exact writei inum ip h

end FProg.Tidy

end Xv6
