import Xv6.Fs.Op

/-!
# Modified buffers

A process that has changed the data of a buffer passes it to `log_write` or `bwrite` before it gives
the lock back, and `install_trans` unpins a buffer right after writing it. `Tidy` programs do so;
those of `log.c` are.
-/

namespace Xv6

/-- What a process owes to the buffer it changed last. -/
inductive Mark
  /-- Nothing. -/
  | clean
  /-- It has changed the data of block `b`. -/
  | dirty (b : Nat)
  /-- Its last step was to write block `b` to disk. -/
  | synced (b : Nat)
  deriving DecidableEq

namespace BOp

/-- A step is taken with nothing owed, or pays what is owed. -/
def MarkOk : ∀ γ, BOp γ → Mark → Prop
  | _, .setData b _, m => ∀ c, m = .dirty c → c = b
  | _, .bwrite b, m => m = .dirty b
  | _, .logAppend b, m => m = .dirty b
  | _, .bunpin b, m => m = .synced b
  | _, .logCheck, _ => True
  | _, .panic _, _ => True
  | _, _, m => ∀ b, m ≠ .dirty b

def markNext : ∀ γ, BOp γ → Mark → Mark
  | _, .setData b _, _ => .dirty b
  | _, .bwrite b, _ => .synced b
  | _, .logCheck, m => m
  | _, _, _ => .clean

end BOp

/-- The reading of a program as steps that change and settle buffers. -/
abbrev markWp : ∀ γ, BOp γ → (γ → Mark → Prop) → Mark → Prop :=
  Prog.detWp BOp.MarkOk BOp.markNext

/-- The program owes nothing in the end, if it did not at the start. -/
def Tidy {α : Type} (p : BProg α) : Prop :=
  ∀ m : Mark, (∀ b, m ≠ .dirty b) → p.wp markWp (fun _ m => ∀ b, m ≠ .dirty b) m

namespace Tidy

variable {α β ι : Type} {sb : Superblock} {body : FProg Unit}

theorem pure (a : α) : Tidy (.pure a) := fun _ hm => hm

theorem bind {p : BProg α} {f : α → BProg β} (hp : Tidy p) (hf : ∀ a, Tidy (f a)) :
    Tidy (p >>= f) := by
  intro m hm
  rw [Prog.wp_bind]
  exact Prog.wp_mono (Prog.detWp_mono _ _) p (fun a m' hm' => hf a m' hm') (hp m hm)

theorem forEach {f : ι → BProg Unit} (hf : ∀ x, Tidy (f x)) (xs : List ι) :
    Tidy (.forEach f xs) := by
  induction xs with
  | nil => exact pure ()
  | cons x xs ih => exact (hf x).bind fun _ => ih

theorem lift {o : BOp α} (hok : ∀ m : Mark, (∀ b, m ≠ .dirty b) → BOp.MarkOk α o m)
    (hnext : ∀ m, BOp.markNext α o m = .clean) : Tidy (.lift o) :=
  fun m hm => ⟨hok m hm, fun _ b => by rw [hnext]; exact nofun⟩

theorem bread (b : Nat) : Tidy (Xv6.bread b) :=
  .bind (.lift (fun _ h => h) fun _ => rfl) fun _ =>
    .bind (.lift (fun _ h => h) fun _ => rfl) fun _ => .lift (fun _ h => h) fun _ => rfl

theorem brelse (b : Nat) : Tidy (Xv6.brelse b) :=
  .bind (.lift (fun _ h => h) fun _ => rfl) fun _ => .lift (fun _ h => h) fun _ => rfl

theorem panic (msg : String) : Tidy (Xv6.panic msg : BProg α) := fun _ _ => ⟨trivial, nofun⟩

section

variable {f : Unit → BProg α} {b : Nat} {d : Block} (hf : Tidy (f ()))
include hf

theorem write : Tidy ((.lift (.setData b d) : BProg Unit) >>= fun _ => .lift (.bwrite b) >>= f) :=
  fun _ hm => ⟨fun c hc => absurd hc (hm c), fun _ => ⟨rfl, fun _ => hf _ nofun⟩⟩

theorem install :
    Tidy ((.lift (.setData b d) : BProg Unit) >>= fun _ => .lift (.bwrite b) >>= fun _ =>
      .lift (.bunpin b) >>= f) :=
  fun _ hm => ⟨fun c hc => absurd hc (hm c), fun _ => ⟨rfl, fun _ => ⟨rfl, fun _ => hf _ nofun⟩⟩⟩

theorem logged : Tidy ((.lift (.setData b d) : BProg Unit) >>= fun _ => Xv6.logWrite b >>= f) :=
  fun _ hm => ⟨fun c hc => absurd hc (hm c), fun _ => ⟨trivial, fun _ => ⟨rfl, fun _ => hf _ nofun⟩⟩⟩

end

/-! ## `log.c` -/

theorem logHeader : Tidy (.lift .logHeader) := .lift (fun _ h => h) fun _ => rfl

theorem setLogHeader (l : List Nat) : Tidy (.lift (.setLogHeader l)) :=
  .lift (fun _ h => h) fun _ => rfl

theorem writeLog : Tidy (writeLog sb) :=
  .bind logHeader fun _ => forEach (fun _ => .bind (bread _) fun _ => .bind (bread _) fun _ =>
    write (.bind (brelse _) fun _ => brelse _)) _

theorem writeHead : Tidy (writeHead sb) :=
  .bind (bread _) fun _ => .bind logHeader fun _ => write (brelse _)

theorem installTrans : Tidy (installTrans sb) :=
  .bind logHeader fun _ => forEach (fun _ => .bind (bread _) fun _ => .bind (bread _) fun _ =>
    install (.bind (brelse _) fun _ => brelse _)) _

theorem commit : Tidy (commit sb) := by
  refine .bind logHeader fun lh => ?_
  split
  · exact .bind writeLog fun _ => .bind writeHead fun _ => .bind installTrans fun _ =>
      .bind (setLogHeader _) fun _ => writeHead
  · exact pure ()

theorem endOp : Tidy (endOp sb) := by
  refine .bind (.lift (fun _ h => h) fun _ => rfl) fun doCommit => ?_
  split
  · exact .bind commit fun _ => .lift (fun _ h => h) fun _ => rfl
  · exact pure ()

theorem recoverFromLog : Tidy (recoverFromLog sb) :=
  .bind (.bind (bread _) fun _ => .bind (setLogHeader _) fun _ => brelse _) fun _ =>
    .bind installTrans fun _ => .bind (setLogHeader _) fun _ => writeHead

/-! ## Calls -/

theorem opCall (h : Tidy body.code) : Tidy (opCall sb body) :=
  .bind (.lift (fun _ h => h) fun _ => rfl) fun _ => .bind h fun _ => endOp

theorem readOnly (h : body.ReadOnly) : Tidy body.code := by
  induction body with
  | pure u => exact pure u
  | op o k ih =>
    cases o with
    | bread b => exact .bind (bread b) fun d => ih d (h d)
    | setData b d | logWrite b => exact h.elim
    | brelse b => exact .bind (brelse b) fun _ => ih () h
    | panic msg => exact .bind (panic msg) nofun

end Tidy

end Xv6
