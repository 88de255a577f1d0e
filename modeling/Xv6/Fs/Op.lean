import Xv6.Log.Code

/-!
# What `fs.c` asks of the layers below

`fs.c` reaches the disk through `bread`, the data of the buffer it returns, `log_write` and
`brelse`. A program over these four is turned into steps of the block layer by `code`. A
file-system call runs such a program between `begin_op` and `end_op`; a call that only reads (as
`fileread` and `filestat` do) needs no operation around it.
-/

namespace Xv6

/-- The calls of `fs.c` into `bio.c` and `log.c`. -/
inductive FOp : Type → Type
  /-- `bread`, which returns the data of the locked buffer. -/
  | bread (b : Nat) : FOp Block
  /-- Overwrite the data of a buffer. -/
  | setData (b : Nat) (d : Block) : FOp Unit
  | logWrite (b : Nat) : FOp Unit
  | brelse (b : Nat) : FOp Unit
  | panic (msg : String) : FOp Empty

abbrev FProg := Prog FOp

namespace FOp

/-- The steps of the block layer behind a call. -/
def code : ∀ γ, FOp γ → BProg γ
  | _, .bread b => Xv6.bread b
  | _, .setData b d => .lift (.setData b d)
  | _, .logWrite b => Xv6.logWrite b
  | _, .brelse b => Xv6.brelse b
  | _, .panic msg => Xv6.panic msg

/-- The reading that refuses to modify a buffer. -/
def readWp : ∀ γ, FOp γ → (γ → Unit → Prop) → Unit → Prop
  | _, .bread _, Q, u => ∀ d, Q d u
  | _, .setData _ _, _, _ => False
  | _, .logWrite _, _, _ => False
  | _, .brelse _, Q, u => Q () u
  | _, .panic _, _, _ => True

end FOp

namespace FProg

/-- The steps of the block layer behind a program of `fs.c`. -/
def code {α : Type} (p : FProg α) : BProg α := p.subst FOp.code

def ReadOnly (p : FProg Unit) : Prop := p.wp FOp.readWp (fun _ _ => True) ()

end FProg

/-- A file-system call: an operation with the given body. -/
def opCall (sb : Superblock) (body : FProg Unit) : BProg Unit := do
  beginOp
  body.code
  endOp sb

/-- The calls a process may make: any operation, and any program that only reads. -/
inductive Calls (sb : Superblock) : BProg Unit → Prop
  | op (body : FProg Unit) : Calls sb (opCall sb body)
  | read (body : FProg Unit) (h : body.ReadOnly) : Calls sb body.code

end Xv6
