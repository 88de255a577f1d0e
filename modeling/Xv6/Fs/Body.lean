import Xv6.Fs.Code
import Xv6.Bio.Machine

/-!
# Operations made of `fs.c`

The body of a file-system call is made of the functions of `fs.c`, in any order and with any use of
their results.
-/

namespace Xv6

/-- The bodies of operations: `fs.c` with the calls of `writei` that `W` admits. -/
inductive FsBody (sb : Superblock) (W : Space → Nat → BitVec 32 → BitVec 32 → Prop) :
    ∀ {α : Type}, FProg α → Prop
  | pure {α : Type} (a : α) : FsBody sb W (.pure a)
  | bind {α β : Type} {p : FProg α} {f : α → FProg β} (hp : FsBody sb W p)
      (hf : ∀ a, FsBody sb W (f a)) : FsBody sb W (p >>= f)
  | panic {α : Type} (msg : String) : FsBody sb W (.op (.panic msg) Empty.elim : FProg α)
  | ialloc (type : BitVec 16) : FsBody sb W (ialloc sb type)
  | iread (inum : Nat) : FsBody sb W (iread sb inum)
  | iupdate (inum : Nat) (ip : Dinode) : FsBody sb W (iupdate sb inum ip)
  | itrunc (inum : Nat) (ip : Dinode) : FsBody sb W (itrunc sb inum ip)
  | readi (ip : Dinode) (sp : Space) (dst : Nat) (off n : BitVec 32) :
      FsBody sb W (readi sb ip sp dst off n)
  | writei (inum : Nat) (ip : Dinode) (sp : Space) (src : Nat) (off n : BitVec 32)
      (h : W sp src off n) : FsBody sb W (writei sb inum ip sp src off n)

/-- The processes make file-system calls: operations made of `fs.c`, and reads. -/
def fsMachine {Tid : Type} [DecidableEq Tid] (sb : Superblock)
    (W : Space → Nat → BitVec 32 → BitVec 32 → Prop) : Pool.Machine Tid BOp (BWorld Tid) where
  exec := BWorld.exec sb
  starts := fun _ p => (∃ body, FsBody sb W body ∧ p = opCall sb body) ∨
    ∃ body : FProg Unit, body.ReadOnly ∧ p = body.code
  guard := fun _ _ _ _ => True

/-- Number of bytes that `either_copyin` moves before it stops. -/
def copied (sp : Space) (src len : Nat) : Nat := (eitherCopyin sp (fun _ => 0) 0 src len).2.1

/-- Each chunk of the loop of `writei` is copied whole, up to one of which nothing is. -/
def UntornFrom (sp : Space) : Nat → (src off tot n : Nat) → Prop
  | 0, _, _, _, _ => True
  | fuel + 1, src, off, tot, n =>
    let m := min (n - tot) (BSIZE - off % BSIZE)
    tot < n → copied sp src m = 0 ∨
      copied sp src m = m ∧ UntornFrom sp fuel (src + m) (off + m) (tot + m) n

/-- No chunk of the call is torn: no copy from user memory stops after its first byte and before its
last. -/
def Untorn (sp : Space) (src : Nat) (off n : BitVec 32) : Prop :=
  UntornFrom sp n.toNat src off.toNat 0 n.toNat

end Xv6
