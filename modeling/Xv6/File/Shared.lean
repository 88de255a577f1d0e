import Xv6.File.Code

/-!
# Processes that write to one open file

Several calls of `filewrite` on one `struct file`. The loop gives up the inode's lock between its turns,
so the turns of the calls may come in any order, and each turn writes where the one before it, of
whichever call, has left the offset.
-/

namespace Xv6.Rw

/-- A call of `filewrite`, with the memory of its process. -/
structure Call where
  sp : Space
  addr : Nat
  n : BitVec 32

/-- A call is in the loop, with this `i`, or it has returned. -/
inductive Progress
  | loop (i : Nat)
  | ret (r : Int)

/-- What the calls share, and where each of them is. -/
structure Sharing (ι : Type) where
  f : File
  ip : Dinode
  pos : ι → Progress

/-- The answer of `filewrite` after the loop. -/
def Call.answer (c : Call) (i : Nat) : Progress :=
  .ret (if (i : Int) = c.n.toInt then c.n.toInt else -1)

variable (sb : Superblock) (inum : Nat)

/-- One turn of the loop of `filewrite`. The lock of the inode is held around `writei` and the change
of the offset. -/
def filewriteTurn (c : Call) (i : Nat) (f : File) (ip : Dinode) : FProg (Progress × File × Dinode) :=
  if (i : Int) < c.n.toInt then do
    let n1 := min (c.n.toInt - i).toNat maxChunk
    let (r, ip) ← writei sb inum ip c.sp (c.addr + i) f.off (BitVec.ofNat 32 n1)
    let f := if 0 < r then { f with off := f.off + BitVec.ofInt 32 r } else f
    if r < 0 then return (c.answer i, f, ip)
    else if r ≠ n1 then .op (.panic "short filewrite") Empty.elim
    else return (.loop (i + r.toNat), f, ip)
  else return (c.answer i, f, ip)

variable {ι : Type}

def Sharing.start (f : File) (ip : Dinode) : Sharing ι where
  f := f
  ip := ip
  pos _ := if f.writable = false then .ret (-1) else .loop 0

/-- The calls take turns in the order `ts`; who has returned takes none. -/
def takeTurns [DecidableEq ι] (calls : ι → Call) : List ι → Sharing ι → FProg (Sharing ι)
  | [], s => return s
  | t :: ts, s =>
    match s.pos t with
    | .ret _ => takeTurns calls ts s
    | .loop i => do
      let (p, f, ip) ← filewriteTurn sb inum (calls t) i s.f s.ip
      takeTurns calls ts ⟨f, ip, Function.update s.pos t p⟩

end Xv6.Rw
