import Mathlib.Tactic.Common

/-!
# `grep`

`grep.c`. A pointer to a string is the list of the characters from there on; the string ends at the
first NUL of the list. What reads beyond the list has no result.
-/

namespace Xv6.Grep

open Function

abbrev nul : Char := '\x00'

/-! ## The matcher -/

/-- `matchstar`: search for `c*re` at beginning of text, where `here` is `matchhere(re, ·)`. -/
def matchstar (c : Char) (here : List Char → Option Bool) : List Char → Option Bool
  | [] => do if ← here [] then return true else none
  | t :: text => do
    if ← here (t :: text) then return true
    else if t ≠ nul ∧ (t = c ∨ c = '.') then matchstar c here text
    else return false

/-- `matchhere`: search for `re` at beginning of text. -/
def matchhere : List Char → List Char → Option Bool
  | [] => fun _ => none
  | [r0] => fun _ => if r0 = nul then some true else none
  | r0 :: r1 :: re => fun text =>
    if r0 = nul then some true
    else if r1 = '*' then matchstar r0 (matchhere re) text
    else if r0 = '$' ∧ r1 = nul then text.head?.map (· == nul)
    else match text with
      | [] => none
      | t :: text => if t ≠ nul ∧ (r0 = '.' ∨ r0 = t) then matchhere (r1 :: re) text else some false

def matchLoop (re : List Char) : List Char → Option Bool
  | [] => do if ← matchhere re [] then return true else none
  | t :: text => do
    -- must look at empty string
    if ← matchhere re (t :: text) then return true
    else if t ≠ nul then matchLoop re text
    else return false

def matchRe (re text : List Char) : Option Bool :=
  match re with
  | [] => none
  | r0 :: re' => if r0 = '^' then matchhere re' text else matchLoop (r0 :: re') text

/-! ## The lines -/

abbrev BUFSZ : Nat := 1024

/-- `strchr`, with `n` characters from `s` on in the buffer. -/
def strchr (buf : Nat → Char) (c : Char) : Nat → Nat → Option (Option Nat)
  | 0, _ => none
  | n + 1, s =>
    if buf s = nul then some none
    else if buf s = c then some (some s)
    else strchr buf c n (s + 1)

/-- The characters of the buffer from `p` on. -/
def stringAt (buf : Nat → Char) (p : Nat) : List Char := (List.range (BUFSZ - p)).map fun i => buf (p + i)

/-- The `n` characters of the buffer from `p` on. -/
def slice (buf : Nat → Char) (p n : Nat) : List Char := (List.range n).map fun i => buf (p + i)

/-- The inner loop of `grep`, for at most `fuel` lines: the buffer and `p` after it, and what was
written. -/
def lineLoop (pattern : List Char) :
    Nat → (Nat → Char) → Nat → List Char → Option ((Nat → Char) × Nat × List Char)
  | 0, _, _, _ => none
  | fuel + 1, buf, p, out => do
    match ← strchr buf '\n' (BUFSZ - p) p with
    | none => return (buf, p, out)
    | some q =>
      let buf := update buf q nul
      if ← matchRe pattern (stringAt buf p) then
        let buf := update buf q '\n'
        lineLoop pattern fuel buf (q + 1) (out ++ slice buf p (q + 1 - p))
      else lineLoop pattern fuel buf (q + 1) out

/-- The number of bytes that `read` delivers of `rem` when `size` are asked for, one at least if there
are any. -/
def readLen (want size rem : Nat) : Nat := min (max want 1) (min size rem)

/-- The buffer after `read(fd, buf + m, ..)` has delivered `s`. -/
def fill (buf : Nat → Char) (m : Nat) (s : List Char) : Nat → Char :=
  fun i => if m ≤ i then s.getD (i - m) (buf i) else buf i

def moveDown (buf : Nat → Char) (p m : Nat) : Nat → Char :=
  fun i => if i < m then buf (p + i) else buf i

/-- The outer loop of `grep`, for at most `fuel` calls of `read`. The `k`-th call delivers `cut k` bytes
if it can. -/
def grepLoop (pattern : List Char) (cut : Nat → Nat) :
    Nat → Nat → (Nat → Char) → Nat → List Char → List Char → Option (List Char)
  | 0, _, _, _, _, _ => none
  | fuel + 1, k, buf, m, input, out => do
    let n := readLen (cut k) (BUFSZ - m - 1) input.length
    if 0 < n then
      let buf := fill buf m (input.take n)
      let m := m + n
      let buf := update buf m nul
      let (buf, p, out) ← lineLoop pattern BUFSZ buf 0 out
      let m := m - p
      grepLoop pattern cut fuel (k + 1) (moveDown buf p m) m (input.drop n) out
    else return out

/-- `grep`: what it writes for an input that `read` delivers in pieces. -/
def grep (pattern : List Char) (cut : Nat → Nat) (buf : Nat → Char) (input : List Char) :
    Option (List Char) :=
  grepLoop pattern cut (input.length + 1) 0 buf 0 input []

end Xv6.Grep
