import Xv6.Sh.Code

/-!
# The grammar of the shell

What a line of the shell is, without the parser: its tokens, the trees that the grammar

  line  ::= pipe '&'* [';' line]
  pipe  ::= exec ['|' pipe]
  exec  ::= '(' line ')' redir* | redir* (word redir*)*
  redir ::= ('<' | '>' | '>>') word

derives from them, and the words in these trees as texts.
-/

namespace Xv6.Sh

abbrev Word := List Char

inductive Tok where
  | word (w : Word)
  | bar
  | lpar
  | rpar
  | semi
  | amp
  | lt
  | gt
  | gtgt
  deriving Repr, DecidableEq

/-- A character of a word: neither white space nor a symbol. -/
def isWord (c : Char) : Bool := !strchr whitespace c && !strchr symbols c

def symbolTok : Char → Tok
  | '|' => .bar
  | '(' => .lpar
  | ')' => .rpar
  | ';' => .semi
  | '&' => .amp
  | '<' => .lt
  | _ => .gt

/-- The tokens of a string: words are as long as possible, and so is `>>`. -/
def tokens : List Char → List Tok
  | [] => []
  | c :: s =>
    if strchr whitespace c then tokens s
    else if strchr symbols c then
      if c = '>' ∧ s.head? = some '>' then .gtgt :: tokens s.tail
      else symbolTok c :: tokens s
    else .word (c :: s.takeWhile isWord) :: tokens (s.dropWhile isWord)
termination_by s => s.length
decreasing_by
  · simp
  · have := s.length_tail
    simp only [List.length_cons]
    omega
  · simp
  · have := (s.dropWhile_suffix isWord).length_le
    simp only [List.length_cons]
    omega

inductive RedirOp where
  | input
  | output
  | append
  deriving Repr, DecidableEq

namespace RedirOp

def tok : RedirOp → Tok
  | input => .lt
  | output => .gt
  | append => .gtgt

def mode : RedirOp → Nat
  | input => O_RDONLY
  | output => O_WRONLY ||| O_CREATE ||| O_TRUNC
  | append => O_WRONLY ||| O_CREATE

def fd : RedirOp → Nat
  | input => 0
  | output => 1
  | append => 1

end RedirOp

variable {α β : Type}

/-- A command with redirections around it, the first one innermost. -/
def wrap (c : Cmd α) (rs : List (RedirOp × α)) : Cmd α :=
  rs.foldl (fun c r => .redir c r.2 r.1.mode r.1.fd) c

def redirToks (rs : List (RedirOp × Word)) : List Tok := rs.flatMap fun r => [r.1.tok, .word r.2]

/-- The tokens of words, each with the redirections behind it. -/
def argToks (items : List (Word × List (RedirOp × Word))) : List Tok :=
  items.flatMap fun i => .word i.1 :: redirToks i.2

def backs : Nat → Cmd α → Cmd α
  | 0, c => c
  | n + 1, c => backs n (.back c)

mutual

inductive Line : List Tok → Cmd Word → Prop where
  | last {p : List Tok} {c : Cmd Word} (n : Nat) :
      Pipe p c → Line (p ++ List.replicate n .amp) (backs n c)
  | semi {p l : List Tok} {c d : Cmd Word} (n : Nat) : Pipe p c → Line l d →
      Line (p ++ List.replicate n .amp ++ .semi :: l) (.list (backs n c) d)

inductive Pipe : List Tok → Cmd Word → Prop where
  | last {e : List Tok} {c : Cmd Word} : Exec e c → Pipe e c
  | bar {e p : List Tok} {c d : Cmd Word} : Exec e c → Pipe p d →
      Pipe (e ++ .bar :: p) (.pipe c d)

inductive Exec : List Tok → Cmd Word → Prop where
  | block {l : List Tok} {c : Cmd Word} (rs : List (RedirOp × Word)) : Line l c →
      Exec (.lpar :: (l ++ .rpar :: redirToks rs)) (wrap c rs)
  | simple (rs : List (RedirOp × Word)) (items : List (Word × List (RedirOp × Word))) :
      items.length ≤ MAXARGS - 1 →
      Exec (redirToks rs ++ argToks items)
        (wrap (.exec (items.map Prod.fst)) (rs ++ items.flatMap Prod.snd))

end

def Cmd.map (f : α → β) : Cmd α → Cmd β
  | .exec argv => .exec (argv.map f)
  | .redir cmd file mode fd => .redir (cmd.map f) (f file) mode fd
  | .pipe left right => .pipe (left.map f) (right.map f)
  | .list left right => .list (left.map f) (right.map f)
  | .back cmd => .back (cmd.map f)

/-- The C string at an offset of the memory. -/
def cstr (buf : List Char) (q : Nat) : Word := (buf.drop q).takeWhile (· ≠ NUL)

end Xv6.Sh
