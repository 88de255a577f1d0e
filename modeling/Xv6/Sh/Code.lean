import Mathlib.Tactic.Common

/-!
# The parser of the shell

The second half of `sh.c`: the tokens, the recursive descent over lines, pipes, commands and
blocks, and the pass that cuts the words out of the line. The string is the list of characters in
front of its terminating NUL. The cursor `*ps` is kept as the rest of the string from there on,
and the pointers in the tree, like the end `es`, are offsets into the string. Each loop and each
call has a bound on the rounds; `Stop.rounds` is the error that it was too small.
-/

namespace Xv6.Sh

abbrev MAXARGS : Nat := 10

abbrev O_RDONLY : Nat := 0x000

abbrev O_WRONLY : Nat := 0x001

abbrev O_CREATE : Nat := 0x200

abbrev O_TRUNC : Nat := 0x400

abbrev NUL : Char := '\x00'

def whitespace : List Char := [' ', '\t', '\r', '\n', '\x0b']

def symbols : List Char := ['<', '|', '>', '&', ';', '(', ')']

def strchr (s : List Char) (c : Char) : Bool := s.contains c

/-- A word in the line: the pointers `q` and `eq`. -/
structure Slice where
  q : Nat
  eq : Nat
  deriving Repr, DecidableEq

inductive Cmd (α : Type) where
  | exec (argv : List α)
  | redir (cmd : Cmd α) (file : α) (mode fd : Nat)
  | pipe (left right : Cmd α)
  | list (left right : Cmd α)
  | back (cmd : Cmd α)
  deriving Repr, DecidableEq

inductive Stop where
  | panic (msg : String)
  | rounds
  deriving Repr, DecidableEq

/-- `while (s < es && strchr(whitespace, *s)) s++`. -/
def skip (s : List Char) : List Char := s.dropWhile (strchr whitespace)

/-- What `gettoken` returns and stores: `ret`, `*q`, `*eq` and `*ps`. -/
structure Token where
  ret : Char
  q : List Char
  eq : List Char
  rest : List Char
  deriving Repr, DecidableEq

def gettoken (s : List Char) : Token :=
  match skip s with
  | [] => ⟨NUL, [], [], []⟩
  | c :: t =>
    if c ∈ ['|', '(', ')', ';', '&', '<'] then ⟨c, c :: t, t, skip t⟩
    else if c = '>' then
      match t with
      | '>' :: u => ⟨'+', c :: t, u, skip u⟩
      | _ => ⟨'>', c :: t, t, skip t⟩
    else
      let u := (c :: t).dropWhile fun c => !strchr whitespace c && !strchr symbols c
      ⟨'a', c :: t, u, skip u⟩

/-- `peek`: the answer, and the cursor behind the white space. -/
def peek (toks : List Char) (s : List Char) : Bool × List Char :=
  let s := skip s
  (match s with
    | [] => false
    | c :: _ => strchr toks c, s)

/-- The pointers of a token in a string that ends at `es`. -/
def Token.slice (es : Nat) (t : Token) : Slice := ⟨es - t.q.length, es - t.eq.length⟩

def parseredirs (es : Nat) :
    Nat → Cmd Slice → List Char → Except Stop (Cmd Slice × List Char)
  | 0, _, _ => .error .rounds
  | fuel + 1, cmd, s =>
    let (more, s) := peek ['<', '>'] s
    if more then
      let tok := gettoken s
      let file := gettoken tok.rest
      if file.ret ≠ 'a' then .error (.panic "missing file for redirection")
      else
        match tok.ret with
        | '<' => parseredirs es fuel (.redir cmd (file.slice es) O_RDONLY 0) file.rest
        | '>' =>
          parseredirs es fuel (.redir cmd (file.slice es) (O_WRONLY ||| O_CREATE ||| O_TRUNC) 1)
            file.rest
        | '+' => parseredirs es fuel (.redir cmd (file.slice es) (O_WRONLY ||| O_CREATE) 1) file.rest
        | _ => parseredirs es fuel cmd file.rest
    else .ok (cmd, s)

/-- `cmd->argv[argc] = q` for the `execcmd` at the bottom of the redirections. -/
def addArg {α : Type} : Cmd α → α → Cmd α
  | .exec argv, a => .exec (argv ++ [a])
  | .redir cmd file mode fd, a => .redir (addArg cmd a) file mode fd
  | cmd, _ => cmd

def execLoop (es : Nat) :
    Nat → Cmd Slice → Nat → List Char → Except Stop (Cmd Slice × List Char)
  | 0, _, _, _ => .error .rounds
  | fuel + 1, ret, argc, s =>
    let (stop, s) := peek ['|', ')', '&', ';'] s
    if stop then .ok (ret, s)
    else
      let tok := gettoken s
      if tok.ret = NUL then .ok (ret, tok.rest)
      else if tok.ret ≠ 'a' then .error (.panic "syntax")
      else
        let ret := addArg ret (tok.slice es)
        if MAXARGS ≤ argc + 1 then .error (.panic "too many args")
        else do
          let (ret, s) ← parseredirs es fuel ret tok.rest
          execLoop es fuel ret (argc + 1) s

def backLoop : Nat → Cmd Slice → List Char → Except Stop (Cmd Slice × List Char)
  | 0, _, _ => .error .rounds
  | fuel + 1, cmd, s =>
    let (more, s) := peek ['&'] s
    if more then backLoop fuel (.back cmd) (gettoken s).rest else .ok (cmd, s)

mutual

/-- A pipe, then any `&` and `;`. -/
def parseline (es : Nat) : Nat → List Char → Except Stop (Cmd Slice × List Char)
  | 0, _ => .error .rounds
  | fuel + 1, s => do
    let (cmd, s) ← parsepipe es fuel s
    let (cmd, s) ← backLoop fuel cmd s
    let (more, s) := peek [';'] s
    if more then
      let (right, s) ← parseline es fuel (gettoken s).rest
      .ok (.list cmd right, s)
    else .ok (cmd, s)

def parsepipe (es : Nat) : Nat → List Char → Except Stop (Cmd Slice × List Char)
  | 0, _ => .error .rounds
  | fuel + 1, s => do
    let (cmd, s) ← parseexec es fuel s
    let (more, s) := peek ['|'] s
    if more then
      let (right, s) ← parsepipe es fuel (gettoken s).rest
      .ok (.pipe cmd right, s)
    else .ok (cmd, s)

def parseexec (es : Nat) : Nat → List Char → Except Stop (Cmd Slice × List Char)
  | 0, _ => .error .rounds
  | fuel + 1, s =>
    let (block, s) := peek ['('] s
    if block then parseblock es fuel s
    else do
      let (ret, s) ← parseredirs es fuel (.exec []) s
      execLoop es fuel ret 0 s

def parseblock (es : Nat) : Nat → List Char → Except Stop (Cmd Slice × List Char)
  | 0, _ => .error .rounds
  | fuel + 1, s =>
    let (block, s) := peek ['('] s
    if block then do
      let (cmd, s) ← parseline es fuel (gettoken s).rest
      let (close, s) := peek [')'] s
      if close then parseredirs es fuel cmd (gettoken s).rest
      else .error (.panic "syntax - missing )")
    else .error (.panic "parseblock")

end

/-- `nulterminate`: the line after the words of the tree are cut off. -/
def nulterminate (buf : List Char) : Cmd Slice → List Char
  | .exec argv => argv.foldl (fun buf a => buf.set a.eq NUL) buf
  | .redir cmd file _ _ => (nulterminate buf cmd).set file.eq NUL
  | .pipe left right => nulterminate (nulterminate buf left) right
  | .list left right => nulterminate (nulterminate buf left) right
  | .back cmd => nulterminate buf cmd

/-- `parsecmd`: the tree, and the memory of the line afterwards. -/
def parsecmd (fuel : Nat) (s : List Char) : Except Stop (Cmd Slice × List Char) := do
  let (cmd, rest) ← parseline s.length fuel s
  let (_, rest) := peek [] rest
  if rest ≠ [] then .error (.panic "syntax")
  else .ok (cmd, nulterminate (s ++ [NUL]) cmd)

end Xv6.Sh
