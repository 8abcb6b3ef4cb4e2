import Xv6.Lib.Fuel

/-!
# The parser of the shell

`user/sh.c`, from the tokens to `nulterminate()`. The buffer is a list of characters, with NUL after its end; pointers
into it are indices, and `*ps` is an argument and a result. The parser is given a number of turns, and a call that
panics is an error with the text of the panic.

* `gettoken`, `peek` : the tokens;
* `parseredirs`, `parseargs`, `parseline`, `parsepipe`, `parseexec`, `parseblock` : the functions of the source;
* `nulterminate`, `parsecmd` : the strings are ended in place.
-/

namespace Xv6.User.Shell

def maxargs : Nat := 10

def oRdonly : Nat := 0x000
def oWronly : Nat := 0x001
def oCreate : Nat := 0x200
def oTrunc : Nat := 0x400

/-- A parsed command; the strings are where they begin and end in the buffer. -/
inductive Cmd
  | exec (argv : List (Nat × Nat))
  | redir (cmd : Cmd) (file efile mode fd : Nat)
  | pipe (left right : Cmd)
  | list (left right : Cmd)
  | back (cmd : Cmd)
deriving DecidableEq

/-- `parseexec()` adds an argument to the command inside the redirections. -/
def Cmd.addArg (q eq : Nat) : Cmd → Cmd
  | exec argv => exec (argv ++ [(q, eq)])
  | redir cmd file efile mode fd => redir (addArg q eq cmd) file efile mode fd
  | cmd => cmd

def whitespace : List Char := [' ', '\t', '\r', '\n', '\x0b']
def symbols : List Char := ['<', '|', '>', '&', ';', '(', ')']

def chr (buf : List Char) (i : Nat) : Char := buf.getD i '\x00'

def strlen (buf : List Char) : Nat := (buf.takeWhile (· ≠ '\x00')).length

/-- `while (s < es && p(*s)) s++`, for `n = es - s`. -/
def scan (p : Char → Bool) (buf : List Char) : Nat → Nat → Nat
  | 0, s => s
  | n + 1, s => if p (chr buf s) then scan p buf n (s + 1) else s

def isBlank (c : Char) : Bool := c ∈ whitespace
def isWord (c : Char) : Bool := c ∉ whitespace ∧ c ∉ symbols

/-- The result of `gettoken()`, with the new value of `*ps`. -/
structure Got where
  ret : Char
  q : Nat
  eq : Nat
  s : Nat
deriving DecidableEq

section
variable (buf : List Char) (es : Nat)

/-- The `switch` of `gettoken()`: what is returned, and where the token ends. -/
def lexeme (s : Nat) : Char × Nat :=
  let c := chr buf s
  if c = '\x00' then (c, s)
  else if c ∈ ['|', '(', ')', ';', '&', '<'] then (c, s + 1)
  else if c = '>' then
    if chr buf (s + 1) = '>' then ('+', s + 2) else (c, s + 1)
  else ('a', scan isWord buf (es - s) s)

def gettoken (s : Nat) : Got :=
  let q := scan isBlank buf (es - s) s
  let (ret, eq) := lexeme buf es q
  { ret := ret, q := q, eq := eq, s := scan isBlank buf (es - eq) eq }

def peek (toks : List Char) (s : Nat) : Bool × Nat :=
  let s := scan isBlank buf (es - s) s
  (chr buf s ≠ '\x00' ∧ chr buf s ∈ toks, s)

abbrev Parse (A : Type) := ExceptT String Option A

/-- The command for a redirection token. -/
def redirect (cmd : Cmd) (tok : Char) (q eq : Nat) : Cmd :=
  if tok = '<' then .redir cmd q eq oRdonly 0
  else if tok = '>' then .redir cmd q eq (oWronly ||| oCreate ||| oTrunc) 1
  else if tok = '+' then .redir cmd q eq (oWronly ||| oCreate) 1
  else cmd

def parseredirs : Nat → Cmd → Nat → Parse (Cmd × Nat)
  | 0, _, _ => none
  | fuel + 1, cmd, s =>
    let (more, s) := peek buf es ['<', '>'] s
    if more then
      let op := gettoken buf es s
      let file := gettoken buf es op.s
      if file.ret ≠ 'a' then throw "missing file for redirection"
      else parseredirs fuel (redirect cmd op.ret file.q file.eq) file.s
    else pure (cmd, s)

/-- The loop of `parseexec()`. -/
def parseargs : Nat → Cmd → Nat → Nat → Parse (Cmd × Nat)
  | 0, _, _, _ => none
  | fuel + 1, ret, argc, s =>
    let (stop, s) := peek buf es ['|', ')', '&', ';'] s
    if stop then pure (ret, s)
    else
      let arg := gettoken buf es s
      if arg.ret = '\x00' then pure (ret, arg.s)
      else if arg.ret ≠ 'a' then throw "syntax"
      else if maxargs ≤ argc + 1 then throw "too many args"
      else do
        let r ← parseredirs buf es fuel (ret.addArg arg.q arg.eq) arg.s
        parseargs fuel r.1 (argc + 1) r.2

/-- The loop of `parseline()`. -/
def parsebacks : Nat → Cmd → Nat → Parse (Cmd × Nat)
  | 0, _, _ => none
  | fuel + 1, cmd, s =>
    let (more, s) := peek buf es ['&'] s
    if more then parsebacks fuel (.back cmd) (gettoken buf es s).s
    else pure (cmd, s)

mutual

def parseline : Nat → Nat → Parse (Cmd × Nat)
  | 0, _ => none
  | fuel + 1, s => do
    let r ← parsepipe fuel s
    let r ← parsebacks buf es fuel r.1 r.2
    let more := peek buf es [';'] r.2
    if more.1 then
      let rest ← parseline fuel (gettoken buf es more.2).s
      pure (.list r.1 rest.1, rest.2)
    else pure (r.1, more.2)

def parsepipe : Nat → Nat → Parse (Cmd × Nat)
  | 0, _ => none
  | fuel + 1, s => do
    let r ← parseexec fuel s
    let more := peek buf es ['|'] r.2
    if more.1 then
      let rest ← parsepipe fuel (gettoken buf es more.2).s
      pure (.pipe r.1 rest.1, rest.2)
    else pure (r.1, more.2)

def parseexec : Nat → Nat → Parse (Cmd × Nat)
  | 0, _ => none
  | fuel + 1, s => do
    let block := peek buf es ['('] s
    if block.1 then parseblock fuel block.2
    else
      let r ← parseredirs buf es fuel (.exec []) block.2
      parseargs buf es fuel r.1 0 r.2

def parseblock : Nat → Nat → Parse (Cmd × Nat)
  | 0, _ => none
  | fuel + 1, s => do
    let block := peek buf es ['('] s
    if ¬ block.1 then throw "parseblock"
    else
      let r ← parseline fuel (gettoken buf es block.2).s
      let close := peek buf es [')'] r.2
      if ¬ close.1 then throw "syntax - missing )"
      else parseredirs buf es fuel r.1 (gettoken buf es close.2).s

end

end

/-- The strings of the command are ended in the buffer. -/
def nulterminate : Cmd → List Char → List Char
  | .exec argv, buf => argv.foldl (fun buf arg => buf.set arg.2 '\x00') buf
  | .redir cmd _ efile _ _, buf => (nulterminate cmd buf).set efile '\x00'
  | .pipe left right, buf => nulterminate right (nulterminate left buf)
  | .list left right, buf => nulterminate right (nulterminate left buf)
  | .back cmd, buf => nulterminate cmd buf

def parsecmd (buf : List Char) (fuel : Nat) : Parse (Cmd × List Char) := do
  let es := strlen buf
  let r ← parseline buf es fuel 0
  let rest := peek buf es [] r.2
  if rest.2 ≠ es then throw "syntax"
  else pure (r.1, nulterminate r.1 buf)

end Xv6.User.Shell
