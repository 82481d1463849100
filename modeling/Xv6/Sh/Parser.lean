import Xv6.Lib.Exec

/-!
# Sh — the parser of the shell

`sh.c` from `gettoken` to `nulterminate`. The line is a list of characters;
a pointer into it is what is left of the line from there on, so `*s` is the
first character and `es` is the empty list, where the NUL stands. The
pointer `*ps` that the functions share is the state.

The functions call each other, so they take a bound on the depth of the
calls; `parsecmd` takes one that is never reached.
-/

namespace Xv6.Sh

open Lib

/-! ## Commands -/

/-- `struct cmd`, with strings of type `α`. -/
inductive Cmd (α : Type)
  | exec (argv : List α)
  | redir (cmd : Cmd α) (file : α) (mode fd : Nat)
  | pipe (left right : Cmd α)
  | list (left right : Cmd α)
  | back (cmd : Cmd α)
  deriving DecidableEq

def MAXARGS : Nat := 10

def O_RDONLY : Nat := 0x000
def O_WRONLY : Nat := 0x001
def O_CREATE : Nat := 0x200

namespace Cmd

variable {α β : Type}

def map (f : α → β) : Cmd α → Cmd β
  | exec argv => exec (argv.map f)
  | redir cmd file mode fd => redir (cmd.map f) (f file) mode fd
  | pipe left right => pipe (left.map f) (right.map f)
  | list left right => list (left.map f) (right.map f)
  | back cmd => back (cmd.map f)

/-- Store to `argv` of the `execcmd` inside the redirections around it. -/
def setArgv (argv : List α) : Cmd α → Cmd α
  | exec _ => exec argv
  | redir cmd file mode fd => redir (cmd.setArgv argv) file mode fd
  | cmd => cmd

end Cmd

/-! ## Tokens -/

def whitespace : List Char := [' ', '\t', '\r', '\n', '\x0b']

def symbols : List Char := ['<', '|', '>', '&', ';', '(', ')']

def isSpace (c : Char) : Bool := whitespace.contains c

/-- A character that the loop of `gettoken` over a word goes past. -/
def isWord (c : Char) : Bool := !whitespace.contains c && !symbols.contains c

/-- What `gettoken` returns: 0, a symbol, `+` for `>>`, or `a` for a word. -/
inductive Tok
  | nul
  | bar
  | lparen
  | rparen
  | semi
  | amp
  | less
  | greater
  | plus
  | word
  deriving DecidableEq

/-- A string of the line, from `q` up to `eq`. -/
structure Span where
  q : List Char
  eq : List Char
  deriving DecidableEq

inductive Stop
  | panic (msg : String)
  /-- The bound on the depth is reached. -/
  | depth
  deriving DecidableEq

abbrev ParseM := StateT (List Char) (Except Stop)

def panic {α : Type} (msg : String) : ParseM α := throw (.panic msg)

/-- The switch of `gettoken`: the token, and the pointer after it. -/
def scan : List Char → Tok × List Char
  | [] => (.nul, [])
  | c :: s =>
      if c = '|' then (.bar, s)
      else if c = '(' then (.lparen, s)
      else if c = ')' then (.rparen, s)
      else if c = ';' then (.semi, s)
      else if c = '&' then (.amp, s)
      else if c = '<' then (.less, s)
      else if c = '>' then
        if s.head? = some '>' then (.plus, s.tail) else (.greater, s)
      else (.word, (c :: s).dropWhile isWord)

def gettoken : ParseM (Tok × Span) := do
  let q := (← get).dropWhile isSpace
  let (ret, eq) := scan q
  set (eq.dropWhile isSpace)
  return (ret, ⟨q, eq⟩)

/-- `peek`: whether the next character is one of `toks`. -/
def peek (toks : List Char) : ParseM Bool := do
  let s := (← get).dropWhile isSpace
  set s
  return s.head?.any toks.contains

/-! ## The parser -/

def parseredirs : Nat → Cmd Span → ParseM (Cmd Span)
  | 0, _ => throw .depth
  | n + 1, cmd => do
      if ← peek ['<', '>'] then
        let (tok, _) ← gettoken
        let (next, file) ← gettoken
        if next ≠ .word then panic "missing file for redirection"
        match tok with
        | .less => parseredirs n (.redir cmd file O_RDONLY 0)
        | .greater => parseredirs n (.redir cmd file (O_WRONLY ||| O_CREATE) 1)
        | .plus => parseredirs n (.redir cmd file (O_WRONLY ||| O_CREATE) 1)
        | _ => parseredirs n cmd
      else return cmd

/-- The loop of `parseexec` over the words. -/
def parseargs : Nat → List Span → Cmd Span → ParseM (Cmd Span)
  | 0, _, _ => throw .depth
  | n + 1, argv, ret => do
      if ← peek ['|', ')', '&', ';'] then return ret
      let (tok, word) ← gettoken
      if tok = .nul then return ret
      if tok ≠ .word then panic "syntax"
      let argv := argv ++ [word]
      if MAXARGS ≤ argv.length then panic "too many args"
      let ret ← parseredirs n (ret.setArgv argv)
      parseargs n argv ret

/-- The loop of `parseline` over `&`. -/
def parsebacks : Nat → Cmd Span → ParseM (Cmd Span)
  | 0, _ => throw .depth
  | n + 1, cmd => do
      if ← peek ['&'] then
        let _ ← gettoken
        parsebacks n (.back cmd)
      else return cmd

mutual

def parseline : Nat → ParseM (Cmd Span)
  | 0 => throw .depth
  | n + 1 => do
      let cmd ← parsepipe n
      let cmd ← parsebacks n cmd
      if ← peek [';'] then
        let _ ← gettoken
        let right ← parseline n
        return .list cmd right
      else return cmd

def parsepipe : Nat → ParseM (Cmd Span)
  | 0 => throw .depth
  | n + 1 => do
      let cmd ← parseexec n
      if ← peek ['|'] then
        let _ ← gettoken
        let right ← parsepipe n
        return .pipe cmd right
      else return cmd

def parseexec : Nat → ParseM (Cmd Span)
  | 0 => throw .depth
  | n + 1 => do
      if ← peek ['('] then parseblock n
      else
        let ret ← parseredirs n (.exec [])
        parseargs n [] ret

def parseblock : Nat → ParseM (Cmd Span)
  | 0 => throw .depth
  | n + 1 => do
      if !(← peek ['(']) then panic "parseblock"
      let _ ← gettoken
      let cmd ← parseline n
      if !(← peek [')']) then panic "syntax - missing )"
      let _ ← gettoken
      parseredirs n cmd

end

/-! ## `nulterminate` -/

/-- The index of a pointer into `line`. -/
def index (line s : List Char) : Nat := line.length - s.length

/-- `nulterminate`: the line with a NUL after every string of the command. -/
def nulterminate (line : List Char) : Cmd Span → List Char → List Char
  | .exec argv, buf => argv.foldl (fun buf w => buf.set (index line w.eq) '\x00') buf
  | .redir cmd file _ _, buf =>
      (nulterminate line cmd buf).set (index line file.eq) '\x00'
  | .pipe left right, buf => nulterminate line right (nulterminate line left buf)
  | .list left right, buf => nulterminate line right (nulterminate line left buf)
  | .back cmd, buf => nulterminate line cmd buf

/-- The string at a pointer, in the line as it is now. -/
def string (line buf : List Char) (w : Span) : List Char :=
  (buf.drop (index line w.q)).takeWhile (· ≠ '\x00')

/-- A bound on the depth that is not reached. -/
def depth (line : List Char) : Nat := 4 * line.length + 4

/-- `parsecmd`, on the characters before the NUL; the command with its strings
as they are when it returns. -/
def parsecmd (s : List Char) : Except Stop (Cmd (List Char)) := do
  let line := s.takeWhile (· ≠ '\x00')
  let (cmd, rest) ← (parseline (depth line)).run line
  let rest := rest.dropWhile isSpace
  if rest ≠ [] then throw (.panic "syntax")
  -- the buffer holds the line and its NUL
  let buf := nulterminate line cmd (line ++ ['\x00'])
  return cmd.map (string line buf)

end Xv6.Sh
