import Xv6.Lib.Wp

/-!
# Xv6.Sh.Basic — the parser of the shell

user/sh.c: six functions that call each other and move one cursor over the line. The cursor is
the rest of the line up to its NUL, so `s < es` says that the rest is not empty. A word is the
characters from `q` to `eq`, which `nulterminate` makes a string of its own when the line is
parsed. The functions return a command or stop with the message of `panic`.
-/

namespace Xv6.Sh

open Lib

def MAXARGS : Nat := 10

def O_RDONLY : Nat := 0x000

def O_WRONLY : Nat := 0x001

def O_CREATE : Nat := 0x200

def O_TRUNC : Nat := 0x400

/-- `struct cmd` and its kinds. -/
inductive Cmd
  | exec (argv : List (List Char))
  | redir (cmd : Cmd) (file : List Char) (mode fd : Nat)
  | pipe (left right : Cmd)
  | list (left right : Cmd)
  | back (cmd : Cmd)
  deriving DecidableEq, Repr

/-- A call of `panic`, or a loop that has run out of rounds. -/
inductive Stop
  | panic (msg : String)
  | fuel
  deriving DecidableEq, Repr

/-- Programs that move the cursor. -/
abbrev P := StateT (List Char) (Except Stop)

/-! ## Tokens -/

def whitespace : List Char := [' ', '\t', '\r', '\n', '\x0b']

def symbols : List Char := ['<', '|', '>', '&', ';', '(', ')']

/-- The loop over whitespace. -/
def skip (s : List Char) : List Char := s.dropWhile fun c => whitespace.contains c

/-- A character of a word. -/
def isWord (c : Char) : Bool := !whitespace.contains c && !symbols.contains c

/-- The kind of the token, its characters, and the line behind it: a symbol stands for itself,
`+` for `>>`, `a` for a word, and NUL for the end. -/
def token : List Char → Char × List Char × List Char
  | [] => ('\x00', [], [])
  | '>' :: '>' :: s => ('+', ['>', '>'], s)
  | c :: s =>
    if symbols.contains c then (c, [c], s)
    else ('a', c :: s.takeWhile isWord, s.dropWhile isWord)

def gettoken : P (Char × List Char) := do
  let s ← get
  let t := token (skip s)
  set (skip t.2.2)
  return (t.1, t.2.1)

def peek (toks : List Char) : P Bool := do
  let s ← get
  set (skip s)
  return (skip s).head?.any fun c => toks.contains c

/-! ## Commands -/

/-- The redirection that the token `tok` asks for. -/
def redirect (cmd : Cmd) (tok : Char) (file : List Char) : Cmd :=
  if tok = '<' then .redir cmd file O_RDONLY 0
  else if tok = '>' then .redir cmd file (O_WRONLY ||| O_CREATE ||| O_TRUNC) 1
  else if tok = '+' then .redir cmd file (O_WRONLY ||| O_CREATE) 1
  else cmd

/-- `cmd->argv[argc] = q`, where `cmd` is the command inside the redirections of `ret`. -/
def Cmd.addArg : Cmd → List Char → Cmd
  | .exec argv, w => .exec (argv ++ [w])
  | .redir cmd file mode fd, w => .redir (cmd.addArg w) file mode fd
  | cmd, _ => cmd

def parseredirs : Nat → Cmd → P Cmd
  | 0, _ => throw .fuel
  | fuel + 1, cmd => do
    if ← peek ['<', '>'] then
      let tok ← gettoken
      let file ← gettoken
      if file.1 ≠ 'a' then throw (.panic "missing file for redirection")
      else parseredirs fuel (redirect cmd tok.1 file.2)
    else return cmd

/-- The loop of `parseexec`. -/
def parseargs : Nat → Nat → Cmd → P Cmd
  | 0, _, _ => throw .fuel
  | fuel + 1, argc, ret => do
    if ← peek ['|', ')', '&', ';'] then return ret
    else
      let tok ← gettoken
      if tok.1 = '\x00' then return ret
      else if tok.1 ≠ 'a' then throw (.panic "syntax")
      else if MAXARGS ≤ argc + 1 then throw (.panic "too many args")
      else
        let ret ← parseredirs fuel (ret.addArg tok.2)
        parseargs fuel (argc + 1) ret

/-- The loop of `parseline`. -/
def parseback : Nat → Cmd → P Cmd
  | 0, _ => throw .fuel
  | fuel + 1, cmd => do
    if ← peek ['&'] then
      let _ ← gettoken
      parseback fuel (.back cmd)
    else return cmd

mutual

def parseline : Nat → P Cmd
  | 0 => throw .fuel
  | fuel + 1 => do
    let cmd ← parsepipe fuel
    let cmd ← parseback fuel cmd
    if ← peek [';'] then
      let _ ← gettoken
      let right ← parseline fuel
      return .list cmd right
    else return cmd

def parsepipe : Nat → P Cmd
  | 0 => throw .fuel
  | fuel + 1 => do
    let cmd ← parseexec fuel
    if ← peek ['|'] then
      let _ ← gettoken
      let right ← parsepipe fuel
      return .pipe cmd right
    else return cmd

def parseblock : Nat → P Cmd
  | 0 => throw .fuel
  | fuel + 1 => do
    if ← peek ['('] then
      let _ ← gettoken
      let cmd ← parseline fuel
      if ← peek [')'] then
        let _ ← gettoken
        parseredirs fuel cmd
      else throw (.panic "syntax - missing )")
    else throw (.panic "parseblock")

def parseexec : Nat → P Cmd
  | 0 => throw .fuel
  | fuel + 1 => do
    if ← peek ['('] then parseblock fuel
    else
      let ret ← parseredirs fuel (.exec [])
      parseargs fuel 0 ret

end

/-- The line is what stands before the first NUL. -/
def line (buf : List Char) : List Char := buf.takeWhile fun c => c != '\x00'

/-- `parseline`, and nothing is left over. -/
def parseall (fuel : Nat) : P Cmd := do
  let cmd ← parseline fuel
  let _ ← peek []
  let s ← get
  if s ≠ [] then throw (.panic "syntax") else return cmd

def parsecmd (buf : List Char) : Except Stop Cmd :=
  (parseall (4 * (line buf).length + 4)).run' (line buf)

end Xv6.Sh
