import Mathlib.Logic.Function.Basic
import Xv6.Lib.Wp

/-!
# Xv6.Sh.Model

The parser of the shell, `user/sh.c`, from `gettoken` to `nulterminate`. The input is a string in memory
that ends with a NUL (`CStr`); the cursor `*ps` is the state. A word is the pair of pointers that `gettoken`
stores in `*q` and `*eq`, and the tree has these pointers. Calls and loops have a number of turns; with too
few of them the result is `fuel`.
-/

namespace Xv6
namespace Sh

open Wp

/-- A string of `len` characters, with a NUL behind them and nowhere before. -/
structure CStr where
  mem : Nat → Char
  len : Nat
  nonzero : ∀ i < len, mem i ≠ '\x00'
  zero : mem len = '\x00'

/-- What `gettoken` stores in `*q` and `*eq`. -/
structure Word where
  q : Nat
  eq : Nat
  deriving DecidableEq, Repr

/-- `struct cmd`, with words of any kind. -/
inductive Cmd (α : Type)
  | exec (argv : List α)
  | redir (cmd : Cmd α) (file : α) (mode fd : Nat)
  | pipe (left right : Cmd α)
  | list (left right : Cmd α)
  | back (cmd : Cmd α)
  deriving DecidableEq, Repr

inductive Err
  | panic (msg : String)
  | fuel
  deriving DecidableEq, Repr

abbrev P := StateT Nat (Except Err)

abbrev MAXARGS : Nat := 10

abbrev O_RDONLY : Nat := 0x000
abbrev O_WRONLY : Nat := 0x001
abbrev O_CREATE : Nat := 0x200
abbrev O_TRUNC : Nat := 0x400

def whitespace : List Char := [' ', '\t', '\r', '\n', '\x0b']

def symbols : List Char := ['<', '|', '>', '&', ';', '(', ')']

/-- `while (s < es && p(*s)) s++;` where `n` is `es - s`. -/
def skip (p : Char → Bool) (mem : Nat → Char) : Nat → Nat → Nat
  | 0, s => s
  | n + 1, s => if p (mem s) then skip p mem n (s + 1) else s

def skipSpace (c : CStr) (s : Nat) : Nat := skip (whitespace.contains ·) c.mem (c.len - s) s

def skipWord (c : CStr) (s : Nat) : Nat :=
  skip (fun x => !whitespace.contains x && !symbols.contains x) c.mem (c.len - s) s

/-- The token at `s`, where no whitespace is, and the place behind it. -/
def token (c : CStr) (s : Nat) : Char × Nat :=
  let x := c.mem s
  if x = '\x00' then (x, s)
  else if x ∈ ['|', '(', ')', ';', '&', '<'] then (x, s + 1)
  else if x = '>' then if c.mem (s + 1) = '>' then ('+', s + 2) else (x, s + 1)
  else ('a', skipWord c s)

/-- `gettoken`: the token, its `q` and `eq`, and the new cursor. -/
def scan (c : CStr) (s : Nat) : (Char × Word) × Nat :=
  let q := skipSpace c s
  let (ret, eq) := token c q
  ((ret, ⟨q, eq⟩), skipSpace c eq)

def gettoken (c : CStr) : P (Char × Word) := fun s => .ok (scan c s)

def peek (c : CStr) (toks : List Char) : P Bool := fun s =>
  let s := skipSpace c s
  .ok (decide (c.mem s ≠ '\x00') && toks.contains (c.mem s), s)

def redirect (tok : Char) (cmd : Cmd Word) (w : Word) : Cmd Word :=
  match tok with
  | '<' => .redir cmd w O_RDONLY 0
  | '>' => .redir cmd w (O_WRONLY ||| O_CREATE ||| O_TRUNC) 1
  | '+' => .redir cmd w (O_WRONLY ||| O_CREATE) 1
  | _ => cmd

def parseredirs (c : CStr) : Nat → Cmd Word → P (Cmd Word)
  | 0, _ => throw .fuel
  | n + 1, cmd => do
    let more ← peek c ['<', '>']
    if more then
      let (tok, _) ← gettoken c
      let (a, w) ← gettoken c
      if a ≠ 'a' then throw (.panic "missing file for redirection") else parseredirs c n (redirect tok cmd w)
    else pure cmd

/-- A word is stored in `argv` of the `execcmd`, which is inside the redirections read so far. -/
def Cmd.addArg {α : Type} (w : α) : Cmd α → Cmd α
  | .exec argv => .exec (argv ++ [w])
  | .redir cmd file mode fd => .redir (cmd.addArg w) file mode fd
  | .pipe l r => .pipe l r
  | .list l r => .list l r
  | .back cmd => .back cmd

/-- The loop of `parseexec`. -/
def parseargs (c : CStr) : Nat → Nat → Cmd Word → P (Cmd Word)
  | 0, _, _ => throw .fuel
  | n + 1, argc, ret => do
    let stop ← peek c ['|', ')', '&', ';']
    if stop then pure ret
    else
      let (tok, w) ← gettoken c
      if tok = '\x00' then pure ret
      else if tok ≠ 'a' then throw (.panic "syntax")
      else if argc + 1 ≥ MAXARGS then throw (.panic "too many args")
      else
        let ret ← parseredirs c n (ret.addArg w)
        parseargs c n (argc + 1) ret

/-- The loop of `parseline`. -/
def parsebacks (c : CStr) : Nat → Cmd Word → P (Cmd Word)
  | 0, _ => throw .fuel
  | n + 1, cmd => do
    let more ← peek c ['&']
    if more then
      let _ ← gettoken c
      parsebacks c n (.back cmd)
    else pure cmd

mutual

def parseline (c : CStr) : Nat → P (Cmd Word)
  | 0 => throw .fuel
  | n + 1 => do
    let cmd ← parsepipe c n
    let cmd ← parsebacks c n cmd
    let more ← peek c [';']
    if more then
      let _ ← gettoken c
      let right ← parseline c n
      pure (.list cmd right)
    else pure cmd

def parsepipe (c : CStr) : Nat → P (Cmd Word)
  | 0 => throw .fuel
  | n + 1 => do
    let cmd ← parseexec c n
    let more ← peek c ['|']
    if more then
      let _ ← gettoken c
      let right ← parsepipe c n
      pure (.pipe cmd right)
    else pure cmd

def parseexec (c : CStr) : Nat → P (Cmd Word)
  | 0 => throw .fuel
  | n + 1 => do
    let block ← peek c ['(']
    if block then parseblock c n
    else
      let ret ← parseredirs c n (.exec [])
      parseargs c n 0 ret

def parseblock (c : CStr) : Nat → P (Cmd Word)
  | 0 => throw .fuel
  | n + 1 => do
    let opens ← peek c ['(']
    if ¬ opens then throw (.panic "parseblock")
    else
      let _ ← gettoken c
      let cmd ← parseline c n
      let closes ← peek c [')']
      if ¬ closes then throw (.panic "syntax - missing )")
      else
        let _ ← gettoken c
        parseredirs c n cmd

end

/-- `nulterminate`: the memory behind it. -/
def nulterminate : Cmd Word → (Nat → Char) → Nat → Char
  | .exec argv, mem => argv.foldl (fun m w => Function.update m w.eq '\x00') mem
  | .redir cmd file _ _, mem => Function.update (nulterminate cmd mem) file.eq '\x00'
  | .pipe l r, mem => nulterminate r (nulterminate l mem)
  | .list l r, mem => nulterminate r (nulterminate l mem)
  | .back cmd, mem => nulterminate cmd mem

/-- `parsecmd`: the tree, and the memory behind the call. -/
def parsecmd (n : Nat) (c : CStr) : Except Err (Cmd Word × (Nat → Char)) :=
  match (do
    let cmd ← parseline c n
    let _ ← peek c []
    pure cmd : P (Cmd Word)) 0 with
  | .error e => .error e
  | .ok (cmd, s) => if s ≠ c.len then .error (.panic "syntax") else .ok (cmd, nulterminate cmd c.mem)

end Sh
end Xv6
