import Mathlib.Data.List.Basic
import Xv6.Sh.Tokens

/-!
# Xv6.Sh.Grammar

The grammar of the shell, by its derivations:

* line ::= pipe '&'* [';' line]
* pipe ::= exec ['|' pipe]
* exec ::= block | redirs (word redirs)*, with at most `MAXARGS - 1` words
* block ::= '(' line ')' redirs
* redirs ::= (('<' | '>' | '>>') word)*

A derivation has the tokens it derives (`Line.toks`) and the command it denotes (`Line.cmd`).
-/

namespace Xv6
namespace Sh

inductive Dir
  | input
  | output
  | append
  deriving DecidableEq, Repr

def Dir.sym : Dir → Char
  | .input => '<'
  | .output => '>'
  | .append => '+'

/-- The flags for `open`; `>>` does not truncate. -/
def Dir.mode : Dir → Nat
  | .input => O_RDONLY
  | .output => O_WRONLY ||| O_CREATE ||| O_TRUNC
  | .append => O_WRONLY ||| O_CREATE

def Dir.fd : Dir → Nat
  | .input => 0
  | .output => 1
  | .append => 1

abbrev Redirs := List (Dir × Word)

abbrev Args := List (Word × Redirs)

mutual

inductive Line
  | last (p : Pipe) (backs : Nat)
  | seq (p : Pipe) (backs : Nat) (l : Line)

inductive Pipe
  | one (e : Exec)
  | pipe (e : Exec) (p : Pipe)

inductive Exec
  | block (l : Line) (rs : Redirs)
  | simple (rs : Redirs) (args : Args)

end

/-! ## What is derived -/

def redirToks : Redirs → List Tok
  | [] => []
  | (d, w) :: rs => .sym d.sym :: .word w :: redirToks rs

def argToks : Args → List Tok
  | [] => []
  | (w, rs) :: args => .word w :: (redirToks rs ++ argToks args)

mutual

def Line.toks : Line → List Tok
  | .last p n => p.toks ++ List.replicate n (.sym '&')
  | .seq p n l => p.toks ++ (List.replicate n (.sym '&') ++ .sym ';' :: l.toks)

def Pipe.toks : Pipe → List Tok
  | .one e => e.toks
  | .pipe e p => e.toks ++ .sym '|' :: p.toks

def Exec.toks : Exec → List Tok
  | .block l rs => .sym '(' :: (l.toks ++ .sym ')' :: redirToks rs)
  | .simple rs args => redirToks rs ++ argToks args

end

mutual

def Line.Ok : Line → Prop
  | .last p _ => p.Ok
  | .seq p _ l => p.Ok ∧ l.Ok

def Pipe.Ok : Pipe → Prop
  | .one e => e.Ok
  | .pipe e p => e.Ok ∧ p.Ok

def Exec.Ok : Exec → Prop
  | .block l _ => l.Ok
  | .simple _ args => args.length ≤ MAXARGS - 1

end

/-! ## What is denoted -/

/-- Redirections around a command, later ones outside. -/
def wrap (rs : Redirs) (cmd : Cmd Word) : Cmd Word :=
  rs.foldl (fun cmd r => .redir cmd r.2 r.1.mode r.1.fd) cmd

mutual

def Line.cmd : Line → Cmd Word
  | .last p n => Cmd.back^[n] p.cmd
  | .seq p n l => .list (Cmd.back^[n] p.cmd) l.cmd

def Pipe.cmd : Pipe → Cmd Word
  | .one e => e.cmd
  | .pipe e p => .pipe e.cmd p.cmd

def Exec.cmd : Exec → Cmd Word
  | .block l rs => wrap rs l.cmd
  | .simple rs args => wrap (rs ++ args.flatMap Prod.snd) (.exec (args.map Prod.fst))

end

/-! ## Redirections and words -/

@[simp] theorem wrap_nil (cmd : Cmd Word) : wrap [] cmd = cmd := rfl

@[simp] theorem wrap_cons (d : Dir) (w : Word) (rs : Redirs) (cmd : Cmd Word) :
    wrap ((d, w) :: rs) cmd = wrap rs (.redir cmd w d.mode d.fd) := rfl

theorem wrap_append (rs rs' : Redirs) (cmd : Cmd Word) : wrap (rs ++ rs') cmd = wrap rs' (wrap rs cmd) :=
  List.foldl_append ..

theorem redirect_sym (d : Dir) (cmd : Cmd Word) (w : Word) : redirect d.sym cmd w = .redir cmd w d.mode d.fd := by
  cases d <;> rfl

theorem addArg_wrap (w : Word) (rs : Redirs) (cmd : Cmd Word) : (wrap rs cmd).addArg w = wrap rs (cmd.addArg w) := by
  induction rs generalizing cmd with
  | nil => rfl
  | cons r rs ih =>
    obtain ⟨d, f⟩ := r
    rw [wrap_cons, ih, Cmd.addArg, wrap_cons]

/-- Words and redirections one after the other, as `parseexec` takes them. -/
def addArgs : Args → Cmd Word → Cmd Word
  | [], ret => ret
  | (w, rs) :: args, ret => addArgs args (wrap rs (ret.addArg w))

theorem addArgs_eq (args : Args) (rs : Redirs) (ws : List Word) : addArgs args (wrap rs (.exec ws)) =
    wrap (rs ++ args.flatMap Prod.snd) (.exec (ws ++ args.map Prod.fst)) := by
  induction args generalizing rs ws with
  | nil => simp [addArgs]
  | cons a args ih =>
    obtain ⟨w, rs'⟩ := a
    rw [addArgs, addArg_wrap, Cmd.addArg, ← wrap_append, ih]
    simp

theorem starts_redirToks_append {cs : List Char} {rs : Redirs} {ts : List Tok}
    (hcs : cs.contains '<' = false ∧ cs.contains '>' = false) (h : starts cs ts = false) :
    starts cs (redirToks rs ++ ts) = false := by
  cases rs with
  | nil => exact h
  | cons r rs =>
    obtain ⟨d, w⟩ := r
    cases d
    · exact hcs.1
    · exact hcs.2
    · exact hcs.2

end Sh
end Xv6
