import Xv6.Lib.Trans
import Xv6.Log.Trace
import Mathlib.Data.Finset.Card

/-!
# Xv6.Log.Group

Group commit: `begin_op`, `log_write`, `end_op` and `commit` of `kernel/log.c`, run by any number of
processes.

What is done under `log.lock` is one step, and so is every turn of a loop of `commit`, which runs
without the lock. A process in `begin_op` that has to wait tests again at any time, so it does not
matter here who wakes it up. A panic stops the machine.

The contents of blocks are not here (they are in `Xv6.Log.Model` and `Xv6.Bio`), only their numbers.
The last five fields of the state are not in the source: how many commits have started and finished,
which blocks `write_log` wrote in each of them, and for each operation how many commits had started
when it began and when it ended, and which blocks it logged.
-/

namespace Xv6
namespace Log
namespace Group

open Function

abbrev Pid := Nat

/-- Where a process is. The stages of `commit` are those of its two loops and four other statements. -/
inductive Pc
  | user
  | beginOp
  | op
  | commit
  | writeLog (tail : Nat)
  | writeHead
  | installTrans (tail : Nat)
  | clearN
  | clearHead
  | finish
  deriving DecidableEq, Repr

def Pc.inCommit : Pc → Bool
  | .user | .beginOp | .op | .finish => false
  | _ => true

/-- An operation: the number of commits started at its begin and at its end, and what it logged. -/
structure Record where
  start : Nat
  stop : Nat
  blocks : List Nat

structure State where
  lh : LogHeader
  outstanding : Int
  committing : Bool
  panicked : Option String
  pc : Pid → Pc
  started : Nat
  finished : Nat
  wrote : Nat → List Nat
  cur : Pid → Record
  ended : List Record

namespace State

def setPc (s : State) (p : Pid) (c : Pc) : State := { s with pc := update s.pc p c }

def panic (s : State) (msg : String) : State := { s with panicked := some msg }

end State

open State

section Steps

variable (size : Nat) (s : State) (p : Pid)

/-- One test of the loop of `begin_op`. -/
def beginOp : State :=
  if s.committing then s
  else if LOGSIZE < s.lh.n + (s.outstanding + 1) * MAXOPBLOCKS then s
  else { s.setPc p .op with
    outstanding := s.outstanding + 1
    cur := update s.cur p { start := s.started, stop := s.started, blocks := [] } }

def logWrite (b : Nat) : State :=
  if LOGSIZE ≤ s.lh.n ∨ (size : Int) - 1 ≤ s.lh.n then s.panic "too big a transaction"
  else if s.outstanding < 1 then s.panic "log_write outside of trans"
  else { s with
    lh := s.lh.add b
    cur := update s.cur p { s.cur p with blocks := b :: (s.cur p).blocks } }

/-- `end_op`, up to the call of `commit`. -/
def endOp : State :=
  let s := { s with
    outstanding := s.outstanding - 1
    ended := { s.cur p with stop := s.started } :: s.ended }
  if s.committing then s.panic "log.committing"
  else if s.outstanding = 0 then { s.setPc p .commit with committing := true, started := s.started + 1 }
  else s.setPc p .user

/-- The next step of a process in `commit`; its commit has number `s.finished`. -/
def resume : Pc → Option State
  | .beginOp => some (beginOp s p)
  | .commit => some (s.setPc p (if 0 < s.lh.n then .writeLog 0 else .finish))
  | .writeLog tail =>
    if (tail : Int) < s.lh.n then
      some { s.setPc p (.writeLog (tail + 1)) with
        wrote := update s.wrote s.finished (s.lh.block tail :: s.wrote s.finished) }
    else some (s.setPc p .writeHead)
  | .writeHead => some (s.setPc p (.installTrans 0))
  | .installTrans tail =>
    some (s.setPc p (if (tail : Int) < s.lh.n then .installTrans (tail + 1) else .clearN))
  | .clearN => some { s.setPc p .clearHead with lh := { s.lh with n := 0 } }
  | .clearHead => some (s.setPc p .finish)
  | .finish => some { s.setPc p .user with committing := false, finished := s.finished + 1 }
  | _ => none

end Steps

inductive Op
  | beginOp
  | logWrite (b : Nat)
  | endOp
  | tau
  deriving DecidableEq, Repr

/-- A process calls `log_write` only between its `begin_op` and its `end_op`. -/
def step (size : Nat) (s : State) (ev : Pid × Op) : Option State :=
  if s.panicked.isSome then none
  else
    match s.pc ev.1, ev.2 with
    | .user, .beginOp => some (s.setPc ev.1 .beginOp)
    | .op, .logWrite b => some (logWrite size s ev.1 b)
    | .op, .endOp => some (endOp s ev.1)
    | c, .tau => resume s ev.1 c
    | _, _ => none

/-- After `initlog`; recovery leaves `n = 0` and the old block numbers. -/
def initlog (block : Nat → Nat) : State :=
  { lh := { n := 0, block := block }
    outstanding := 0
    committing := false
    panicked := none
    pc := fun _ => .user
    started := 0
    finished := 0
    wrote := fun _ => []
    cur := fun _ => { start := 0, stop := 0, blocks := [] }
    ended := [] }

end Group
end Log
end Xv6
