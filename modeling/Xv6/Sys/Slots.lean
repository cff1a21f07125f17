import Xv6.Sys.Trap

/-!
# Xv6.Sys.Slots

What else happens to the entries of the process table: `open` and `chdir`, which change the files and the
current directory of a process; `sleep` and `wakeup`, in the middle of a call; and what the console does
when control-C is typed (`kernel/sysfile.c`, `kernel/proc.c`, `kernel/console.c`).

A process that sleeps in the middle of a call starts the call again when it runs: what a call does
before it sleeps is not part of this model. What a path leads to comes with the call.
-/

namespace Xv6
namespace Sys

open Bytes Wp Vm

section

variable (L : Layout)

/-- `sys_open`. There is no `device` if the path leads to nothing that can be opened. -/
def sysOpen (p : ProcId) (device : Option Bool) (omode : Nat) : Kern Int := do
  match device with
  | none => pure (-1)
  | some device => do
    match ← filealloc with
    | none => pure (-1)
    | some f => do
      match ← fdalloc p f with
      | none => do
        fileclose L f
        pure (-1)
      | some fd => do
        setFile f fun x => { x with
          type := if device then .device else .inode
          readable := decide (omode &&& 1 = 0)
          writable := decide (omode &&& 1 ≠ 0) || decide (omode &&& 2 ≠ 0) }
        pure fd

/-- `sys_chdir`. There is no `dir` if the path does not lead to a directory. -/
def sysChdir (p : ProcId) (dir : Option Nat) : Kern Int := do
  match dir with
  | none => pure (-1)
  | some ip => do
    setProc p fun q => { q with cwd := some ip }
    pure 0

def setkilled (p : ProcId) : Kern Unit := setProc p fun q => { q with killed := 1 }

/-- The process that control-C is for: in use, with the highest process id. -/
def highest (s : State) : ProcId :=
  (List.finRange NPROC).foldl
    (fun cur p => if (s.proc p).state ≠ .unused ∧ (s.proc cur).pid < (s.proc p).pid then p else cur) 0

/-- `consoleintr`, on control-C. The parent of that process is not checked, and a null pointer makes the
kernel trap. -/
def consoleintr : Kern Unit := do
  let s ← get
  match (s.proc (highest s)).parent with
  | none => panic "kerneltrap"
  | some pp => doIf ((s.proc pp).pid ≠ 1) (setkilled (highest s))

def sleep (p : ProcId) (ch : Nat) : Kern Unit := setProc p fun q => { q with chan := ch, state := .sleeping }

def awake (p : ProcId) : Kern Unit := setProc p fun q => { q with chan := 0 }

def wakeup (ch : Nat) : Kern Unit :=
  modify fun s => { s with
    proc := fun p =>
      if (s.proc p).state = .sleeping ∧ (s.proc p).chan = ch then { s.proc p with state := .runnable } else s.proc p }

def callTrap (p : ProcId) (x : Kern Int) : Kern Unit := do
  let s ← get
  if (s.proc p).killed ≠ 0 then exit L p (-1)
  else do
    let r ← x
    setTrapframe p 112 (r % 2 ^ 64).toNat
    let s ← get
    doIf ((s.proc p).killed ≠ 0) (exit L p (-1))

/-- Process `p` is scheduled, makes the system call `x`, and yields. -/
def callTurn (p : ProcId) (x : Kern Int) : Kern Unit := do
  setProc p fun q => { q with state := .running }
  callTrap L p x
  setProc p fun q => { q with state := if q.state = .running then .runnable else q.state }

inductive Action
  | turn (ev : Event)
  | sysOpen (p : ProcId) (device : Option Bool) (omode : Nat)
  | sysChdir (p : ProcId) (dir : Option Nat)
  | sleep (p : ProcId) (ch : Nat)
  | awake (p : ProcId)
  | wakeup (ch : Nat)
  | consoleintr

def after (x : Kern Unit) (s : State) : Option State :=
  match x s with
  | .ok (_, s') => some s'
  | .error _ => none

/-- Process `p` can be scheduled, and is not in the middle of a call. -/
def ready (s : State) (p : ProcId) : Prop := (s.proc p).state = .runnable ∧ (s.proc p).chan = 0

instance (s : State) (p : ProcId) : Decidable (ready s p) := inferInstanceAs (Decidable (_ ∧ _))

def act (s : State) : Action → Option State
  | .turn ev => if (s.proc ev.1).chan = 0 then step L s ev else none
  | .sysOpen p device omode => if ready s p then after (callTurn L p (sysOpen L p device omode)) s else none
  | .sysChdir p dir => if ready s p then after (callTurn L p (sysChdir p dir)) s else none
  | .sleep p ch => if ready s p ∧ ch ≠ 0 then after (sleep p ch) s else none
  | .awake p => if (s.proc p).state = .runnable then after (awake p) s else none
  | .wakeup ch => after (wakeup ch) s
  | .consoleintr => after consoleintr s

end

end Sys
end Xv6
