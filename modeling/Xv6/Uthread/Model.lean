import Xv6.Lib.Trans
import Mathlib.Logic.Function.Basic

/-!
# Xv6.Uthread.Model

The user thread library of `user/uthread.c`, started by `_main` of `user/ulib.c`.

Threads are cooperative: control leaves a thread only inside `tsched`. The state therefore has one
flow of control, `ctl`, and every thread that is not running has the place where its saved
registers resume in `tcontext`. A resumed thread continues *inside* the loop of the `tsched` call
that switched away from it, and only the end of that loop returns to the caller of `tyield`: the
thread's own code, the waiting loop of `tjoin`, or the end of `thread_entry`.

The code that a thread runs is arbitrary: it is any sequence of the operations `Op`. Two things are
parameters of an operation: the thread id that `new_thread_id` hands out, and the addresses that
`malloc` returns. An empty slot of `threads[]` counts as UNUSED and matches no thread id.
-/

namespace Xv6
namespace Uthread

abbrev MAX_THREADS : Nat := 64

inductive ProcState where
  | unused | used | sleeping | runnable | running | zombie | exited
  deriving DecidableEq, Repr, Inhabited

def ProcState.toNat : ProcState → Nat
  | .unused => 0
  | .used => 1
  | .sleeping => 2
  | .runnable => 3
  | .running => 4
  | .zombie => 5
  | .exited => 6

/-- A `struct thread *`: the number of the `malloc` that returned it. -/
abbrev Ptr := Nat

/-- What runs when `tyield` returns. -/
inductive Ret where
  | user
  /-- The waiting loop of `tjoin`, for thread `t`. -/
  | join (t : Ptr) (status size : Nat)
  /-- The end of `thread_entry`. -/
  | exit
  deriving DecidableEq, Repr

/-- A place in the code. -/
inductive Ctl where
  | user
  /-- The start of `thread_entry`. -/
  | entry
  /-- The loop of `tsched`, about to test its condition for `i`; `k` is `current_thread_index`. -/
  | sched (k : Int) (i : Nat) (r : Ret)
  /-- The loop of `tjoin`, about to test the state of `t`. -/
  | wait (t : Ptr) (status size : Nat)
  /-- The process has called `exit`. -/
  | halted
  deriving DecidableEq, Repr, Inhabited

/-- `struct thread`. `sp` is the stack pointer that `tcreate` stores in `tcontext`; `returned` is
not in the source and records that the function of the thread has returned. -/
structure Thread where
  tid : Nat
  tcontext : Ctl
  sp : Nat
  state : ProcState
  arg : Nat
  func : Nat
  returnValue : Nat
  returned : Bool
  deriving DecidableEq, Repr, Inhabited

/-- The globals of the library, the memory of the process and its control. `joined` is not in the
source and collects the threads that a `tjoin` call has returned for. -/
structure St where
  heap : List Thread
  threads : Nat → Option Ptr
  current : Ptr
  mem : Nat → UInt8
  ctl : Ctl
  joined : List Ptr

namespace St

def thread (s : St) (p : Ptr) : Thread := s.heap.getD p default

def setThread (s : St) (p : Ptr) (t : Thread) : St := { s with heap := s.heap.set p t }

def setState (s : St) (p : Ptr) (x : ProcState) : St :=
  s.setThread p { s.thread p with state := x }

def tidAt (s : St) (i : Nat) (tid : Int) : Bool :=
  match s.threads i with
  | some q => ((s.thread q).tid : Int) == tid
  | none => false

end St

def findTid (s : St) (tid : Int) : Option Nat :=
  (List.range MAX_THREADS).find? fun i => s.tidAt i tid

def findThreadIndex (s : St) (p : Ptr) : Int :=
  match findTid s (s.thread p).tid with
  | some i => i
  | none => -1

/-- `tyield`, called from `r`: enter the loop of `tsched`. -/
def tyield (s : St) (r : Ret) : St :=
  let k := findThreadIndex s s.current
  { s with ctl := .sched k (k + 1).toNat r }

/-- `tyield` returns to its caller. `thread_entry` has nowhere to return to: `ra` still holds the
address of `thread_entry` itself, so it starts again. -/
def ret (s : St) : Ret → St
  | .user => { s with ctl := .user }
  | .join t status size => { s with ctl := .wait t status size }
  | .exit => { s with ctl := .entry }

/-- The body of the `if` in `tsched`: make `t` current and switch from the thread in slot `k`.
There is no slot -1. -/
def dispatch (s : St) (k : Int) (i : Nat) (r : Ret) (t : Ptr) : Option St :=
  if k < 0 then none
  else
    match s.threads k.toNat with
    | none => none
    | some old =>
      let s1 := { s.setState t .running with current := t }
      let s2 := s1.setThread old { s1.thread old with tcontext := .sched k (i + 1) r }
      some { s2 with ctl := (s2.thread t).tcontext }

/-- One turn of the loop of `tsched`. -/
def tschedTurn (s : St) (k : Int) (i : Nat) (r : Ret) : Option St :=
  if ((i % MAX_THREADS : Nat) : Int) = k then some (ret s r)
  else
    match s.threads (i % MAX_THREADS) with
    | some t =>
      if (s.thread t).state = .runnable then dispatch s k i r t
      else some { s with ctl := .sched k (i + 1) r }
    | none => some { s with ctl := .sched k (i + 1) r }

/-- The test of `add_thread_to_table`. -/
def available (s : St) (i : Nat) : Bool :=
  match s.threads i with
  | some p =>
    (s.thread p).state = .unused || decide (ProcState.exited.toNat < (s.thread p).state.toNat)
  | none => true

def addThreadToTable (s : St) (p : Ptr) : St :=
  match (List.range MAX_THREADS).find? fun i => available s i with
  | some i => { s with threads := Function.update s.threads i (some p) }.setState p .runnable
  | none => s

/-- The arguments of a `tcreate` call, the id `new_thread_id` gives, the addresses of the stack and
of the result that `malloc` returns, and the contents of the fresh `state` field. -/
structure CreateArgs where
  tid : Nat
  attr : Option (Nat × Nat)
  func : Nat
  arg : Nat
  stack : Nat
  result : Nat
  junk : ProcState

def CreateArgs.stacksize (a : CreateArgs) : Nat :=
  match a.attr with
  | some (stacksize, _) => stacksize
  | none => 4096

def CreateArgs.thread (a : CreateArgs) : Thread :=
  { tid := a.tid, tcontext := .entry, sp := a.stack + a.stacksize, state := a.junk,
    arg := a.arg, func := a.func, returnValue := a.result, returned := false }

def tcreate (s : St) (a : CreateArgs) : St :=
  addThreadToTable { s with heap := s.heap ++ [a.thread] } s.heap.length

/-- The search of `tjoin`; without a match the process exits. -/
def tjoin (s : St) (tid : Int) (status size : Nat) : St :=
  match findTid s tid with
  | some i =>
    match s.threads i with
    | some t => { s with ctl := .wait t status size }
    | none => { s with ctl := .halted }
  | none => { s with ctl := .halted }

def memcpy (mem : Nat → UInt8) (dst src n : Nat) : Nat → UInt8 :=
  fun a => if dst ≤ a ∧ a < dst + n then mem (src + (a - dst)) else mem a

/-- One turn of the loop of `tjoin`, and what follows the loop. -/
def tjoinTurn (s : St) (t : Ptr) (status size : Nat) : St :=
  if (s.thread t).state = .exited then
    let mem := if status ≠ 0 ∧ size ≠ 0 then memcpy s.mem status (s.thread t).returnValue size
      else s.mem
    { s.setState s.current .unused with mem := mem, joined := t :: s.joined, ctl := .user }
  else tyield s (.join t status size)

/-- The function of the current thread returns `v`, into `thread_entry`. The main thread returns
into `_main`, which calls `exit`. -/
def threadReturn (s : St) (v : Nat) : St :=
  if s.current = 0 then { s with ctl := .halted }
  else
    let t := s.thread s.current
    let rv := if t.returnValue ≠ 0 then v else t.returnValue
    tyield (s.setThread s.current { t with returnValue := rv, state := .exited, returned := true })
      .exit

inductive Op where
  | tcreate (a : CreateArgs)
  | tyield
  | tjoin (tid : Int) (status size : Nat)
  | ret (v : Nat)

/-- A step: an operation of the current thread, or (`tau`) a turn of a loop inside the library. -/
inductive Event where
  | op (o : Op)
  | tau

def step (s : St) : Event → Option St
  | .op o =>
    if s.ctl = .user then
      match o with
      | .tcreate a => some (tcreate s a)
      | .tyield => some (tyield s .user)
      | .tjoin tid status size => some (tjoin s tid status size)
      | .ret v => some (threadReturn s v)
    else none
  | .tau =>
    match s.ctl with
    | .user => none
    | .entry => some { s with ctl := .user }
    | .sched k i r => tschedTurn s k i r
    | .wait t status size => some (tjoinTurn s t status size)
    | .halted => none

def mainThread : Thread :=
  { tid := 0, tcontext := .entry, sp := 0, state := .runnable, arg := 0, func := 0,
    returnValue := 0, returned := false }

/-- The table that `_main` sets up, with the main thread running. -/
def init (mem : Nat → UInt8) : St :=
  { heap := [mainThread], threads := Function.update (fun _ => none) 0 (some 0), current := 0,
    mem := mem, ctl := .user, joined := [] }

end Uthread
end Xv6
