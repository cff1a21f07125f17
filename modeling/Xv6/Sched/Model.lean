import Xv6.Lib.Trans
import Xv6.Param
import Mathlib.Logic.Function.Basic

/-!
# Xv6.Sched.Model

Processes, CPUs and locks: the part of `kernel/proc.c` in which processes are created, run, sleep, wake
each other up and exit, on any number of CPUs.

A spinlock is held by a CPU. What is done under one `p->lock`, or under `wait_lock`, without taking or
giving back another lock is one step; where a lock is held across steps the position in the code says
so. A CPU is in the code of a scheduler (`Loop`) or runs a process (`Mode`); where a process is in the
functions of this file is its `Thread`. In `Thread.client` it is in other code, user code or the rest of
the kernel, and may call anything here; it may take other spinlocks (`L`) and sleep on other channels
(`C`). Interrupts come at places where no lock of this file is held; what `sched` checks before it
switches is not checked here.

Memory, files and names are not part of this model. The last four fields of the state are not in the
source: they count the calls of `sleep` and of `wakeup`, and record the exits and what `wait` returned.
-/

namespace Xv6
namespace Sched

open Function

abbrev Slot := Fin NPROC

abbrev Cpu := Nat

abbrev MAX_PRIO : Nat := 1

abbrev PROM_TIME : Int := 5

/-- What a process sleeps on: the address of a process, or of something else. -/
inductive Chan (C : Type)
  | proc (p : Slot)
  | other (c : C)
  deriving DecidableEq, Repr

/-- The spinlocks apart from `p->lock`. -/
inductive Lk (L : Type)
  | wait
  | other (l : L)
  deriving DecidableEq, Repr

structure Proc (C : Type) where
  state : ProcState
  chan : Option (Chan C)
  killed : Bool
  xstate : Int
  pid : Nat
  priority : Nat
  promotionTimer : Int
  parent : Option Slot

inductive Impl
  | rr | mlfq
  deriving DecidableEq, Repr

/-- Where a CPU is in the code of a scheduler. At `rr i`, `high i` and `low i` it is about to acquire the
lock of `proc[i]`; at `rrBack i`, `highBack i` and `lowBack i`, `swtch` has returned from process `i`. -/
inductive Loop
  | start
  | rr (i : Nat)
  | rrBack (i : Slot)
  | high (i : Nat) (avail : Bool)
  | highBack (i : Slot)
  | low (i : Nat)
  | lowBack (i : Slot)
  deriving DecidableEq, Repr

def Loop.back : Loop → Option Slot
  | .rrBack i | .highBack i | .lowBack i => some i
  | _ => none

/-- What a CPU does; a process that gives up the CPU comes back to `k`. -/
inductive Mode
  | sched (k : Loop)
  | run (p : Slot) (k : Loop)
  deriving DecidableEq, Repr

/-- Where a process is in the code of this file; `k` is where the function returns to. -/
inductive Thread (C L : Type)
  | client
  | forkret
  /-- In `yield`, behind `sched`. -/
  | yielded (k : Thread C L)
  /-- In `sleep`, about to acquire `p->lock`, to release `lk`, and to set `chan` and `state` and switch. -/
  | sleep0 (ch : Chan C) (lk : Lk L) (k : Thread C L)
  | sleep1 (ch : Chan C) (lk : Lk L) (k : Thread C L)
  | sleep2 (ch : Chan C) (lk : Lk L) (k : Thread C L)
  /-- In `sleep`, behind `sched`. -/
  | slept (ch : Chan C) (lk : Lk L) (k : Thread C L)
  | relock (lk : Lk L) (k : Thread C L)
  /-- In `wakeup`, about to look at `proc[i]`. -/
  | wakeup (ch : Option (Chan C)) (i : Nat) (k : Thread C L)
  | kill (pid : Int) (i : Nat)
  /-- In `allocproc`, about to look at `proc[i]`; then with the lock of the new process held. -/
  | forkScan (i : Nat)
  | forkAlloc (np : Slot)
  | forkBuild (np : Slot)
  | forkParent (np : Slot)
  | forkReady (np : Slot)
  | exitLock (status : Int)
  | exitReparent (status : Int) (i : Nat)
  | exitZombie (status : Int)
  | exitRelease
  | exitSched
  | dead
  | waitLock (addr : Nat)
  | waitScan (addr : Nat) (i : Nat) (havekids : Bool)
  | waitKilled (addr : Nat)
  deriving DecidableEq, Repr

/-- A call of `wait` that has found a zombie: who called, what it found, the status that it stored, and
whether it returned the process id. -/
structure Wait where
  waiter : Slot
  child : Slot
  pid : Nat
  stored : Option Int
  reaped : Bool
  deriving DecidableEq, Repr

structure State (C L : Type) where
  proc : Slot → Proc C
  lock : Slot → Option Cpu
  spin : Lk L → Option Cpu
  /-- The field `proc` of `struct cpu`. -/
  cur : Cpu → Option Slot
  mode : Cpu → Mode
  thread : Slot → Thread C L
  schedPointer : Impl
  nextpid : Nat
  initproc : Slot
  sleeps : Slot → Nat
  wakeups : Slot → Nat
  exits : List (Nat × Int)
  waits : List Wait

namespace State

variable {C L : Type}

def setProc (s : State C L) (i : Slot) (q : Proc C) : State C L :=
  { s with proc := update s.proc i q }

def setLock (s : State C L) (i : Slot) (o : Option Cpu) : State C L :=
  { s with lock := update s.lock i o }

def setSpin [DecidableEq L] (s : State C L) (lk : Lk L) (o : Option Cpu) : State C L :=
  { s with spin := update s.spin lk o }

def setThread (s : State C L) (p : Slot) (t : Thread C L) : State C L :=
  { s with thread := update s.thread p t }

def setMode (s : State C L) (c : Cpu) (m : Mode) : State C L :=
  { s with mode := update s.mode c m }

def setCur (s : State C L) (c : Cpu) (o : Option Slot) : State C L :=
  { s with cur := update s.cur c o }

def setState (s : State C L) (i : Slot) (x : ProcState) : State C L :=
  s.setProc i { s.proc i with state := x }

end State

open State

section Scheduler

variable {C L : Type} (s : State C L) (c : Cpu)

/-- The scheduler switches to process `i`, whose lock it has acquired. -/
def dispatch (i : Slot) (k : Loop) : State C L :=
  (((s.setLock i (some c)).setState i .running).setCur c (some i)).setMode c (.run i k)

/-- `c->proc = 0; release(&p->lock);` -/
def switchedBack (i : Slot) (k : Loop) : State C L :=
  ((s.setCur c none).setLock i none).setMode c (.sched k)

/-- `release(&p->lock); return;` when the scheduler has been changed. -/
def earlyReturn (i : Slot) : State C L := (s.setLock i none).setMode c (.sched .start)

/-- One step of a scheduler. -/
def schedStep : Loop → Option (State C L)
  | .start =>
    some ((s.setCur c none).setMode c (.sched (if s.schedPointer = .rr then .rr 0 else .high 0 false)))
  | .rr i =>
    if h : i < NPROC then
      if s.lock ⟨i, h⟩ ≠ none then none
      else if (s.proc ⟨i, h⟩).state = .runnable then some (dispatch s c ⟨i, h⟩ (.rrBack ⟨i, h⟩))
      else some (s.setMode c (.sched (.rr (i + 1))))
    else some (s.setMode c (.sched .start))
  | .rrBack i => some (switchedBack s c i (.rr (i + 1)))
  | .high i avail =>
    if h : i < NPROC then
      if s.lock ⟨i, h⟩ ≠ none then none
      else if 0 < (s.proc ⟨i, h⟩).priority then some (s.setMode c (.sched (.high (i + 1) avail)))
      else if (s.proc ⟨i, h⟩).state = .runnable then some (dispatch s c ⟨i, h⟩ (.highBack ⟨i, h⟩))
      else some (s.setMode c (.sched (.high (i + 1) avail)))
    else some (s.setMode c (.sched (if avail then .high 0 false else .low 0)))
  | .highBack i =>
    if s.schedPointer ≠ .mlfq then some (earlyReturn s c i) else some (switchedBack s c i (.high (i + 1) true))
  | .low i =>
    if h : i < NPROC then
      if s.lock ⟨i, h⟩ ≠ none then none
      else if (s.proc ⟨i, h⟩).priority = 0 ∧ (s.proc ⟨i, h⟩).state = .runnable then
        some (s.setMode c (.sched .start))
      else if (s.proc ⟨i, h⟩).state = .runnable then some (dispatch s c ⟨i, h⟩ (.lowBack ⟨i, h⟩))
      else some (s.setMode c (.sched (.low (i + 1))))
    else some (s.setMode c (.sched .start))
  | .lowBack i =>
    if s.schedPointer ≠ .mlfq then some (earlyReturn s c i) else some (switchedBack s c i (.low (i + 1)))

/-- The condition under which `kerneltrap` calls `yield` after a timer interrupt. -/
def kerneltrapYields : Bool :=
  match s.cur c with
  | some p => (s.proc p).state = .running
  | none => false

/-- A timer interrupt in scheduler code, when the scheduler holds no lock. If `kerneltrap` yields there,
it saves the context of the scheduler as that of a process; what follows is not modelled. -/
def schedTimer (k : Loop) : Option (State C L) :=
  if k.back = none ∧ kerneltrapYields s c = false then some s else none

/-- What `sched` does to the priority of a process. -/
def promote (q : Proc C) : Proc C :=
  if 0 < q.priority then
    { q with
      promotionTimer := q.promotionTimer - 1
      priority := if q.promotionTimer - 1 = 0 then 0 else q.priority }
  else q

/-- `sched`, called by a process that holds its `p->lock`, up to the switch to the scheduler. -/
def sched (k : Loop) : State C L := { s with proc := fun i => promote (s.proc i) }.setMode c (.sched k)

end Scheduler

section Thread

variable {C L : Type} [DecidableEq C] [DecidableEq L] (s : State C L) (c : Cpu) (p : Slot)

/-- `yield`, with interrupts on and so without locks: of a process in user code (`user`), which has used
its time, or of one in the kernel. -/
def yield (k : Loop) (user : Bool) : Option (State C L) :=
  if s.lock p ≠ none then none
  else
    let q := { s.proc p with state := .runnable }
    let q := if user then
        { q with
          priority := if MAX_PRIO < q.priority + 1 then q.priority else q.priority + 1
          promotionTimer := PROM_TIME }
      else q
    some (sched (((s.setProc p q).setLock p (some c)).setThread p (.yielded (s.thread p))) c k)

/-- A turn of `wakeup`, on channel `ch`. -/
def wakeupTurn (ch : Option (Chan C)) (i : Slot) : State C L :=
  if (s.proc i).state = .sleeping ∧ (s.proc i).chan = ch then s.setState i .runnable else s

/-- A call of `wakeup` begins. -/
def wakeup (ch : Option (Chan C)) (t : Thread C L) : State C L :=
  { s.setThread p (.wakeup ch 0 t) with wakeups := update s.wakeups p (s.wakeups p + 1) }

/-- A call of `sleep` begins. -/
def sleep (ch : Chan C) (lk : Lk L) (t : Thread C L) : State C L :=
  { s.setThread p (.sleep0 ch lk t) with sleeps := update s.sleeps p (s.sleeps p + 1) }

def freeproc (q : Proc C) : Proc C :=
  { q with state := .unused, chan := none, killed := false, xstate := 0, pid := 0, parent := none }

/-- The part of `allocproc` behind `found` that concerns the table. -/
def allocproc (np : Slot) : State C L :=
  { s.setProc np { s.proc np with pid := s.nextpid, state := .used, priority := 0, promotionTimer := 0 } with
    nextpid := s.nextpid + 1 }

/-- `wait` has found the zombie `pp`, whose lock is free; `ok` says whether `copyout` succeeds. -/
def reap (pp : Slot) (addr : Nat) (ok : Bool) : State C L :=
  let q := s.proc pp
  let s := (s.setSpin .wait none).setThread p .client
  let w : Wait := ⟨p, pp, q.pid, if addr ≠ 0 ∧ ok then some q.xstate else none, decide (addr = 0) || ok⟩
  { (if addr ≠ 0 ∧ ok = false then s else s.setProc pp (freeproc q)) with waits := w :: s.waits }

/-- One step of process `p` inside the functions of this file, on CPU `c`, which goes back to `k`. What
it depends on besides the state is `ok`: that allocations, or `copyout`, succeed. -/
def threadStep (k : Loop) (ok : Bool) : Thread C L → Option (State C L)
  | .client => none
  | .forkret => some ((s.setLock p none).setThread p .client)
  | .yielded t => some ((s.setLock p none).setThread p t)
  | .sleep0 ch lk t =>
    if s.lock p ≠ none then none else some ((s.setLock p (some c)).setThread p (.sleep1 ch lk t))
  | .sleep1 ch lk t => if s.spin lk ≠ some c then none else some ((s.setSpin lk none).setThread p (.sleep2 ch lk t))
  | .sleep2 ch lk t =>
    some (sched ((s.setProc p { s.proc p with chan := some ch, state := .sleeping }).setThread p (.slept ch lk t))
      c k)
  | .slept _ lk t =>
    some (((s.setProc p { s.proc p with chan := none }).setLock p none).setThread p (.relock lk t))
  | .relock lk t => if s.spin lk ≠ none then none else some ((s.setSpin lk (some c)).setThread p t)
  | .wakeup ch i t =>
    if h : i < NPROC then
      if (⟨i, h⟩ : Slot) = p then some (s.setThread p (.wakeup ch (i + 1) t))
      else if s.lock ⟨i, h⟩ ≠ none then none
      else some ((wakeupTurn s ch ⟨i, h⟩).setThread p (.wakeup ch (i + 1) t))
    else some (s.setThread p t)
  | .kill pid i =>
    if h : i < NPROC then
      if s.lock ⟨i, h⟩ ≠ none then none
      else
        let q := s.proc ⟨i, h⟩
        if (q.pid : Int) = pid then
          some ((s.setProc ⟨i, h⟩ { q with
            killed := true, state := if q.state = .sleeping then .runnable else q.state }).setThread p .client)
        else some (s.setThread p (.kill pid (i + 1)))
    else some (s.setThread p .client)
  | .forkScan i =>
    if h : i < NPROC then
      if s.lock ⟨i, h⟩ ≠ none then none
      else if (s.proc ⟨i, h⟩).state = .unused then
        some ((s.setLock ⟨i, h⟩ (some c)).setThread p (.forkAlloc ⟨i, h⟩))
      else some (s.setThread p (.forkScan (i + 1)))
    else some (s.setThread p .client)
  | .forkAlloc np => some ((allocproc s np).setThread p (.forkBuild np))
  | .forkBuild np =>
    if ok then some (((s.setThread np .forkret).setLock np none).setThread p (.forkParent np))
    else some (((s.setProc np (freeproc (s.proc np))).setLock np none).setThread p .client)
  | .forkParent np =>
    if s.spin .wait ≠ none then none
    else some ((s.setProc np { s.proc np with parent := some p }).setThread p (.forkReady np))
  | .forkReady np =>
    if s.lock np ≠ none then none else some ((s.setState np .runnable).setThread p .client)
  | .exitLock status =>
    if s.spin .wait ≠ none then none
    else some ((s.setSpin .wait (some c)).setThread p (.exitReparent status 0))
  | .exitReparent status i =>
    if h : i < NPROC then
      if (s.proc ⟨i, h⟩).parent = some p then
        some (wakeup (s.setProc ⟨i, h⟩ { s.proc ⟨i, h⟩ with parent := some s.initproc }) p
          (some (.proc s.initproc)) (.exitReparent status (i + 1)))
      else some (s.setThread p (.exitReparent status (i + 1)))
    else some (wakeup s p ((s.proc p).parent.map .proc) (.exitZombie status))
  | .exitZombie status =>
    if s.lock p ≠ none then none
    else some { ((s.setProc p { s.proc p with xstate := status, state := .zombie }).setLock p (some c)).setThread p
        .exitRelease with exits := ((s.proc p).pid, status) :: s.exits }
  | .exitRelease => some ((s.setSpin .wait none).setThread p .exitSched)
  | .exitSched => some (sched (s.setThread p .dead) c k)
  | .dead => none
  | .waitLock addr =>
    if s.spin .wait ≠ none then none
    else some ((s.setSpin .wait (some c)).setThread p (.waitScan addr 0 false))
  | .waitScan addr i havekids =>
    if h : i < NPROC then
      if (s.proc ⟨i, h⟩).parent = some p then
        if s.lock ⟨i, h⟩ ≠ none then none
        else if (s.proc ⟨i, h⟩).state = .zombie then some (reap s p ⟨i, h⟩ addr ok)
        else some (s.setThread p (.waitScan addr (i + 1) true))
      else some (s.setThread p (.waitScan addr (i + 1) havekids))
    else if havekids then some (s.setThread p (.waitKilled addr))
    else some ((s.setSpin .wait none).setThread p .client)
  | .waitKilled addr =>
    if s.lock p ≠ none then none
    else if (s.proc p).killed then some ((s.setSpin .wait none).setThread p .client)
    else some (sleep s p (.proc p) .wait (.waitScan addr 0 false))

end Thread

/-- Calls from other code. -/
inductive Call (C L : Type)
  | acquire (l : L)
  | release (l : L)
  | sleep (ch : C) (l : L)
  | wakeup (ch : C)
  | kill (pid : Int)
  | fork
  | exit (status : Int)
  | wait (addr : Nat)
  | schedset (id : Int)
  deriving DecidableEq, Repr

/-- What a CPU does next: a step in the functions of this file, a timer interrupt, or a call. -/
inductive Op (C L : Type)
  | tau (ok : Bool)
  | timer (user : Bool)
  | call (x : Call C L)
  deriving DecidableEq, Repr

section Step

variable {C L : Type} [DecidableEq C] [DecidableEq L] (s : State C L)

/-- A process may be interrupted here: it holds no lock of this file. -/
def Thread.preemptible : Thread C L → Bool
  | .client | .relock .. | .kill .. | .forkScan _ | .forkParent _ | .forkReady _ | .exitLock _ | .waitLock _ => true
  | .wakeup _ _ .client => true
  | _ => false

def call (c : Cpu) (p : Slot) : Call C L → Option (State C L)
  | .acquire l => if s.spin (.other l) ≠ none then none else some (s.setSpin (.other l) (some c))
  | .release l => if s.spin (.other l) ≠ some c then none else some (s.setSpin (.other l) none)
  | .sleep ch l =>
    if s.spin (.other l) ≠ some c then none else some (sleep s p (.other ch) (.other l) .client)
  | .wakeup ch => some (wakeup s p (some (.other ch)) .client)
  | .kill pid => some (s.setThread p (.kill pid 0))
  | .fork => some (s.setThread p (.forkScan 0))
  | .exit status => if p = s.initproc then none else some (s.setThread p (.exitLock status))
  | .wait addr => some (s.setThread p (.waitLock addr))
  | .schedset id =>
    if id = 1 then some { s with schedPointer := .rr }
    else if id = 2 then some { s with schedPointer := .mlfq }
    else none

def step (ev : Cpu × Op C L) : Option (State C L) :=
  match s.mode ev.1, ev.2 with
  | .sched k, .tau _ => schedStep s ev.1 k
  | .sched k, .timer _ => schedTimer s ev.1 k
  | .sched _, .call _ => none
  | .run p k, .tau ok => threadStep s ev.1 p k ok (s.thread p)
  | .run p k, .timer user =>
    if (s.thread p).preemptible ∧ (user = true → s.thread p = .client) then yield s ev.1 p k user else none
  | .run p _, .call x => if s.thread p = .client then call s ev.1 p x else none

end Step

/-- After `userinit`: the first process is ready to run. -/
def boot (C L : Type) : State C L :=
  { proc := fun i =>
      { state := if i = 0 then .runnable else .unused, chan := none, killed := false, xstate := 0
        pid := if i = 0 then 1 else 0, priority := 0, promotionTimer := 0, parent := none }
    lock := fun _ => none
    spin := fun _ => none
    cur := fun _ => none
    mode := fun _ => .sched .start
    thread := fun _ => .forkret
    schedPointer := .rr
    nextpid := 2
    initproc := 0
    sleeps := fun _ => 0
    wakeups := fun _ => 0
    exits := []
    waits := [] }

end Sched
end Xv6
