import Xv6.Sched.Model

/-!
# Xv6.Pipe.Model

One pipe, `kernel/pipe.c`, over the processes, CPUs and locks of `Xv6.Sched`. `pi->lock` is one of the
spinlocks there, `&pi->nread` and `&pi->nwrite` are channels, and the calls of `acquire`, `release`,
`sleep` and `wakeup` in the code of the pipe are calls there. Any number of processes is in this code;
those that are not may do anything else.

Where a process is in the code of the pipe is its `Pc`. What `copyin` reads comes with the call, a byte
or a fault for each place of the buffer; whether `copyout` succeeds comes with the step. The counters
have 32 bits. After `kfree` no call begins any more.

The last two fields of the state, and `stored` in the positions of `pipewrite`, are not in the source:
the bytes that have been put into and taken out of `data`, and whether a byte has been stored since
`pi->lock` was acquired.
-/

namespace Xv6
namespace Pipe

open Function

open Sched (Slot Cpu)

abbrev PIPESIZE : Nat := 512

inductive Ch (X : Type)
  | nread
  | nwrite
  | other (x : X)
  deriving DecidableEq, Repr

inductive Lock (Y : Type)
  | pipe
  | other (y : Y)
  deriving DecidableEq, Repr

inductive Pc
  | out
  /-- In `pipewrite`: about to acquire the lock, at the head of the loop, about to call `killed`, behind
  the test for a full pipe, about to store a byte, in the `wakeup` and in the `sleep` of a full pipe, and
  in the last `wakeup`. -/
  | writeAcquire (todo : List (Option UInt8))
  | writeLoop (i : Nat) (todo : List (Option UInt8)) (stored : Bool)
  | writeKilled (i : Nat) (x : Option UInt8) (todo : List (Option UInt8)) (stored : Bool)
  | writeCopy (i : Nat) (x : Option UInt8) (todo : List (Option UInt8)) (stored : Bool)
  | writeStore (i : Nat) (ch : UInt8) (todo : List (Option UInt8)) (stored : Bool)
  | writeFull (i : Nat) (todo : List (Option UInt8))
  | writeSleep (i : Nat) (todo : List (Option UInt8))
  | writeWake (i : Nat)
  /-- In `piperead`: about to acquire the lock, at the head of the first loop, about to call `killed`, in
  `sleep`, at the head of the second loop, about to call `copyout`, and in `wakeup`. -/
  | readAcquire (n : Nat)
  | readLoop (n : Nat)
  | readKilled (n : Nat)
  | readSleep (n : Nat)
  | readCopy (i n : Nat)
  | readOut (i n : Nat)
  | readWake (i : Nat)
  /-- In `pipeclose`: about to acquire the lock, about to close the end, and in `wakeup`. -/
  | closeAcquire (writable : Bool)
  | closeSet (writable : Bool)
  | closeWake (writable : Bool)
  deriving DecidableEq, Repr

structure State (X Y : Type) where
  m : Sched.State (Ch X) (Lock Y)
  data : Nat → UInt8
  nread : BitVec 32
  nwrite : BitVec 32
  readopen : Bool
  writeopen : Bool
  freed : Bool
  pc : Slot → Pc
  ret : Slot → Int
  put : List UInt8
  taken : List UInt8

section

variable {X Y : Type}

/-- The pipe is full: `nwrite == nread + PIPESIZE`. -/
def State.full (s : State X Y) : Bool := s.nwrite = s.nread + BitVec.ofNat 32 PIPESIZE

/-- The pipe is empty: `nread == nwrite`. -/
def State.empty (s : State X Y) : Bool := s.nread = s.nwrite

variable [DecidableEq Y]

/-- Process `p` calls a function of `proc.c` or `spinlock.c`, and is at `l` then. -/
def mcall (s : State X Y) (c : Cpu) (p : Slot) (x : Sched.Call (Ch X) (Lock Y)) (l : Pc) : Option (State X Y) :=
  (Sched.call s.m c p x).map fun m => { s with m := m, pc := update s.pc p l }

/-- `release(&pi->lock); return r;` -/
def ret (s : State X Y) (c : Cpu) (p : Slot) (r : Int) : Option (State X Y) :=
  (Sched.call s.m c p (.release .pipe)).map fun m =>
    { s with m := m, pc := update s.pc p .out, ret := update s.ret p r }

def goto (s : State X Y) (p : Slot) (l : Pc) : State X Y := { s with pc := update s.pc p l }

/-- `acquire(&pi->lock)` -/
def acquire (s : State X Y) (c : Cpu) (p : Slot) (l : Pc) : Option (State X Y) :=
  if s.freed then none else mcall s c p (.acquire .pipe) l

/-- `pi->data[pi->nwrite++ % PIPESIZE] = ch;` -/
def store (s : State X Y) (ch : UInt8) : State X Y :=
  { s with
    data := update s.data (s.nwrite.toNat % PIPESIZE) ch
    nwrite := s.nwrite + 1
    put := s.put ++ [ch] }

/-- `ch = pi->data[pi->nread++ % PIPESIZE];` -/
def take (s : State X Y) : State X Y :=
  { s with
    nread := s.nread + 1
    taken := s.taken ++ [s.data (s.nread.toNat % PIPESIZE)] }

/-- `killed(pr)`, for which `p->lock` has to be free. -/
def killed (s : State X Y) (p : Slot) : Option Bool :=
  if s.m.lock p ≠ none then none else some (s.m.proc p).killed

/-- The next step of process `p` in the code of the pipe, when it is not in a function that this code
calls; `ok` says that `copyout` succeeds. -/
def go (s : State X Y) (c : Cpu) (p : Slot) (ok : Bool) : Option (State X Y) :=
  match s.pc p with
  | .out => none
  | .writeAcquire todo => acquire s c p (.writeLoop 0 todo false)
  | .writeLoop i [] _ => mcall s c p (.wakeup .nread) (.writeWake i)
  | .writeLoop i (x :: todo) stored =>
    if s.readopen = false then ret s c p (-1) else some (goto s p (.writeKilled i x todo stored))
  | .writeKilled i x todo stored =>
    match killed s p with
    | none => none
    | some true => ret s c p (-1)
    | some false =>
      if s.full then mcall s c p (.wakeup .nread) (.writeFull i (x :: todo))
      else some (goto s p (.writeCopy i x todo stored))
  | .writeCopy i none _ _ => mcall s c p (.wakeup .nread) (.writeWake i)
  | .writeCopy i (some ch) todo stored => some (goto s p (.writeStore i ch todo stored))
  | .writeStore i ch todo _ => some (goto (store s ch) p (.writeLoop (i + 1) todo true))
  | .writeFull i todo => mcall s c p (.sleep .nwrite .pipe) (.writeSleep i todo)
  | .writeSleep i todo => some (goto s p (.writeLoop i todo false))
  | .writeWake i => ret s c p i
  | .readAcquire n => acquire s c p (.readLoop n)
  | .readLoop n =>
    if s.empty = true ∧ s.writeopen = true then some (goto s p (.readKilled n)) else some (goto s p (.readCopy 0 n))
  | .readKilled n =>
    match killed s p with
    | none => none
    | some true => ret s c p (-1)
    | some false => mcall s c p (.sleep .nread .pipe) (.readSleep n)
  | .readSleep n => some (goto s p (.readLoop n))
  | .readCopy i n =>
    if i < n ∧ s.empty = false then some (goto (take s) p (.readOut i n))
    else mcall s c p (.wakeup .nwrite) (.readWake i)
  | .readOut i n =>
    if ok then some (goto s p (.readCopy (i + 1) n)) else mcall s c p (.wakeup .nwrite) (.readWake i)
  | .readWake i => ret s c p i
  | .closeAcquire writable => acquire s c p (.closeSet writable)
  | .closeSet true => mcall { s with writeopen := false } c p (.wakeup .nread) (.closeWake true)
  | .closeSet false => mcall { s with readopen := false } c p (.wakeup .nwrite) (.closeWake false)
  | .closeWake _ =>
    (ret s c p 0).map fun s => if s.readopen = false ∧ s.writeopen = false then { s with freed := true } else s

/-- In `sleep`, or behind it, with the lock that it is called with held. -/
def sleepHolds : Sched.Thread (Ch X) (Lock Y) → Bool
  | .sleep0 .. | .sleep1 .. | .client => true
  | _ => false

def locked (t : Sched.Thread (Ch X) (Lock Y)) : Pc → Bool
  | .out | .writeAcquire _ | .readAcquire _ | .closeAcquire _ => false
  | .writeSleep .. | .readSleep _ => sleepHolds t
  | _ => true

def holds (s : State X Y) (p : Slot) : Bool := locked (s.m.thread p) (s.pc p)

def embed : Sched.Call X Y → Sched.Call (Ch X) (Lock Y)
  | .acquire l => .acquire (.other l)
  | .release l => .release (.other l)
  | .sleep ch l => .sleep (.other ch) (.other l)
  | .wakeup ch => .wakeup (.other ch)
  | .kill pid => .kill pid
  | .fork => .fork
  | .exit status => .exit status
  | .wait addr => .wait addr
  | .schedset id => .schedset id

/-- What a CPU does next: a step in the functions of `proc.c`, a timer interrupt, a call of one of these
functions from other code, a call of a function of the pipe, and a step in its code. -/
inductive Op (X Y : Type)
  | tau (ok : Bool)
  | timer (user : Bool)
  | call (x : Sched.Call X Y)
  | write (buf : List (Option UInt8))
  | read (n : Nat)
  | close (writable : Bool)
  | go (ok : Bool)
  deriving DecidableEq, Repr

variable [DecidableEq X]

/-- One step of CPU `ev.1`. A process that holds `pi->lock` has interrupts off. -/
def step (s : State X Y) (ev : Cpu × Op X Y) : Option (State X Y) :=
  match ev.2, s.m.mode ev.1 with
  | .tau ok, _ => (Sched.step s.m (ev.1, .tau ok)).map fun m => { s with m := m }
  | .timer user, .sched _ => (Sched.step s.m (ev.1, .timer user)).map fun m => { s with m := m }
  | .timer user, .run p _ =>
    if holds s p = false ∧ (user = true → s.pc p = .out) then
      (Sched.step s.m (ev.1, .timer user)).map fun m => { s with m := m }
    else none
  | _, .sched _ => none
  | .call x, .run p _ =>
    if s.pc p = .out then (Sched.step s.m (ev.1, .call (embed x))).map fun m => { s with m := m } else none
  | .write buf, .run p _ =>
    if s.pc p = .out ∧ s.m.thread p = .client then some (goto s p (.writeAcquire buf)) else none
  | .read n, .run p _ =>
    if s.pc p = .out ∧ s.m.thread p = .client then some (goto s p (.readAcquire n)) else none
  | .close writable, .run p _ =>
    if s.pc p = .out ∧ s.m.thread p = .client then some (goto s p (.closeAcquire writable)) else none
  | .go ok, .run p _ => if s.m.thread p = .client then go s ev.1 p ok else none

end

/-- After `pipealloc`, in memory that holds `data`. -/
def pipealloc (X Y : Type) (data : Nat → UInt8) : State X Y :=
  { m := Sched.boot (Ch X) (Lock Y)
    data := data
    nread := 0
    nwrite := 0
    readopen := true
    writeopen := true
    freed := false
    pc := fun _ => .out
    ret := fun _ => 0
    put := []
    taken := [] }

end Pipe
end Xv6
