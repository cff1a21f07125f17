import Xv6.Sys.Model

/-!
# Xv6.Sys.Trap

Runs of the system. A process is scheduled, does one thing and gives up the CPU: it makes a system
call, which runs from the trap to the return to user space in one step, or it stores a byte. What a
step depends on besides the kernel's state comes with it (`Env`). A run starts where `main` has
finished.
-/

namespace Xv6
namespace Sys

open Bytes Wp Vm

inductive Call
  | fork | exit | wait | pipe | kill | exec | dup | sbrk | close | ps
  deriving DecidableEq, Repr

/-- A system call with the registers `a0` and `a1`, or a store by the process itself. -/
inductive Op
  | syscall (c : Call) (a0 a1 : Nat)
  | store (va : Nat) (v : UInt8)

/-- Whether the calls of `kalloc` succeed, what is on the kernel stack, and the files by their path. -/
structure Env where
  oracle : Nat → Bool
  junk : Nat → UInt8
  files : List UInt8 → Option (List UInt8)

/-- `argint`: the register as a 32-bit integer. -/
def argint (a : Nat) : Int :=
  if a % 2 ^ 32 < 2 ^ 31 then a % 2 ^ 32 else (a % 2 ^ 32 : Int) - 2 ^ 32

/-- `argaddr`. -/
def argaddr (a : Nat) : Nat := a % 2 ^ 64

section Trap

variable (L : Layout)

def sysSbrk (p : ProcId) (n : Int) : Kern Int := do
  let s ← get
  let addr := (s.proc p).sz
  let r ← growproc L p n
  if r < 0 then pure (-1) else pure addr

/-- The system call; `exit` does not return. -/
def syscall (p : ProcId) (env : Env) (c : Call) (a0 a1 : Nat) : Kern (Option Int) :=
  match c with
  | .exit => do
    exit L p (argint a0)
    pure none
  | .fork => some <$> fork L p
  | .wait => some <$> wait L p (argaddr a0)
  | .pipe => some <$> sysPipe L p (argaddr a0)
  | .kill => some <$> kill (argint a0)
  | .exec => some <$> sysExec L p env.files (argaddr a0) (argaddr a1)
  | .dup => some <$> sysDup p (argint a0)
  | .sbrk => some <$> sysSbrk L p (argint a0)
  | .close => some <$> sysClose L p (argint a0)
  | .ps => some <$> ps L p env.junk (argint a0 % 256).toNat (argint a1 % 256).toNat

/-- A store of the process itself, through its page table; false when it traps. -/
def userStore (pagetable va : Nat) (v : UInt8) : K Bool :=
  if MAXVA ≤ va then pure false
  else do
    match ← walk pagetable (pgRoundDown va) false with
    | none => pure false
    | some ref => do
      let pte ← readPte ref
      if pte &&& PTE_V ≠ 0 ∧ pte &&& PTE_U ≠ 0 ∧ pte &&& PTE_W ≠ 0 then do
        memmove (pte2pa pte) (va % PGSIZE) [v]
        pure true
      else pure false

def usertrap (p : ProcId) (env : Env) : Op → Kern Unit
  | .store va v => do
    let s ← get
    let ok ← vm (userStore ((s.proc p).pagetable.getD 0) va v)
    doIf (ok = false) do
      setProc p fun q => { q with killed := 1 }
      exit L p (-1)
  | .syscall c a0 a1 => do
    let s ← get
    if (s.proc p).killed ≠ 0 then exit L p (-1)
    else do
      match ← syscall L p env c a0 a1 with
      | none => pure ()
      | some r => do
        setTrapframe p 112 (r % 2 ^ 64).toNat
        let s ← get
        doIf ((s.proc p).killed ≠ 0) (exit L p (-1))

/-- Process `p` is scheduled, traps, and yields. -/
def turn (p : ProcId) (env : Env) (op : Op) : Kern Unit := do
  modify fun s => { s with kmem := { s.kmem with oracle := env.oracle } }
  setProc p fun q => { q with state := .running }
  usertrap L p env op
  setProc p fun q => { q with state := if q.state = .running then .runnable else q.state }

abbrev Event := ProcId × Env × Op

def step (s : State) (ev : Event) : Option State :=
  if (s.proc ev.1).state = .runnable then
    match turn L ev.1 ev.2.1 ev.2.2 s with
    | .ok (_, s') => some s'
    | .error _ => none
  else none

/-! ## Booting -/

/-- The allocations of `kvminit` and `virtio_disk_init`. -/
def allocKernel : Nat → Kern Unit
  | 0 => pure ()
  | n + 1 => do
    match ← vm kalloc with
    | none => panic "kalloc"
    | some pa => do
      modify fun s => { s with kernelPages := pa :: s.kernelPages }
      allocKernel n

def initcode : List UInt8 :=
  [0x17, 0x05, 0x00, 0x00, 0x13, 0x05, 0x45, 0x02,
    0x97, 0x05, 0x00, 0x00, 0x93, 0x85, 0x35, 0x02,
    0x93, 0x08, 0x70, 0x00, 0x73, 0x00, 0x00, 0x00,
    0x93, 0x08, 0x20, 0x00, 0x73, 0x00, 0x00, 0x00,
    0xef, 0xf0, 0x9f, 0xff, 0x2f, 0x69, 0x6e, 0x69,
    0x74, 0x00, 0x00, 0x24, 0x00, 0x00, 0x00, 0x00,
    0x00, 0x00, 0x00, 0x00]

/-- `userinit`; a null pointer from `allocproc` makes the kernel trap. -/
def userinit : Kern Unit := do
  match ← allocproc L with
  | none => panic "kerneltrap"
  | some p => do
    modify fun s => { s with initproc := some p }
    let s ← get
    vm (uvmfirst ((s.proc p).pagetable.getD 0) initcode)
    setProc p fun q => { q with sz := PGSIZE }
    setTrapframe p 24 0
    setTrapframe p 48 PGSIZE
    setProc p fun q => { q with
      name := safestrcpy q.name "initcode".toUTF8.toList, cwd := some 0, state := .runnable }

/-- `main`, with `n` pages for the kernel itself. -/
def main (n : Nat) : Kern Unit := do
  vm (kinit L)
  allocKernel n
  userinit L

end Trap

/-- The kernel's data before `main`. -/
def reset (mem : Nat → Page) : State :=
  { kmem := { mem := mem, freelist := [], oracle := fun _ => true }
    proc := fun _ =>
      { state := .unused, chan := 0, killed := 0, xstate := 0, pid := 0, parent := none, sz := 0
        pagetable := none, trapframe := none, ofile := fun _ => none, cwd := none, name := fun _ => 0 }
    file := fun _ => { type := .none, ref := 0, readable := false, writable := false, pipe := 0 }
    nextpid := 1
    initproc := none
    kernelPages := [] }

end Sys
end Xv6
