import Xv6.Sys.Exec
import Xv6.Lib.Trans

/-!
# Xv6.Sys.Model

The process table, open files and pipes, and the system calls that allocate and free pages:
`fork`, `exit`, `wait`, `kill`, `exec`, `sbrk`, `ps`, `pipe`, `dup` and `close`
(`kernel/proc.c`, `kernel/file.c`, `kernel/pipe.c`, `kernel/sysfile.c`, `kernel/sysproc.c`).

What `iput` and `idup` do to inodes is not part of this model.
-/

namespace Xv6
namespace Sys

open Bytes Wp Vm Function

abbrev ProcId := Fin NPROC
abbrev FileId := Fin NFILE
abbrev Fd := Fin NOFILE

/-- `struct proc`, without locks, scheduling data, `context` and `kstack`. A file, a process and a
current directory are given by their index; pages by their address. -/
structure Proc where
  state : ProcState
  chan : Nat
  killed : Nat
  xstate : Int
  pid : Nat
  parent : Option ProcId
  sz : Nat
  pagetable : Option Nat
  trapframe : Option Nat
  ofile : Fd → Option FileId
  cwd : Option Nat
  name : Buf 16

inductive FileType
  | none | pipe | inode | device
  deriving DecidableEq, Repr

/-- `struct file`, without the fields for inodes and devices. -/
structure File where
  type : FileType
  ref : Nat
  readable : Bool
  writable : Bool
  pipe : Nat

structure State where
  kmem : Kmem
  proc : ProcId → Proc
  file : FileId → File
  nextpid : Nat
  initproc : Option ProcId
  /-- What `main` allocates and never frees: the kernel's page table, the kernel stacks and the
  rings of the disk driver. -/
  kernelPages : List Nat

abbrev Kern (α : Type) := StateT State (Except Stop) α

def vm {α : Type} (x : K α) : Kern α := zoom State.kmem (fun k s => { s with kmem := k }) x

def setProc (p : ProcId) (f : Proc → Proc) : Kern Unit :=
  modify fun s => { s with proc := update s.proc p (f (s.proc p)) }

def setFile (f : FileId) (g : File → File) : Kern Unit :=
  modify fun s => { s with file := update s.file f (g (s.file f)) }

def setTrapframe (p : ProcId) (off v : Nat) : Kern Unit := do
  let s ← get
  let tf := (s.proc p).trapframe.getD 0
  vm (setPage tf (putLE (s.kmem.mem tf) off 8 v))

def safestrcpy (name : Buf 16) (src : List UInt8) : Buf 16 :=
  putBytes name 0 ((src.takeWhile (· ≠ 0)).take 15 ++ [0])

section Proc

variable (L : Layout)

def freeproc (p : ProcId) : Kern Unit := do
  let s ← get
  (s.proc p).trapframe.elim (pure ()) fun tf => vm (kfree L tf)
  setProc p fun q => { q with trapframe := none }
  (s.proc p).pagetable.elim (pure ()) fun pt => vm (procFreepagetable L pt (s.proc p).sz)
  setProc p fun q => { q with
    pagetable := none, sz := 0, pid := 0, parent := none, name := putBytes q.name 0 [0], chan := 0
    killed := 0, xstate := 0, state := .unused }

/-- `allocproc`, from the label `found` on. -/
def initSlot (p : ProcId) : Kern (Option ProcId) := do
  setProc p fun q => { q with state := .used }
  match ← vm kalloc with
  | none => do
    setProc p fun q => { q with trapframe := none }
    freeproc L p
    pure none
  | some tf => do
    setProc p fun q => { q with trapframe := some tf }
    match ← vm (procPagetable L tf) with
    | none => do
      setProc p fun q => { q with pagetable := none }
      freeproc L p
      pure none
    | some pt => do
      setProc p fun q => { q with pagetable := some pt }
      pure (some p)

def allocpid : Kern Nat := do
  let s ← get
  set { s with nextpid := s.nextpid + 1 }
  pure s.nextpid

def allocproc : Kern (Option ProcId) := do
  let s ← get
  match (List.finRange NPROC).find? fun p => (s.proc p).state = .unused with
  | none => pure none
  | some p => do
    let pid ← allocpid
    setProc p fun q => { q with pid := pid }
    initSlot L p

/-- `growproc`: 0, or -1. -/
def growproc (p : ProcId) (n : Int) : Kern Int := do
  let s ← get
  let pt := (s.proc p).pagetable.getD 0
  let sz := (s.proc p).sz
  let newsz := ((sz + n) % 2 ^ 64).toNat
  if 0 < n then do
    let sz ← vm (uvmalloc L pt sz newsz PTE_W)
    if sz = 0 then pure (-1)
    else do
      setProc p fun q => { q with sz := sz }
      pure 0
  else if n < 0 then do
    let sz ← vm (uvmdealloc L pt sz newsz)
    setProc p fun q => { q with sz := sz }
    pure 0
  else pure 0

/-! ## Files and pipes -/

/-- Offsets in `struct pipe`, after the lock and the 512 bytes of data. -/
abbrev READOPEN : Nat := 544
abbrev WRITEOPEN : Nat := 548

def filealloc : Kern (Option FileId) := do
  let s ← get
  match (List.finRange NFILE).find? fun f => (s.file f).ref = 0 with
  | none => pure none
  | some f => do
    setFile f fun x => { x with ref := 1 }
    pure (some f)

def filedup (f : FileId) : Kern Unit := do
  let s ← get
  if (s.file f).ref < 1 then panic "filedup"
  else setFile f fun x => { x with ref := x.ref + 1 }

def pipeclose (pi : Nat) (writable : Bool) : Kern Unit := do
  let s ← get
  let page := putLE (s.kmem.mem pi) (if writable then WRITEOPEN else READOPEN) 4 0
  vm (setPage pi page)
  doIf (getLE page READOPEN 4 = 0 ∧ getLE page WRITEOPEN 4 = 0) (vm (kfree L pi))

def fileclose (f : FileId) : Kern Unit := do
  let s ← get
  if (s.file f).ref < 1 then panic "fileclose"
  else if 1 < (s.file f).ref then setFile f fun x => { x with ref := x.ref - 1 }
  else do
    setFile f fun x => { x with ref := 0, type := .none }
    -- the iput of an inode's file is not part of this model
    doIf ((s.file f).type = .pipe) (pipeclose L (s.file f).pipe (s.file f).writable)

def pipealloc : Kern (Option (FileId × FileId)) := do
  match ← filealloc with
  | none => pure none
  | some f0 => do
    match ← filealloc with
    | none => do
      fileclose L f0
      pure none
    | some f1 => do
      match ← vm kalloc with
      | none => do
        fileclose L f0
        fileclose L f1
        pure none
      | some pi => do
        let s ← get
        let page := putLE (putLE (s.kmem.mem pi) READOPEN 4 1) WRITEOPEN 4 1
        vm (setPage pi (putLE (putLE page 540 4 0) 536 4 0))
        setFile f0 fun x => { x with type := .pipe, readable := true, writable := false, pipe := pi }
        setFile f1 fun x => { x with type := .pipe, readable := false, writable := true, pipe := pi }
        pure (some (f0, f1))

def argfd (p : ProcId) (fd : Int) : Kern (Option (Fd × FileId)) := do
  let s ← get
  if h : 0 ≤ fd ∧ fd < NOFILE then
    let i : Fd := ⟨fd.toNat, toNat_lt_nofile h⟩
    pure (((s.proc p).ofile i).map fun f => (i, f))
  else pure none

def setOfile (p : ProcId) (fd : Fd) (f : Option FileId) : Kern Unit :=
  setProc p fun q => { q with ofile := update q.ofile fd f }

def fdalloc (p : ProcId) (f : FileId) : Kern (Option Fd) := do
  let s ← get
  match (List.finRange NOFILE).find? fun fd => (s.proc p).ofile fd = none with
  | none => pure none
  | some fd => do
    setOfile p fd (some f)
    pure (some fd)

def sysDup (p : ProcId) (fd : Int) : Kern Int := do
  match ← argfd p fd with
  | none => pure (-1)
  | some (_, f) => do
    match ← fdalloc p f with
    | none => pure (-1)
    | some fd => do
      filedup f
      pure fd

def sysClose (p : ProcId) (fd : Int) : Kern Int := do
  match ← argfd p fd with
  | none => pure (-1)
  | some (fd, f) => do
    setOfile p fd none
    fileclose L f
    pure 0

/-- The end of `sys_pipe` after a failed copy. -/
def closePipe (p : ProcId) (fd0 fd1 : Fd) (rf wf : FileId) : Kern Int := do
  setOfile p fd0 none
  setOfile p fd1 none
  fileclose L rf
  fileclose L wf
  pure (-1)

def sysPipe (p : ProcId) (fdarray : Nat) : Kern Int := do
  match ← pipealloc L with
  | none => pure (-1)
  | some (rf, wf) => do
    match ← fdalloc p rf with
    | none => do
      fileclose L rf
      fileclose L wf
      pure (-1)
    | some fd0 => do
      match ← fdalloc p wf with
      | none => do
        setOfile p fd0 none
        fileclose L rf
        fileclose L wf
        pure (-1)
      | some fd1 => do
        let s ← get
        let pt := (s.proc p).pagetable.getD 0
        let r ← vm (copyout pt fdarray (encLE 4 fd0))
        if r < 0 then closePipe L p fd0 fd1 rf wf
        else do
          let r ← vm (copyout pt ((fdarray + 4) % 2 ^ 64) (encLE 4 fd1))
          if r < 0 then closePipe L p fd0 fd1 rf wf else pure 0

/-! ## fork, exit, wait -/

/-- The loop of `fork` over the open files of the parent. -/
def dupFiles (p np : ProcId) : List Fd → Kern Unit
  | [] => pure ()
  | fd :: fds => do
    let s ← get
    ((s.proc p).ofile fd).elim (pure ()) fun f => do
      filedup f
      setOfile np fd (some f)
    dupFiles p np fds

def fork (p : ProcId) : Kern Int := do
  match ← allocproc L with
  | none => pure (-1)
  | some np => do
    let s ← get
    let q := s.proc p
    let r ← vm (uvmcopy L (q.pagetable.getD 0) ((s.proc np).pagetable.getD 0) q.sz)
    if r < 0 then do
      freeproc L np
      pure (-1)
    else do
      setProc np fun c => { c with sz := q.sz }
      let s ← get
      -- the 288 bytes of struct trapframe
      vm (memmove ((s.proc np).trapframe.getD 0) 0 (slice (s.kmem.mem (q.trapframe.getD 0)) 0 288))
      setTrapframe np 112 0
      dupFiles p np (List.finRange NOFILE)
      setProc np fun c => { c with cwd := q.cwd, name := safestrcpy c.name (slice q.name 0 16) }
      let s ← get
      setProc np fun c => { c with parent := some p }
      setProc np fun c => { c with state := .runnable }
      pure (s.proc np).pid

/-- The loop of `exit` over the open files. -/
def closeFiles (p : ProcId) : List Fd → Kern Unit
  | [] => pure ()
  | fd :: fds => do
    let s ← get
    ((s.proc p).ofile fd).elim (pure ()) fun f => do
      fileclose L f
      setOfile p fd none
    closeFiles p fds

def reparent (p : ProcId) : Kern Unit :=
  modify fun s => { s with
    proc := fun pp => if (s.proc pp).parent = some p then { s.proc pp with parent := s.initproc } else s.proc pp }

def exit (p : ProcId) (status : Int) : Kern Unit := do
  let s ← get
  if s.initproc = some p then panic "init exiting"
  else do
    closeFiles L p (List.finRange NOFILE)
    setProc p fun q => { q with cwd := none }
    reparent p
    setProc p fun q => { q with xstate := status, state := .zombie }

def encInt (n : Int) : List UInt8 := encLE 4 (n % 2 ^ 32).toNat

/-- `wait`; the process sleeps while it has children and none of them is a zombie. -/
def wait (p : ProcId) (addr : Nat) : Kern Int := do
  let s ← get
  match (List.finRange NPROC).find? fun pp =>
    (s.proc pp).parent = some p ∧ (s.proc pp).state = .zombie with
  | some pp => do
    let r ← if addr ≠ 0 then
        vm (copyout ((s.proc p).pagetable.getD 0) addr (encInt (s.proc pp).xstate))
      else pure 0
    if r < 0 then pure (-1)
    else do
      freeproc L pp
      pure (s.proc pp).pid
  | none =>
    if (∀ pp, (s.proc pp).parent ≠ some p) ∨ (s.proc p).killed ≠ 0 then pure (-1)
    else throw .sleep

def kill (pid : Int) : Kern Int := do
  let s ← get
  match (List.finRange NPROC).find? fun p => ((s.proc p).pid : Int) = pid with
  | none => pure (-1)
  | some p => do
    setProc p fun q => { q with
      killed := 1, state := if q.state = .sleeping then .runnable else q.state }
    pure 0

/-! ## ps -/

abbrev USERPROC : Nat := 36

/-- `sizeof(proc)`, the whole table: `NPROC` times the size of `struct proc`. -/
abbrev PROCTABLE : Nat := NPROC * 368

/-- What `ps` stores about a process in entry `i` of `loc_result`. -/
def fillEntry {m : Nat} (s : State) (loc : Buf m) (i : Nat) (q : Proc) : Buf m :=
  let b := i * USERPROC
  let loc := putLE loc b 4 q.state.val
  let loc := putLE loc (b + 4) 4 q.killed
  let loc := putBytes loc (b + 8) (encInt q.xstate)
  let loc := putLE loc (b + 12) 4 q.pid
  let loc := putBytes loc (b + 20) (slice q.name 0 16)
  match q.parent with
  | some pp => putLE loc (b + 16) 4 (s.proc pp).pid
  | none => loc

/-- The loop of `ps`, up to the first unused slot: the entries, and `localCount`. -/
def psLoop {m : Nat} (s : State) (count : Nat) : List ProcId → Nat → Buf m → Buf m × Nat
  | [], i, loc => (loc, i)
  | p :: ps, i, loc =>
    if i = count then (loc, i)
    else if (s.proc p).state = .unused then (putLE loc (i * USERPROC) 4 ProcState.unused.val, i)
    else psLoop s count ps (i + 1) (fillEntry s loc i (s.proc p))

/-- `ps`; `junk` is what the stack holds where `loc_result` is. -/
def ps (p : ProcId) (junk : Nat → UInt8) (start count : Nat) : Kern Int := do
  let s ← get
  let result := (s.proc p).sz
  if count = 0 then pure 0
  else do
    let r ← growproc L p (count * USERPROC)
    if r < 0 then pure 0
    else if NPROC ≤ start * PROCTABLE then pure 0
    else do
      let s ← get
      let (loc, i) := psLoop s count ((List.finRange NPROC).drop (start * PROCTABLE)) 0
        (fun j => junk j : Buf (count * USERPROC))
      let loc := if i < count then putLE loc (i * USERPROC) 4 ProcState.unused.val else loc
      let _ ← vm (copyout ((s.proc p).pagetable.getD 0) result (slice loc 0 (count * USERPROC)))
      pure result

/-! ## exec -/

def lastElem (path : List UInt8) : List UInt8 := (path.reverse.takeWhile (· ≠ 47)).reverse

def exec (p : ProcId) (path : List UInt8) (file : Option (List UInt8)) (argv : List Nat) : Kern Int := do
  let s ← get
  match file with
  | none => pure (-1)
  | some file => do
    match ← vm (buildImage L ((s.proc p).trapframe.getD 0) file argv) with
    | none => pure (-1)
    | some im => do
      setTrapframe p 120 im.sp
      setProc p fun q => { q with
        name := safestrcpy q.name (lastElem path), pagetable := some im.pagetable, sz := im.sz }
      setTrapframe p 24 im.entry
      setTrapframe p 48 im.sp
      vm (procFreepagetable L ((s.proc p).pagetable.getD 0) (s.proc p).sz)
      pure im.argc

/-- The loop of `sys_exec` over the arguments, with `n` more places in `argv`. The result is false
when it goes to `bad`; the pages are those that `argv` holds then. -/
def fetchArgs (pt sz uargv : Nat) : Nat → List Nat → K (Bool × List Nat)
  | 0, argv => pure (false, argv)
  | n + 1, argv => do
    let addr := (uargv + 8 * argv.length) % 2 ^ 64
    if sz ≤ addr ∨ sz < (addr + 8) % 2 ^ 64 then pure (false, argv)
    else do
      let (r, bytes) ← copyin pt addr 8
      if r ≠ 0 then pure (false, argv)
      else if decLE bytes = 0 then pure (true, argv)
      else do
        match ← kalloc with
        | none => pure (false, argv)
        | some page => do
          let (r, str) ← copyinstr pt (decLE bytes) PGSIZE
          memmove page 0 str
          if r < 0 then pure (false, argv ++ [page]) else fetchArgs pt sz uargv n (argv ++ [page])

def freeArgs : List Nat → K Unit
  | [] => pure ()
  | page :: argv => do
    kfree L page
    freeArgs argv

def sysExec (p : ProcId) (files : List UInt8 → Option (List UInt8)) (path uargv : Nat) : Kern Int := do
  let s ← get
  let pt := (s.proc p).pagetable.getD 0
  let (r, path) ← vm (copyinstr pt path MAXPATH)
  if r < 0 then pure (-1)
  else do
    let path := path.takeWhile (· ≠ 0)
    let (ok, argv) ← vm (fetchArgs pt (s.proc p).sz uargv MAXARG [])
    let ret ← if ok then exec L p path (files path) argv else pure (-1)
    vm (freeArgs L argv)
    pure ret

end Proc

end Sys
end Xv6
