import Xv6.Vm.Model
import Xv6.Fs.Calls

/-!
# Xv6.Read.Model

`fileread` with all that it reads from: pipes (`kernel/pipe.c`), the console (`kernel/console.c`) and
inodes, and with the memory of the process that it stores to.

A process that has to wait finds what other processes have left when `sleep` returns: this comes with
the call, one `Wake` for each turn of a waiting loop. `root` is the page table of the process.
-/

namespace Xv6
namespace Read

open Bytes Wp Vm

abbrev PIPESIZE : Nat := 512
abbrev INPUT_BUF_SIZE : Nat := 128
abbrev CONSOLE : Int16 := 1

structure PipeBuf where
  data : Nat → UInt8
  nread : BitVec 32
  nwrite : BitVec 32
  writeopen : Bool

structure Cons where
  buf : Nat → UInt8
  r : BitVec 32
  w : BitVec 32

structure State where
  k : Kmem
  fs : Fs.State
  pipe : Nat → PipeBuf
  cons : Cons

/-- Whether `killed` says so before the process goes to sleep, and what it finds when it wakes up. -/
structure Wake where
  killed : Bool
  pipe : PipeBuf
  cons : Cons

abbrev Kern (α : Type) := StateT State (Except Stop) α

def vm {α : Type} (x : K α) : Kern α := zoom State.k (fun k s => { s with k := k }) x

def fsys {α : Type} (x : Fs.Code α) : Kern α := zoom State.fs (fun t s => { s with fs := t }) x.run

/-! ## Pipes -/

def setPipe (pi : Nat) (x : PipeBuf) : Kern Unit := modify fun s => { s with pipe := Function.update s.pipe pi x }

/-- The first loop of `piperead`; false when the process has been killed. -/
def pipeWait (pi : Nat) : List Wake → Kern Bool
  | [] => do
    let s ← get
    if (s.pipe pi).nread = (s.pipe pi).nwrite ∧ (s.pipe pi).writeopen = true then throw .sleep
    else pure true
  | w :: env => do
    let s ← get
    if (s.pipe pi).nread = (s.pipe pi).nwrite ∧ (s.pipe pi).writeopen = true then
      if w.killed then pure false
      else do
        setPipe pi w.pipe
        pipeWait pi env
    else pure true

/-- The second loop of `piperead`, with at most `c` more turns: the value of `i` after it. -/
def pipeCopy (root pi addr : Nat) : Nat → Nat → Kern Nat
  | 0, i => pure i
  | c + 1, i => do
    let s ← get
    let x := s.pipe pi
    if x.nread = x.nwrite then pure i
    else do
      let ch := x.data (x.nread.toNat % PIPESIZE)
      setPipe pi { x with nread := x.nread + 1 }
      let r ← vm (copyout root ((addr + i) % 2 ^ 64) [ch])
      if r = -1 then pure i else pipeCopy root pi addr c (i + 1)

def piperead (root pi addr : Nat) (n : Int) (env : List Wake) : Kern Int := do
  if ← pipeWait pi env then do
    let i ← pipeCopy root pi addr n.toNat 0
    pure i
  else pure (-1)

/-! ## The console -/

def setCons (x : Cons) : Kern Unit := modify fun s => { s with cons := x }

/-- The loop of `consoleread` that waits for input: what is left of `env`, or nothing when the process
has been killed. -/
def consWait : List Wake → Kern (Option (List Wake))
  | [] => do
    let s ← get
    if s.cons.r = s.cons.w then throw .sleep else pure (some [])
  | w :: env => do
    let s ← get
    if s.cons.r = s.cons.w then
      if w.killed then pure none
      else do
        setCons w.cons
        consWait env
    else pure (some (w :: env))

/-- `c = cons.buf[cons.r++ % INPUT_BUF_SIZE];` -/
def consTake : Kern UInt8 := do
  let s ← get
  setCons { s.cons with r := s.cons.r + 1 }
  pure (s.cons.buf (s.cons.r.toNat % INPUT_BUF_SIZE))

/-- End of file: `cons.r--` unless nothing has been read. -/
def consEof (n target : Int) : Kern Unit := do
  let s ← get
  if n < target then setCons { s.cons with r := s.cons.r - 1 } else pure ()

/-- The loop of `consoleread`. The unsigned `target` is compared with an `n` between 0 and it. -/
def consLoop (root : Nat) (target : Int) : Nat → Int → Nat → List Wake → Kern Int
  | 0, n, _, _ => pure (target - n)
  | fuel + 1, n, dst, env =>
    if 0 < n then do
      match ← consWait env with
      | none => pure (-1)
      | some env => do
        let c ← consTake
        if c = 4 then do
          consEof n target
          pure (target - n)
        else do
          let r ← vm (copyout root dst [c])
          if r = -1 then pure (target - n)
          else if c = 10 then pure (target - (n - 1))
          else consLoop root target fuel (n - 1) ((dst + 1) % 2 ^ 64) env
    else pure (target - n)

def consoleread (root dst : Nat) (n : Int) (env : List Wake) : Kern Int := consLoop root n n.toNat n dst env

/-! ## Inodes -/

section

variable (sb : Fs.Superblock)

/-- The loop of `readi` with `user_dst`: its `tot`, or -1. -/
def readiLoop (root : Nat) (ip : Fs.Entry) (n : Nat) : Nat → Nat → Nat → Nat → Kern Int
  | 0, _, tot, _ => pure tot
  | fuel + 1, off, tot, dst =>
    if tot < n then do
      let addr ← fsys (Fs.bmap sb ip (off / BSIZE))
      if addr = 0 then pure tot
      else do
        let bp ← fsys (.atomic (Fs.bread addr.toNat))
        let m := min (n - tot) (BSIZE - off % BSIZE)
        let r ← vm (copyout root dst (slice bp (off % BSIZE) m))
        if r = -1 then pure (-1)
        else readiLoop root ip n fuel (off + m) (tot + m) ((dst + m) % 2 ^ 64)
    else pure tot

def readi (root : Nat) (ip : Fs.Entry) (dst : Nat) (off n : UInt32) : Kern Int := do
  let d ← fsys (.atomic (Fs.copyOf ip))
  if d.size < off ∨ off + n < off then pure 0
  else
    let n := if d.size < off + n then d.size - off else n
    readiLoop sb root ip n.toNat n.toNat off.toNat 0 dst

/-! ## fileread -/

def fileread (p : Fs.ProcId) (root : Nat) (f : Fs.FileId) (addr : Nat) (n : Int32) (env : List Wake) : Kern Int := do
  let x ← fsys (.atomic (Fs.fileOf f))
  if x.readable = false then pure (-1)
  else
    match x.type with
    | .pipe => piperead root x.pipe addr n.toInt env
    | .device =>
      -- consoleinit sets the only entry of devsw
      if x.major < 0 ∨ Fs.NDEV ≤ x.major ∨ x.major ≠ CONSOLE then pure (-1)
      else consoleread root addr n.toInt env
    | .inode => do
      fsys (Fs.ilock sb p x.ip)
      let y ← fsys (.atomic (Fs.fileOf f))
      let r ← readi sb root x.ip addr y.off n.toUInt32
      fsys (.atomic (Fs.advance f r))
      fsys (.atomic (Fs.iunlock p x.ip))
      pure r
    | .none => panic "fileread"

end

end Read
end Xv6
