import Xv6.Sys.Model
import Xv6.Fs.Calls

/-!
# Xv6.Exec.Model

`kernel/exec.c` and `sys_exec` on the processes, the memory and the file system together: the program is
read from a locked inode, in a transaction, while its pages are allocated.

`Sys.exec` is what is left of it when the contents of the file are given (`Xv6.Exec.Fail`).
-/

namespace Xv6
namespace Exec

open Wp Vm
open Sys (ProcId Image field ELF_MAGIC ELF_PROG_LOAD)

structure Kernel where
  sys : Sys.State
  fs : Fs.State

abbrev Kern (α : Type) := StateT Kernel (Except Stop) α

section Lift

variable {α : Type}

def sys (x : Sys.Kern α) : Kern α := zoom Kernel.sys (fun t k => { k with sys := t }) x

def vm (x : K α) : Kern α := sys (Sys.vm x)

def fs (x : Fs.Code α) : Kern α := zoom Kernel.fs (fun t k => { k with fs := t }) x.run

end Lift

section Exec

variable (L : Layout) (sb : Fs.Superblock)

/-- `readi(ip, 0, dst, off, n)`: the result and the bytes. A copy into the kernel's memory does not fail. -/
def readi (ip : Fs.Entry) (off n : Nat) : Kern (Int × List UInt8) :=
  fs (Fs.readi sb ip (fun _ => true) (UInt32.ofNat off) (UInt32.ofNat n))

/-- The loop of `loadseg`, with `c` more turns. -/
def loadLoop (ip : Fs.Entry) (pagetable va offset sz : Nat) : Nat → Nat → Kern Int
  | 0, _ => pure 0
  | c + 1, i => do
    let pa ← vm (walkaddr pagetable (va + i))
    if pa = 0 then panic "loadseg: address should exist"
    else do
      let n := if sz - i < PGSIZE then sz - i else PGSIZE
      let r ← readi sb ip (offset + i) n
      vm (memmove pa 0 r.2)
      if r.1 ≠ n then pure (-1) else loadLoop ip pagetable va offset sz c (i + PGSIZE)

def loadseg (pagetable va : Nat) (ip : Fs.Entry) (offset sz : Nat) : Kern Int :=
  loadLoop sb ip pagetable va offset sz ((sz + PGSIZE - 1) / PGSIZE) 0

/-- The loop of `exec` over the program headers, with `i` more of them. The result is false when it
goes to `bad`, and has the size of the image then. -/
def loadProgram (ip : Fs.Entry) (pagetable : Nat) : Nat → Nat → Nat → Kern (Bool × Nat)
  | 0, _, sz => pure (true, sz)
  | i + 1, off, sz => do
    let r ← readi sb ip off 56
    let flags := field r.2 4 4
    let offset := field r.2 8 8
    let vaddr := field r.2 16 8
    let filesz := field r.2 32 8
    let memsz := field r.2 40 8
    if r.1 ≠ 56 then pure (false, sz)
    else if field r.2 0 4 ≠ ELF_PROG_LOAD then loadProgram ip pagetable i ((off + 56) % 2 ^ 32) sz
    else if memsz < filesz then pure (false, sz)
    else if (vaddr + memsz) % 2 ^ 64 < vaddr then pure (false, sz)
    else if vaddr % PGSIZE ≠ 0 then pure (false, sz)
    else do
      let sz1 ← vm (uvmalloc L pagetable sz ((vaddr + memsz) % 2 ^ 64) (Sys.flags2perm flags))
      if sz1 = 0 then pure (false, sz)
      else do
        let r ← loadseg sb pagetable vaddr ip (offset % 2 ^ 32) (filesz % 2 ^ 32)
        if r < 0 then pure (false, sz1)
        else loadProgram ip pagetable i ((off + 56) % 2 ^ 32) sz1

/-- `exec` while it has the file open: the page table, the size and the entry point of the program.
At `bad`, the page table is freed before the file is closed. -/
def load (trapframe : Nat) (ip : Fs.Entry) : Kern (Option (Nat × Nat × Nat)) := do
  let r ← readi sb ip 0 64
  if r.1 ≠ 64 then pure none
  else if field r.2 0 4 ≠ ELF_MAGIC then pure none
  else do
    match ← vm (procPagetable L trapframe) with
    | none => pure none
    | some pagetable => do
      let (ok, sz) ← loadProgram L sb ip pagetable (field r.2 56 2) (field r.2 32 8 % 2 ^ 32) 0
      if ok then pure (some (pagetable, sz, field r.2 24 8))
      else do
        vm (procFreepagetable L pagetable sz)
        pure none

def commit (p : ProcId) (path : List UInt8) (im : Image) : Sys.Kern Int := do
  let s ← get
  Sys.setTrapframe p 120 im.sp
  Sys.setProc p fun q => { q with
    name := Sys.safestrcpy q.name (Sys.lastElem path), pagetable := some im.pagetable, sz := im.sz }
  Sys.setTrapframe p 24 im.entry
  Sys.setTrapframe p 48 im.sp
  Sys.vm (procFreepagetable L ((s.proc p).pagetable.getD 0) (s.proc p).sz)
  pure im.argc

def exec (p : ProcId) (path : List UInt8) (argv : List Nat) : Kern Int := do
  fs (Prog.atomic Fs.beginOp)
  match ← fs (Fs.namei sb p path) with
  | none => do
    fs (Prog.atomic Fs.endOp)
    pure (-1)
  | some ip => do
    fs (Fs.ilock sb p ip)
    let k ← get
    let image ← load L sb ((k.sys.proc p).trapframe.getD 0) ip
    fs (Fs.iunlockput sb p ip)
    fs (Prog.atomic Fs.endOp)
    match image with
    | none => pure (-1)
    | some (pagetable, sz, entry) => do
      match ← vm (Sys.buildStack L pagetable (pgRoundUp sz) entry argv) with
      | none => pure (-1)
      | some im => sys (commit L p path im)

def sysExec (p : ProcId) (path uargv : Nat) : Kern Int := do
  let k ← get
  let pt := (k.sys.proc p).pagetable.getD 0
  let (r, path) ← vm (copyinstr pt path MAXPATH)
  if r < 0 then pure (-1)
  else do
    let path := path.takeWhile (· ≠ 0)
    let (ok, argv) ← vm (Sys.fetchArgs pt (k.sys.proc p).sz uargv MAXARG [])
    let ret ← if ok then exec L sb p path argv else pure (-1)
    vm (Sys.freeArgs L argv)
    pure ret

end Exec

end Exec
end Xv6
