import Xv6.Vm.Model

/-!
# Xv6.Sys.Exec

`kernel/exec.c`: a new address space is built from a file and the argument strings. The file is the
list of its bytes; what `namei` and `readi` do below is not part of this model.
-/

namespace Xv6
namespace Sys

open Bytes Wp Vm

abbrev ELF_MAGIC : Nat := 0x464C457F
abbrev ELF_PROG_LOAD : Nat := 1

/-- `readi(ip, 0, dst, off, n)`. -/
def readi (file : List UInt8) (off n : Nat) : List UInt8 :=
  if file.length < off ∨ (off + n) % 2 ^ 32 < off then [] else (file.drop off).take n

def field (s : List UInt8) (off k : Nat) : Nat := decLE ((s.drop off).take k)

def flags2perm (flags : Nat) : Nat :=
  (if flags &&& 1 ≠ 0 then PTE_X else 0) ||| (if flags &&& 2 ≠ 0 then PTE_W else 0)

/-- The loop of `loadseg`, with `c` more turns. -/
def loadLoop (file : List UInt8) (pagetable va offset sz : Nat) : Nat → Nat → K Int
  | 0, _ => pure 0
  | c + 1, i => do
    let pa ← walkaddr pagetable (va + i)
    if pa = 0 then panic "loadseg: address should exist"
    else do
      let n := if sz - i < PGSIZE then sz - i else PGSIZE
      let bytes := readi file ((offset + i) % 2 ^ 32) n
      memmove pa 0 bytes
      if bytes.length ≠ n then pure (-1) else loadLoop file pagetable va offset sz c (i + PGSIZE)

def loadseg (pagetable va : Nat) (file : List UInt8) (offset sz : Nat) : K Int :=
  loadLoop file pagetable va offset sz ((sz + PGSIZE - 1) / PGSIZE) 0

section Exec

variable (L : Layout)

/-- The loop of `exec` over the program headers, with `i` more of them. The result is false when it
goes to `bad`, and has the size of the image then. -/
def loadProgram (file : List UInt8) (pagetable : Nat) : Nat → Nat → Nat → K (Bool × Nat)
  | 0, _, sz => pure (true, sz)
  | i + 1, off, sz =>
    let ph := readi file off 56
    let flags := field ph 4 4
    let offset := field ph 8 8
    let vaddr := field ph 16 8
    let filesz := field ph 32 8
    let memsz := field ph 40 8
    if ph.length ≠ 56 then pure (false, sz)
    else if field ph 0 4 ≠ ELF_PROG_LOAD then loadProgram file pagetable i ((off + 56) % 2 ^ 32) sz
    else if memsz < filesz then pure (false, sz)
    else if (vaddr + memsz) % 2 ^ 64 < vaddr then pure (false, sz)
    else if vaddr % PGSIZE ≠ 0 then pure (false, sz)
    else do
      let sz1 ← uvmalloc L pagetable sz ((vaddr + memsz) % 2 ^ 64) (flags2perm flags)
      if sz1 = 0 then pure (false, sz)
      else do
        let r ← loadseg pagetable vaddr file (offset % 2 ^ 32) (filesz % 2 ^ 32)
        if r < 0 then pure (false, sz1)
        else loadProgram file pagetable i ((off + 56) % 2 ^ 32) sz1

def sub64 (a b : Nat) : Nat := (a + (2 ^ 64 - b % 2 ^ 64)) % 2 ^ 64

/-- `sp -= n; sp -= sp % 16`. -/
def pushed (sp n : Nat) : Nat := sub64 sp n - sub64 sp n % 16

/-- The string in a page that `fetchstr` has filled. -/
def strIn (page : Page) : List UInt8 := (slice page 0 PGSIZE).takeWhile (· ≠ 0)

/-- The loop of `exec` over the argument strings: the stack pointer, and the addresses of the
strings on the stack. -/
def pushArgs (pagetable stackbase : Nat) : List Nat → Nat → List Nat → K (Option (Nat × List Nat))
  | [], sp, ustack => pure (some (sp, ustack))
  | arg :: argv, sp, ustack =>
    if MAXARG ≤ ustack.length then pure none
    else do
      let k ← get
      let str := strIn (k.mem arg) ++ [0]
      let sp := pushed sp str.length
      if sp < stackbase then pure none
      else do
        let r ← copyout pagetable sp str
        if r < 0 then pure none else pushArgs pagetable stackbase argv sp (ustack ++ [sp])

structure Image where
  pagetable : Nat
  sz : Nat
  sp : Nat
  entry : Nat
  argc : Nat

/-- The label `bad`, with a page table. -/
def bad (pagetable sz : Nat) : K (Option Image) := do
  procFreepagetable L pagetable sz
  pure none

/-- The last part of building an image: the array of argument pointers. -/
def pushUstack (pagetable sz entry sp : Nat) (ustack : List Nat) : K (Option Image) := do
  let words := ustack ++ [0]
  let sp := pushed sp (words.length * 8)
  if sp < sz - PGSIZE then bad L pagetable sz
  else do
    let r ← copyout pagetable sp (words.flatMap (encLE 8))
    if r < 0 then bad L pagetable sz
    else pure (some { pagetable := pagetable, sz := sz, sp := sp, entry := entry, argc := ustack.length })

/-- The stack with its guard page and the arguments. -/
def buildStack (pagetable sz entry : Nat) (argv : List Nat) : K (Option Image) := do
  let sz1 ← uvmalloc L pagetable sz (sz + 2 * PGSIZE) PTE_W
  if sz1 = 0 then bad L pagetable sz
  else do
    uvmclear pagetable (sz1 - 2 * PGSIZE)
    match ← pushArgs pagetable (sz1 - PGSIZE) argv sz1 [] with
    | none => bad L pagetable sz1
    | some (sp, ustack) => pushUstack L pagetable sz1 entry sp ustack

/-- `exec` up to the point where it commits to the new image. -/
def buildImage (trapframe : Nat) (file : List UInt8) (argv : List Nat) : K (Option Image) :=
  let elf := readi file 0 64
  if elf.length ≠ 64 then pure none
  else if field elf 0 4 ≠ ELF_MAGIC then pure none
  else do
    match ← procPagetable L trapframe with
    | none => pure none
    | some pagetable => do
      let (ok, sz) ← loadProgram L file pagetable (field elf 56 2) (field elf 32 8 % 2 ^ 32) 0
      if ok then buildStack L pagetable (pgRoundUp sz) (field elf 24 8) argv else bad L pagetable sz

end Exec

end Sys
end Xv6
