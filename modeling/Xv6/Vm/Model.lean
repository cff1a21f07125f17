import Xv6.Param
import Mathlib.Logic.Function.Basic

/-!
# Xv6.Vm.Model

Physical memory, the page allocator (`kernel/kalloc.c`) and page tables (`kernel/vm.c`).

Memory is a function from the address of the first byte of a page to the bytes of the page; a
pointer to a page-table entry is the page and the index in it. The links of `kmem.freelist`, which
the source keeps in the first word of each free page, are a list here.
-/

namespace Xv6
namespace Vm

open Bytes Wp

abbrev PGSIZE : Nat := 4096
abbrev MAXVA : Nat := 2 ^ 38
abbrev TRAMPOLINE : Nat := MAXVA - PGSIZE
abbrev TRAPFRAME : Nat := TRAMPOLINE - PGSIZE
abbrev KERNBASE : Nat := 0x80000000
abbrev PHYSTOP : Nat := KERNBASE + 128 * 1024 * 1024

abbrev PTE_V : Nat := 1
abbrev PTE_R : Nat := 2
abbrev PTE_W : Nat := 4
abbrev PTE_X : Nat := 8
abbrev PTE_U : Nat := 16

def pgRoundUp (sz : Nat) : Nat := (sz + PGSIZE - 1) % 2 ^ 64 / PGSIZE * PGSIZE

def pgRoundDown (a : Nat) : Nat := a / PGSIZE * PGSIZE

@[irreducible] def pa2pte (pa : Nat) : Nat := (pa >>> 12) <<< 10

@[irreducible] def pte2pa (pte : Nat) : Nat := (pte >>> 10) <<< 12

@[irreducible] def pteFlags (pte : Nat) : Nat := pte &&& 0x3FF

/-- `PX(level, va)`. -/
def px (va level : Nat) : Fin 512 := ⟨va / 2 ^ (12 + 9 * level) % 512, Nat.mod_lt _ (by decide)⟩

abbrev Page := Buf PGSIZE

/-- The symbols that `kernel.ld` places. -/
structure Layout where
  kernelEnd : Nat
  trampoline : Nat
  base_le : KERNBASE ≤ kernelEnd
  end_le : kernelEnd ≤ PHYSTOP
  aligned : trampoline % PGSIZE = 0
  text : trampoline < kernelEnd

/-- Memory and `kmem`. Each call of `kalloc` takes one value of `oracle`: whether it may succeed. -/
structure Kmem where
  mem : Nat → Page
  freelist : List Nat
  oracle : Nat → Bool

abbrev K (α : Type) := StateT Kmem (Except Stop) α

def setPage (pa : Nat) (page : Page) : K Unit :=
  modify fun k => { k with mem := Function.update k.mem pa page }

/-- `memset(pa, c, PGSIZE)`. -/
def memset (pa : Nat) (c : UInt8) : K Unit := setPage pa fun _ => c

/-- `memmove(pa + off, src, n)` inside a page. -/
def memmove (pa off : Nat) (src : List UInt8) : K Unit := do
  let k ← get
  setPage pa (putBytes (k.mem pa) off src)

section Kalloc

variable (L : Layout)

def kfree (pa : Nat) : K Unit :=
  if pa % PGSIZE ≠ 0 ∨ pa < L.kernelEnd ∨ PHYSTOP ≤ pa then panic "kfree"
  else do
    memset pa 1
    modify fun k => { k with freelist := pa :: k.freelist }

def kalloc : K (Option Nat) := do
  let k ← get
  set { k with oracle := fun i => k.oracle (i + 1) }
  match k.freelist with
  | [] => pure none
  | r :: rest =>
    if k.oracle 0 then do
      modify fun k => { k with freelist := rest }
      memset r 5
      pure (some r)
    else pure none

/-- `freerange(pa_start, PHYSTOP)`, `n` pages from `p` on. -/
def freerange : Nat → Nat → K Unit
  | 0, _ => pure ()
  | n + 1, p => do
    kfree L p
    freerange n (p + PGSIZE)

def kinit : K Unit :=
  freerange L ((PHYSTOP - pgRoundUp L.kernelEnd) / PGSIZE) (pgRoundUp L.kernelEnd)

end Kalloc

/-! ## Page tables -/

/-- A `pte_t *`. -/
abbrev PteRef := Nat × Fin 512

@[irreducible] def word (mem : Nat → Page) (pa : Nat) (i : Fin 512) : Nat := getLE (mem pa) (8 * i) 8

def readPte (ref : PteRef) : K Nat := do
  let k ← get
  pure (word k.mem ref.1 ref.2)

def writePte (ref : PteRef) (pte : Nat) : K Unit := do
  let k ← get
  setPage ref.1 (putLE (k.mem ref.1) (8 * ref.2) 8 pte)

/-- The loop of `walk`, at a table of this level. -/
def walkFrom (va : Nat) (alloc : Bool) : Nat → Nat → K (Option PteRef)
  | 0, pagetable => pure (some (pagetable, px va 0))
  | level + 1, pagetable => do
    let pte ← readPte (pagetable, px va (level + 1))
    if pte &&& PTE_V ≠ 0 then walkFrom va alloc level (pte2pa pte)
    else if alloc = false then pure none
    else do
      match ← kalloc with
      | none => pure none
      | some page => do
        memset page 0
        writePte (pagetable, px va (level + 1)) (pa2pte page ||| PTE_V)
        walkFrom va alloc level page

def walk (pagetable va : Nat) (alloc : Bool) : K (Option PteRef) :=
  if MAXVA ≤ va then panic "walk" else walkFrom va alloc 2 pagetable

def walkaddr (pagetable va : Nat) : K Nat :=
  if MAXVA ≤ va then pure 0
  else do
    match ← walk pagetable va false with
    | none => pure 0
    | some ref => do
      let pte ← readPte ref
      if pte &&& PTE_V = 0 then pure 0
      else if pte &&& PTE_U = 0 then pure 0
      else pure (pte2pa pte)

/-- One turn of the loop of `mappages`; false when `walk` fails. -/
def mapPage (pagetable a pa perm : Nat) : K Bool := do
  match ← walk pagetable a true with
  | none => pure false
  | some ref => do
    let pte ← readPte ref
    if pte &&& PTE_V ≠ 0 then panic "mappages: remap"
    else do
      writePte ref (pa2pte pa ||| perm ||| PTE_V)
      pure true

/-- The loop of `mappages`, with `n` more pages after this one. -/
def mapLoop (pagetable perm : Nat) : Nat → Nat → Nat → K Int
  | 0, a, pa => do
    if ← mapPage pagetable a pa perm then pure 0 else pure (-1)
  | n + 1, a, pa => do
    if ← mapPage pagetable a pa perm then mapLoop pagetable perm n (a + PGSIZE) (pa + PGSIZE)
    else pure (-1)

def mappages (pagetable va size pa perm : Nat) : K Int :=
  if size = 0 then panic "mappages: size"
  else
    mapLoop pagetable perm ((pgRoundDown (va + size - 1) - pgRoundDown va) / PGSIZE) (pgRoundDown va) pa

section Uvm

variable (L : Layout)

def unmapLoop (pagetable : Nat) (doFree : Bool) : Nat → Nat → K Unit
  | 0, _ => pure ()
  | n + 1, a => do
    match ← walk pagetable a false with
    | none => panic "uvmunmap: walk"
    | some ref => do
      let pte ← readPte ref
      if pte &&& PTE_V = 0 then panic "uvmunmap: not mapped"
      else if pteFlags pte = PTE_V then panic "uvmunmap: not a leaf"
      else do
        doIf doFree (kfree L (pte2pa pte))
        writePte ref 0
        unmapLoop pagetable doFree n (a + PGSIZE)

def uvmunmap (pagetable va npages : Nat) (doFree : Bool) : K Unit :=
  if va % PGSIZE ≠ 0 then panic "uvmunmap: not aligned"
  else unmapLoop L pagetable doFree npages va

def uvmcreate : K (Option Nat) := do
  match ← kalloc with
  | none => pure none
  | some pagetable => do
    memset pagetable 0
    pure (some pagetable)

/-- `uvmfirst`; the result of `kalloc` is not checked, and the kernel traps on a null pointer. -/
def uvmfirst (pagetable : Nat) (src : List UInt8) : K Unit :=
  if PGSIZE ≤ src.length then panic "uvmfirst: more than a page"
  else do
    match ← kalloc with
    | none => panic "kerneltrap"
    | some mem => do
      memset mem 0
      let _ ← mappages pagetable 0 PGSIZE mem (PTE_W ||| PTE_R ||| PTE_X ||| PTE_U)
      memmove mem 0 src

def uvmdealloc (pagetable oldsz newsz : Nat) : K Nat :=
  if oldsz ≤ newsz then pure oldsz
  else do
    doIf (pgRoundUp newsz < pgRoundUp oldsz) <|
      uvmunmap L pagetable (pgRoundUp newsz) ((pgRoundUp oldsz - pgRoundUp newsz) / PGSIZE) true
    pure newsz

def allocLoop (pagetable oldsz newsz xperm : Nat) : Nat → Nat → K Nat
  | 0, _ => pure newsz
  | n + 1, a => do
    match ← kalloc with
    | none => do
      let _ ← uvmdealloc L pagetable a oldsz
      pure 0
    | some mem => do
      memset mem 0
      let r ← mappages pagetable a PGSIZE mem (PTE_R ||| PTE_U ||| xperm)
      if r ≠ 0 then do
        kfree L mem
        let _ ← uvmdealloc L pagetable a oldsz
        pure 0
      else allocLoop pagetable oldsz newsz xperm n (a + PGSIZE)

def uvmalloc (pagetable oldsz newsz xperm : Nat) : K Nat :=
  if newsz < oldsz then pure oldsz
  else
    allocLoop L pagetable (pgRoundUp oldsz) newsz xperm
      ((newsz - pgRoundUp oldsz + PGSIZE - 1) / PGSIZE) (pgRoundUp oldsz)

def freeEntries (freeChild : Nat → K Unit) (pagetable : Nat) : List (Fin 512) → K Unit
  | [] => pure ()
  | i :: is => do
    let pte ← readPte (pagetable, i)
    if pte &&& PTE_V ≠ 0 ∧ pte &&& (PTE_R ||| PTE_W ||| PTE_X) = 0 then do
      freeChild (pte2pa pte)
      writePte (pagetable, i) 0
      freeEntries freeChild pagetable is
    else if pte &&& PTE_V ≠ 0 then panic "freewalk: leaf"
    else freeEntries freeChild pagetable is

/-- `freewalk`; the first argument bounds the depth of its recursion. -/
def freewalk : Nat → Nat → K Unit
  | 0, _ => panic "freewalk: depth"
  | depth + 1, pagetable => do
    freeEntries (freewalk depth) pagetable (List.finRange 512)
    kfree L pagetable

def uvmfree (pagetable sz : Nat) : K Unit := do
  doIf (0 < sz) (uvmunmap L pagetable 0 (pgRoundUp sz / PGSIZE) true)
  freewalk L 3 pagetable

def copyLoop (old new : Nat) : Nat → Nat → K Int
  | 0, _ => pure 0
  | n + 1, i => do
    match ← walk old i false with
    | none => panic "uvmcopy: pte should exist"
    | some ref => do
      let pte ← readPte ref
      if pte &&& PTE_V = 0 then panic "uvmcopy: page not present"
      else do
        match ← kalloc with
        | none => do
          uvmunmap L new 0 (i / PGSIZE) true
          pure (-1)
        | some mem => do
          let k ← get
          setPage mem (k.mem (pte2pa pte))
          let r ← mappages new i PGSIZE mem (pteFlags pte)
          if r ≠ 0 then do
            kfree L mem
            uvmunmap L new 0 (i / PGSIZE) true
            pure (-1)
          else copyLoop old new n (i + PGSIZE)

def uvmcopy (old new sz : Nat) : K Int := copyLoop L old new ((sz + PGSIZE - 1) / PGSIZE) 0

def uvmclear (pagetable va : Nat) : K Unit := do
  match ← walk pagetable va false with
  | none => panic "uvmclear"
  | some ref => do
    let pte ← readPte ref
    writePte ref (pte &&& (2 ^ 64 - 1 - PTE_U))

def procPagetable (trapframe : Nat) : K (Option Nat) := do
  match ← uvmcreate with
  | none => pure none
  | some pagetable => do
    let r ← mappages pagetable TRAMPOLINE PGSIZE L.trampoline (PTE_R ||| PTE_X)
    if r < 0 then do
      uvmfree L pagetable 0
      pure none
    else do
      let r ← mappages pagetable TRAPFRAME PGSIZE trapframe (PTE_R ||| PTE_W)
      if r < 0 then do
        uvmunmap L pagetable TRAMPOLINE 1 false
        uvmfree L pagetable 0
        pure none
      else pure (some pagetable)

def procFreepagetable (pagetable sz : Nat) : K Unit := do
  uvmunmap L pagetable TRAMPOLINE 1 false
  uvmunmap L pagetable TRAPFRAME 1 false
  uvmfree L pagetable sz

end Uvm

/-! ## Copies between kernel and user memory

Each turn of these loops takes at least one byte, so the number of bytes bounds their turns. -/

def copyoutLoop (pagetable : Nat) : Nat → Nat → List UInt8 → K Int
  | 0, _, _ => pure 0
  | fuel + 1, dstva, src =>
    if src.length = 0 then pure 0
    else do
      let pa0 ← walkaddr pagetable (pgRoundDown dstva)
      if pa0 = 0 then pure (-1)
      else do
        let n := min (PGSIZE - dstva % PGSIZE) src.length
        memmove pa0 (dstva % PGSIZE) (src.take n)
        copyoutLoop pagetable fuel ((pgRoundDown dstva + PGSIZE) % 2 ^ 64) (src.drop n)

def copyout (pagetable dstva : Nat) (src : List UInt8) : K Int :=
  copyoutLoop pagetable src.length dstva src

/-- The loop of `copyin`; the result has the bytes copied so far. -/
def copyinLoop (pagetable : Nat) : Nat → Nat → Nat → List UInt8 → K (Int × List UInt8)
  | 0, _, _, dst => pure (0, dst)
  | fuel + 1, srcva, len, dst =>
    if len = 0 then pure (0, dst)
    else do
      let pa0 ← walkaddr pagetable (pgRoundDown srcva)
      if pa0 = 0 then pure (-1, dst)
      else do
        let n := min (PGSIZE - srcva % PGSIZE) len
        let k ← get
        copyinLoop pagetable fuel ((pgRoundDown srcva + PGSIZE) % 2 ^ 64) (len - n)
          (dst ++ slice (k.mem pa0) (srcva % PGSIZE) n)

def copyin (pagetable srcva len : Nat) : K (Int × List UInt8) := copyinLoop pagetable len srcva len []

/-- The inner loop of `copyinstr` over the bytes of one page: `got_null`, `max` and the bytes copied so
far. -/
def copyinstrPage : List UInt8 → Nat → List UInt8 → Bool × Nat × List UInt8
  | [], max, dst => (false, max, dst)
  | c :: p, max, dst => if c = 0 then (true, max, dst ++ [0]) else copyinstrPage p (max - 1) (dst ++ [c])

def copyinstrLoop (pagetable : Nat) : Nat → Nat → Nat → List UInt8 → K (Int × List UInt8)
  | 0, _, _, dst => pure (-1, dst)
  | fuel + 1, srcva, max, dst =>
    if max = 0 then pure (-1, dst)
    else do
      let pa0 ← walkaddr pagetable (pgRoundDown srcva)
      if pa0 = 0 then pure (-1, dst)
      else do
        let n := min (PGSIZE - srcva % PGSIZE) max
        let k ← get
        match copyinstrPage (slice (k.mem pa0) (srcva % PGSIZE) n) max dst with
        | (true, _, dst) => pure (0, dst)
        | (false, max, dst) => copyinstrLoop pagetable fuel ((pgRoundDown srcva + PGSIZE) % 2 ^ 64) max dst

def copyinstr (pagetable srcva max : Nat) : K (Int × List UInt8) :=
  copyinstrLoop pagetable max srcva max []

end Vm
end Xv6
