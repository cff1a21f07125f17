import Mathlib
import Xv6.Lib.Ring
import Xv6.Lib.Trans

/-!
# Xv6.Heap.Model

The allocator of `user/umalloc.c`. Memory is what the allocator keeps there: at the address of a block its
header, with a link and a size in units of 16 bytes, which is `sizeof(Header)`. Sizes have 32 bits. The
static variable `base` is at an address of its own.

What `sbrk` answers comes with the call of `malloc`: `none` for `-1`, or the address of a region. An address
that is not above everything that `sbrk` has returned before, or a region that makes the memory larger than
`limit` units, counts as `-1`. The loops have a number of turns; a call that needs more has no result.

The program may store what it likes in the usable bytes of its blocks (`store`). `regions` and `used` are
not in the source: what `sbrk` has returned, and the blocks handed out and not yet freed with the numbers of
bytes asked for.
-/

namespace Xv6
namespace Heap

structure Header where
  ptr : Nat
  size : Nat
  deriving DecidableEq, Repr

structure State where
  hdr : Nat → Header
  freep : Nat
  /-- Address and number of units. -/
  regions : List (Nat × Nat)
  /-- Address of the header and number of bytes. -/
  used : List (Nat × Nat)

namespace State

def ptr (s : State) (a : Nat) : Nat := (s.hdr a).ptr

def size (s : State) (a : Nat) : Nat := (s.hdr a).size

def setPtr (s : State) (a v : Nat) : State := { s with hdr := Function.update s.hdr a { s.hdr a with ptr := v } }

def setSize (s : State) (a n : Nat) : State := { s with hdr := Function.update s.hdr a { s.hdr a with size := n } }

def units (s : State) : Nat := (s.regions.map Prod.snd).sum

end State

/-- The loop of `free` stops at `p`: `bp` is between `p` and the next block, or `p` is the last one and `bp`
is above it or below the first one. -/
def stops (s : State) (bp p : Nat) : Bool :=
  (bp > p ∧ bp < s.ptr p) ∨ (p ≥ s.ptr p ∧ (bp > p ∨ bp < s.ptr p))

/-- The first half of `free`: join the block with the upper neighbour, or link it to it. -/
def joinUpper (s : State) (bp p : Nat) : State :=
  if bp + 16 * s.size bp = s.ptr p then
    (s.setSize bp ((s.size bp + s.size (s.ptr p)) % 2 ^ 32)).setPtr bp (s.ptr (s.ptr p))
  else s.setPtr bp (s.ptr p)

/-- The second half: join the lower neighbour with the block, or link it to it. -/
def joinLower (s : State) (bp p : Nat) : State :=
  if p + 16 * s.size p = bp then (s.setSize p ((s.size p + s.size bp) % 2 ^ 32)).setPtr p (s.ptr bp)
  else s.setPtr p bp

def free (n : Nat) (ap : Nat) (s : State) : Option State :=
  let bp := ap - 16
  match Ring.seek s.ptr (stops s bp) n s.freep with
  | none => none
  | some p => some { joinLower (joinUpper s bp p) bp p with freep := p }

/-- `sbrk` for `nu` units: the address of the region, if the answer is one that it may give. -/
def sbrk (base limit nu : Nat) (answer : Option Nat) (s : State) : Option Nat :=
  match answer with
  | none => none
  | some a =>
    if base + 16 ≤ a ∧ (∀ r ∈ s.regions, r.1 + 16 * r.2 ≤ a) ∧ s.units + nu ≤ limit then some a else none

/-- `morecore`; the result is `freep`, or 0. -/
def morecore (base limit n nunits : Nat) (answer : Option Nat) (s : State) : Option (Nat × State) :=
  let nu := if nunits < 4096 then 4096 else nunits
  match sbrk base limit nu answer s with
  | none => some (0, s)
  | some hp =>
    match free n (hp + 16) { s.setSize hp nu with regions := s.regions ++ [(hp, nu)] } with
    | none => none
    | some s => some (s.freep, s)

/-- The block `p` behind `prevp` is large enough: take it, or the end of it. The result is the address of
its header. -/
def carve (nunits prevp p : Nat) (s : State) : Nat × State :=
  if s.size p = nunits then (p, { s.setPtr prevp (s.ptr p) with freep := prevp })
  else
    let rest := s.size p - nunits
    (p + 16 * rest, { (s.setSize p rest).setSize (p + 16 * rest) nunits with freep := prevp })

def search (base limit nunits : Nat) : Nat → List (Option Nat) → Nat → Nat → State → Option (Option Nat × State)
  | 0, _, _, _, _ => none
  | n + 1, answers, prevp, p, s =>
    if s.size p ≥ nunits then
      let (a, s) := carve nunits prevp p s
      some (some (a + 16), s)
    else if p = s.freep then
      match morecore base limit n nunits answers.head?.join s with
      | none => none
      | some (q, s) => if q = 0 then some (none, s) else search base limit nunits n answers.tail q (s.ptr q) s
    else search base limit nunits n answers p (s.ptr p) s

def nunits (nbytes : Nat) : Nat := (nbytes + 16 - 1) / 16 + 1

/-- The free list with `base` alone, before the first search. -/
def initList (base : Nat) (s : State) : State :=
  if s.freep = 0 then { (s.setPtr base base).setSize base 0 with freep := base } else s

/-- `malloc`; the result is `none` for 0. -/
def malloc (base limit n nbytes : Nat) (answers : List (Option Nat)) (s : State) : Option (Option Nat × State) :=
  let s := initList base s
  search base limit (nunits nbytes) n answers s.freep (s.ptr s.freep) s

/-- The header cell at `x` has bytes among the usable bytes of a block that has been handed out. -/
def inUse (s : State) (x : Nat) : Bool :=
  s.used.any fun r => r.1 < x ∧ x < r.1 + 16 * s.size r.1

/-- What the program does next, with the number of turns for the loops. -/
inductive Event
  | malloc (nbytes : Nat) (answers : List (Option Nat)) (n : Nat)
  | free (ap : Nat) (n : Nat)
  | store (f : Nat → Header)

/-- Requests are such that the units fit an `int` in bytes, and only what `malloc` has returned is freed,
once. -/
def step (base limit : Nat) (s : State) : Event → Option State
  | .malloc nbytes answers n =>
    if nunits nbytes * 16 < 2 ^ 31 then
      match malloc base limit n nbytes answers s with
      | none => none
      | some (none, s) => some s
      | some (some ap, s) => some { s with used := (ap - 16, nbytes) :: s.used }
    else none
  | .free ap n =>
    match s.used.find? fun r => r.1 + 16 = ap with
    | none => none
    | some r => free n ap { s with used := s.used.erase r }
  | .store f => some { s with hdr := fun x => if inUse s x then f x else s.hdr x }

def start : State where
  hdr _ := ⟨0, 0⟩
  freep := 0
  regions := []
  used := []

end Heap
end Xv6
