import Xv6.Lib.Trans
import Xv6.Lib.Tokens
import Xv6.Lib.Links
import Xv6.Param
import Mathlib.Data.List.FinRange

/-!
# Xv6.Bcache.Model

The list of buffers of `kernel/bio.c` as it is in memory: `prev` and `next` pointers through
`bcache.head`. What a function does under `bcache.lock` is one step: all of `bpin` and `bunpin`, `bget`
up to `acquiresleep`, `brelse` from the place where it has given back the sleep-lock.

A process may release any buffer that it got from `bget` and may unpin any pinned buffer, in any order;
sleep-locks only take runs away. `held` and `pins` are not in the source: they record the results of
`bget` that are not yet released, and the pins that are not yet undone.
-/

namespace Xv6
namespace Bcache

open Links Function

abbrev Pid := Nat

abbrev BufId := Fin NBUF

/-- A `struct buf *`. -/
inductive Node
  | head
  | buf (i : BufId)
  deriving DecidableEq, Repr

structure State where
  next : Node → Node
  prev : Node → Node
  dev : BufId → UInt32
  blockno : BufId → UInt32
  refcnt : BufId → UInt32
  valid : BufId → Bool
  held : List (Pid × BufId)
  pins : BufId → Nat

namespace State

def setRefcnt (s : State) (i : BufId) (n : UInt32) : State :=
  { s with refcnt := update s.refcnt i n }

def relabel (s : State) (i : BufId) (dev blockno : UInt32) : State :=
  { s with
    dev := update s.dev i dev
    blockno := update s.blockno i blockno
    valid := update s.valid i false
    refcnt := update s.refcnt i 1 }

/-- The assignments that link a buffer in behind `bcache.head`. -/
def insertHead (s : State) (i : BufId) : State :=
  let (next, prev) := insert s.next s.prev .head (.buf i)
  { s with next := next, prev := prev }

/-- The two assignments that take a buffer out of the list. -/
def unlinkBuf (s : State) (i : BufId) : State :=
  let (next, prev) := unlink s.next s.prev (.buf i)
  { s with next := next, prev := prev }

end State

open State

def Node.test (f : BufId → Bool) : Node → Bool
  | .head => false
  | .buf i => f i

/-- The kernel's data before `binit`: `bcache` is all zeros, the two links of `head` are set. -/
def reset : State :=
  { next := fun _ => .head
    prev := fun _ => .head
    dev := fun _ => 0
    blockno := fun _ => 0
    refcnt := fun _ => 0
    valid := fun _ => false
    held := []
    pins := fun _ => 0 }

def binit : State := (List.finRange NBUF).foldl insertHead reset

section Steps

variable (s : State) (p : Pid)

/-- Is the block already cached? -/
def findCached (dev blockno : UInt32) : Option Node :=
  scan s.next .head (Node.test fun i => s.dev i = dev ∧ s.blockno i = blockno) (NBUF + 1) (s.next .head)

/-- The least recently used unused buffer. -/
def findUnused : Option Node :=
  scan s.prev .head (Node.test fun i => s.refcnt i = 0) (NBUF + 1) (s.prev .head)

/-- The result is `none` when the kernel panics: no buffers. -/
def bget (dev blockno : UInt32) : Option (State × BufId) :=
  match findCached s dev blockno with
  | some (.buf i) => some (s.setRefcnt i (s.refcnt i + 1), i)
  | some .head =>
    match findUnused s with
    | some (.buf i) => some (s.relabel i dev blockno, i)
    | _ => none
  | none => none

def brelse (i : BufId) : State :=
  let s := s.setRefcnt i (s.refcnt i - 1)
  if s.refcnt i = 0 then (s.unlinkBuf i).insertHead i else s

def bpin (i : BufId) : State := s.setRefcnt i (s.refcnt i + 1)

def bunpin (i : BufId) : State := s.setRefcnt i (s.refcnt i - 1)

end Steps

inductive Op
  | bget (dev blockno : UInt32)
  | brelse (i : BufId)
  | bpin (i : BufId)
  | bunpin (i : BufId)
  deriving DecidableEq, Repr

def step (s : State) : Pid × Op → Option State
  | (p, .bget dev blockno) =>
    if dev = 0 then none
    else (bget s dev blockno).map fun r => { r.1 with held := (p, r.2) :: s.held }
  | (p, .brelse i) => if (p, i) ∈ s.held then some { brelse s i with held := s.held.erase (p, i) } else none
  | (_, .bpin i) => some { bpin s i with pins := update s.pins i (s.pins i + 1) }
  | (_, .bunpin i) =>
    if s.pins i = 0 then none else some { bunpin s i with pins := update s.pins i (s.pins i - 1) }

end Bcache
end Xv6
