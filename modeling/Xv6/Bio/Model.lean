import Xv6.Lib.Trans
import Xv6.Lib.Tokens
import Xv6.Log.Trace
import Mathlib.Data.List.FinRange

/-!
# Xv6.Bio.Model

The buffer cache of `kernel/bio.c` and the log of `kernel/log.c` under concurrent use.

Every place where a process can be interrupted by another one has its own `Pc`: a section under
`bcache.lock` or `log.lock` is one step, taking and giving back a sleep-lock is one step each, and
so is every copy between buffers and every transfer between a buffer and the disk. `commit` runs
`write_log`, `write_head`, `install_trans` and `write_head` through the same `bread` and `brelse` as
everybody else, so buffers can be recycled under it.

The two loops of `commit` first read the log block and then the home block of slot `tail`; they
differ in the direction of the copy, in the buffer that is written and in what follows
(`Loop.writeLog`, `Loop.installTrans`).

Between calls a process may do anything with the buffers it has locked, provided that it changes and
logs only blocks outside the log region and does not release a buffer that it has changed and not
logged. There is one device. A step that panics is not possible, and a process that sleeps has no
step. The fields `held`, `pins`, `dirty`, `copied` and `unpinned` are not in the source: they record
who has a reference to which buffer, which buffers are pinned, which are changed and not yet logged
or written, and how far `commit` is.
-/

namespace Xv6
namespace Bio

open Function

open Log (LogHeader IsHome)

abbrev Pid := Nat

abbrev BufId := Fin NBUF

structure Config extends Log.Config where
  dev : Nat
  dev_ne : dev ≠ 0

/-- `struct buf`; `lock` is the holder of the sleep-lock. -/
structure Buf where
  dev : Nat
  blockno : Nat
  refcnt : Nat
  valid : Bool
  lock : Option Pid
  data : Block

inductive Loop where
  | writeLog | installTrans
  deriving DecidableEq, Repr

/-- What a process does with the buffer that `bread` returns. -/
inductive Cont where
  | user
  /-- The log block of slot `tail`, in a loop of `commit`. -/
  | log (l : Loop) (tail : Nat)
  /-- The home block of slot `tail`; `a` is the buffer of the log block. -/
  | home (l : Loop) (tail : Nat) (a : BufId)
  /-- The header block, in the second `write_head` of `commit` or the first. -/
  | head (clear : Bool)
  deriving DecidableEq, Repr

/-- Where a process goes on after `brelse`. -/
inductive Next where
  | user
  | relse2 (l : Loop) (tail : Nat) (i : BufId)
  | loop (l : Loop) (tail : Nat)
  | finish
  deriving DecidableEq, Repr

inductive Pc where
  | user
  /-- `bget` has found buffer `i` for block `b` and is about to take its sleep-lock. -/
  | acquire (i : BufId) (b : Nat) (k : Cont)
  /-- `bread` is about to test `valid`. -/
  | fill (i : BufId) (b : Nat) (k : Cont)
  /-- `brelse` has given back the sleep-lock and is about to take `bcache.lock`; then `k`. -/
  | deref (i : BufId) (k : Next)
  | commit
  /-- The condition of a loop of `commit`. -/
  | loop (l : Loop) (tail : Nat)
  /-- About to `bread` the home block. -/
  | second (l : Loop) (tail : Nat) (a : BufId)
  /-- About to copy between the buffers `a` of the log block and `c` of the home block. -/
  | move (l : Loop) (tail : Nat) (a c : BufId)
  | write (l : Loop) (tail : Nat) (a c : BufId)
  | unpin (tail : Nat) (a c : BufId)
  /-- About to release the first of the two buffers. -/
  | relse (l : Loop) (tail : Nat) (a c : BufId)
  | relse2 (l : Loop) (tail : Nat) (i : BufId)
  | writeHead (clear : Bool)
  | headMove (clear : Bool) (i : BufId)
  | headWrite (clear : Bool) (i : BufId)
  | headRelse (clear : Bool) (i : BufId)
  | clearN
  /-- The end of `end_op`: about to reset `log.committing`. -/
  | finish
  deriving DecidableEq, Repr

def Cont.pc : Cont → BufId → Pc
  | .user, _ => .user
  | .log l tail, i => .second l tail i
  | .home l tail a, i => .move l tail a i
  | .head clear, i => .headMove clear i

def Next.pc : Next → Pc
  | .user => .user
  | .relse2 l tail i => .relse2 l tail i
  | .loop l tail => .loop l tail
  | .finish => .finish

structure State where
  buf : BufId → Buf
  /-- The list from `head.next` to `head.prev`: most recently used first. -/
  lru : List BufId
  disk : Nat → Block
  lh : LogHeader
  outstanding : Int
  committing : Bool
  pc : Pid → Pc
  held : List (Pid × BufId)
  pins : BufId → Nat
  dirty : BufId → Bool
  copied : Nat
  unpinned : Nat

namespace State

def setBuf (s : State) (i : BufId) (x : Buf) : State := { s with buf := update s.buf i x }

def setPc (s : State) (p : Pid) (c : Pc) : State := { s with pc := update s.pc p c }

def setDirty (s : State) (i : BufId) (d : Bool) : State :=
  { s with dirty := update s.dirty i d }

def setData (s : State) (i : BufId) (v : Block) : State :=
  s.setBuf i { s.buf i with data := v }

end State

open State

section Steps

variable (L : Config) (s : State) (p : Pid)

/-- The buffer of a block, found or recycled; without a free buffer the kernel panics. -/
def bgetBuf (b : Nat) : Option (BufId × Buf) :=
  match s.lru.find? fun i => decide ((s.buf i).dev = L.dev ∧ (s.buf i).blockno = b) with
  | some i => some (i, { s.buf i with refcnt := (s.buf i).refcnt + 1 })
  | none =>
    match s.lru.reverse.find? fun i => decide ((s.buf i).refcnt = 0) with
    | some i => some (i, { s.buf i with dev := L.dev, blockno := b, valid := false, refcnt := 1 })
    | none => none

/-- `bread`, up to the place where `bget` releases `bcache.lock`. -/
def bread (b : Nat) (k : Cont) : Option State :=
  match bgetBuf L s b with
  | some (i, x) => some { (s.setBuf i x).setPc p (.acquire i b k) with held := (p, i) :: s.held }
  | none => none

def acquiresleep (i : BufId) (b : Nat) (k : Cont) : Option State :=
  if (s.buf i).lock = none then
    some ((s.setBuf i { s.buf i with lock := some p }).setPc p (.fill i b k))
  else none

/-- The rest of `bread`. -/
def fill (i : BufId) (k : Cont) : State :=
  if (s.buf i).valid then s.setPc p (k.pc i)
  else (s.setBuf i { s.buf i with data := s.disk (s.buf i).blockno, valid := true }).setPc p (k.pc i)

def bwrite (i : BufId) : State :=
  { s.setDirty i false with disk := update s.disk (s.buf i).blockno (s.buf i).data }

/-- `brelse` up to the place where it takes `bcache.lock`. -/
def brelse (i : BufId) (k : Next) : State :=
  (s.setBuf i { s.buf i with lock := none }).setPc p (.deref i k)

/-- The rest of `brelse`: a buffer without references moves to the front of the list. -/
def deref (i : BufId) (k : Next) : State :=
  let x := { s.buf i with refcnt := (s.buf i).refcnt - 1 }
  { (s.setBuf i x).setPc p k.pc with
    held := s.held.erase (p, i)
    lru := if x.refcnt = 0 then i :: s.lru.erase i else s.lru }

def bpin (i : BufId) : State :=
  { s.setBuf i { s.buf i with refcnt := (s.buf i).refcnt + 1 } with
    pins := update s.pins i (s.pins i + 1) }

def bunpin (i : BufId) : State :=
  { s.setBuf i { s.buf i with refcnt := (s.buf i).refcnt - 1 } with
    pins := update s.pins i (s.pins i - 1) }

/-- `log_write`; `none` is one of its two panics. -/
def logWrite (i : BufId) : Option State :=
  if (LOGSIZE : Int) ≤ s.lh.n ∨ (L.size : Int) - 1 ≤ s.lh.n ∨ s.outstanding < 1 then none
  else
    let b := (s.buf i).blockno
    let s1 := if (s.lh.slot b : Int) = s.lh.n then bpin s i else s
    some { s1.setDirty i false with lh := s.lh.add b }

def beginOp : Option State :=
  if s.committing ∨ (LOGSIZE : Int) < s.lh.n + (s.outstanding + 1) * MAXOPBLOCKS then none
  else some { s with outstanding := s.outstanding + 1 }

/-- `end_op` up to the place where it releases `log.lock`; `none` is its panic. -/
def endOp : Option State :=
  if s.committing then none
  else if s.outstanding - 1 = 0 then
    some ({ s with outstanding := 0, committing := true }.setPc p .commit)
  else some { s with outstanding := s.outstanding - 1 }

end Steps

/-- What a process can do outside these functions, and (`tau`) its next step inside them. -/
inductive Op where
  | bread (b : Nat)
  | modify (i : BufId) (v : Block)
  | logWrite (i : BufId)
  | brelse (i : BufId)
  | beginOp
  | endOp
  | tau

def call (L : Config) (s : State) (p : Pid) : Op → Option State
  | .bread b => bread L s p b .user
  | .modify i v =>
    if (s.buf i).lock = some p ∧ IsHome L.toConfig (s.buf i).blockno then
      some ((s.setData i v).setDirty i true)
    else none
  | .logWrite i =>
    if (s.buf i).lock = some p ∧ IsHome L.toConfig (s.buf i).blockno then logWrite L s i else none
  | .brelse i =>
    if (s.buf i).lock = some p ∧ s.dirty i = false then some (brelse s p i .user) else none
  | .beginOp => beginOp s
  | .endOp => endOp s p
  | .tau => none

/-- One turn of `write_log` or `install_trans`, from the copy on, and the test of the loop. -/
def resumeLoop (L : Config) (s : State) (p : Pid) : Pc → Option State
  | .loop l tail =>
    if (tail : Int) < s.lh.n then bread L s p (L.start + tail + 1) (.log l tail)
    else
      match l with
      | .writeLog => some (s.setPc p (.writeHead false))
      | .installTrans => some (s.setPc p .clearN)
  | .second l tail a => bread L s p (s.lh.block tail) (.home l tail a)
  | .move .writeLog tail a c =>
    some ({ (s.setData a (s.buf c).data).setDirty a true with copied := tail + 1 }.setPc p
      (.write .writeLog tail a c))
  | .move .installTrans tail a c =>
    some ((s.setData c (s.buf a).data).setPc p (.write .installTrans tail a c))
  | .write .writeLog tail a c => some ((bwrite s a).setPc p (.relse .writeLog tail a c))
  | .write .installTrans tail a c => some ((bwrite s c).setPc p (.unpin tail a c))
  | .unpin tail a c =>
    some ({ bunpin s c with unpinned := tail + 1 }.setPc p (.relse .installTrans tail a c))
  | .relse .writeLog tail a c => some (brelse s p c (.relse2 .writeLog tail a))
  | .relse .installTrans tail a c => some (brelse s p a (.relse2 .installTrans tail c))
  | .relse2 l tail i => some (brelse s p i (.loop l (tail + 1)))
  | _ => none

def resume (L : Config) (s : State) (p : Pid) : Pc → Option State
  | .user => none
  | .acquire i b k => acquiresleep s p i b k
  | .fill i _ k => some (fill s p i k)
  | .deref i k => some (deref s p i k)
  | .commit => some (s.setPc p (if 0 < s.lh.n then .loop .writeLog 0 else .finish))
  | .writeHead clear => bread L s p L.start (.head clear)
  | .headMove clear i =>
    some (((s.setData i (s.lh.encode (s.buf i).data)).setDirty i true).setPc p (.headWrite clear i))
  | .headWrite clear i => some ((bwrite s i).setPc p (.headRelse clear i))
  | .headRelse clear i => some (brelse s p i (if clear then .finish else .loop .installTrans 0))
  | .clearN =>
    some ({ s with lh := { s.lh with n := 0 }, copied := 0, unpinned := 0 }.setPc p (.writeHead true))
  | .finish => some ({ s with committing := false }.setPc p .user)
  | c => resumeLoop L s p c

def step (L : Config) (s : State) (ev : Pid × Op) : Option State :=
  match s.pc ev.1, ev.2 with
  | .user, op => call L s ev.1 op
  | c, .tau => resume L s ev.1 c
  | _, _ => none

end Bio
end Xv6
