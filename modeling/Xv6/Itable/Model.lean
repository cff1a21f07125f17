import Xv6.Lib.Trans
import Xv6.Param
import Mathlib.Data.List.FinRange

/-!
# Xv6.Itable.Model

The inode table of `kernel/fs.c` under concurrent use.

A step is what one process does between two places where another process can interfere: a section
under `itable.lock`, an operation on an inode whose sleep-lock the process holds, or an access to a
dinode in its buffer. `iput` releases `itable.lock` before it frees an inode and takes it again to
drop the reference, so that path has four steps.

The clients of the table are arbitrary, within what the code of `sysfile.c` keeps to: a process locks,
puts or duplicates only an inode it has a reference to, it unlocks before it puts, it changes `nlink`
under the sleep-lock and calls `iupdate` at once, and after `ialloc` it locks the new inode and sets
its link count to 1 (`create`). `held` is not in the source: it lists who has a reference to which
entry. A reference that is kept in a `struct file` or a `cwd` can pass to another process (`give`).
Of the fields of an inode only `type` and `nlink` matter here. A step that panics is not possible.
-/

namespace Xv6
namespace Itable

abbrev Pid := Nat

/-- The types that `create` gives an inode; type 0 marks a free dinode. -/
inductive FileType where
  | dir | file | device
  deriving DecidableEq, Repr

def FileType.toNat : FileType → Nat
  | .dir => 1
  | .file => 2
  | .device => 3

theorem FileType.toNat_ne_zero (t : FileType) : t.toNat ≠ 0 := by cases t <;> simp [toNat]

/-- The fields of `struct dinode` that decide whether the inode is in use. -/
structure Dinode where
  type : Nat
  nlink : Int
  deriving DecidableEq, Repr, Inhabited

/-- `struct inode`. `lock` is the holder of the sleep-lock, `copy` the copy of the dinode. -/
structure Inode where
  dev : Nat
  inum : Nat
  ref : Nat
  valid : Bool
  lock : Option Pid
  copy : Dinode
  deriving DecidableEq, Repr, Inhabited

abbrev Entry := Fin NINODE

inductive Pc where
  | idle
  /-- The loop of `ialloc`, about to look at dinode `inum`. -/
  | ialloc (dev : Nat) (type : FileType) (inum : Nat)
  /-- `ialloc` has marked dinode `inum` allocated and calls `iget`. -/
  | iget (dev inum : Nat)
  /-- `ialloc` has returned `e`, and `create` calls `ilock`. -/
  | fresh (e : Entry)
  /-- `ilock` holds the sleep-lock and is about to read the dinode, for `create` or not. -/
  | ilock (e : Entry) (create : Bool)
  /-- `create` holds the sleep-lock and is about to set the link count. -/
  | init (e : Entry)
  /-- `iput` holds the sleep-lock and has released `itable.lock`. -/
  | freeing (e : Entry)
  /-- `iput` has written the free dinode. -/
  | freed (e : Entry)
  /-- `iput` has released the sleep-lock and is about to take `itable.lock` again. -/
  | dropping (e : Entry)
  deriving DecidableEq, Repr

structure State where
  ninodes : Nat
  inode : Entry → Inode
  disk : Nat → Nat → Dinode
  pc : Pid → Pc
  held : List (Pid × Entry)

namespace State

def setInode (s : State) (e : Entry) (x : Inode) : State :=
  { s with inode := Function.update s.inode e x }

def setDinode (s : State) (dev inum : Nat) (d : Dinode) : State :=
  { s with disk := Function.update s.disk dev (Function.update (s.disk dev) inum d) }

def setPc (s : State) (p : Pid) (x : Pc) : State := { s with pc := Function.update s.pc p x }

def hold (s : State) (p : Pid) (e : Entry) : State := { s with held := (p, e) :: s.held }

def unhold (s : State) (p : Pid) (e : Entry) : State := { s with held := s.held.erase (p, e) }

end State

open State

/-- The entry for an inode, found or recycled; without a free entry the kernel panics. -/
def igetEntry (s : State) (dev inum : Nat) : Option (Entry × Inode) :=
  match (List.finRange NINODE).find? fun e =>
      decide (0 < (s.inode e).ref ∧ (s.inode e).dev = dev ∧ (s.inode e).inum = inum) with
  | some e => some (e, { s.inode e with ref := (s.inode e).ref + 1 })
  | none =>
    match (List.finRange NINODE).find? fun e => decide ((s.inode e).ref = 0) with
    | some e => some (e, { s.inode e with dev := dev, inum := inum, ref := 1, valid := false })
    | none => none

/-- `iget`, after which `p` goes on at the place that `k` gives for the entry. -/
def iget (s : State) (p : Pid) (dev inum : Nat) (k : Entry → Pc) : Option State :=
  match igetEntry s dev inum with
  | some (e, x) => some (((s.setInode e x).hold p e).setPc p (k e))
  | none => none

def idup (s : State) (p : Pid) (e : Entry) : State :=
  (s.setInode e { s.inode e with ref := (s.inode e).ref + 1 }).hold p e

/-- `ilock` up to the test of `valid`; `acquiresleep` waits until the lock is free. -/
def ilock (s : State) (p : Pid) (e : Entry) (create : Bool) : Option State :=
  if (s.inode e).lock = none then
    let s1 := s.setInode e { s.inode e with lock := some p }
    if (s.inode e).valid then some (s1.setPc p (if create then .init e else .idle))
    else some (s1.setPc p (.ilock e create))
  else none

def ilockRead (s : State) (p : Pid) (e : Entry) (create : Bool) : Option State :=
  let d := s.disk (s.inode e).dev (s.inode e).inum
  if d.type = 0 then none
  else some ((s.setInode e { s.inode e with copy := d, valid := true }).setPc p
    (if create then .init e else .idle))

def iunlock (s : State) (e : Entry) : State := s.setInode e { s.inode e with lock := none }

def update (s : State) (e : Entry) (d : Dinode) : State :=
  (s.setInode e { s.inode e with copy := d }).setDinode (s.inode e).dev (s.inode e).inum d

def drop (s : State) (p : Pid) (e : Entry) : State :=
  ((s.setInode e { s.inode e with ref := (s.inode e).ref - 1 }).unhold p e).setPc p .idle

/-- `iput` up to the place where it releases `itable.lock`. -/
def iput (s : State) (p : Pid) (e : Entry) : Option State :=
  if (s.inode e).ref = 1 ∧ (s.inode e).valid = true ∧ (s.inode e).copy.nlink = 0 then
    if (s.inode e).lock = none then
      some ((s.setInode e { s.inode e with lock := some p }).setPc p (.freeing e))
    else none
  else some (drop s p e)

def iallocTurn (s : State) (p : Pid) (dev : Nat) (type : FileType) (inum : Nat) : State :=
  if inum < s.ninodes then
    if (s.disk dev inum).type = 0 then
      (s.setDinode dev inum { type := type.toNat, nlink := 0 }).setPc p (.iget dev inum)
    else s.setPc p (.ialloc dev type (inum + 1))
  else s.setPc p .idle

/-- What a process can do outside these functions, and (`tau`) the next step inside them. -/
inductive Op where
  | ialloc (dev : Nat) (type : FileType)
  | iget (dev inum : Nat)
  | idup (e : Entry)
  | ilock (e : Entry)
  | iunlock (e : Entry)
  | setNlink (e : Entry) (n : Int)
  | iput (e : Entry)
  | give (q : Pid) (e : Entry)
  | tau
  deriving DecidableEq, Repr

instance : LawfulBEq (Pid × Entry) := Prod.instLawfulBEq

def call (s : State) (p : Pid) : Op → Option State
  | .ialloc dev type => some (s.setPc p (.ialloc dev type 1))
  | .iget dev inum => iget s p dev inum fun _ => .idle
  | .idup e => if (p, e) ∈ s.held then some (idup s p e) else none
  | .ilock e => if (p, e) ∈ s.held then ilock s p e false else none
  | .iunlock e => if (s.inode e).lock = some p then some (iunlock s e) else none
  | .setNlink e n =>
    if (s.inode e).lock = some p then some (update s e { (s.inode e).copy with nlink := n }) else none
  | .iput e => if (p, e) ∈ s.held ∧ (s.inode e).lock ≠ some p then iput s p e else none
  | .give q e =>
    if (p, e) ∈ s.held ∧ (s.inode e).lock ≠ some p then some ((s.unhold p e).hold q e) else none
  | .tau => none

def resume (s : State) (p : Pid) : Pc → Option State
  | .idle => none
  | .ialloc dev type inum => some (iallocTurn s p dev type inum)
  | .iget dev inum => iget s p dev inum .fresh
  | .fresh e => ilock s p e true
  | .ilock e create => ilockRead s p e create
  | .init e => some ((update s e { (s.inode e).copy with nlink := 1 }).setPc p .idle)
  | .freeing e => some ((update s e { (s.inode e).copy with type := 0 }).setPc p (.freed e))
  | .freed e =>
    some ((s.setInode e { s.inode e with valid := false, lock := none }).setPc p (.dropping e))
  | .dropping e => some (drop s p e)

def step (s : State) (ev : Pid × Op) : Option State :=
  match s.pc ev.1, ev.2 with
  | .idle, op => call s ev.1 op
  | pc, .tau => resume s ev.1 pc
  | _, _ => none

def boot (ninodes : Nat) (disk : Nat → Nat → Dinode) : State :=
  { ninodes := ninodes, inode := fun _ => default, disk := disk, pc := fun _ => .idle, held := [] }

end Itable
end Xv6
