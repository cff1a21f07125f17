import Xv6.Lib.Fifo
import Xv6.Lib.Trans
import Xv6.Lib.Wp

/-!
# Xv6.Virtio.Model

The disk driver, `kernel/virtio_disk.c`, with the device it talks to. Any number of processes `P` is in
`virtio_disk_rw`, each with a buffer whose sleep-lock it holds; `virtio_disk_intr` runs when there is an
interrupt. Both hold `vdisk_lock`, but the device needs no lock: it may do something between any two
steps of the driver, which are therefore the steps that the device can tell apart.

The device takes the entries of the avail ring in their order, and completes what it has taken in any
order: it follows the chain of descriptors, stores 0 where the last one says, puts the head into the used
ring and advances `used->idx`. The indices of both rings have 16 bits.

`completed` is not in the source: the chain heads that the device has completed since they were last
formatted.
-/

namespace Xv6
namespace Virtio

open Wp Function

abbrev NUM : Nat := 8
abbrev BSIZE : Nat := 1024

abbrev VRING_DESC_F_NEXT : BitVec 16 := 1
abbrev VRING_DESC_F_WRITE : BitVec 16 := 2

/-- What the address in a descriptor points to: `disk.ops[i]`, `b->data` or `disk.info[i].status`. -/
inductive Addr (B : Type)
  | null
  | ops (i : Nat)
  | data (b : B)
  | status (i : Nat)
  deriving DecidableEq, Repr

structure Desc (B : Type) where
  addr : Addr B
  len : Nat
  flags : BitVec 16
  next : Nat
  deriving DecidableEq, Repr

inductive BlkType
  | blkIn
  | blkOut
  deriving DecidableEq, Repr

structure BlkReq where
  type : BlkType
  reserved : Nat
  sector : BitVec 64
  deriving DecidableEq, Repr

/-- `struct virtq_avail` and `struct virtq_used`: an index and a ring of chain heads. -/
structure Ring where
  idx : BitVec 16
  ring : Nat → Nat

/-- A request with its three descriptors `idx[0]`, `idx[1]` and `idx[2]`. -/
structure Req (B : Type) where
  b : B
  write : Bool
  i0 : Nat
  i1 : Nat
  i2 : Nat
  deriving DecidableEq, Repr

def Req.ids {B : Type} (r : Req B) : List Nat := [r.i0, r.i1, r.i2]

inductive Pc (B : Type)
  | out
  /-- About to acquire `vdisk_lock`, at the start or in `sleep`, in order to call `alloc3_desc`. -/
  | want (b : B) (write : Bool)
  | alloc (b : B) (write : Bool)
  /-- Sleeping on `&disk.free[0]`. -/
  | asleep (b : B) (write : Bool)
  | format (r : Req B)
  /-- About to store the head in the avail ring, and to advance `avail->idx`. -/
  | ring (r : Req B)
  | publish (r : Req B)
  /-- At the test `b->disk == 1`. -/
  | test (r : Req B)
  /-- Sleeping on `b`, and about to acquire `vdisk_lock` again. -/
  | waiting (r : Req B)
  | rewait (r : Req B)
  /-- Behind the loop, about to free the descriptors. -/
  | finish (r : Req B)
  deriving DecidableEq, Repr

inductive Chan (B : Type)
  | free
  | buf (b : B)
  deriving DecidableEq, Repr

section

variable {B : Type}

def Pc.chan : Pc B → Option (Chan B)
  | .asleep _ _ => some .free
  | .waiting r => some (.buf r.b)
  | _ => none

def Pc.woken : Pc B → Pc B
  | .asleep b w => .want b w
  | .waiting r => .rewait r
  | x => x

def Pc.locked : Pc B → Bool
  | .alloc _ _ | .format _ | .ring _ | .publish _ | .test _ | .finish _ => true
  | _ => false

def Pc.buf : Pc B → Option B
  | .out => none
  | .want b _ | .alloc b _ | .asleep b _ => some b
  | .format r | .ring r | .publish r | .test r | .waiting r | .rewait r | .finish r => some r.b

/-- The request in progress, from the allocation of its descriptors until they are freed. -/
def Pc.req : Pc B → Option (Req B)
  | .out | .want _ _ | .alloc _ _ | .asleep _ _ => none
  | .format r | .ring r | .publish r | .test r | .waiting r | .rewait r | .finish r => some r

end

inductive Holder (P : Type)
  | proc (p : P)
  | intr
  deriving DecidableEq, Repr

structure State (P B : Type) where
  desc : Nat → Desc B
  avail : Ring
  used : Ring
  free : Nat → Bool
  usedIdx : BitVec 16
  /-- `info[i].b` and `info[i].status` -/
  infoB : Nat → Option B
  status : Nat → BitVec 8
  ops : Nat → BlkReq
  lock : Option (Holder P)
  /-- `b->disk` -/
  disk : B → Bool
  /-- The process that holds the sleep-lock of a buffer. -/
  holder : B → Option P
  pc : P → Pc B
  /-- The device: how far it has read the avail ring, and what it has taken and not completed. -/
  seen : BitVec 16
  flight : List Nat
  completed : Nat → Bool

abbrev M (P B : Type) := StateT (State P B) (Except String)

section

variable {P B : Type} [DecidableEq B]

def wake (c : Chan B) (pc : P → Pc B) : P → Pc B := fun p => if (pc p).chan = some c then (pc p).woken else pc p

def allocDesc : M P B (Option Nat) := do
  let s ← get
  match (List.range NUM).find? s.free with
  | some i =>
    set { s with free := update s.free i false }
    pure (some i)
  | none => pure none

def zeroDesc : Desc B := ⟨.null, 0, 0, 0⟩

def freeDesc (i : Nat) : M P B Unit := do
  let s ← get
  if i ≥ NUM then throw "free_desc 1"
  else if s.free i then throw "free_desc 2"
  else
    set { s with
      desc := update s.desc i zeroDesc
      free := update s.free i true
      pc := wake .free s.pc }

/-- `free_chain`. Every turn frees a descriptor or panics, so `NUM + 1` turns are enough. -/
def freeChain : Nat → Nat → M P B Unit
  | 0, _ => throw "free_chain"
  | n + 1, i => do
    let s ← get
    freeDesc i
    if (s.desc i).flags &&& VRING_DESC_F_NEXT ≠ 0 then freeChain n (s.desc i).next else pure ()

def alloc3Desc : M P B (Option (Nat × Nat × Nat)) := do
  match ← allocDesc with
  | none => pure none
  | some i0 =>
    match ← allocDesc with
    | none =>
      freeDesc i0
      pure none
    | some i1 =>
      match ← allocDesc with
      | none =>
        freeDesc i0
        freeDesc i1
        pure none
      | some i2 => pure (some (i0, i1, i2))

/-- What the device finds in the three descriptors of a request. -/
def Req.desc (r : Req B) (i : Nat) : Desc B :=
  if i = r.i0 then ⟨.ops r.i0, 16, VRING_DESC_F_NEXT, r.i1⟩
  else if i = r.i1 then
    ⟨.data r.b, BSIZE, (if r.write then 0 else VRING_DESC_F_WRITE) ||| VRING_DESC_F_NEXT, r.i2⟩
  else ⟨.status r.i0, 1, VRING_DESC_F_WRITE, 0⟩

/-- `b->blockno * (BSIZE / 512)` has 32 bits. -/
def Req.op (blockno : B → BitVec 32) (r : Req B) : BlkReq :=
  ⟨if r.write then .blkOut else .blkIn, 0, (blockno r.b * BitVec.ofNat 32 (BSIZE / 512)).setWidth 64⟩

/-- Format the three descriptors, and record the buffer for `virtio_disk_intr`. -/
def format (blockno : B → BitVec 32) (r : Req B) (s : State P B) : State P B :=
  { s with
    ops := update s.ops r.i0 (r.op blockno)
    desc := fun i => if i ∈ r.ids then r.desc i else s.desc i
    status := update s.status r.i0 0xff
    disk := update s.disk r.b true
    infoB := update s.infoB r.i0 (some r.b)
    completed := update s.completed r.i0 false }

/-- `disk.avail->ring[disk.avail->idx % NUM] = idx[0];` -/
def putRing (h : Nat) (s : State P B) : State P B :=
  { s with avail.ring := update s.avail.ring (s.avail.idx.toNat % NUM) h }

/-- Why a step is not taken: it has to wait, or the kernel panics. -/
inductive Halt
  | blocked
  | panic (msg : String)
  deriving DecidableEq, Repr

variable [DecidableEq P]

def State.goto (s : State P B) (p : P) (x : Pc B) : State P B := { s with pc := update s.pc p x }

def acquire (s : State P B) (p : P) (x : Pc B) : Except Halt (State P B) :=
  if s.lock = none then .ok ({ s with lock := some (.proc p) }.goto p x) else .error .blocked

/-- `release(&disk.vdisk_lock)`, in `sleep` or at the end. -/
def State.release (s : State P B) (p : P) (x : Pc B) : State P B := { s with lock := none }.goto p x

/-- The next step of process `p` in `virtio_disk_rw`. -/
def go (blockno : B → BitVec 32) (s : State P B) (p : P) : Except Halt (State P B) :=
  match s.pc p with
  | .out | .asleep _ _ | .waiting _ => .error .blocked
  | .want b w => acquire s p (.alloc b w)
  | .alloc b w =>
    match alloc3Desc s with
    | .ok (some (i0, i1, i2), s') => .ok (s'.goto p (.format ⟨b, w, i0, i1, i2⟩))
    | .ok (none, s') => .ok (s'.release p (.asleep b w))
    | .error m => .error (.panic m)
  | .format r => .ok ((format blockno r s).goto p (.ring r))
  | .ring r => .ok ((putRing r.i0 s).goto p (.publish r))
  | .publish r => .ok ({ s with avail.idx := s.avail.idx + 1 }.goto p (.test r))
  | .test r => if s.disk r.b then .ok (s.release p (.waiting r)) else .ok (s.goto p (.finish r))
  | .rewait r => acquire s p (.test r)
  | .finish r =>
    match freeChain (NUM + 1) r.i0 { s with infoB := update s.infoB r.i0 none } with
    | .ok (_, s') => .ok (s'.release p .out)
    | .error m => .error (.panic m)

/-- The next step of `virtio_disk_intr`: it begins, looks at an entry of the used ring, or ends. -/
def intr (s : State P B) : Except Halt (State P B) :=
  match s.lock with
  | none => .ok { s with lock := some .intr }
  | some (.proc _) => .error .blocked
  | some .intr =>
    if s.usedIdx = s.used.idx then .ok { s with lock := none }
    else
      let id := s.used.ring (s.usedIdx.toNat % NUM)
      if s.status id ≠ 0 then .error (.panic "virtio_disk_intr status")
      else
        match s.infoB id with
        | none => .error (.panic "null buffer")
        | some b =>
          .ok { s with
            disk := update s.disk b false
            pc := wake (.buf b) s.pc
            usedIdx := s.usedIdx + 1 }

/-- The device takes the next entry of the avail ring. -/
def take (s : State P B) : Except Halt (State P B) :=
  if s.seen = s.avail.idx then .error .blocked
  else .ok { s with seen := s.seen + 1, flight := s.flight ++ [s.avail.ring (s.seen.toNat % NUM)] }

/-- The device writes the status 0 to where the last descriptor of a chain points. -/
def writeStatus (desc : Nat → Desc B) (h : Nat) (status : Nat → BitVec 8) : Nat → BitVec 8 :=
  match (desc (desc (desc h).next).next).addr with
  | .status i => update status i 0
  | _ => status

/-- The device completes the request with head `h`. -/
def complete (s : State P B) (h : Nat) : Except Halt (State P B) :=
  if h ∉ s.flight then .error .blocked
  else
    .ok { s with
      status := writeStatus s.desc h s.status
      flight := s.flight.erase h
      used := ⟨s.used.idx + 1, update s.used.ring (s.used.idx.toNat % NUM) h⟩
      completed := update s.completed h true }

/-- What happens next: a process locks or unlocks a buffer, calls `virtio_disk_rw`, does the next step
there, or is woken by `kill`; there is a step of `virtio_disk_intr` or of the device. -/
inductive Event (P B : Type)
  | acquiresleep (p : P) (b : B)
  | releasesleep (p : P) (b : B)
  | call (p : P) (b : B) (write : Bool)
  | go (p : P)
  | kill (p : P)
  | intr
  | take
  | complete (h : Nat)
  deriving DecidableEq, Repr

def exec (blockno : B → BitVec 32) (s : State P B) : Event P B → Except Halt (State P B)
  | .acquiresleep p b =>
    if s.holder b = none then .ok { s with holder := update s.holder b (some p) } else .error .blocked
  | .releasesleep p b =>
    if s.holder b = some p ∧ s.pc p = .out then .ok { s with holder := update s.holder b none }
    else .error .blocked
  | .call p b w => if s.holder b = some p ∧ s.pc p = .out then .ok (s.goto p (.want b w)) else .error .blocked
  | .go p => go blockno s p
  | .kill p => .ok (s.goto p (s.pc p).woken)
  | .intr => intr s
  | .take => take s
  | .complete h => complete s h

def step (blockno : B → BitVec 32) (s : State P B) (e : Event P B) : Option (State P B) := (exec blockno s e).toOption

end

/-- After `virtio_disk_init`: the memory of the rings is zero and all descriptors are free. -/
def start (P B : Type) : State P B where
  desc _ := ⟨.null, 0, 0, 0⟩
  avail := ⟨0, fun _ => 0⟩
  used := ⟨0, fun _ => 0⟩
  free _ := true
  usedIdx := 0
  infoB _ := none
  status _ := 0
  ops _ := ⟨.blkIn, 0, 0⟩
  lock := none
  disk _ := false
  holder _ := none
  pc _ := .out
  seen := 0
  flight := []
  completed _ := false

end Virtio
end Xv6
