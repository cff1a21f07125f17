import Xv6.Param
import Xv6.Lib.Writes

/-!
# Xv6.Log.Model

The redo log of `kernel/log.c`, run by one process on a disk behind the buffer cache.

The state keeps the disk, the cached copies, the in-memory log header and the list of block
writes issued so far: a crash after the `k`-th write leaves the disk with the first `k` of them.
Reading goes through the cache (`bread`), writing goes to the disk and to the cached copy
(`bwrite`). Which buffers are recycled when cannot be seen here: a buffer that is not pinned holds
what the disk holds. The buffers, their pins and the locks are in `Xv6.Bio`.
-/

namespace Xv6
namespace Log

open Bytes Function

structure LogHeader where
  n : Int
  block : Nat → Nat

/-- The fields `log.start` and `log.size` that `initlog` copies from the superblock. The header
block is block `start`; the log area fits the `int` arithmetic of the code. -/
structure Config where
  start : Nat
  size : Nat
  size_pos : 0 < size
  fits : start + size ≤ 2 ^ 31

structure Machine where
  disk : Nat → Block
  cache : Nat → Option Block
  lh : LogHeader
  /-- Block writes issued, oldest first. -/
  writes : List (Nat × Block)

namespace Machine

def bread (m : Machine) (b : Nat) : Block := (m.cache b).getD (m.disk b)

def bwrite (m : Machine) (b : Nat) (v : Block) : Machine :=
  { m with
    disk := update m.disk b v
    cache := update m.cache b (some v)
    writes := m.writes ++ [(b, v)] }

def modify (m : Machine) (b : Nat) (v : Block) : Machine :=
  { m with cache := update m.cache b (some v) }

end Machine

open Machine

/-- The header block with the fields of `lh` stored in it; entries from `n` on stay. -/
def LogHeader.encode (lh : LogHeader) (buf : Block) : Block :=
  (List.range lh.n.toNat).foldl (fun hb i => putLE hb (4 + 4 * i) 4 (lh.block i))
    (putLE buf 0 4 (BitVec.ofInt 32 lh.n).toNat)

def headN (buf : Block) : Int := (BitVec.ofNat 32 (getLE buf 0 4)).toInt

def installTrans (L : Config) (m : Machine) : Machine :=
  (List.range m.lh.n.toNat).foldl
    (fun m' tail => m'.bwrite (m.lh.block tail) (m'.bread (L.start + tail + 1))) m

def readHead (L : Config) (m : Machine) : Machine :=
  let buf := m.bread L.start
  { m with
    lh := { n := headN buf
            block := fun i => if i < (headN buf).toNat then getLE buf (4 + 4 * i) 4
              else m.lh.block i } }

/-- Write the in-memory log header to disk: the point at which the transaction commits. -/
def writeHead (L : Config) (m : Machine) : Machine :=
  m.bwrite L.start (m.lh.encode (m.bread L.start))

def clearN (m : Machine) : Machine := { m with lh := { m.lh with n := 0 } }

def recoverFromLog (L : Config) (m : Machine) : Machine :=
  writeHead L (clearN (installTrans L (readHead L m)))

def writeLog (L : Config) (m : Machine) : Machine :=
  (List.range m.lh.n.toNat).foldl
    (fun m' tail => m'.bwrite (L.start + tail + 1) (m'.bread (m.lh.block tail))) m

def commit (L : Config) (m : Machine) : Machine :=
  if 0 < m.lh.n then writeHead L (clearN (installTrans L (writeHead L (writeLog L m)))) else m

/-- The slot of block `b` in the header, or `n` if it is not there (log absorption). -/
def LogHeader.slot (lh : LogHeader) (b : Nat) : Nat :=
  ((List.range lh.n.toNat).find? fun i => lh.block i == b).getD lh.n.toNat

def LogHeader.add (lh : LogHeader) (b : Nat) : LogHeader :=
  let i := lh.slot b
  { n := if (i : Int) = lh.n then lh.n + 1 else lh.n
    block := update lh.block i b }

/-- Record block `b` in the header; `none` is the panic `too big a transaction`. -/
def logWrite (L : Config) (m : Machine) (b : Nat) : Option Machine :=
  if (LOGSIZE : Int) ≤ m.lh.n ∨ (L.size : Int) - 1 ≤ m.lh.n then none
  else some { m with lh := m.lh.add b }

def logUpdates (L : Config) : List (Nat × Block) → Machine → Option Machine
  | [], m => some m
  | u :: us, m => (logWrite L (m.modify u.1 u.2) u.1).bind (logUpdates L us)

end Log
end Xv6
