import Xv6.Lib.Prog
import Xv6.Fs.Layout
import Mathlib.Data.List.FinRange
import Mathlib.Logic.Function.Basic

/-!
# Xv6.Fs.Model

The file system of `kernel/fs.c`, with the part of `kernel/log.c` that decides which blocks a
transaction may write.

An action is a section under a spin-lock, a section in which a process holds a buffer, or an access
to an inode whose sleep-lock the process holds. `State.disk` is the disk as seen through the buffer
cache; there is one device, so `dev` does not appear. `end_op` commits at once when no operation is
outstanding, since until `commit` returns no other operation begins.

Bytes that go to or come from a process are given by functions: `src i` is the byte at offset `i` of
a source, if it can be read, and `dst i` says whether the byte at offset `i` of a destination can be
written.
-/

namespace Xv6
namespace Fs

open Bytes Prog

abbrev Entry := Fin NINODE
abbrev ProcId := Fin NPROC
abbrev FileId := Fin NFILE
abbrev Fd := Fin NOFILE

/-- `struct inode`. `lock` is the holder of the sleep-lock, `copy` the copy of the dinode. -/
structure Inode where
  inum : Nat
  ref : Nat
  lock : Option ProcId
  valid : Bool
  copy : Dinode
  deriving DecidableEq

inductive FdType where
  | none | pipe | inode | device
  deriving DecidableEq, Repr

structure File where
  type : FdType
  ref : Nat
  readable : Bool
  writable : Bool
  pipe : Nat
  ip : Entry
  off : UInt32
  major : Int16
  deriving DecidableEq

/-- The page of a pipe. `allocs` and `frees` are not in the source: they count how often the page has
been allocated for a pipe and freed. -/
structure Pipe where
  readopen : Bool
  writeopen : Bool
  allocs : Nat
  frees : Nat
  deriving DecidableEq, Repr

structure Proc where
  state : ProcState
  parent : Option ProcId
  ofile : Fd → Option FileId
  cwd : Option Entry
  deriving DecidableEq

/-- `log` is the list of blocks in `log.lh`. `logged` and `ballocs` are not in the source: the blocks
that were passed to `log_write` since the transaction began, and the number of calls of `balloc`. -/
structure State where
  disk : Nat → Block
  log : List Nat
  outstanding : Nat
  logged : List Nat
  ballocs : Nat
  inode : Entry → Inode
  file : FileId → File
  pipe : Nat → Pipe
  proc : ProcId → Proc

abbrev Act (α : Type) := StateT State (Except Stop) α

abbrev Code (α : Type) := Prog State Stop α

def setInode (e : Entry) (f : Inode → Inode) : Act Unit :=
  modify fun s => { s with inode := Function.update s.inode e (f (s.inode e)) }

def copyOf (ip : Entry) : Act Dinode := do
  let s ← get
  pure (s.inode ip).copy

def setCopy (ip : Entry) (f : Dinode → Dinode) : Act Unit :=
  setInode ip fun x => { x with copy := f x.copy }

section

variable (sb : Superblock)

/-! ## Log and buffers -/

def beginOp : Act Unit := do
  let s ← get
  if LOGSIZE < s.log.length + (s.outstanding + 1) * MAXOPBLOCKS then throw .sleep
  else set { s with
    outstanding := s.outstanding + 1
    logged := if s.outstanding = 0 then [] else s.logged }

def endOp : Act Unit := do
  let s ← get
  if s.outstanding - 1 = 0 then set { s with outstanding := 0, log := [] }
  else set { s with outstanding := s.outstanding - 1 }

def logWrite (b : Nat) : Act Unit := do
  modify fun s => { s with logged := s.logged ++ [b] }
  let s ← get
  if LOGSIZE ≤ s.log.length ∨ sb.nlog - 1 ≤ s.log.length then panic "too big a transaction"
  else if s.outstanding < 1 then panic "log_write outside of trans"
  else if b ∈ s.log then pure ()
  else set { s with log := s.log ++ [b] }

def bread (b : Nat) : Act Block := do
  let s ← get
  pure (s.disk b)

def setBlock (b : Nat) (data : Block) : Act Unit :=
  modify fun s => { s with disk := Function.update s.disk b data }

def writeBlock (b : Nat) (data : Block) : Act Unit := do
  setBlock b data
  logWrite sb b

/-! ## Blocks -/

def bzero (bno : Nat) : Act Unit := writeBlock sb bno zeroBlock

/-- The inner loop of `balloc`: the first free block of the bitmap block for `b`, marked in use. -/
def ballocIn (b : Nat) : Act (Option Nat) := do
  let bp ← bread (sb.bblock b)
  match (List.range' 0 BPB).find? fun bi => decide (b + bi < sb.size) && !bit bp bi with
  | some bi =>
    writeBlock sb (sb.bblock b) (setBit bp bi)
    pure (some (b + bi))
  | none => pure none

/-- The loop of `balloc` from block `b` on. -/
def ballocLoop : Nat → Nat → Code UInt32
  | 0, _ => pure 0
  | n + 1, b =>
    if b < sb.size then do
      match ← atomic (ballocIn sb b) with
      | some bno =>
        atomic (bzero sb bno)
        pure (UInt32.ofNat bno)
      | none => ballocLoop n (b + BPB)
    else pure 0

def balloc : Code UInt32 := do
  atomic (modify fun s => { s with ballocs := s.ballocs + 1 })
  ballocLoop sb (sb.size / BPB + 1) 0

def bfree (b : UInt32) : Act Unit := do
  let bp ← bread (sb.bblock b.toNat)
  if bit bp (b.toNat % BPB) = false then panic "freeing free block"
  else writeBlock sb (sb.bblock b.toNat) (clearBit bp (b.toNat % BPB))

/-! ## Inodes -/

def iget (inum : Nat) : Act Entry := do
  let s ← get
  match (List.finRange NINODE).find? fun e => decide (0 < (s.inode e).ref ∧ (s.inode e).inum = inum) with
  | some ip =>
    setInode ip fun x => { x with ref := x.ref + 1 }
    pure ip
  | none =>
    match (List.finRange NINODE).find? fun e => decide ((s.inode e).ref = 0) with
    | some ip =>
      setInode ip fun x => { x with inum := inum, ref := 1, valid := false }
      pure ip
    | none => panic "iget: no inodes"

def idup (ip : Entry) : Act Unit := setInode ip fun x => { x with ref := x.ref + 1 }

/-- One turn of the loop of `ialloc`: whether dinode `inum` was free and is now allocated. -/
def iallocAt (type : Int16) (inum : Nat) : Act Bool := do
  let bp ← bread (sb.iblock inum)
  if (getDinode bp (inum % IPB)).type = 0 then do
    writeBlock sb (sb.iblock inum) (putDinode bp (inum % IPB) (.ofType type))
    pure true
  else pure false

def iallocLoop (type : Int16) : Nat → Nat → Code (Option Entry)
  | 0, _ => pure none
  | n + 1, inum => do
    if ← atomic (iallocAt sb type inum) then do
      let ip ← atomic (iget inum)
      pure (some ip)
    else iallocLoop type n (inum + 1)

def ialloc (type : Int16) : Code (Option Entry) := iallocLoop sb type (sb.ninodes - 1) 1

def iupdate (ip : Entry) : Act Unit := do
  let s ← get
  let x := s.inode ip
  let bp ← bread (sb.iblock x.inum)
  writeBlock sb (sb.iblock x.inum) (putDinode bp (x.inum % IPB) x.copy)

/-- `acquiresleep(&ip->lock)` in `ilock`. -/
def ilockAcquire (p : ProcId) (ip : Entry) : Act Unit := do
  let s ← get
  if (s.inode ip).ref < 1 then panic "ilock"
  else if (s.inode ip).lock ≠ none then throw .sleep
  else setInode ip fun x => { x with lock := some p }

/-- `ilock` when `ip->valid == 0`. -/
def ilockRead (ip : Entry) : Act Unit := do
  let s ← get
  let bp ← bread (sb.iblock (s.inode ip).inum)
  let d := getDinode bp ((s.inode ip).inum % IPB)
  if d.type = 0 then panic "ilock: no type"
  else setInode ip fun x => { x with copy := d, valid := true }

def validOf (ip : Entry) : Act Bool := do
  let s ← get
  pure (s.inode ip).valid

def ilock (p : ProcId) (ip : Entry) : Code Unit := do
  atomic (ilockAcquire p ip)
  if ← atomic (validOf ip) then pure ()
  else atomic (ilockRead sb ip)

def iunlock (p : ProcId) (ip : Entry) : Act Unit := do
  let s ← get
  if (s.inode ip).lock ≠ some p ∨ (s.inode ip).ref < 1 then panic "iunlock"
  else setInode ip fun x => { x with lock := none }

/-! ## Truncation -/

/-- One turn of the loop over the direct blocks in `itrunc`. -/
def itruncAt (ip : Entry) (i : Nat) : Code Unit := do
  let d ← atomic (copyOf ip)
  if d.addr i ≠ 0 then do
    atomic (bfree sb (d.addr i))
    atomic (setCopy ip fun d => d.setAddr i 0)
  else pure ()

def itruncDirect (ip : Entry) : Nat → Nat → Code Unit
  | 0, _ => pure ()
  | n + 1, i => do
    itruncAt sb ip i
    itruncDirect ip n (i + 1)

def itruncEntry (bp : Block) (j : Nat) : Code Unit :=
  if getAddr bp j ≠ 0 then atomic (bfree sb (getAddr bp j)) else pure ()

/-- The loop over the entries of the indirect block, whose buffer `itrunc` holds. -/
def itruncEntries (bp : Block) : Nat → Nat → Code Unit
  | 0, _ => pure ()
  | n + 1, j => do
    itruncEntry sb bp j
    itruncEntries bp n (j + 1)

def itruncIndirect (ip : Entry) : Code Unit := do
  let d ← atomic (copyOf ip)
  if d.addr NDIRECT ≠ 0 then do
    let bp ← atomic (bread (d.addr NDIRECT).toNat)
    itruncEntries sb bp NINDIRECT 0
    atomic (bfree sb (d.addr NDIRECT))
    atomic (setCopy ip fun d => d.setAddr NDIRECT 0)
  else pure ()

def itrunc (ip : Entry) : Code Unit := do
  itruncDirect sb ip NDIRECT 0
  itruncIndirect sb ip
  atomic (setCopy ip fun d => { d with size := 0 })
  atomic (iupdate sb ip)

/-- `ip->ref--` at the end of `iput`. -/
def iputDrop (ip : Entry) : Act Unit := setInode ip fun x => { x with ref := x.ref - 1 }

/-- `iput` up to the place where it releases `itable.lock`: whether the inode is to be freed. -/
def iputTest (p : ProcId) (ip : Entry) : Act Bool := do
  let s ← get
  let x := s.inode ip
  if x.ref = 1 ∧ x.valid = true ∧ x.copy.nlink = 0 then
    if x.lock ≠ none then throw .sleep
    else do
      setInode ip fun x => { x with lock := some p }
      pure true
  else do
    iputDrop ip
    pure false

/-- Truncate and free, in `iput`. -/
def iputFree (ip : Entry) : Code Unit := do
  itrunc sb ip
  atomic (setCopy ip fun d => { d with type := 0 })
  atomic (iupdate sb ip)
  atomic (setInode ip fun x => { x with valid := false })
  atomic (setInode ip fun x => { x with lock := none })
  atomic (iputDrop ip)

def iput (p : ProcId) (ip : Entry) : Code Unit := do
  if ← atomic (iputTest p ip) then iputFree sb ip
  else pure ()

def iunlockput (p : ProcId) (ip : Entry) : Code Unit := do
  atomic (iunlock p ip)
  iput sb p ip

/-! ## Inode content -/

/-- `addr = a[bn]` in the indirect block `ind`, allocated when it is 0. -/
def bmapEntry (ind : UInt32) (bn : Nat) : Code UInt32 := do
  let bp ← atomic (bread ind.toNat)
  if getAddr bp bn = 0 then do
    let addr ← balloc sb
    if addr ≠ 0 then do
      atomic (do
        let bp ← bread ind.toNat
        writeBlock sb ind.toNat (putAddr bp bn addr))
      pure addr
    else pure addr
  else pure (getAddr bp bn)

/-- `addr = ip->addrs[i]`, allocated when it is 0. -/
def bmapAddr (ip : Entry) (i : Nat) : Code UInt32 := do
  let d ← atomic (copyOf ip)
  if d.addr i = 0 then do
    let addr ← balloc sb
    if addr = 0 then pure 0
    else do
      atomic (setCopy ip fun d => d.setAddr i addr)
      pure addr
  else pure (d.addr i)

def bmap (ip : Entry) (bn : Nat) : Code UInt32 :=
  if bn < NDIRECT then bmapAddr sb ip bn
  else if bn - NDIRECT < NINDIRECT then do
    let ind ← bmapAddr sb ip NDIRECT
    if ind = 0 then pure 0
    else bmapEntry sb ind (bn - NDIRECT)
  else atomic (panic "bmap: out of range")

/-- The loop of `readi`: the return value and the bytes that were copied out. -/
def readiLoop (ip : Entry) (dst : Nat → Bool) (n : Nat) : Nat → Nat → Nat → List UInt8 → Code (Int × List UInt8)
  | 0, _, tot, out => pure (tot, out)
  | fuel + 1, off, tot, out =>
    if tot < n then do
      let addr ← bmap sb ip (off / BSIZE)
      if addr = 0 then pure (tot, out)
      else do
        let bp ← atomic (bread addr.toNat)
        let m := min (n - tot) (BSIZE - off % BSIZE)
        if (List.range' tot m).all dst then
          readiLoop ip dst n fuel (off + m) (tot + m) (out ++ slice bp (off % BSIZE) m)
        else pure (-1, out)
    else pure (tot, out)

def readi (ip : Entry) (dst : Nat → Bool) (off n : UInt32) : Code (Int × List UInt8) := do
  let d ← atomic (copyOf ip)
  if d.size < off ∨ off + n < off then pure (0, [])
  else
    let n := if d.size < off + n then d.size - off else n
    readiLoop sb ip dst n.toNat n.toNat off.toNat 0 []

def fetch (src : Nat → Option UInt8) : Nat → Nat → List UInt8
  | 0, _ => []
  | m + 1, i =>
    match src i with
    | some c => c :: fetch src m (i + 1)
    | none => []

/-- `either_copyin` of `m` bytes into the buffer of block `addr`, and `log_write` if it succeeded. -/
def copyinBlock (addr off m : Nat) (data : List UInt8) : Act Bool := do
  let bp ← bread addr
  setBlock addr (putBytes bp off data)
  if data.length < m then pure false
  else do
    logWrite sb addr
    pure true

/-- The loop of `writei`: the values of `off` and `tot` after it. -/
def writeiLoop (ip : Entry) (src : Nat → Option UInt8) (n : Nat) : Nat → Nat → Nat → Code (Nat × Nat)
  | 0, off, tot => pure (off, tot)
  | fuel + 1, off, tot =>
    if tot < n then do
      let addr ← bmap sb ip (off / BSIZE)
      if addr = 0 then pure (off, tot)
      else do
        let m := min (n - tot) (BSIZE - off % BSIZE)
        if ← atomic (copyinBlock sb addr.toNat (off % BSIZE) m (fetch src m tot)) then
          writeiLoop ip src n fuel (off + m) (tot + m)
        else pure (off, tot)
    else pure (off, tot)

def Dinode.grow (d : Dinode) (off : Nat) : Dinode :=
  if d.size.toNat < off then { d with size := UInt32.ofNat off } else d

def writei (ip : Entry) (src : Nat → Option UInt8) (off n : UInt32) : Code Int := do
  let d ← atomic (copyOf ip)
  if d.size < off ∨ off + n < off then pure (-1)
  else if MAXFILE * BSIZE < (off + n).toNat then pure (-1)
  else do
    let r ← writeiLoop sb ip src n.toNat n.toNat off.toNat 0
    atomic (setCopy ip fun d => d.grow r.1)
    atomic (iupdate sb ip)
    pure r.2

/-! ## Directories -/

/-- `strncmp` of `kernel/string.c` from index `i` on. -/
def strncmp (p q : Nat → UInt8) : Nat → Nat → Int
  | 0, _ => 0
  | n + 1, i => if p i ≠ 0 ∧ p i = q i then strncmp p q n (i + 1) else (p i).toNat - (q i).toNat

/-- `strncpy` of `kernel/string.c`: the bytes it stores from index `i` on. -/
def strncpy (t : Nat → UInt8) : Nat → Nat → List UInt8
  | 0, _ => []
  | n + 1, i => if t i ≠ 0 then t i :: strncpy t n (i + 1) else List.replicate (n + 1) 0

def namecmp (s t : Nat → UInt8) : Int := strncmp s t DIRSIZ 0

def readDirent (ip : Entry) (off : Nat) (msg : String) : Code Dirent := do
  let r ← readi sb ip (fun _ => true) (UInt32.ofNat off) (UInt32.ofNat DIRENT)
  if r.1 ≠ DIRENT then atomic (panic msg)
  else pure (Dirent.dec r.2)

def dirlookupLoop (dp : Entry) (name : Nat → UInt8) : Nat → Nat → Code (Option (Entry × Nat))
  | 0, _ => pure none
  | n + 1, off => do
    let d ← atomic (copyOf dp)
    if off < d.size.toNat then do
      let de ← readDirent sb dp off "dirlookup read"
      if de.inum ≠ 0 ∧ namecmp name (byte de.name) = 0 then do
        let ip ← atomic (iget de.inum.toNat)
        pure (some (ip, off))
      else dirlookupLoop dp name n (off + DIRENT)
    else pure none

/-- The entry and `*poff`. -/
def dirlookup (dp : Entry) (name : Nat → UInt8) : Code (Option (Entry × Nat)) := do
  let d ← atomic (copyOf dp)
  if d.type ≠ T_DIR then atomic (panic "dirlookup not DIR")
  else dirlookupLoop sb dp name (d.size.toNat / DIRENT + 1) 0

/-- The loop of `dirlink` that looks for an empty entry. -/
def dirlinkLoop (dp : Entry) : Nat → Nat → Code Nat
  | 0, off => pure off
  | n + 1, off => do
    let d ← atomic (copyOf dp)
    if off < d.size.toNat then do
      let de ← readDirent sb dp off "dirlink read"
      if de.inum = 0 then pure off
      else dirlinkLoop dp n (off + DIRENT)
    else pure off

def writeDirent (dp : Entry) (off : Nat) (de : Dirent) : Code Int :=
  writei sb dp (fun i => de.enc[i]?) (UInt32.ofNat off) (UInt32.ofNat DIRENT)

def dirlink (p : ProcId) (dp : Entry) (name : Nat → UInt8) (inum : Nat) : Code Int := do
  match ← dirlookup sb dp name with
  | some (ip, _) =>
    iput sb p ip
    pure (-1)
  | none =>
    let d ← atomic (copyOf dp)
    let off ← dirlinkLoop sb dp (d.size.toNat / DIRENT + 1) 0
    let de : Dirent :=
      { inum := UInt16.ofNat inum, name := fun j => (strncpy name DIRSIZ 0).getD j 0 }
    let r ← writeDirent sb dp off de
    if r ≠ DIRENT then pure (-1) else pure 0

/-! ## Paths -/

abbrev SLASH : UInt8 := 47

/-- The rest of the path and the next element; a path ends where the list ends. -/
def skipelem (path : List UInt8) (name : Name) : Option (List UInt8 × Name) :=
  let s := path.dropWhile (· = SLASH)
  if s = [] then none
  else
    let elem := s.takeWhile (· ≠ SLASH)
    let rest := (s.dropWhile (· ≠ SLASH)).dropWhile (· = SLASH)
    if DIRSIZ ≤ elem.length then some (rest, putBytes name 0 (elem.take DIRSIZ))
    else some (rest, putBytes name 0 (elem ++ [0]))

def namexLoop (p : ProcId) (nameiparent : Bool) : Nat → Entry → List UInt8 → Name → Code (Option (Entry × Name))
  | 0, _, _, _ => pure none
  | n + 1, ip, path, name =>
    match skipelem path name with
    | none =>
      if nameiparent then do
        iput sb p ip
        pure none
      else pure (some (ip, name))
    | some (path, name) => do
      ilock sb p ip
      let d ← atomic (copyOf ip)
      if d.type ≠ T_DIR then do
        iunlockput sb p ip
        pure none
      else if nameiparent ∧ path = [] then do
        atomic (iunlock p ip)
        pure (some (ip, name))
      else do
        match ← dirlookup sb ip (byte name) with
        | none =>
          iunlockput sb p ip
          pure none
        | some (next, _) =>
          iunlockput sb p ip
          namexLoop p nameiparent n next path name

def idupCwd (p : ProcId) : Act Entry := do
  let s ← get
  match (s.proc p).cwd with
  | some ip =>
    idup ip
    pure ip
  | none => panic "kerneltrap"

def namexStart (p : ProcId) (path : List UInt8) : Act Entry :=
  if path.head? = some SLASH then iget ROOTINO else idupCwd p

/-- The array `name` is not initialised by the callers. -/
def namex (p : ProcId) (path : List UInt8) (nameiparent : Bool) : Code (Option (Entry × Name)) := do
  let ip ← atomic (namexStart p path)
  namexLoop sb p nameiparent (path.length + 1) ip path fun _ => 0

def namei (p : ProcId) (path : List UInt8) : Code (Option Entry) := do
  let r ← namex sb p path false
  pure (r.map Prod.fst)

def nameiparent (p : ProcId) (path : List UInt8) : Code (Option (Entry × Name)) := namex sb p path true

end

end Fs
end Xv6
