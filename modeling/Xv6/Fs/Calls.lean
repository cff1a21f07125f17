import Xv6.Fs.Model

/-!
# Xv6.Fs.Calls

The system calls on files: `kernel/sysfile.c`, `kernel/file.c`, the pipes of `kernel/pipe.c` as far as
they are opened and closed, and what `fork`, `exec`, `exit` and `wait` do to files and directories.

What happens in memory is left open: whether `kalloc` finds a page, whether a copy to or from the
process succeeds, and the bytes of user memory are arguments of the calls. Reading and writing pipes
and devices is not modelled; `io` is what such a call returns. A process is named by its slot, also in
the value that `fork` and `wait` return.
-/

namespace Xv6
namespace Fs

open Bytes Prog Function

abbrev NDEV : Int16 := 10

abbrev O_WRONLY : UInt32 := 0x001
abbrev O_RDWR : UInt32 := 0x002
abbrev O_CREATE : UInt32 := 0x200
abbrev O_TRUNC : UInt32 := 0x400

def setFile (f : FileId) (g : File → File) : Act Unit :=
  modify fun s => { s with file := update s.file f (g (s.file f)) }

def setProc (p : ProcId) (g : Proc → Proc) : Act Unit :=
  modify fun s => { s with proc := update s.proc p (g (s.proc p)) }

def setPipe (pi : Nat) (g : Pipe → Pipe) : Act Unit :=
  modify fun s => { s with pipe := update s.pipe pi (g (s.pipe pi)) }

def setOfile (p : ProcId) (fd : Fd) (f : Option FileId) : Act Unit :=
  setProc p fun q => { q with ofile := update q.ofile fd f }

/-- The string at the start of user memory `mem`, if it ends within `n` bytes. -/
def fetchstr (mem : Nat → Option UInt8) : Nat → Nat → Option (List UInt8)
  | 0, _ => none
  | n + 1, i =>
    match mem i with
    | none => none
    | some c => if c = 0 then some [] else (fetchstr mem n (i + 1)).map (c :: ·)

def argstr (mem : Nat → Option UInt8) : Option (List UInt8) := fetchstr mem MAXPATH 0

section

variable (sb : Superblock)

/-! ## Open files -/

def filealloc : Act (Option FileId) := do
  let s ← get
  match (List.finRange NFILE).find? fun f => decide ((s.file f).ref = 0) with
  | some f =>
    setFile f fun x => { x with ref := 1 }
    pure (some f)
  | none => pure none

def filedup (f : FileId) : Act Unit := do
  let s ← get
  if (s.file f).ref < 1 then panic "filedup"
  else setFile f fun x => { x with ref := x.ref + 1 }

/-- `pipeclose`, with `kfree` when both ends are closed. -/
def pipeclose (pi : Nat) (writable : Bool) : Act Unit := do
  setPipe pi fun x => if writable then { x with writeopen := false } else { x with readopen := false }
  let s ← get
  if (s.pipe pi).readopen = false ∧ (s.pipe pi).writeopen = false then
    setPipe pi fun x => { x with frees := x.frees + 1 }
  else pure ()

/-- `fileclose` up to the place where it releases `ftable.lock`: the file if it is to be closed. -/
def filecloseDrop (f : FileId) : Act (Option File) := do
  let s ← get
  if (s.file f).ref < 1 then panic "fileclose"
  else if 0 < (s.file f).ref - 1 then do
    setFile f fun x => { x with ref := x.ref - 1 }
    pure none
  else do
    setFile f fun x => { x with ref := 0, type := .none }
    pure (some (s.file f))

/-- `iput` in a transaction of its own. -/
def iputOp (p : ProcId) (ip : Entry) : Code Unit := do
  atomic beginOp
  iput sb p ip
  atomic endOp

def fileclose (p : ProcId) (f : FileId) : Code Unit := do
  match ← atomic (filecloseDrop f) with
  | none => pure ()
  | some ff =>
    match ff.type with
    | .pipe => atomic (pipeclose ff.pipe ff.writable)
    | .inode => iputOp sb p ff.ip
    | .device => iputOp sb p ff.ip
    | .none => pure ()

def fileOf (f : FileId) : Act File := do
  let s ← get
  pure (s.file f)

/-- `copied` says whether `copyout` of the `struct stat` succeeds. -/
def filestat (p : ProcId) (f : FileId) (copied : Bool) : Code Int := do
  let x ← atomic (fileOf f)
  if x.type = .inode ∨ x.type = .device then do
    ilock sb p x.ip
    atomic (iunlock p x.ip)
    if copied then pure 0 else pure (-1)
  else pure (-1)

def advance (f : FileId) (r : Int) : Act Unit :=
  if 0 < r then setFile f fun x => { x with off := x.off + UInt32.ofNat r.toNat } else pure ()

def fileread (p : ProcId) (f : FileId) (dst : Nat → Bool) (n : Int32) (io : Int) : Code Int := do
  let x ← atomic (fileOf f)
  if x.readable = false then pure (-1)
  else
    match x.type with
    | .pipe => pure io
    | .device => pure io
    | .inode => do
      ilock sb p x.ip
      let y ← atomic (fileOf f)
      let r ← readi sb x.ip dst y.off n.toUInt32
      atomic (advance f r.1)
      atomic (iunlock p x.ip)
      pure r.1
    | .none => atomic (panic "fileread")

/-- One chunk of `filewrite`, a transaction: `n1` bytes from offset `i` of the source. -/
def filewriteChunk (p : ProcId) (f : FileId) (src : Nat → Option UInt8) (i n1 : Nat) : Code Int := do
  let x ← atomic (fileOf f)
  atomic beginOp
  ilock sb p x.ip
  let y ← atomic (fileOf f)
  let r ← writei sb x.ip (fun j => src (i + j)) y.off (UInt32.ofNat n1)
  atomic (advance f r)
  atomic (iunlock p x.ip)
  atomic endOp
  pure r

abbrev CHUNK : Nat := (MAXOPBLOCKS - 1 - 1 - 2) / 2 * BSIZE

/-- The loop of `filewrite` for `n` bytes: the value of `i` after it. -/
def filewriteLoop (p : ProcId) (f : FileId) (src : Nat → Option UInt8) (n : Nat) : Nat → Nat → Code Nat
  | 0, i => pure i
  | fuel + 1, i =>
    if i < n then do
      let n1 := min (n - i) CHUNK
      let r ← filewriteChunk sb p f src i n1
      if r ≠ n1 then pure i
      else filewriteLoop p f src n fuel (i + r.toNat)
    else pure i

def filewrite (p : ProcId) (f : FileId) (src : Nat → Option UInt8) (n : Int32) (io : Int) : Code Int := do
  let x ← atomic (fileOf f)
  if x.writable = false then pure (-1)
  else
    match x.type with
    | .pipe => pure io
    | .device => pure io
    | .inode => do
      let n' := n.toInt.toNat
      let i ← filewriteLoop sb p f src n' n' 0
      if (i : Int) = n.toInt then pure n.toInt else pure (-1)
    | .none => atomic (panic "filewrite")

/-! ## Descriptors -/

def fdalloc (p : ProcId) (f : FileId) : Act (Option Fd) := do
  let s ← get
  match (List.finRange NOFILE).find? fun fd => ((s.proc p).ofile fd).isNone with
  | some fd =>
    setOfile p fd (some f)
    pure (some fd)
  | none => pure none

/-! ## Directories and links -/

/-- A change of an inode's fields, followed by `iupdate`. -/
def setAndUpdate (ip : Entry) (f : Dinode → Dinode) : Code Unit := do
  atomic (setCopy ip f)
  atomic (iupdate sb ip)

def inumOf (ip : Entry) : Act Nat := do
  let s ← get
  pure (s.inode ip).inum

/-- The end of `sys_link` when the new name cannot be made. -/
def linkBad (p : ProcId) (ip : Entry) : Code Int := do
  ilock sb p ip
  setAndUpdate sb ip fun d => { d with nlink := d.nlink - 1 }
  iunlockput sb p ip
  atomic endOp
  pure (-1)

/-- `sys_link` from `nameiparent(new, name)` on. -/
def linkNew (p : ProcId) (ip : Entry) (new : List UInt8) : Code Int := do
  match ← nameiparent sb p new with
  | none => linkBad sb p ip
  | some (dp, name) =>
    ilock sb p dp
    let inum ← atomic (inumOf ip)
    let r ← dirlink sb p dp (byte name) inum
    iunlockput sb p dp
    if r < 0 then linkBad sb p ip
    else do
      iput sb p ip
      atomic endOp
      pure 0

def link (p : ProcId) (old new : List UInt8) : Code Int := do
  atomic beginOp
  match ← namei sb p old with
  | none =>
    atomic endOp
    pure (-1)
  | some ip =>
    ilock sb p ip
    let d ← atomic (copyOf ip)
    if d.type = T_DIR then do
      iunlockput sb p ip
      atomic endOp
      pure (-1)
    else do
      setAndUpdate sb ip fun d => { d with nlink := d.nlink + 1 }
      atomic (iunlock p ip)
      linkNew sb p ip new

def sysLink (p : ProcId) (old new : Nat → Option UInt8) : Code Int :=
  match argstr old, argstr new with
  | some old, some new => link sb p old new
  | _, _ => pure (-1)

def isdiremptyLoop (dp : Entry) : Nat → Nat → Code Bool
  | 0, _ => pure true
  | n + 1, off => do
    let d ← atomic (copyOf dp)
    if off < d.size.toNat then do
      let de ← readDirent sb dp off "isdirempty: readi"
      if de.inum ≠ 0 then pure false
      else isdiremptyLoop dp n (off + DIRENT)
    else pure true

def isdirempty (dp : Entry) : Code Bool := do
  let d ← atomic (copyOf dp)
  isdiremptyLoop sb dp (d.size.toNat / DIRENT + 1) (2 * DIRENT)

def dots (k : Nat) : Nat → UInt8 := fun i => if i < k then 46 else 0

/-- `goto bad` in `sys_unlink`. -/
def unlinkBad (p : ProcId) (dp : Entry) : Code Int := do
  iunlockput sb p dp
  atomic endOp
  pure (-1)

/-- `dp->nlink--` in `sys_unlink`, for the `..` of a directory. -/
def unlinkParent (dp : Entry) (type : Int16) : Code Unit :=
  if type = T_DIR then setAndUpdate sb dp fun d => { d with nlink := d.nlink - 1 } else pure ()

/-- `sys_unlink` from the `memset` on: the entry at `off` of `dp` is for `ip`. -/
def unlinkEntry (p : ProcId) (dp ip : Entry) (off : Nat) (type : Int16) : Code Int := do
  let r ← writeDirent sb dp off { inum := 0, name := fun _ => 0 }
  if r ≠ DIRENT then atomic (panic "unlink: writei")
  else do
    unlinkParent sb dp type
    iunlockput sb p dp
    setAndUpdate sb ip fun d => { d with nlink := d.nlink - 1 }
    iunlockput sb p ip
    atomic endOp
    pure 0

/-- Whether `sys_unlink` may remove the inode: a directory has to be empty. -/
def unlinkable (ip : Entry) (type : Int16) : Code Bool :=
  if type = T_DIR then isdirempty sb ip else pure true

/-- `sys_unlink` with `dp` locked. -/
def unlinkIn (p : ProcId) (dp : Entry) (name : Name) : Code Int := do
  match ← dirlookup sb dp (byte name) with
  | none => unlinkBad sb p dp
  | some (ip, off) =>
    ilock sb p ip
    let d ← atomic (copyOf ip)
    if d.nlink < 1 then atomic (panic "unlink: nlink < 1")
    else do
      if ← unlinkable sb ip d.type then unlinkEntry sb p dp ip off d.type
      else do
        iunlockput sb p ip
        unlinkBad sb p dp

def unlink (p : ProcId) (path : List UInt8) : Code Int := do
  atomic beginOp
  match ← nameiparent sb p path with
  | none =>
    atomic endOp
    pure (-1)
  | some (dp, name) =>
    ilock sb p dp
    if namecmp (byte name) (dots 1) = 0 ∨ namecmp (byte name) (dots 2) = 0 then unlinkBad sb p dp
    else unlinkIn sb p dp name

def sysUnlink (p : ProcId) (path : Nat → Option UInt8) : Code Int :=
  match argstr path with
  | some path => unlink sb p path
  | none => pure (-1)

/-- `fail:` in `create`. -/
def createFail (p : ProcId) (dp ip : Entry) : Code (Option Entry) := do
  setAndUpdate sb ip fun d => { d with nlink := 0 }
  iunlockput sb p ip
  iunlockput sb p dp
  pure none

/-- The entries `.` and `..` of a new directory. -/
def createDots (p : ProcId) (dp ip : Entry) (type : Int16) : Code Bool :=
  if type = T_DIR then do
    let inum ← atomic (inumOf ip)
    let r ← dirlink sb p ip (dots 1) inum
    if r < 0 then pure false
    else do
      let dinum ← atomic (inumOf dp)
      let r ← dirlink sb p ip (dots 2) dinum
      if r < 0 then pure false else pure true
  else pure true

/-- `dp->nlink++` in `create`, for the `..` of a new directory. -/
def createParent (dp : Entry) (type : Int16) : Code Unit :=
  if type = T_DIR then setAndUpdate sb dp fun d => { d with nlink := d.nlink + 1 } else pure ()

/-- `create` with the new inode `ip` locked. -/
def createIn (p : ProcId) (dp ip : Entry) (name : Name) (type major minor : Int16) : Code (Option Entry) := do
  setAndUpdate sb ip fun d => { d with major := major, minor := minor, nlink := 1 }
  if ← createDots sb p dp ip type then do
    let inum ← atomic (inumOf ip)
    let r ← dirlink sb p dp (byte name) inum
    if r < 0 then createFail sb p dp ip
    else do
      createParent sb dp type
      iunlockput sb p dp
      pure (some ip)
  else createFail sb p dp ip

/-- `create` when the name exists already. -/
def createOld (p : ProcId) (dp ip : Entry) (type : Int16) : Code (Option Entry) := do
  iunlockput sb p dp
  ilock sb p ip
  let d ← atomic (copyOf ip)
  if type = T_FILE ∧ (d.type = T_FILE ∨ d.type = T_DEVICE) then pure (some ip)
  else do
    iunlockput sb p ip
    pure none

def create (p : ProcId) (path : List UInt8) (type major minor : Int16) : Code (Option Entry) := do
  match ← nameiparent sb p path with
  | none => pure none
  | some (dp, name) =>
    ilock sb p dp
    match ← dirlookup sb dp (byte name) with
    | some (ip, _) => createOld sb p dp ip type
    | none =>
      match ← ialloc sb type with
      | none =>
        iunlockput sb p dp
        pure none
      | some ip =>
        ilock sb p ip
        createIn sb p dp ip name type major minor

/-- The inode that `sys_open` opens, locked. -/
def openInode (p : ProcId) (path : List UInt8) (omode : UInt32) : Code (Option Entry) :=
  if omode &&& O_CREATE ≠ 0 then create sb p path T_FILE 0 0
  else do
    match ← namei sb p path with
    | none => pure none
    | some ip =>
      ilock sb p ip
      let d ← atomic (copyOf ip)
      if d.type = T_DIR ∧ omode ≠ 0 then do
        iunlockput sb p ip
        pure none
      else pure (some ip)

/-- `filealloc` and `fdalloc` in `sys_open`. -/
def openFile (p : ProcId) : Code (Option (FileId × Fd)) := do
  match ← atomic filealloc with
  | none => pure none
  | some f =>
    match ← atomic (fdalloc p f) with
    | some fd => pure (some (f, fd))
    | none =>
      fileclose sb p f
      pure none

def openFields (ip : Entry) (d : Dinode) (omode : UInt32) (x : File) : File :=
  let y := if d.type = T_DEVICE then { x with type := .device, major := d.major }
    else { x with type := .inode, off := 0 }
  { y with
    ip := ip
    readable := omode &&& O_WRONLY = 0
    writable := omode &&& O_WRONLY ≠ 0 ∨ omode &&& O_RDWR ≠ 0 }

def openTrunc (ip : Entry) (d : Dinode) (omode : UInt32) : Code Unit :=
  if omode &&& O_TRUNC ≠ 0 ∧ d.type = T_FILE then itrunc sb ip else pure ()

/-- `sys_open` after a failure with the inode locked. -/
def openBad (p : ProcId) (ip : Entry) : Code Int := do
  iunlockput sb p ip
  atomic endOp
  pure (-1)

def openPath (p : ProcId) (path : List UInt8) (omode : UInt32) : Code Int := do
  atomic beginOp
  match ← openInode sb p path omode with
  | none =>
    atomic endOp
    pure (-1)
  | some ip =>
    let d ← atomic (copyOf ip)
    if d.type = T_DEVICE ∧ (d.major < 0 ∨ NDEV ≤ d.major) then openBad sb p ip
    else do
      match ← openFile sb p with
      | none => openBad sb p ip
      | some (f, fd) =>
        atomic (setFile f (openFields ip d omode))
        openTrunc sb ip d omode
        atomic (iunlock p ip)
        atomic endOp
        pure fd.val

def sysOpen (p : ProcId) (path : Nat → Option UInt8) (omode : UInt32) : Code Int :=
  match argstr path with
  | some path => openPath sb p path omode
  | none => pure (-1)

/-- `sys_mkdir` and `sys_mknod`. -/
def make (p : ProcId) (path : Nat → Option UInt8) (type major minor : Int16) : Code Int := do
  atomic beginOp
  match argstr path with
  | none =>
    atomic endOp
    pure (-1)
  | some path =>
    match ← create sb p path type major minor with
    | none =>
      atomic endOp
      pure (-1)
    | some ip =>
      iunlockput sb p ip
      atomic endOp
      pure 0

def sysMkdir (p : ProcId) (path : Nat → Option UInt8) : Code Int := make sb p path T_DIR 0 0

def sysMknod (p : ProcId) (path : Nat → Option UInt8) (major minor : Int32) : Code Int :=
  make sb p path T_DEVICE major.toInt16 minor.toInt16

def iputCwd (p : ProcId) : Code Unit := do
  let s ← atomic get
  match (s.proc p).cwd with
  | some ip => iput sb p ip
  | none => atomic (panic "kerneltrap")

def sysChdir (p : ProcId) (path : Nat → Option UInt8) : Code Int := do
  atomic beginOp
  match argstr path with
  | none =>
    atomic endOp
    pure (-1)
  | some path =>
    match ← namei sb p path with
    | none =>
      atomic endOp
      pure (-1)
    | some ip =>
      ilock sb p ip
      let d ← atomic (copyOf ip)
      if d.type ≠ T_DIR then do
        iunlockput sb p ip
        atomic endOp
        pure (-1)
      else do
        atomic (iunlock p ip)
        iputCwd sb p
        atomic endOp
        atomic (setProc p fun q => { q with cwd := some ip })
        pure 0

/-! ## Pipes -/

/-- `kalloc` for a pipe: `page` is the page it finds, if any. -/
def kallocPipe (page : Option Nat) : Act (Option Nat) := do
  let s ← get
  match page with
  | some pi =>
    if (s.pipe pi).allocs = (s.pipe pi).frees then do
      setPipe pi fun x => { x with readopen := true, writeopen := true, allocs := x.allocs + 1 }
      pure (some pi)
    else pure none
  | none => pure none

def pipeallocBad (p : ProcId) (f0 : FileId) (f1 : Option FileId) : Code (Option (FileId × FileId)) := do
  fileclose sb p f0
  match f1 with
  | some f1 =>
    fileclose sb p f1
    pure none
  | none => pure none

def pipealloc (p : ProcId) (page : Option Nat) : Code (Option (FileId × FileId)) := do
  match ← atomic filealloc with
  | none => pure none
  | some f0 =>
    match ← atomic filealloc with
    | none => pipeallocBad sb p f0 none
    | some f1 =>
      match ← atomic (kallocPipe page) with
      | none => pipeallocBad sb p f0 (some f1)
      | some pi =>
        atomic (setFile f0 fun x => { x with type := .pipe, readable := true, writable := false, pipe := pi })
        atomic (setFile f1 fun x => { x with type := .pipe, readable := false, writable := true, pipe := pi })
        pure (some (f0, f1))

def closeEnds (p : ProcId) (rf wf : FileId) : Code Int := do
  fileclose sb p rf
  fileclose sb p wf
  pure (-1)

/-- `copied` says whether both calls of `copyout` succeed. -/
def sysPipe (p : ProcId) (page : Option Nat) (copied : Bool) : Code Int := do
  match ← pipealloc sb p page with
  | none => pure (-1)
  | some (rf, wf) =>
    match ← atomic (fdalloc p rf) with
    | none => closeEnds sb p rf wf
    | some fd0 =>
      match ← atomic (fdalloc p wf) with
      | none =>
        atomic (setOfile p fd0 none)
        closeEnds sb p rf wf
      | some fd1 =>
        if copied then pure 0
        else do
          atomic (setOfile p fd0 none)
          atomic (setOfile p fd1 none)
          closeEnds sb p rf wf

/-! ## Processes -/

/-- `page` says whether `allocproc` finds the memory for a process. -/
def allocproc (page : Bool) : Act (Option ProcId) := do
  let s ← get
  match (List.finRange NPROC).find? fun q => decide ((s.proc q).state = .unused) with
  | some np =>
    if page then do
      setProc np fun q => { q with state := .used }
      pure (some np)
    else pure none
  | none => pure none

def freeproc (p : ProcId) : Act Unit := setProc p fun q => { q with state := .unused, parent := none }

def dupFile (p np : ProcId) (fd : Fd) : Code Unit := do
  let s ← atomic get
  match (s.proc p).ofile fd with
  | some f =>
    atomic (filedup f)
    atomic (setOfile np fd (some f))
  | none => pure ()

def dupFiles (p np : ProcId) : List Fd → Code Unit
  | [] => pure ()
  | fd :: fds => do
    dupFile p np fd
    dupFiles p np fds

/-- `copied` says whether `uvmcopy` succeeds. -/
def fork (p : ProcId) (page copied : Bool) : Code Int := do
  match ← atomic (allocproc page) with
  | none => pure (-1)
  | some np =>
    if copied then do
      dupFiles p np (List.finRange NOFILE)
      let ip ← atomic (idupCwd p)
      atomic (setProc np fun q => { q with cwd := some ip })
      atomic (setProc np fun q => { q with parent := some p })
      atomic (setProc np fun q => { q with state := .runnable })
      pure np.val
    else do
      atomic (freeproc np)
      pure (-1)

abbrev initproc : ProcId := 0

def exitFile (p : ProcId) (fd : Fd) : Code Unit := do
  let s ← atomic get
  match (s.proc p).ofile fd with
  | some f =>
    fileclose sb p f
    atomic (setOfile p fd none)
  | none => pure ()

def exitFiles (p : ProcId) : List Fd → Code Unit
  | [] => pure ()
  | fd :: fds => do
    exitFile sb p fd
    exitFiles p fds

def reparent (p : ProcId) : Act Unit :=
  modify fun s => { s with proc := fun q =>
    if (s.proc q).parent = some p then { s.proc q with parent := some initproc } else s.proc q }

def exit (p : ProcId) : Code Int :=
  if p = initproc then atomic (panic "init exiting")
  else do
    exitFiles sb p (List.finRange NOFILE)
    atomic beginOp
    iputCwd sb p
    atomic endOp
    atomic (setProc p fun q => { q with cwd := none })
    atomic (do
      reparent p
      setProc p fun q => { q with state := .zombie })
    pure 0

/-- `copied` says whether the status can be stored. -/
def wait (p : ProcId) (copied : Bool) : Act Int := do
  let s ← get
  match (List.finRange NPROC).find? fun q => decide ((s.proc q).parent = some p ∧ (s.proc q).state = .zombie) with
  | some pp =>
    if copied then do
      freeproc pp
      pure pp.val
    else pure (-1)
  | none =>
    if (List.finRange NPROC).all fun q => decide ((s.proc q).parent ≠ some p) then pure (-1)
    else throw .sleep

/-! ## exec -/

abbrev PGSIZE : Nat := 4096

/-- `loadseg` from offset `i` of the segment on. -/
def loadseg (ip : Entry) (offset sz : UInt32) : Nat → Nat → Code Bool
  | 0, _ => pure true
  | fuel + 1, i =>
    if i < sz.toNat then do
      let n := min (sz.toNat - i) PGSIZE
      let r ← readi sb ip (fun _ => true) (offset + UInt32.ofNat i) (UInt32.ofNat n)
      if r.1 ≠ n then pure false
      else loadseg ip offset sz fuel (i + PGSIZE)
    else pure true

def segmentOk (ph : List UInt8) : Bool :=
  field ph 32 8 ≤ field ph 40 8 ∧ field ph 16 8 + field ph 40 8 < 2 ^ 64 ∧ field ph 16 8 % PGSIZE = 0

/-- The loop of `exec` over the program headers. `mem i` says whether `uvmalloc` succeeds for the
`i`th of them. -/
def execLoop (ip : Entry) (mem : Nat → Bool) : Nat → Nat → UInt32 → Code Bool
  | 0, _, _ => pure true
  | n + 1, i, off => do
    let r ← readi sb ip (fun _ => true) off 56
    if r.1 ≠ 56 then pure false
    else if field r.2 0 4 ≠ 1 then execLoop ip mem n (i + 1) (off + 56)
    else if segmentOk r.2 ∧ mem i then do
      let sz := UInt32.ofNat (field r.2 32 8)
      if ← loadseg sb ip (UInt32.ofNat (field r.2 8 8)) sz (sz.toNat / PGSIZE + 1) 0 then
        execLoop ip mem n (i + 1) (off + 56)
      else pure false
    else pure false

/-- `exec` up to the place where the file is closed. `page` says whether `proc_pagetable` succeeds. -/
def execRead (ip : Entry) (page : Bool) (mem : Nat → Bool) : Code Bool := do
  let r ← readi sb ip (fun _ => true) 0 64
  if r.1 ≠ 64 ∨ field r.2 0 4 ≠ 0x464C457F ∨ page = false then pure false
  else execLoop sb ip mem (field r.2 56 2) 0 (UInt32.ofNat (field r.2 32 8))

/-- `rest` is what `exec` returns after the file has been closed. -/
def exec (p : ProcId) (path : List UInt8) (page : Bool) (mem : Nat → Bool) (rest : Int) : Code Int := do
  atomic beginOp
  match ← namei sb p path with
  | none =>
    atomic endOp
    pure (-1)
  | some ip =>
    ilock sb p ip
    let ok ← execRead sb ip page mem
    iunlockput sb p ip
    atomic endOp
    if ok then pure rest else pure (-1)

/-- `args` says whether the arguments can be fetched. -/
def sysExec (p : ProcId) (path : Nat → Option UInt8) (args page : Bool) (mem : Nat → Bool) (rest : Int) : Code Int :=
  match argstr path with
  | some path => if args then exec sb p path page mem rest else pure (-1)
  | none => pure (-1)

end

/-- The kernel at the time of the first process: `userinit` has called `namei("/")`. -/
def boot (disk : Nat → Block) : State where
  disk := disk
  log := []
  outstanding := 0
  logged := []
  ballocs := 0
  inode := fun e => if e = 0 then ⟨ROOTINO, 1, none, false, .zero⟩ else ⟨0, 0, none, false, .zero⟩
  file := fun _ => ⟨.none, 0, false, false, 0, 0, 0, 0⟩
  pipe := fun _ => ⟨false, false, 0, 0⟩
  proc := fun p => if p = initproc then ⟨.runnable, none, fun _ => none, some 0⟩
    else ⟨.unused, none, fun _ => none, none⟩

end Fs
end Xv6
