import Xv6.Lib.Trans
import Xv6.Fs.Calls

/-!
# Xv6.Syscall.Bounds

The tables that a system call indexes with values from the registers: `syscall` of `kernel/syscall.c`
with the layer of `kernel/sysproc.c`, `kernel/sysfile.c` and `kernel/file.c` below it.

An access to a table is an action of its own (`index`), and one outside the table stops the run with
`outOfBounds`. Registers hold 64 bits; `argint` keeps 32 of them, `ps` gets 8 and `mknod` 16.

* `inBounds_iff_schedset`: the accesses of a run are all in bounds exactly when `schedset` is called with
  1 and 2 only. All other tables are guarded.
* `schedsetThree_reads`: `schedset(3)` reads past the end of `available_schedulers`.
-/

namespace Xv6
namespace Syscall

open Fs

variable {k : Kernel}

inductive Table where
  | syscalls | ofile | devsw | availableSchedulers | proc
  deriving DecidableEq, Repr

/-- Why a call does not return: the file system stops, or an access is outside its table. -/
inductive Halt where
  | fs (e : Stop)
  | outOfBounds (t : Table) (i : Int)
  deriving DecidableEq, Repr

/-- What a function pointer of type `void (*)(void)` holds: one of the schedulers, or some other word. -/
inductive Impl where
  | rrScheduler | mlfqScheduler
  | other (word : UInt64)
  deriving DecidableEq, Repr

structure Kernel where
  fs : Fs.State
  schedPointer : Impl

abbrev K (α : Type) := StateT Kernel (Except Halt) α

/-- `t[i]`, for a table of `n` entries. -/
def index (t : Table) (n : Nat) (i : Int) : K (Fin n) :=
  if h : 0 ≤ i ∧ i < n then pure ⟨i.toNat, by omega⟩ else throw (.outOfBounds t i)

def file {α : Type} (x : Code α) : K α := fun k =>
  match x.run k.fs with
  | .ok (a, fs) => .ok (a, { k with fs := fs })
  | .error e => .error (.fs e)

/-- The registers of the trapframe that a system call reads. -/
structure Regs where
  a0 : UInt64
  a1 : UInt64
  a2 : UInt64
  a3 : UInt64
  a4 : UInt64
  a5 : UInt64
  a7 : UInt64

def argint (a : UInt64) : Int32 := a.toUInt32.toInt32

/-- What a call depends on besides registers and kernel: the memory of the process, whether the kernel
finds pages, what a pipe or a device transfers, and the results of calls that use no table. -/
structure Env where
  mem : UInt64 → Option UInt8
  writable : UInt64 → Bool
  copied : Bool
  page : Option Nat
  alloc : Bool
  args : Bool
  segment : Nat → Bool
  io : Int

def Env.bytes (env : Env) (addr : UInt64) (i : Nat) : Option UInt8 := env.mem (addr + .ofNat i)

def Env.dst (env : Env) (addr : UInt64) (i : Nat) : Bool := env.writable (addr + .ofNat i)

/-! ## Files -/

def argfd (p : ProcId) (fd : Int32) : K (Option (Fd × FileId)) :=
  if fd < 0 ∨ NOFILE ≤ fd.toInt then pure none
  else do
    let i ← index .ofile NOFILE fd.toInt
    let k ← get
    pure (((k.fs.proc p).ofile i).map fun f => (i, f))

/-- The console is the only device. -/
abbrev CONSOLE : Nat := 1

/-- `devsw[f->major].read` and `devsw[f->major].write`, after the test of `fileread` and `filewrite`. -/
def device (major : Int16) (io : Int) : K Int :=
  if major < 0 ∨ NDEV ≤ major then pure (-1)
  else do
    let i ← index .devsw NDEV.toInt.toNat major.toInt
    if i.val = CONSOLE then pure io else pure (-1)

section

variable (sb : Superblock)

def fileread (p : ProcId) (f : FileId) (dst : Nat → Bool) (n : Int32) (io : Int) : K Int := do
  let k ← get
  if (k.fs.file f).readable = true ∧ (k.fs.file f).type = .device then device (k.fs.file f).major io
  else file (Fs.fileread sb p f dst n io)

def filewrite (p : ProcId) (f : FileId) (src : Nat → Option UInt8) (n : Int32) (io : Int) : K Int := do
  let k ← get
  if (k.fs.file f).writable = true ∧ (k.fs.file f).type = .device then device (k.fs.file f).major io
  else file (Fs.filewrite sb p f src n io)

def withFile (p : ProcId) (fd : Int32) (x : Fd → FileId → K Int) : K Int := do
  match ← argfd p fd with
  | none => pure (-1)
  | some (fd, f) => x fd f

def sysDup (p : ProcId) (f : FileId) : K Int := do
  match ← file (Prog.atomic (fdalloc p f)) with
  | none => pure (-1)
  | some fd =>
    file (Prog.atomic (filedup f))
    pure fd.val

def sysClose (p : ProcId) (fd : Fd) (f : FileId) : K Int := do
  file (Prog.atomic (setOfile p fd none))
  file (fileclose sb p f)
  pure 0

/-! ## Processes -/

/-- `sizeof(proc)`, the whole table. -/
abbrev PROCTABLE : Nat := NPROC * 368

/-- The loop of `ps` from slot `i` on; `localCount` entries have been filled. -/
def psLoop (count : UInt8) : Nat → Nat → UInt8 → K Unit
  | 0, _, _ => pure ()
  | fuel + 1, i, localCount =>
    if i < NPROC then
      if localCount = count then pure ()
      else do
        let p ← index .proc NPROC i
        let k ← get
        if (k.fs.proc p).state = .unused then pure ()
        else psLoop count fuel (i + 1) (localCount + 1)
    else pure ()

/-- `grown` says whether `growproc` succeeds, `result` is the size of the process before. -/
def ps (start count : UInt8) (grown : Bool) (result : Int) : K Int :=
  if count = 0 then pure 0
  else if grown = false then pure 0
  else if NPROC ≤ start.toNat * PROCTABLE then pure 0
  else do
    psLoop count NPROC (start.toNat * PROCTABLE) 0
    pure result

abbrev SCHEDC : Nat := 2

def availableSchedulers : Fin SCHEDC → Impl
  | 0 => .rrScheduler
  | 1 => .mlfqScheduler

def schedset (id : Int32) : K Unit := do
  let i ← index .availableSchedulers SCHEDC (id.toInt - 1)
  modify fun k => { k with schedPointer := availableSchedulers i }

def schedlsLoop : List Nat → K Unit
  | [] => pure ()
  | i :: is => do
    let _ ← index .availableSchedulers SCHEDC i
    schedlsLoop is

/-! ## syscall -/

/-- The number of entries of `syscalls`: the highest number is that of `schedset`. -/
abbrev NSYSCALLS : Nat := 25

def handler (p : ProcId) (r : Regs) (env : Env) (num : Nat) : K Int :=
  match num with
  | 1 => file (fork p env.alloc env.copied)
  | 2 => file (exit sb p)
  | 3 => file (Prog.atomic (wait p env.copied))
  | 4 => file (sysPipe sb p env.page env.copied)
  | 5 => withFile p (argint r.a0) fun _ f => fileread sb p f (env.dst r.a1) (argint r.a2) env.io
  | 7 => file (sysExec sb p (env.bytes r.a0) env.args env.alloc env.segment env.io)
  | 8 => withFile p (argint r.a0) fun _ f => file (filestat sb p f env.copied)
  | 9 => file (sysChdir sb p (env.bytes r.a0))
  | 10 => withFile p (argint r.a0) fun _ f => sysDup p f
  | 15 => file (sysOpen sb p (env.bytes r.a0) (argint r.a1).toUInt32)
  | 16 => withFile p (argint r.a0) fun _ f => filewrite sb p f (env.bytes r.a1) (argint r.a2) env.io
  | 17 => file (sysMknod sb p (env.bytes r.a0) (argint r.a1) (argint r.a2))
  | 18 => file (sysUnlink sb p (env.bytes r.a0))
  | 19 => file (sysLink sb p (env.bytes r.a0) (env.bytes r.a1))
  | 20 => file (sysMkdir sb p (env.bytes r.a0))
  | 21 => withFile p (argint r.a0) fun fd f => sysClose sb p fd f
  | 22 => ps (argint r.a0).toUInt32.toUInt8 (argint r.a1).toUInt32.toUInt8 env.alloc env.io
  | 23 => do
    schedlsLoop (List.range SCHEDC)
    pure 0
  | 24 => do
    schedset (argint r.a0)
    pure 0
  | _ => pure env.io

def syscall (p : ProcId) (r : Regs) (env : Env) : K Int :=
  if 0 < argint r.a7 ∧ (argint r.a7).toInt < NSYSCALLS then do
    let num ← index .syscalls NSYSCALLS (argint r.a7).toInt
    handler sb p r env num
  else pure (-1)

abbrev Event := ProcId × Regs × Env

def step (k : Kernel) (c : Event) : Option Kernel :=
  if (k.fs.proc c.1).state = .runnable then
    match syscall sb c.1 c.2.1 c.2.2 k with
    | .ok (_, k') => some k'
    | .error _ => none
  else none

end

def boot (disk : Nat → Block) : Kernel := ⟨Fs.boot disk, .rrScheduler⟩

/-! ## Accesses in bounds -/

/-- `sched_pointer` is one of the registered schedulers. -/
def Registered (k : Kernel) : Prop := ∃ i, k.schedPointer = availableSchedulers i

/-- The code makes no access outside a table and leaves `sched_pointer` registered. -/
def Safe {α : Type} (x : K α) : Prop :=
  ∀ k, Registered k → (∀ t i, x k ≠ .error (.outOfBounds t i)) ∧ ∀ a k', x k = .ok (a, k') → Registered k'

section Safe

variable {α β : Type} {x y : K α}

theorem Safe.of_ok {a : α} {g : Kernel → Kernel} (h : ∀ k, x k = .ok (a, g k)) (hg : ∀ k, Registered k → Registered (g k)) :
    Safe x := by
  intro k hk
  rw [h k]
  refine ⟨fun t i => nofun, fun a' k' h' => ?_⟩
  cases h'
  exact hg k hk

theorem safe_pure (a : α) : Safe (pure a : K α) := Safe.of_ok (fun _ => rfl) fun _ hk => hk

theorem safe_get : Safe (get : K Kernel) := by
  intro k hk
  refine ⟨fun t i => nofun, fun a k' h => ?_⟩
  cases h
  exact hk

theorem safe_bind {f : α → K β} (hx : Safe x) (hf : ∀ a, Safe (f a)) : Safe (x >>= f) := by
  intro k hk
  have hb : (x >>= f) k = (x k >>= fun r => f r.1 r.2) := rfl
  rw [hb]
  obtain ⟨hx1, hx2⟩ := hx k hk
  cases h : x k with
  | ok r => exact hf r.1 r.2 (hx2 r.1 r.2 h)
  | error e =>
    refine ⟨fun t i he => ?_, fun a k' he => nomatch he⟩
    cases he
    exact hx1 t i h

theorem safe_ite {c : Prop} [Decidable c] (hx : c → Safe x) (hy : ¬ c → Safe y) : Safe (if c then x else y) := by
  by_cases h : c
  · rw [if_pos h]
    exact hx h
  · rw [if_neg h]
    exact hy h

theorem safe_index {t : Table} {n : Nat} {i : Int} (h : 0 ≤ i ∧ i < n) : Safe (index t n i) := by
  rw [index, dif_pos h]
  exact safe_pure _

theorem safe_file (x : Code α) : Safe (file x) := by
  intro k hk
  rw [file]
  cases x.run k.fs with
  | ok r =>
    refine ⟨fun t i => nofun, fun a k' h => ?_⟩
    cases h
    exact hk
  | error e => exact ⟨fun t i => nofun, fun a k' => nofun⟩

end Safe

theorem safe_argfd (p : ProcId) (fd : Int32) : Safe (argfd p fd) := by
  refine safe_ite (fun _ => safe_pure _) fun h => ?_
  rw [not_or, Int32.not_lt, Int32.le_iff_toInt_le] at h
  refine safe_bind (safe_index ⟨h.1, by omega⟩) fun i => safe_bind safe_get fun k => safe_pure _

theorem safe_device (major : Int16) (io : Int) : Safe (device major io) := by
  refine safe_ite (fun _ => safe_pure _) fun h => ?_
  rw [not_or, Int16.not_lt, Int16.not_le, Int16.le_iff_toInt_le, Int16.lt_iff_toInt_lt] at h
  refine safe_bind (safe_index ⟨h.1, h.2⟩) fun i => safe_ite (fun _ => safe_pure _) fun _ => safe_pure _

theorem safe_withFile (p : ProcId) (fd : Int32) {x : Fd → FileId → K Int} (hx : ∀ fd f, Safe (x fd f)) :
    Safe (withFile p fd x) := by
  refine safe_bind (safe_argfd p fd) fun r => ?_
  cases r with
  | none => exact safe_pure _
  | some q => exact hx q.1 q.2

theorem safe_psLoop (count : UInt8) : ∀ fuel i localCount, Safe (psLoop count fuel i localCount) := by
  intro fuel
  induction fuel with
  | zero => exact fun i localCount => safe_pure _
  | succ fuel ih =>
    intro i localCount
    refine safe_ite (fun hi => ?_) fun _ => safe_pure _
    refine safe_ite (fun _ => safe_pure _) fun _ => ?_
    refine safe_bind (safe_index ⟨by omega, by omega⟩) fun p => safe_bind safe_get fun k => ?_
    exact safe_ite (fun _ => safe_pure _) fun _ => ih _ _

theorem safe_ps (start count : UInt8) (grown : Bool) (result : Int) : Safe (ps start count grown result) := by
  refine safe_ite (fun _ => safe_pure _) fun _ => safe_ite (fun _ => safe_pure _) fun _ => ?_
  exact safe_ite (fun _ => safe_pure _) fun _ => safe_bind (safe_psLoop _ _ _ _) fun _ => safe_pure _

theorem safe_schedlsLoop : ∀ is : List Nat, (∀ i ∈ is, i < SCHEDC) → Safe (schedlsLoop is) := by
  intro is
  induction is with
  | nil => exact fun _ => safe_pure _
  | cons i is ih =>
    intro h
    have hi := h i List.mem_cons_self
    refine safe_bind (safe_index ⟨by omega, by omega⟩) fun _ => ih fun j hj => h j (List.mem_cons_of_mem i hj)

section Syscall

variable {sb : Superblock} {p : ProcId} {r : Regs} {env : Env}

theorem safe_fileread (f : FileId) (dst : Nat → Bool) (n : Int32) (io : Int) : Safe (fileread sb p f dst n io) :=
  safe_bind safe_get fun _ => safe_ite (fun _ => safe_device _ _) fun _ => safe_file _

theorem safe_filewrite (f : FileId) (src : Nat → Option UInt8) (n : Int32) (io : Int) :
    Safe (filewrite sb p f src n io) :=
  safe_bind safe_get fun _ => safe_ite (fun _ => safe_device _ _) fun _ => safe_file _

theorem safe_sysDup (f : FileId) : Safe (sysDup p f) := by
  refine safe_bind (safe_file _) fun r => ?_
  cases r with
  | none => exact safe_pure _
  | some fd => exact safe_bind (safe_file _) fun _ => safe_pure _

theorem safe_sysClose (fd : Fd) (f : FileId) : Safe (sysClose sb p fd f) :=
  safe_bind (safe_file _) fun _ => safe_bind (safe_file _) fun _ => safe_pure _

theorem safe_schedset {id : Int32} (h : id = 1 ∨ id = 2) : Safe (schedset id) := by
  refine safe_bind (safe_index ?_) fun i => Safe.of_ok (fun _ => rfl) fun _ _ => ⟨i, rfl⟩
  rcases h with rfl | rfl <;> decide

/-- Every entry of `syscalls` keeps to its tables, `schedset` when it gets the number of a scheduler. -/
theorem safe_handler {num : Nat} (h : num = 24 → argint r.a0 = 1 ∨ argint r.a0 = 2) :
    Safe (handler sb p r env num) := by
  have hfile {x : Fd → FileId → K Int} (hx : ∀ fd f, Safe (x fd f)) : Safe (withFile p (argint r.a0) x) :=
    safe_withFile p _ hx
  unfold handler
  split
  case h_5 => exact hfile fun _ f => safe_fileread f _ _ _
  case h_7 => exact hfile fun _ f => safe_file _
  case h_9 => exact hfile fun _ f => safe_sysDup f
  case h_11 => exact hfile fun _ f => safe_filewrite f _ _ _
  case h_16 => exact hfile fun fd f => safe_sysClose fd f
  case h_17 => exact safe_ps _ _ _ _
  case h_18 => exact safe_bind (safe_schedlsLoop _ fun i hi => List.mem_range.mp hi) fun _ => safe_pure _
  case h_19 => exact safe_bind (safe_schedset (h rfl)) fun _ => safe_pure _
  case h_20 => exact safe_pure _
  all_goals exact safe_file _

theorem safe_syscall (h : argint r.a7 = 24 → argint r.a0 = 1 ∨ argint r.a0 = 2) : Safe (syscall sb p r env) := by
  refine safe_ite (fun hn => ?_) fun _ => safe_pure _
  have h0 : 0 < (argint r.a7).toInt := Int32.lt_iff_toInt_lt.mp hn.1
  intro k
  rw [index, dif_pos ⟨h0.le, hn.2⟩]
  refine safe_handler (fun h24 => h (Int32.toInt_inj.mp ?_)) k
  have h24 : (argint r.a7).toInt.toNat = 24 := h24
  have : (24 : Int32).toInt = 24 := by decide
  omega

end Syscall

theorem bind_error {α β : Type} {x : K α} {e : Halt} (h : x k = .error e) (f : α → K β) : (x >>= f) k = .error e := by
  have hb : (x >>= f) k = (x k >>= fun r => f r.1 r.2) := rfl
  rw [hb, h]
  rfl

theorem schedset_reads {id : Int32} (h1 : id ≠ 1) (h2 : id ≠ 2) (k : Kernel) :
    schedset id k = .error (.outOfBounds .availableSchedulers (id.toInt - 1)) := by
  have hi : ¬ (0 ≤ id.toInt - 1 ∧ id.toInt - 1 < (SCHEDC : Int)) := by
    rw [Ne, ← Int32.toInt_inj] at h1 h2
    have e1 : (1 : Int32).toInt = 1 := by decide
    have e2 : (2 : Int32).toInt = 2 := by decide
    simp only [SCHEDC]
    omega
  refine bind_error ?_ _
  rw [index, dif_neg hi]
  rfl

theorem syscall_schedset (sb : Superblock) (p : ProcId) {r : Regs} (env : Env) (h : argint r.a7 = 24) :
    syscall sb p r env = schedset (argint r.a0) >>= fun _ => pure 0 := by
  rw [syscall, h]
  rfl

/-- In state `k` the call makes no access outside a table, and `sched_pointer` is registered before it
and after it. -/
def InBounds (sb : Superblock) (k : Kernel) (c : Event) : Prop :=
  (k.fs.proc c.1).state = .runnable → Registered k ∧
    (∀ t i, syscall sb c.1 c.2.1 c.2.2 k ≠ .error (.outOfBounds t i)) ∧
    ∀ k', step sb k c = some k' → Registered k'

/-- `schedset` is called with the number of a scheduler. -/
def SchedsetOk (k : Kernel) (c : Event) : Prop :=
  (k.fs.proc c.1).state = .runnable → argint c.2.1.a7 = 24 → argint c.2.1.a0 = 1 ∨ argint c.2.1.a0 = 2

theorem registered_step {sb : Superblock} {k' : Kernel} {c : Event} (hk : Registered k) (hc : SchedsetOk k c)
    (h : step sb k c = some k') : Registered k' := by
  rw [step] at h
  split at h
  · rename_i hr
    split at h
    · rename_i he
      cases h
      exact (safe_syscall (hc hr) k hk).2 _ k' he
    · cases h
  · cases h

theorem inBounds_iff {sb : Superblock} {c : Event} (hk : Registered k) : InBounds sb k c ↔ SchedsetOk k c := by
  refine ⟨fun h hr h24 => ?_, fun h hr => ⟨hk, (safe_syscall (h hr) k hk).1, fun k' => registered_step hk h⟩⟩
  by_contra hn
  rw [not_or] at hn
  refine (h hr).2.1 .availableSchedulers ((argint c.2.1.a0).toInt - 1) ?_
  rw [syscall_schedset sb c.1 c.2.2 h24]
  exact bind_error (schedset_reads hn.1 hn.2 k) _

/-- The accesses of a run are in bounds, and `sched_pointer` is registered, exactly when `schedset` is
only called with the number of a scheduler. -/
theorem inBounds_iff_schedset (sb : Superblock) (disk : Nat → Block) (es : List Event) :
    Trans.AllSteps (step sb) (InBounds sb) (boot disk) es ↔ Trans.AllSteps (step sb) SchedsetOk (boot disk) es :=
  Trans.allSteps_congr (fun _ _ => inBounds_iff) (fun _ _ _ => registered_step) es ⟨0, rfl⟩

/-- The first process calls `schedset(3)`, on an empty disk. -/
theorem schedsetThree_reads : syscall ⟨0, 0, 0, 0, 0, 0, 0⟩ initproc ⟨3, 0, 0, 0, 0, 0, 24⟩
        ⟨fun _ => none, fun _ => false, true, none, true, true, fun _ => true, 0⟩ (boot fun _ => zeroBlock) =
      .error (.outOfBounds .availableSchedulers 2) := by
  rw [syscall_schedset _ _ _ (by decide)]
  exact bind_error (schedset_reads (by decide) (by decide) _) _

end Syscall
end Xv6
