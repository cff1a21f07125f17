import Xv6.Sys.Slots

/-!
# Xv6.Sys.Entry

What the system calls do to the entries of the process table.

* `Own`: most calls change only the entry of their process. `runs_*` has one lemma for each function.
* `runs_fork`: `fork` leaves a new process in an entry that was not in use, with what its parent has, or
  an entry that is clean again.
* `runs_exit`, `runs_wait`, `runs_kill`: the calls that change other entries.
-/

namespace Xv6
namespace Sys

open Bytes Wp Vm Function

structure Clean (q : Proc) : Prop where
  killed : q.killed = 0
  xstate : q.xstate = 0
  chan : q.chan = 0
  parent : q.parent = none
  pid : q.pid = 0
  sz : q.sz = 0
  pagetable : q.pagetable = none
  trapframe : q.trapframe = none
  ofile : ∀ fd, q.ofile fd = none
  cwd : q.cwd = none

def Recycled (s : State) : Prop := ∀ j, (s.proc j).state = .unused → Clean (s.proc j)

/-- The invariant of an entry: `exit` closes the files, and only entries that are not in use have no
process id. -/
structure EntryOk (q : Proc) : Prop where
  clean : q.state = .unused → Clean q
  zombie : q.state = .zombie → (∀ fd, q.ofile fd = none) ∧ q.cwd = none
  pid : q.state ≠ .unused → q.pid ≠ 0

structure Slots (s : State) : Prop where
  entry : ∀ j, EntryOk (s.proc j)
  nextpid : s.nextpid ≠ 0

def SameTable (s s' : State) : Prop := s'.proc = s.proc ∧ s'.nextpid = s.nextpid

abbrev runs {α : Type} (x : Kern α) (Q : α → State → Prop) (s : State) : Prop := wpe (fun _ => True) x Q s

/-- Process `p` changes its own entry, and keeps its state, its process id and `killed`. -/
structure Own (p : ProcId) (s s' : State) : Prop where
  other : ∀ j, j ≠ p → s'.proc j = s.proc j
  state : (s'.proc p).state = (s.proc p).state
  pid : (s'.proc p).pid = (s.proc p).pid
  killed : (s'.proc p).killed = (s.proc p).killed
  nextpid : s'.nextpid = s.nextpid

section Rules

variable {α β : Type} {s s' s'' : State} {p : ProcId} {x : Kern α} {f : α → Kern β} {T : State → State → Prop}
  {R : β → State → Prop}

theorem SameTable.refl : SameTable s s := ⟨rfl, rfl⟩

instance : IsTrans State SameTable := ⟨fun _ _ _ h h' => ⟨h'.1.trans h.1, h'.2.trans h.2⟩⟩

instance : IsTrans State (Own p) := ⟨fun _ _ _ h h' =>
  ⟨fun j hj => (h'.other j hj).trans (h.other j hj), h'.state.trans h.state, h'.pid.trans h.pid,
    h'.killed.trans h.killed, h'.nextpid.trans h.nextpid⟩⟩

theorem SameTable.own (h : SameTable s s') : Own p s s' := by
  obtain ⟨h1, h2⟩ := h
  exact ⟨fun j _ => by rw [h1], by rw [h1], by rw [h1], by rw [h1], h2⟩

theorem runs_get {f : State → Kern β} (h : runs (f s) R s) : runs (get >>= f) R s := by
  rw [runs, wpe_bind]
  exact wpe_get.mpr h

theorem runs_seq (hx : runs x (fun _ s' => SameTable s s') s) (hf : ∀ a s', SameTable s s' → runs (f a) R s') :
    runs (x >>= f) R s := by
  rw [runs, wpe_bind]
  exact wpe_mono hx fun a s' h => hf a s' h

theorem runs_then [IsTrans State T] (hx : runs x (fun _ s' => T s s') s)
    (hf : ∀ a s', runs (f a) (fun _ s'' => T s' s'') s') : runs (x >>= f) (fun _ s' => T s s') s := by
  rw [runs, wpe_bind]
  exact wpe_mono hx fun a s' h => wpe_mono (hf a s') fun _ _ h' => Trans.trans h h'

theorem runs_vm {y : K α} : runs (vm y) (fun _ s' => SameTable s s') s := by
  rw [vm, runs, wpe_zoom]
  exact wpe_mono wpe_trivial fun _ _ _ => ⟨rfl, rfl⟩

theorem runs_setProc {g : Proc → Proc} {Q : Unit → State → Prop} :
    runs (setProc p g) Q s ↔ Q () { s with proc := update s.proc p (g (s.proc p)) } := wpe_modify

theorem runs_own {g : Proc → Proc} (hst : ∀ q, (g q).state = q.state) (hpid : ∀ q, (g q).pid = q.pid)
    (hk : ∀ q, (g q).killed = q.killed) : runs (setProc p g) (fun _ s' => Own p s s') s :=
  runs_setProc.mpr ⟨fun j hj => update_of_ne hj _ _, by simp [hst], by simp [hpid], by simp [hk], rfl⟩

theorem runs_setFile {f : FileId} {g : File → File} : runs (setFile f g) (fun _ s' => SameTable s s') s :=
  wpe_modify.mpr ⟨rfl, rfl⟩

theorem runs_pure {a : α} : runs (pure a : Kern α) (fun _ s' => SameTable s s') s := wpe_pure.mpr .refl

theorem runs_doIf {c : Prop} [Decidable c] {y : Kern Unit} (h : runs y (fun _ s' => SameTable s s') s) :
    runs (doIf c y) (fun _ s' => SameTable s s') s := wpe_doIf (fun _ => h) fun _ => .refl

theorem runs_same (h : runs x (fun _ s' => SameTable s s') s) : runs x (fun _ s' => Own p s s') s :=
  wpe_mono h fun _ _ h => h.own

end Rules

section Calls

variable {L : Layout} {s s' : State} {p np : ProcId} {f : FileId} {fd : Int} {a : Nat}

theorem runs_setTrapframe {off v : Nat} : runs (setTrapframe p off v) (fun _ s' => SameTable s s') s :=
  runs_get runs_vm

theorem runs_filealloc : runs filealloc (fun _ s' => SameTable s s') s := by
  refine runs_get ?_
  split
  · exact runs_pure
  · exact runs_then runs_setFile fun _ _ => runs_pure

theorem runs_filedup : runs (filedup f) (fun _ s' => SameTable s s') s :=
  runs_get (wpe_ite.mpr ⟨fun _ => wpe_throw.mpr trivial, fun _ => runs_setFile⟩)

theorem runs_pipeclose {pi : Nat} {w : Bool} : runs (pipeclose L pi w) (fun _ s' => SameTable s s') s :=
  runs_get (runs_then runs_vm fun _ _ => runs_doIf runs_vm)

theorem runs_fileclose : runs (fileclose L f) (fun _ s' => SameTable s s') s := by
  refine runs_get (wpe_ite.mpr ⟨fun _ => wpe_throw.mpr trivial, fun _ => wpe_ite.mpr ⟨fun _ => runs_setFile, fun _ => ?_⟩⟩)
  exact runs_then runs_setFile fun _ _ => runs_doIf runs_pipeclose

theorem runs_pipealloc : runs (pipealloc L) (fun _ s' => SameTable s s') s := by
  refine runs_then runs_filealloc fun r s => ?_
  cases r with
  | none => exact runs_pure
  | some f0 =>
    refine runs_then runs_filealloc fun r s => ?_
    cases r with
    | none => exact runs_then runs_fileclose fun _ _ => runs_pure
    | some f1 =>
      refine runs_then runs_vm fun r s => ?_
      cases r with
      | none => exact runs_then runs_fileclose fun _ _ => runs_then runs_fileclose fun _ _ => runs_pure
      | some pi =>
        exact runs_get (runs_then runs_vm fun _ _ => runs_then runs_setFile fun _ _ =>
          runs_then runs_setFile fun _ _ => runs_pure)

theorem runs_argfd : runs (argfd p fd) (fun _ s' => SameTable s s') s := by
  refine runs_get ?_
  split <;> exact runs_pure

theorem runs_setOfile {fd : Fd} {f : Option FileId} : runs (setOfile p fd f) (fun _ s' => Own p s s') s :=
  runs_own (fun _ => rfl) (fun _ => rfl) fun _ => rfl

theorem runs_fdalloc : runs (fdalloc p f) (fun _ s' => Own p s s') s := by
  refine runs_get ?_
  split
  · exact runs_same runs_pure
  · exact runs_then runs_setOfile fun _ _ => runs_same runs_pure

theorem runs_sysDup : runs (sysDup p fd) (fun _ s' => Own p s s') s := by
  refine runs_then (runs_same runs_argfd) fun r s => ?_
  cases r with
  | none => exact runs_same runs_pure
  | some r =>
    refine runs_then runs_fdalloc fun fd s => ?_
    cases fd with
    | none => exact runs_same runs_pure
    | some fd => exact runs_same (runs_then runs_filedup fun _ _ => runs_pure)

theorem runs_sysClose : runs (sysClose L p fd) (fun _ s' => Own p s s') s := by
  refine runs_then (runs_same runs_argfd) fun r s => ?_
  cases r with
  | none => exact runs_same runs_pure
  | some r => exact runs_then runs_setOfile fun _ _ => runs_same (runs_then runs_fileclose fun _ _ => runs_pure)

theorem runs_closeBoth {rf wf : FileId} :
    runs (do fileclose L rf; fileclose L wf; pure (-1) : Kern Int) (fun _ s' => SameTable s s') s :=
  runs_then runs_fileclose fun _ _ => runs_then runs_fileclose fun _ _ => runs_pure

theorem runs_closePipe {fd0 fd1 : Fd} {rf wf : FileId} :
    runs (closePipe L p fd0 fd1 rf wf) (fun _ s' => Own p s s') s :=
  runs_then runs_setOfile fun _ _ => runs_then runs_setOfile fun _ _ => runs_same runs_closeBoth

theorem runs_sysPipe : runs (sysPipe L p a) (fun _ s' => Own p s s') s := by
  refine runs_then (runs_same runs_pipealloc) fun r s => ?_
  cases r with
  | none => exact runs_same runs_pure
  | some r =>
    refine runs_then runs_fdalloc fun fd0 s => ?_
    cases fd0 with
    | none => exact runs_same runs_closeBoth
    | some fd0 =>
      refine runs_then runs_fdalloc fun fd1 s => ?_
      cases fd1 with
      | none => exact runs_then runs_setOfile fun _ _ => runs_same runs_closeBoth
      | some fd1 =>
        refine runs_get (runs_then (runs_same runs_vm) fun r s => wpe_ite.mpr ⟨fun _ => runs_closePipe, fun _ => ?_⟩)
        exact runs_then (runs_same runs_vm) fun r s =>
          wpe_ite.mpr ⟨fun _ => runs_closePipe, fun _ => runs_same runs_pure⟩

theorem runs_growproc {n : Int} : runs (growproc L p n) (fun _ s' => Own p s s') s := by
  refine runs_get (wpe_ite.mpr ⟨fun _ => ?_, fun _ => wpe_ite.mpr ⟨fun _ => ?_, fun _ => runs_same runs_pure⟩⟩)
  · refine runs_then (runs_same runs_vm) fun sz s => wpe_ite.mpr ⟨fun _ => runs_same runs_pure, fun _ => ?_⟩
    exact runs_then (runs_own (fun _ => rfl) (fun _ => rfl) fun _ => rfl) fun _ _ => runs_same runs_pure
  · refine runs_then (runs_same runs_vm) fun sz s => ?_
    exact runs_then (runs_own (fun _ => rfl) (fun _ => rfl) fun _ => rfl) fun _ _ => runs_same runs_pure

theorem runs_ps {junk : Nat → UInt8} {b : Nat} : runs (ps L p junk a b) (fun _ s' => Own p s s') s := by
  refine runs_get (wpe_ite.mpr ⟨fun _ => runs_same runs_pure, fun _ => runs_then runs_growproc fun r s => ?_⟩)
  refine wpe_ite.mpr ⟨fun _ => runs_same runs_pure, fun _ => wpe_ite.mpr ⟨fun _ => runs_same runs_pure, fun _ => ?_⟩⟩
  exact runs_get (runs_same (runs_then runs_vm fun _ _ => runs_pure))

theorem runs_exec {path : List UInt8} {file : Option (List UInt8)} {argv : List Nat} :
    runs (exec L p path file argv) (fun _ s' => Own p s s') s := by
  refine runs_get ?_
  cases file with
  | none => exact runs_same runs_pure
  | some file =>
    refine runs_then (runs_same runs_vm) fun r s => ?_
    cases r with
    | none => exact runs_same runs_pure
    | some im =>
      refine runs_then (runs_same runs_setTrapframe) fun _ _ => ?_
      refine runs_then (runs_own (fun _ => rfl) (fun _ => rfl) fun _ => rfl) fun _ _ => ?_
      exact runs_same (runs_then runs_setTrapframe fun _ _ => runs_then runs_setTrapframe fun _ _ =>
        runs_then runs_vm fun _ _ => runs_pure)

theorem runs_sysExec {files : List UInt8 → Option (List UInt8)} {b : Nat} :
    runs (sysExec L p files a b) (fun _ s' => Own p s s') s := by
  refine runs_get (runs_then (runs_same runs_vm) fun r s => wpe_ite.mpr ⟨fun _ => runs_same runs_pure, fun _ => ?_⟩)
  refine runs_then (runs_same runs_vm) fun r s => ?_
  refine wpe_ite.mpr ⟨fun _ => runs_then runs_exec fun _ _ => ?_,
    fun _ => runs_then (runs_same runs_pure) fun _ _ => ?_⟩ <;>
  exact runs_same (runs_then runs_vm fun _ _ => runs_pure)

theorem runs_sysSbrk {n : Int} : runs (sysSbrk L p n) (fun _ s' => Own p s s') s :=
  runs_get (runs_then runs_growproc fun _ _ => runs_same (wpe_ite.mpr ⟨fun _ => runs_pure, fun _ => runs_pure⟩))

theorem runs_sysOpen {device : Option Bool} {omode : Nat} :
    runs (sysOpen L p device omode) (fun _ s' => Own p s s') s := by
  cases device with
  | none => exact runs_same runs_pure
  | some device =>
    refine runs_then (runs_same runs_filealloc) fun f s => ?_
    cases f with
    | none => exact runs_same runs_pure
    | some f =>
      refine runs_then runs_fdalloc fun fd s => runs_same ?_
      cases fd with
      | none => exact runs_then runs_fileclose fun _ _ => runs_pure
      | some fd => exact runs_then runs_setFile fun _ _ => runs_pure

theorem runs_sysChdir {dir : Option Nat} : runs (sysChdir p dir) (fun _ s' => Own p s s') s := by
  cases dir with
  | none => exact runs_same runs_pure
  | some ip => exact runs_then (runs_own (fun _ => rfl) (fun _ => rfl) fun _ => rfl) fun _ _ => runs_same runs_pure

end Calls

def freed (q : Proc) : Proc :=
  { q with
    trapframe := none, pagetable := none, sz := 0, pid := 0, parent := none, name := putBytes q.name 0 [0]
    chan := 0, killed := 0, xstate := 0, state := .unused }

/-- Entries that are not in use may have been used in between. -/
structure Idle (s s' : State) : Prop where
  proc : ∀ j, s'.proc j = s.proc j ∨ (s.proc j).state = .unused ∧ (s'.proc j).state = .unused ∧ Clean (s'.proc j)
  nextpid : s'.nextpid ≠ 0

/-- A process that `fork` has made: what it has is its parent's, or new. -/
structure Newborn (p : ProcId) (q₀ q : Proc) : Prop where
  state : q.state = .runnable
  killed : q.killed = 0
  xstate : q.xstate = 0
  chan : q.chan = 0
  parent : q.parent = some p
  pid : q.pid ≠ 0
  sz : q.sz = q₀.sz
  ofile : q.ofile = q₀.ofile
  cwd : q.cwd = q₀.cwd

section Fork

variable {L : Layout} {s s' : State} {p np : ProcId} {o c : Fd → Option FileId}

theorem clean_freed {q : Proc} (ho : ∀ fd, q.ofile fd = none) (hc : q.cwd = none) : Clean (freed q) where
  killed := rfl
  xstate := rfl
  chan := rfl
  parent := rfl
  pid := rfl
  sz := rfl
  pagetable := rfl
  trapframe := rfl
  ofile := ho
  cwd := hc

theorem runs_elim {o : Option Nat} {g : Nat → Kern Unit} (h : ∀ a, runs (g a) (fun _ s' => SameTable s s') s) :
    runs (o.elim (pure ()) g) (fun _ s' => SameTable s s') s := by
  cases o with
  | none => exact runs_pure
  | some a => exact h a

theorem runs_freeproc : runs (freeproc L p) (fun _ s' =>
    s'.proc = update s.proc p (freed (s.proc p)) ∧ s'.nextpid = s.nextpid) s := by
  refine runs_get (runs_seq (runs_elim fun _ => runs_vm) fun _ s1 h1 => ?_)
  rw [runs, wpe_bind]
  refine runs_setProc.mpr (runs_seq (runs_elim fun _ => runs_vm) fun _ s2 h2 => runs_setProc.mpr ⟨?_, ?_⟩)
  · simp only [h2.1, h1.1, update_self, update_idem]
    rfl
  · exact h2.2.trans h1.2

/-- The entry of `np` is freed, with the files and the directory that it had. -/
def Freed (s s' : State) (np : ProcId) : Prop :=
  ∃ q, s'.proc = update s.proc np (freed q) ∧ q.ofile = (s.proc np).ofile ∧ q.cwd = (s.proc np).cwd

def Taken (s s' : State) (np : ProcId) (pid : Nat) : Prop :=
  ∃ tf pt, s'.proc = update s.proc np { s.proc np with
    pid := pid, state := .used, trapframe := some tf, pagetable := some pt }

theorem Freed.idle (hf : Freed s s' np) (h : Slots s) (hst : (s.proc np).state = .unused) (hn : s'.nextpid ≠ 0) :
    Idle s s' := by
  obtain ⟨q, hp, ho, hc⟩ := hf
  have hclean := (h.entry np).clean hst
  refine ⟨fun j => ?_, hn⟩
  rw [hp]
  by_cases hj : j = np
  · subst hj
    rw [update_self]
    exact .inr ⟨hst, rfl, clean_freed (fun fd => by rw [ho]; exact hclean.ofile fd) (hc.trans hclean.cwd)⟩
  · exact .inl (update_of_ne hj _ _)

theorem runs_initSlot : runs (initSlot L np) (fun r s' => s'.nextpid = s.nextpid ∧
    match r with
    | none => Freed s s' np
    | some np' => np' = np ∧ Taken s s' np (s.proc np).pid) s := by
  rw [initSlot, runs, wpe_bind]
  refine runs_setProc.mpr (runs_seq runs_vm fun r s1 h1 => ?_)
  cases r with
  | none =>
    rw [runs, wpe_bind]
    refine runs_setProc.mpr ?_
    rw [wpe_bind]
    refine wpe_mono runs_freeproc fun _ s2 h2 => wpe_pure.mpr ⟨h2.2.trans h1.2, ?_⟩
    simp only [h1.1, update_self, update_idem] at h2
    exact ⟨_, h2.1, rfl, rfl⟩
  | some tf =>
    rw [runs, wpe_bind]
    refine runs_setProc.mpr (runs_seq runs_vm fun r s2 h2 => ?_)
    cases r with
    | none =>
      rw [runs, wpe_bind]
      refine runs_setProc.mpr ?_
      rw [wpe_bind]
      refine wpe_mono runs_freeproc fun _ s3 h3 => wpe_pure.mpr ⟨h3.2.trans (h2.2.trans h1.2), ?_⟩
      simp only [h2.1, h1.1, update_self, update_idem] at h3
      exact ⟨_, h3.1, rfl, rfl⟩
    | some pt =>
      rw [runs, wpe_bind]
      refine runs_setProc.mpr (wpe_pure.mpr ⟨h2.2.trans h1.2, rfl, tf, pt, ?_⟩)
      simp only [h2.1, h1.1, update_self, update_idem]

theorem runs_allocproc (h : Slots s) : runs (allocproc L) (fun r s' => s'.nextpid ≠ 0 ∧
    match r with
    | none => Idle s s'
    | some np => (s.proc np).state = .unused ∧ Taken s s' np s.nextpid) s := by
  refine runs_get ?_
  split
  · exact wpe_pure.mpr ⟨h.nextpid, fun j => .inl rfl, h.nextpid⟩
  · rename_i np hf
    have hst : (s.proc np).state = .unused := by simpa using List.find?_some hf
    simp only [allocpid, runs, wpe_bind]
    refine wpe_get.mpr (wpe_set.mpr (wpe_pure.mpr (runs_setProc.mpr ?_)))
    refine wpe_mono runs_initSlot fun r s1 h1 => ?_
    obtain ⟨hn, h1⟩ := h1
    have hn : s1.nextpid ≠ 0 := by
      rw [hn]
      exact Nat.succ_ne_zero _
    refine ⟨hn, ?_⟩
    cases r with
    | none =>
      refine Freed.idle ?_ h hst hn
      simpa only [Freed, update_self, update_idem] using h1
    | some np' =>
      obtain ⟨rfl, h1⟩ := h1
      exact ⟨hst, by simpa only [Taken, update_self, update_idem] using h1⟩

def dupped (o c : Fd → Option FileId) (fds : List Fd) (fd : Fd) : Option FileId :=
  if fd ∈ fds then (o fd).or (c fd) else c fd

theorem dupped_nil : dupped o c [] = c := by
  funext fd
  simp [dupped]

theorem dupped_cons {fd : Fd} {fds : List Fd} :
    dupped o (update c fd ((o fd).or (c fd))) fds = dupped o c (fd :: fds) := by
  funext x
  unfold dupped
  by_cases hx : x = fd
  · subst hx
    cases o x <;> simp
  · simp [hx]

theorem runs_dupFiles (hp : np ≠ p) (fds : List Fd) : ∀ s, runs (dupFiles p np fds) (fun _ s' =>
    s'.nextpid = s.nextpid ∧ s'.proc = update s.proc np
      { s.proc np with ofile := dupped (s.proc p).ofile (s.proc np).ofile fds }) s := by
  induction fds with
  | nil =>
    intro s
    refine wpe_pure.mpr ⟨rfl, ?_⟩
    rw [dupped_nil]
    exact (update_eq_self np s.proc).symm
  | cons fd fds ih =>
    intro s
    refine runs_get ?_
    rw [runs, wpe_bind]
    -- one file
    have hone : runs (((s.proc p).ofile fd).elim (pure ()) fun f => do
        filedup f
        setOfile np fd (some f)) (fun _ s' => s'.nextpid = s.nextpid ∧ s'.proc = update s.proc np
          { s.proc np with
            ofile := update (s.proc np).ofile fd (((s.proc p).ofile fd).or ((s.proc np).ofile fd)) }) s := by
      cases hf : (s.proc p).ofile fd with
      | none =>
        refine wpe_pure.mpr ⟨rfl, ?_⟩
        simp
      | some f =>
        refine runs_seq runs_filedup fun _ s1 h1 => runs_setProc.mpr ⟨h1.2, ?_⟩
        simp [h1.1]
    refine wpe_mono hone fun _ s1 h1 => wpe_mono (ih s1) fun _ s2 h2 => ⟨h2.1.trans h1.1, ?_⟩
    rw [h2.2, h1.2]
    simp only [update_self, update_of_ne hp.symm, update_idem, dupped_cons]

theorem dupped_all (hc : ∀ fd, c fd = none) : dupped o c (List.finRange NOFILE) = o := by
  funext fd
  simp [dupped, hc]

def Forked (p : ProcId) (s s' : State) : Prop :=
  Idle s s' ∨ s'.nextpid ≠ 0 ∧ ∃ np, (s.proc np).state = .unused ∧ (∀ j, j ≠ np → s'.proc j = s.proc j) ∧
    Newborn p (s.proc p) (s'.proc np)

theorem runs_fork (h : Slots s) (hp : (s.proc p).state ≠ .unused) : runs (fork L p) (fun _ s' => Forked p s s') s := by
  rw [fork, runs, wpe_bind]
  refine wpe_mono (runs_allocproc h) fun r s1 h1 => ?_
  obtain ⟨hn, h1⟩ := h1
  cases r with
  | none => exact wpe_pure.mpr (.inl h1)
  | some np =>
    obtain ⟨hst, tf, pt, h1⟩ := h1
    have hclean := (h.entry np).clean hst
    have hne : np ≠ p := by
      rintro rfl
      exact hp hst
    refine runs_get (runs_seq runs_vm fun r s2 h2 => ?_)
    have hq := h2.1.trans h1
    rw [runs, wpe_ite]
    refine ⟨fun _ => ?_, fun _ => ?_⟩
    · rw [wpe_bind]
      refine wpe_mono runs_freeproc fun _ s3 h3 => wpe_pure.mpr (.inl (Freed.idle ?_ h hst ?_))
      · simp only [hq, update_self, update_idem] at h3
        exact ⟨_, h3.1, rfl, rfl⟩
      · rw [h3.2, h2.2]
        exact hn
    · rw [wpe_bind]
      refine runs_setProc.mpr (runs_get (runs_seq runs_vm fun _ s3 h3 => runs_seq runs_setTrapframe fun _ s4 h4 => ?_))
      rw [runs, wpe_bind]
      refine wpe_mono (runs_dupFiles hne _ s4) fun _ s5 h5 => ?_
      rw [wpe_bind]
      refine runs_setProc.mpr (runs_get ?_)
      rw [runs, wpe_bind]
      refine runs_setProc.mpr ?_
      rw [wpe_bind]
      refine runs_setProc.mpr (wpe_pure.mpr (.inr ⟨?_, np, hst, fun j hj => ?_, ?_⟩))
      · rw [h5.1, h4.2, h3.2, h2.2]
        exact hn
      · simp only [h5.2, h4.1, h3.1, hq, update_of_ne hj]
      · simp only [h5.2, h4.1, h3.1, hq, h1, update_self, update_of_ne hne.symm,
          dupped_all hclean.ofile]
        exact ⟨rfl, hclean.killed, hclean.xstate, hclean.chan, rfl, h.nextpid, rfl, rfl, rfl⟩

end Fork

/-- What `exit` leaves: a zombie without files, and children that have another parent. -/
structure Exits (p : ProcId) (s s' : State) : Prop where
  state : (s'.proc p).state = .zombie
  ofile : ∀ fd, (s'.proc p).ofile fd = none
  cwd : (s'.proc p).cwd = none
  pid : (s'.proc p).pid = (s.proc p).pid
  other : ∀ j, j ≠ p → s'.proc j = s.proc j ∨
    (s.proc j).parent = some p ∧ ∃ o, s'.proc j = { s.proc j with parent := o }
  nextpid : s'.nextpid = s.nextpid

section Exit

variable {L : Layout} {s s' : State} {p : ProcId}

theorem runs_closeFiles (fds : List Fd) : ∀ s, runs (closeFiles L p fds) (fun _ s' => s'.nextpid = s.nextpid ∧
    s'.proc = update s.proc p
      { s.proc p with ofile := fun fd => if fd ∈ fds then none else (s.proc p).ofile fd }) s := by
  induction fds with
  | nil =>
    intro s
    refine wpe_pure.mpr ⟨rfl, ?_⟩
    simp
  | cons fd fds ih =>
    intro s
    refine runs_get ?_
    rw [runs, wpe_bind]
    -- one file
    have hone : runs (((s.proc p).ofile fd).elim (pure ()) fun f => do
        fileclose L f
        setOfile p fd none) (fun _ s' => s'.nextpid = s.nextpid ∧ s'.proc = update s.proc p
          { s.proc p with ofile := update (s.proc p).ofile fd none }) s := by
      cases hf : (s.proc p).ofile fd with
      | none =>
        refine wpe_pure.mpr ⟨rfl, ?_⟩
        rw [← hf]
        simp
      | some f =>
        refine runs_seq runs_fileclose fun _ s1 h1 => runs_setProc.mpr ⟨h1.2, ?_⟩
        simp [h1.1]
    refine wpe_mono hone fun _ s1 h1 => wpe_mono (ih s1) fun _ s2 h2 => ⟨h2.1.trans h1.1, ?_⟩
    rw [h2.2, h1.2]
    simp only [update_self, update_idem]
    congr 2
    funext x
    by_cases hx : x = fd <;> simp [hx]

theorem runs_exit {status : Int} : runs (exit L p status) (fun _ s' => Exits p s s') s := by
  refine runs_get (wpe_ite.mpr ⟨fun _ => wpe_throw.mpr trivial, fun _ => ?_⟩)
  rw [wpe_bind]
  refine wpe_mono (runs_closeFiles _ s) fun _ s1 h1 => ?_
  rw [wpe_bind]
  refine runs_setProc.mpr ?_
  rw [wpe_bind]
  refine wpe_modify.mpr (runs_setProc.mpr ?_)
  simp only [h1.2, update_self, update_idem, List.mem_finRange, if_true]
  refine ⟨by simp, fun fd => ?_, ?_, ?_, fun j hj => ?_, h1.1⟩
  · by_cases hpar : (s.proc p).parent = some p <;> simp [hpar]
  · by_cases hpar : (s.proc p).parent = some p <;> simp [hpar]
  · by_cases hpar : (s.proc p).parent = some p <;> simp [hpar]
  · simp only [update_of_ne hj]
    split
    · exact .inr ⟨‹_›, _, rfl⟩
    · exact .inl rfl

theorem runs_wait {addr : Nat} : runs (wait L p addr) (fun _ s' => SameTable s s' ∨
    ∃ pp, (s.proc pp).state = .zombie ∧ s'.proc = update s.proc pp (freed (s.proc pp)) ∧
      s'.nextpid = s.nextpid) s := by
  refine runs_get ?_
  split
  · rename_i pp hf
    have hz : (s.proc pp).state = .zombie := by
      have := List.find?_some hf
      simp only [decide_eq_true_eq] at this
      exact this.2
    have hrest : ∀ (r : Int) (s1 : State), SameTable s s1 → runs (if r < 0 then pure (-1) else do
        freeproc L pp
        pure ((s.proc pp).pid : Int)) (fun _ s' => SameTable s s' ∨ ∃ pp, (s.proc pp).state = .zombie ∧
          s'.proc = update s.proc pp (freed (s.proc pp)) ∧ s'.nextpid = s.nextpid) s1 := by
      intro r s1 h1
      refine wpe_ite.mpr ⟨fun _ => wpe_pure.mpr (.inl h1), fun _ => ?_⟩
      rw [wpe_bind]
      refine wpe_mono runs_freeproc fun _ s2 h2 => wpe_pure.mpr (.inr ⟨pp, hz, ?_, h2.2.trans h1.2⟩)
      rw [h2.1, h1.1]
    refine wpe_ite.mpr ⟨fun _ => runs_seq runs_vm hrest, fun _ => runs_seq runs_pure hrest⟩
  · exact wpe_ite.mpr ⟨fun _ => wpe_pure.mpr (.inl .refl), fun _ => wpe_throw.mpr trivial⟩

theorem runs_kill {pid : Int} : runs (kill pid) (fun _ s' => s'.nextpid = s.nextpid ∧
    match (List.finRange NPROC).find? fun p => ((s.proc p).pid : Int) = pid with
    | none => s'.proc = s.proc
    | some j => s'.proc = update s.proc j { s.proc j with
        killed := 1, state := if (s.proc j).state = .sleeping then .runnable else (s.proc j).state }) s := by
  refine runs_get ?_
  cases (List.finRange NPROC).find? fun p => ((s.proc p).pid : Int) = pid with
  | none => exact wpe_pure.mpr ⟨rfl, rfl⟩
  | some j =>
    rw [runs, wpe_bind]
    exact runs_setProc.mpr (wpe_pure.mpr ⟨rfl, rfl⟩)

end Exit

end Sys
end Xv6
