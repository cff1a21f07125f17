import Mathlib.Logic.Function.Basic
import Xv6.Lib.Trans

/-!
# Xv6.Sched.Intr

The interrupt flag under `push_off`, `pop_off`, `acquire` and `release` of `kernel/spinlock.c`, with the switches
between the schedulers and the kernel threads of processes in `kernel/proc.c`. `noff` and `intena` belong to a CPU; a
thread takes `intena` along through `sched`.

* `Inv`: `noff` is the nesting of the thread that runs, and `intena` is the flag that it found.
* `intr_restored`: no lock is held with interrupts on, `pop_off` does not panic, and the flag is as it was when the
  nesting of a thread has ended, on whatever CPU.
-/

namespace Xv6
namespace Intr

open Function

/-- `struct cpu`, and the interrupt flag of the CPU. -/
structure Cpu where
  noff : Nat
  intena : Bool
  intr : Bool

def Cpu.pushOff (k : Cpu) : Cpu :=
  { noff := k.noff + 1, intena := if k.noff = 0 then k.intr else k.intena, intr := false }

def Cpu.popOff (k : Cpu) : Except String Cpu :=
  if k.intr then .error "pop_off - interruptible"
  else if k.noff < 1 then .error "pop_off"
  else .ok { k with noff := k.noff - 1, intr := decide (k.noff - 1 = 0) && k.intena }

/-- `cur` is the process on a CPU, if its scheduler does not run. A process is `parked` from its `sched` to the next
switch to it, and `fresh` before the first one; `saved` is the variable `intena` of its `sched`. Not in the source: the
locks and the other `push_off`s that a thread has yet to undo, when it runs (`held`, `pushes`), and the flag before the
outermost one of a process. -/
structure State (C P L : Type*) where
  cpu : C → Cpu
  cur : C → Option P
  lock : L → Option C
  parked : P → Bool
  fresh : P → Bool
  saved : P → Bool
  held : C ⊕ P → List L
  pushes : C ⊕ P → Nat
  before : P → Bool
  panicked : Option String

/-- What the thread on a CPU does. -/
inductive Event (C P L : Type*)
  | pushOff (c : C)
  | popOff (c : C)
  | acquire (c : C) (l : L)
  | release (c : C) (l : L)
  | setIntr (c : C) (b : Bool)
  | sched (c : C)
  | dispatch (c : C) (p : P)

variable {C P L : Type*}

namespace State

/-- The thread on a CPU. -/
def who (s : State C P L) (c : C) : C ⊕ P :=
  match s.cur c with
  | none => .inl c
  | some p => .inr p

/-- The nesting of a thread. -/
def depth (s : State C P L) (w : C ⊕ P) : Nat := (s.held w).length + s.pushes w

end State

theorem who_eq_inr {s : State C P L} {c : C} {p : P} : s.who c = .inr p ↔ s.cur c = some p := by
  rw [State.who]
  split <;> simp_all

theorem who_eq_inl {s : State C P L} {c c' : C} : s.who c = .inl c' ↔ s.cur c = none ∧ c = c' := by
  rw [State.who]
  split <;> simp_all

section

variable [DecidableEq C] [DecidableEq P] [DecidableEq L]

namespace State

def setCpu (s : State C P L) (c : C) (k : Cpu) : State C P L := { s with cpu := update s.cpu c k }

/-- What the thread on `c` has yet to undo. -/
def setNest (s : State C P L) (c : C) (ls : List L) (n : Nat) : State C P L :=
  { s with held := update s.held (s.who c) ls, pushes := update s.pushes (s.who c) n }

def pushOff (s : State C P L) (c : C) : State C P L :=
  { s.setCpu c (s.cpu c).pushOff with
    before := fun p => if s.who c = .inr p ∧ s.depth (.inr p) = 0 then (s.cpu c).intr else s.before p }

def popOff (s : State C P L) (c : C) : State C P L :=
  match (s.cpu c).popOff with
  | .ok k => s.setCpu c k
  | .error msg => { s with panicked := some msg }

def panic (s : State C P L) (msg : String) : State C P L := { s with panicked := some msg }

end State

/-- A thread undoes what it has done, in any order, and calls `sched` with its own lock only. Outside of all nesting
the flag may change, as by `intr_on` or a trap. An `acquire` is possible when the lock is free. A panic is recorded, and
steps behind it do no harm. -/
def step (plock : P → L) (s : State C P L) : Event C P L → Option (State C P L)
  | .pushOff c => some ((s.pushOff c).setNest c (s.held (s.who c)) (s.pushes (s.who c) + 1))
  | .popOff c =>
    if s.pushes (s.who c) = 0 then none
    else some ((s.popOff c).setNest c (s.held (s.who c)) (s.pushes (s.who c) - 1))
  | .acquire c l =>
    if l ∈ s.held (s.who c) then none
    else if s.lock l = some c then some (s.panic "acquire")
    else if s.lock l ≠ none then none
    else some ({ s.pushOff c with lock := update s.lock l (some c) }.setNest c (l :: s.held (s.who c)) (s.pushes (s.who c)))
  | .release c l =>
    if l ∉ s.held (s.who c) then none
    else if s.lock l ≠ some c then some (s.panic "release")
    else some ({ s.popOff c with lock := update s.lock l none }.setNest c ((s.held (s.who c)).erase l) (s.pushes (s.who c)))
  | .setIntr c b => if s.depth (s.who c) ≠ 0 then none else some (s.setCpu c { s.cpu c with intr := b })
  | .sched c =>
    match s.cur c with
    | none => none
    | some p =>
      if s.held (.inr p) ≠ [plock p] ∨ s.pushes (.inr p) ≠ 0 then none
      else if s.lock (plock p) ≠ some c then some (s.panic "sched p->lock")
      else if (s.cpu c).noff ≠ 1 then some (s.panic "sched locks")
      else if (s.cpu c).intr then some (s.panic "sched interruptible")
      else some { s with
        cur := update s.cur c none, parked := update s.parked p true, saved := update s.saved p (s.cpu c).intena }
  | .dispatch c p =>
    if s.cur c = none ∧ s.held (.inl c) = [plock p] ∧ s.pushes (.inl c) = 0 ∧ s.parked p = true then
      some { s with
        cur := update s.cur c (some p), parked := update s.parked p false, fresh := update s.fresh p false
        cpu := update s.cpu c { s.cpu c with intena := if s.fresh p then (s.cpu c).intena else s.saved p }
        before := if s.fresh p then update s.before p (s.cpu c).intena else s.before }
    else none

end

/-- All CPUs are in their schedulers. A new process starts in `forkret`, with its lock. -/
def boot (plock : P → L) : State C P L where
  cpu _ := ⟨0, false, false⟩
  cur _ := none
  lock _ := none
  parked _ := true
  fresh _ := true
  saved _ := false
  held w := w.elim (fun _ => []) fun p => [plock p]
  pushes _ := 0
  before _ := false
  panicked := none

/-- `pop_off` has panicked. -/
def PopPanic (s : State C P L) : Prop := s.panicked = some "pop_off" ∨ s.panicked = some "pop_off - interruptible"

/-- The fields of a CPU are right for the thread on it. A scheduler that waits for a process has nesting 1. -/
structure OnCpu (s : State C P L) (c : C) : Prop where
  noff : (s.cpu c).noff = s.depth (s.who c)
  off : 0 < (s.cpu c).noff → (s.cpu c).intr = false
  proc : ∀ p, s.cur c = some p → s.depth (.inl c) = 1 ∧ s.parked p = false ∧
    (0 < (s.cpu c).noff → (s.cpu c).intena = s.before p)

def Parked (s : State C P L) (p : P) : Prop :=
  s.parked p = true → s.depth (.inr p) = 1 ∧ (s.fresh p = false → s.saved p = s.before p)

structure Inv (s : State C P L) : Prop where
  cpu : ∀ c, OnCpu s c
  parked : ∀ p, Parked s p
  uniq : ∀ c c' p, s.cur c = some p → s.cur c' = some p → c = c'
  noPanic : ¬ PopPanic s

section

variable {plock : P → L} {s s' : State C P L} {c : C} {p : P}

theorem inv_boot : Inv (boot plock : State C P L) := by
  refine ⟨fun c => ⟨rfl, fun h => absurd h (Nat.lt_irrefl 0), by rintro _ ⟨⟩⟩, fun p _ => ⟨rfl, by rintro ⟨⟩⟩,
    by rintro _ _ _ ⟨⟩, ?_⟩
  rintro (h | h) <;> cases h

/-- The thread on `c` and a process that it switches to change, and nothing else. -/
theorem Inv.change (h : Inv s) (hother : ∀ d, d ≠ c → s'.cpu d = s.cpu d ∧ s'.cur d = s.cur d)
    (hdepth : ∀ w, w ≠ s.who c → s'.depth w = s.depth w)
    (hnew : ∀ q, s'.cur c = some q → s.cur c = some q ∨ s.parked q = true)
    (hsame : ∀ q, s.cur c ≠ some q → s'.cur c ≠ some q → s'.parked q = s.parked q ∧ s'.fresh q = s.fresh q ∧
      s'.saved q = s.saved q ∧ s'.before q = s.before q)
    (hc : OnCpu s' c) (hpark : ∀ q, s.cur c = some q ∨ s'.cur c = some q → Parked s' q) (hpanic : ¬ PopPanic s') :
    Inv s' := by
  -- a process on another CPU is neither of the two
  have hne : ∀ {d q}, d ≠ c → s.cur d = some q → s.cur c ≠ some q ∧ s'.cur c ≠ some q := fun {d q} hd hq => by
    have hn : s.cur c ≠ some q := fun hq' => hd (h.uniq d c q hq hq')
    refine ⟨hn, fun hq' => ?_⟩
    cases ((hnew q hq').resolve_left hn).symm.trans ((h.cpu d).proc q hq).2.1
  refine ⟨fun d => ?_, fun q => ?_, fun d d' q hq hq' => ?_, hpanic⟩
  · by_cases hd : d = c
    · rw [hd]
      exact hc
    obtain ⟨hcpu, hcur⟩ := hother d hd
    have hwho : s'.who d = s.who d := by
      rw [State.who, hcur]
      rfl
    have hw : s.who d ≠ s.who c := fun hw => by
      cases hx : s.who c with
      | inl e => exact hd ((who_eq_inl.mp (hw.trans hx)).2.trans (who_eq_inl.mp hx).2.symm)
      | inr q => exact hd (h.uniq d c q (who_eq_inr.mp (hw.trans hx)) (who_eq_inr.mp hx))
    have hd' := h.cpu d
    refine ⟨?_, ?_, fun q hq => ?_⟩
    · rw [hcpu, hwho, hdepth _ hw, hd'.noff]
    · rw [hcpu]
      exact hd'.off
    · rw [hcur] at hq
      obtain ⟨hpq, -, -, hbq⟩ := hsame q (hne hd hq).1 (hne hd hq).2
      rw [hcpu, hpq, hbq, hdepth _ fun hx => hd (who_eq_inl.mp hx.symm).2.symm]
      exact hd'.proc q hq
  · by_cases hq : s.cur c = some q ∨ s'.cur c = some q
    · exact hpark q hq
    obtain ⟨h1, h2⟩ := not_or.mp hq
    obtain ⟨e1, e2, e3, e4⟩ := hsame q h1 h2
    rw [Parked, e1, e2, e3, e4, hdepth _ fun hx => h1 (who_eq_inr.mp hx.symm)]
    exact h.parked q
  · by_cases hd : d = c <;> by_cases hd' : d' = c
    · rw [hd, hd']
    · rw [(hother d' hd').2] at hq'
      exact absurd (hd ▸ hq) (hne hd' hq').2
    · rw [(hother d hd).2] at hq
      exact absurd (hd' ▸ hq') (hne hd hq).2
    · rw [(hother d hd).2] at hq
      rw [(hother d' hd').2] at hq'
      exact h.uniq d d' q hq hq'

theorem Inv.panic (h : Inv s) {msg : String} (h1 : msg ≠ "pop_off") (h2 : msg ≠ "pop_off - interruptible") :
    Inv { s with panicked := some msg } :=
  ⟨fun c => ⟨(h.cpu c).noff, (h.cpu c).off, (h.cpu c).proc⟩, h.parked, h.uniq,
    fun hp => hp.elim (fun he => h1 (Option.some.inj he)) fun he => h2 (Option.some.inj he)⟩

/-- Inside the nesting `pop_off` does not panic, and its last call sets the flag to what the thread found. -/
theorem Inv.popOff (h : Inv s) (hpos : 0 < s.depth (s.who c)) : (s.cpu c).popOff =
    .ok { s.cpu c with noff := (s.cpu c).noff - 1, intr := decide ((s.cpu c).noff - 1 = 0) && (s.cpu c).intena } := by
  rw [← (h.cpu c).noff] at hpos
  rw [Cpu.popOff, (h.cpu c).off hpos, if_neg Bool.false_ne_true, if_neg (Nat.not_lt.mpr hpos)]

end

variable [DecidableEq C] [DecidableEq P] {plock : P → L} {s s' : State C P L} {c : C} {p : P}
  {ls : List L} {n : Nat}

/-- A thread changes its CPU and its own nesting. -/
theorem Inv.own (h : Inv s) {k : Cpu} (hcpu : s'.cpu = update s.cpu c k) (hcur : s'.cur = s.cur)
    (hheld : s'.held = update s.held (s.who c) ls) (hpushes : s'.pushes = update s.pushes (s.who c) n)
    (hrest : s'.parked = s.parked ∧ s'.fresh = s.fresh ∧ s'.saved = s.saved) (hnoff : k.noff = ls.length + n)
    (hoff : 0 < k.noff → k.intr = false) (hint : ∀ p, s.cur c = some p → 0 < k.noff → k.intena = s'.before p)
    (hbefore : ∀ p, s.cur c ≠ some p → s'.before p = s.before p) (hpanic : s'.panicked = s.panicked) : Inv s' := by
  obtain ⟨hparked, hfresh, hsaved⟩ := hrest
  have hdepth : ∀ w, w ≠ s.who c → s'.depth w = s.depth w := fun w hw => by
    rw [State.depth, hheld, hpushes, update_of_ne hw, update_of_ne hw]
    rfl
  have hrun : ∀ q, s.cur c = some q → s'.parked q = false := fun q hq => by
    rw [hparked]
    exact ((h.cpu c).proc q hq).2.1
  refine h.change (c := c) (fun d hd => ⟨by rw [hcpu, update_of_ne hd], by rw [hcur]⟩) hdepth
    (fun q hq => .inl (hcur ▸ hq)) (fun q hq _ => ⟨by rw [hparked], by rw [hfresh], by rw [hsaved], hbefore q hq⟩)
    ⟨?_, ?_, fun q hq => ?_⟩ (fun q hq hp => ?_) (by rw [PopPanic, hpanic]; exact h.noPanic)
  · rw [show s'.who c = s.who c by rw [State.who, hcur]; rfl, State.depth, hcpu, hheld, hpushes, update_self, update_self,
      update_self, hnoff]
  · rw [hcpu, update_self]
    exact hoff
  · rw [hcur] at hq
    rw [hcpu, update_self, hdepth]
    · exact ⟨((h.cpu c).proc q hq).1, hrun q hq, hint q hq⟩
    · rw [who_eq_inr.mpr hq]
      exact Sum.inl_ne_inr
  · rw [hcur, or_self] at hq
    cases (hrun q hq).symm.trans hp

theorem Inv.enter (h : Inv s) (lock : L → Option C) (hdepth : ls.length + n = s.depth (s.who c) + 1) :
    Inv (({ s.pushOff c with lock := lock }).setNest c ls n) := by
  have hno := (h.cpu c).noff
  refine h.own (c := c) rfl rfl rfl rfl ⟨rfl, rfl, rfl⟩ ?_ (fun _ => rfl) (fun p hc _ => ?_) (fun p hc => ?_) rfl
  · show (s.cpu c).noff + 1 = _
    omega
  · have hw := who_eq_inr.mpr hc
    show (if (s.cpu c).noff = 0 then _ else _) = if s.who c = .inr p ∧ s.depth (.inr p) = 0 then _ else _
    rw [hno, hw]
    by_cases h0 : s.depth (.inr p) = 0
    · rw [if_pos h0, if_pos ⟨rfl, h0⟩]
    · rw [if_neg h0, if_neg fun hc => h0 hc.2]
      exact ((h.cpu c).proc p hc).2.2 (by rw [hno, hw]; omega)
  · exact if_neg fun hw => hc (who_eq_inr.mp hw.1)

theorem Inv.leave (h : Inv s) (lock : L → Option C) (hdepth : s.depth (s.who c) = ls.length + n + 1) :
    Inv (({ s.popOff c with lock := lock }).setNest c ls n) := by
  have hno := (h.cpu c).noff
  rw [State.popOff, h.popOff (by omega)]
  refine h.own (c := c) rfl rfl rfl rfl ⟨rfl, rfl, rfl⟩ ?_ (fun hk => ?_) (fun p hc _ => ?_) (fun _ _ => rfl) rfl
  · show (s.cpu c).noff - 1 = _
    omega
  · have hk : 0 < (s.cpu c).noff - 1 := hk
    show (decide ((s.cpu c).noff - 1 = 0) && _) = false
    rw [decide_eq_false (by omega), Bool.false_and]
  · exact ((h.cpu c).proc p hc).2.2 (by omega)

/-- The process on `c` gives it back to the scheduler, with nesting 1. -/
theorem Inv.sched (h : Inv s) (hc : s.cur c = some p) (hd : s.depth (.inr p) = 1) : Inv { s with
    cur := update s.cur c none, parked := update s.parked p true, saved := update s.saved p (s.cpu c).intena } := by
  have hno : (s.cpu c).noff = 1 := by rw [(h.cpu c).noff, who_eq_inr.mpr hc, hd]
  have hpr := (h.cpu c).proc p hc
  have hcur : update s.cur c none c = none := update_self ..
  refine h.change (c := c) (fun d hdc => ⟨rfl, update_of_ne hdc ..⟩) (fun _ _ => rfl)
    (fun q hq => by cases hcur.symm.trans hq) (fun q hq _ => ?_) ⟨?_, (h.cpu c).off, fun q hq => ?_⟩ (fun q hq _ => ?_) h.noPanic
  · have hqp : q ≠ p := fun hqp => hq (hqp ▸ hc)
    exact ⟨update_of_ne hqp .., rfl, update_of_ne hqp .., rfl⟩
  · rw [who_eq_inl.mpr ⟨hcur, rfl⟩]
    exact hno.trans hpr.1.symm
  · cases hcur.symm.trans hq
  · rcases hq with hq | hq
    · cases hc.symm.trans hq
      exact ⟨hd, fun _ => (update_self ..).trans (hpr.2.2 (by omega))⟩
    · cases hcur.symm.trans hq

/-- The scheduler on `c` switches to `p`, which finds the nesting that it left. -/
theorem Inv.dispatch (h : Inv s) (hc : s.cur c = none) (hd : s.depth (.inl c) = 1) (hp : s.parked p = true)
    {k : Cpu} {before : P → Bool} (hk : k.noff = (s.cpu c).noff ∧ k.intr = (s.cpu c).intr ∧ k.intena = before p)
    (hbefore : ∀ q, q ≠ p → before q = s.before q) : Inv { s with
      cur := update s.cur c (some p), parked := update s.parked p false, fresh := update s.fresh p false
      cpu := update s.cpu c k, before := before } := by
  have hno : (s.cpu c).noff = 1 := by rw [(h.cpu c).noff, who_eq_inl.mpr ⟨hc, rfl⟩, hd]
  have hcur : update s.cur c (some p) c = some p := update_self ..
  refine h.change (c := c) (fun d hdc => ⟨update_of_ne hdc .., update_of_ne hdc ..⟩) (fun _ _ => rfl) (fun q hq => ?_)
    (fun q _ hq => ?_) ⟨?_, ?_, fun q hq => ?_⟩ (fun q hq hq' => ?_) h.noPanic
  · cases hcur.symm.trans hq
    exact .inr hp
  · have hqp : q ≠ p := fun hqp => hq (hqp ▸ hcur)
    exact ⟨update_of_ne hqp .., update_of_ne hqp .., rfl, hbefore q hqp⟩
  · rw [who_eq_inr.mpr hcur]
    show (update s.cpu c k c).noff = s.depth (.inr p)
    rw [update_self, hk.1, hno, (h.parked p hp).1]
  · intro _
    show (update s.cpu c k c).intr = false
    rw [update_self, hk.2.1]
    exact (h.cpu c).off (by omega)
  · cases hcur.symm.trans hq
    refine ⟨hd, update_self .., fun _ => ?_⟩
    show (update s.cpu c k c).intena = before p
    rw [update_self, hk.2.2]
  · rcases hq with hq | hq
    · cases hc.symm.trans hq
    · cases hcur.symm.trans hq
      cases (update_self ..).symm.trans hq'

variable [DecidableEq L]

theorem inv_step {e : Event C P L} (h : Inv s) (hs : step plock s e = some s') : Inv s' := by
  cases e with
  | pushOff c =>
    cases hs
    exact h.enter s.lock (Nat.add_assoc ..).symm
  | popOff c =>
    simp only [step] at hs
    split at hs <;> cases hs
    rename_i h0
    have hd : s.depth (s.who c) = (s.held (s.who c)).length + (s.pushes (s.who c) - 1) + 1 := by
      rw [State.depth]
      omega
    have hl := h.leave s.lock hd
    rwa [show ({ s.popOff c with lock := s.lock } : State C P L) = s.popOff c by unfold State.popOff; split <;> rfl] at hl
  | acquire c l =>
    simp only [step] at hs
    split at hs
    · cases hs
    split at hs
    · cases hs
      exact h.panic (by decide) (by decide)
    split at hs <;> cases hs
    refine h.enter _ ?_
    rw [State.depth, List.length_cons]
    omega
  | release c l =>
    simp only [step] at hs
    split at hs
    · cases hs
    rename_i hmem
    split at hs <;> cases hs
    · exact h.panic (by decide) (by decide)
    have hlen := List.length_erase_of_mem (not_not.mp hmem)
    have hpos := List.length_pos_of_mem (not_not.mp hmem)
    refine h.leave _ ?_
    rw [State.depth]
    omega
  | setIntr c b =>
    simp only [step] at hs
    split at hs <;> cases hs
    rename_i h0
    have hno := (h.cpu c).noff.trans (not_not.mp h0)
    exact h.own (c := c) rfl rfl (update_eq_self ..).symm (update_eq_self ..).symm ⟨rfl, rfl, rfl⟩ (h.cpu c).noff
      (fun hk => absurd hno (Nat.ne_of_gt hk)) (fun p _ hk => absurd hno (Nat.ne_of_gt hk)) (fun _ _ => rfl) rfl
  | sched c =>
    simp only [step] at hs
    split at hs
    · cases hs
    rename_i p hc
    split at hs
    · cases hs
    rename_i hg
    obtain ⟨h1, h2⟩ := not_or.mp hg
    have hd : s.depth (.inr p) = 1 := by
      rw [State.depth, not_not.mp h1, not_not.mp h2]
      rfl
    (repeat' split at hs) <;> cases hs
    · exact h.panic (by decide) (by decide)
    · exact h.panic (by decide) (by decide)
    · exact h.panic (by decide) (by decide)
    · exact h.sched hc hd
  | dispatch c p =>
    simp only [step] at hs
    split at hs <;> cases hs
    rename_i hg
    obtain ⟨hc, h1, h2, hp⟩ := hg
    have hd : s.depth (.inl c) = 1 := by
      rw [State.depth, h1, h2]
      rfl
    refine h.dispatch hc hd hp ?_ fun q hq => ?_
    · cases hf : s.fresh p with
      | true => exact ⟨rfl, rfl, by simp⟩
      | false => exact ⟨rfl, rfl, (h.parked p hp).2 hf⟩
    · split
      · exact update_of_ne hq ..
      · rfl

/-- In every run of threads on any CPUs: a process that holds a lock has interrupts off, `pop_off` has not panicked, and
when it ends the nesting of a process the flag is what it was before the outermost `push_off`. -/
theorem intr_restored {es : List (Event C P L)} (hrun : Trans.run (step plock) (boot plock) es = some s) :
    (∀ c p, s.cur c = some p → s.held (.inr p) ≠ [] → (s.cpu c).intr = false) ∧ ¬ PopPanic s ∧
    ∀ c p, s.cur c = some p → s.depth (.inr p) = 1 → (s.popOff c).panicked = s.panicked ∧
      ((s.popOff c).cpu c).noff = 0 ∧ ((s.popOff c).cpu c).intr = s.before p := by
  have h : Inv s := Trans.run_inv (fun _ _ _ => inv_step) inv_boot hrun
  refine ⟨fun c p hc hl => (h.cpu c).off ?_, h.noPanic, fun c p hc hd => ?_⟩
  · rw [(h.cpu c).noff, who_eq_inr.mpr hc]
    exact Nat.lt_of_lt_of_le (List.length_pos_iff.mpr hl) (Nat.le_add_right ..)
  · have hno := (h.cpu c).noff
    rw [who_eq_inr.mpr hc, hd] at hno
    have hpop := h.popOff (c := c) (by rw [who_eq_inr.mpr hc, hd]; exact Nat.one_pos)
    rw [hno] at hpop
    simp only [State.popOff, hpop, State.setCpu, update_self, ((h.cpu c).proc p hc).2.2 (by omega)]
    exact ⟨trivial, trivial, Bool.true_and _⟩

/-- A process gives up a CPU where the scheduler found interrupts off, and ends its nesting on another one. -/
def moves : List (Event Bool Unit Unit) :=
  [.acquire true (), .dispatch true (), .release true (), .setIntr true true, .acquire true (), .sched true,
    .release true (), .acquire false (), .dispatch false ()]

theorem intr_restored_moves : ∃ s : State Bool Unit Unit, Trans.run (step id) (boot id) moves = some s ∧
    ((s.popOff false).cpu false).intr = true := by
  obtain ⟨s, hr, h1, h2, h3⟩ : ∃ s ∈ Trans.run (step id) (boot id : State Bool Unit Unit) moves,
      s.cur false = some () ∧ s.depth (.inr ()) = 1 ∧ s.before () = true := by decide +kernel
  exact ⟨s, hr, ((intr_restored hr).2.2 false () h1 h2).2.2.trans h3⟩

end Intr
end Xv6
