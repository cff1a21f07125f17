import Xv6.Lib.Trans
import Mathlib.Logic.Function.Basic

/-!
# Xv6.Sched.Sleeplock

The sleep-locks of `kernel/sleeplock.c`, at the granularity of `lk->lk`. `sleep` releases `lk->lk` and sleeps in
one step, and `kill` may wake a process that sleeps here.

* `sleeplock_exclusive`: one process has the lock at a time, `holdingsleep` says who, and nobody sleeps while the
  lock is free.
-/

namespace Xv6
namespace Sleeplock

open Function

/-- Where a process is: before the test of `acquiresleep` (`entry`) or behind `holdingsleep`, before
`releasesleep` (`leaving`). -/
inductive Pc
  | user | entry | asleep | leaving
  deriving DecidableEq

structure State (P : Type) where
  locked : Bool
  /-- `lk->pid`, where `none` is 0. -/
  pid : Option P
  pc : P → Pc
  /-- Ghost: the processes that have returned from `acquiresleep` and have not released the lock since. -/
  owners : List P

variable {P : Type} [DecidableEq P] {s s' : State P} {p : P} {c : Pc}

def initsleeplock (P : Type) : State P := { locked := false, pid := none, pc := fun _ => .user, owners := [] }

def State.goto (s : State P) (p : P) (c : Pc) : State P := { s with pc := update s.pc p c }

def acquiresleep (s : State P) (p : P) : State P :=
  if s.locked then s.goto p .asleep
  else { s.goto p .user with locked := true, pid := some p, owners := p :: s.owners }

def wakeup (pc : P → Pc) : P → Pc := fun q => if pc q = .asleep then .entry else pc q

def releasesleep (s : State P) (p : P) : State P :=
  { locked := false, pid := none, pc := update (wakeup s.pc) p .user, owners := s.owners.erase p }

def holdingsleep (s : State P) (p : P) : Bool := s.locked && decide (s.pid = some p)

inductive Event (P : Type)
  | acquiresleep (p : P)
  /-- `brelse` and `iunlock` panic if the caller does not hold the lock. -/
  | unlock (p : P)
  /-- `iput` releases the lock that it has acquired itself. -/
  | iput (p : P)
  | kill (p : P)
  | tau (p : P)

def step (s : State P) : Event P → Option (State P)
  | .acquiresleep p => if s.pc p = .user then some (s.goto p .entry) else none
  | .unlock p => if s.pc p = .user ∧ holdingsleep s p then some (s.goto p .leaving) else none
  | .iput p => if s.pc p = .user ∧ p ∈ s.owners then some (s.goto p .leaving) else none
  | .kill p => if s.pc p = .asleep then some (s.goto p .entry) else none
  | .tau p =>
    match s.pc p with
    | .entry => some (acquiresleep s p)
    | .leaving => some (releasesleep s p)
    | _ => none

structure Inv (s : State P) : Prop where
  owners : s.owners = s.pid.toList
  locked : s.locked = s.pid.isSome
  leaving : ∀ p, s.pc p = .leaving → s.pid = some p
  asleep : ∀ p, s.pc p = .asleep → s.locked = true

theorem Inv.holdingsleep_iff (h : Inv s) : holdingsleep s p = true ↔ s.pid = some p := by
  rw [holdingsleep, h.locked]
  cases s.pid <;> simp

theorem Inv.goto (h : Inv s) (hl : c = .leaving → s.pid = some p) (ha : c = .asleep → s.locked = true) :
    Inv (s.goto p c) where
  owners := h.owners
  locked := h.locked
  leaving := (forall_update_iff s.pc fun q x => x = .leaving → s.pid = some q).mpr ⟨hl, fun q _ => h.leaving q⟩
  asleep := (forall_update_iff s.pc fun _ x => x = .asleep → s.locked = true).mpr ⟨ha, fun q _ => h.asleep q⟩

theorem inv_acquiresleep (h : Inv s) (p : P) : Inv (acquiresleep s p) := by
  unfold acquiresleep
  split
  · exact h.goto (by rintro ⟨⟩) fun _ => ‹_›
  · rename_i hfree
    have hnone : s.pid = none := by simpa [h.locked] using hfree
    have hg := h.goto (p := p) (c := .user) (by rintro ⟨⟩) (by rintro ⟨⟩)
    refine ⟨by simp [h.owners, hnone], rfl, fun q hq => ?_, fun _ _ => rfl⟩
    cases (hg.leaving q hq).symm.trans hnone

theorem inv_releasesleep (h : Inv s) (hp : s.pc p = .leaving) : Inv (releasesleep s p) := by
  have hpid := h.leaving p hp
  have hpc : ∀ q, (releasesleep s p).pc q ≠ .leaving ∧ (releasesleep s p).pc q ≠ .asleep := by
    refine (forall_update_iff (wakeup s.pc) fun _ x => x ≠ .leaving ∧ x ≠ .asleep).mpr ⟨by decide, fun q hq => ?_⟩
    have hne : s.pc q ≠ .leaving := fun hl => hq (Option.some.inj ((h.leaving q hl).symm.trans hpid))
    unfold wakeup
    split
    · decide
    · exact ⟨hne, ‹_›⟩
  refine ⟨by simp [releasesleep, h.owners, hpid], rfl, fun q hq => absurd hq (hpc q).1, fun q hq => absurd hq (hpc q).2⟩

theorem inv_step {e : Event P} (h : Inv s) (hs : step s e = some s') : Inv s' := by
  cases e with
  | acquiresleep p | kill p =>
    simp only [step] at hs
    split at hs <;> cases hs
    exact h.goto (by rintro ⟨⟩) (by rintro ⟨⟩)
  | unlock p =>
    simp only [step] at hs
    split at hs <;> cases hs
    exact h.goto (fun _ => h.holdingsleep_iff.mp (‹_ ∧ _›).2) (by rintro ⟨⟩)
  | iput p =>
    simp only [step] at hs
    split at hs <;> cases hs
    rename_i hp
    exact h.goto (fun _ => by simpa [h.owners] using hp.2) (by rintro ⟨⟩)
  | tau p =>
    simp only [step] at hs
    split at hs <;> cases hs
    · exact inv_acquiresleep h p
    · exact inv_releasesleep h ‹_›

/-- At most one process has the lock, `holdingsleep` tells it from the others, and when the lock is free every
process that waits for it is awake and gets it with its next step. -/
theorem sleeplock_exclusive {es : List (Event P)} (hrun : Trans.run step (initsleeplock P) es = some s) :
    s.owners.length ≤ 1 ∧ (∀ p, holdingsleep s p = true ↔ p ∈ s.owners) ∧
      (s.owners = [] → ∀ p, s.pc p ≠ .user → ∃ s', step s (.tau p) = some s' ∧ s'.owners = [p]) := by
  have h : Inv s := Trans.run_inv (fun _ _ _ hi hs => inv_step hi hs)
    ⟨rfl, rfl, by rintro _ ⟨⟩, by rintro _ ⟨⟩⟩ hrun
  refine ⟨?_, fun p => by simp [h.holdingsleep_iff, h.owners], fun hfree p hp => ?_⟩
  · rw [h.owners]
    cases s.pid <;> simp
  · have hnone : s.pid = none := by simpa [h.owners] using hfree
    have hl : s.locked = false := by rw [h.locked, hnone]; rfl
    cases hpc : s.pc p with
    | user => exact absurd hpc hp
    | entry => exact ⟨acquiresleep s p, by simp [step, hpc], by simp [acquiresleep, hl, hfree]⟩
    | asleep => cases hl.symm.trans (h.asleep p hpc)
    | leaving => cases hnone.symm.trans (h.leaving p hpc)

/-- One process takes the lock, the other sleeps for it, and the first releases it. -/
def handover : List (Event Bool) :=
  [.acquiresleep false, .tau false, .acquiresleep true, .tau true, .unlock false, .tau false]

theorem sleeplock_exclusive_handover : ∃ s ∈ Trans.run step (initsleeplock Bool) handover,
    ∃ s', step s (.tau true) = some s' ∧ s'.owners = [true] := by
  obtain ⟨s, hr, h0, h1⟩ : ∃ s ∈ Trans.run step (initsleeplock Bool) handover, s.owners = [] ∧ s.pc true ≠ .user := by
    decide
  exact ⟨s, hr, (sleeplock_exclusive hr).2.2 h0 true h1⟩

end Sleeplock
end Xv6
