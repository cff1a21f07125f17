import Xv6.Lib.Trans
import Mathlib.Logic.Function.Basic

/-!
# Xv6.Uthread.Lock

The lock for user threads of `user/lock.c`.

A thread is switched out only inside `tyield`: in the loop of `acquire`, at the end of `release`, or
where its own code calls it. Between two of these places its code runs alone, so one step takes a
thread from a call to the `tyield` inside it or to its return. Which thread `tyield` switches to is
not fixed: any thread can be next.

* `step`: the calls of the current thread, a switch, and the return of `tyield`.
* `Owned`: the thread between `acquire` and `release` is the one whose id is in the lock.
* `mutual_exclusion`: with distinct ids, and threads that acquire what they do not hold and release
  what they hold, `Owned` holds in every run and neither error exit is taken.
-/

namespace Xv6
namespace Ulock

open Function

structure Lock where
  locked : UInt8
  name : String
  tid : UInt8
  deriving DecidableEq, Repr

def initlock (lk : Lock) (name : String) : Lock :=
  { lk with name := name, locked := 0, tid := -1 }

def holding (lk : Lock) (twhoami : UInt8) : Bool := lk.locked != 0 && lk.tid == twhoami

/-- Where a thread is: in its own code, or inside a `tyield` called from there, from the loop of
`acquire` or from the end of `release`. -/
inductive Pc (L : Type*) where
  | user
  | yielding
  | acquiring (lk : L)
  | releasing
  deriving DecidableEq, Repr

/-- `held t lk` is not in the source: an `acquire` of `lk` has returned to thread `t`, which has not
called `release` since. `exited` is the message printed before `exit(-1)`. -/
structure State (T L : Type*) where
  lock : L → Lock
  current : T
  pc : T → Pc L
  held : T → L → Bool
  exited : Option String

variable {T L : Type*} [DecidableEq T] [DecidableEq L]

namespace State

def setLock (s : State T L) (lk : L) (x : Lock) : State T L :=
  { s with lock := update s.lock lk x }

def goto (s : State T L) (c : Pc L) : State T L :=
  { s with pc := update s.pc s.current c }

def setHeld (s : State T L) (lk : L) (b : Bool) : State T L :=
  { s with held := update s.held s.current (update (s.held s.current) lk b) }

def exit (s : State T L) (msg : String) : State T L := { s with exited := some msg }

end State

open State

variable (tid : T → UInt8)

def twhoami (s : State T L) : UInt8 := tid s.current

/-- `__sync_lock_test_and_set` and what follows it: the return of `acquire`, or another `tyield`. -/
def testAndSet (s : State T L) (lk : L) : State T L :=
  if (s.lock lk).locked ≠ 0 then (s.setLock lk { s.lock lk with locked := 1 }).goto (.acquiring lk)
  else
    ((s.setLock lk { s.lock lk with locked := 1, tid := twhoami tid s }).setHeld lk true).goto .user

def acquire (s : State T L) (lk : L) : State T L :=
  if holding (s.lock lk) (twhoami tid s) then s.exit "re-acquiring lock we already hold"
  else testAndSet tid s lk

def release (s : State T L) (lk : L) : State T L :=
  if !holding (s.lock lk) (twhoami tid s) then
    (s.setHeld lk false).exit "releasing lock we are not holding"
  else ((s.setLock lk { s.lock lk with tid := -1, locked := 0 }).setHeld lk false).goto .releasing

inductive Op (T L : Type*) where
  | acquire (lk : L)
  | release (lk : L)
  | tyield
  /-- `tyield` of the current thread switches to `t`. -/
  | switch (t : T)
  /-- `tyield` returns to the current thread. -/
  | resume
  deriving DecidableEq, Repr

/-- `tyield` returns to where it was called. -/
def resume (s : State T L) : Option (State T L) :=
  match s.pc s.current with
  | .user => none
  | .yielding => some (s.goto .user)
  | .acquiring lk => some (testAndSet tid s lk)
  | .releasing => some (s.goto .user)

def step (s : State T L) (op : Op T L) : Option (State T L) :=
  if s.exited.isSome then none
  else
    match op with
    | .acquire lk => if s.pc s.current = .user then some (acquire tid s lk) else none
    | .release lk => if s.pc s.current = .user then some (release tid s lk) else none
    | .tyield => if s.pc s.current = .user then some (s.goto .yielding) else none
    | .switch t => if s.pc s.current = .user then none else some { s with current := t }
    | .resume => resume tid s

/-- All locks initialised, thread `t` running. -/
def boot (lock : L → Lock) (name : L → String) (t : T) : State T L :=
  { lock := fun lk => initlock (lock lk) (name lk), current := t, pc := fun _ => .user,
    held := fun _ _ => false, exited := none }

/-- A thread acquires only locks that it does not hold and releases only those that it holds. -/
def Proper (s : State T L) : Op T L → Prop
  | .acquire lk => s.held s.current lk = false
  | .release lk => s.held s.current lk = true
  | _ => True

instance (s : State T L) : (op : Op T L) → Decidable (Proper s op)
  | .acquire lk => inferInstanceAs (Decidable (s.held s.current lk = false))
  | .release lk => inferInstanceAs (Decidable (s.held s.current lk = true))
  | .tyield | .switch _ | .resume => .isTrue trivial

/-- A lock is 0, or 1 with the id of the thread that holds it. -/
structure Owned (s : State T L) : Prop where
  unlocked : ∀ lk, (s.lock lk).locked = 0 ↔ ∀ t, s.held t lk = false
  locked : ∀ lk t, s.held t lk = true → (s.lock lk).locked = 1 ∧ (s.lock lk).tid = tid t
  running : s.exited = none

variable {tid} {s : State T L} {lk : L}

omit [DecidableEq T] [DecidableEq L] in
theorem Owned.unique (h : Owned tid s) (hinj : Injective tid)
    {t t' : T} (ht : s.held t lk = true) (ht' : s.held t' lk = true) : t = t' :=
  hinj ((h.locked lk t ht).2.symm.trans (h.locked lk t' ht').2)

omit [DecidableEq T] [DecidableEq L] in
theorem Owned.exists_held (h : Owned tid s) (hl : (s.lock lk).locked ≠ 0) : ∃ t, s.held t lk = true := by
  by_contra hno
  refine hl ((h.unlocked lk).mpr fun t => ?_)
  simpa using not_exists.mp hno t

omit [DecidableEq T] [DecidableEq L] in
theorem Owned.holding_iff (h : Owned tid s) (hinj : Injective tid) (lk : L) :
    holding (s.lock lk) (twhoami tid s) = s.held s.current lk := by
  rw [Bool.eq_iff_iff]
  simp only [holding, twhoami, bne_iff_ne, ne_eq, Bool.and_eq_true, beq_iff_eq]
  constructor
  · rintro ⟨hl, ht⟩
    obtain ⟨t, hheld⟩ := h.exists_held hl
    rwa [← hinj ((h.locked lk t hheld).2.symm.trans ht)]
  · intro hheld
    obtain ⟨h1, h2⟩ := h.locked lk _ hheld
    exact ⟨by rw [h1]; decide, h2⟩

omit [DecidableEq T] [DecidableEq L] in
theorem Owned.congr {s' : State T L} (h : Owned tid s) (hl : s'.lock = s.lock)
    (hh : s'.held = s.held) (he : s'.exited = none) : Owned tid s' :=
  ⟨by rw [hl, hh]; exact h.unlocked, by rw [hl, hh]; exact h.locked, he⟩

theorem owned_testAndSet (h : Owned tid s) (lk : L) : Owned tid (testAndSet tid s lk) := by
  unfold testAndSet
  split
  · rename_i hl
    obtain ⟨t, ht⟩ := h.exists_held hl
    have hsame : { s.lock lk with locked := 1 } = s.lock lk := by
      rw [← (h.locked lk t ht).1]
    refine h.congr ?_ rfl h.running
    show update s.lock lk _ = s.lock
    rw [hsame, update_eq_self]
  · rename_i hl
    have hfree := (h.unlocked lk).mp (by simpa using hl)
    refine ⟨fun lk' => ?_, fun lk' t ht => ?_, h.running⟩
    · by_cases hlk : lk' = lk
      · subst hlk
        simp only [goto, setHeld, setLock, update_self]
        refine ⟨fun h0 => absurd h0 (by decide), fun hno => ?_⟩
        have := hno s.current
        simp at this
      · simp only [goto, setHeld, setLock, update_of_ne hlk]
        rw [h.unlocked lk']
        refine forall_congr' fun t => ?_
        by_cases ht : t = s.current
        · subst ht; simp [update_of_ne hlk]
        · simp [update_of_ne ht]
    · by_cases hlk : lk' = lk
      · subst hlk
        have hcur : t = s.current := by
          by_contra hne
          simp [goto, setHeld, setLock, update_of_ne hne, hfree t] at ht
        subst hcur
        simp [goto, setHeld, setLock, twhoami]
      · have hold : s.held t lk' = true := by
          by_cases hc : t = s.current
          · subst hc; simpa [goto, setHeld, setLock, update_of_ne hlk] using ht
          · simpa [goto, setHeld, setLock, update_of_ne hc] using ht
        simpa [goto, setHeld, setLock, update_of_ne hlk] using h.locked lk' t hold

theorem owned_release (h : Owned tid s) (hinj : Injective tid)
    (hheld : s.held s.current lk = true) : Owned tid (release tid s lk) := by
  have hne : ∀ lk' t, ¬ (lk' = lk ∧ t = s.current) →
      (s.setHeld lk false).held t lk' = s.held t lk' := by
    intro lk' t hn
    by_cases ht : t = s.current
    · subst ht
      simp [setHeld, update_of_ne (fun hl => hn ⟨hl, rfl⟩)]
    · simp [setHeld, update_of_ne ht]
  rw [release, h.holding_iff hinj, hheld]
  refine ⟨fun lk' => ?_, fun lk' t ht => ?_, h.running⟩
  · by_cases hlk : lk' = lk
    · subst hlk
      simp only [goto, setHeld, setLock, update_self, Bool.not_true, Bool.false_eq_true,
        if_false, true_iff]
      intro t
      by_cases ht : t = s.current
      · subst ht; simp
      · rw [update_of_ne ht]
        by_contra hx
        exact ht (h.unique hinj (by simpa using hx) hheld)
    · have := h.unlocked lk'
      simp only [goto, setHeld, setLock, update_of_ne hlk, Bool.not_true,
        Bool.false_eq_true, if_false]
      rw [this]
      exact forall_congr' fun t => by rw [← hne lk' t (fun hc => hlk hc.1)]; rfl
  · have hl : ¬ (lk' = lk ∧ t = s.current) := by
      rintro ⟨rfl, rfl⟩
      simp [goto, setHeld, setLock] at ht
    have hold : s.held t lk' = true := by
      rw [← hne lk' t hl]
      simpa [goto, setHeld, setLock] using ht
    have hlk : lk' ≠ lk := fun hlk => hl ⟨hlk, h.unique hinj hold (hlk ▸ hheld)⟩
    simpa [goto, setHeld, setLock, update_of_ne hlk] using h.locked lk' t hold

theorem owned_step {s' : State T L} {op : Op T L} (hinj : Injective tid)
    (h : Owned tid s) (hp : Proper s op) (hs : step tid s op = some s') : Owned tid s' := by
  unfold step at hs
  rw [if_neg (by simp [h.running])] at hs
  cases op with
  | acquire lk =>
    dsimp only at hs
    split at hs <;> cases hs
    rw [acquire, h.holding_iff hinj, show s.held s.current lk = false from hp]
    exact owned_testAndSet h lk
  | release lk =>
    dsimp only at hs
    split at hs <;> cases hs
    exact owned_release h hinj hp
  | tyield =>
    dsimp only at hs
    split at hs <;> cases hs
    exact h.congr rfl rfl h.running
  | switch t =>
    dsimp only at hs
    split at hs <;> cases hs
    exact h.congr rfl rfl h.running
  | resume =>
    simp only [resume] at hs
    split at hs <;> cases hs
    · exact h.congr rfl rfl h.running
    · exact owned_testAndSet h _
    · exact h.congr rfl rfl h.running

omit [DecidableEq T] [DecidableEq L] in
theorem owned_boot (lock : L → Lock) (name : L → String) (t : T) : Owned tid (boot lock name t) :=
  ⟨fun _ => ⟨fun _ _ => rfl, fun _ => rfl⟩, fun _ _ h => Bool.noConfusion h, rfl⟩

/-- At most one thread is between `acquire` and `release` of a lock, the lock is 1 with the id of a
thread exactly while that thread is there, and it is 0 otherwise; no error exit is taken. -/
theorem mutual_exclusion (tid : T → UInt8) (hinj : Injective tid) (lock : L → Lock)
    (name : L → String) (t0 : T) (ops : List (Op T L)) (s : State T L)
    (hrun : Trans.run (step tid) (boot lock name t0) ops = some s)
    (hp : Trans.AllSteps (step tid) Proper (boot lock name t0) ops) :
    (∀ lk t t', s.held t lk = true → s.held t' lk = true → t = t') ∧
    (∀ lk t, s.held t lk = true ↔ (s.lock lk).locked = 1 ∧ (s.lock lk).tid = tid t) ∧
    (∀ lk, (s.lock lk).locked = 0 ↔ ∀ t, s.held t lk = false) ∧ s.exited = none := by
  have h : Owned tid s :=
    Trans.run_inv_of (fun _ _ _ hi hc hs => owned_step hinj hi hc hs) (owned_boot lock name t0) hp hrun
  refine ⟨fun lk t t' => h.unique hinj, fun lk t => ⟨h.locked lk t, fun hl => ?_⟩, h.unlocked, h.running⟩
  have hl0 : (s.lock lk).locked ≠ 0 := by rw [hl.1]; decide
  obtain ⟨t', ht'⟩ := h.exists_held hl0
  rwa [← hinj ((h.locked lk t' ht').2.symm.trans hl.2)]

/-- Thread 1 holds the lock and yields, thread 2 waits for it and gets it. -/
def handOver : List (Op (Fin 2) Unit) :=
  [.acquire (), .tyield, .switch 1, .acquire (), .switch 0, .resume, .release (), .switch 1, .resume]

theorem mutual_exclusion_handOver :
    ∃ s, Trans.run (step fun t : Fin 2 => UInt8.ofNat (t + 1)) (boot (fun _ : Unit => ⟨7, "", 7⟩)
        (fun _ => "shared") 0) handOver = some s ∧ s.held 1 () = true ∧ s.held 0 () = false ∧
      (s.lock ()).locked = 1 ∧ (s.lock ()).tid = 2 := by
  refine ⟨_, rfl, rfl, rfl, ?_⟩
  exact ((mutual_exclusion (fun t : Fin 2 => UInt8.ofNat (t + 1)) (by intro a b; revert a b; decide)
    (fun _ : Unit => ⟨7, "", 7⟩) (fun _ => "shared") 0 handOver _ rfl (by decide)).2.1 () 1).mp rfl

end Ulock
end Xv6
