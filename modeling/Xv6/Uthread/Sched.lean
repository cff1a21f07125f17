import Xv6.Uthread.Model

/-!
# Xv6.Uthread.Sched

What a step of the thread library can change, and what `tsched` does to the states of the threads.

* `step_cases`: every step either leaves threads, table and `current_thread` alone, or is one of
  the four places that write them. The results of this module and of `Xv6.Uthread.Table` split on
  it and never unfold `step` again.
* `dispatched_once`: a thread that `tsched` has dispatched and then switched away from never runs again,
  because nothing but `add_thread_to_table` makes a thread RUNNABLE, and that only for a new one.
* `schedInv_never`: the intended invariant of the scheduler is broken in every run, as soon as one
  call has returned, since `_main` marks the running main thread RUNNABLE.
-/

namespace Xv6
namespace Uthread

open St Trans

variable {p t : Ptr} {s s' : St} {e : Event}

theorem thread_setThread (s : St) (p q : Ptr) (t : Thread) :
    (s.setThread p t).thread q = if q = p ∧ p < s.heap.length then t else s.thread q := by
  simp only [setThread, thread, List.getD_eq_getElem?_getD, List.getElem?_set]
  by_cases h : p = q
  · subst h
    by_cases hp : p < s.heap.length
    · simp [hp]
    · simp [hp]
  · rw [if_neg h, if_neg (fun hq => h hq.1.symm)]

theorem thread_setThread_ne (s : St) {q : Ptr} (t : Thread) (h : q ≠ p) :
    (s.setThread p t).thread q = s.thread q := by
  rw [thread_setThread, if_neg (fun hq => h hq.1)]

theorem thread_setState_ne (s : St) {q : Ptr} (x : ProcState) (h : q ≠ p) :
    (s.setState p x).thread q = s.thread q := thread_setThread_ne s _ h

@[simp] theorem length_setThread (s : St) (p : Ptr) (t : Thread) :
    (s.setThread p t).heap.length = s.heap.length := by simp [setThread]

@[simp] theorem length_setState (s : St) (p : Ptr) (x : ProcState) :
    (s.setState p x).heap.length = s.heap.length := by simp [setState]

/-- Where control can be, as far as the function of the thread is concerned. -/
inductive Kind where
  | entry
  | inside
  | exiting
  deriving DecidableEq

def Ctl.kind : Ctl → Kind
  | .entry => .entry
  | .sched _ _ .exit => .exiting
  | _ => .inside

def Ctl.target : Ctl → Option Ptr
  | .wait t _ _ => some t
  | .sched _ _ (.join t _ _) => some t
  | _ => none

def runnableAt (s : St) (j : Nat) : Bool :=
  match s.threads j with
  | some t => (s.thread t).state = .runnable
  | none => false

/-- The state after `tsched` has switched from thread `old` to thread `t`. -/
def switched (s : St) (k : Int) (i : Nat) (r : Ret) (old t : Ptr) : St :=
  let s1 := { s.setState t .running with current := t }
  let s2 := s1.setThread old { s1.thread old with tcontext := .sched k (i + 1) r }
  { s2 with ctl := (s2.thread t).tcontext }

structure SameTable (s s' : St) : Prop where
  heap : s'.heap = s.heap
  threads : s'.threads = s.threads
  current : s'.current = s.current
  joined : s'.joined = s.joined

theorem SameTable.thread (h : SameTable s s') (p : Ptr) : s'.thread p = s.thread p := by
  simp [St.thread, h.heap]

/-- The state in which `thread_entry` calls `tyield`, after its function has returned `v`. -/
def finished (s : St) (v : Nat) : St :=
  let t := s.thread s.current
  let rv := if t.returnValue ≠ 0 then v else t.returnValue
  s.setThread s.current { t with returnValue := rv, state := .exited, returned := true }

/-- The loop of `tjoin` ends: the thread that becomes UNUSED is the caller. -/
theorem tjoinTurn_exited (hx : (s.thread t).state = .exited) (status size : Nat) :
    (tjoinTurn s t status size).heap = (s.setState s.current .unused).heap ∧
      (tjoinTurn s t status size).threads = s.threads ∧ (tjoinTurn s t status size).current = s.current ∧
      (tjoinTurn s t status size).joined = t :: s.joined ∧ (tjoinTurn s t status size).ctl = .user := by
  rw [tjoinTurn, if_pos hx]
  exact ⟨rfl, rfl, rfl, rfl, rfl⟩

theorem tschedTurn_cases {k : Int} {i : Nat} {r : Ret} (h : tschedTurn s k i r = some s') :
    ((i % MAX_THREADS : Nat) : Int) = k ∧ s' = ret s r ∨
    ((i % MAX_THREADS : Nat) : Int) ≠ k ∧ runnableAt s (i % MAX_THREADS) = false ∧ s' = { s with ctl := .sched k (i + 1) r } ∨
    ∃ old t, 0 ≤ k ∧ ((i % MAX_THREADS : Nat) : Int) ≠ k ∧ s.threads k.toNat = some old ∧
      s.threads (i % MAX_THREADS) = some t ∧ (s.thread t).state = .runnable ∧ s' = switched s k i r old t := by
  unfold tschedTurn at h
  split at h
  · rename_i he
    cases h
    exact .inl ⟨he, rfl⟩
  · rename_i hne
    split at h
    · rename_i t ht
      split at h
      · rename_i hrun
        unfold dispatch at h
        split at h
        · cases h
        · rename_i hk
          split at h
          · cases h
          · rename_i old hold
            cases h
            exact .inr (.inr ⟨old, t, by omega, hne, hold, ht, hrun, rfl⟩)
      · rename_i hrun
        cases h
        exact .inr (.inl ⟨hne, by simp [runnableAt, ht, hrun], rfl⟩)
    · rename_i ht
      cases h
      exact .inr (.inl ⟨hne, by simp [runnableAt, ht], rfl⟩)

/-- The step makes no thread, and the function of no thread starts or returns. -/
def Inner (s : St) (e : Event) : Prop :=
  (∀ a, e ≠ .op (.tcreate a)) ∧ (∀ v, e = .op (.ret v) → s.current = 0) ∧ (e = .tau → s.ctl ≠ .entry)

/-- Control may go to `c`: a loop of `tsched` is a new one, or goes on after a slot that is not RUNNABLE. -/
structure Goes (s : St) (c : Ctl) : Prop where
  kind : c.kind = s.ctl.kind
  loop : ∀ k i r, c = .sched k i r → k = findThreadIndex s s.current ∧ i = (k + 1).toNat ∨ ∃ j, s.ctl = .sched k j r ∧
    i = j + 1 ∧ ((j % MAX_THREADS : Nat) : Int) ≠ k ∧ runnableAt s (j % MAX_THREADS) = false
  target : ∀ t, c.target = some t → (∃ i, s.threads i = some t) ∨ s.ctl.target = some t

theorem goes_tyield {r : Ret} (hk : (Ctl.sched 0 0 r).kind = s.ctl.kind)
    (ht : ∀ t, (Ctl.sched 0 0 r).target = some t → s.ctl.target = some t) : Goes s (tyield s r).ctl := by
  refine ⟨?_, ?_, fun t h => .inr (ht t ?_)⟩
  · rw [← hk]
    cases r <;> rfl
  · rintro k i r' ⟨⟩
    exact .inl ⟨rfl, rfl⟩
  · rw [← h]
    cases r <;> rfl

theorem goes_tjoin (hctl : s.ctl = .user) (tid : Int) (status size : Nat) :
    ∃ c, tjoin s tid status size = { s with ctl := c } ∧ Goes s c := by
  have halt : Goes s .halted := ⟨by rw [hctl]; rfl, by simp, fun t h => nomatch h⟩
  unfold tjoin
  split
  · rename_i i _
    split
    · rename_i q hq
      refine ⟨_, rfl, by rw [hctl]; rfl, by simp, ?_⟩
      rintro t ⟨⟩
      exact .inl ⟨i, hq⟩
    · exact ⟨_, rfl, halt⟩
  · exact ⟨_, rfl, halt⟩

/-- The steps, by what they do to the places of the threads. -/
theorem step_places (h : step s e = some s') : (∃ a, e = .op (.tcreate a) ∧ s.ctl = .user ∧ s' = tcreate s a) ∨
    (∃ c, Inner s e ∧ s' = { s with ctl := c } ∧ Goes s c) ∨
    (e = .tau ∧ s.ctl = .entry ∧ s' = { s with ctl := .user }) ∨
    (∃ v, e = .op (.ret v) ∧ s.ctl = .user ∧ s.current ≠ 0 ∧ s' = tyield (finished s v) .exit) ∨
    (∃ k i, Inner s e ∧ s.ctl = .sched k i .exit ∧ s' = { s with ctl := .entry }) ∨
    (∃ k i r old t, Inner s e ∧ s.ctl = .sched k i r ∧ 0 ≤ k ∧ ((i % MAX_THREADS : Nat) : Int) ≠ k ∧
      s.threads k.toNat = some old ∧ s.threads (i % MAX_THREADS) = some t ∧ (s.thread t).state = .runnable ∧
      s' = switched s k i r old t) ∨
    (∃ t status size, Inner s e ∧ s.ctl = .wait t status size ∧ (s.thread t).state = .exited ∧
      s' = tjoinTurn s t status size) := by
  have hinner : ∀ {c}, s.ctl = c → c ≠ .entry → Inner s .tau := fun hc hne =>
    ⟨by simp, by simp, fun _ => hc ▸ hne⟩
  cases e with
  | op o =>
    simp only [step] at h
    split at h
    · rename_i hctl
      cases o with
      | tcreate a =>
        cases h
        exact .inl ⟨a, rfl, hctl, rfl⟩
      | tyield =>
        cases h
        exact .inr (.inl ⟨_, ⟨by simp, by simp, by simp⟩, rfl, goes_tyield (by rw [hctl]; rfl) fun t h => nomatch h⟩)
      | tjoin tid status size =>
        cases h
        obtain ⟨c, he, hc⟩ := goes_tjoin hctl tid status size
        exact .inr (.inl ⟨c, ⟨by simp, by simp, by simp⟩, he, hc⟩)
      | ret v =>
        cases h
        by_cases h0 : s.current = 0
        · rw [threadReturn, if_pos h0]
          exact .inr (.inl ⟨.halted, ⟨by simp, fun _ _ => h0, by simp⟩, rfl, by rw [hctl]; rfl, by simp,
            fun t h => nomatch h⟩)
        · rw [threadReturn, if_neg h0]
          exact .inr (.inr (.inr (.inl ⟨v, rfl, hctl, h0, rfl⟩)))
    · cases h
  | tau =>
    simp only [step] at h
    split at h
    · cases h
    · rename_i hctl
      cases h
      exact .inr (.inr (.inl ⟨rfl, hctl, rfl⟩))
    · rename_i k i r hctl
      have hs : Inner s .tau := hinner hctl (by simp)
      rcases tschedTurn_cases h with ⟨-, rfl⟩ | ⟨hne, hq, rfl⟩ | ⟨old, t, h0, hne, hold, ht, hrun, rfl⟩
      · cases r with
        | user => exact .inr (.inl ⟨.user, hs, rfl, by rw [hctl]; rfl, by simp, fun t h => nomatch h⟩)
        | join q status size =>
          exact .inr (.inl ⟨.wait q status size, hs, rfl, by rw [hctl]; rfl, by simp, fun t h => .inr (by rw [hctl]; exact h)⟩)
        | exit => exact .inr (.inr (.inr (.inr (.inl ⟨k, i, hs, hctl, rfl⟩))))
      · refine .inr (.inl ⟨_, hs, rfl, by rw [hctl]; cases r <;> rfl, ?_, fun t h => .inr ?_⟩)
        · rintro k' i' r' ⟨⟩
          exact .inr ⟨i, hctl, rfl, hne, hq⟩
        · rw [hctl, ← h]
          cases r <;> rfl
      · exact .inr (.inr (.inr (.inr (.inr (.inl ⟨k, i, r, old, t, hs, hctl, h0, hne, hold, ht, hrun, rfl⟩)))))
    · rename_i t status size hctl
      cases h
      have hs : Inner s .tau := hinner hctl (by simp)
      by_cases hx : (s.thread t).state = .exited
      · exact .inr (.inr (.inr (.inr (.inr (.inr ⟨t, status, size, hs, hctl, hx, rfl⟩)))))
      · rw [tjoinTurn, if_neg hx]
        exact .inr (.inl ⟨_, hs, rfl, goes_tyield (by rw [hctl]; rfl) fun t h => by rw [hctl]; exact h⟩)
    · cases h

theorem step_cases (h : step s e = some s') : SameTable s s' ∨ (∃ a, e = .op (.tcreate a) ∧ s' = tcreate s a) ∨
    (∃ v, e = .op (.ret v) ∧ s.current ≠ 0 ∧ SameTable (finished s v) s') ∨
    (∃ k i r old t, s.ctl = .sched k i r ∧ ((i % MAX_THREADS : Nat) : Int) ≠ k ∧
      s.threads k.toNat = some old ∧ s.threads (i % MAX_THREADS) = some t ∧
      (s.thread t).state = .runnable ∧ s' = switched s k i r old t) ∨
    (∃ t status size, s.ctl = .wait t status size ∧ (s.thread t).state = .exited ∧
      s'.heap = (s.setState s.current .unused).heap ∧ s'.threads = s.threads ∧
      s'.current = s.current ∧ s'.joined = t :: s.joined ∧ s'.ctl = .user) := by
  rcases step_places h with ⟨a, rfl, -, rfl⟩ | ⟨c, -, rfl, -⟩ | ⟨-, -, rfl⟩ | ⟨v, rfl, -, hc, rfl⟩ | ⟨k, i, -, -, rfl⟩ |
    ⟨k, i, r, old, t, -, hctl, -, hne, hold, ht, hrun, rfl⟩ | ⟨t, status, size, -, hctl, hx, rfl⟩
  · exact .inr (.inl ⟨a, rfl, rfl⟩)
  · exact .inl ⟨rfl, rfl, rfl, rfl⟩
  · exact .inl ⟨rfl, rfl, rfl, rfl⟩
  · exact .inr (.inr (.inl ⟨v, rfl, hc, rfl, rfl, rfl, rfl⟩))
  · exact .inl ⟨rfl, rfl, rfl, rfl⟩
  · exact .inr (.inr (.inr (.inl ⟨k, i, r, old, t, hctl, hne, hold, ht, hrun, rfl⟩)))
  · exact .inr (.inr (.inr (.inr ⟨t, status, size, hctl, hx, tjoinTurn_exited hx status size⟩)))

/-! ## Creating a thread -/

theorem thread_append (s : St) (t : Thread) (hp : p < s.heap.length) :
    ({ s with heap := s.heap ++ [t] } : St).thread p = s.thread p := by
  simp [thread, List.getD_eq_getElem?_getD, List.getElem?_append_left hp]

theorem addThreadToTable_frame (s : St) (p : Ptr) : (addThreadToTable s p).heap.length = s.heap.length ∧
      (∀ q, q ≠ p → (addThreadToTable s p).thread q = s.thread q) ∧
      (addThreadToTable s p).current = s.current ∧ (addThreadToTable s p).ctl = s.ctl ∧
      (addThreadToTable s p).joined = s.joined := by
  unfold addThreadToTable
  split
  · exact ⟨length_setState _ _ _, fun q hq => thread_setState_ne _ _ hq, rfl, rfl, rfl⟩
  · exact ⟨rfl, fun _ _ => rfl, rfl, rfl, rfl⟩

theorem tcreate_thread (s : St) (a : CreateArgs) (hp : p < s.heap.length) : (tcreate s a).thread p = s.thread p := by
  rw [tcreate, (addThreadToTable_frame _ _).2.1 p (Nat.ne_of_lt hp)]
  exact thread_append s _ hp

@[simp] theorem tcreate_length (s : St) (a : CreateArgs) : (tcreate s a).heap.length = s.heap.length + 1 := by
  rw [tcreate, (addThreadToTable_frame _ _).1]
  simp

@[simp] theorem tcreate_current (s : St) (a : CreateArgs) : (tcreate s a).current = s.current :=
  (addThreadToTable_frame _ _).2.2.1

@[simp] theorem tcreate_ctl (s : St) (a : CreateArgs) : (tcreate s a).ctl = s.ctl :=
  (addThreadToTable_frame _ _).2.2.2.1

@[simp] theorem tcreate_joined (s : St) (a : CreateArgs) : (tcreate s a).joined = s.joined :=
  (addThreadToTable_frame _ _).2.2.2.2

/-! ## Switching -/

@[simp] theorem switched_current (s : St) (k : Int) (i : Nat) (r : Ret) (old t : Ptr) :
    (switched s k i r old t).current = t := rfl

@[simp] theorem switched_length (s : St) (k : Int) (i : Nat) (r : Ret) (old t : Ptr) :
    (switched s k i r old t).heap.length = s.heap.length := by
  simp [switched, setThread, setState]

theorem thread_switched (s : St) (k : Int) (i : Nat) (r : Ret) (old t p : Ptr) :
    (switched s k i r old t).thread p =
      { s.thread p with
        state := if p = t ∧ t < s.heap.length then .running else (s.thread p).state
        tcontext := if p = old ∧ old < s.heap.length then .sched k (i + 1) r else (s.thread p).tcontext } := by
  have h1 : ∀ q, ({ s.setState t .running with current := t } : St).thread q =
      { s.thread q with state := if q = t ∧ t < s.heap.length then .running else (s.thread q).state } := by
    intro q
    show (s.setThread t _).thread q = _
    rw [thread_setThread]
    split
    · rename_i hq
      rw [hq.1]
    · rfl
  simp only [switched]
  show St.thread (setThread _ old _) p = _
  rw [thread_setThread, h1, h1]
  show (if p = old ∧ old < (s.setState t .running).heap.length then _ else _) = _
  rw [length_setState]
  split
  · rename_i ho
    rw [ho.1]
  · rfl

theorem switched_state_ne (s : St) (k : Int) (i : Nat) (r : Ret) (old : Ptr)
    (hp : p ≠ t) : ((switched s k i r old t).thread p).state = (s.thread p).state := by
  rw [thread_switched]
  exact if_neg fun h => hp h.1

theorem switched_state_self (s : St) (k : Int) (i : Nat) (r : Ret) (old : Ptr)
    (ht : t < s.heap.length) : ((switched s k i r old t).thread t).state = .running := by
  rw [thread_switched]
  exact if_pos ⟨rfl, ht⟩

/-! ## Spent threads -/

/-- `p` is a thread that `tsched` does not see: it has been dispatched, or has finished. -/
structure Spent (p : Ptr) (s : St) : Prop where
  lt : p < s.heap.length
  not_runnable : (s.thread p).state ≠ .runnable

theorem Spent.setState {x : ProcState} (hp : Spent p s) (hx : x ≠ .runnable) (q : Ptr) : Spent p (s.setState q x) := by
  refine ⟨by simpa using hp.lt, ?_⟩
  rw [St.setState, thread_setThread]
  split
  · exact hx
  · exact hp.not_runnable

theorem spent_step (hp : Spent p s) (h : step s e = some s') : Spent p s' ∧ (s'.current = p → s.current = p) := by
  have hlt := hp.lt
  obtain hs | ⟨a, -, rfl⟩ | ⟨v, -, -, hs⟩ | ⟨k, i, r, old, t, -, -, -, -, hrun, rfl⟩ |
    ⟨t, status, size, -, -, hh, -, hc, -, -⟩ := step_cases h
  · exact ⟨⟨by rw [hs.heap]; exact hlt, by rw [hs.thread]; exact hp.not_runnable⟩, by rw [hs.current]; exact id⟩
  · exact ⟨⟨by rw [tcreate_length]; exact Nat.lt_succ_of_lt hlt, by rw [tcreate_thread s a hlt]; exact hp.not_runnable⟩,
      by simp⟩
  · refine ⟨⟨by rw [hs.heap]; simpa [finished] using hlt, ?_⟩, by rw [hs.current]; exact id⟩
    rw [hs.thread, finished, thread_setThread]
    split
    · simp
    · exact hp.not_runnable
  · have hpt : p ≠ t := by
      rintro rfl
      exact hp.not_runnable hrun
    exact ⟨⟨by simpa using hlt, by rw [switched_state_ne s k i r old hpt]; exact hp.not_runnable⟩,
      fun ht => absurd ht.symm hpt⟩
  · have hu := hp.setState (x := .unused) (by decide) s.current
    refine ⟨⟨by rw [hh]; exact hu.lt, ?_⟩, by rw [hc]; exact id⟩
    have ht : s'.thread p = (s.setState s.current .unused).thread p := by simp [thread, hh]
    rw [ht]
    exact hu.not_runnable

theorem lt_of_runnable (h : (s.thread t).state = .runnable) : t < s.heap.length := by
  by_contra hlt
  rw [thread, List.getD_eq_getElem?_getD, List.getElem?_eq_none (Nat.le_of_not_lt hlt)] at h
  cases h

/-- `tsched` dispatches a thread once: when a thread it has switched to is switched away from, it never runs
again, whatever the program does. -/
theorem dispatched_once {es es' : List Event} {s1 s2 s3 : St} (h : step s e = some s1) (hd : s1.current ≠ s.current)
    (h1 : run step s1 es = some s2) (haway : s2.current ≠ s1.current) (h2 : run step s2 es' = some s3) :
    s3.current ≠ s1.current := by
  have hsp : Spent s1.current s1 := by
    obtain hs | ⟨a, -, rfl⟩ | ⟨v, -, -, hs⟩ | ⟨k, i, r, old, t, -, -, -, -, hrun, rfl⟩ |
      ⟨t, status, size, -, -, -, -, hc, -, -⟩ := step_cases h
    · exact absurd hs.current hd
    · exact absurd (by simp) hd
    · exact absurd hs.current hd
    · have ht := lt_of_runnable hrun
      refine ⟨by simpa using ht, ?_⟩
      rw [show (switched s k i r old t).current = t from rfl, switched_state_self s k i r old ht]
      decide
    · exact absurd hc hd
  have hsp2 := run_inv (fun _ _ _ hi hs => (spent_step hi hs).1) hsp h1
  exact (run_inv (I := fun s => Spent s1.current s ∧ s.current ≠ s1.current)
    (fun _ _ _ hi hs => ⟨(spent_step hi.1 hs).1, fun hc => hi.2 ((spent_step hi.1 hs).2 hc)⟩) ⟨hsp2, haway⟩ h2).2

/-! ## The intended invariant -/

/-- The current thread is the only RUNNING one, and every other unfinished thread is RUNNABLE. -/
structure SchedInv (s : St) : Prop where
  running : (s.thread s.current).state = .running
  only : ∀ p, p < s.heap.length → p ≠ s.current → (s.thread p).state ≠ .running
  runnable : ∀ p, p < s.heap.length → p ≠ s.current → (s.thread p).returned = false →
    (s.thread p).state = .runnable

/-- Before the first `tcreate`: the main thread alone, current and RUNNABLE. In the loop of
`tsched`, entered from slot 0, the turns up to the last one test empty slots. -/
structure Alone (s : St) : Prop where
  heap : s.heap = [mainThread]
  threads : s.threads = Function.update (fun _ => none) 0 (some 0)
  current : s.current = 0
  sched : ∀ k i r, s.ctl = .sched k i r → k = 0 ∧ 0 < i ∧ i ≤ MAX_THREADS

theorem Alone.thread_state (h : Alone s) (p : Ptr) : (s.thread p).state ≠ .exited := by
  cases p with
  | zero => simp [thread, h.heap, mainThread]
  | succ p => simp [thread, h.heap]; decide

theorem Alone.not_schedInv (h : Alone s) : ¬ SchedInv s := by
  intro hi
  have hr := hi.running
  simp [thread, h.heap, h.current, mainThread] at hr

theorem Alone.findThreadIndex (h : Alone s) : findThreadIndex s s.current = 0 := by
  have : findTid s (s.thread s.current).tid = some 0 := by
    simp [findTid, tidAt, h.threads, thread, h.heap, h.current, mainThread, List.range_succ]
  simp [Uthread.findThreadIndex, this]

theorem Alone.with_ctl (h : Alone s) {c : Ctl} (hc : ∀ k i r, c = .sched k i r → k = 0 ∧ 0 < i ∧ i ≤ MAX_THREADS) :
    Alone { s with ctl := c } :=
  ⟨h.heap, h.threads, h.current, hc⟩

theorem alone_keep (ha : Alone s) (he : ∀ a, e ≠ .op (.tcreate a)) (h : step s e = some s') : Alone s' := by
  rcases step_places h with ⟨a, rfl, -⟩ | ⟨c, -, rfl, hc⟩ | ⟨-, -, rfl⟩ | ⟨v, -, -, h0, -⟩ | ⟨k, i, -, -, rfl⟩ |
    ⟨k, i, r, old, t, -, hctl, -, hne, -, ht, -⟩ | ⟨t, status, size, -, -, hx, -⟩
  · exact absurd rfl (he a)
  · refine ha.with_ctl fun k i r hk => ?_
    rcases hc.loop k i r hk with ⟨rfl, rfl⟩ | ⟨j, hj, rfl, hne, -⟩
    · rw [ha.findThreadIndex]
      exact ⟨rfl, by decide, by decide⟩
    · obtain ⟨rfl, hj0, hj'⟩ := ha.sched k j r hj
      simp only [MAX_THREADS] at hne hj'
      exact ⟨rfl, by omega, by rw [MAX_THREADS]; omega⟩
  · exact ha.with_ctl (by simp)
  · exact absurd ha.current h0
  · exact ha.with_ctl (by simp)
  · obtain ⟨rfl, -, -⟩ := ha.sched k i r hctl
    rw [ha.threads, Function.update_of_ne (by omega)] at ht
    cases ht
  · exact absurd hx (ha.thread_state t)

/-- A step of the main thread alone does not switch; when it is back in the code of `main`, the
invariant does not hold. -/
theorem alone_step (ha : Alone s) (h : step s e = some s') :
    (s'.ctl = .user ∧ ¬ SchedInv s') ∨ (Alone s' ∧ s'.ctl ≠ .user) := by
  by_cases he : ∃ a, e = .op (.tcreate a)
  · obtain ⟨a, rfl⟩ := he
    simp only [step] at h
    split at h
    · rename_i hu
      cases h
      refine .inl ⟨by simpa using hu, fun hi => ?_⟩
      have hr := hi.running
      rw [tcreate_current, tcreate_thread s a (by simp [ha.heap, ha.current])] at hr
      simp [thread, ha.heap, ha.current, mainThread] at hr
    · cases h
  · have ha' := alone_keep ha (fun a hea => he ⟨a, hea⟩) h
    by_cases hu : s'.ctl = .user
    · exact .inl ⟨hu, ha'.not_schedInv⟩
    · exact .inr ⟨ha', hu⟩

theorem alone_run {es : List Event} :
    ∀ {s s' : St}, Alone s → run step s es = some s' → es ≠ [] → s'.ctl = .user →
      ∃ es1 es2 s1, es = es1 ++ es2 ∧ es1 ≠ [] ∧ run step s es1 = some s1 ∧ s1.ctl = .user ∧ ¬ SchedInv s1 := by
  induction es with
  | nil => intro s s' _ _ hne; exact absurd rfl hne
  | cons e es ih =>
    intro s s' ha h _ hu
    obtain ⟨s1, h1, h2⟩ := run_cons h
    rcases alone_step ha h1 with ⟨hc, hn⟩ | ⟨ha1, hc⟩
    · exact ⟨[e], es, s1, rfl, by simp, by simp [run, h1], hc, hn⟩
    · have hne : es ≠ [] := by
        rintro rfl
        cases h2
        exact hc hu
      obtain ⟨es1, es2, s2, rfl, -, hr, hc2, hn⟩ := ih ha1 h2 hne hu
      exact ⟨e :: es1, es2, s2, rfl, by simp, by simp [run, h1, hr], hc2, hn⟩

theorem alone_init (mem : Nat → UInt8) : Alone (init mem) :=
  ⟨rfl, rfl, rfl, fun _ _ _ h => by cases h⟩

/-- No run keeps the invariant of the scheduler: in every run in which a call has returned to the
code of a thread, there is a state after some call in which it does not hold. -/
theorem schedInv_never (mem : Nat → UInt8) (es : List Event) (s : St) (hne : es ≠ [])
    (hrun : run step (init mem) es = some s) (hu : s.ctl = .user) :
    ∃ es1 es2 s1, es = es1 ++ es2 ∧ es1 ≠ [] ∧ run step (init mem) es1 = some s1 ∧
      s1.ctl = .user ∧ ¬ SchedInv s1 :=
  alone_run (alone_init mem) hrun hne hu

def oneThread : CreateArgs :=
  { tid := 1, attr := none, func := 0, arg := 0, stack := 0, result := 0, junk := .unused }

theorem schedInv_never_tcreate : ∃ es1 es2 s1, [Event.op (.tcreate oneThread)] = es1 ++ es2 ∧ es1 ≠ [] ∧
      run step (init fun _ => 0) es1 = some s1 ∧ s1.ctl = .user ∧ ¬ SchedInv s1 :=
  schedInv_never (fun _ => 0) [.op (.tcreate oneThread)] _ (by simp) rfl rfl

/-- The main thread creates a thread and yields to it; that thread yields back. The 126 turns are
those of the two loops of `tsched`, of which the first switches in its last turn but one. -/
def yieldBack : List Event :=
  [.op (.tcreate oneThread), .op .tyield, .tau, .tau, .op .tyield] ++ List.replicate 126 .tau

/-- After `yieldBack` the main thread is in its own code again, and the other thread, which has not
returned from its function, is RUNNING as well: the scheduler does not see it any more. -/
theorem yieldBack_lost : ∃ s, run step (init fun _ => 0) yieldBack = some s ∧ s.ctl = .user ∧ s.current = 0 ∧
      (s.thread 1).returned = false ∧ (s.thread 1).state = .running ∧ ¬ SchedInv s := by
  obtain ⟨s, hs, h1, h2, h3, h4, h5⟩ : ∃ s ∈ run step (init fun _ => 0) yieldBack, s.ctl = .user ∧ s.current = 0 ∧
      s.heap.length = 2 ∧ (s.thread 1).returned = false ∧ (s.thread 1).state = .running := by decide +kernel
  refine ⟨s, hs, h1, h2, h4, h5, fun hi => ?_⟩
  exact hi.only 1 (by omega) (by rw [h2]; decide) h5

theorem dispatched_once_yieldBack : ∃ s ∈ run step (init fun _ => 0) (yieldBack.take 2), ∃ s1 ∈ step s .tau,
    ∃ s2 ∈ run step s1 (yieldBack.drop 3), s2.current = 0 ∧ ∀ es s3, run step s2 es = some s3 → s3.current ≠ 1 := by
  obtain ⟨s, hs, s1, h1, s2, h2, hc, hc1, hc2⟩ : ∃ s ∈ run step (init fun _ => 0) (yieldBack.take 2), ∃ s1 ∈ step s .tau,
      ∃ s2 ∈ run step s1 (yieldBack.drop 3), s.current = 0 ∧ s1.current = 1 ∧ s2.current = 0 := by decide +kernel
  refine ⟨s, hs, s1, h1, s2, h2, hc2, fun es s3 h3 => ?_⟩
  rw [← hc1]
  exact dispatched_once h1 (by rw [hc, hc1]; decide) h2 (by rw [hc1, hc2]; decide) h3

end Uthread
end Xv6
