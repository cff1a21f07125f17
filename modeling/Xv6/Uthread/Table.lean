import Xv6.Uthread.Sched

/-!
# Xv6.Uthread.Table

Conservation of the slots of `threads[]`.

As long as no `tjoin` call returns, slot `i` holds thread `i` and the slots from the number of
threads on are empty (`Filled`), so each unfinished thread has one slot. The first `tjoin` that
returns ends this: it marks the *calling* thread UNUSED instead of the joined one, so the slot of
the joined thread stays taken (`first_join_breaks`) and the slot of the caller is given to the
next thread (`joinThenCreate_overwrites`).
-/

namespace Xv6
namespace Uthread

open St

variable {s s' : St}

/-- Each unfinished thread has exactly one slot, and the slot of a joined thread is available. -/
structure TableInv (s : St) : Prop where
  one_slot : ∀ p, p < s.heap.length → (s.thread p).returned = false →
    ∃! i, i < MAX_THREADS ∧ s.threads i = some p
  joined_free : ∀ p ∈ s.joined, ∀ i, i < MAX_THREADS → s.threads i = some p → available s i = true

/-- The threads that have not returned, or that no `tjoin` has returned for. -/
def pending (s : St) : Nat :=
  (List.range s.heap.length).countP fun p => !((s.thread p).returned && s.joined.contains p)

/-- A thread is created only while fewer than `MAX_THREADS` are unfinished or unjoined. -/
def Bounded (s : St) (e : Event) : Prop := ∀ a, e = .op (.tcreate a) → pending s < MAX_THREADS

/-- The next step is the return of a `tjoin` call, for thread `t`. -/
def JoinReturns (s : St) (t : Ptr) : Prop :=
  (∃ status size, s.ctl = .wait t status size) ∧ (s.thread t).state = .exited

/-- The table while no `tjoin` has returned. -/
structure Filled (s : St) : Prop where
  len : s.heap.length ≤ MAX_THREADS
  slots : ∀ i, i < MAX_THREADS → s.threads i = if i < s.heap.length then some i else none
  joined : s.joined = []
  taken : ∀ p, p < s.heap.length →
    (s.thread p).state = .runnable ∨ (s.thread p).state = .running ∨ (s.thread p).state = .exited

theorem not_available (h : Filled s) {i : Nat} (hi : i < s.heap.length) : available s i = false := by
  have hlen := h.len
  rw [available, h.slots i (by omega), if_pos hi]
  rcases h.taken i hi with ht | ht | ht <;> simp [ht, ProcState.toNat]

theorem Filled.tableInv (h : Filled s) : TableInv s := by
  have hlen := h.len
  refine ⟨fun p hp _ => ⟨p, ⟨by omega, ?_⟩, ?_⟩, fun p hp => ?_⟩
  · rw [h.slots p (by omega), if_pos hp]
  · rintro i ⟨hi, he⟩
    rw [h.slots i hi] at he
    split at he
    · exact Option.some.inj he
    · cases he
  · rw [h.joined] at hp
    cases hp

theorem Filled.of_sameTable (h : Filled s) (hs : SameTable s s') : Filled s' :=
  ⟨by rw [hs.heap]; exact h.len, by rw [hs.heap, hs.threads]; exact h.slots,
    by rw [hs.joined]; exact h.joined,
    fun p hp => by rw [hs.thread]; exact h.taken p (by rwa [hs.heap] at hp)⟩

theorem pending_filled (h : s.joined = []) : pending s = s.heap.length := by
  rw [pending, List.countP_eq_length.mpr (by simp [h]), List.length_range]

theorem Filled.tcreate (h : Filled s) (hlt : s.heap.length < MAX_THREADS)
    (a : CreateArgs) : Filled (tcreate s a) := by
  have h1 : ∀ i, i < s.heap.length →
      available { s with heap := s.heap ++ [a.thread] } i = available s i := by
    intro i hi
    have hs := h.slots i (by omega)
    rw [if_pos hi] at hs
    simp only [available, hs, thread_append s _ hi]
  have hfind : (List.range MAX_THREADS).find?
      (fun i => available { s with heap := s.heap ++ [a.thread] } i) = some s.heap.length := by
    rw [List.find?_range_eq_some]
    refine ⟨?_, by simpa using hlt, fun j hj => ?_⟩
    · have hs := h.slots s.heap.length hlt
      rw [if_neg (by omega)] at hs
      simp [available, hs]
    · rw [h1 j hj, not_available h hj]; rfl
  have hthreads : (Uthread.tcreate s a).threads =
      Function.update s.threads s.heap.length (some s.heap.length) := by
    rw [Uthread.tcreate, addThreadToTable, hfind]; rfl
  refine ⟨by rw [tcreate_length]; omega, fun i hi => ?_, by rw [tcreate_joined]; exact h.joined,
    fun p hp => ?_⟩
  · rw [hthreads, tcreate_length]
    by_cases he : i = s.heap.length
    · subst he; simp
    · rw [Function.update_of_ne he, h.slots i hi]
      by_cases hl : i < s.heap.length
      · rw [if_pos hl, if_pos (by omega)]
      · rw [if_neg hl, if_neg (by omega)]
  · rw [tcreate_length] at hp
    rcases Nat.lt_or_eq_of_le (Nat.le_of_lt_succ hp) with hp | rfl
    · rw [tcreate_thread s a hp]
      exact h.taken p hp
    · left
      rw [Uthread.tcreate, addThreadToTable, hfind]
      simp [setState, thread_setThread]

theorem filled_step {e : Event} (hf : Filled s) (hb : Bounded s e)
    (hj : ∀ t, ¬ JoinReturns s t) (h : step s e = some s') : Filled s' := by
  obtain hs | ⟨a, rfl, rfl⟩ | ⟨v, -, -, hs⟩ | ⟨k, i, r, old, t, -, -, -, -, -, rfl⟩ |
    ⟨t, status, size, hw, hx, -⟩ := step_cases h
  · exact hf.of_sameTable hs
  · have hlt := hb a rfl
    rw [pending_filled hf.joined] at hlt
    exact hf.tcreate hlt a
  · refine Filled.of_sameTable (s := finished s v) ⟨?_, ?_, hf.joined, fun p hp => ?_⟩ hs
    · simpa [finished] using hf.len
    · rw [show (finished s v).heap.length = s.heap.length from by simp [finished]]
      exact hf.slots
    · rw [finished, thread_setThread]
      split
      · exact .inr (.inr rfl)
      · exact hf.taken p (by simpa [finished] using hp)
  · refine ⟨by simpa using hf.len, by rw [switched_length]; exact hf.slots, hf.joined, fun p hp => ?_⟩
    rw [switched_length] at hp
    by_cases he : p = t
    · subst he
      exact .inr (.inl (switched_state_self s k i r old hp))
    · rw [switched_state_ne s k i r old he]
      exact hf.taken p hp
  · exact absurd ⟨⟨status, size, hw⟩, hx⟩ (hj t)

theorem filled_init (mem : Nat → UInt8) : Filled (init mem) := by
  refine ⟨by simp [init, MAX_THREADS], fun i _ => ?_, rfl, fun p hp => ?_⟩
  · cases i <;> simp [init]
  · obtain rfl : p = 0 := by simpa [init] using hp
    exact .inl rfl

/-- The first `tjoin` that returns for another thread than its caller leaves the slot of the joined
thread taken: the thread is EXITED, and only the caller has become UNUSED. -/
theorem first_join_breaks {e : Event} {t : Ptr} (hf : Filled s)
    (hj : JoinReturns s t) (hne : t ≠ s.current) (h : step s e = some s') : ¬ TableInv s' := by
  obtain ⟨⟨status, size, hw⟩, hx⟩ := hj
  have hlt : t < s.heap.length := by
    by_contra hge
    have hd : s.thread t = default := by
      simp [thread, List.getElem?_eq_none (Nat.le_of_not_lt hge)]
    rw [hd] at hx
    cases hx
  have hmax := Nat.lt_of_lt_of_le hlt hf.len
  obtain rfl : tjoinTurn s t status size = s' := by
    cases e with
    | op o => simp [step, hw] at h
    | tau => simpa [step, hw] using h
  obtain ⟨hheap, hthreads, -, hjoined, -⟩ := tjoinTurn_exited hx status size
  have hslot : (tjoinTurn s t status size).threads t = some t := by
    rw [hthreads, hf.slots t hmax, if_pos hlt]
  have hstate : (tjoinTurn s t status size).thread t = s.thread t := by
    rw [← thread_setState_ne s .unused hne, thread, hheap, thread]
  intro hi
  have ha := hi.joined_free t (by simp [hjoined]) t hmax hslot
  simp [available, hslot, hstate, hx] at ha

/-- The assumptions on the program: bounded creation, and no thread waits for itself. -/
def Proper (s : St) (e : Event) : Prop := Bounded s e ∧ ¬ JoinReturns s s.current

/-- The table is conserved in exactly the runs in which no `tjoin` call returns. -/
theorem tableInv_iff_no_join (mem : Nat → UInt8) (es : List Event) (s : St)
    (hrun : Trans.run step (init mem) es = some s) (hp : Trans.AllSteps step Proper (init mem) es) :
    Trans.AllStates step TableInv (init mem) es ↔
      Trans.AllSteps step (fun s _ => ∀ t, ¬ JoinReturns s t) (init mem) es := by
  refine Trans.allStates_iff_allSteps (I := Filled) (fun s h => h.tableInv)
    (fun s e s' hf ha hc h => filled_step hf ha.1 hc h) ?_ (filled_init mem) hrun hp
  intro s e s' hf ha hc h
  obtain ⟨t, hj⟩ := not_forall_not.mp hc
  refine first_join_breaks hf hj ?_ h
  rintro rfl
  exact ha.2 hj

theorem tableInv_iff_no_join_tcreate :
    Trans.AllStates step TableInv (init fun _ => 0) [.op (.tcreate oneThread)] := by
  refine (tableInv_iff_no_join (fun _ => 0) [.op (.tcreate oneThread)] _ rfl ?_).mpr ?_
  · refine ⟨⟨fun _ _ => by decide, ?_⟩, fun _ _ => trivial⟩
    rintro ⟨⟨_, _, h⟩, -⟩
    cases h
  · refine ⟨?_, fun _ _ => trivial⟩
    rintro t ⟨⟨_, _, h⟩, -⟩
    cases h

/-- The main thread creates a thread, joins it and creates another one. The thread returns at once;
the 127 turns are those of the loops of `tsched` and `tjoin` after that. -/
def joinThenCreate : List Event :=
  [.op (.tcreate oneThread), .op (.tjoin 1 0 0), .tau, .tau, .tau, .op (.ret 0)] ++
    List.replicate 127 .tau ++ [.op (.tcreate { oneThread with tid := 2 })]

/-- The second thread has taken the slot of the main thread, which runs and is in no slot, and the
slot of the joined thread is still taken. -/
theorem joinThenCreate_overwrites : ∃ s, Trans.run step (init fun _ => 0) joinThenCreate = some s ∧ s.ctl = .user ∧
      s.current = 0 ∧ s.joined = [1] ∧ (∀ i < MAX_THREADS, s.threads i ≠ some 0) ∧
      s.threads 1 = some 1 ∧ available s 1 = false ∧ ¬ TableInv s := by
  obtain ⟨s, hs, h1, h2, h3, h4, h5, h6, hlen, hr⟩ : ∃ s ∈ Trans.run step (init fun _ => 0) joinThenCreate,
      s.ctl = .user ∧ s.current = 0 ∧ s.joined = [1] ∧ (∀ i < MAX_THREADS, s.threads i ≠ some 0) ∧
      s.threads 1 = some 1 ∧ available s 1 = false ∧ s.heap.length = 3 ∧ (s.thread 0).returned = false := by
    decide +kernel
  refine ⟨s, hs, h1, h2, h3, h4, h5, h6, fun hi => ?_⟩
  obtain ⟨i, ⟨hi, ht⟩, -⟩ := hi.one_slot 0 (by rw [hlen]; decide) hr
  exact h4 i hi ht

end Uthread
end Xv6
