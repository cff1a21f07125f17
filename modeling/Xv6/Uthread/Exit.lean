import Xv6.Uthread.Tid

/-!
# Xv6.Uthread.Exit

The end of the process: `_main` calls `exit` as soon as `main` returns.

`_main` calls `tyield` once, before `main`, and never afterwards: a thread that has not finished when
`main` returns never runs again.

* `ExitInv`: a thread that somebody waits for is EXITED only when its function has returned.
* `outlives_of_joins`: a program that joins every thread before `main` returns outlives its threads.
* `createAndReturn_exits`: a program that does not.
-/

namespace Xv6
namespace Uthread

open St

variable {s s' : St} {p t : Ptr} {e : Event}

def Honest (s : St) (p : Ptr) : Prop := (s.thread p).state = .exited → (s.thread p).returned = true

/-- `t` is in the table, or a `tjoin` call waits for it. -/
def Known (s : St) (t : Ptr) : Prop :=
  (∃ i, s.threads i = some t) ∨ s.ctl.target = some t ∨ ∃ p, (s.thread p).tcontext.target = some t

structure ExitInv (s : St) : Prop where
  known : ∀ t, Known s t → t < s.heap.length ∧ Honest s t
  joined : ∀ p ∈ s.joined, p < s.heap.length ∧ (s.thread p).returned = true

/-! ## What a step keeps -/

theorem SameTable.honest (h : SameTable s s') : Honest s' p ↔ Honest s p := by
  rw [Honest, Honest, h.thread]

theorem finished_thread (s : St) (v : Nat) (p : Ptr) : (finished s v).thread p = s.thread p ∨
    ((finished s v).thread p).state = .exited ∧ ((finished s v).thread p).returned = true ∧
      ((finished s v).thread p).tcontext = (s.thread p).tcontext := by
  rw [finished, thread_setThread]
  split
  · rename_i hp
    rw [hp.1]
    exact .inr ⟨rfl, rfl, rfl⟩
  · exact .inl rfl

theorem switched_thread (s : St) (k : Int) (i : Nat) (r : Ret) (old t p : Ptr) :
    ((switched s k i r old t).thread p).returned = (s.thread p).returned ∧
    (((switched s k i r old t).thread p).state = (s.thread p).state ∨
      ((switched s k i r old t).thread p).state = .running) ∧
    (((switched s k i r old t).thread p).tcontext = (s.thread p).tcontext ∨
      ((switched s k i r old t).thread p).tcontext = .sched k (i + 1) r) := by
  rw [thread_switched]
  refine ⟨rfl, ?_, ?_⟩
  · show (if _ then _ else _) = _ ∨ (if _ then _ else _) = _
    split
    · exact .inr rfl
    · exact .inl rfl
  · show (if _ then _ else _) = _ ∨ (if _ then _ else _) = _
    split
    · exact .inr rfl
    · exact .inl rfl

theorem setUnused_thread (s : St) (p : Ptr) :
    ((s.setState s.current .unused).thread p).returned = (s.thread p).returned ∧
    (((s.setState s.current .unused).thread p).state = .exited → (s.thread p).state = .exited) ∧
    ((s.setState s.current .unused).thread p).tcontext = (s.thread p).tcontext := by
  rw [setState, thread_setThread]
  split
  · rename_i hp
    rw [hp.1]
    refine ⟨rfl, ?_, rfl⟩
    intro (h : ProcState.unused = .exited)
    cases h
  · exact ⟨rfl, id, rfl⟩

/-- No step makes a thread forget that it has returned, or lie about it. -/
theorem step_keeps (h : step s e = some s') (hp : p < s.heap.length) :
    ((s.thread p).returned = true → (s'.thread p).returned = true) ∧ (Honest s p → Honest s' p) := by
  obtain hs | ⟨a, -, rfl⟩ | ⟨v, -, -, hs⟩ | ⟨k, i, r, old, t, -, -, -, -, -, rfl⟩ |
    ⟨t, status, size, -, -, hh, -, -, -, -⟩ := step_cases h
  · rw [hs.honest, hs.thread]
    exact ⟨id, id⟩
  · rw [Honest, Honest, tcreate_thread s a hp]
    exact ⟨id, id⟩
  · rw [hs.honest, hs.thread, Honest, Honest]
    rcases finished_thread s v p with he | ⟨-, hr, -⟩
    · rw [he]
      exact ⟨id, id⟩
    · exact ⟨fun _ => hr, fun _ _ => hr⟩
  · obtain ⟨hr, hst, -⟩ := switched_thread s k i r old t p
    rw [Honest, Honest, hr]
    refine ⟨id, fun hh hx => ?_⟩
    rcases hst with hst | hst
    · exact hh (hst.symm.trans hx)
    · rw [hst] at hx
      cases hx
  · have ht : s'.thread p = (s.setState s.current .unused).thread p := by simp [thread, hh]
    obtain ⟨hr, hst, -⟩ := setUnused_thread s p
    rw [Honest, Honest, ht, hr]
    exact ⟨id, fun hh hx => hh (hst hx)⟩

/-! ## Who is known -/

theorem step_target (h : step s e = some s') (ht : s'.ctl.target = some t) : Known s t := by
  rcases step_places h with ⟨a, -, -, rfl⟩ | ⟨c, -, rfl, hc⟩ | ⟨-, -, rfl⟩ | ⟨v, -, -, -, rfl⟩ | ⟨k, i, -, -, rfl⟩ |
    ⟨k, i, r, old, q, -, hctl, -, -, -, -, -, rfl⟩ | ⟨q, status, size, -, -, hx, rfl⟩
  · exact .inr (.inl (by simpa using ht))
  · rcases hc.target t ht with hi | hi
    · exact .inl hi
    · exact .inr (.inl hi)
  · cases ht
  · cases ht
  · cases ht
  · have ht' : ((switched s k i r old q).thread q).tcontext.target = some t := ht
    obtain ⟨-, -, hq⟩ := switched_thread s k i r old q q
    rcases hq with hq | hq
    · exact .inr (.inr ⟨q, by rw [← hq]; exact ht'⟩)
    · refine .inr (.inl ?_)
      rw [hq] at ht'
      rw [hctl, ← ht']
      cases r <;> rfl
  · rw [(tjoinTurn_exited hx status size).2.2.2.2] at ht
    cases ht

theorem tcreate_threads {a : CreateArgs} {i : Nat} (h : (tcreate s a).threads i = some t) :
    s.threads i = some t ∨ t = s.heap.length ∧ ((tcreate s a).thread t).state = .runnable := by
  unfold tcreate addThreadToTable at h ⊢
  split at h
  · rename_i j _
    by_cases hi : i = j
    · subst hi
      have he : s.heap.length = t := by simpa [setState, setThread] using h
      refine .inr ⟨he.symm, ?_⟩
      rw [← he]
      show ((setThread _ s.heap.length _).thread s.heap.length).state = _
      rw [thread_setThread, if_pos ⟨rfl, by simp⟩]
    · left
      have h : Function.update s.threads j (some s.heap.length) i = some t := h
      rwa [Function.update_of_ne hi] at h
  · exact .inl h

theorem tcreate_target {a : CreateArgs} (h : ((tcreate s a).thread p).tcontext.target = some t) :
    (s.thread p).tcontext.target = some t := by
  by_cases hp : p < s.heap.length
  · rwa [tcreate_thread s a hp] at h
  · have hc : ((tcreate s a).thread p).tcontext = .entry ∨ (tcreate s a).thread p = default := by
      by_cases he : p = s.heap.length
      · left
        have h0 : ({ s with heap := s.heap ++ [a.thread] } : St).thread s.heap.length = a.thread := by simp [thread]
        rw [he, tcreate, addThreadToTable]
        split
        · show ((setThread _ s.heap.length _).thread s.heap.length).tcontext = _
          rw [thread_setThread, if_pos ⟨rfl, by simp⟩]
          show (St.thread _ s.heap.length).tcontext = _
          simp [thread, CreateArgs.thread]
        · rw [h0]
          rfl
      · right
        have hlen : (tcreate s a).heap.length ≤ p := by
          rw [tcreate_length]
          exact Nat.lt_of_le_of_ne (Nat.le_of_not_lt hp) (Ne.symm he)
        rw [thread, List.getD_eq_getElem?_getD, List.getElem?_eq_none hlen]
        rfl
    rcases hc with hc | hc
    · rw [hc] at h
      cases h
    · rw [hc] at h
      cases h

theorem step_known (h : step s e = some s') (hk : Known s' t) :
    Known s t ∨ (t = s.heap.length ∧ t < s'.heap.length ∧ Honest s' t) := by
  rcases hk with ⟨i, hi⟩ | hc | ⟨p, hp⟩
  · obtain hs | ⟨a, -, rfl⟩ | ⟨v, -, -, hs⟩ | ⟨k, j, r, old, t, -, -, -, -, -, rfl⟩ |
      ⟨q, status, size, -, -, -, hth, -, -, -⟩ := step_cases h
    · exact .inl (.inl ⟨i, by rw [← hs.threads]; exact hi⟩)
    · rcases tcreate_threads hi with hi | ⟨rfl, hst⟩
      · exact .inl (.inl ⟨i, hi⟩)
      · refine .inr ⟨rfl, by simp, fun hx => ?_⟩
        rw [hst] at hx
        cases hx
    · exact .inl (.inl ⟨i, by rw [hs.threads] at hi; exact hi⟩)
    · exact .inl (.inl ⟨i, hi⟩)
    · exact .inl (.inl ⟨i, by rw [← hth]; exact hi⟩)
  · exact .inl (step_target h hc)
  · obtain hs | ⟨a, -, rfl⟩ | ⟨v, -, -, hs⟩ | ⟨k, j, r, old, t, hctl, -, -, -, -, rfl⟩ |
      ⟨q, status, size, -, -, hh, -, -, -, -⟩ := step_cases h
    · exact .inl (.inr (.inr ⟨p, by rw [← hs.thread]; exact hp⟩))
    · exact .inl (.inr (.inr ⟨p, tcreate_target hp⟩))
    · refine .inl (.inr (.inr ⟨p, ?_⟩))
      rw [hs.thread] at hp
      rcases finished_thread s v p with he | ⟨-, -, he⟩
      · rw [← he]
        exact hp
      · rw [← he]
        exact hp
    · obtain ⟨-, -, hq⟩ := switched_thread s k j r old t p
      rcases hq with hq | hq
      · exact .inl (.inr (.inr ⟨p, by rw [← hq]; exact hp⟩))
      · refine .inl (.inr (.inl ?_))
        rw [hq] at hp
        rw [hctl]
        cases r <;> exact hp
    · have ht : s'.thread p = (s.setState s.current .unused).thread p := by simp [thread, hh]
      rw [ht, (setUnused_thread s p).2.2] at hp
      exact .inl (.inr (.inr ⟨p, hp⟩))

theorem step_length (h : step s e = some s') : s.heap.length ≤ s'.heap.length := by
  by_cases he : ∃ a, e = .op (.tcreate a)
  · obtain ⟨a, rfl⟩ := he
    simp only [step] at h
    split at h
    · cases h
      simp
    · cases h
  · exact Nat.le_of_eq (step_table h fun a hea => he ⟨a, hea⟩).2.symm

theorem step_joined (h : step s e = some s') (hp : p ∈ s'.joined) :
    p ∈ s.joined ∨ Known s p ∧ (s.thread p).state = .exited := by
  obtain hs | ⟨a, -, rfl⟩ | ⟨v, -, -, hs⟩ | ⟨k, j, r, old, t, -, -, -, -, -, rfl⟩ |
    ⟨q, status, size, hctl, hx, -, -, -, hj, -⟩ := step_cases h
  · exact .inl (by rwa [hs.joined] at hp)
  · exact .inl (by rwa [tcreate_joined] at hp)
  · exact .inl (by rw [hs.joined] at hp; exact hp)
  · exact .inl hp
  · rw [hj, List.mem_cons] at hp
    rcases hp with rfl | hp
    · exact .inr ⟨.inr (.inl (by rw [hctl]; rfl)), hx⟩
    · exact .inl hp

theorem exitInv_step (hi : ExitInv s) (h : step s e = some s') : ExitInv s' := by
  have hlen := step_length h
  constructor
  · intro t ht
    rcases step_known h ht with hk | ⟨-, hlt, hh⟩
    · obtain ⟨hlt, hh⟩ := hi.known t hk
      exact ⟨Nat.lt_of_lt_of_le hlt hlen, (step_keeps h hlt).2 hh⟩
    · exact ⟨hlt, hh⟩
  · intro p hp
    rcases step_joined h hp with hp | ⟨hk, hx⟩
    · obtain ⟨hlt, hr⟩ := hi.joined p hp
      exact ⟨Nat.lt_of_lt_of_le hlt hlen, (step_keeps h hlt).1 hr⟩
    · obtain ⟨hlt, hh⟩ := hi.known p hk
      exact ⟨Nat.lt_of_lt_of_le hlt hlen, (step_keeps h hlt).1 (hh hx)⟩

theorem exitInv_init (mem : Nat → UInt8) : ExitInv (init mem) := by
  have hth : ∀ p, (init mem).thread p = mainThread ∨ (init mem).thread p = default := by
    intro p
    cases p with
    | zero => exact .inl rfl
    | succ p => exact .inr (by simp [thread, init])
  refine ⟨fun t ht => ?_, fun p hp => by cases hp⟩
  rcases ht with ⟨i, hi⟩ | hc | ⟨p, hp⟩
  · have h0 : t = 0 := by
      cases i with
      | zero => simpa [init] using hi.symm
      | succ i => simp [init] at hi
    subst h0
    refine ⟨by simp [init], fun hx => ?_⟩
    cases hx
  · cases hc
  · rcases hth p with h | h
    · rw [h] at hp
      cases hp
    · rw [h] at hp
      cases hp

/-! ## The end of the process -/

/-- `main` returns, and `_main` calls `exit`. -/
def MainReturns (l : Lib) (e : Event) : Prop := (∃ v, e = .op (.ret v)) ∧ l.st.ctl = .user ∧ l.st.current = 0

instance (l : Lib) : (e : Event) → Decidable (MainReturns l e)
  | .op (.ret v) => decidable_of_iff (l.st.ctl = .user ∧ l.st.current = 0) (by simp [MainReturns])
  | .op (.tcreate _) => .isFalse (by simp [MainReturns])
  | .op .tyield => .isFalse (by simp [MainReturns])
  | .op (.tjoin _ _ _) => .isFalse (by simp [MainReturns])
  | .tau => .isFalse (by simp [MainReturns])

/-- When `main` returns, every thread that was created has returned from its function. -/
def Outlives (l : Lib) (e : Event) : Prop :=
  MainReturns l e → ∀ p < l.st.heap.length, 0 < p → (l.st.thread p).returned = true

/-- `main` returns only when a `tjoin` call has returned for every thread that was created. -/
def JoinsAll (l : Lib) (e : Event) : Prop :=
  MainReturns l e → ∀ p < l.st.heap.length, 0 < p → p ∈ l.st.joined

instance : DecidableRel Outlives := fun l e => inferInstanceAs (Decidable (MainReturns l e → _))

instance : DecidableRel JoinsAll := fun l e => inferInstanceAs (Decidable (MainReturns l e → _))

theorem libStep_st {l l' : Lib} (h : libStep l e = some l') : ∃ e', step l.st e' = some l'.st := by
  obtain ⟨s, hs, rfl⟩ := Option.map_eq_some_iff.mp h
  exact ⟨_, hs⟩

/-- The process outlives its threads in every run in which `main` joins them all before it returns. -/
theorem outlives_of_joins (mem : Nat → UInt8) (es : List Event) (hj : Trans.AllSteps libStep JoinsAll (start mem) es) :
    Trans.AllSteps libStep Outlives (start mem) es := by
  have key : ∀ es l, ExitInv l.st → Trans.AllSteps libStep JoinsAll l es → Trans.AllSteps libStep Outlives l es := by
    intro es
    induction es with
    | nil => exact fun _ _ _ => trivial
    | cons e es ih =>
      intro l hi hj
      refine ⟨fun hm p hp h0 => (hi.joined p (hj.1 hm p hp h0)).2, fun l' hl => ?_⟩
      obtain ⟨e', he⟩ := libStep_st hl
      exact ih l' (exitInv_step hi he) (hj.2 l' hl)
  exact key es _ (exitInv_init mem) hj

/-- `main` creates a thread, joins it and returns. The thread returns at once. -/
def joinThenReturn : List Event :=
  [.op (.tcreate oneThread), .op (.tjoin 2 0 0), .tau, .tau, .tau, .op (.ret 0)] ++
    List.replicate 127 .tau ++ [.op (.ret 0)]

theorem outlives_joinThenReturn : (Trans.run libStep (start fun _ => 0) joinThenReturn).any
      (fun l => decide (l.st.ctl = .halted ∧ l.st.heap.length = 2)) = true ∧
    Trans.AllSteps libStep Outlives (start fun _ => 0) joinThenReturn :=
  ⟨by decide +kernel, outlives_of_joins (fun _ => 0) joinThenReturn (by decide +kernel)⟩

/-- `main` creates a thread and returns. -/
def createAndReturn : List Event := [.op (.tcreate oneThread), .op (.ret 0)]

/-- The process has called `exit`, and the thread has not even started. -/
theorem createAndReturn_exits :
    (∃ l, Trans.run libStep (start fun _ => 0) createAndReturn = some l ∧ l.st.ctl = .halted ∧
      l.st.heap.length = 2 ∧ (l.st.thread 1).returned = false ∧ (l.st.thread 1).tcontext = .entry) ∧
    ¬ Trans.AllSteps libStep Outlives (start fun _ => 0) createAndReturn :=
  ⟨⟨_, rfl, rfl, rfl, rfl, rfl⟩, by decide⟩

end Uthread
end Xv6
