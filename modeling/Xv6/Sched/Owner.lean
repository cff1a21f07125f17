import Xv6.Sched.Steps

/-!
# Xv6.Sched.Owner

Which CPU has which process in `c->proc`.

* `Owned`: a process whose lock is free is RUNNING exactly when one CPU has it in `c->proc`.
* `owned_iff_no_earlyReturn`: this is so throughout a run exactly when `mlfq_scheduler` never takes its
  early return, which leaves `c->proc` set.
* `earlyReturn_unowned`: a run in which it does, after which two CPUs have one process.
* `runs_on_one_cpu`: even then only one CPU runs it.
-/

namespace Xv6
namespace Sched

open State Function

section

variable {C L : Type} {s s' : State C L} {c : Cpu} {p : Slot} {k : Loop}

/-- A process whose lock is free is RUNNING if and only if exactly one CPU has it in `c->proc`, and no
CPU has it there when it is not. -/
def Owned (s : State C L) : Prop :=
  ∀ p, s.lock p = none →
    ((s.proc p).state = .running ↔ ∃! c, s.cur c = some p) ∧ ((s.proc p).state ≠ .running → ∀ c, s.cur c ≠ some p)

/-- A timer interrupt in scheduler code never makes `kerneltrap` yield. -/
def Untouched (s : State C L) : Prop :=
  ∀ c k, s.mode c = .sched k → k.back = none → kerneltrapYields s c = false

/-- In this step `mlfq_scheduler` finds that it is not the scheduler any more. -/
def earlyReturns (s : State C L) (ev : Cpu × Op C L) : Bool :=
  match s.mode ev.1, ev.2 with
  | .sched (.highBack _), .tau _ | .sched (.lowBack _), .tau _ => s.schedPointer ≠ .mlfq
  | _, _ => false

def Idle (s : State C L) : Prop := ∀ c k, s.mode c = .sched k → k.back = none → s.cur c = none

theorem Idle.cur_iff (h : Inv s) (hi : Idle s) (hl : s.lock p = none) (c : Cpu) :
    s.cur c = some p ↔ ∃ k, s.mode c = .run p k := by
  constructor
  · intro hc
    cases hm : s.mode c with
    | sched k =>
      cases hk : k.back with
      | none =>
        rw [hi c k hm hk] at hc
        cases hc
      | some i =>
        have hci := (h.back c k i hm hk).1
        rw [hc] at hci
        cases hci
        rw [(h.lock p c).mpr ((heldBy_sched hm).trans hk)] at hl
        cases hl
    | run q k =>
      have hcq := (h.active c q k hm).2.2
      rw [hc] at hcq
      cases hcq
      exact ⟨k, rfl⟩
  · rintro ⟨k, hk⟩
    exact (h.active c p k hk).2.2

theorem Inv.running_iff (h : Inv s) (hl : s.lock p = none) :
    (s.proc p).state = .running ↔ ∃ c k, s.mode c = .run p k := by
  constructor
  · intro hst
    by_contra hno
    push Not at hno
    have := h.suspended p hno
    rw [Suspended, hst] at this
    exact this
  · rintro ⟨c, k, hm⟩
    rcases (h.active c p k hm).1 with ⟨hr, -⟩ | ⟨hz, he⟩
    · exact hr
    · have hs := h.zombie_suspended hl hz
      rw [Suspended, hz] at hs
      rw [hs] at he
      cases he

theorem Idle.owned (h : Inv s) (hi : Idle s) : Owned s := by
  intro p hl
  have hcur := hi.cur_iff h hl
  refine ⟨⟨fun hst => ?_, fun ⟨c, hc, _⟩ => ?_⟩, fun hst c hc => ?_⟩
  · obtain ⟨c, k, hm⟩ := (h.running_iff hl).mp hst
    refine ⟨c, (hcur c).mpr ⟨k, hm⟩, fun c' hc' => ?_⟩
    obtain ⟨k', hm'⟩ := (hcur c').mp hc'
    exact h.alone c' c p k' k hm' hm
  · obtain ⟨k, hm⟩ := (hcur c).mp hc
    exact (h.running_iff hl).mpr ⟨c, k, hm⟩
  · obtain ⟨k, hm⟩ := (hcur c).mp hc
    exact hst ((h.running_iff hl).mpr ⟨c, k, hm⟩)

theorem Idle.untouched (hi : Idle s) : Untouched s := by
  intro c k hm hk
  rw [kerneltrapYields, hi c k hm hk]

end

attribute [local simp] setProc setLock setSpin setThread setMode setCur setState

section Steps

variable {C L : Type} {s s' : State C L} {c : Cpu} {p : Slot} {k : Loop}

theorem Idle.switch (hi : Idle s) (h : Inv s) (hrun : s.mode c = .run p k) (hcur : s'.cur = s.cur)
    (hmode : s'.mode = s.mode ∨ s'.mode = update s.mode c (.sched k)) : Idle s' := by
  intro c' k' hm hk
  rw [hcur]
  rcases hmode with hmode | hmode
  · exact hi c' k' (hmode ▸ hm) hk
  · by_cases hc : c' = c
    · rw [hmode, hc, update_self] at hm
      cases hm
      rw [(h.active c p k hrun).2.1] at hk
      cases hk
    · rw [hmode, update_of_ne hc] at hm
      exact hi c' k' hm hk

theorem Idle.sched {m : Mode} (hi : Idle s) (hmode : s'.mode = update s.mode c m)
    (hcur : ∀ c', c' ≠ c → s'.cur c' = s.cur c') (hm : s'.cur c = none ∨ ∃ p k, m = .run p k) : Idle s' := by
  intro c' k' hm' hk
  by_cases hc : c' = c
  · rw [hmode, hc, update_self] at hm'
    rcases hm with hm | ⟨p, k, rfl⟩
    · rw [hc, hm]
    · cases hm'
  · rw [hmode, update_of_ne hc] at hm'
    rw [hcur c' hc]
    exact hi c' k' hm' hk

theorem idle_schedStep {ok : Bool} (hi : Idle s) (hm : s.mode c = .sched k)
    (he : earlyReturns s (c, (.tau ok : Op C L)) = false) (hs : schedStep s c k = some s') : Idle s' := by
  -- in the loops the scheduler goes on to the next process, or dispatches this one
  have hnext : ∀ k', k.back = none → Idle (s.setMode c (.sched k')) :=
    fun k' hk => hi.sched (m := .sched k') rfl (fun _ _ => rfl) (.inl (hi c k hm hk))
  have hdisp : ∀ i k', Idle (dispatch s c i k') :=
    fun i k' => hi.sched rfl (fun c' hc => update_of_ne hc _ _) (.inr ⟨i, k', rfl⟩)
  have hback : ∀ i k', Idle (switchedBack s c i k') :=
    fun i k' => hi.sched (m := .sched k') rfl (fun c' hc => update_of_ne hc _ _) (.inl (update_self ..))
  cases k with
  | start =>
    cases hs
    exact hi.sched rfl (fun c' hc => update_of_ne hc _ _) (.inl (update_self ..))
  | rr i | high i avail | low i =>
    simp only [schedStep] at hs
    repeat' split at hs
    all_goals first
      | cases hs; exact hdisp _ _
      | cases hs; exact hnext _ rfl
      | cases hs
  | rrBack i =>
    cases hs
    exact hback _ _
  | highBack i | lowBack i =>
    simp only [earlyReturns, hm, decide_eq_false_iff_not] at he
    simp only [schedStep, if_neg he] at hs
    cases hs
    exact hback _ _

variable [DecidableEq C] [DecidableEq L]

theorem idle_step {ev : Cpu × Op C L} (h : Inv s) (hi : Idle s) (he : earlyReturns s ev = false)
    (hs : step s ev = some s') : Idle s' := by
  rcases step_cases hs with ⟨k, hm, ⟨⟨ok, hok⟩, hs⟩ | rfl⟩ | ⟨p, k, hm, ⟨ok, -, hs⟩ | ⟨user, -, -, hs⟩ | ⟨x, -, -, hs⟩⟩
  · have he' : earlyReturns s (ev.1, (.tau ok : Op C L)) = false := by rw [← he, ← hok]
    exact idle_schedStep hi hm he' hs
  · exact hi
  · obtain ⟨hcur, hmode⟩ := threadStep_mode hs
    exact hi.switch h hm hcur hmode
  · obtain ⟨hcur, hmode⟩ := yield_mode hs
    exact hi.switch h hm hcur (.inr hmode)
  · obtain ⟨hcur, hmode⟩ := call_mode hs
    exact hi.switch h hm hcur (.inl hmode)

theorem unowned_of_earlyReturn {ev : Cpu × Op C L} (h : Inv s) (he : earlyReturns s ev = true)
    (hs : step s ev = some s') : ¬ Owned s' := by
  obtain ⟨c, op⟩ := ev
  have hk : ∃ k i ok, s.mode c = .sched k ∧ op = .tau ok ∧ (k = .highBack i ∨ k = .lowBack i) ∧ s.schedPointer ≠ .mlfq := by
    unfold earlyReturns at he
    split at he
    · exact ⟨_, _, _, ‹_›, ‹_›, .inl rfl, of_decide_eq_true he⟩
    · exact ⟨_, _, _, ‹_›, ‹_›, .inr rfl, of_decide_eq_true he⟩
    · cases he
  obtain ⟨k, i, ok, hm, rfl, hk, hp⟩ := hk
  have hs' : s' = earlyReturn s c i := by
    rcases hk with rfl | rfl <;> simpa [step, hm, schedStep, hp] using hs.symm
  have hb : k.back = some i := by rcases hk with rfl | rfl <;> rfl
  obtain ⟨hcur, hnr⟩ := h.back c k i hm hb
  intro ho
  rw [hs'] at ho
  refine (ho i (by simp [earlyReturn])).2 (fun hst => ?_) c (by simpa [earlyReturn] using hcur)
  have hsusp := h.suspended i hnr
  rw [Suspended, show (s.proc i).state = .running from hst] at hsusp
  exact hsusp

/-- Throughout a run every free process is RUNNING exactly when one CPU has it, and `kerneltrap` yields
no process in scheduler code, if and only if `mlfq_scheduler` never takes its early return. -/
theorem owned_iff_no_earlyReturn {evs : List (Cpu × Op C L)} (hr : Trans.run step (boot C L) evs = some s) :
    Trans.AllStates step (fun s => Owned s ∧ Untouched s) (boot C L) evs ↔
      Trans.AllSteps step (fun s ev => earlyReturns s ev = false) (boot C L) evs := by
  have hidle : Idle (boot C L) := fun _ _ _ _ => rfl
  refine Trans.allStates_iff_allSteps (A := fun _ _ => True) (I := fun s => Inv s ∧ Idle s)
    (fun s hi => ⟨hi.2.owned hi.1, hi.2.untouched⟩) (fun s ev s' hi _ he hs => ?_) (fun s ev s' hi _ he hs ho => ?_)
    ⟨inv_boot C L, hidle⟩ hr (Trans.allSteps_of (fun _ _ => trivial) _ _)
  · exact ⟨inv_step hi.1 hs, idle_step hi.1 hi.2 he hs⟩
  · exact unowned_of_earlyReturn hi.1 (Bool.not_eq_false _ ▸ he) hs ho.1

/-- With a stale `c->proc` or not, no process runs on two CPUs. -/
theorem runs_on_one_cpu {evs : List (Cpu × Op C L)} (hr : Trans.run step (boot C L) evs = some s) (p : Slot) :
    (s.lock p = none → ((s.proc p).state = .running ↔ ∃ c k, s.mode c = .run p k)) ∧
      ∀ c k, s.mode c = .run p k → s.cur c = some p ∧ ∀ c' k', s.mode c' = .run p k' → c' = c := by
  have h : Inv s := Trans.run_inv (fun _ _ _ hi hs => inv_step hi hs) (inv_boot C L) hr
  exact ⟨h.running_iff, fun c k hm => ⟨(h.active c p k hm).2.2, fun c' k' hm' => h.alone c' c p k' k hm' hm⟩⟩

end Steps

/-- The first process is dispatched, makes `mlfq_scheduler` the scheduler and yields; the scheduler goes
round and dispatches it again. -/
def throughMlfq : List (Cpu × Op Unit Unit) :=
  [(0, .tau true), (0, .tau true), (0, .tau true), (0, .call (.schedset 2)), (0, .timer false)] ++
    List.replicate 68 (0, .tau true)

theorem owned_throughMlfq : ∃ s, Trans.run step (boot Unit Unit) throughMlfq = some s ∧
    s.mode 0 = .run 0 (.highBack 0) ∧
    Trans.AllStates step (fun s => Owned s ∧ Untouched s) (boot Unit Unit) throughMlfq := by
  obtain ⟨s, hr, hm⟩ : ∃ s ∈ Trans.run step (boot Unit Unit) throughMlfq, s.mode 0 = .run 0 (.highBack 0) := by
    decide +kernel
  exact ⟨s, hr, hm, (owned_iff_no_earlyReturn hr).mpr (by decide +kernel)⟩

/-- The process then makes `rr_scheduler` the scheduler and yields. CPU 0 returns from `mlfq_scheduler`
early, and CPU 1 dispatches the process. -/
def returnEarly : List (Cpu × Op Unit Unit) :=
  throughMlfq ++ [(0, .call (.schedset 1)), (0, .timer false), (0, .tau true), (1, .tau true), (1, .tau true),
    (1, .tau true)]

/-- Both CPUs have the process in `c->proc`, and a timer interrupt on CPU 0, in scheduler code, makes
`kerneltrap` yield it. -/
theorem earlyReturn_unowned : ∃ s, Trans.run step (boot Unit Unit) returnEarly = some s ∧
    s.mode 1 = .run 0 (.rrBack 0) ∧ s.mode 0 = .sched .start ∧ kerneltrapYields s 0 = true ∧ ¬ Owned s := by
  obtain ⟨s, hr, h1, h2, h3, hl, hst, hc0, hc1⟩ : ∃ s ∈ Trans.run step (boot Unit Unit) returnEarly,
      s.mode 1 = .run 0 (.rrBack 0) ∧ s.mode 0 = .sched .start ∧ kerneltrapYields s 0 = true ∧ s.lock 0 = none ∧
      (s.proc 0).state = .running ∧ s.cur 0 = some 0 ∧ s.cur 1 = some 0 := by decide +kernel
  refine ⟨s, hr, h1, h2, h3, fun ho => ?_⟩
  obtain ⟨c, -, huniq⟩ := (ho 0 hl).1.mp hst
  have h01 : (0 : Cpu) = 1 := (huniq 0 hc0).trans (huniq 1 hc1).symm
  cases h01

theorem runs_on_one_cpu_returnEarly : ∃ s ∈ Trans.run step (boot Unit Unit) returnEarly,
    s.cur 0 = some 0 ∧ ∀ c k, s.mode c = .run 0 k → c = 1 := by
  obtain ⟨s, hr, h0, h1⟩ : ∃ s ∈ Trans.run step (boot Unit Unit) returnEarly,
      s.cur 0 = some 0 ∧ s.mode 1 = .run 0 (.rrBack 0) := by decide +kernel
  exact ⟨s, hr, h0, ((runs_on_one_cpu hr 0).2 1 _ h1).2⟩

end Sched
end Xv6
