import Xv6.Uthread.Sched

/-!
# Xv6.Uthread.Null

Empty slots of `threads[]`.

The loops of the library look at a slot before they know that it holds a thread: for an empty slot
they read through a null pointer.

* `slotsRead`: the slots whose thread a step reads a field of.
* `emptyRead_always`: in every run in which a call has returned, a step has read an empty slot. The
  first turn of the loop of `tsched` does it already, and so does the first `tcreate`.
-/

namespace Xv6
namespace Uthread

open St

variable {s : St}

/-- The slots that a loop looks at, from slot 0 up to the first one that meets `f`. -/
def scanned (f : Nat → Bool) : List Nat :=
  match (List.range MAX_THREADS).find? f with
  | some i => List.range (i + 1)
  | none => List.range MAX_THREADS

def tyieldReads (s : St) : List Nat := scanned fun i => s.tidAt i (s.thread s.current).tid

/-- The slots `i` for which a step reads a field of `threads[i]`. -/
def slotsRead (s : St) : Event → List Nat
  | .op (.tcreate a) => scanned fun i => available { s with heap := s.heap ++ [a.thread] } i
  | .op .tyield => tyieldReads s
  | .op (.tjoin tid _ _) => scanned fun i => s.tidAt i tid
  | .op (.ret _) => if s.current = 0 then [] else tyieldReads s
  | .tau =>
    match s.ctl with
    | .sched k i _ => if ((i % MAX_THREADS : Nat) : Int) = k then [] else [i % MAX_THREADS]
    | .wait t _ _ => if (s.thread t).state = .exited then [] else tyieldReads s
    | _ => []

/-- A step reads occupied slots only, and `tsched` has the index of the current thread. -/
structure SlotsOk (s : St) (e : Event) : Prop where
  occupied : ∀ i ∈ slotsRead s e, s.threads i ≠ none
  index : ∀ k i r, s.ctl = .sched k i r → k ≠ -1

/-- The main thread alone, in a call that has not looked at another slot yet. -/
def Entering (s : St) : Prop :=
  Alone s ∧ (s.ctl = .halted ∨ (∃ t status size, s.ctl = .wait t status size) ∨ ∃ r, s.ctl = .sched 0 1 r)

theorem Alone.slot_one (h : Alone s) : s.threads 1 = none := by
  rw [h.threads]
  rfl

theorem Alone.entering_tyield (h : Alone s) (r : Ret) : Entering (Uthread.tyield s r) := by
  rw [Uthread.tyield, h.findThreadIndex]
  refine ⟨h.with_ctl ?_, .inr (.inr ⟨r, rfl⟩)⟩
  rintro k i r' ⟨⟩
  exact ⟨rfl, by decide, by decide⟩

/-- The slot of the main thread is taken, so `tcreate` looks at the next one. -/
theorem Alone.tcreate_reads (h : Alone s) (a : CreateArgs) : 1 ∈ slotsRead s (.op (.tcreate a)) := by
  have hfind : (List.range MAX_THREADS).find? (fun i => available { s with heap := s.heap ++ [a.thread] } i) =
      some 1 := by
    rw [List.find?_range_eq_some]
    refine ⟨by simp [available, h.slot_one], List.mem_range.mpr (by decide), fun j hj => ?_⟩
    obtain rfl : j = 0 := by omega
    simp [available, h.threads, h.heap, thread, mainThread, ProcState.toNat]
  rw [slotsRead, scanned, hfind]
  simp

theorem entering_step {s' : St} {e : Event} (ha : Alone s) (hc : s.ctl = .user ∨ Entering s) (hok : SlotsOk s e)
    (h : step s e = some s') : Entering s' := by
  cases e with
  | op o =>
    simp only [step] at h
    split at h
    · cases o with
      | tcreate a => exact absurd ha.slot_one (hok.occupied 1 (ha.tcreate_reads a))
      | tyield =>
        cases h
        exact ha.entering_tyield _
      | tjoin tid status size =>
        cases h
        unfold tjoin
        split
        · split
          · exact ⟨ha.with_ctl (by simp), .inr (.inl ⟨_, _, _, rfl⟩)⟩
          · exact ⟨ha.with_ctl (by simp), .inl rfl⟩
        · exact ⟨ha.with_ctl (by simp), .inl rfl⟩
      | ret v =>
        cases h
        rw [threadReturn, if_pos ha.current]
        exact ⟨ha.with_ctl (by simp), .inl rfl⟩
    · cases h
  | tau =>
    rcases hc with hu | ⟨-, hh | ⟨t, status, size, hw⟩ | ⟨r, hs⟩⟩
    · simp [step, hu] at h
    · simp [step, hh] at h
    · simp only [step, hw] at h
      cases h
      rw [tjoinTurn, if_neg (ha.thread_state t)]
      exact ha.entering_tyield _
    · -- the first turn of the loop of `tsched`: slot 1 is empty
      exact absurd ha.slot_one (hok.occupied 1 (by simp [slotsRead, hs]))

/-- A run from the table that `_main` sets up in which a call has returned reads an empty slot. -/
theorem emptyRead_always (mem : Nat → UInt8) (es : List Event) (s : St) (hne : es ≠ [])
    (hrun : Trans.run step (init mem) es = some s) (hu : s.ctl = .user) :
    ¬ Trans.AllSteps step SlotsOk (init mem) es := by
  have key : ∀ es s0, Alone s0 → (s0.ctl = .user ∨ Entering s0) → Trans.AllSteps step SlotsOk s0 es → es ≠ [] →
      Trans.run step s0 es = some s → Entering s := by
    intro es
    induction es with
    | nil => exact fun _ _ _ _ hne => absurd rfl hne
    | cons e es ih =>
      intro s0 ha hc hok _ hr
      obtain ⟨s1, h1, h2⟩ := Trans.run_cons hr
      have he := entering_step ha hc hok.1 h1
      cases es with
      | nil =>
        cases h2
        exact he
      | cons e' es => exact ih s1 he.1 (.inr he) (hok.2 s1 h1) (by simp) h2
  intro hok
  obtain ⟨-, hh | ⟨t, status, size, hw⟩ | ⟨r, hs⟩⟩ := key es _ (alone_init mem) (.inl rfl) hok hne hrun
  · rw [hu] at hh
    cases hh
  · rw [hu] at hw
    cases hw
  · rw [hu] at hs
    cases hs

theorem emptyRead_always_tcreate : ¬ Trans.AllSteps step SlotsOk (init fun _ => 0) [.op (.tcreate oneThread)] :=
  emptyRead_always (fun _ => 0) [.op (.tcreate oneThread)] _ (by simp) rfl rfl

/-- The call of `tyield` in `_main`, before `main`: its first turn reads slot 1, which is empty. -/
theorem mainYield_reads :
    ∃ s, Trans.run step (init fun _ => 0) [.op .tyield] = some s ∧ slotsRead s .tau = [1] ∧ s.threads 1 = none ∧
      ¬ Trans.AllSteps step SlotsOk (init fun _ => 0) [.op .tyield, .tau] := by
  refine ⟨_, rfl, by decide, rfl, fun hok => ?_⟩
  exact (hok.2 _ rfl).1.occupied 1 (by decide) rfl

end Uthread
end Xv6
