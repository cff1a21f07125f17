import Mathlib.Logic.Relation

/-!
# Xv6.Lib.Trans

Labelled transition systems with a partial step function: `step s e` is the state after event
`e`, or `none` when the event is not possible in `s`. `run` takes a list of events; an invariant
of the step function is an invariant of every run (`run_inv`), and what the steps that meet a
condition keep holds in the runs whose steps all meet it (`run_inv_of`).
-/

namespace Trans

variable {σ ε : Type*} (step : σ → ε → Option σ)

/-- The state after the events `es`, if each of them is possible in its turn. -/
def run : σ → List ε → Option σ
  | s, [] => some s
  | s, e :: es =>
    match step s e with
    | some s' => run s' es
    | none => none

variable {step}

@[simp] theorem run_nil (s : σ) : run step s [] = some s := rfl

theorem run_cons {s s'' : σ} {e : ε} {es : List ε} (h : run step s (e :: es) = some s'') :
    ∃ s', step s e = some s' ∧ run step s' es = some s'' := by
  simp only [run] at h
  split at h
  · exact ⟨_, ‹_›, h⟩
  · cases h

/-- What every step keeps, every run keeps. -/
theorem run_inv {I : σ → Prop} (hstep : ∀ s e s', I s → step s e = some s' → I s') :
    ∀ {es : List ε} {s s' : σ}, I s → run step s es = some s' → I s' := by
  intro es
  induction es with
  | nil =>
    intro s s' hi h
    cases h
    exact hi
  | cons e es ih =>
    intro s s' hi h
    obtain ⟨s1, h1, h2⟩ := run_cons h
    exact ih (hstep s e s1 hi h1) h2

variable (step) in
/-- Every state of the run of `es` from `s` has `P`. -/
def AllStates (P : σ → Prop) : σ → List ε → Prop
  | s, [] => P s
  | s, e :: es => P s ∧ ∀ s', step s e = some s' → AllStates P s' es

variable (step) in
/-- Every step of the run of `es` from `s` meets `C`. -/
def AllSteps (C : σ → ε → Prop) : σ → List ε → Prop
  | _, [] => True
  | s, e :: es => C s e ∧ ∀ s', step s e = some s' → AllSteps C s' es

instance decidableAllSteps {C : σ → ε → Prop} [∀ s e, Decidable (C s e)] :
    (s : σ) → (es : List ε) → Decidable (AllSteps step C s es)
  | _, [] => .isTrue trivial
  | s, e :: es =>
    match h : step s e with
    | some s' =>
      haveI := decidableAllSteps (C := C) s' es
      decidable_of_iff (C s e ∧ AllSteps step C s' es) (by simp [AllSteps, h])
    | none => decidable_of_iff (C s e) (by simp [AllSteps, h])

theorem allSteps_of {C : σ → ε → Prop} (h : ∀ s e, C s e) : ∀ (es : List ε) (s : σ), AllSteps step C s es := by
  intro es
  induction es with
  | nil => exact fun _ => trivial
  | cons e es ih => exact fun s => ⟨h s e, fun s' _ => ih s'⟩

theorem AllSteps.mono {C D : σ → ε → Prop} (hCD : ∀ s e, C s e → D s e) :
    ∀ {es : List ε} {s : σ}, AllSteps step C s es → AllSteps step D s es := by
  intro es
  induction es with
  | nil => exact fun _ => trivial
  | cons e es ih => exact fun {s} h => ⟨hCD s e h.1, fun s' hs => ih (h.2 s' hs)⟩

theorem allStates_of_inv {P I : σ → Prop} (h : ∀ s, I s → P s) (hstep : ∀ s e s', I s → step s e = some s' → I s') :
    ∀ (es : List ε) {s : σ}, I s → AllStates step P s es := by
  intro es
  induction es with
  | nil => exact fun hi => h _ hi
  | cons e es ih => exact fun {s} hi => ⟨h s hi, fun s' hs => ih (hstep s e s' hi hs)⟩

theorem allSteps_of_inv {C : σ → ε → Prop} {I : σ → Prop} (h : ∀ s e, I s → C s e)
    (hstep : ∀ s e s', I s → step s e = some s' → I s') : ∀ (es : List ε) {s : σ}, I s → AllSteps step C s es := by
  intro es
  induction es with
  | nil => exact fun _ => trivial
  | cons e es ih => exact fun {s} hi => ⟨h s e hi, fun s' hs => ih (hstep s e s' hi hs)⟩

/-- What every step that meets `C` keeps, a run whose steps all meet `C` keeps. -/
theorem run_inv_of {C : σ → ε → Prop} {I : σ → Prop} (hstep : ∀ s e s', I s → C s e → step s e = some s' → I s') :
    ∀ {es : List ε} {s s' : σ}, I s → AllSteps step C s es → run step s es = some s' → I s' := by
  intro es
  induction es with
  | nil =>
    intro s s' hi _ h
    cases h
    exact hi
  | cons e es ih =>
    intro s s' hi hc h
    obtain ⟨s1, h1, h2⟩ := run_cons h
    exact ih (hstep s e s1 hi hc.1 h1) (hc.2 s1 h1) h2

/-- Conditions that agree where `I` holds agree over a run, when the steps that meet them keep `I`. -/
theorem allSteps_congr {C D : σ → ε → Prop} {I : σ → Prop} (h : ∀ s e, I s → (C s e ↔ D s e))
    (hstep : ∀ s e s', I s → D s e → step s e = some s' → I s') :
    ∀ (es : List ε) {s : σ}, I s → (AllSteps step C s es ↔ AllSteps step D s es) := by
  intro es
  induction es with
  | nil => exact fun _ => Iff.rfl
  | cons e es ih =>
    intro s hi
    simp only [AllSteps, h s e hi]
    exact and_congr_right fun hd => forall₂_congr fun s' hs => ih (hstep s e s' hi hd hs)

/-- When `I` gives `P` and is kept by the steps that meet `C`, and the first step that does not
meet `C` breaks `P`, a run has `P` throughout exactly when all its steps meet `C`. -/
theorem allStates_iff_allSteps {A C : σ → ε → Prop} {I P : σ → Prop} (hP : ∀ s, I s → P s)
    (hkeep : ∀ s e s', I s → A s e → C s e → step s e = some s' → I s')
    (hbreak : ∀ s e s', I s → A s e → ¬ C s e → step s e = some s' → ¬ P s') :
    ∀ {es : List ε} {s s' : σ}, I s → run step s es = some s' → AllSteps step A s es →
      (AllStates step P s es ↔ AllSteps step C s es) := by
  intro es
  induction es with
  | nil =>
    intro s s' hi _ _
    exact ⟨fun _ => trivial, fun _ => hP s hi⟩
  | cons e es ih =>
    intro s s' hi hr ha
    obtain ⟨s1, h1, h2⟩ := run_cons hr
    have hall {Q : σ → Prop} : (∀ t, step s e = some t → Q t) ↔ Q s1 := by
      simp [h1]
    simp only [AllStates, AllSteps, hall]
    by_cases hc : C s e
    · have hi1 := hkeep s e s1 hi ha.1 hc h1
      rw [ih hi1 h2 (ha.2 s1 h1)]
      exact ⟨fun h => ⟨hc, h.2⟩, fun h => ⟨hP s hi, h.2⟩⟩
    · refine ⟨fun h => absurd ?_ (hbreak s e s1 hi ha.1 hc h1), fun h => absurd h.1 hc⟩
      cases es with
      | nil => exact h.2
      | cons e' es => exact h.2.1

end Trans
