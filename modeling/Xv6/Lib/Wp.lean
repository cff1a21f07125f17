import Mathlib.Tactic.Common

/-!
# Xv6.Lib.Wp

Total correctness for code with a state that can fail: `wp x Q s` says that `x` returns when run in
state `s`, without an error, and that `Q` holds of its result and of the state it leaves. One rule
for each construct, and consequence (`wp_mono`). For code that may also stop with certain errors
there is `wpe`. What code does in a given state can be evaluated.
-/

namespace Wp

variable {ε σ τ α β : Type}

def wp (x : StateT σ (Except ε) α) (Q : α → σ → Prop) (s : σ) : Prop :=
  match x s with
  | .ok (a, s') => Q a s'
  | .error _ => False

/-- As `wp`, but `x` may also stop with an error that meets `E`. -/
def wpe (E : ε → Prop) (x : StateT σ (Except ε) α) (Q : α → σ → Prop) (s : σ) : Prop :=
  match x s with
  | .ok (a, s') => Q a s'
  | .error e => E e

variable {x : StateT σ (Except ε) α} {P Q : α → σ → Prop} {s : σ}
variable {E : ε → Prop} {a : α} {s' : σ} {R : PUnit → σ → Prop} {e : ε} {c : Prop}

theorem wpe_ok (h : wpe E x Q s) (he : x s = .ok (a, s')) : Q a s' := by
  rwa [wpe, he] at h

theorem wpe_error (h : wpe E x Q s) (he : x s = .error e) : E e := by
  rwa [wpe, he] at h

theorem wpe_intro (hok : ∀ a s', x s = .ok (a, s') → Q a s') (herr : ∀ e, x s = .error e → E e) : wpe E x Q s := by
  unfold wpe
  split
  · exact hok _ _ ‹_›
  · exact herr _ ‹_›

theorem wpe_mono (h : wpe E x P s) (hPQ : ∀ a s', P a s' → Q a s') : wpe E x Q s :=
  wpe_intro (fun a s' he => hPQ a s' (wpe_ok h he)) fun _ => wpe_error h

theorem wpe_weaken {F : ε → Prop} (h : wpe E x Q s) (hEF : ∀ e, E e → F e) : wpe F x Q s :=
  wpe_intro (fun _ _ => wpe_ok h) fun e he => hEF e (wpe_error h he)

theorem wpe_and {F : ε → Prop} (h : wpe E x P s) (h' : wpe F x Q s) : wpe E x (fun a s' => P a s' ∧ Q a s') s :=
  wpe_intro (fun _ _ he => ⟨wpe_ok h he, wpe_ok h' he⟩) fun _ => wpe_error h

theorem wpe_trivial : wpe (fun _ => True) x (fun _ _ => True) s := wpe_intro (fun _ _ _ => trivial) fun _ _ => trivial

theorem wp_iff : wp x Q s ↔ ∃ a s', x s = .ok (a, s') ∧ Q a s' := by
  unfold wp
  constructor
  · intro h
    split at h
    · exact ⟨_, _, ‹_›, h⟩
    · exact h.elim
  · rintro ⟨a, s', h, hq⟩
    rw [h]
    exact hq

theorem wp_ok (h : wp x Q s) (he : x s = .ok (a, s')) : Q a s' := by
  rwa [wp, he] at h

theorem wp_mono (h : wp x P s) (hPQ : ∀ a s', P a s' → Q a s') : wp x Q s := by
  obtain ⟨a, s', he, hp⟩ := wp_iff.mp h
  exact wp_iff.mpr ⟨a, s', he, hPQ a s' hp⟩

theorem wpe_of_wp (h : wp x Q s) : wpe E x Q s := by
  obtain ⟨a, s', he, hq⟩ := wp_iff.mp h
  rw [wpe, he]
  exact hq

theorem wp_and_wpe (h : wp x P s) (h' : wpe E x Q s) : wp x (fun a s' => P a s' ∧ Q a s') s := by
  obtain ⟨a, s', he, hp⟩ := wp_iff.mp h
  exact wp_iff.mpr ⟨a, s', he, hp, wpe_ok h' he⟩

theorem wp_of_wpe (h : wpe E x Q s) (hE : ∀ e, ¬ E e) : wp x Q s := by
  unfold wpe at h
  split at h
  · exact wp_iff.mpr ⟨_, _, ‹_›, h⟩
  · exact absurd h (hE _)

theorem wpe_bind {f : α → StateT σ (Except ε) β} {R : β → σ → Prop} :
    wpe E (x >>= f) R s ↔ wpe E x (fun a s' => wpe E (f a) R s') s := by
  have h : (x >>= f) s = (x s >>= fun p => f p.1 p.2) := rfl
  unfold wpe
  rw [h]
  cases x s with
  | ok p => rfl
  | error e => rfl

@[simp] theorem wp_bind {f : α → StateT σ (Except ε) β} {R : β → σ → Prop} :
    wp (x >>= f) R s ↔ wp x (fun a s' => wp (f a) R s') s := wpe_bind

theorem wpe_map {f : α → β} {R : β → σ → Prop} : wpe E (f <$> x) R s ↔ wpe E x (fun a s' => R (f a) s') s := by
  have h : (f <$> x) s = (x s >>= fun p => pure (f p.1, p.2)) := rfl
  unfold wpe
  rw [h]
  cases x s with
  | ok p => rfl
  | error e => rfl

@[simp] theorem wp_pure : wp (pure a : StateT σ (Except ε) α) Q s ↔ Q a s := Iff.rfl

theorem wpe_pure : wpe E (pure a : StateT σ (Except ε) α) Q s ↔ Q a s := Iff.rfl

@[simp] theorem wp_get {R : σ → σ → Prop} : wp (get : StateT σ (Except ε) σ) R s ↔ R s s := Iff.rfl

@[simp] theorem wp_set : wp (set s' : StateT σ (Except ε) PUnit) R s ↔ R ⟨⟩ s' := Iff.rfl

@[simp] theorem wp_modify {f : σ → σ} : wp (modify f : StateT σ (Except ε) PUnit) R s ↔ R ⟨⟩ (f s) := Iff.rfl

@[simp] theorem wp_throw : wp (throw e : StateT σ (Except ε) α) Q s ↔ False := Iff.rfl

theorem wp_ite [Decidable c] {y : StateT σ (Except ε) α} :
    wp (if c then x else y) Q s ↔ (c → wp x Q s) ∧ (¬ c → wp y Q s) := by
  split <;> simp [*]

/-- A conditional without an alternative. -/
def doIf (c : Prop) [Decidable c] (x : StateT σ (Except ε) Unit) : StateT σ (Except ε) Unit :=
  if c then x else pure ()

@[simp] theorem wp_doIf [Decidable c] {y : StateT σ (Except ε) Unit} {R : Unit → σ → Prop} :
    wp (doIf c y) R s ↔ (c → wp y R s) ∧ (¬ c → R () s) := by
  rw [doIf, wp_ite, wp_pure]

/-- Code on a part of the state, run on the whole. -/
def zoom (get : σ → τ) (put : τ → σ → σ) (y : StateT τ (Except ε) α) : StateT σ (Except ε) α :=
  fun s =>
    match y (get s) with
    | .ok (a, t) => .ok (a, put t s)
    | .error e => .error e

theorem wpe_zoom {get : σ → τ} {put : τ → σ → σ} {y : StateT τ (Except ε) α} :
    wpe E (zoom get put y) Q s ↔ wpe E y (fun a t => Q a (put t s)) (get s) := by
  unfold wpe zoom
  cases y (get s) with
  | ok p => rfl
  | error e => rfl

@[simp] theorem wp_zoom {get : σ → τ} {put : τ → σ → σ} {y : StateT τ (Except ε) α} :
    wp (zoom get put y) Q s ↔ wp y (fun a t => Q a (put t s)) (get s) := wpe_zoom

theorem wpe_get {R : σ → σ → Prop} : wpe E (get : StateT σ (Except ε) σ) R s ↔ R s s := Iff.rfl

theorem wpe_set : wpe E (set s' : StateT σ (Except ε) PUnit) R s ↔ R ⟨⟩ s' := Iff.rfl

theorem wpe_modify {f : σ → σ} : wpe E (modify f : StateT σ (Except ε) PUnit) R s ↔ R ⟨⟩ (f s) := Iff.rfl

theorem wpe_throw : wpe E (throw e : StateT σ (Except ε) α) Q s ↔ E e := Iff.rfl

theorem wpe_ite [Decidable c] {y : StateT σ (Except ε) α} :
    wpe E (if c then x else y) Q s ↔ (c → wpe E x Q s) ∧ (¬ c → wpe E y Q s) := by
  split <;> simp [*]

theorem wpe_doIf [Decidable c] {y : StateT σ (Except ε) Unit} {R : Unit → σ → Prop}
    (hy : c → wpe E y R s) (hn : ¬ c → R () s) : wpe E (doIf c y) R s :=
  wpe_ite.mpr ⟨hy, hn⟩

attribute [irreducible] wp wpe

/-! ## Evaluation -/

instance decidableOk {r : Except ε (α × σ)} {P : α → σ → Prop} [∀ a s, Decidable (P a s)] :
    Decidable (∃ a s, r = .ok (a, s) ∧ P a s) :=
  match r with
  | .ok (a, s) => decidable_of_iff (P a s) ⟨fun h => ⟨a, s, rfl, h⟩, fun ⟨_, _, he, h⟩ => by cases he; exact h⟩
  | .error _ => isFalse nofun

instance decidableOkEq [DecidableEq α] {r : Except ε (α × σ)} {a : α} {P : σ → Prop} [DecidablePred P] :
    Decidable (∃ s, r = .ok (a, s) ∧ P s) :=
  decidable_of_iff (∃ b s, r = .ok (b, s) ∧ b = a ∧ P s)
    ⟨fun ⟨_, s, h, hb, hp⟩ => ⟨s, hb ▸ h, hp⟩, fun ⟨s, h, hp⟩ => ⟨a, s, h, rfl, hp⟩⟩

instance decidableError [DecidableEq ε] {r : Except ε α} {e : ε} : Decidable (r = .error e) :=
  match r with
  | .ok _ => isFalse nofun
  | .error e' => decidable_of_iff (e' = e) ⟨congrArg _, Except.error.inj⟩

end Wp
