import Xv6.Lib.Wp

/-!
# Xv6.Lib.Prog

Code as a sequence of atomic actions on a shared state.

An action is a computation that no other process can interrupt; between two actions of a `Prog`
other processes may act. `Prog.run` is what the code does when it runs alone, and `Prog.wpe` its
weakest precondition then: one rule for each construct, as in `Xv6.Lib.Wp`.
-/

/-- Code that performs actions and returns an `α`. -/
inductive Prog (σ ε α : Type) : Type 1 where
  | ret (a : α) : Prog σ ε α
  | act {β : Type} (x : StateT σ (Except ε) β) (k : β → Prog σ ε α) : Prog σ ε α

namespace Prog

open Wp (wp)

variable {σ ε α β : Type}

def bind : Prog σ ε α → (α → Prog σ ε β) → Prog σ ε β
  | ret a, f => f a
  | act x k, f => act x fun b => bind (k b) f

instance : Monad (Prog σ ε) where
  pure := ret
  bind := bind

instance : LawfulMonad (Prog σ ε) := LawfulMonad.mk' _
  (fun x => by
    show bind x (fun a => ret (id a)) = x
    induction x with
    | ret a => rfl
    | act x k ih => exact congrArg (act x) (funext ih))
  (fun _ _ => rfl)
  (fun x f g => by
    show bind (bind x f) g = bind x fun a => bind (f a) g
    induction x with
    | ret a => rfl
    | act x k ih => exact congrArg (act x) (funext ih))

def atomic (x : StateT σ (Except ε) α) : Prog σ ε α := act x ret

/-- The code without interference. -/
def run : Prog σ ε α → StateT σ (Except ε) α
  | ret a => pure a
  | act x k => x >>= fun b => run (k b)

def wpe (E : ε → Prop) (p : Prog σ ε α) (Q : α → σ → Prop) (s : σ) : Prop := Wp.wpe E p.run Q s

variable {E F : ε → Prop} {p : Prog σ ε α} {P Q : α → σ → Prop} {s : σ}

@[simp] theorem wpe_pure {a : α} : wpe E (pure a : Prog σ ε α) Q s ↔ Q a s := Wp.wpe_pure

@[simp] theorem wpe_bind {f : α → Prog σ ε β} {R : β → σ → Prop} :
    wpe E (p >>= f) R s ↔ wpe E p (fun a s' => wpe E (f a) R s') s := by
  show Wp.wpe E (bind p f).run R s ↔ _
  induction p generalizing s with
  | ret a => exact (wpe_pure (a := a) (Q := fun a s' => wpe E (f a) R s')).symm
  | act x k ih =>
    simp only [bind, run, wpe, Wp.wpe_bind]
    constructor
    · intro h
      exact Wp.wpe_mono h fun b s' => ih b |>.mp
    · intro h
      exact Wp.wpe_mono h fun b s' => ih b |>.mpr

theorem wpe_atomic {x : StateT σ (Except ε) α} : wpe E (atomic x) Q s ↔ Wp.wpe E x Q s := by
  simp only [atomic, wpe, run, Wp.wpe_bind]
  constructor
  · intro h
    exact Wp.wpe_mono h fun a s' => Wp.wpe_pure.mp
  · intro h
    exact Wp.wpe_mono h fun a s' => Wp.wpe_pure.mpr

theorem wpe_mono (h : wpe E p P s) (hPQ : ∀ a s', P a s' → Q a s') : wpe E p Q s := Wp.wpe_mono h hPQ

theorem wpe_weaken (h : wpe E p Q s) (hEF : ∀ e, E e → F e) : wpe F p Q s := Wp.wpe_weaken h hEF

theorem wpe_seq {f : α → Prog σ ε β} {R : β → σ → Prop} (h : wpe E p P s)
    (hf : ∀ a s', P a s' → wpe E (f a) R s') : wpe E (p >>= f) R s := wpe_bind.mpr (wpe_mono h hf)

theorem wpe_and (h : wpe E p P s) (h' : wpe F p Q s) : wpe E p (fun a s' => P a s' ∧ Q a s') s :=
  Wp.wpe_and h h'

theorem wpe_ok {a : α} {s' : σ} (h : wpe E p Q s) (he : p.run s = .ok (a, s')) : Q a s' := Wp.wpe_ok h he

theorem wpe_error {e : ε} (h : wpe E p Q s) (he : p.run s = .error e) : E e := Wp.wpe_error h he

theorem exists_of_wpe (h : wpe (fun _ => False) p Q s) : ∃ a s', p.run s = .ok (a, s') ∧ Q a s' := by
  cases hr : p.run s with
  | ok r => exact ⟨r.1, r.2, rfl, wpe_ok h hr⟩
  | error e => exact (wpe_error h hr).elim

theorem wpe_ite {c : Prop} [Decidable c] {q : Prog σ ε α} :
    wpe E (if c then p else q) Q s ↔ (c → wpe E p Q s) ∧ (¬ c → wpe E q Q s) := by
  split <;> simp [*]

end Prog
