import Mathlib.Logic.Function.Basic
import Mathlib.Data.List.Nodup

/-!
# Xv6.Lib.Writes

Lists of writes to a store `κ → β`, applied in order.

A crash in the middle of a list of writes leaves the store as after a prefix of the list. What
makes redo logging work is that writing the whole list again over such a store gives the same
result as writing it once: `apply_apply_take`, from `apply_congr`.
-/

namespace Writes

open Function

variable {κ β : Type*} [DecidableEq κ] {ws : List (κ × β)} {x : κ}

/-- The store after the writes `ws`, in order. -/
def apply : List (κ × β) → (κ → β) → κ → β
  | [], d => d
  | w :: ws, d => apply ws (update d w.1 w.2)

@[simp] theorem apply_nil (d : κ → β) : apply [] d = d := rfl

@[simp] theorem apply_cons (w : κ × β) (ws : List (κ × β)) (d : κ → β) :
    apply (w :: ws) d = apply ws (update d w.1 w.2) := rfl

theorem apply_append (ws vs : List (κ × β)) (d : κ → β) : apply (ws ++ vs) d = apply vs (apply ws d) := by
  induction ws generalizing d with
  | nil => rfl
  | cons w ws ih => simp [ih]

theorem apply_of_notMem (h : x ∉ ws.map Prod.fst) (d : κ → β) : apply ws d x = d x := by
  induction ws generalizing d with
  | nil => rfl
  | cons w ws ih =>
    simp only [List.map_cons, List.mem_cons, not_or] at h
    rw [apply_cons, ih h.2, update_of_ne h.1]

/-- The value of a key depends on the old store only if no write names the key. -/
theorem apply_congr {d e : κ → β} (h : x ∈ ws.map Prod.fst ∨ d x = e x) : apply ws d x = apply ws e x := by
  induction ws generalizing d e with
  | nil => simpa using h
  | cons w ws ih =>
    apply ih
    by_cases hx : x = w.1
    · subst hx; right; simp
    · rw [update_of_ne hx, update_of_ne hx]
      simp only [List.map_cons, List.mem_cons, hx, false_or] at h
      exact h

theorem apply_of_mem (hn : (ws.map Prod.fst).Nodup) {v : β} (h : (x, v) ∈ ws) (d : κ → β) : apply ws d x = v := by
  induction ws generalizing d with
  | nil => simp at h
  | cons w ws ih =>
    simp only [List.map_cons, List.nodup_cons] at hn
    rcases List.mem_cons.mp h with rfl | h
    · rw [apply_cons, apply_of_notMem hn.1, update_self]
    · exact ih hn.2 h _

/-- Redo: writing all of `ws` over a store that already has some of them written. -/
theorem apply_apply_take (ws : List (κ × β)) (k : Nat) (d : κ → β) : apply ws (apply (ws.take k) d) = apply ws d := by
  funext x
  apply apply_congr
  by_cases h : x ∈ ws.map Prod.fst
  · exact .inl h
  · refine .inr (apply_of_notMem (fun hx => h ?_) d)
    rw [List.map_take] at hx
    exact List.mem_of_mem_take hx

end Writes
