import Mathlib.Order.Interval.Finset.Nat

/-!
# Xv6.Lib.Tiling

Blocks that tile a set of places: the block at `a ∈ D` has the `len a` places from `a` on, no two blocks
overlap, and together they are `R` (`Tiles`). Blocks are split (`Tiles.split`), merged (`Tiles.merge`) and
added above all others (`Tiles.add`).
-/

namespace Tiling

open Function Finset

structure Tiles (D : Finset Nat) (len : Nat → Nat) (R : Finset Nat) : Prop where
  pos : ∀ a ∈ D, 0 < len a
  disj : ∀ a ∈ D, ∀ b ∈ D, a < b → a + len a ≤ b
  cover : ∀ x, x ∈ R ↔ ∃ a ∈ D, a ≤ x ∧ x < a + len a

variable {D : Finset Nat} {len : Nat → Nat} {R : Finset Nat} {a b m : Nat}

section

variable (h : Tiles D len R)
include h

theorem Tiles.congr {len' : Nat → Nat} (he : ∀ a ∈ D, len' a = len a) : Tiles D len' R := by
  refine ⟨fun a ha => ?_, fun a ha b hb => ?_, fun x => ?_⟩
  · rw [he a ha]
    exact h.pos a ha
  · rw [he a ha]
    exact h.disj a ha b hb
  · rw [h.cover]
    exact exists_congr fun a => and_congr_right fun ha => by rw [he a ha]

theorem Tiles.le_card (ha : a ∈ D) : len a ≤ R.card := by
  have hsub : Finset.Ico a (a + len a) ⊆ R := fun x hx => (h.cover x).mpr ⟨a, ha, mem_Ico.mp hx⟩
  simpa using card_le_card hsub

theorem Tiles.merge (ha : a ∈ D) (hb : b ∈ D) (hab : a + len a = b) :
    Tiles (D.erase b) (update len a (len a + len b)) R := by
  have hpa := h.pos a ha
  have hpb := h.pos b hb
  refine ⟨fun x hx => ?_, fun x hx y hy hxy => ?_, fun x => ?_⟩
  · rw [update_apply]
    split
    · omega
    · exact h.pos x (mem_of_mem_erase hx)
  · obtain ⟨hxb, hxD⟩ := mem_erase.mp hx
    obtain ⟨hyb, hyD⟩ := mem_erase.mp hy
    rw [update_apply]
    split
    · subst x
      -- a block above `a` other than `b` is above `b`
      have h1 := h.disj a ha y hyD hxy
      have h2 := h.disj b hb y hyD (by omega)
      omega
    · exact h.disj x hxD y hyD hxy
  · rw [h.cover]
    constructor
    · rintro ⟨c, hc, hcx⟩
      by_cases hcb : c = b
      · subst hcb
        exact ⟨a, mem_erase.mpr ⟨by omega, ha⟩, by rw [update_self]; omega⟩
      · refine ⟨c, mem_erase.mpr ⟨hcb, hc⟩, hcx.1, ?_⟩
        rw [update_apply]
        split
        · subst c
          omega
        · exact hcx.2
    · rintro ⟨c, hc, hcx⟩
      obtain ⟨hcb, hcD⟩ := mem_erase.mp hc
      by_cases hca : c = a
      · subst hca
        rw [update_self] at hcx
        by_cases hxb : x < b
        · exact ⟨c, hcD, hcx.1, by omega⟩
        · exact ⟨b, hb, by omega, by omega⟩
      · rw [update_of_ne hca] at hcx
        exact ⟨c, hcD, hcx⟩

theorem Tiles.split (ha : a ∈ D) (hm : 0 < m) (hlt : m < len a) :
    Tiles (insert (a + m) D) (update (update len a m) (a + m) (len a - m)) R := by
  have hnew : a + m ∉ D := fun hD => by
    have := h.disj a ha _ hD (by omega)
    omega
  have hval : ∀ x, x ≠ a → x ≠ a + m → update (update len a m) (a + m) (len a - m) x = len x :=
    fun x h1 h2 => by rw [update_of_ne h2, update_of_ne h1]
  have hvala : update (update len a m) (a + m) (len a - m) a = m := by
    rw [update_of_ne (by omega), update_self]
  have hvalm : update (update len a m) (a + m) (len a - m) (a + m) = len a - m :=
    update_self ..
  refine ⟨fun x hx => ?_, fun x hx y hy hxy => ?_, fun x => ?_⟩
  · by_cases hxm : x = a + m
    · rw [hxm, hvalm]
      omega
    · by_cases hxa : x = a
      · rw [hxa, hvala]
        exact hm
      · rw [hval x hxa hxm]
        exact h.pos x (mem_of_mem_insert_of_ne hx hxm)
  · by_cases hxm : x = a + m
    · subst hxm
      have hyD := mem_of_mem_insert_of_ne hy (by omega)
      have := h.disj a ha y hyD (by omega)
      rw [hvalm]
      omega
    have hxD := mem_of_mem_insert_of_ne hx hxm
    by_cases hym : y = a + m
    · subst hym
      by_cases hxa : x = a
      · rw [hxa, hvala]
      · -- a block below the cut is below `a`
        rw [hval x hxa hxm]
        rcases Nat.lt_or_ge x a with hlt' | hge
        · have := h.disj x hxD a ha hlt'
          omega
        · have := h.disj a ha x hxD (by omega)
          omega
    have hyD := mem_of_mem_insert_of_ne hy hym
    by_cases hxa : x = a
    · subst hxa
      rw [hvala]
      have := h.disj x ha y hyD hxy
      omega
    · rw [hval x hxa hxm]
      exact h.disj x hxD y hyD hxy
  · rw [h.cover]
    constructor
    · rintro ⟨c, hc, hcx⟩
      by_cases hca : c = a
      · subst hca
        by_cases hxm : x < c + m
        · exact ⟨c, mem_insert_of_mem ha, hcx.1, by rw [hvala]; exact hxm⟩
        · exact ⟨c + m, mem_insert_self .., by omega, by rw [hvalm]; omega⟩
      · refine ⟨c, mem_insert_of_mem hc, hcx.1, ?_⟩
        rw [hval c hca fun he => hnew (he ▸ hc)]
        exact hcx.2
    · rintro ⟨c, hc, hcx⟩
      by_cases hcm : c = a + m
      · subst hcm
        rw [hvalm] at hcx
        exact ⟨a, ha, by omega, by omega⟩
      · have hcD := mem_of_mem_insert_of_ne hc hcm
        by_cases hca : c = a
        · subst hca
          rw [hvala] at hcx
          exact ⟨c, hcD, hcx.1, by omega⟩
        · rw [hval c hca hcm] at hcx
          exact ⟨c, hcD, hcx⟩

theorem Tiles.add (hm : 0 < m) (habove : ∀ x ∈ R, x < a) :
    Tiles (insert a D) (update len a m) (R ∪ Finset.Ico a (a + m)) := by
  have hend : ∀ c ∈ D, c + len c ≤ a := fun c hc => by
    have hp := h.pos c hc
    have := habove (c + len c - 1) ((h.cover _).mpr ⟨c, hc, by omega, by omega⟩)
    omega
  have hne : ∀ c ∈ D, c ≠ a := fun c hc he => by
    have := hend c hc
    have := h.pos c hc
    omega
  refine ⟨fun x hx => ?_, fun x hx y hy hxy => ?_, fun x => ?_⟩
  · obtain rfl | hx := mem_insert.mp hx
    · rw [update_self]
      exact hm
    · rw [update_of_ne (hne x hx)]
      exact h.pos x hx
  · obtain rfl | hxD := mem_insert.mp hx
    · obtain rfl | hyD := mem_insert.mp hy
      · omega
      · have := hend y hyD
        omega
    · rw [update_of_ne (hne x hxD)]
      obtain rfl | hyD := mem_insert.mp hy
      · exact hend x hxD
      · exact h.disj x hxD y hyD hxy
  · rw [mem_union, h.cover, mem_Ico]
    constructor
    · rintro (⟨c, hc, hcx⟩ | hx)
      · exact ⟨c, mem_insert_of_mem hc, by rwa [update_of_ne (hne c hc)]⟩
      · exact ⟨a, mem_insert_self .., by rwa [update_self]⟩
    · rintro ⟨c, hc, hcx⟩
      obtain rfl | hc := mem_insert.mp hc
      · rw [update_self] at hcx
        exact .inr hcx
      · rw [update_of_ne (hne c hc)] at hcx
        exact .inl ⟨c, hc, hcx⟩

end

end Tiling
