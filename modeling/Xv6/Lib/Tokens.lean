import Mathlib.Data.List.Count

/-!
# Xv6.Lib.Tokens

Reference counting. A list of pairs records who (`α`) holds a reference to what (`β`), one pair per
reference; `count` is what the counter of an object should be. With a count of one the holder is
alone (`eq_of_count_eq_one`).
-/

namespace Tokens

variable {α β : Type*} [DecidableEq β]

def count (l : List (α × β)) (b : β) : Nat := l.countP fun h => h.2 = b

@[simp] theorem count_nil (b : β) : count ([] : List (α × β)) b = 0 := rfl

@[grind =] theorem count_cons (a : α) (b b' : β) (l : List (α × β)) :
    count ((a, b) :: l) b' = count l b' + if b = b' then 1 else 0 := by
  simp [count, List.countP_cons]

theorem count_pos {l : List (α × β)} {a : α} {b : β} (h : (a, b) ∈ l) : 0 < count l b :=
  List.countP_pos_iff.mpr ⟨(a, b), h, by simp⟩

theorem exists_of_count_pos {l : List (α × β)} {b : β} (h : 0 < count l b) : ∃ a, (a, b) ∈ l := by
  obtain ⟨⟨a, b'⟩, hm, he⟩ := List.countP_pos_iff.mp h
  simp only [decide_eq_true_eq] at he
  exact ⟨a, he ▸ hm⟩

variable [DecidableEq α] {l : List (α × β)} {a : α} {b : β}

theorem count_erase (h : (a, b) ∈ l) (b' : β) : count l b' = count (l.erase (a, b)) b' + if b = b' then 1 else 0 := by
  rw [← count_cons]
  exact (List.perm_cons_erase h).countP_eq _

theorem mem_erase_of_ne {a' : α} {b' : β} (hne : (a', b') ≠ (a, b))
    (h : (a', b') ∈ l) : (a', b') ∈ l.erase (a, b) := (List.mem_erase_of_ne hne).mpr h

/-- The only reference to `b` is the one that `a` holds, once. -/
theorem notMem_erase_of_count_eq_one {l : List (α × β)} {a a' : α} {b : β} (h1 : count l b = 1)
    (ha : (a, b) ∈ l) : (a', b) ∉ l.erase (a, b) := by
  intro hm
  have hpos := count_pos hm
  rw [count_erase ha b, if_pos rfl] at h1
  omega

theorem eq_of_count_eq_one {a' : α} (h1 : count l b = 1) (ha : (a, b) ∈ l) (ha' : (a', b) ∈ l) : a' = a := by
  by_contra hne
  exact notMem_erase_of_count_eq_one h1 ha (mem_erase_of_ne (by simp [hne]) ha')

end Tokens
