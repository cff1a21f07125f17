import Mathlib.Data.List.Basic

/-!
# Xv6.Lib.Lines

Texts of lines. A text is written with a newline behind each line, and has one way to be read so.
-/

namespace Lines

open List

/-- The text with these lines. -/
def join (ls : List (List Char)) : List Char := ls.flatMap (· ++ ['\n'])

theorem join_cons (l : List Char) (ls : List (List Char)) : join (l :: ls) = l ++ '\n' :: join ls := by
  simp [join]

theorem join_append (ls ls' : List (List Char)) : join (ls ++ ls') = join ls ++ join ls' := flatMap_append

theorem first_inj {a b x y : List Char} (ha : '\n' ∉ a) (hb : '\n' ∉ b) (h : a ++ '\n' :: x = b ++ '\n' :: y) :
    a = b ∧ x = y := by
  rcases append_eq_append_iff.mp h with ⟨_ | ⟨c, e⟩, rfl, he⟩ | ⟨_ | ⟨c, e⟩, rfl, he⟩
  · exact ⟨(append_nil a).symm, (cons.inj he).2⟩
  · obtain ⟨rfl, -⟩ := cons.inj he
    exact absurd (mem_append_right _ mem_cons_self) hb
  · exact ⟨append_nil b, (cons.inj he).2.symm⟩
  · obtain ⟨rfl, -⟩ := cons.inj he
    exact absurd (mem_append_right _ mem_cons_self) ha

end Lines
