import Mathlib.Algebra.BigOperators.Group.Finset.Basic
import Mathlib.Algebra.Order.BigOperators.Group.Finset
import Mathlib.Algebra.Order.Group.Multiset
import Mathlib.Tactic.Abel

/-!
# Xv6.Lib.Radix

Radix trees that live in a memory of nodes with `n` words each. A word of an interior node either
leads to a child (`child w = some c`) or is `zero`; the words of the nodes at level 0 are the
values. A path gives the index to take at each level.

* `nodes`: the nodes of a tree; a tree only depends on the memory at its nodes (`nodes_congr`,
  `lookup_congr`, `Wf.congr`).
* `nodes_splice`, `lookup_splice`: one subtree is replaced, the others are as before.
-/

namespace Radix

open Function Finset

variable {A W : Type*} {n : Nat} (child : W → Option A) (zero : W)

/-- The nodes of the tree of height `l` with root `a`, with multiplicity. -/
def nodes (m : A → Fin n → W) : Nat → A → Multiset A
  | 0, a => {a}
  | l + 1, a => a ::ₘ ∑ i, (child (m a i)).elim 0 (nodes m l)

/-- A word of an interior node that leads nowhere is `zero`. -/
def Wf (m : A → Fin n → W) : Nat → A → Prop
  | 0, _ => True
  | l + 1, a => ∀ i, (child (m a i)).elim (m a i = zero) (Wf m l)

/-- The value that a path leads to; `zero` when it breaks off. -/
def lookup (m : A → Fin n → W) (path : Nat → Fin n) : Nat → A → W
  | 0, a => m a (path 0)
  | l + 1, a => (child (m a (path (l + 1)))).elim zero (lookup m path l)

def slot (m : A → Fin n → W) (path : Nat → Fin n) : Nat → A → Option (A × Fin n)
  | 0, a => some (a, path 0)
  | l + 1, a => (child (m a (path (l + 1)))).bind (slot m path l)

variable {child zero} {m m' : A → Fin n → W} {path : Nat → Fin n} {l : Nat} {a b c : A} {i : Fin n}

theorem mem_nodes_self : a ∈ nodes child m l a := by
  cases l with
  | zero => exact Multiset.mem_singleton_self a
  | succ l => exact Multiset.mem_cons_self a _

theorem mem_nodes_child (hc : child (m a i) = some c) (hb : b ∈ nodes child m l c) : b ∈ nodes child m (l + 1) a := by
  refine Multiset.mem_cons_of_mem (Multiset.mem_sum.mpr ⟨i, mem_univ i, ?_⟩)
  rw [hc]
  exact hb

theorem lookup_eq_slot : lookup child zero m path l a = (slot child m path l a).elim zero fun p => m p.1 p.2 := by
  induction l generalizing a with
  | zero => rfl
  | succ l ih =>
    simp only [lookup, slot]
    cases child (m a (path (l + 1))) with
    | none => rfl
    | some c => exact ih

theorem lookup_path {path' : Nat → Fin n} (h : ∀ j ≤ l, path j = path' j) :
    lookup child zero m path l a = lookup child zero m path' l a := by
  induction l generalizing a with
  | zero => simp only [lookup, h 0 (Nat.le_refl 0)]
  | succ l ih =>
    simp only [lookup, h (l + 1) (Nat.le_refl _)]
    cases child (m a (path' (l + 1))) with
    | none => rfl
    | some c => exact ih fun j hj => h j (by omega)

theorem slot_mem (hs : slot child m path l a = some (b, i)) : b ∈ nodes child m l a := by
  induction l generalizing a with
  | zero =>
    cases hs
    exact mem_nodes_self
  | succ l ih =>
    obtain ⟨c, hc, hs⟩ := Option.bind_eq_some_iff.mp hs
    exact mem_nodes_child hc (ih hs)

/-! ## What a tree depends on -/

section Congr

section

variable (h : ∀ x ∈ nodes child m l a, m' x = m x)
include h

theorem nodes_congr : nodes child m' l a = nodes child m l a := by
  induction l generalizing a with
  | zero => rfl
  | succ l ih =>
    simp only [nodes, h a mem_nodes_self]
    congr 1
    refine sum_congr rfl fun i _ => ?_
    cases hc : child (m a i) with
    | none => rfl
    | some c => exact ih fun x hx => h x (mem_nodes_child hc hx)

theorem lookup_congr :
    lookup child zero m' path l a = lookup child zero m path l a := by
  induction l generalizing a with
  | zero => simp only [lookup, h a mem_nodes_self]
  | succ l ih =>
    simp only [lookup, h a mem_nodes_self]
    cases hc : child (m a (path (l + 1))) with
    | none => rfl
    | some c => exact ih fun x hx => h x (mem_nodes_child hc hx)

theorem slot_congr : slot child m' path l a = slot child m path l a := by
  induction l generalizing a with
  | zero => rfl
  | succ l ih =>
    simp only [slot, h a mem_nodes_self]
    cases hc : child (m a (path (l + 1))) with
    | none => rfl
    | some c => exact ih fun x hx => h x (mem_nodes_child hc hx)

end

theorem Wf.congr (hw : Wf child zero m l a) (h : ∀ x ∈ nodes child m l a, m' x = m x) : Wf child zero m' l a := by
  induction l generalizing a with
  | zero => trivial
  | succ l ih =>
    intro i
    have hi := hw i
    rw [h a mem_nodes_self]
    cases hc : child (m a i) with
    | none => simpa [hc] using hi
    | some c =>
      rw [hc] at hi
      exact ih hi fun x hx => h x (mem_nodes_child hc hx)

end Congr

/-! ## Trees without sharing -/

section Nodup

theorem nodes_child_le (hc : child (m a i) = some c) : nodes child m l c ≤ nodes child m (l + 1) a := by
  have h := single_le_sum (f := fun j => (child (m a j)).elim 0 (nodes child m l))
    (fun _ _ => Multiset.zero_le _) (mem_univ i)
  rw [hc] at h
  exact h.trans (Multiset.le_cons_self _ a)

theorem nodup_child (hn : (nodes child m (l + 1) a).Nodup) (hc : child (m a i) = some c) :
    (nodes child m l c).Nodup :=
  Multiset.nodup_of_le (nodes_child_le hc) hn

theorem root_notMem_child (hn : (nodes child m (l + 1) a).Nodup) (hc : child (m a i) = some c) :
    a ∉ nodes child m l c := by
  intro ha
  refine (Multiset.nodup_cons.mp hn).1 (Multiset.mem_sum.mpr ⟨i, mem_univ i, ?_⟩)
  rw [hc]
  exact ha

theorem disjoint_child (hn : (nodes child m (l + 1) a).Nodup) {j : Fin n} {d x : A} (hij : i ≠ j)
    (hc : child (m a i) = some c) (hd : child (m a j) = some d) (hx : x ∈ nodes child m l c) :
    x ∉ nodes child m l d := by
  classical
  intro hx'
  have h1 := Multiset.nodup_iff_count_le_one.mp (Multiset.nodup_cons.mp hn).2 x
  rw [Multiset.count_sum', ← add_sum_erase _ _ (mem_univ i)] at h1
  have h2 := single_le_sum (f := fun k => Multiset.count x ((child (m a k)).elim 0 (nodes child m l)))
    (fun _ _ => Nat.zero_le _) (mem_erase.mpr ⟨hij.symm, mem_univ j⟩)
  have h3 := Multiset.count_pos.mpr hx
  have h4 := Multiset.count_pos.mpr hx'
  simp only [hc, hd, Option.elim_some] at h1 h2
  omega

end Nodup

/-! ## A value is overwritten -/

section Store

variable [DecidableEq A] {w : W}

/-- The memory with word `i` of node `b` set to `w`. -/
def store (m : A → Fin n → W) (b : A) (i : Fin n) (w : W) : A → Fin n → W :=
  update m b (update (m b) i w)

theorem store_of_ne {x : A} (h : x ≠ b) : store m b i w x = m x := update_of_ne h _ _

theorem store_self : store m b i w b i = w := by simp [store]

theorem store_other {j : Fin n} (h : j ≠ i) : store m b i w b j = m b j := by simp [store, h]

/-- The three facts are one induction: below the root the memory changes in one subtree only. -/
theorem store_aux (zero : W) (hn : (nodes child m l a).Nodup) (hs : slot child m path l a = some (b, i)) :
    nodes child (store m b i w) l a = nodes child m l a ∧ (Wf child zero m l a → Wf child zero (store m b i w) l a) ∧
      ∀ p, lookup child zero (store m b i w) p l a =
        if ∀ j ≤ l, p j = path j then w else lookup child zero m p l a := by
  induction l generalizing a with
  | zero =>
    cases hs
    refine ⟨rfl, fun _ => trivial, fun p => ?_⟩
    by_cases hp : p 0 = path 0
    · simp [lookup, hp, store_self]
    · simp [lookup, hp, store_other hp]
  | succ l ih =>
    obtain ⟨c, hc, hs⟩ := Option.bind_eq_some_iff.mp hs
    have hba : a ≠ b := fun h => root_notMem_child hn hc (h ▸ slot_mem hs)
    obtain ⟨h1, h2, h3⟩ := ih (nodup_child hn hc) hs
    -- the subtrees that the path does not enter
    have hother : ∀ j d, j ≠ path (l + 1) → child (m a j) = some d →
        ∀ x ∈ nodes child m l d, store m b i w x = m x := by
      intro j d hj hd x hx
      refine store_of_ne fun h => ?_
      exact disjoint_child hn hj hd hc hx (h ▸ slot_mem hs)
    refine ⟨?_, fun hw j => ?_, fun p => ?_⟩
    · simp only [nodes, store_of_ne hba]
      congr 1
      refine sum_congr rfl fun j _ => ?_
      cases hd : child (m a j) with
      | none => rfl
      | some d =>
        by_cases hj : j = path (l + 1)
        · subst hj
          cases hc.symm.trans hd
          exact h1
        · exact nodes_congr (hother j d hj hd)
    · rw [store_of_ne hba]
      have hwj := hw j
      cases hd : child (m a j) with
      | none => simpa [hd] using hwj
      | some d =>
        rw [hd] at hwj
        by_cases hj : j = path (l + 1)
        · subst hj
          cases hc.symm.trans hd
          exact h2 hwj
        · exact Wf.congr hwj (hother j d hj hd)
    · simp only [lookup, store_of_ne hba]
      by_cases hp : p (l + 1) = path (l + 1)
      · rw [hp, hc]
        simp only [Option.elim_some, h3]
        refine if_congr ⟨fun h j hj => ?_, fun h j hj => h j (by omega)⟩ rfl rfl
        rcases Nat.lt_or_eq_of_le hj with hj | rfl
        · exact h j (by omega)
        · exact hp
      · rw [if_neg fun h => hp (h (l + 1) (Nat.le_refl _))]
        cases hd : child (m a (p (l + 1))) with
        | none => rfl
        | some d => exact lookup_congr (hother _ d hp hd)

end Store

/-! ## A subtree is replaced -/

section Splice

/-- Below `a`, the memories `m` and `m'` agree except in the subtree at index `i`. -/
structure Splice (child : W → Option A) (m m' : A → Fin n → W) (l : Nat) (a : A) (i : Fin n) : Prop where
  root : ∀ j, j ≠ i → m' a j = m a j
  below : ∀ j d, j ≠ i → child (m a j) = some d → ∀ x ∈ nodes child m l d, m' x = m x

theorem nodes_splice (h : Splice child m m' l a i) :
    nodes child m' (l + 1) a + (child (m a i)).elim 0 (nodes child m l) =
      nodes child m (l + 1) a + (child (m' a i)).elim 0 (nodes child m' l) := by
  have hsum : ∑ j ∈ univ.erase i, (child (m' a j)).elim 0 (nodes child m' l) =
      ∑ j ∈ univ.erase i, (child (m a j)).elim 0 (nodes child m l) := by
    refine sum_congr rfl fun j hj => ?_
    have hj := ne_of_mem_erase hj
    rw [h.root j hj]
    cases hd : child (m a j) with
    | none => rfl
    | some d => exact nodes_congr (h.below j d hj hd)
  simp only [nodes]
  rw [← add_sum_erase _ (fun j => (child (m' a j)).elim 0 (nodes child m' l)) (mem_univ i),
    ← add_sum_erase _ (fun j => (child (m a j)).elim 0 (nodes child m l)) (mem_univ i), hsum]
  simp only [← Multiset.singleton_add]
  abel

theorem lookup_splice (h : Splice child m m' l a i) (hp : path (l + 1) ≠ i) :
    lookup child zero m' path (l + 1) a = lookup child zero m path (l + 1) a := by
  simp only [lookup, h.root _ hp]
  cases hd : child (m a (path (l + 1))) with
  | none => rfl
  | some d => exact lookup_congr (h.below _ d hp hd)

theorem Wf.splice (h : Splice child m m' l a i) (hw : Wf child zero m (l + 1) a)
    (hi : (child (m' a i)).elim (m' a i = zero) (Wf child zero m' l)) : Wf child zero m' (l + 1) a := by
  intro j
  by_cases hj : j = i
  · subst hj
    exact hi
  · have hwj := hw j
    rw [h.root j hj]
    cases hd : child (m a j) with
    | none => simpa [hd] using hwj
    | some d =>
      rw [hd] at hwj
      exact hwj.congr (h.below j d hj hd)

end Splice

/-! ## The empty node -/

section Empty

section

variable (hz : child zero = none) (h : ∀ i, m a i = zero)
include hz h

theorem nodes_empty : nodes child m l a = {a} := by
  cases l with
  | zero => rfl
  | succ l => simp [nodes, h, hz]

theorem lookup_empty : lookup child zero m path l a = zero := by
  cases l with
  | zero => exact h _
  | succ l => simp [lookup, h, hz]

theorem Wf.empty : Wf child zero m l a := by
  cases l with
  | zero => trivial
  | succ l => intro i; simp [h, hz]

end

end Empty

theorem nodes_succ : nodes child m (l + 1) a = a ::ₘ ∑ i, (child (m a i)).elim 0 (nodes child m l) := rfl

theorem nodes_zero : nodes child m 0 a = {a} := rfl

theorem wf_succ : Wf child zero m (l + 1) a ↔ ∀ i, (child (m a i)).elim (m a i = zero) (Wf child zero m l) := Iff.rfl

theorem lookup_succ : lookup child zero m path (l + 1) a =
    (child (m a (path (l + 1)))).elim zero (lookup child zero m path l) := rfl

theorem lookup_zero : lookup child zero m path 0 a = m a (path 0) := rfl

theorem slot_succ : slot child m path (l + 1) a = (child (m a (path (l + 1)))).bind (slot child m path l) := rfl

theorem slot_zero : slot child m path 0 a = some (a, path 0) := rfl

-- trees of a given height are not to be unfolded by unification
attribute [irreducible] nodes Wf lookup slot

end Radix
