import Mathlib.Data.Finset.Sort
import Mathlib.Data.List.Chain
import Mathlib.Logic.Function.Iterate

/-!
# Xv6.Lib.Ring

Rings of nodes in increasing order with a single wrap: the link of a node leads to the next greater node,
that of the greatest one to the least (`Ordered`).

* `Ordered.insert`, `Ordered.remove`: putting a node in and taking one out, as updates of the links.
* `Ordered.reach`: every node is reached from every other one.
* `Ordered.chain`: following the links from the least node visits the nodes in order and comes back.
* `seek`: a loop along the links.
-/

namespace Ring

open Function Finset

variable {α : Type*} [LinearOrder α]

/-- `b` is the least element of `F` above `a`, or `lo` when there is none. -/
structure Follows (lo : α) (F : Finset α) (a b : α) : Prop where
  mem : b ∈ F
  le : ∀ x ∈ F, a < x → b ≤ x
  lt_or : a < b ∨ b = lo ∧ ∀ x ∈ F, x ≤ a

/-- The links `next` make a ring of the elements of `F`, of which `lo` is the least. -/
structure Ordered (next : α → α) (lo : α) (F : Finset α) : Prop where
  lo_mem : lo ∈ F
  lo_le : ∀ x ∈ F, lo ≤ x
  follows : ∀ a ∈ F, Follows lo F a (next a)

variable {next : α → α} {lo : α} {F : Finset α}

section

variable (h : Ordered next lo F)
include h

theorem Ordered.congr {next' : α → α} (he : ∀ a ∈ F, next' a = next a) : Ordered next' lo F :=
  ⟨h.lo_mem, h.lo_le, fun a ha => he a ha ▸ h.follows a ha⟩

theorem Ordered.insert {q b : α} (hq : q ∈ F) (hb : b ∉ F) (hqb : q < b)
    (hle : ∀ x ∈ F, x < b → x ≤ q) :
    Ordered (update (update next b (next q)) q b) lo (insert b F) := by
  have hlo : lo < b := lt_of_le_of_lt (h.lo_le q hq) hqb
  refine ⟨mem_insert_of_mem h.lo_mem, fun x hx => ?_, fun a ha => ?_⟩
  · obtain rfl | hx := mem_insert.mp hx
    · exact hlo.le
    · exact h.lo_le x hx
  by_cases haq : a = q
  · subst haq
    rw [update_self]
    refine ⟨mem_insert_self .., fun x hx hax => ?_, .inl hqb⟩
    obtain rfl | hx := mem_insert.mp hx
    · exact le_refl _
    · exact le_of_not_gt fun hxb => absurd (hle x hx hxb) (not_le.mpr hax)
  rw [update_of_ne haq]
  by_cases hab : a = b
  · subst hab
    rw [update_self]
    have hf := h.follows q hq
    refine ⟨mem_insert_of_mem hf.mem, fun x hx hax => ?_, ?_⟩
    · obtain rfl | hx := mem_insert.mp hx
      · exact absurd hax (lt_irrefl _)
      · exact hf.le x hx (hqb.trans hax)
    · rcases hf.lt_or with hlt | ⟨he, hall⟩
      · refine .inl (lt_of_le_of_ne (le_of_not_gt fun hn => ?_) fun he => hb (he ▸ hf.mem))
        exact absurd (hle _ hf.mem hn) (not_le.mpr hlt)
      · refine .inr ⟨he, fun x hx => ?_⟩
        obtain rfl | hx := mem_insert.mp hx
        · exact le_refl _
        · exact (hall x hx).trans hqb.le
  · rw [update_of_ne hab]
    have haF : a ∈ F := mem_of_mem_insert_of_ne ha hab
    have hf := h.follows a haF
    -- no link but that of `q` leads over `b`
    have hover : a < b → next a ≤ b := fun hlt =>
      (hf.le q hq (lt_of_le_of_ne (hle a haF hlt) haq)).trans hqb.le
    refine ⟨mem_insert_of_mem hf.mem, fun x hx hax => ?_, ?_⟩
    · obtain rfl | hx := mem_insert.mp hx
      · exact hover hax
      · exact hf.le x hx hax
    · rcases hf.lt_or with hlt | ⟨he, hall⟩
      · exact .inl hlt
      · refine .inr ⟨he, fun x hx => ?_⟩
        obtain rfl | hx := mem_insert.mp hx
        · refine le_of_not_gt fun hax => ?_
          exact absurd (hall q hq) (not_le.mpr (lt_of_le_of_ne (hle a haF hax) haq))
        · exact hall x hx

theorem Ordered.remove {q : α} (hq : q ∈ F) (hne : next q ≠ lo) :
    Ordered (update next q (next (next q))) lo (F.erase (next q)) := by
  have hf := h.follows q hq
  have hlt : q < next q := hf.lt_or.resolve_right fun hw => hne hw.1
  have hg := h.follows (next q) hf.mem
  refine ⟨mem_erase.mpr ⟨hne.symm, h.lo_mem⟩, fun x hx => h.lo_le x (mem_of_mem_erase hx),
    fun a ha => ?_⟩
  obtain ⟨hac, haF⟩ := mem_erase.mp ha
  by_cases haq : a = q
  · subst haq
    rw [update_self]
    have hne' : next (next a) ≠ next a := by
      intro he
      rcases hg.lt_or with h1 | ⟨h1, -⟩
      · exact absurd (he ▸ h1) (lt_irrefl _)
      · exact hne (he.symm.trans h1)
    refine ⟨mem_erase.mpr ⟨hne', hg.mem⟩, fun x hx hax => ?_, ?_⟩
    · obtain ⟨hxc, hxF⟩ := mem_erase.mp hx
      exact hg.le x hxF (lt_of_le_of_ne (hf.le x hxF hax) hxc.symm)
    · rcases hg.lt_or with h1 | ⟨h1, hall⟩
      · exact .inl (hlt.trans h1)
      · refine .inr ⟨h1, fun x hx => ?_⟩
        obtain ⟨hxc, hxF⟩ := mem_erase.mp hx
        refine le_of_not_gt fun hax => hxc (le_antisymm (hall x hxF) (hf.le x hxF hax))
  · rw [update_of_ne haq]
    have hfa := h.follows a haF
    -- only `q` leads to the node that leaves
    have hne' : next a ≠ next q := by
      intro he
      rcases hfa.lt_or with h1 | ⟨h1, -⟩
      · rcases lt_or_gt_of_ne haq with hlt' | hgt
        · exact absurd (hfa.le q hq hlt') (not_le.mpr (he ▸ hlt))
        · exact absurd (hf.le a haF hgt) (not_le.mpr (he ▸ h1))
      · exact hne (he.symm.trans h1)
    refine ⟨mem_erase.mpr ⟨hne', hfa.mem⟩, fun x hx => hfa.le x (mem_of_mem_erase hx), ?_⟩
    exact hfa.lt_or.imp id fun hw => ⟨hw.1, fun x hx => hw.2 x (mem_of_mem_erase hx)⟩

theorem Ordered.reach_up {z : α} (hz : z ∈ F) :
    ∀ (n : Nat) {p : α}, p ∈ F → p ≤ z → (F.filter (p < ·)).card ≤ n → ∃ k, next^[k] p = z := by
  intro n
  induction n with
  | zero =>
    intro p hp hpz hc
    refine ⟨0, (eq_of_le_of_not_lt hpz fun hlt => ?_)⟩
    rw [Nat.le_zero, card_eq_zero] at hc
    have : z ∈ F.filter (p < ·) := mem_filter.mpr ⟨hz, hlt⟩
    rw [hc] at this
    exact absurd this (notMem_empty z)
  | succ n ih =>
    intro p hp hpz hc
    rcases eq_or_lt_of_le hpz with rfl | hlt
    · exact ⟨0, rfl⟩
    have hf := h.follows p hp
    have hpn : p < next p := hf.lt_or.resolve_right fun hw => absurd (hw.2 z hz) (not_le.mpr hlt)
    have hsub : F.filter (next p < ·) ⊂ F.filter (p < ·) := by
      refine Finset.ssubset_iff_subset_ne.mpr ⟨fun x hx => ?_, fun he => ?_⟩
      · rw [mem_filter] at hx ⊢
        exact ⟨hx.1, hpn.trans hx.2⟩
      · have : next p ∈ F.filter (next p < ·) := he ▸ mem_filter.mpr ⟨hf.mem, hpn⟩
        exact absurd (mem_filter.mp this).2 (lt_irrefl _)
    obtain ⟨k, hk⟩ := ih hf.mem (hf.le z hz hlt) (by have := card_lt_card hsub; omega)
    exact ⟨k + 1, by rw [iterate_succ_apply, hk]⟩

/-- Every node is reached from every other one. -/
theorem Ordered.reach {p z : α} (hp : p ∈ F) (hz : z ∈ F) : ∃ k, next^[k] p = z := by
  -- first up to the greatest node, then to `lo`, then up again
  obtain ⟨m, hm, hmax⟩ := F.exists_max_image id ⟨p, hp⟩
  obtain ⟨k1, h1⟩ := h.reach_up hm _ hp (hmax p hp) (le_refl _)
  obtain ⟨k2, h2⟩ := h.reach_up hz _ h.lo_mem (h.lo_le z hz) (le_refl _)
  have hwrap : next m = lo :=
    ((h.follows m hm).lt_or.resolve_left fun hlt => absurd (hmax _ (h.follows m hm).mem) (not_le.mpr hlt)).1
  refine ⟨k2 + (1 + k1), ?_⟩
  rw [iterate_add_apply, iterate_add_apply, h1, iterate_one, hwrap, h2]

theorem Ordered.chain_from : ∀ (l : List α) {a : α}, a ∈ F → (a :: l).Pairwise (· < ·) →
    (∀ x, x ∈ l ↔ x ∈ F ∧ a < x) → (a :: l ++ [lo]).IsChain fun a b => next a = b := by
  intro l
  induction l with
  | nil =>
    intro a ha _ hl
    have hf := h.follows a ha
    refine List.isChain_pair.mpr (hf.lt_or.resolve_left fun hlt => ?_).1
    exact absurd ((hl _).mpr ⟨hf.mem, hlt⟩) (by simp)
  | cons b l ih =>
    intro a ha hs hl
    have hf := h.follows a ha
    obtain ⟨hbF, hab⟩ := (hl b).mp (by simp)
    have hlt : a < next a := hf.lt_or.resolve_right fun hw => absurd (hw.2 b hbF) (not_le.mpr hab)
    have hbl := (List.pairwise_cons.mp (List.pairwise_cons.mp hs).2).1
    have hnext : next a = b := by
      refine le_antisymm (hf.le b hbF hab) ?_
      obtain he | hm := List.mem_cons.mp ((hl _).mpr ⟨hf.mem, hlt⟩)
      · exact he.ge
      · exact (hbl _ hm).le
    refine List.isChain_cons_cons.mpr ⟨hnext, ih hbF (List.pairwise_cons.mp hs).2 fun x => ⟨fun hx => ?_, fun hx => ?_⟩⟩
    · exact ⟨((hl x).mp (List.mem_cons_of_mem _ hx)).1, hbl x hx⟩
    · exact (List.mem_cons.mp ((hl x).mpr ⟨hx.1, hab.trans hx.2⟩)).resolve_left hx.2.ne'

/-- Following the links from the least node visits the nodes in increasing order and comes back. -/
theorem Ordered.chain : ∃ l : List α, (lo :: l).Pairwise (· < ·) ∧
    (∀ x, x ∈ lo :: l ↔ x ∈ F) ∧ (lo :: l ++ [lo]).IsChain fun a b => next a = b := by
  have hmem : ∀ x, x ∈ (F.erase lo).sort (· ≤ ·) ↔ x ∈ F ∧ lo < x := by
    intro x
    rw [mem_sort, mem_erase]
    exact ⟨fun hx => ⟨hx.2, lt_of_le_of_ne (h.lo_le x hx.2) hx.1.symm⟩, fun hx => ⟨hx.2.ne', hx.1⟩⟩
  have hsorted : (lo :: (F.erase lo).sort (· ≤ ·)).Pairwise (· < ·) :=
    List.pairwise_cons.mpr ⟨fun x hx => ((hmem x).mp hx).2, (sortedLT_sort _).pairwise⟩
  refine ⟨(F.erase lo).sort (· ≤ ·), hsorted, fun x => ?_, h.chain_from _ h.lo_mem hsorted hmem⟩
  rw [List.mem_cons, hmem]
  constructor
  · rintro (rfl | hx)
    · exact h.lo_mem
    · exact hx.1
  · intro hx
    exact (eq_or_lt_of_le (h.lo_le x hx)).imp Eq.symm fun hlt => ⟨hx, hlt⟩

end

/-- The loop `for (p = start; !stop(p); p = next(p));` with `n` turns at most. -/
def seek {β : Type*} (next : β → β) (stop : β → Bool) : Nat → β → Option β
  | 0, _ => none
  | n + 1, p => if stop p then some p else seek next stop n (next p)

theorem seek_mono {β : Type*} {next : β → β} {stop : β → Bool} {r : β} :
    ∀ {n m : Nat} {p : β}, seek next stop n p = some r → n ≤ m → seek next stop m p = some r := by
  intro n
  induction n with
  | zero => intro m p h; cases h
  | succ n ih =>
    intro m p h hle
    obtain ⟨m, rfl⟩ := Nat.exists_eq_succ_of_ne_zero (Nat.ne_of_gt (Nat.lt_of_lt_of_le n.succ_pos hle))
    rw [seek] at h ⊢
    split at h
    · rwa [if_pos ‹_›]
    · rw [if_neg ‹_›]
      exact ih h (by omega)

theorem Ordered.seek_eq (h : Ordered next lo F) {stop : α → Bool} {p q : α} (hp : p ∈ F) (hq : q ∈ F)
    (hs : ∀ a ∈ F, stop a = true ↔ a = q) : ∃ n, seek next stop n p = some q := by
  obtain ⟨k, hk⟩ := h.reach hp hq
  refine ⟨k + 1, ?_⟩
  induction k generalizing p with
  | zero => rw [seek, if_pos ((hs p hp).mpr hk), show p = q from hk]
  | succ k ih =>
    rw [seek]
    split
    · rename_i hst
      rw [(hs p hp).mp hst]
    · exact ih (h.follows p hp).mem (by rwa [iterate_succ_apply] at hk)

end Ring
