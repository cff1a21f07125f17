import Mathlib.Data.List.Chain
import Mathlib.Data.List.Nodup
import Mathlib.Logic.Function.Basic

/-!
# Xv6.Lib.Links

Circular doubly linked lists through a sentinel. `Circular next prev h l` says that following `next` from
the sentinel `h` visits the nodes of `l` in order and comes back to `h`, that `prev` goes the same way
backwards, and that no node occurs twice.

* `scan_eq`: a loop along the links, started behind the sentinel, finds what `find?` finds in `l`.
* `Circular.unlink`, `Circular.insert`: taking a node out and putting one in behind the sentinel, as updates
  of the links.
* `Circular.symm`: the ring backwards.
-/

namespace Links

open Function List

variable {α : Type*} {next prev : α → α} {h : α}

/-- Neighbours in `s` are linked both ways. -/
def Linked (next prev : α → α) (s : List α) : Prop := s.IsChain fun a b => next a = b ∧ prev b = a

structure Circular (next prev : α → α) (h : α) (l : List α) : Prop where
  linked : Linked next prev (h :: l ++ [h])
  nodup : (h :: l).Nodup

/-- The loop `for (b = start; b != h; b = b->next) if (p(b)) break;` with `n` turns at most: the node
it stops at, or `h`. -/
def scan [DecidableEq α] (next : α → α) (h : α) (p : α → Bool) : Nat → α → Option α
  | 0, _ => none
  | n + 1, b => if b = h then some h else if p b then some b else scan next h p n (next b)

theorem Linked.tail {a : α} (hl : Linked next prev (a :: s)) : Linked next prev s :=
  List.IsChain.tail hl

theorem scan_linked [DecidableEq α] {p : α → Bool} (hn : h ∉ s) :
    ∀ {n : Nat} {a : α}, Linked next prev (a :: s ++ [h]) → s.length < n →
      scan next h p n (next a) = some ((s.find? p).getD h) := by
  induction s with
  | nil =>
    intro n a hl hlt
    obtain ⟨n, rfl⟩ := Nat.exists_eq_succ_of_ne_zero (Nat.ne_of_gt hlt)
    have ha : next a = h := (isChain_pair.mp hl).1
    simp [scan, ha]
  | cons b s ih =>
    intro n a hl hlt
    obtain ⟨n, rfl⟩ := Nat.exists_eq_succ_of_ne_zero (Nat.ne_of_gt (Nat.zero_lt_of_lt hlt))
    have hab : next a = b := (isChain_cons_cons.mp hl).1.1
    have hb : b ≠ h := fun e => hn (e ▸ mem_cons_self)
    rw [scan, hab, if_neg hb, find?_cons]
    split
    · simp [*]
    · rename_i hp
      simp only [hp]
      exact ih (fun hm => hn (mem_cons_of_mem _ hm)) hl.tail (by simpa using hlt)

/-- With more turns than nodes the loop ends, at the first node of the ring with `p`, or at `h`. -/
theorem scan_eq [DecidableEq α] {p : α → Bool} {n : Nat} (hr : Circular next prev h l)
    (hlt : l.length < n) : scan next h p n (next h) = some ((l.find? p).getD h) :=
  scan_linked (nodup_cons.mp hr.nodup).1 hr.linked hlt

theorem Linked.reverse (hl : Linked next prev s) : Linked prev next s.reverse := by
  unfold Linked
  rw [isChain_reverse]
  exact List.IsChain.imp (fun a b hab => ⟨hab.2, hab.1⟩) hl

theorem Circular.symm (hr : Circular next prev h l) : Circular prev next h l.reverse where
  linked := by simpa using hr.linked.reverse
  nodup := by simpa [nodup_reverse] using hr.nodup

/-- The links that a segment uses: `next` of all nodes but the last, `prev` of all but the first. -/
theorem Linked.congr {next' prev' : α → α} (hl : Linked next prev s)
    (hn : ∀ a ∈ s.dropLast, next' a = next a) (hp : ∀ b ∈ s.tail, prev' b = prev b) : Linked next' prev' s := by
  induction s with
  | nil => exact List.IsChain.nil
  | cons a s ih =>
    cases s with
    | nil => exact List.IsChain.singleton a
    | cons b s =>
      obtain ⟨hab, hs⟩ := isChain_cons_cons.mp hl
      refine isChain_cons_cons.mpr ⟨⟨?_, ?_⟩, ih hs ?_ ?_⟩
      · rw [hn a (by simp), hab.1]
      · rw [hp b (by simp), hab.2]
      · intro x hx
        exact hn x (by simp [dropLast_cons_of_ne_nil, hx])
      · intro x hx
        exact hp x (mem_of_mem_tail hx)

/-! ## Updates -/

variable [DecidableEq α] {s l : List α}

/-- `b->next->prev = b->prev; b->prev->next = b->next;` -/
def unlink (next prev : α → α) (b : α) : (α → α) × (α → α) :=
  let prev := update prev (next b) (prev b)
  (update next (prev b) (next b), prev)

/-- `b->next = h->next; b->prev = h; h->next->prev = b; h->next = b;` -/
def insert (next prev : α → α) (h b : α) : (α → α) × (α → α) :=
  let next := update next b (next h)
  let prev := update (update prev b h) (next h) b
  (update next h b, prev)

theorem Circular.unlink {l1 l2 : List α} {b : α} (hr : Circular next prev h (l1 ++ b :: l2)) :
    Circular (unlink next prev b).1 (unlink next prev b).2 h (l1 ++ l2) := by
  -- `a` and `c` are the neighbours of `b`; each of them may be the sentinel
  obtain ⟨s1, a, ha⟩ : ∃ s1 a, h :: l1 = s1 ++ [a] := ⟨_, _, (dropLast_append_getLast (by simp)).symm⟩
  obtain ⟨c, s2, hc⟩ : ∃ c s2, l2 ++ [h] = c :: s2 := by cases l2 <;> simp
  obtain ⟨hd1, hd2, hdj⟩ := nodup_append.mp (show (h :: l1 ++ b :: l2).Nodup from hr.nodup)
  have hl : Linked next prev (s1 ++ a :: b :: c :: s2) := by
    have heq : s1 ++ a :: b :: c :: s2 = h :: (l1 ++ b :: l2) ++ [h] := by
      rw [← hc, show s1 ++ a :: b :: (l2 ++ [h]) = (s1 ++ [a]) ++ b :: (l2 ++ [h]) by simp, ← ha]
      simp
    exact heq ▸ hr.linked
  obtain ⟨h1, hab, hbc⟩ := isChain_append_cons_cons.mp hl
  obtain ⟨hbc, h2⟩ := isChain_cons_cons.mp hbc
  have hac : a ∈ h :: l1 := by simp [ha]
  have hcm : c ∈ l2 ∨ c = h := by simpa [hc] using (mem_append (s := l2) (t := [h]) (a := c)).symm
  have hcb : c ≠ b := by
    rcases hcm with hm | rfl
    · exact fun e => (nodup_cons.mp hd2).1 (e ▸ hm)
    · exact hdj c mem_cons_self b mem_cons_self
  have hnext : (Links.unlink next prev b).1 = update next a c := by
    simp [Links.unlink, hbc.1, hab.2, hcb.symm]
  have hprev : (Links.unlink next prev b).2 = update prev c a := by
    simp [Links.unlink, hbc.1, hab.2]
  rw [hnext, hprev]
  refine ⟨?_, hr.nodup.sublist (by simp)⟩
  have heq : h :: (l1 ++ l2) ++ [h] = s1 ++ a :: c :: s2 := by
    rw [show s1 ++ a :: c :: s2 = (s1 ++ [a]) ++ c :: s2 by simp, ← ha, ← hc]
    simp
  rw [heq]
  refine isChain_append_cons_cons.mpr ⟨Linked.congr h1 ?_ ?_, ⟨by simp, by simp⟩, Linked.congr h2 ?_ ?_⟩
  · intro x hx
    rw [dropLast_concat] at hx
    rw [ha] at hd1
    exact update_of_ne (fun e => disjoint_of_nodup_append hd1 hx (by simp [e])) _ _
  · intro x hx
    have hx1 : x ∈ l1 := by simpa [← ha] using hx
    refine update_of_ne (fun e => ?_) _ _
    rcases hcm with hm | hm
    · exact hdj x (mem_cons_of_mem _ hx1) c (mem_cons_of_mem _ hm) e
    · exact (nodup_cons.mp hd1).1 (hm ▸ e ▸ hx1)
  · intro x hx
    have hx2 : x ∈ l2 := by simpa [← hc] using hx
    exact update_of_ne (fun e => hdj a hac x (mem_cons_of_mem _ hx2) e.symm) _ _
  · have hnd : (c :: s2).Nodup := by
      rw [← hc]
      refine nodup_append.mpr ⟨(nodup_cons.mp hd2).2, by simp, fun x hx y hy e => ?_⟩
      rw [mem_singleton.mp hy] at e
      exact hdj h mem_cons_self x (mem_cons_of_mem _ hx) e.symm
    intro x hx
    exact update_of_ne (fun e => (nodup_cons.mp hnd).1 ((e : x = c) ▸ hx)) _ _

theorem Circular.insert {b : α} (hr : Circular next prev h l) (hb : b ∉ h :: l) :
    Circular (insert next prev h b).1 (insert next prev h b).2 h (b :: l) := by
  obtain ⟨c, s, hc⟩ : ∃ c s, l ++ [h] = c :: s := by cases l <;> simp
  have hd := hr.nodup
  have hl : Linked next prev (h :: c :: s) := hc ▸ hr.linked
  obtain ⟨hhc, hl⟩ := isChain_cons_cons.mp hl
  have hcm : c ∈ l ++ [h] := by simp [hc]
  have hbh : b ≠ h := by grind
  have hbc : c ≠ b := by grind
  have hnext : (Links.insert next prev h b).1 = update (update next b c) h b := by
    simp [Links.insert, hhc.1]
  have hprev : (Links.insert next prev h b).2 = update (update prev b h) c b := by
    simp [Links.insert, hhc.1, hbh.symm]
  rw [hnext, hprev]
  refine ⟨?_, by grind⟩
  rw [show h :: b :: l ++ [h] = h :: b :: c :: s by simp [← hc]]
  refine isChain_cons_cons.mpr ⟨by simp [hbc.symm], isChain_cons_cons.mpr ⟨by simp [hbh], ?_⟩⟩
  refine Linked.congr hl ?_ ?_
  · intro x hx
    have hx : x ∈ l := by simpa [← hc] using hx
    rw [update_of_ne (by grind), update_of_ne (by grind)]
  · have hnd : (c :: s).Nodup := by
      rw [← hc]
      grind
    intro x hx
    have hxl : x ∈ l ++ [h] := by simp [hc, show x ∈ s from hx]
    rw [update_of_ne (by grind), update_of_ne (by grind)]

end Links
