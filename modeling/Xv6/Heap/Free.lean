import Xv6.Lib.Tiling
import Xv6.Heap.Model

/-!
# Xv6.Heap.Free

What `free` does. `Core` is the invariant of the allocator: the free blocks and `base` make a ring in
increasing order, the free blocks and the blocks `B` that are not free tile what `sbrk` has returned, and no
free block ends where another one begins.

* `Core.free`: `free` returns, and the block is in the ring, alone or as a part of its neighbours.
-/

namespace Xv6
namespace Heap

open Ring Tiling Function Finset

namespace State

variable (s : State) (a v : Nat)

@[simp] theorem ptr_setPtr : (s.setPtr a v).ptr = update s.ptr a v :=
  funext fun x => by by_cases h : x = a <;> simp [ptr, setPtr, h]

@[simp] theorem size_setPtr : (s.setPtr a v).size = s.size :=
  funext fun x => by by_cases h : x = a <;> simp [size, setPtr, h]

@[simp] theorem ptr_setSize : (s.setSize a v).ptr = s.ptr :=
  funext fun x => by by_cases h : x = a <;> simp [ptr, setSize, h]

@[simp] theorem size_setSize : (s.setSize a v).size = update s.size a v :=
  funext fun x => by by_cases h : x = a <;> simp [size, setSize, h]

end State

def bytes (l : List (Nat × Nat)) : Finset Nat := l.foldr (fun r R => Finset.Ico r.1 (r.1 + 16 * r.2) ∪ R) ∅

theorem mem_bytes {l : List (Nat × Nat)} {x : Nat} : x ∈ bytes l ↔ ∃ r ∈ l, r.1 ≤ x ∧ x < r.1 + 16 * r.2 := by
  induction l with
  | nil => simp [bytes]
  | cons r l ih =>
    rw [show bytes (r :: l) = Finset.Ico r.1 (r.1 + 16 * r.2) ∪ bytes l from rfl, mem_union, mem_Ico,
      ih]
    simp

theorem bytes_append (l : List (Nat × Nat)) (a n : Nat) :
    bytes (l ++ [(a, n)]) = bytes l ∪ Finset.Ico a (a + 16 * n) := by
  ext x
  simp only [mem_bytes, mem_union, mem_Ico, List.mem_append, List.mem_singleton, or_and_right, exists_or,
    exists_eq_left]

theorem card_bytes_le (l : List (Nat × Nat)) : (bytes l).card ≤ 16 * (l.map Prod.snd).sum := by
  induction l with
  | nil => simp [bytes]
  | cons r l ih =>
    have hle := card_union_le (Finset.Ico r.1 (r.1 + 16 * r.2)) (bytes l)
    rw [Nat.card_Ico] at hle
    rw [List.map_cons, List.sum_cons]
    exact hle.trans (by omega)

/-- The invariant, with the free blocks and `base` in `F` and the others in `B`. -/
structure Core (base : Nat) (s : State) (F B : Finset Nat) : Prop where
  ring : Ordered s.ptr base F
  base_size : s.size base = 0
  freep : s.freep ∈ F
  tiles : Tiles (F.erase base ∪ B) (fun a => 16 * s.size a) (bytes s.regions)
  apart : ∀ a ∈ F, a ∉ B
  above : ∀ a ∈ F.erase base ∪ B, base + 16 ≤ a
  coalesced : ∀ a ∈ F.erase base, ∀ b ∈ F, a + 16 * s.size a ≠ b

variable {base : Nat} {s : State} {F B : Finset Nat} {bp q : Nat}

structure Below (F : Finset Nat) (bp q : Nat) : Prop where
  mem : q ∈ F
  lt : q < bp
  le : ∀ x ∈ F, x < bp → x ≤ q

theorem Core.exists_below (h : Core base s F B) (hb : bp ∈ B) : ∃ q, Below F bp q := by
  have hlt : base < bp := by
    have := h.above bp (mem_union_right _ hb)
    omega
  obtain ⟨q, hq, hmax⟩ := (F.filter (· < bp)).exists_max_image id ⟨base, mem_filter.mpr ⟨h.ring.lo_mem, hlt⟩⟩
  obtain ⟨hqF, hqb⟩ := mem_filter.mp hq
  exact ⟨q, hqF, hqb, fun x hx hxb => hmax x (mem_filter.mpr ⟨hx, hxb⟩)⟩

theorem Core.stops_iff (h : Core base s F B) (hb : bp ∈ B) (hq : Below F bp q) :
    ∀ a ∈ F, stops s bp a = true ↔ a = q := by
  intro a ha
  have hlo : base < bp := by
    have := h.above bp (mem_union_right _ hb)
    omega
  have hnb : ∀ x ∈ F, x ≠ bp := fun x hx he => h.apart x hx (he ▸ hb)
  have hf := h.ring.follows a ha
  simp only [stops, decide_eq_true_eq]
  constructor
  · intro hst
    by_contra hne
    rcases Nat.lt_or_ge a bp with hlt | hge
    · -- below `q` the link leads to a block below `bp`
      have haq : a < q := lt_of_le_of_ne (hq.le a ha hlt) hne
      have h1 := hf.le q hq.mem haq
      have h2 := hq.lt
      rcases hf.lt_or with h3 | h3
      · omega
      · have := h3.2 q hq.mem
        omega
    · have := hnb a ha
      rcases hf.lt_or with h3 | h3
      · omega
      · omega
  · rintro rfl
    have h1 := hq.lt
    have h2 := hnb _ hf.mem
    rcases hf.lt_or with h3 | h3
    · refine .inl ⟨h1, Nat.lt_of_not_le fun hle => ?_⟩
      have := hq.le _ hf.mem (by omega)
      omega
    · have := h3.2 base h.ring.lo_mem
      exact .inr ⟨by omega, .inl h1⟩

/-- Behind the first half of `free`: `bp` is joined with what is above it, and `q` is still to be linked. -/
structure Mid (base : Nat) (s : State) (F B : Finset Nat) (bp q : Nat) : Prop where
  ring : Ordered (update s.ptr q (s.ptr bp)) base F
  base_size : s.size base = 0
  tiles : Tiles (F.erase base ∪ B) (fun a => 16 * s.size a) (bytes s.regions)
  apart : ∀ a ∈ F, a ∉ B
  above : ∀ a ∈ F.erase base ∪ B, base + 16 ≤ a
  coalesced : ∀ a ∈ F.erase base, ∀ b ∈ F, a + 16 * s.size a ≠ b
  mem : bp ∈ B
  below : Below F bp q
  upper : ∀ b ∈ F, bp + 16 * s.size bp ≠ b

theorem add_mod_of_tiles {D R : Finset Nat} {a b : Nat} {size : Nat → Nat}
    (ht : Tiles D (fun a => 16 * size a) R) (ha : a ∈ D) (hb : b ∈ D) (hab : a + 16 * size a = b)
    (hsmall : R.card < 16 * 2 ^ 32) : (size a + size b) % 2 ^ 32 = size a + size b := by
  have hne : a ≠ b := by
    have := ht.pos a ha
    omega
  have hle := (ht.merge ha hb hab).le_card (mem_erase.mpr ⟨hne, ha⟩)
  rw [update_self] at hle
  exact Nat.mod_eq_of_lt (by omega)

theorem merge_size {D R : Finset Nat} {a b : Nat} {size : Nat → Nat} (ht : Tiles D (fun a => 16 * size a) R)
    (ha : a ∈ D) (hb : b ∈ D) (hab : a + 16 * size a = b) :
    Tiles (D.erase b) (fun x => 16 * update size a (size a + size b) x) R := by
  refine (ht.merge ha hb hab).congr fun x _ => ?_
  by_cases hx : x = a
  · subst hx
    simp only [update_self]
    omega
  · simp only [update_of_ne hx]

theorem Core.joinUpper (h : Core base s F B) (hb : bp ∈ B) (hq : Below F bp q)
    (hsmall : (bytes s.regions).card < 16 * 2 ^ 32) :
    ∃ F', Mid base (joinUpper s bp q) F' B bp q ∧ (joinUpper s bp q).regions = s.regions ∧
      (joinUpper s bp q).used = s.used ∧ (∀ a ∈ B.erase bp, (joinUpper s bp q).size a = s.size a) ∧
      s.size bp ≤ (joinUpper s bp q).size bp := by
  have hbD : bp ∈ F.erase base ∪ B := mem_union_right _ hb
  have hbF : ∀ x ∈ F, x ≠ bp := fun x hx he => h.apart x hx (he ▸ hb)
  have hlo : base < bp := by
    have := h.above bp hbD
    omega
  have hqb : q ≠ bp := hq.lt.ne
  unfold Heap.joinUpper
  split
  · -- the next free block begins where `bp` ends
    rename_i hu
    have hf := h.ring.follows q hq.mem
    set nx := s.ptr q with hnx
    have hnb : nx ≠ base := by omega
    have hnD : nx ∈ F.erase base ∪ B := mem_union_left _ (mem_erase.mpr ⟨hnb, hf.mem⟩)
    have hnB : nx ∉ B := h.apart nx hf.mem
    have hsum := add_mod_of_tiles h.tiles hbD hnD hu hsmall
    have hnn : bp ≠ nx := (hbF nx hf.mem).symm
    have hD : (F.erase base ∪ B).erase nx = (F.erase nx).erase base ∪ B := by
      ext x
      simp only [mem_erase, mem_union]
      constructor
      · rintro ⟨h1, h2 | h2⟩
        · exact .inl ⟨h2.1, h1, h2.2⟩
        · exact .inr h2
      · rintro (h2 | h2)
        · exact ⟨h2.2.1, .inl ⟨h2.1, h2.2.2⟩⟩
        · exact ⟨fun he => hnB (he ▸ h2), .inr h2⟩
    have htiles := merge_size h.tiles hbD hnD hu
    rw [hD] at htiles
    rw [hsum]
    have hsize : ((s.setSize bp (s.size bp + s.size nx)).setPtr bp (s.ptr nx)).size =
        update s.size bp (s.size bp + s.size nx) := by simp
    have hptr : ((s.setSize bp (s.size bp + s.size nx)).setPtr bp (s.ptr nx)).ptr =
        update s.ptr bp (s.ptr nx) := by simp
    have hring : Ordered (update s.ptr q (s.ptr nx)) base (F.erase nx) := h.ring.remove hq.mem hnb
    have hsizeF : ∀ x ∈ F, update s.size bp (s.size bp + s.size nx) x = s.size x := fun x hx =>
      update_of_ne (hbF x hx) ..
    refine ⟨F.erase nx, ⟨?_, ?_, ?_, fun a ha => h.apart a (mem_of_mem_erase ha), fun a ha => ?_,
      fun a ha b hb' => ?_, hb, ?_, fun b hb' => ?_⟩, rfl, rfl, fun a ha => ?_, ?_⟩
    · rw [hptr, update_self]
      refine hring.congr fun a ha => ?_
      have := hbF a (mem_of_mem_erase ha)
      simp only [update_apply]
      grind
    · rw [hsize, update_of_ne hlo.ne]
      exact h.base_size
    · rw [hsize]
      exact htiles
    · refine h.above a ?_
      rw [← hD] at ha
      exact mem_of_mem_erase ha
    · rw [hsize, hsizeF a (mem_of_mem_erase (mem_of_mem_erase ha))]
      have ha' := mem_erase.mp ha
      exact h.coalesced a (mem_erase.mpr ⟨ha'.1, mem_of_mem_erase ha'.2⟩) b (mem_of_mem_erase hb')
    · refine ⟨mem_erase.mpr ⟨?_, hq.mem⟩, hq.lt, fun x hx => hq.le x (mem_of_mem_erase hx)⟩
      have := hq.lt
      omega
    · -- the block above ended before the next one
      rw [hsize, update_self]
      have := h.coalesced nx (mem_erase.mpr ⟨hnb, hf.mem⟩) b (mem_of_mem_erase hb')
      omega
    · rw [hsize]
      exact update_of_ne (ne_of_mem_erase ha) ..
    · rw [hsize, update_self]
      omega
  · rename_i hu
    have hsize : (s.setPtr bp (s.ptr q)).size = s.size := by simp
    have hptr : (s.setPtr bp (s.ptr q)).ptr = update s.ptr bp (s.ptr q) := by simp
    have hf := h.ring.follows q hq.mem
    refine ⟨F, ⟨?_, ?_, ?_, h.apart, h.above, fun a ha b hb' => ?_, hb, hq, fun b hb' => ?_⟩, rfl, rfl,
      fun a _ => ?_, ?_⟩
    · rw [hptr, update_self]
      refine h.ring.congr fun a ha => ?_
      have := hbF a ha
      simp only [update_apply]
      grind
    · rw [hsize]
      exact h.base_size
    · rw [hsize]
      exact h.tiles
    · rw [hsize]
      exact h.coalesced a ha b hb'
    · -- between `bp` and the next free block there is no other one
      rw [hsize]
      intro he
      have hpos := h.tiles.pos bp hbD
      have hlt := hq.lt
      have hle := hf.le b hb' (by omega)
      have hbase := h.ring.lo_le b hb'
      rcases hf.lt_or with h3 | h3
      · have hnb : s.ptr q ≠ base := by
          have := h.ring.lo_le q hq.mem
          omega
        have hgt : bp < s.ptr q := by
          have h1 := hbF _ hf.mem
          have h2 := fun hx => hq.le _ hf.mem hx
          omega
        have := h.tiles.disj bp hbD _ (mem_union_left _ (mem_erase.mpr ⟨hnb, hf.mem⟩)) hgt
        omega
      · have := h3.2 b hb'
        omega
    · rw [hsize]
    · rw [hsize]

theorem Mid.joinLower (h : Mid base s F B bp q) (hsmall : (bytes s.regions).card < 16 * 2 ^ 32) :
    ∃ F', Core base { joinLower s bp q with freep := q } F' (B.erase bp) ∧ (joinLower s bp q).regions = s.regions ∧
      (joinLower s bp q).used = s.used ∧ (∀ a ∈ B.erase bp, (joinLower s bp q).size a = s.size a) ∧
      (s.size bp ≤ (joinLower s bp q).size q ∨
        (joinLower s bp q).ptr q = bp ∧ s.size bp ≤ (joinLower s bp q).size bp) := by
  have hbD : bp ∈ F.erase base ∪ B := mem_union_right _ h.mem
  have hbF : bp ∉ F := fun hF => h.apart bp hF h.mem
  have hlo : base < bp := by
    have := h.above bp hbD
    omega
  have hqB : q ∉ B := h.apart q h.below.mem
  unfold Heap.joinLower
  split
  · -- `q` ends where `bp` begins
    rename_i hl
    have hq0 : q ≠ base := by
      rintro rfl
      rw [h.base_size] at hl
      have := h.below.lt
      omega
    have hqE : q ∈ F.erase base := mem_erase.mpr ⟨hq0, h.below.mem⟩
    have hqD : q ∈ F.erase base ∪ B := mem_union_left _ hqE
    rw [add_mod_of_tiles h.tiles hqD hbD hl hsmall]
    have hsize : ((s.setSize q (s.size q + s.size bp)).setPtr q (s.ptr bp)).size =
        update s.size q (s.size q + s.size bp) := by simp
    have hptr : ((s.setSize q (s.size q + s.size bp)).setPtr q (s.ptr bp)).ptr =
        update s.ptr q (s.ptr bp) := by simp
    have hD : (F.erase base ∪ B).erase bp = F.erase base ∪ B.erase bp := by
      rw [erase_union_distrib, erase_eq_of_notMem (fun hm => hbF (mem_of_mem_erase hm))]
    have htiles := merge_size h.tiles hqD hbD hl
    rw [hD] at htiles
    refine ⟨F, ⟨?_, ?_, h.below.mem, ?_, fun a ha hB => h.apart a ha (mem_of_mem_erase hB), fun a ha => ?_,
      fun a ha b hb => ?_⟩, rfl, rfl, fun a ha => ?_, .inl ?_⟩
    · exact hptr ▸ h.ring
    · exact (congrFun hsize base).trans ((update_of_ne hq0.symm ..).trans h.base_size)
    · exact hsize ▸ htiles
    · rw [← hD] at ha
      exact h.above a (mem_of_mem_erase ha)
    · change a + 16 * ((s.setSize q (s.size q + s.size bp)).setPtr q (s.ptr bp)).size a ≠ b
      rw [hsize, update_apply]
      split
      · have := h.upper b hb
        omega
      · exact h.coalesced a ha b hb
    · rw [hsize]
      refine update_of_ne ?_ ..
      rintro rfl
      exact hqB (mem_of_mem_erase ha)
    · rw [hsize, update_self]
      omega
  · rename_i hl
    have hsize : (s.setPtr q bp).size = s.size := by simp
    have hptr : (s.setPtr q bp).ptr = update s.ptr q bp := by simp
    have hins := h.ring.insert h.below.mem hbF h.below.lt h.below.le
    have hD : (insert bp F).erase base ∪ B.erase bp = F.erase base ∪ B := by
      ext x
      simp only [mem_union, mem_erase, mem_insert]
      constructor
      · rintro (⟨h1, rfl | h2⟩ | h2)
        · exact .inr h.mem
        · exact .inl ⟨h1, h2⟩
        · exact .inr h2.2
      · rintro (h1 | h1)
        · exact .inl ⟨h1.1, .inr h1.2⟩
        · by_cases hx : x = bp
          · exact .inl ⟨by omega, .inl hx⟩
          · exact .inr ⟨hx, h1⟩
    refine ⟨insert bp F, ⟨?_, ?_, mem_insert_of_mem h.below.mem, ?_, fun a ha hB => ?_, fun a ha => ?_,
      fun a ha b hb => ?_⟩, rfl, rfl, fun a _ => by rw [hsize], .inr ⟨?_, by rw [hsize]⟩⟩
    · change Ordered (s.setPtr q bp).ptr base (insert bp F)
      rw [hptr]
      refine hins.congr fun a _ => ?_
      simp only [update_apply]
      grind
    · exact (congrFun hsize base).trans h.base_size
    · rw [hD]
      exact hsize ▸ h.tiles
    · obtain ⟨hne, hB⟩ := mem_erase.mp hB
      exact h.apart a (mem_of_mem_insert_of_ne ha hne) hB
    · rw [hD] at ha
      exact h.above a ha
    · change a + 16 * (s.setPtr q bp).size a ≠ b
      rw [hsize]
      obtain ⟨ha0, ha'⟩ := mem_erase.mp ha
      obtain rfl | haF := mem_insert.mp ha'
      · obtain rfl | hbF' := mem_insert.mp hb
        · have := h.tiles.pos b hbD
          omega
        · exact h.upper b hbF'
      · obtain rfl | hbF' := mem_insert.mp hb
        · -- only the greatest block below could end where `bp` begins
          intro he
          have hpos := h.tiles.pos a (mem_union_left _ (mem_erase.mpr ⟨ha0, haF⟩))
          have haq := h.below.le a haF (by omega)
          rcases eq_or_lt_of_le haq with rfl | hlt
          · exact hl he
          · have hq0 : q ≠ base := by
              have := h.ring.lo_le a haF
              omega
            have := h.tiles.disj a (mem_union_left _ (mem_erase.mpr ⟨ha0, haF⟩)) q
              (mem_union_left _ (mem_erase.mpr ⟨hq0, h.below.mem⟩)) hlt
            have := h.below.lt
            omega
        · exact h.coalesced a (mem_erase.mpr ⟨ha0, haF⟩) b hbF'
    · rw [hptr, update_self]

theorem free_mono {n m ap : Nat} {s' : State} (h : free n ap s = some s') (hle : n ≤ m) : free m ap s = some s' := by
  unfold free at h ⊢
  dsimp only at h ⊢
  split at h
  · cases h
  · rename_i p hp
    rw [seek_mono hp hle]
    exact h

/-- `free` returns; the block is in the ring then, at `freep` or behind it, alone or joined with others. -/
theorem Core.free (h : Core base s F B) (hb : bp ∈ B) (hsmall : (bytes s.regions).card < 16 * 2 ^ 32) :
    ∃ n s' F', free n (bp + 16) s = some s' ∧ Core base s' F' (B.erase bp) ∧ s'.regions = s.regions ∧
      s'.used = s.used ∧ (∀ a ∈ B.erase bp, s'.size a = s.size a) ∧
      (s.size bp ≤ s'.size s'.freep ∨ s'.ptr s'.freep = bp ∧ s.size bp ≤ s'.size bp) := by
  obtain ⟨q, hq⟩ := h.exists_below hb
  obtain ⟨n, hn⟩ := h.ring.seek_eq h.freep hq.mem (h.stops_iff hb hq)
  obtain ⟨F1, hmid, hr1, hu1, hs1, hb1⟩ := h.joinUpper hb hq hsmall
  obtain ⟨F2, hcore, hr2, hu2, hs2, hb2⟩ := hmid.joinLower (hr1 ▸ hsmall)
  refine ⟨n, _, F2, ?_, hcore, hr2.trans hr1, hu2.trans hu1, fun a ha => (hs2 a ha).trans (hs1 a ha), ?_⟩
  · simp only [Heap.free, Nat.add_sub_cancel, hn]
  · exact hb2.imp hb1.trans fun h => ⟨h.1, hb1.trans h.2⟩

end Heap
end Xv6
