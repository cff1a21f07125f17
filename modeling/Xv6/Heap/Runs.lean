import Xv6.Heap.Malloc

/-!
# Xv6.Heap.Runs

The allocator over every sequence of calls.

* `Good`: blocks handed out and free blocks tile what `sbrk` has returned; the free list is one circular
  list in increasing order without neighbours; what was handed out is large enough.
* `Returns`: the loops of the next call end.
* `heap_sound`: both hold throughout, when `sbrk` returns fewer than `2 ^ 32` units in all.
* `malloc_sized_iff`: for which requests `morecore` asks `sbrk` for the bytes that it records, and what
  `malloc` returns then.
* `wrapped_size`: with `2 ^ 32` units a size wraps around to 0.
-/

namespace Xv6
namespace Heap

open Ring Tiling Function Finset

def State.blocks (s : State) : List Nat := s.used.map Prod.fst

/-- The free blocks are those in `l`, in this order. -/
structure Good (base : Nat) (s : State) (l : List Nat) : Prop where
  /-- Following the links from `base` visits `l` in increasing order and comes back to `base`; `freep` is a
  place in this circle. Before the first call of `malloc` there is no list. -/
  ordered : (base :: l).Pairwise (· < ·)
  circular : s.freep ≠ 0 → s.freep ∈ base :: l ∧ (base :: l ++ [base]).IsChain fun a b => s.ptr a = b
  nodup : (l ++ s.blocks).Nodup
  disjoint : ∀ a ∈ l ++ s.blocks, ∀ b ∈ l ++ s.blocks, a ≠ b → a + 16 * s.size a ≤ b ∨ b + 16 * s.size b ≤ a
  tiles : ∀ x, (∃ a ∈ l ++ s.blocks, a ≤ x ∧ x < a + 16 * s.size a) ↔
    ∃ r ∈ s.regions, r.1 ≤ x ∧ x < r.1 + 16 * r.2
  coalesced : ∀ a ∈ l, ∀ b ∈ l, a + 16 * s.size a ≠ b
  usable : ∀ r ∈ s.used, r.2 + 16 ≤ 16 * s.size r.1

/-- With enough turns every call that the program may make returns. -/
structure Returns (base limit : Nat) (s : State) : Prop where
  malloc : ∀ nbytes answers, nunits nbytes * 16 < 2 ^ 31 →
    ∃ n, ∀ m ≥ n, (step base limit s (.malloc nbytes answers m)).isSome
  free : ∀ a ∈ s.blocks, ∃ n, ∀ m ≥ n, (step base limit s (.free (a + 16) m)).isSome

structure Inv (base limit : Nat) (s : State) : Prop where
  heap : (s.freep = 0 ∧ s.regions = [] ∧ s.used = []) ∨ ∃ F, Core base s F s.blocks.toFinset
  units : s.units ≤ limit
  nodup : s.blocks.Nodup
  usable : ∀ r ∈ s.used, r.2 + 16 ≤ 16 * s.size r.1

variable {base limit : Nat} {s : State} {s' : State}

theorem inv_start : Inv base limit start :=
  ⟨.inl ⟨rfl, rfl, rfl⟩, Nat.zero_le _, List.nodup_nil, by simp [start]⟩

theorem Inv.good (h : Inv base limit s) : ∃ l, Good base s l := by
  rcases h.heap with ⟨h1, h2, h3⟩ | ⟨F, hc⟩
  · exact ⟨[], by simp, fun hne => absurd h1 hne, by simp [State.blocks, h3], by simp [State.blocks, h3],
      by simp [State.blocks, h3, h2], by simp, h.usable⟩
  obtain ⟨l, hsorted, hmem, hchain⟩ := hc.ring.chain
  have hl : ∀ a, a ∈ l ↔ a ∈ F.erase base := by
    intro a
    rw [mem_erase, ← hmem a, List.mem_cons]
    have hlt := (List.pairwise_cons.mp hsorted).1 a
    constructor
    · intro ha
      exact ⟨(hlt ha).ne', .inr ha⟩
    · exact fun ha => ha.2.resolve_left ha.1
  have hD : ∀ a, a ∈ l ++ s.blocks ↔ a ∈ F.erase base ∪ s.blocks.toFinset := by
    intro a
    rw [List.mem_append, mem_union, hl, List.mem_toFinset]
  refine ⟨l, hsorted, fun _ => ⟨(hmem _).mpr hc.freep, hchain⟩, ?_, fun a ha b hb hne => ?_, fun x => ?_,
    fun a ha b hb => ?_, h.usable⟩
  · refine List.nodup_append.mpr ⟨(hsorted.imp fun h => h.ne).tail, h.nodup, fun a ha b hb he => ?_⟩
    exact hc.apart a (mem_of_mem_erase ((hl a).mp ha)) (List.mem_toFinset.mpr (he ▸ hb))
  · rcases lt_or_gt_of_ne hne with hlt | hlt
    · exact .inl (hc.tiles.disj a ((hD a).mp ha) b ((hD b).mp hb) hlt)
    · exact .inr (hc.tiles.disj b ((hD b).mp hb) a ((hD a).mp ha) hlt)
  · rw [← mem_bytes, hc.tiles.cover]
    exact exists_congr fun a => and_congr_left fun _ => hD a
  · exact hc.coalesced a ((hl a).mp ha) b (mem_of_mem_erase ((hl b).mp hb))

/-! ## Calls -/

theorem Inv.initList (h : Inv base limit s) (hb : 0 < base) :
    ∃ F, Core base (initList base s) F s.blocks.toFinset ∧ Keeps s (initList base s) s.blocks.toFinset ∧
      (initList base s).units ≤ limit := by
  unfold Heap.initList
  rcases h.heap with ⟨h1, h2, h3⟩ | ⟨F, hc⟩
  · rw [if_pos h1]
    have hptr : ((s.setPtr base base).setSize base 0).ptr = update s.ptr base base := by simp
    have hsize : ((s.setPtr base base).setSize base 0).size = update s.size base 0 := by simp
    have hB : s.blocks.toFinset = ∅ := by simp [State.blocks, h3]
    rw [hB]
    refine ⟨{base}, ⟨⟨by simp, by simp, ?_⟩, ?_, by simp, ⟨by simp, by simp, fun x => ?_⟩, by simp, by simp, by simp⟩,
      ⟨rfl, by simp⟩, h.units⟩
    · intro a ha
      obtain rfl := mem_singleton.mp ha
      change Follows a {a} a (((s.setPtr a a).setSize a 0).ptr a)
      rw [hptr, update_self]
      exact ⟨by simp, by simp, .inr ⟨rfl, by simp⟩⟩
    · exact (congrFun hsize base).trans (update_self ..)
    · change x ∈ bytes s.regions ↔ _
      simp [h2, bytes]
  · have hne : s.freep ≠ 0 := by
      have := hc.ring.lo_le _ hc.freep
      omega
    rw [if_neg hne]
    exact ⟨F, hc, ⟨rfl, fun _ _ => rfl⟩, h.units⟩

theorem le_nunits (nbytes : Nat) : nbytes + 16 ≤ 16 * nunits nbytes := by
  unfold nunits
  omega

theorem Inv.malloc (h : Inv base limit s) (hb : 0 < base) (hlim : limit < 2 ^ 32) {nbytes : Nat}
    (hn : nunits nbytes * 16 < 2 ^ 31) (answers : List (Option Nat)) :
    ∃ n s', step base limit s (.malloc nbytes answers n) = some s' ∧ Inv base limit s' := by
  obtain ⟨F, hc, hk, hu⟩ := h.initList hb
  obtain ⟨n, r, s', F', hrun, hu', hk', hres⟩ := hc.search (nunits nbytes) answers hb (Nat.succ_pos _) hu hlim
  have hkeep := hk.trans hk'
  have hused : s'.used = s.used := hkeep.used
  have husable : ∀ r ∈ s.used, r.2 + 16 ≤ 16 * s'.size r.1 := fun r hr => by
    rw [hkeep.size r.1 (List.mem_toFinset.mpr (List.mem_map_of_mem hr))]
    exact h.usable r hr
  have hblocks : s'.blocks = s.blocks := by rw [State.blocks, hused, State.blocks]
  have hmalloc : Heap.malloc base limit n nbytes answers s = some (r, s') := hrun
  rcases hres with ⟨rfl, hcore⟩ | ⟨a, rfl, haB, hcore, hsz⟩
  · refine ⟨n, s', by simp only [step, hn, if_true, hmalloc], .inr ⟨F', hblocks ▸ hcore⟩, hu', hblocks ▸ h.nodup, ?_⟩
    rw [hused]
    exact husable
  · refine ⟨n, { s' with used := (a, nbytes) :: s'.used }, ?_, .inr ⟨F', ?_⟩, hu', ?_, fun r hr => ?_⟩
    · simp only [step, hn, if_true, hmalloc, Nat.add_sub_cancel]
    · have hcons : ({ s' with used := (a, nbytes) :: s'.used } : State).blocks = a :: s.blocks := by
        rw [← hblocks]
        rfl
      rw [hcons, List.toFinset_cons]
      exact { hcore with }
    · change (a :: s'.blocks).Nodup
      rw [hblocks]
      exact List.nodup_cons.mpr ⟨fun hm => haB (List.mem_toFinset.mpr hm), h.nodup⟩
    · obtain rfl | hr := List.mem_cons.mp hr
      · change nbytes + 16 ≤ 16 * s'.size a
        rw [hsz]
        exact le_nunits nbytes
      · exact husable r (hused ▸ hr)

theorem Core.congr {F B : Finset Nat} (h : Core base s F B) (hptr : ∀ a ∈ F, s'.ptr a = s.ptr a)
    (hsize : ∀ a ∈ F ∪ B, s'.size a = s.size a) (hfreep : s'.freep = s.freep) (hregions : s'.regions = s.regions) :
    Core base s' F B := by
  have hD : ∀ a ∈ F.erase base ∪ B, s'.size a = s.size a := fun a ha =>
    hsize a (union_subset_union_left (erase_subset _ _) ha)
  refine ⟨h.ring.congr hptr, ?_, hfreep ▸ h.freep, ?_, h.apart, h.above, fun a ha b hb => ?_⟩
  · rw [hsize base (mem_union_left _ h.ring.lo_mem)]
    exact h.base_size
  · rw [hregions]
    exact h.tiles.congr fun a ha => by rw [hD a ha]
  · rw [hD a (mem_union_left _ ha)]
    exact h.coalesced a ha b hb

theorem blocks_erase {l : List (Nat × Nat)} {r : Nat × Nat} (hn : (l.map Prod.fst).Nodup) (hr : r ∈ l) :
    ((l.erase r).map Prod.fst).Nodup ∧ ((l.erase r).map Prod.fst).toFinset = (l.map Prod.fst).toFinset.erase r.1 := by
  have hperm : (l.map Prod.fst).Perm (r.1 :: (l.erase r).map Prod.fst) := (List.perm_cons_erase hr).map Prod.fst
  obtain ⟨hnot, hn'⟩ := List.nodup_cons.mp (hperm.nodup_iff.mp hn)
  refine ⟨hn', ?_⟩
  rw [List.toFinset_eq_of_perm _ _ hperm, List.toFinset_cons, erase_insert (by rwa [List.mem_toFinset])]

theorem Inv.free (h : Inv base limit s) (hlim : limit < 2 ^ 32) {ap : Nat} {r : Nat × Nat} (hr : r ∈ s.used)
    (hap : r.1 + 16 = ap) : ∃ n s', free n ap { s with used := s.used.erase r } = some s' ∧ Inv base limit s' := by
  subst hap
  obtain ⟨hnod, hB⟩ := blocks_erase h.nodup hr
  rcases h.heap with ⟨_, _, h3⟩ | ⟨F, hc⟩
  · rw [h3] at hr
    cases hr
  have hc' : Core base { s with used := s.used.erase r } F s.blocks.toFinset :=
    hc.congr (fun _ _ => rfl) (fun _ _ => rfl) rfl rfl
  obtain ⟨n, s', F', hfree, hcore, hreg, hused, hsz, _⟩ :=
    hc'.free (List.mem_toFinset.mpr (List.mem_map_of_mem hr)) (small_of_units h.units hlim)
  have hblocks : s'.blocks.toFinset = s.blocks.toFinset.erase r.1 := by
    rw [State.blocks, hused]
    exact hB
  refine ⟨n, s', hfree, .inr ⟨F', hblocks ▸ hcore⟩, ?_, ?_, fun r' hr' => ?_⟩
  · rw [State.units, hreg]
    exact h.units
  · rw [State.blocks, hused]
    exact hnod
  · rw [hused] at hr'
    have hmem : r'.1 ∈ s.blocks.toFinset.erase r.1 := by
      rw [← hblocks, State.blocks, hused]
      exact List.mem_toFinset.mpr (List.mem_map_of_mem hr')
    rw [hsz r'.1 hmem]
    exact h.usable r' (List.mem_of_mem_erase hr')

theorem Core.not_inUse {F : Finset Nat} (h : Core base s F s.blocks.toFinset) {a : Nat}
    (ha : a ∈ F ∪ s.blocks.toFinset) : inUse s a = false := by
  rw [inUse, List.any_eq_false]
  intro r hr
  simp only [decide_eq_true_eq, not_and, not_lt]
  intro hlt
  have hrD : r.1 ∈ F.erase base ∪ s.blocks.toFinset :=
    mem_union_right _ (List.mem_toFinset.mpr (List.mem_map_of_mem hr))
  have hrb := h.above r.1 hrD
  refine h.tiles.disj r.1 hrD a ?_ hlt
  rw [mem_union] at ha ⊢
  exact ha.imp (fun haF => mem_erase.mpr ⟨by omega, haF⟩) id

theorem Inv.store (h : Inv base limit s) (f : Nat → Header) :
    Inv base limit { s with hdr := fun x => if inUse s x then f x else s.hdr x } := by
  rcases h.heap with ⟨h1, h2, h3⟩ | ⟨F, hc⟩
  · exact ⟨.inl ⟨h1, h2, h3⟩, h.units, h.nodup, by simp [h3]⟩
  have hhdr : ∀ a ∈ F ∪ s.blocks.toFinset, (if inUse s a then f a else s.hdr a) = s.hdr a := fun a ha => by
    rw [hc.not_inUse ha]
    rfl
  refine ⟨.inr ⟨F, ?_⟩, h.units, h.nodup, fun r hr => ?_⟩
  · exact hc.congr (fun a ha => congrArg Header.ptr (hhdr a (mem_union_left _ ha)))
      (fun a ha => congrArg Header.size (hhdr a ha)) rfl rfl
  · have := hhdr r.1 (mem_union_right _ (List.mem_toFinset.mpr (List.mem_map_of_mem hr)))
    exact (h.usable r hr).trans_eq (congrArg (16 * ·.size) this).symm

/-! ## Runs -/

theorem step_malloc_mono {nbytes n m : Nat} {answers : List (Option Nat)}
    (h : step base limit s (.malloc nbytes answers n) = some s') (hle : n ≤ m) :
    step base limit s (.malloc nbytes answers m) = some s' := by
  simp only [step] at h ⊢
  split at h
  · rw [if_pos ‹_›]
    split at h
    · cases h
    all_goals
      rename_i hm
      rw [show malloc base limit m nbytes answers s = _ from search_mono hm hle]
      exact h
  · cases h

theorem inv_step (hb : 0 < base) (hlim : limit < 2 ^ 32) {e : Event} (h : Inv base limit s)
    (hs : step base limit s e = some s') : Inv base limit s' := by
  cases e with
  | malloc nbytes answers n =>
    have hn : nunits nbytes * 16 < 2 ^ 31 := by
      by_contra hn
      simp only [step, hn, if_false] at hs
      cases hs
    obtain ⟨n0, s0, h0, hi⟩ := h.malloc hb hlim hn answers
    have h1 := step_malloc_mono hs (le_max_left n n0)
    rw [step_malloc_mono h0 (le_max_right n n0)] at h1
    cases h1
    exact hi
  | free ap n =>
    simp only [step] at hs
    split at hs
    · cases hs
    · rename_i r hf
      obtain ⟨n0, s0, h0, hi⟩ := h.free hlim (List.mem_of_find?_eq_some hf) (by simpa using List.find?_some hf)
      have h1 := free_mono hs (le_max_left n n0)
      rw [free_mono h0 (le_max_right n n0)] at h1
      cases h1
      exact hi
  | store f =>
    cases hs
    exact h.store f

theorem Inv.returns (h : Inv base limit s) (hb : 0 < base) (hlim : limit < 2 ^ 32) : Returns base limit s := by
  refine ⟨fun nbytes answers hn => ?_, fun a ha => ?_⟩
  · obtain ⟨n, s', hs, _⟩ := h.malloc hb hlim hn answers
    exact ⟨n, fun m hm => by rw [step_malloc_mono hs hm]; rfl⟩
  · obtain ⟨r, hr, rfl⟩ := List.mem_map.mp ha
    have hfind : (s.used.find? fun r' => r'.1 + 16 = r.1 + 16).isSome := by
      rw [List.find?_isSome]
      exact ⟨r, hr, by simp⟩
    obtain ⟨r', hf⟩ := Option.isSome_iff_exists.mp hfind
    have hr' : r'.1 + 16 = r.1 + 16 := by
      have := List.find?_some hf
      exact of_decide_eq_true this
    obtain ⟨n, s', hfree, _⟩ := h.free hlim (List.mem_of_find?_eq_some hf) hr'
    refine ⟨n, fun m hm => ?_⟩
    simp only [step, hf]
    rw [free_mono hfree hm]
    rfl

/-- Over every sequence of calls the allocator is sound and its loops end, when `sbrk` returns fewer than
`2 ^ 32` units in all. -/
theorem heap_sound (hb : 0 < base) (hlim : limit < 2 ^ 32) (es : List Event) :
    Trans.AllStates (step base limit) (fun s => (∃ l, Good base s l) ∧ Returns base limit s) start es :=
  Trans.allStates_of_inv (fun _ h => ⟨h.good, h.returns hb hlim⟩) (fun _ _ _ => inv_step hb hlim) es inv_start

/-- A request of 100 bytes, with a region at 8192, and its release. -/
theorem heap_sound_once : 0 < 4096 ∧ 2 ^ 32 - 1 < 2 ^ 32 ∧
    (Trans.run (step 4096 (2 ^ 32 - 1)) start [.malloc 100 [some 8192] 9, .free 73616 9]).isSome ∧
    Trans.AllStates (step 4096 (2 ^ 32 - 1)) (fun s => (∃ l, Good 4096 s l) ∧ Returns 4096 (2 ^ 32 - 1) s) start
      [.malloc 100 [some 8192] 9, .free 73616 9] :=
  ⟨by decide, by decide, by decide +kernel, heap_sound (by decide) (by decide) _⟩

/-! ## Requests -/

/-- What `morecore` is asked for: `nunits` is a `uint`. -/
def requested (nbytes : UInt32) : Nat :=
  let nunits := nunits nbytes.toNat % 2 ^ 32
  if nunits < 4096 then 4096 else nunits

/-- The argument of `sbrk`: `nu * sizeof(Header)` has 64 bits, and the parameter is an `int`. -/
def sbrkArg (nu : Nat) : Int := Int.bmod ((nu * 16 % 2 ^ 64 : Nat) : Int) (2 ^ 32)

/-- `morecore` asks for a positive number of bytes, those that it records in the header of the new block. -/
def Sized (nbytes : UInt32) : Prop :=
  0 < sbrkArg (requested nbytes) ∧ sbrkArg (requested nbytes) = 16 * requested nbytes

instance (nbytes : UInt32) : Decidable (Sized nbytes) := inferInstanceAs (Decidable (_ ∧ _))

theorem sized_iff (nbytes : UInt32) : Sized nbytes ↔ nbytes.toNat ≤ 2 ^ 31 - 32 := by
  have hn := nbytes.toNat_lt
  have hu : nunits nbytes.toNat % 2 ^ 32 = (nbytes.toNat + 15) / 16 + 1 := by
    unfold nunits
    omega
  unfold Sized sbrkArg requested
  simp only [hu, Int.bmod_def]
  split <;> split <;> omega

/-- 64 blocks of `2 ^ 26` units, each in a region of its own right behind the one before, are handed out and
freed from below. -/
def wrapEvents : List Event :=
  (List.range 64).map (fun k => .malloc (2 ^ 30 - 16) [some (8192 + 2 ^ 30 * k)] 4) ++
    (List.range 64).map fun k => .free (8192 + 2 ^ 30 * k + 16) 4

/-- The one free block left has size 0. -/
def wrapped (s : State) : Bool :=
  s.freep ≠ 0 ∧ s.ptr 4096 = 8192 ∧ s.ptr 8192 = 4096 ∧ s.size 8192 = 0 ∧ s.used = [] ∧ (8192, 2 ^ 26) ∈ s.regions

theorem run_wrapEvents : (Trans.run (step 4096 (2 ^ 32)) start wrapEvents).any wrapped = true := by
  decide +kernel

/-- With `2 ^ 32` units the sizes of the blocks add up to 0, and the memory is lost. -/
theorem wrapped_size : ∃ s, Trans.run (step 4096 (2 ^ 32)) start wrapEvents = some s ∧ ∀ l, ¬ Good 4096 s l := by
  obtain ⟨s, hs, hw⟩ := (Option.any_eq_true _ _).mp run_wrapEvents
  simp only [wrapped, decide_eq_true_eq] at hw
  obtain ⟨hfreep, hbase, hblock, hsize, hused, hreg⟩ := hw
  refine ⟨s, hs, fun l hg => ?_⟩
  obtain ⟨a, ha, hle, hlt⟩ := (hg.tiles 8192).mpr ⟨_, hreg, by decide, by decide⟩
  rw [State.blocks, hused, List.map_nil, List.append_nil] at ha
  have hchain := (hg.circular hfreep).2
  -- the list is `base` and the block at 8192
  cases l with
  | nil => cases ha
  | cons b l =>
    obtain ⟨h1, h2⟩ := List.isChain_cons_cons.mp hchain
    obtain rfl : b = 8192 := h1.symm.trans hbase
    cases l with
    | nil =>
      obtain rfl := List.mem_singleton.mp ha
      omega
    | cons c l =>
      have hc : c = 4096 := (List.isChain_cons_cons.mp h2).1.symm.trans hblock
      have := (List.pairwise_cons.mp hg.ordered).1 c (by simp)
      omega

end Heap
end Xv6
