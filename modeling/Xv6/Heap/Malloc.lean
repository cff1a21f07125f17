import Xv6.Heap.Free

/-!
# Xv6.Heap.Malloc

What `malloc` does. Its loop goes once around the ring from `freep`; when no block is large enough it gets
more memory, and finds it at `freep` or right behind it.

* `Core.carve`: a block, or the end of one, is taken out of the ring.
* `Core.morecore`: what `sbrk` returns comes into the ring.
* `Core.search`: the loop ends, with a block of the right size or because `sbrk` has failed.
-/

namespace Xv6
namespace Heap

open Ring Tiling Function Finset

variable {base limit : Nat} {s : State} {F B : Finset Nat} {pr p nu m : Nat}

structure Keeps (s s' : State) (B : Finset Nat) : Prop where
  used : s'.used = s.used
  size : ∀ a ∈ B, s'.size a = s.size a

theorem Keeps.trans {s1 s2 s3 : State} (h : Keeps s1 s2 B) (h' : Keeps s2 s3 B) : Keeps s1 s3 B :=
  ⟨h'.used.trans h.used, fun a ha => (h'.size a ha).trans (h.size a ha)⟩

theorem Core.carve_whole (h : Core base s F B) (hpr : pr ∈ F) (hp : s.ptr pr = p) (hp0 : p ≠ base) :
    Core base { s.setPtr pr (s.ptr p) with freep := pr } (F.erase p) (insert p B) := by
  have hf := h.ring.follows pr hpr
  rw [hp] at hf
  have hlt : pr < p := hf.lt_or.resolve_right fun hw => hp0 hw.1
  have hsize : (s.setPtr pr (s.ptr p)).size = s.size := by simp
  have hring : Ordered (s.setPtr pr (s.ptr p)).ptr base (F.erase p) := by
    have := h.ring.remove hpr (hp ▸ hp0)
    rw [hp] at this
    simpa using this
  have hD : (F.erase p).erase base ∪ insert p B = F.erase base ∪ B := by
    ext x
    simp only [mem_union, mem_erase, mem_insert]
    constructor
    · rintro (h1 | rfl | h1)
      · exact .inl ⟨h1.1, h1.2.2⟩
      · exact .inl ⟨hp0, hf.mem⟩
      · exact .inr h1
    · rintro (h1 | h1)
      · by_cases hx : x = p
        · exact .inr (.inl hx)
        · exact .inl ⟨h1.1, hx, h1.2⟩
      · exact .inr (.inr h1)
  refine ⟨hring, (congrFun hsize base).trans h.base_size, mem_erase.mpr ⟨hlt.ne, hpr⟩, ?_, fun a ha hB => ?_,
    ?_, fun a ha b hb => ?_⟩
  · rw [hD]
    exact hsize ▸ h.tiles
  · obtain ⟨hap, haF⟩ := mem_erase.mp ha
    exact h.apart a haF ((mem_insert.mp hB).resolve_left hap)
  · rw [hD]
    exact h.above
  · change a + 16 * (s.setPtr pr (s.ptr p)).size a ≠ b
    rw [hsize]
    obtain ⟨ha0, ha⟩ := mem_erase.mp ha
    exact h.coalesced a (mem_erase.mpr ⟨ha0, mem_of_mem_erase ha⟩) b (mem_of_mem_erase hb)

theorem Core.carve_end (rest : Nat) (h : Core base s F B) (hpr : pr ∈ F) (hp : p ∈ F) (hp0 : p ≠ base)
    (hrest : 0 < rest) (hnu : 0 < nu) (hsum : s.size p = rest + nu) : p + 16 * rest ∉ F.erase base ∪ B ∧
      Core base { (s.setSize p rest).setSize (p + 16 * rest) nu with freep := pr } F (insert (p + 16 * rest) B) := by
  have hpE : p ∈ F.erase base := mem_erase.mpr ⟨hp0, hp⟩
  have hpD : p ∈ F.erase base ∪ B := mem_union_left _ hpE
  have hnew : p + 16 * rest ∉ F.erase base ∪ B := fun hD => by
    have := h.tiles.disj p hpD _ hD (by omega)
    omega
  have hbp := h.above p hpD
  have hnF : p + 16 * rest ∉ F := fun hF => hnew (mem_union_left _ (mem_erase.mpr ⟨by omega, hF⟩))
  have hsize : ((s.setSize p rest).setSize (p + 16 * rest) nu).size =
      update (update s.size p rest) (p + 16 * rest) nu := by simp
  have hptr : ((s.setSize p rest).setSize (p + 16 * rest) nu).ptr = s.ptr := by simp
  refine ⟨hnew, hptr ▸ h.ring, ?_, hpr, ?_, fun a ha hB => ?_, fun a ha => ?_, fun a ha b hb => ?_⟩
  · refine (congrFun hsize base).trans ?_
    rw [update_of_ne (by omega), update_of_ne hp0.symm]
    exact h.base_size
  · have hsplit := h.tiles.split hpD (m := 16 * rest) (by omega) (by omega)
    rw [union_insert]
    change Tiles _ (fun a => 16 * ((s.setSize p rest).setSize (p + 16 * rest) nu).size a) _
    rw [hsize]
    refine hsplit.congr fun x _ => ?_
    simp only [update_apply]
    split
    · omega
    · split <;> rfl
  · obtain rfl | hB := mem_insert.mp hB
    · exact hnF ha
    · exact h.apart a ha hB
  · rw [union_insert] at ha
    obtain rfl | ha := mem_insert.mp ha
    · omega
    · exact h.above a ha
  · change a + 16 * ((s.setSize p rest).setSize (p + 16 * rest) nu).size a ≠ b
    have haF := mem_of_mem_erase ha
    have hne : a ≠ p + 16 * rest := by
      rintro rfl
      exact hnF haF
    rw [hsize, update_of_ne hne, update_apply]
    split
    · -- what is left ends where the new block begins
      subst a
      exact fun he => hnF (he ▸ hb)
    · exact h.coalesced a ha b hb

theorem Core.carve (h : Core base s F B) (hpr : pr ∈ F) (hp : s.ptr pr = p) (hnu : 0 < nu)
    (hle : nu ≤ s.size p) : ∃ a s' F', carve nu pr p s = (a, s') ∧ a ∉ B ∧ Core base s' F' (insert a B) ∧
      s'.size a = nu ∧ s'.regions = s.regions ∧ Keeps s s' B := by
  have hp0 : p ≠ base := by
    rintro rfl
    rw [h.base_size] at hle
    omega
  have hpF : p ∈ F := hp ▸ (h.ring.follows pr hpr).mem
  unfold Heap.carve
  split
  · rename_i he
    refine ⟨p, _, _, rfl, h.apart p hpF, h.carve_whole hpr hp hp0, ?_, rfl, rfl, fun a _ => ?_⟩
    · exact (congrFun (State.size_setPtr ..) p).trans he
    · exact congrFun (State.size_setPtr ..) a
  · obtain ⟨hnew, hcore⟩ := h.carve_end (s.size p - nu) hpr hpF hp0 (by omega) hnu (by omega)
    have hnB := fun hB => hnew (mem_union_right _ hB)
    refine ⟨_, _, F, rfl, hnB, hcore, ?_, rfl, rfl, fun a ha => ?_⟩
    · exact (congrFun (State.size_setSize ..) _).trans (update_self ..)
    · have hne : a ≠ p + 16 * (s.size p - nu) := by
        rintro rfl
        exact hnB ha
      have hne' : a ≠ p := by
        rintro rfl
        exact h.apart a hpF ha
      refine (congrFun (State.size_setSize ..) a).trans ?_
      rw [update_of_ne hne, State.size_setSize, update_of_ne hne']

/-! ## More memory -/

theorem Core.addRegion {hp : Nat} (h : Core base s F B) (hnu : 0 < nu) (hbase : base + 16 ≤ hp)
    (habove : ∀ r ∈ s.regions, r.1 + 16 * r.2 ≤ hp) :
    hp ∉ B ∧ Core base { s.setSize hp nu with regions := s.regions ++ [(hp, nu)] } F (insert hp B) := by
  have hend : ∀ x ∈ bytes s.regions, x < hp := fun x hx => by
    obtain ⟨r, hr, hx1, hx2⟩ := mem_bytes.mp hx
    have := habove r hr
    omega
  have hold : ∀ a ∈ F.erase base ∪ B, a < hp := fun a ha =>
    hend a ((h.tiles.cover a).mpr ⟨a, ha, le_refl _, by have := h.tiles.pos a ha; omega⟩)
  have hFlt : ∀ a ∈ F, a < hp := fun a ha => by
    by_cases ha0 : a = base
    · omega
    · exact hold a (mem_union_left _ (mem_erase.mpr ⟨ha0, ha⟩))
  have hsize : (s.setSize hp nu).size = update s.size hp nu := by simp
  have hptr : (s.setSize hp nu).ptr = s.ptr := by simp
  refine ⟨fun hB => lt_irrefl _ (hold hp (mem_union_right _ hB)), hptr ▸ h.ring, ?_, h.freep, ?_, fun a ha hB => ?_,
    fun a ha => ?_, fun a ha b hb => ?_⟩
  · exact (congrFun hsize base).trans ((update_of_ne (by omega) ..).trans h.base_size)
  · change Tiles _ (fun a => 16 * (s.setSize hp nu).size a) (bytes (s.regions ++ [(hp, nu)]))
    rw [bytes_append, union_insert, hsize]
    refine (h.tiles.add (m := 16 * nu) (by omega) hend).congr fun x _ => ?_
    simp only [update_apply]
    split <;> rfl
  · obtain rfl | hB := mem_insert.mp hB
    · exact lt_irrefl _ (hFlt a ha)
    · exact h.apart a ha hB
  · rw [union_insert] at ha
    obtain rfl | ha := mem_insert.mp ha
    · exact hbase
    · exact h.above a ha
  · change a + 16 * (s.setSize hp nu).size a ≠ b
    rw [hsize, update_of_ne (hFlt a (mem_of_mem_erase ha)).ne]
    exact h.coalesced a ha b hb

theorem units_append {l : List (Nat × Nat)} {a n : Nat} :
    ((l ++ [(a, n)]).map Prod.snd).sum = (l.map Prod.snd).sum + n := by
  simp

theorem small_of_units {l : List (Nat × Nat)} (h : (l.map Prod.snd).sum ≤ limit) (hlim : limit < 2 ^ 32) :
    (bytes l).card < 16 * 2 ^ 32 := by
  have := card_bytes_le l
  omega

theorem morecore_mono {n : Nat} {answer : Option Nat} {r : Nat × State}
    (h : morecore base limit n nu answer s = some r) (hle : n ≤ m) : morecore base limit m nu answer s = some r := by
  unfold morecore at h ⊢
  dsimp only at h ⊢
  split
  · rename_i hs
    rw [hs] at h
    exact h
  · rename_i hp hs
    rw [hs] at h
    dsimp only at h
    split at h
    · cases h
    · rename_i s1 hf
      rw [free_mono hf hle]
      exact h

/-- `morecore` returns: `sbrk` has failed, or the ring has a block that is large enough at `freep` or behind
it. -/
theorem Core.morecore (nu : Nat) (answer : Option Nat) (h : Core base s F B) (hlim : limit < 2 ^ 32) :
    ∃ n, morecore base limit n nu answer s = some (0, s) ∨
      ∃ s' F', morecore base limit n nu answer s = some (s'.freep, s') ∧ Core base s' F' B ∧ s'.units ≤ limit ∧
        Keeps s s' B ∧ (nu ≤ s'.size s'.freep ∨ nu ≤ s'.size (s'.ptr s'.freep)) := by
  unfold Heap.morecore
  dsimp only
  set nu' := if nu < 4096 then 4096 else nu with hnu'
  have hle : nu ≤ nu' ∧ 0 < nu' := by
    rw [hnu']
    split <;> omega
  cases hs : sbrk base limit nu' answer s with
  | none => exact ⟨0, .inl rfl⟩
  | some hp =>
    have hok : base + 16 ≤ hp ∧ (∀ r ∈ s.regions, r.1 + 16 * r.2 ≤ hp) ∧ s.units + nu' ≤ limit := by
      unfold sbrk at hs
      split at hs
      · cases hs
      · split at hs
        · cases hs
          assumption
        · cases hs
    obtain ⟨hpB, hcore⟩ := h.addRegion hle.2 hok.1 hok.2.1
    have hunits : ((s.regions ++ [(hp, nu')]).map Prod.snd).sum ≤ limit := by
      rw [units_append]
      exact hok.2.2
    obtain ⟨n, s', F', hfree, hcore', hr, hused, hsz, hbig⟩ :=
      hcore.free (mem_insert_self ..) (small_of_units hunits hlim)
    rw [erase_insert hpB] at hcore' hsz
    have hhp : (s.setSize hp nu').size hp = nu' := by simp
    refine ⟨n, .inr ⟨s', F', ?_, hcore', ?_, ⟨hused, fun a ha => ?_⟩, ?_⟩⟩
    · simp only [hfree]
    · rw [State.units, hr]
      exact hunits
    · refine (hsz a ha).trans ((congrFun (State.size_setSize ..) a).trans (update_of_ne ?_ ..))
      rintro rfl
      exact hpB ha
    · change (s.setSize hp nu').size hp ≤ _ ∨ _ ∧ (s.setSize hp nu').size hp ≤ _ at hbig
      rw [hhp] at hbig
      obtain hb | ⟨hb, hb'⟩ := hbig
      · exact .inl (hle.1.trans hb)
      · exact .inr (hb ▸ hle.1.trans hb')

/-! ## The search -/

theorem search_mono {r : Option Nat × State} : ∀ {n m : Nat} {answers : List (Option Nat)} {pr p : Nat}
    {s : State}, search base limit nu n answers pr p s = some r → n ≤ m →
      search base limit nu m answers pr p s = some r := by
  intro n
  induction n with
  | zero => intro m answers pr p s h; cases h
  | succ n ih =>
    intro m answers pr p s h hle
    obtain ⟨m, rfl⟩ := Nat.exists_eq_succ_of_ne_zero (Nat.ne_of_gt (Nat.lt_of_lt_of_le n.succ_pos hle))
    have hle' : n ≤ m := by omega
    rw [search] at h ⊢
    split at h
    · rwa [if_pos ‹_›]
    · rw [if_neg ‹_›]
      split at h
      · rw [if_pos ‹_›]
        split at h
        · cases h
        · rename_i q s' hm
          rw [morecore_mono hm hle']
          dsimp only
          split at h
          · rwa [if_pos ‹_›]
          · rw [if_neg ‹_›]
            exact ih h hle'
      · rw [if_neg ‹_›]
        exact ih h hle'

theorem search_failed {answers : List (Option Nat)} {s' : State} (hsmall : s.size s.freep < nu)
    (hm : morecore base limit m nu answers.head?.join s = some (0, s')) :
    search base limit nu (m + 1) answers pr s.freep s = some (none, s') := by
  simp only [search, ge_iff_le, Nat.not_le.mpr hsmall, if_false, if_true, hm]

theorem search_again {q : Nat} {answers : List (Option Nat)} {s' : State} (hsmall : s.size s.freep < nu)
    (hq : q ≠ 0) (hm : morecore base limit m nu answers.head?.join s = some (q, s')) :
    search base limit nu (m + 1) answers pr s.freep s = search base limit nu m answers.tail q (s'.ptr q) s' := by
  simp only [search, ge_iff_le, Nat.not_le.mpr hsmall, if_false, if_true, hm, hq]

/-- One way around the ring: the loop finds a block that is large enough, or comes to `freep`. -/
theorem Core.walk (limit nu : Nat) (answers : List (Option Nat)) (h : Core base s F B) :
    ∀ (k : Nat) {pr p : Nat}, pr ∈ F → s.ptr pr = p → s.ptr^[k] p = s.freep →
      (∃ n pr' c, pr' ∈ F ∧ s.ptr pr' = c ∧ nu ≤ s.size c ∧
        search base limit nu n answers pr p s = some (some ((Heap.carve nu pr' c s).1 + 16), (Heap.carve nu pr' c s).2)) ∨
      (s.size p < nu ∧ s.size s.freep < nu ∧ ∃ n pr', ∀ m,
        search base limit nu (n + (m + 1)) answers pr p s = search base limit nu (m + 1) answers pr' s.freep s) := by
  intro k
  induction k with
  | zero =>
    intro pr p hpr hp hk
    obtain rfl : p = s.freep := hk
    by_cases hfit : nu ≤ s.size s.freep
    · exact .inl ⟨1, pr, _, hpr, hp, hfit, by rw [search, if_pos hfit]⟩
    · exact .inr ⟨by omega, by omega, 0, pr, fun m => by rw [Nat.zero_add]⟩
  | succ k ih =>
    intro pr p hpr hp hk
    have hpF : p ∈ F := hp ▸ (h.ring.follows pr hpr).mem
    by_cases hfit : nu ≤ s.size p
    · exact .inl ⟨1, pr, _, hpr, hp, hfit, by rw [search, if_pos hfit]⟩
    by_cases hend : p = s.freep
    · exact .inr ⟨by omega, by rw [← hend]; omega, 0, pr, fun m => by rw [Nat.zero_add, hend]⟩
    -- one turn further
    have hturn : ∀ n, search base limit nu (n + 1) answers pr p s = search base limit nu n answers p (s.ptr p) s :=
      fun n => by rw [search, if_neg hfit, if_neg hend]
    rcases ih hpF rfl hk with ⟨n, pr', c, h1, h2, h3, h4⟩ | ⟨_, h2, n, pr', h3⟩
    · exact .inl ⟨n + 1, pr', c, h1, h2, h3, by rw [hturn, h4]⟩
    · refine .inr ⟨by omega, h2, n + 1, pr', fun m => ?_⟩
      rw [show n + 1 + (m + 1) = n + (m + 1) + 1 by omega, hturn, h3]

/-- The loop of `malloc` ends: with a block of `nu` units, or with 0 because `sbrk` has failed. -/
theorem Core.search (nu : Nat) (answers : List (Option Nat)) (h : Core base s F B) (hb : 0 < base) (hnu : 0 < nu)
    (hu : s.units ≤ limit) (hlim : limit < 2 ^ 32) : ∃ n r s' F',
      search base limit nu n answers s.freep (s.ptr s.freep) s = some (r, s') ∧ s'.units ≤ limit ∧ Keeps s s' B ∧
      (r = none ∧ Core base s' F' B ∨
        ∃ a, r = some (a + 16) ∧ a ∉ B ∧ Core base s' F' (insert a B) ∧ s'.size a = nu) := by
  obtain ⟨k, hk⟩ := h.ring.reach (h.ring.follows _ h.freep).mem h.freep
  rcases h.walk limit nu answers k h.freep rfl hk with
    ⟨n, pr, c, hpr, hc, hfit, hrun⟩ | ⟨_, hsmall, n, pr, hrun⟩
  · obtain ⟨a, s', F', hcv, haB, hcore, hsz, hr, hkeep⟩ := h.carve hpr hc hnu hfit
    rw [hcv] at hrun
    exact ⟨n, _, s', F', hrun, by rwa [State.units, hr], hkeep, .inr ⟨a, rfl, haB, hcore, hsz⟩⟩
  -- no block is large enough
  obtain ⟨m, hm⟩ := h.morecore nu answers.head?.join hlim
  rcases hm with hm | ⟨s1, F1, hm, hcore1, hu1, hkeep1, hbig⟩
  · refine ⟨n + (m + 1), none, s, F, ?_, hu, ⟨rfl, fun _ _ => rfl⟩, .inl ⟨rfl, h⟩⟩
    rw [hrun, search_failed hsmall hm]
  · have hq : s1.freep ≠ 0 := by
      have := hcore1.ring.lo_le _ hcore1.freep
      omega
    obtain ⟨k1, hk1⟩ := hcore1.ring.reach (hcore1.ring.follows _ hcore1.freep).mem hcore1.freep
    rcases hcore1.walk limit nu answers.tail k1 hcore1.freep rfl hk1 with
      ⟨n1, pr1, c1, hpr1, hc1, hfit1, hrun1⟩ | ⟨hno1, hno2, _⟩
    · obtain ⟨a, s', F', hcv, haB, hcore, hsz, hr, hkeep⟩ := hcore1.carve hpr1 hc1 hnu hfit1
      rw [hcv] at hrun1
      refine ⟨n + (max m n1 + 1), _, s', F', ?_, by rwa [State.units, hr], hkeep1.trans hkeep,
        .inr ⟨a, rfl, haB, hcore, hsz⟩⟩
      rw [hrun, search_again hsmall hq (morecore_mono hm (le_max_left ..))]
      exact search_mono hrun1 (le_max_right ..)
    · omega

end Heap
end Xv6
