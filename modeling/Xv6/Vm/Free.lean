import Xv6.Vm.Table

/-!
# Xv6.Vm.Free

What `uvmunmap` and `freewalk` give back to the allocator.

* `wpe_unmapLoop`: the entries of a range of leaves are cleared; with `do_free` their pages are free
  afterwards.
* `wp_freewalk`: a table without leaves is taken down, and all its pages are free afterwards.
-/

namespace Xv6
namespace Vm

open Bytes Wp Function Multiset Radix

def Leaf (pte : Nat) : Prop := pte &&& PTE_V ≠ 0 ∧ pteFlags pte ≠ PTE_V

def pages (f : Nat → Nat) (k₀ n : Nat) : Multiset Nat :=
  ↑((List.range' k₀ n).map fun k => pte2pa (f k))

section Pages

variable {f g : Nat → Nat} {k₀ n x : Nat}

@[simp] theorem pages_zero : pages f k₀ 0 = 0 := rfl

theorem pages_cons : pages f k₀ (n + 1) = {pte2pa (f k₀)} + pages f (k₀ + 1) n := by
  rw [pages, List.range'_succ, List.map_cons, ← cons_coe, ← singleton_add]
  rfl

theorem pages_snoc : pages f k₀ (n + 1) = pages f k₀ n + {pte2pa (f (k₀ + n))} := by
  rw [pages, List.range'_1_concat, List.map_append, ← coe_add]
  rfl

theorem pages_congr (h : ∀ k, k₀ ≤ k → k < k₀ + n → f k = g k) : pages f k₀ n = pages g k₀ n := by
  refine congrArg ofList (List.map_congr_left fun k hk => ?_)
  rw [List.mem_range'_1] at hk
  rw [h k hk.1 hk.2]

theorem pages_append {a b : Nat} : pages f k₀ (a + b) = pages f k₀ a + pages f (k₀ + a) b := by
  rw [pages, ← List.range'_append_1, List.map_append, ← coe_add]
  rfl

theorem mem_pages : x ∈ pages f k₀ n ↔ ∃ k, k₀ ≤ k ∧ k < k₀ + n ∧ pte2pa (f k) = x := by
  simp [pages, List.mem_range'_1, and_assoc]

@[simp] theorem card_pages : (pages f k₀ n).card = n := by simp [pages]

end Pages

/-! ## uvmunmap -/

section Unmap

variable {L : Layout} {T : Multiset Nat} {root : Nat}

/-- What `uvmunmap` and `kfree` check of the entries of a range. -/
def Unmappable (L : Layout) (f : Nat → Nat) (doFree : Bool) (k₀ n : Nat) : Prop :=
  ∀ j, k₀ ≤ j → j < k₀ + n → j < 2 ^ 26 ∧ Leaf (f j) ∧ (doFree = true → L.IsPage (pte2pa (f j)))

theorem wpe_unmapLoop {doFree : Bool} {n : Nat} : ∀ {k₀ : Nat} {f : Nat → Nat} {k : Kmem} {P : Multiset Nat},
    P.Nodup → Table k.mem root T f → ↑k.freelist + T + (if doFree then pages f k₀ n else 0) = P →
    wpe (fun _ => ¬ Unmappable L f doFree k₀ n) (unmapLoop L root doFree n (k₀ * PGSIZE)) (fun _ k' =>
      Unmappable L f doFree k₀ n ∧ ↑k'.freelist + T = P ∧
      Table k'.mem root T (fun j => if k₀ ≤ j ∧ j < k₀ + n then 0 else f j) ∧ Frame P k.mem k'.mem) k := by
  induction n with
  | zero =>
    intro k₀ f k P _ ht hsum
    refine wpe_pure.mpr ⟨fun j h1 h2 => absurd h1 (by omega), ?_,
      ht.ext fun j _ => (if_neg (by omega)).symm, Frame.refl⟩
    rw [← hsum]
    cases doFree <;> simp
  | succ n ih =>
    intro k₀ f k P hP ht hsum
    -- an entry that is refused
    have hbad : ¬ (k₀ < 2 ^ 26 ∧ Leaf (f k₀) ∧ (doFree = true → L.IsPage (pte2pa (f k₀)))) →
        ¬ Unmappable L f doFree k₀ (n + 1) :=
      fun hn hu => hn (hu k₀ (Nat.le_refl _) (by omega))
    simp only [unmapLoop, wpe_bind]
    by_cases hk : k₀ < 2 ^ 26
    swap
    · have hva : MAXVA ≤ k₀ * PGSIZE := by simp only [MAXVA, PGSIZE]; omega
      rw [walk, if_pos hva]
      exact wpe_throw.mpr (hbad fun h => hk h.1)
    refine wpe_of_wp (wp_walk_false ht hk (fun h0 => ?_) fun ref hs => ?_)
    · refine wpe_throw.mpr (hbad fun h => h.2.1.1 ?_)
      rw [h0]
      rfl
    simp only [wpe_bind]
    refine wpe_of_wp (wp_readPte.mpr ?_)
    rw [ht.slot_read (by omega) hs]
    split
    · rename_i hv
      exact wpe_throw.mpr (hbad fun h => h.2.1.1 hv)
    split
    · rename_i hfl
      exact wpe_throw.mpr (hbad fun h => h.2.1.2 hfl)
    rename_i hv hfl
    -- the rest of the loop, from any state in which the first page is free
    have hrest : ∀ k1 : Kmem, ↑k1.freelist + T + (if doFree then pages f (k₀ + 1) n else 0) = P →
        (∀ x ∈ T, k1.mem x = k.mem x) → Frame P k.mem k1.mem →
        (doFree = true → L.IsPage (pte2pa (f k₀))) →
        wpe (fun _ => ¬ Unmappable L f doFree k₀ (n + 1))
          (unmapLoop L root doFree n (k₀ * PGSIZE + PGSIZE)) (fun _ k' =>
            Unmappable L f doFree k₀ (n + 1) ∧ ↑k'.freelist + T = P ∧
            Table k'.mem root T (fun j => if k₀ ≤ j ∧ j < k₀ + (n + 1) then 0 else f j) ∧
            Frame P k.mem k'.mem)
          { k1 with mem := update k1.mem ref.1 (putLE (k1.mem ref.1) (8 * ref.2) 8 0) } := by
      intro k1 hsum1 hT hfr hpage
      have ht1 := ht.congr hT
      have hs1 := ht.slot_congr hT hs
      have hu : pages (update f k₀ 0) (k₀ + 1) n = pages f (k₀ + 1) n :=
        pages_congr fun j hj _ => update_of_ne (by omega) _ _
      have hun : Unmappable L (update f k₀ 0) doFree (k₀ + 1) n ↔
          Unmappable L f doFree k₀ (n + 1) := by
        constructor
        · intro h j h1 h2
          by_cases hj : j = k₀
          · subst hj
            exact ⟨hk, ⟨hv, hfl⟩, hpage⟩
          · have := h j (by omega) (by omega)
            rwa [update_of_ne hj] at this
        · intro h j h1 h2
          rw [update_of_ne (by omega)]
          exact h j (by omega) (by omega)
      have hsum2 : ↑k1.freelist + T +
          (if doFree then pages (update f k₀ 0) (k₀ + 1) n else 0) = P := by rw [hu]; exact hsum1
      have hstep := ih (k := { k1 with mem := _ }) hP (ht1.store (v := 0) (by omega) hs1 (by decide)) hsum2
      simp only [hun] at hstep
      rw [← Nat.succ_mul]
      refine wpe_mono hstep ?_
      rintro _ k' ⟨h0, h1, h2, h3⟩
      refine ⟨h0, h1, h2.ext fun j _ => ?_, (hfr.trans (Frame.update ?_)).trans h3⟩
      · by_cases hj : j = k₀
        · rw [if_neg (by omega), if_pos (by omega), hj, update_self]
        · rw [update_of_ne hj]
          exact if_congr (by omega) rfl rfl
      · rw [← h1]
        exact mem_add.mpr (.inr (ht1.slot_mem hs1))
    rw [wpe_bind]
    cases doFree with
    | false =>
      refine wpe_doIf (by simp) fun _ => ?_
      rw [wpe_bind]
      exact wpe_of_wp (wp_writePte.mpr (hrest k hsum (fun _ _ => rfl) Frame.refl (by simp)))
    | true =>
      rw [if_pos rfl, pages_cons] at hsum
      have hx : pte2pa (f k₀) ∈ P := by
        rw [← hsum]
        simp
      have hxT : pte2pa (f k₀) ∉ T := by
        rw [← hsum, add_comm, add_assoc] at hP
        intro h
        refine notMem_of_nodup_add (S := {pte2pa (f k₀)}) hP ?_ (mem_singleton_self _)
        simp [h]
      refine wpe_doIf (fun _ => ?_) fun h => absurd rfl h
      by_cases hpage : L.IsPage (pte2pa (f k₀))
      · refine wpe_of_wp ((wp_kfree hpage).mpr ?_)
        rw [wpe_bind]
        refine wpe_of_wp (wp_writePte.mpr (hrest { k with
          mem := update k.mem (pte2pa (f k₀)) fun _ => 1
          freelist := pte2pa (f k₀) :: k.freelist } ?_ (fun x hxt => ?_) (Frame.update hx) fun _ => hpage))
        · rw [if_pos rfl, ← hsum, ← cons_coe, ← singleton_add]
          abel
        · exact update_of_ne (fun h : x = pte2pa (f k₀) => hxT (h ▸ hxt)) _ _
      · have hcheck : pte2pa (f k₀) % PGSIZE ≠ 0 ∨ pte2pa (f k₀) < L.kernelEnd ∨ PHYSTOP ≤ pte2pa (f k₀) := by
          simp only [Layout.IsPage] at hpage
          omega
        rw [kfree, if_pos hcheck]
        exact wpe_throw.mpr (hbad fun h => hpage (h.2.2 rfl))

theorem wp_uvmunmap {doFree : Bool} {n k₀ : Nat} {f : Nat → Nat} {k : Kmem} {P : Multiset Nat}
    (hP : Arena L P) (ht : Table k.mem root T f) (hk : k₀ + n ≤ 2 ^ 26)
    (hleaf : ∀ j, k₀ ≤ j → j < k₀ + n → Leaf (f j))
    (hsum : ↑k.freelist + T + (if doFree then pages f k₀ n else 0) = P) :
    wp (uvmunmap L root (k₀ * PGSIZE) n doFree) (fun _ k' => ↑k'.freelist + T = P ∧
      Table k'.mem root T (fun j => if k₀ ≤ j ∧ j < k₀ + n then 0 else f j) ∧ Frame P k.mem k'.mem) k := by
  have hun : Unmappable L f doFree k₀ n := by
    refine fun j h1 h2 => ⟨by omega, hleaf j h1 h2, ?_⟩
    rintro rfl
    refine hP.page _ ?_
    rw [← hsum, if_pos rfl]
    exact mem_add.mpr (.inr (mem_pages.mpr ⟨j, h1, h2, rfl⟩))
  rw [uvmunmap, if_neg (by simp)]
  exact wp_mono (wp_of_wpe (wpe_unmapLoop hP.nodup ht hsum) fun _ h => h hun) fun _ _ h => h.2

end Unmap

/-! ## freewalk -/

section Freewalk

variable {L : Layout} {a level : Nat}

def Bare (mem : Nat → Page) (level a : Nat) : Prop :=
  Radix.Wf child 0 (word mem) level a ∧ ∀ p, lookup child 0 (word mem) p level a = 0

theorem Bare.congr {mem mem' : Nat → Page} (h : Bare mem level a)
    (hm : ∀ x ∈ nodes child (word mem) level a, word mem' x = word mem x) : Bare mem' level a :=
  ⟨h.1.congr hm, fun p => (lookup_congr hm).trans (h.2 p)⟩

theorem Bare.entry {mem : Nat → Page} (h : Bare mem (level + 1) a) (i : Fin 512) :
    (child (word mem a i)).elim (word mem a i = 0) (Bare mem level) := by
  have hw := wf_succ.mp h.1 i
  cases hc : child (word mem a i) with
  | none =>
    rw [hc, Option.elim_none] at hw
    rwa [Option.elim_none]
  | some c =>
    rw [hc] at hw
    refine ⟨hw, fun p => ?_⟩
    have hp := h.2 (update p (level + 1) i)
    rw [lookup_succ, update_self, hc, Option.elim_some] at hp
    have hpath : ∀ j ≤ level, p j = update p (level + 1) i j :=
      fun j hj => (update_of_ne (by omega) _ _).symm
    exact (lookup_path hpath).trans hp

def below (mem : Nat → Page) (level a : Nat) (i : Fin 512) : Multiset Nat :=
  (child (word mem a i)).elim 0 (nodes child (word mem) level)

theorem below_congr {mem mem' : Nat → Page} {i : Fin 512} (ha : word mem' a i = word mem a i)
    (hm : ∀ x ∈ below mem level a i, mem' x = mem x) : below mem' level a i = below mem level a i := by
  unfold below at hm ⊢
  rw [ha]
  cases hc : child (word mem a i) with
  | none => simp only [Option.elim_none]
  | some c =>
    rw [hc] at hm
    refine nodes_congr fun x hx => ?_
    funext j
    rw [word, hm x hx, word]

theorem wp_freeEntries {is : List (Fin 512)}
    (hfree : ∀ {k : Kmem} {c : Nat} {P : Multiset Nat}, Arena L P → Bare k.mem level c →
      ↑k.freelist + nodes child (word k.mem) level c = P →
      wp (freewalk L (level + 1) c) (fun _ k' => ↑k'.freelist = P ∧ Frame P k.mem k'.mem) k) :
    ∀ {k : Kmem} {P : Multiset Nat}, Arena L P → is.Nodup →
      (∀ i ∈ is, (child (word k.mem a i)).elim (word k.mem a i = 0) (Bare k.mem level)) →
      ↑k.freelist + {a} + (is.map (below k.mem level a)).sum = P → wp (freeEntries (freewalk L (level + 1)) a is)
        (fun _ k' => ↑k'.freelist + {a} = P ∧ Frame P k.mem k'.mem) k := by
  induction is with
  | nil =>
    intro k P _ _ _ hsum
    exact wp_pure.mpr ⟨by simpa using hsum, Frame.refl⟩
  | cons i is ih =>
    intro k P hP hnd hent hsum
    obtain ⟨hi, hnd⟩ := List.nodup_cons.mp hnd
    rw [List.map_cons, List.sum_cons] at hsum
    have hei := hent i List.mem_cons_self
    simp only [freeEntries, wp_bind, wp_readPte]
    cases hc : child (word k.mem a i) with
    | none =>
      rw [hc] at hei
      have h0 : word k.mem a i = 0 := hei
      have hv : word k.mem a i &&& PTE_V = 0 := by rw [h0]; rfl
      have hb : below k.mem level a i = 0 := by rw [below, hc]; rfl
      rw [if_neg (by simp [hv]), if_neg (by simp [hv])]
      refine ih hP hnd (fun j hj => hent j (List.mem_cons_of_mem i hj)) ?_
      rw [← hsum, hb, zero_add]
    | some c =>
      rw [hc, Option.elim_some] at hei
      obtain ⟨hv, hx, rfl⟩ := child_eq_some hc
      have hb : below k.mem level a i = nodes child (word k.mem) level (pte2pa (word k.mem a i)) := by
        rw [below, hc]
        rfl
      rw [hb] at hsum
      rw [if_pos ⟨hv, hx⟩, wp_bind]
      generalize hN : nodes child (word k.mem) level (pte2pa (word k.mem a i)) = N at hsum
      have hle : ↑k.freelist + N ≤ P := by
        rw [← hsum, add_assoc]
        refine add_le_add le_rfl ?_
        rw [add_left_comm]
        exact le_add_right _ _
      -- what the loop still has to free is not among the pages freed here
      have hdisj : ∀ x ∈ {a} + (is.map (below k.mem level a)).sum, x ∉ (↑k.freelist + N : Multiset Nat) := by
        intro x hx
        refine notMem_of_nodup_add (T := {a} + (is.map (below k.mem level a)).sum) ?_ hx
        refine (congrArg Multiset.Nodup ?_).mp hP.nodup
        rw [← hsum]
        abel
      refine wp_mono (hfree (hP.mono hle) hei (congrArg _ hN)) ?_
      rintro _ k1 ⟨hf1, hfr1⟩
      simp only [wp_bind, wp_writePte]
      generalize hk2 : ({ k1 with mem := _ } : Kmem) = k2
      have ha1 : k1.mem a = k.mem a := hfr1 a (hdisj a (by simp))
      have hword : word k2.mem = store (word k1.mem) a i 0 := by
        rw [← hk2]
        exact word_putLE (by decide)
      have hwa : ∀ j ∈ is, word k2.mem a j = word k.mem a j := by
        intro j hj
        rw [hword, store_other fun h : j = i => hi (h ▸ hj), word, ha1, word]
      have hna : ∀ j ∈ is, a ∉ below k.mem level a j := by
        intro j hj h
        refine notMem_of_nodup_add (S := {a}) (T := (is.map (below k.mem level a)).sum)
          (x := a) ?_ ?_ (mem_singleton_self a)
        · refine nodup_of_le ?_ hP.nodup
          rw [← hsum, add_assoc]
          refine le_trans ?_ (le_add_left _ _)
          exact add_le_add le_rfl (le_add_left _ _)
        · exact mem_of_le (List.single_le_sum (by simp) _ (List.mem_map_of_mem hj)) h
      have hwx : ∀ j ∈ is, ∀ x ∈ below k.mem level a j, k2.mem x = k.mem x := by
        intro j hj x hx
        have hxa : x ≠ a := fun h => hna j hj (h ▸ hx)
        have : x ∈ {a} + (is.map (below k.mem level a)).sum := by
          refine mem_add.mpr (.inr ?_)
          exact mem_of_le (List.single_le_sum (by simp) _ (List.mem_map_of_mem hj)) hx
        rw [← hk2]
        simp [hxa, hfr1 x (hdisj x this)]
      refine wp_mono (ih hP hnd (fun j hj => ?_) ?_) ?_
      · have hej := hent j (List.mem_cons_of_mem i hj)
        have hbj := hwx j hj
        rw [below] at hbj
        rw [hwa j hj]
        cases hd : child (word k.mem a j) with
        | none => simpa only [hd, Option.elim_none] using hej
        | some d =>
          rw [hd, Option.elim_some] at hej hbj
          exact hej.congr fun x hx => by funext m; rw [word, hbj x hx, word]
      · have hmap : is.map (below k2.mem level a) = is.map (below k.mem level a) :=
          List.map_congr_left fun j hj => below_congr (hwa j hj) (hwx j hj)
        rw [hmap, ← hk2]
        simp only [hf1]
        rw [← hsum]
        abel
      · rintro _ k' ⟨h1, h2⟩
        refine ⟨h1, Frame.trans ?_ h2⟩
        refine (hfr1.mono hle).trans ?_
        rw [← hk2]
        exact Frame.update (by rw [← hsum]; simp)

theorem wp_freewalk_level : ∀ {level c : Nat} {k : Kmem} {P : Multiset Nat}, Arena L P → Bare k.mem level c →
    ↑k.freelist + nodes child (word k.mem) level c = P →
    wp (freewalk L (level + 1) c) (fun _ k' => ↑k'.freelist = P ∧ Frame P k.mem k'.mem) k := by
  intro level
  induction level with
  | zero =>
    intro c k P hP hb hsum
    rw [nodes_zero] at hsum
    have hent : ∀ is : List (Fin 512), wp (freeEntries (freewalk L 0) c is) (fun _ k' => k' = k) k := by
      intro is
      induction is with
      | nil => exact wp_pure.mpr rfl
      | cons i is ih =>
        have h0 : word k.mem c i = 0 := by
          have := hb.2 fun _ => i
          rwa [lookup_zero] at this
        simp only [freeEntries, wp_bind, wp_readPte, h0, Nat.zero_and, ne_eq, not_true, false_and, if_false]
        exact ih
    rw [freewalk, wp_bind]
    refine wp_mono (hent _) ?_
    rintro _ _ rfl
    have hc : c ∈ P := by rw [← hsum]; simp
    rw [wp_kfree (hP.page c hc)]
    refine ⟨?_, Frame.update hc⟩
    rw [← hsum, ← cons_coe, ← singleton_add, add_comm]
  | succ level ih =>
    intro c k P hP hb hsum
    rw [nodes_succ] at hsum
    rw [freewalk, wp_bind]
    refine wp_mono (wp_freeEntries ih hP (List.nodup_finRange 512) (fun i _ => hb.entry i) ?_) ?_
    · rw [← hsum, ← singleton_add, add_assoc]
      congr 2
    · rintro _ k' ⟨h1, h2⟩
      have hc : c ∈ P := by rw [← h1]; simp
      rw [wp_kfree (hP.page c hc)]
      refine ⟨?_, h2.trans (Frame.update hc)⟩
      rw [← h1, ← cons_coe, ← singleton_add, add_comm]

theorem wp_freewalk {root : Nat} {T P : Multiset Nat} {f : Nat → Nat} {k : Kmem} (hP : Arena L P)
    (ht : Table k.mem root T f) (hf : ∀ j < 2 ^ 27, f j = 0) (hsum : ↑k.freelist + T = P) :
    wp (freewalk L 3 root) (fun _ k' => ↑k'.freelist = P ∧ Frame P k.mem k'.mem) k := by
  refine wp_freewalk_level hP ⟨ht.wf, fun p => ?_⟩ (by rw [ht.nodes]; exact hsum)
  obtain ⟨j, hj, hp⟩ := px_surj p
  rw [lookup_path hp, ht.map j hj, hf j hj]

end Freewalk

end Vm
end Xv6
