import Xv6.Vm.Map

/-!
# Xv6.Vm.Fork

`uvmcopy` copies an address space exactly and in isolation.

* `ForkReady`: the parent's address space and the child's empty one, with pages of their own.
* `uvmcopy_exact`: for every size, what is true when `uvmcopy` returns 0 and when it returns -1.
-/

namespace Xv6
namespace Vm

open Bytes Wp Multiset

/-- The parent's table `TO` maps the user pages `uO` and, at the top, `hiO`; the table `T` of the
child maps no user page. The pages are distinct, and what the parent maps is not for the child to take. -/
structure ForkReady (L : Layout) (k : Kmem) (old new : Nat) (TO T : Multiset Nat) (uO u : Nat → Nat)
    (nO : Nat) (hiO hi : Nat → Nat) : Prop where
  arena : Arena L (↑k.freelist + T + (TO + pages uO 0 nO))
  parent : Space k.mem old TO uO nO hiO
  child : Space k.mem new T u 0 hi
  top : ∀ i, hiO i &&& PTE_V ≠ 0 → pte2pa (hiO i) ∉ ↑k.freelist + T

section Fork

variable {L : Layout} {k : Kmem} {old new nO sz : Nat} {TO T : Multiset Nat} {uO u hiO hi : Nat → Nat}

section

variable (h : ForkReady L k old new TO T uO u nO hiO hi)
include h

theorem ForkReady.apart :
    ∀ x ∈ TO + pages uO 0 nO, x ∉ ↑k.freelist + T :=
  fun _ hx => notMem_of_nodup_add h.arena.nodup hx

theorem ForkReady.mapped_notMem {i : Nat}
    (hi' : splice uO nO hiO i &&& PTE_V ≠ 0) : pte2pa (splice uO nO hiO i) ∉ ↑k.freelist + T := by
  unfold splice at hi' ⊢
  split
  · rename_i hlt
    exact h.apart _ (mem_add.mpr (.inr (mem_pages.mpr ⟨i, Nat.zero_le i, by omega, rfl⟩)))
  · rename_i hge
    rw [if_neg hge] at hi'
    exact h.top i hi'

theorem ForkReady.wpe_uvmcopy (sz : Nat) :
    wpe (fun _ => nO < npages sz) (uvmcopy L old new sz) (fun res k' =>
      Copied (↑k.freelist + T) k k' new uO (npages sz) hi res ∧ (res = 0 → npages sz ≤ nO)) k := by
  have hcard := h.arena.card_le
  rw [card_add, card_add (s := TO), card_pages] at hcard
  exact Vm.wpe_uvmcopy sz (h.arena.mono (le_add_right _ _)) h.parent
    ⟨fun x hx => h.apart x (mem_add.mpr (.inl hx)), fun x hx => h.apart x (mem_add.mpr (.inr hx))⟩
    (by omega) h.child rfl

end

/-- What `uvmcopy` leaves, for every size. It returns whenever the parent has all the pages. The
parent's table and pages are as before. After 0, the child's pages have the parent's bytes and flags,
and are distinct from each other and from every page that the parent maps. After -1, the child has no
user page, and all pages that were free are free or part of its table. -/
theorem uvmcopy_exact (h : ForkReady L k old new TO T uO u nO hiO hi) (sz : Nat) :
    (npages sz ≤ nO → ∃ res k', uvmcopy L old new sz k = .ok (res, k')) ∧
    ∀ res k', uvmcopy L old new sz k = .ok (res, k') → (res = 0 ∨ res = -1) ∧ Space k'.mem old TO uO nO hiO ∧
      (∀ x ∈ TO + pages uO 0 nO, k'.mem x = k.mem x) ∧
      (res = 0 → npages sz ≤ nO ∧ ∃ T' u', Space k'.mem new T' u' (npages sz) hi ∧
        (∀ j < npages sz, k'.mem (pte2pa (u' j)) = k.mem (pte2pa (uO j)) ∧ pteFlags (u' j) = pteFlags (uO j)) ∧
        (pages u' 0 (npages sz)).Nodup ∧
        ∀ j < npages sz, ∀ i, splice uO nO hiO i &&& PTE_V ≠ 0 → pte2pa (u' j) ≠ pte2pa (splice uO nO hiO i)) ∧
      (res = -1 → ∃ T', Space k'.mem new T' u 0 hi ∧ (↑k'.freelist + T' : Multiset Nat) = ↑k.freelist + T) := by
  have hw := h.wpe_uvmcopy sz
  refine ⟨fun hsz => ?_, fun res k' he => ?_⟩
  · obtain ⟨res, k', he, -⟩ := wp_iff.mp (wp_of_wpe hw fun _ => by omega)
    exact ⟨res, k', he⟩
  obtain ⟨⟨hfr, hres⟩, hle⟩ := wpe_ok hw he
  have hsame : ∀ x ∈ TO + pages uO 0 nO, k'.mem x = k.mem x := fun x hx => hfr x (h.apart x hx)
  have hparent := h.parent.congr fun x hx => hsame x (mem_add.mpr (.inl hx))
  rcases hres with ⟨rfl, T', u', hsum, hs⟩ | ⟨rfl, T', u', hsum, hs, hpages⟩
  · exact ⟨.inr rfl, hparent, hsame, nofun, fun _ => ⟨T', hs.ext fun j hj => absurd hj (by omega), hsum⟩⟩
  · refine ⟨.inl rfl, hparent, hsame, fun _ => ⟨hle rfl, T', u', hs, hpages, ?_, ?_⟩, nofun⟩
    · have hnd := h.arena.nodup
      rw [← hsum] at hnd
      exact (nodup_add.mp (nodup_add.mp hnd).1).2.1
    · intro j hj i hi' heq
      refine h.mapped_notMem hi' (heq ▸ ?_)
      rw [← hsum]
      exact mem_add.mpr (.inr (mem_pages.mpr ⟨j, Nat.zero_le j, by omega, rfl⟩))

end Fork

/-! ## A parent with one page -/

section OnePage

def tenMem : Kmem where
  mem := fun _ _ => 0
  freelist := (List.range 10).map fun i => KERNBASE + 0x10000 + i * PGSIZE
  oracle := fun _ => true

theorem arena_tenMem : Arena smallLayout ↑tenMem.freelist := by
  refine ⟨coe_nodup.mpr (by decide), fun x hx => ?_⟩
  have : ∀ x ∈ tenMem.freelist, x % PGSIZE = 0 ∧ smallLayout.kernelEnd ≤ x ∧ x < PHYSTOP := by decide
  exact this x hx

/-- A table with one user page, and an empty one. -/
def forkSetup : K (Option Nat × Nat × Option Nat) := do
  let old ← uvmcreate
  let sz ← uvmalloc smallLayout (old.getD 0) 0 PGSIZE PTE_W
  let new ← uvmcreate
  pure (old, sz, new)

theorem forkReady_forkSetup : wpe (fun _ => True) forkSetup (fun r k => ∀ old new,
    r = (some old, PGSIZE, some new) → ∃ TO uO,
      ForkReady smallLayout k old new TO {new} uO (fun _ => 0) 1 (fun _ => 0) fun _ => 0) tenMem := by
  have hA := arena_tenMem
  generalize hP : (↑tenMem.freelist : Multiset Nat) = P at hA
  simp only [forkSetup, wpe_bind]
  refine wpe_of_wp (wp_mono (wp_uvmcreate hP) ?_)
  rintro (_ | old) k1 ⟨-, h1⟩
  · refine wpe_mono wpe_trivial fun _ _ _ => wpe_mono wpe_trivial fun _ _ _ => wpe_pure.mpr ?_
    rintro old new ⟨⟩
  obtain ⟨hsum1, ht1⟩ := h1
  have hs1 : Space k1.mem old {old} (fun _ => 0) (npages 0) fun _ => 0 :=
    ⟨ht1.ext fun j _ => by rw [splice, ite_self], fun j hj => absurd hj (Nat.not_lt_zero j),
      fun _ _ => rfl, Nat.zero_le _⟩
  have hcard := hA.card_le
  refine wpe_of_wp (wp_mono (wp_uvmalloc hA hs1 hsum1 (by rw [npages_zero]; omega) (by decide) (Nat.zero_le _)) ?_)
  rintro sz k2 ⟨-, ⟨rfl, -⟩ | ⟨-, TO, uO, hsum2, hs2, -⟩⟩
  · refine wpe_mono wpe_trivial fun _ _ _ => wpe_pure.mpr ?_
    rintro old new ⟨⟩
  refine wpe_of_wp (wp_mono (wp_uvmcreate rfl) ?_)
  rintro (_ | new) k3 ⟨hfr, h3⟩ <;> refine wpe_pure.mpr ?_ <;> rintro _ _ ⟨⟩
  obtain ⟨hsum3, ht3⟩ := h3
  have hsum : (↑k3.freelist + {new} + (TO + pages uO 0 1) : Multiset Nat) = P := by
    rw [hsum3, ← add_assoc]
    exact hsum2
  have harena : Arena smallLayout (↑k3.freelist + {new} + (TO + pages uO 0 1)) := hsum ▸ hA
  refine ⟨TO, uO, harena, hs2.congr fun x hx => hfr x fun hx' => ?_, ⟨ht3.ext fun j _ => ?_,
    fun j hj => absurd hj (Nat.not_lt_zero j), fun _ _ => rfl, Nat.zero_le _⟩, fun i h => absurd rfl h⟩
  · refine notMem_of_nodup_add harena.nodup (mem_add.mpr (.inl hx)) ?_
    rw [hsum3]
    exact hx'
  · rw [splice, ite_self]

theorem uvmcopy_exact_forkSetup : ∃ k k' old new, uvmcopy smallLayout old new PGSIZE k = .ok (0, k') ∧
      ∃ TO T' uO u', Space k'.mem old TO uO 1 (fun _ => 0) ∧ Space k'.mem new T' u' 1 (fun _ => 0) ∧
        k'.mem (pte2pa (u' 0)) = k.mem (pte2pa (uO 0)) ∧ pteFlags (u' 0) = pteFlags (uO 0) ∧
        pte2pa (u' 0) ≠ pte2pa (uO 0) := by
  obtain ⟨⟨_, _, _⟩, k, hset, old, rfl, new, rfl, rfl, k', he, -⟩ : ∃ r k, forkSetup tenMem = .ok (r, k) ∧
      ∃ old ∈ r.1, ∃ new ∈ r.2.2, r.2.1 = PGSIZE ∧ ∃ k', uvmcopy smallLayout old new PGSIZE k = .ok (0, k') ∧ True := by
    decide +kernel
  obtain ⟨TO, uO, h⟩ := wpe_ok forkReady_forkSetup hset old new rfl
  have hn : npages PGSIZE = 1 := by decide
  obtain ⟨-, hparent, -, hzero, -⟩ := (uvmcopy_exact h PGSIZE).2 0 k' he
  obtain ⟨-, T', u', hs, hsame, -, hne⟩ := hzero rfl
  rw [hn] at hs hsame hne
  refine ⟨k, k', old, new, he, TO, T', uO, u', hparent, hs, (hsame 0 (by decide)).1, (hsame 0 (by decide)).2, ?_⟩
  exact hne 0 (by decide) 0 (hparent.user 0 (by decide)).valid

end OnePage

end Vm
end Xv6
