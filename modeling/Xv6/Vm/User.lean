import Xv6.Vm.Space

/-!
# Xv6.Vm.User

The page table of a process, from `proc_pagetable` to `proc_freepagetable`, and the copies between
kernel and user memory.

* `wp_procPagetable`: an address space without user pages, or nothing at all.
* `wp_procFreepagetable`: all the pages of an address space are free afterwards.
* `wp_copyout`: only bytes of user pages in the given range change.
-/

namespace Xv6
namespace Vm

open Bytes Wp Function

/-- The entries that every process has at the top: the trapframe and the trampoline. -/
def topPtes (L : Layout) (tf k : Nat) : Nat :=
  if k = 2 ^ 26 - 2 then pa2pte tf ||| (PTE_R ||| PTE_W) ||| PTE_V
  else if k = 2 ^ 26 - 1 then pa2pte L.trampoline ||| (PTE_R ||| PTE_X) ||| PTE_V
  else 0

section Top

variable {L : Layout} {tf j : Nat}

theorem topPtes_low (h : j < 2 ^ 26 - 2) : topPtes L tf j = 0 := by
  rw [topPtes, if_neg (by omega), if_neg (by omega)]

theorem topPtes_user (j : Nat) : topPtes L tf j &&& PTE_U = 0 := by
  unfold topPtes
  split
  · rw [pte_and (by decide)]
    rfl
  · split
    · rw [pte_and (by decide)]
      rfl
    · rfl

theorem leaf_trapframe : Leaf (topPtes L tf (2 ^ 26 - 2)) := by
  rw [topPtes, if_pos rfl]
  exact (userPte_pte (by decide)).leaf

theorem leaf_trampoline : Leaf (topPtes L tf (2 ^ 26 - 1)) := by
  rw [topPtes, if_neg (by decide), if_pos rfl]
  exact (userPte_pte (by decide)).leaf

theorem trampoline_eq : TRAMPOLINE = (2 ^ 26 - 1) * PGSIZE := rfl

theorem trapframe_eq : TRAPFRAME = (2 ^ 26 - 2) * PGSIZE := rfl

theorem Layout.trampoline_lt (L : Layout) : L.trampoline < 2 ^ 56 :=
  Nat.lt_of_lt_of_le L.text (Nat.le_trans L.end_le (by decide))

end Top

/-! ## proc_freepagetable -/

section Procfree

variable {L : Layout} {root n tf : Nat} {T P : Multiset Nat} {u f : Nat → Nat} {k : Kmem}

theorem wp_uvmunmap_keep (k0 : Nat) (hP : Arena L P) (ht : Table k.mem root T f) (hk : k0 < 2 ^ 26)
    (hleaf : Leaf (f k0)) (hsum : ↑k.freelist + T = P) :
    wp (uvmunmap L root (k0 * PGSIZE) 1 false) (fun _ k' => ↑k'.freelist + T = P ∧
      Table k'.mem root T (update f k0 0) ∧ Frame P k.mem k'.mem) k := by
  refine wp_mono (wp_uvmunmap hP ht (by omega) ?_ ?_) ?_
  · intro j h1 h2
    rw [show j = k0 by omega]
    exact hleaf
  · simpa using hsum
  · rintro _ k' ⟨h1, h2, h3⟩
    refine ⟨h1, h2.ext fun j _ => ?_, h3⟩
    by_cases hj : j = k0
    · rw [if_pos (by omega), hj, update_self]
    · rw [if_neg (by omega), update_of_ne hj]

theorem wp_uvmfree {sz : Nat} (hP : Arena L P) (hs : Space k.mem root T u (npages sz) fun _ => 0)
    (hsum : ↑k.freelist + T + pages u 0 (npages sz) = P) :
    wp (uvmfree L root sz) (fun _ k' => ↑k'.freelist = P ∧ Frame P k.mem k'.mem) k := by
  have hle := hs.le
  have hsz : sz < 2 ^ 63 := by
    have h : sz ≤ npages sz * PGSIZE := le_npages_mul
    simp only [PGSIZE] at h
    omega
  have hwalk : ∀ {k1 : Kmem}, Space k1.mem root T u 0 (fun _ => 0) → ↑k1.freelist + T = P →
      Frame P k.mem k1.mem →
      wp (freewalk L 3 root) (fun _ k' => ↑k'.freelist = P ∧ Frame P k.mem k'.mem) k1 := by
    intro k1 hs1 hsum1 hfr
    refine wp_mono (wp_freewalk hP hs1.table (fun j _ => if_neg (by omega)) hsum1) ?_
    rintro _ k' ⟨h1, h2⟩
    exact ⟨h1, hfr.trans h2⟩
  rw [uvmfree, wp_bind, wp_doIf, pgRoundUp_eq hsz, Nat.mul_div_cancel _ (by decide)]
  refine ⟨fun _ => ?_, fun h => ?_⟩
  · refine wp_mono (wp_uvmunmap_all hP hs hsum) ?_
    rintro _ k1 ⟨h1, h2, h3⟩
    exact hwalk h2 h1 h3
  · have h0 : npages sz = 0 := by
      rw [show sz = 0 by omega]
      rfl
    rw [h0] at hs hsum
    exact hwalk hs (by simpa using hsum) Frame.refl

theorem update_top (h : n ≤ 2 ^ 26 - 2) (j : Nat) :
    update (update (splice u n (topPtes L tf)) (2 ^ 26 - 1) 0) (2 ^ 26 - 2) 0 j =
      splice u n (fun _ => 0) j := by
  by_cases h1 : j = 2 ^ 26 - 2
  · rw [h1, update_self, splice, if_neg (by omega)]
  · by_cases h2 : j = 2 ^ 26 - 1
    · rw [update_of_ne h1, h2, update_self, splice, if_neg (by omega)]
    · rw [update_of_ne h1, update_of_ne h2, splice, splice, topPtes, if_neg h1, if_neg h2]

theorem wp_procFreepagetable {sz : Nat} (hP : Arena L P) (hs : Space k.mem root T u (npages sz) (topPtes L tf))
    (hsum : ↑k.freelist + T + pages u 0 (npages sz) = P) :
    wp (procFreepagetable L root sz) (fun _ k' => ↑k'.freelist = P ∧ Frame P k.mem k'.mem) k := by
  have hle := hs.le
  have hP' : Arena L (↑k.freelist + T) := hP.mono (by rw [← hsum]; exact Multiset.le_add_right _ _)
  have hfr' : ∀ {m m' : Nat → Page}, Frame (↑k.freelist + T) m m' → Frame P m m' :=
    fun h => h.mono (by rw [← hsum]; exact Multiset.le_add_right _ _)
  have htramp : splice u (npages sz) (topPtes L tf) (2 ^ 26 - 1) = topPtes L tf (2 ^ 26 - 1) :=
    if_neg (by omega)
  have htf : splice u (npages sz) (topPtes L tf) (2 ^ 26 - 2) = topPtes L tf (2 ^ 26 - 2) :=
    if_neg (by omega)
  rw [procFreepagetable, wp_bind]
  refine wp_mono (wp_uvmunmap_keep (2 ^ 26 - 1) hP' hs.table (by decide) ?_ rfl) ?_
  · rw [htramp]
    exact leaf_trampoline
  rintro _ k1 ⟨hsum1, ht1, hfr1⟩
  rw [wp_bind]
  refine wp_mono (wp_uvmunmap_keep (2 ^ 26 - 2) hP' ht1 (by decide) ?_ hsum1) ?_
  · rw [update_of_ne (by decide), htf]
    exact leaf_trapframe
  rintro _ k2 ⟨hsum2, ht2, hfr2⟩
  have hs2 : Space k2.mem root T u (npages sz) fun _ => 0 :=
    ⟨ht2.ext fun j _ => update_top hle j, hs.user, fun _ _ => rfl, hle⟩
  refine wp_mono (wp_uvmfree hP hs2 (by rw [hsum2]; exact hsum)) ?_
  rintro _ k' ⟨h1, h2⟩
  exact ⟨h1, ((hfr' hfr1).trans (hfr' hfr2)).trans h2⟩

end Procfree

/-! ## proc_pagetable -/

section Procpagetable

variable {L : Layout} {root tf : Nat} {T P : Multiset Nat} {f : Nat → Nat} {k : Kmem}

theorem update_topPtes (j : Nat) :
    update (update (fun _ => 0) (2 ^ 26 - 1) (pa2pte L.trampoline ||| (PTE_R ||| PTE_X) ||| PTE_V))
      (2 ^ 26 - 2) (pa2pte tf ||| (PTE_R ||| PTE_W) ||| PTE_V) j = splice (fun _ => 0) 0 (topPtes L tf) j := by
  rw [splice, if_neg (Nat.not_lt_zero j), topPtes]
  by_cases h1 : j = 2 ^ 26 - 2
  · rw [h1, update_self, if_pos rfl]
  · rw [update_of_ne h1, if_neg h1]
    by_cases h2 : j = 2 ^ 26 - 1
    · rw [h2, update_self, if_pos rfl]
    · rw [update_of_ne h2, if_neg h2]

theorem wp_uvmfree_empty (hP : Arena L P) (ht : Table k.mem root T f) (hf : ∀ j < 2 ^ 27, f j = 0)
    (hsum : ↑k.freelist + T = P) : wp (uvmfree L root 0) (fun _ k' => ↑k'.freelist = P ∧ Frame P k.mem k'.mem) k := by
  have hs : Space k.mem root T (fun _ => 0) (npages 0) fun _ => 0 :=
    ⟨ht.ext fun j hj => by rw [hf j hj, splice, ite_self], fun j hj => absurd hj (Nat.not_lt_zero j),
      fun _ _ => rfl, Nat.zero_le _⟩
  exact wp_uvmfree hP hs (by simpa using hsum)

theorem wp_uvmcreate (hsum : ↑k.freelist = P) :
    wp uvmcreate (fun r k' => Frame P k.mem k'.mem ∧ match r with
      | none => ↑k'.freelist = P
      | some root => ↑k'.freelist + {root} = P ∧ Table k'.mem root {root} fun _ => 0) k := by
  simp only [uvmcreate, wp_bind]
  refine wp_kalloc ?_ ?_
  · intro k1 hm hf
    simp only [wp_pure]
    exact ⟨by rw [hm]; exact Frame.refl, by rw [hf]; exact hsum⟩
  intro root rest k1 hfree hrest hm
  simp only [wp_bind, wp_memset, wp_pure]
  rw [hfree, coe_cons_add] at hsum
  have hroot : root ∈ P := by rw [← hsum]; simp
  have hz : ∀ i, word (update k1.mem root fun _ => 0) root i = 0 := word_zero
  refine ⟨fun x hx => ?_, ?_, Radix.Wf.empty child_zero hz, Radix.nodes_empty child_zero hz,
    Multiset.nodup_singleton root, fun _ _ => Radix.lookup_empty child_zero hz⟩
  · have hxr : x ≠ root := fun h => hx (h ▸ hroot)
    simp [hxr, hm]
  · rw [← hsum, add_comm]
    exact congrArg _ (congrArg _ hrest)

def Created (L : Layout) (P : Multiset Nat) (k k' : Kmem) (tf : Nat) : Option Nat → Prop
  | none => ↑k'.freelist = P ∧ Frame P k.mem k'.mem
  | some root => (∃ T, ↑k'.freelist + T = P ∧ Space k'.mem root T (fun _ => 0) 0 (topPtes L tf)) ∧
      Frame P k.mem k'.mem

theorem wp_procPagetable (hP : Arena L P) (hsum : ↑k.freelist = P) (htf : tf < 2 ^ 56) :
    wp (procPagetable L tf) (fun r k' => Created L P k k' tf r) k := by
  simp only [procPagetable, wp_bind]
  refine wp_mono (wp_uvmcreate hsum) ?_
  rintro (_ | root) k2 ⟨hfr2, hr⟩
  · exact wp_pure.mpr ⟨hr, hfr2⟩
  obtain ⟨hsum2, ht2⟩ := hr
  simp only [wp_bind]
  rw [trampoline_eq, trapframe_eq]
  refine wp_mono (wp_mappages_page hP ht2 (by decide) hsum2 (Nat.zero_and _) L.trampoline_lt (by decide)) ?_
  rintro r k3 (⟨rfl, T3, hsum3, ht3, hfr3⟩ | ⟨rfl, T3, hsum3, ht3, hfr3⟩)
  · simp only [Int.lt_irrefl, if_false, wp_bind]
    have hfree3 : update (fun _ => 0) (2 ^ 26 - 1)
        (pa2pte L.trampoline ||| (PTE_R ||| PTE_X) ||| PTE_V) (2 ^ 26 - 2) &&& PTE_V = 0 := by
      rw [update_of_ne (by decide)]
      rfl
    refine wp_mono (wp_mappages_page hP ht3 (by decide) hsum3 hfree3 htf (by decide)) ?_
    rintro r k4 (⟨rfl, T4, hsum4, ht4, hfr4⟩ | ⟨rfl, T4, hsum4, ht4, hfr4⟩)
    · simp only [Int.lt_irrefl, if_false, wp_pure]
      refine ⟨⟨T4, hsum4, ⟨ht4.ext fun j _ => update_topPtes j, fun j hj => absurd hj (Nat.not_lt_zero j),
        fun j hj => topPtes_low hj, Nat.zero_le _⟩⟩, (hfr2.trans hfr3).trans hfr4⟩
    · simp only [Int.reduceNeg, Int.neg_neg_iff_pos, Int.one_pos, if_true, wp_bind]
      refine wp_mono (wp_uvmunmap_keep (2 ^ 26 - 1) hP ht4 (by decide) ?_ hsum4) ?_
      · rw [update_self]
        exact (userPte_pte (by decide)).leaf
      rintro _ k5 ⟨hsum5, ht5, hfr5⟩
      refine wp_mono (wp_uvmfree_empty hP ht5 (fun j _ => ?_) hsum5) ?_
      · rw [update_idem, update_eq_self_iff.mpr rfl]
      rintro _ k' ⟨h1, h2⟩
      exact wp_pure.mpr ⟨h1, (((hfr2.trans hfr3).trans hfr4).trans hfr5).trans h2⟩
  · simp only [Int.reduceNeg, Int.neg_neg_iff_pos, Int.one_pos, if_true, wp_bind]
    refine wp_mono (wp_uvmfree_empty hP ht3 (fun _ _ => rfl) hsum3) ?_
    rintro _ k' ⟨h1, h2⟩
    exact wp_pure.mpr ⟨h1, (hfr2.trans hfr3).trans h2⟩

end Procpagetable

/-! ## Copies -/

section Copies

variable {L : Layout} {root n : Nat} {T : Multiset Nat} {u hi : Nat → Nat} {k : Kmem}
variable {j fuel : Nat} {S : Nat → Prop} {k' : Kmem}

theorem wp_walkaddr {Q : Nat → Kmem → Prop} (hs : Space k.mem root T u n hi)
    (hU : ∀ j, hi j &&& PTE_U = 0) (h0 : Q 0 k)
    (h1 : j < n → u j &&& PTE_U ≠ 0 → Q (pte2pa (u j)) k) : wp (walkaddr root (j * PGSIZE)) Q k := by
  have hle := hs.le
  rw [walkaddr, wp_ite]
  refine ⟨fun _ => wp_pure.mpr h0, fun hj => ?_⟩
  have hj : j < 2 ^ 26 := by simp only [MAXVA, PGSIZE] at hj; omega
  rw [wp_bind]
  refine wp_walk_false hs.table hj (fun _ => wp_pure.mpr h0) fun ref href => ?_
  simp only [wp_bind, wp_readPte, hs.table.slot_read (by omega) href, wp_ite, wp_pure]
  refine ⟨fun _ => h0, fun _ => ⟨fun _ => h0, fun hu => ?_⟩⟩
  unfold splice at hu ⊢
  split at hu
  · rename_i hjn
    rw [if_pos hjn]
    exact h1 hjn hu
  · exact absurd (hU j) hu

theorem wp_walkaddr_user {Q : Nat → Kmem → Prop} (hs : Space k.mem root T u n hi) (hj : j < n)
    (hu : u j &&& PTE_U ≠ 0) (h : Q (pte2pa (u j)) k) : wp (walkaddr root (j * PGSIZE)) Q k := by
  have hle := hs.le
  have hval : splice u n hi j = u j := if_pos hj
  have hv := (hs.user j hj).valid
  have hlt : ¬ MAXVA ≤ j * PGSIZE := by
    simp only [MAXVA, PGSIZE]
    omega
  rw [walkaddr, if_neg hlt, wp_bind]
  refine wp_walk_false hs.table (by omega) (fun h0 => ?_) fun ref href => ?_
  · rw [hval] at h0
    exact absurd (by rw [h0]; rfl) hv
  · simp only [wp_bind, wp_readPte, hs.table.slot_read (by omega) href, hval, hv, hu, if_false, wp_pure]
    exact h

def userByte (mem : Nat → Page) (u : Nat → Nat) (a : Nat) : UInt8 :=
  byte (mem (pte2pa (u (a / PGSIZE)))) (a % PGSIZE)

/-- Only bytes of user pages change, and among those that the process sees only those at addresses
in `S`. -/
structure Written (k k' : Kmem) (u : Nat → Nat) (n : Nat) (S : Nat → Prop) : Prop where
  free : k'.freelist = k.freelist
  frame : Frame (pages u 0 n) k.mem k'.mem
  byte : ∀ a < n * PGSIZE, ¬ S a → userByte k'.mem u a = userByte k.mem u a

theorem Written.refl : Written k k u n S := ⟨rfl, Frame.refl, fun _ _ _ => rfl⟩

theorem Written.trans {k'' : Kmem} (h : Written k k' u n S) (h' : Written k' k'' u n S) : Written k k'' u n S :=
  ⟨h'.free.trans h.free, h.frame.trans h'.frame, fun a ha hS => (h'.byte a ha hS).trans (h.byte a ha hS)⟩

theorem Written.mono {S' : Nat → Prop} (h : Written k k' u n S) (hS : ∀ a, S a → S' a) : Written k k' u n S' :=
  ⟨h.free, h.frame, fun a ha ha' => h.byte a ha fun hs => ha' (hS a hs)⟩

theorem Written.space (h : Written k k' u n S)
    (hs : Space k.mem root T u n hi) (hd : (T + pages u 0 n).Nodup) : Space k'.mem root T u n hi := by
  refine hs.congr fun x hx => h.frame x ?_
  rw [add_comm] at hd
  exact notMem_of_nodup_add hd hx

theorem written_memmove (off : Nat) (src : List UInt8) (hj : j < n) (hd : (pages u 0 n).Nodup) :
    Written k { k with mem := update k.mem (pte2pa (u j)) (putBytes (k.mem (pte2pa (u j))) off src) } u n
      (fun a => j * PGSIZE + off ≤ a ∧ a < j * PGSIZE + off + src.length) := by
  refine ⟨rfl, Frame.update (mem_pages.mpr ⟨j, Nat.zero_le j, by omega, rfl⟩), fun a ha hS => ?_⟩
  have hda := Nat.div_add_mod a PGSIZE
  simp only [userByte]
  by_cases haj : a / PGSIZE = j
  · rw [haj] at hda
    rw [haj, update_self]
    refine byte_putBytes_out ?_
    simp only [PGSIZE] at *
    omega
  · rw [update_of_ne]
    intro he
    refine haj ?_
    have hinj := List.inj_on_of_nodup_map (l := List.range' 0 n) (f := fun k => pte2pa (u k)) hd
    refine hinj ?_ ?_ he
    · rw [List.mem_range'_1]
      refine ⟨Nat.zero_le _, ?_⟩
      rw [Nat.zero_add]
      exact Nat.div_lt_of_lt_mul (by rw [Nat.mul_comm]; exact ha)
    · rw [List.mem_range'_1]
      omega

theorem next_page (h : j < 2 ^ 26) : (j * PGSIZE + PGSIZE) % 2 ^ 64 = (j + 1) * PGSIZE := by
  simp only [PGSIZE]
  omega

theorem wp_copyoutLoop (hU : ∀ j, hi j &&& PTE_U = 0) (hd : (T + pages u 0 n).Nodup) :
    ∀ {dstva : Nat} {src : List UInt8} {k : Kmem}, Space k.mem root T u n hi →
    wp (copyoutLoop root fuel dstva src) (fun res k' => (res = 0 ∨ res = -1) ∧
      Written k k' u n fun a => dstva ≤ a ∧ a < dstva + src.length) k := by
  have hdu := (Multiset.nodup_add.mp hd).2.1
  induction fuel with
  | zero =>
    intro dstva src k hs
    exact wp_pure.mpr ⟨.inl rfl, Written.refl⟩
  | succ fuel ih =>
    intro dstva src k hs
    rw [copyoutLoop, wp_ite]
    refine ⟨fun _ => wp_pure.mpr ⟨.inl rfl, Written.refl⟩, fun _ => ?_⟩
    rw [wp_bind, pgRoundDown]
    refine wp_walkaddr hs hU ?_ fun hj _ => ?_
    · rw [if_pos rfl]
      exact wp_pure.mpr ⟨.inr rfl, Written.refl⟩
    · rw [wp_ite]
      refine ⟨fun _ => wp_pure.mpr ⟨.inr rfl, Written.refl⟩, fun _ => ?_⟩
      rw [wp_bind, wp_memmove, next_page (by have := hs.le; omega)]
      have hw := written_memmove (k := k) (dstva % PGSIZE)
        (src.take (min (PGSIZE - dstva % PGSIZE) src.length)) hj hdu
      have hda := Nat.div_add_mod dstva PGSIZE
      have hlen : (src.take (min (PGSIZE - dstva % PGSIZE) src.length)).length ≤ src.length := by simp
      refine wp_mono (ih (hw.space hs hd)) ?_
      rintro res k' ⟨hres, hw'⟩
      refine ⟨hres, (hw.mono fun a ha => ?_).trans (hw'.mono fun a ha => ?_)⟩
      · simp only [PGSIZE] at *
        omega
      · rw [List.length_drop] at ha
        simp only [PGSIZE] at *
        omega

theorem wp_copyout {dstva : Nat} {src : List UInt8} (hU : ∀ j, hi j &&& PTE_U = 0)
    (hd : (T + pages u 0 n).Nodup) (hs : Space k.mem root T u n hi) :
    wp (copyout root dstva src) (fun res k' => (res = 0 ∨ res = -1) ∧
      Written k k' u n fun a => dstva ≤ a ∧ a < dstva + src.length) k :=
  wp_copyoutLoop hU hd hs

theorem wp_copyinLoop (hs : Space k.mem root T u n hi) (hU : ∀ j, hi j &&& PTE_U = 0) :
    ∀ {srcva len : Nat} {dst : List UInt8}, wp (copyinLoop root fuel srcva len dst) (fun _ k' => k' = k) k := by
  induction fuel with
  | zero => exact wp_pure.mpr rfl
  | succ fuel ih =>
    intro srcva len dst
    rw [copyinLoop, wp_ite]
    refine ⟨fun _ => wp_pure.mpr rfl, fun _ => ?_⟩
    rw [wp_bind, pgRoundDown]
    refine wp_walkaddr hs hU ?_ fun _ _ => ?_
    · rw [if_pos rfl]
      exact wp_pure.mpr rfl
    · simp only [wp_ite, wp_bind, wp_get]
      exact ⟨fun _ => wp_pure.mpr rfl, fun _ => ih⟩

theorem wp_copyinstrLoop (hs : Space k.mem root T u n hi) (hU : ∀ j, hi j &&& PTE_U = 0) :
    ∀ {srcva max : Nat} {dst : List UInt8}, wp (copyinstrLoop root fuel srcva max dst) (fun _ k' => k' = k) k := by
  induction fuel with
  | zero => exact wp_pure.mpr rfl
  | succ fuel ih =>
    intro srcva max dst
    rw [copyinstrLoop, wp_ite]
    refine ⟨fun _ => wp_pure.mpr rfl, fun _ => ?_⟩
    rw [wp_bind, pgRoundDown]
    refine wp_walkaddr hs hU ?_ fun _ _ => ?_
    · rw [if_pos rfl]
      exact wp_pure.mpr rfl
    · simp only [wp_ite, wp_bind, wp_get]
      refine ⟨fun _ => wp_pure.mpr rfl, fun _ => ?_⟩
      split
      · exact wp_pure.mpr rfl
      · exact ih

end Copies

/-! ## uvmclear -/

section Clear

variable {root n j : Nat} {T : Multiset Nat} {u hi : Nat → Nat} {k : Kmem}

def clearUser (pte : Nat) : Nat := pte &&& (2 ^ 64 - 1 - PTE_U)

theorem pte2pa_clearUser {pte : Nat} (h : pte < 2 ^ 64) : pte2pa (clearUser pte) = pte2pa pte := by
  have hm : (2 ^ 64 - 1 - PTE_U) >>> 10 = 2 ^ 54 - 1 := by decide
  rw [pte2pa, clearUser, Nat.shiftRight_and_distrib, hm,
    Nat.and_two_pow_sub_one_of_lt_two_pow (by rw [Nat.shiftRight_eq_div_pow]; omega), pte2pa]

theorem UserPte.clearUser {pte : Nat} (h : UserPte pte) : UserPte (clearUser pte) := by
  refine ⟨?_, ?_⟩
  · rw [Vm.clearUser, Nat.and_assoc]
    exact h.valid
  · rw [Vm.clearUser, Nat.and_assoc]
    exact h.readable

section

variable (hs : Space k.mem root T u n hi) (hj : j < n)
include hs hj

theorem Space.pte_lt : u j < 2 ^ 64 := by
  have hle := hs.le
  have hv := hs.user j hj
  have hm := hs.table.map j (by omega)
  rw [splice, if_pos hj, Radix.lookup_eq_slot] at hm
  cases hsl : Radix.slot child (word k.mem) (px (j * PGSIZE)) 2 root with
  | none =>
    rw [hsl, Option.elim_none] at hm
    rw [← hm]
    decide
  | some ref =>
    rw [hsl, Option.elim_some, word] at hm
    rw [← hm]
    exact getLE_lt _ _ _

theorem wp_uvmclear :
    wp (uvmclear root (j * PGSIZE)) (fun _ k' => k'.freelist = k.freelist ∧
      Space k'.mem root T (update u j (clearUser (u j))) n hi ∧ Frame T k.mem k'.mem) k := by
  have hle := hs.le
  have hval : splice u n hi j = u j := if_pos hj
  have hlt : clearUser (u j) < 2 ^ 64 := Nat.lt_of_le_of_lt Nat.and_le_right (by decide)
  rw [uvmclear, wp_bind]
  refine wp_walk_false hs.table (by omega) (fun h0 => ?_) fun ref href => ?_
  · rw [hval] at h0
    exact absurd (by rw [h0]; rfl) (hs.user j hj).valid
  · simp only [wp_bind, wp_readPte, hs.table.slot_read (by omega) href, hval, wp_writePte]
    refine ⟨trivial, ⟨(hs.table.store (by omega) href hlt).ext fun i _ => ?_, fun i hi => ?_, hs.low, hs.le⟩,
      Frame.update (hs.table.slot_mem href)⟩
    · unfold splice
      by_cases hi : i = j
      · rw [hi, update_self, update_self, if_pos hj]
      · rw [update_of_ne hi, update_of_ne hi]
    · by_cases hi' : i = j
      · rw [hi', update_self]
        exact (hs.user j hj).clearUser
      · rw [update_of_ne hi']
        exact hs.user i hi

theorem pages_clearUser :
    pages (update u j (clearUser (u j))) 0 n = pages u 0 n := by
  refine congrArg Multiset.ofList (List.map_congr_left fun i _ => ?_)
  by_cases hi : i = j
  · rw [hi, update_self, pte2pa_clearUser (hs.pte_lt hj)]
  · rw [update_of_ne hi]

end

end Clear

end Vm
end Xv6
