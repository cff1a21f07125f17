import Xv6.Vm.Free

/-!
# Xv6.Vm.Space

The address space of a process: user pages from address 0 on, and some pages at the top.
-/

namespace Xv6
namespace Vm

open Bytes Wp Function Multiset

def npages (sz : Nat) : Nat := (sz + PGSIZE - 1) / PGSIZE

section Npages

variable {sz sz' n : Nat}

@[simp] theorem npages_zero : npages 0 = 0 := rfl

theorem npages_mul : npages (n * PGSIZE) = n := by
  simp only [npages, PGSIZE]
  omega

theorem npages_mono (h : sz ≤ sz') : npages sz ≤ npages sz' := by
  simp only [npages, PGSIZE]
  omega

theorem le_npages_mul : sz ≤ npages sz * PGSIZE := by
  simp only [npages, PGSIZE]
  omega

theorem pgRoundUp_eq (h : sz < 2 ^ 63) : pgRoundUp sz = npages sz * PGSIZE := by
  simp only [pgRoundUp, npages, PGSIZE]
  omega

end Npages

/-- The entries `u` for the first `n` pages, and `hi` above. -/
def splice (u : Nat → Nat) (n : Nat) (hi : Nat → Nat) (k : Nat) : Nat := if k < n then u k else hi k

theorem splice_snoc {u hi : Nat → Nat} {n pte : Nat} :
    splice (update u n pte) (n + 1) hi = update (splice u n hi) n pte := by
  funext k
  by_cases hk : k = n
  · subst hk
    simp [splice]
  · have : k < n + 1 ↔ k < n := by omega
    simp [splice, hk, this]

structure UserPte (pte : Nat) : Prop where
  valid : pte &&& PTE_V ≠ 0
  readable : pte &&& PTE_R ≠ 0

theorem UserPte.leaf {pte : Nat} (h : UserPte pte) : Leaf pte := by
  refine ⟨h.valid, fun hf => h.readable ?_⟩
  have : pte &&& 0x3FF &&& PTE_R = pte &&& PTE_R := by rw [Nat.and_assoc]; rfl
  rw [← this, ← pteFlags, hf]
  rfl

/-- The table `T` maps user pages `u` below page number `n`; above, its entries are `hi`, which has
none below the trapframe page. -/
structure Space (mem : Nat → Page) (root : Nat) (T : Multiset Nat) (u : Nat → Nat) (n : Nat)
    (hi : Nat → Nat) : Prop where
  table : Table mem root T (splice u n hi)
  user : ∀ k < n, UserPte (u k)
  low : ∀ k < 2 ^ 26 - 2, hi k = 0
  le : n ≤ 2 ^ 26 - 2

section Space

variable {L : Layout} {mem mem' : Nat → Page} {root n n' : Nat} {T P : Multiset Nat} {u hi : Nat → Nat}
  {k : Kmem}

theorem Space.congr (h : Space mem root T u n hi) (hm : ∀ x ∈ T, mem' x = mem x) : Space mem' root T u n hi :=
  ⟨h.table.congr hm, h.user, h.low, h.le⟩

theorem Space.ext {v : Nat → Nat} (h : Space mem root T u n hi) (hv : ∀ k < n, u k = v k) :
    Space mem root T v n hi := by
  refine ⟨h.table.ext fun k _ => ?_, fun k hk => hv k hk ▸ h.user k hk, h.low, h.le⟩
  unfold splice
  split
  · exact hv k ‹_›
  · rfl

theorem Space.shrink (h : Space mem root T u n hi) (hn : n' ≤ n)
    (ht : Table mem' root T fun j => if n' ≤ j ∧ j < n' + (n - n') then 0 else splice u n hi j) :
    Space mem' root T u n' hi := by
  have hle := h.le
  refine ⟨ht.ext fun j _ => ?_, fun j hj => h.user j (by omega), h.low, by omega⟩
  unfold splice
  by_cases h1 : j < n'
  · rw [if_neg (by omega), if_pos h1, if_pos (by omega)]
  · by_cases h2 : j < n
    · rw [if_pos (by omega), if_neg h1, h.low j (by omega)]
    · rw [if_neg (by omega), if_neg h1, if_neg h2]

theorem wp_uvmunmap_user (hP : Arena L P) (hs : Space k.mem root T u n hi) (hn : n' ≤ n)
    (hsum : ↑k.freelist + T + pages u n' (n - n') = P) :
    wp (uvmunmap L root (n' * PGSIZE) (n - n') true) (fun _ k' => ↑k'.freelist + T = P ∧
      Space k'.mem root T u n' hi ∧ Frame P k.mem k'.mem) k := by
  have hle := hs.le
  have hpages : pages (splice u n hi) n' (n - n') = pages u n' (n - n') :=
    pages_congr fun j _ hj => if_pos (by omega)
  refine wp_mono (wp_uvmunmap hP hs.table (by omega) ?_ ?_) ?_
  · intro j _ hj
    rw [splice, if_pos (by omega)]
    exact (hs.user j (by omega)).leaf
  · rw [if_pos rfl, hpages]
    exact hsum
  · rintro _ k' ⟨h1, h2, h3⟩
    exact ⟨h1, hs.shrink hn h2, h3⟩

theorem wp_uvmdealloc {oldsz newsz : Nat} (hP : Arena L P) (hs : Space k.mem root T u (npages oldsz) hi)
    (hlt : newsz < oldsz) (hsum : ↑k.freelist + T + pages u (npages newsz) (npages oldsz - npages newsz) = P) :
    wp (uvmdealloc L root oldsz newsz) (fun r k' => r = newsz ∧ ↑k'.freelist + T = P ∧
      Space k'.mem root T u (npages newsz) hi ∧ Frame P k.mem k'.mem) k := by
  have hle := hs.le
  have hold : oldsz ≤ npages oldsz * PGSIZE := le_npages_mul
  have hsz : oldsz < 2 ^ 63 := by simp only [PGSIZE] at hold; omega
  have hn := npages_mono (Nat.le_of_lt hlt)
  rw [uvmdealloc, if_neg (by omega), pgRoundUp_eq hsz, pgRoundUp_eq (by omega), ← Nat.sub_mul,
    Nat.mul_div_cancel _ (by decide), wp_bind, wp_doIf]
  refine ⟨fun _ => ?_, fun hz => ?_⟩
  · refine wp_mono (wp_uvmunmap_user hP hs hn hsum) ?_
    rintro _ k' ⟨h1, h2, h3⟩
    exact wp_pure.mpr ⟨rfl, h1, h2, h3⟩
  · have hz : npages newsz = npages oldsz := by simp only [PGSIZE] at hz; omega
    rw [hz, Nat.sub_self, pages_zero, add_zero] at hsum
    exact wp_pure.mpr ⟨rfl, hsum, by rw [hz]; exact hs, Frame.refl⟩

theorem wp_uvmdealloc_pages (hP : Arena L P) (hs : Space k.mem root T u n hi) (hn : n' ≤ n)
    (hsum : ↑k.freelist + T + pages u n' (n - n') = P) :
    wp (uvmdealloc L root (n * PGSIZE) (n' * PGSIZE)) (fun _ k' => ↑k'.freelist + T = P ∧
      Space k'.mem root T u n' hi ∧ Frame P k.mem k'.mem) k := by
  rcases Nat.lt_or_eq_of_le hn with hlt | rfl
  · refine wp_mono (wp_uvmdealloc hP (by rw [npages_mul]; exact hs) (Nat.mul_lt_mul_of_pos_right hlt (by decide))
      (by rw [npages_mul, npages_mul]; exact hsum)) ?_
    rintro r k' ⟨-, h1, h2, h3⟩
    exact ⟨h1, by rwa [npages_mul] at h2, h3⟩
  · rw [uvmdealloc, if_pos (Nat.le_refl _), wp_pure]
    rw [Nat.sub_self, pages_zero, add_zero] at hsum
    exact ⟨hsum, hs, Frame.refl⟩

end Space

/-! ## uvmalloc -/

section Alloc

variable {L : Layout} {root n r perm : Nat} {T P : Multiset Nat} {u hi : Nat → Nat} {k : Kmem}

theorem pteFlags_pte {pa : Nat} (hp : perm < 2 ^ 10) : pteFlags (pa2pte pa ||| perm ||| PTE_V) = perm ||| PTE_V := by
  rw [pteFlags, pte_and (by decide)]
  exact Nat.and_two_pow_sub_one_of_lt_two_pow (n := 10) (Nat.or_lt_two_pow hp (by decide))

theorem userPte_pte {pa : Nat} (hr : perm &&& PTE_R ≠ 0) : UserPte (pa2pte pa ||| perm ||| PTE_V) := by
  have h1 : (perm ||| PTE_V) &&& PTE_V = perm &&& PTE_V ||| PTE_V := Nat.and_or_distrib_right _ _ _
  have h2 : (perm ||| PTE_V) &&& PTE_R = perm &&& PTE_R := by
    rw [Nat.and_or_distrib_right]
    exact Nat.or_zero _
  refine ⟨?_, ?_⟩
  · rw [pte_and (by decide), h1]
    exact Nat.ne_of_gt (Nat.lt_of_lt_of_le (by decide) Nat.right_le_or)
  · rw [pte_and (by decide), h2]
    exact hr

theorem wp_mappages_user (hP : Arena L P) (hs : Space k.mem root T u n hi) (hn : n < 2 ^ 26 - 2)
    (hsum : ↑k.freelist + T = P) (hr : L.IsPage r) (hp : perm < 2 ^ 10) (hread : perm &&& PTE_R ≠ 0) :
    wp (mappages root (n * PGSIZE) PGSIZE r perm) (fun res k' => ∃ T', ↑k'.freelist + T' = P ∧ Frame P k.mem k'.mem ∧
      (res = 0 ∧ Space k'.mem root T' (update u n (pa2pte r ||| perm ||| PTE_V)) (n + 1) hi ∨
        res = -1 ∧ Space k'.mem root T' u n hi)) k := by
  have hfree : splice u n hi n &&& PTE_V = 0 := by
    rw [splice, if_neg (Nat.lt_irrefl n), hs.low n hn]
    rfl
  refine wp_mono (wp_mappages_page hP hs.table (by omega) hsum hfree hr.lt hp) ?_
  rintro res k' (⟨h0, T', h1, h2, h3⟩ | ⟨h0, T', h1, h2, h3⟩)
  · refine ⟨T', h1, h3, .inl ⟨h0, ⟨by rw [splice_snoc]; exact h2, fun j hj => ?_, hs.low, by omega⟩⟩⟩
    by_cases hj' : j = n
    · rw [hj', update_self]
      exact userPte_pte hread
    · rw [update_of_ne hj']
      exact hs.user j (by omega)
  · exact ⟨T', h1, h3, .inr ⟨h0, h2, hs.user, hs.low, hs.le⟩⟩

theorem coe_cons_add {x : Nat} {l : List Nat} : (↑(x :: l) : Multiset Nat) = {x} + ↑l := rfl

/-- A page from the free list is filled and mapped as the next user page. When `mappages` fails, it
is still there to be freed. The user pages from number `m` on count as taken before. -/
theorem wp_mappages_fresh {k1 k3 : Kmem} {m : Nat} {b : Page} {rest : List Nat} (hP : Arena L P)
    (hm : m ≤ n) (hn : n < 2 ^ 26 - 2) (hs : Space k1.mem root T u n hi)
    (hsum : ↑k1.freelist + T + pages u m (n - m) = P) (hfree : k1.freelist = r :: rest)
    (hrest : k3.freelist = rest) (hmem : k3.mem = update k1.mem r b)
    (hp : perm < 2 ^ 10) (hread : perm &&& PTE_R ≠ 0) :
    wp (mappages root (n * PGSIZE) PGSIZE r perm) (fun res k' => Frame P k1.mem k'.mem ∧
      k'.mem r = b ∧ (∀ x ∈ pages u m (n - m), k'.mem x = k1.mem x) ∧ L.IsPage r ∧ ∃ T',
      (res = 0 ∧ Space k'.mem root T' (update u n (pa2pte r ||| perm ||| PTE_V)) (n + 1) hi ∧
        ↑k'.freelist + T' + pages (update u n (pa2pte r ||| perm ||| PTE_V)) m (n + 1 - m) = P) ∨
      (res = -1 ∧ Space (update k'.mem r fun _ => 1) root T' u n hi ∧
        ↑(r :: k'.freelist) + T' + pages u m (n - m) = P ∧
        Frame P k1.mem (update k'.mem r fun _ => 1))) k3 := by
  rw [hfree, coe_cons_add] at hsum
  have hrP : r ∈ P := by rw [← hsum]; simp
  have hr := hP.page r hrP
  have hpool : ↑rest + T ≤ P := by
    rw [← hsum, add_assoc, add_assoc, ← add_assoc (↑rest : Multiset Nat)]
    exact le_trans (le_add_right _ (pages u m (n - m))) (le_add_left _ _)
  have hout : ∀ x ∈ {r} + pages u m (n - m), x ∉ ↑rest + T := by
    intro x hx
    refine notMem_of_nodup_add (T := {r} + pages u m (n - m)) ?_ hx
    refine (congrArg Multiset.Nodup ?_).mp hP.nodup
    rw [← hsum]
    abel
  have hne : ∀ x ∈ T + pages u m (n - m), x ≠ r := by
    rintro x hx rfl
    have hnd := hP.nodup
    rw [← hsum, add_assoc, add_assoc] at hnd
    refine notMem_of_nodup_add (S := {x}) hnd ?_ (mem_singleton_self x)
    exact mem_add.mpr (.inr hx)
  have hmem3 : ∀ x, x ≠ r → k3.mem x = k1.mem x := by
    intro x hx
    rw [hmem, update_of_ne hx]
  have hfr3 : Frame P k1.mem k3.mem := fun x hx => hmem3 x fun h => hx (h ▸ hrP)
  have hs3 := hs.congr fun x hx => hmem3 x (hne x (mem_add.mpr (.inl hx)))
  refine wp_mono (wp_mappages_user (hP.mono hpool) hs3 hn (by rw [hrest]) hr hp hread) ?_
  rintro res k' ⟨T', hsum', hfr', hres⟩
  have hfr := hfr3.trans (hfr'.mono hpool)
  refine ⟨hfr, ?_, fun x hx => ?_, hr, T', ?_⟩
  · rw [hfr' r (hout r (by simp)), hmem, update_self]
  · rw [hfr' x (hout x (mem_add.mpr (.inr hx))), hmem3 x (hne x (mem_add.mpr (.inr hx)))]
  · rcases hres with ⟨h0, hs'⟩ | ⟨h0, hs'⟩
    · refine .inl ⟨h0, hs', ?_⟩
      rw [show n + 1 - m = n - m + 1 by omega, pages_snoc, show m + (n - m) = n by omega,
        update_self, pte2pa_pte hr.1 hp,
        pages_congr fun j _ hj => update_of_ne (show j ≠ n by omega) _ _, ← add_assoc, hsum', ← hsum]
      abel
    · have hrT' : ∀ x ∈ T', x ≠ r := by
        rintro x hx rfl
        exact hout x (by simp) (by rw [← hsum']; simp [hx])
      refine .inr ⟨h0, hs'.congr fun x hx => update_of_ne (hrT' x hx) _ _, ?_,
        hfr.trans (Frame.update hrP)⟩
      rw [coe_cons_add, ← hsum, add_assoc {r} (↑k'.freelist : Multiset Nat), hsum']
      abel

def Fresh (mem : Nat → Page) (u : Nat → Nat) (a b flags : Nat) : Prop :=
  ∀ j, a ≤ j → j < b → mem (pte2pa (u j)) = (fun _ => 0) ∧ pteFlags (u j) = flags

/-- The address space after `uvmalloc`: as before but for pages of the table, or grown by fresh
pages. All pages come from the free list. -/
def Alloced (P : Multiset Nat) (k k' : Kmem) (root : Nat) (u : Nat → Nat) (n n' : Nat) (hi : Nat → Nat)
    (flags newsz res : Nat) : Prop :=
  Frame P k.mem k'.mem ∧
    ((res = 0 ∧ ∃ T', ↑k'.freelist + T' = P ∧ Space k'.mem root T' u n hi) ∨
      (res = newsz ∧ ∃ T' u', ↑k'.freelist + T' + pages u' n (n' - n) = P ∧
        Space k'.mem root T' u' n' hi ∧ (∀ j < n, u' j = u j) ∧ Fresh k'.mem u' n n' flags))

theorem wp_allocLoop {newsz xperm : Nat} (hP : Arena L P) (hn : n + P.card ≤ 2 ^ 26 - 2)
    (hx : xperm < 2 ^ 10) {c : Nat} : ∀ {n1 : Nat} {T : Multiset Nat} {u1 : Nat → Nat} {k1 : Kmem},
    n ≤ n1 → Space k1.mem root T u1 n1 hi → ↑k1.freelist + T + pages u1 n (n1 - n) = P →
    (∀ j < n, u1 j = u j) → Frame P k.mem k1.mem → Fresh k1.mem u1 n n1 (PTE_R ||| PTE_U ||| xperm ||| PTE_V) →
    wp (allocLoop L root (n * PGSIZE) newsz xperm c (n1 * PGSIZE)) (fun res k' =>
      Alloced P k k' root u n (n1 + c) hi (PTE_R ||| PTE_U ||| xperm ||| PTE_V) newsz res) k1 := by
  have hperm : PTE_R ||| PTE_U ||| xperm < 2 ^ 10 := Nat.or_lt_two_pow (by decide) hx
  have hread : (PTE_R ||| PTE_U ||| xperm) &&& PTE_R ≠ 0 := by
    rw [Nat.and_or_distrib_right]
    exact Nat.ne_of_gt (Nat.lt_of_lt_of_le (by decide) Nat.left_le_or)
  induction c with
  | zero =>
    intro n1 T u1 k1 hle hs hsum hu hfr hfresh
    exact wp_pure.mpr ⟨hfr, .inr ⟨rfl, T, u1, hsum, hs, hu, hfresh⟩⟩
  | succ c ih =>
    intro n1 T u1 k1 hle hs hsum hu hfr hfresh
    -- the way back, from a state with all pages at hand
    have hback : ∀ {T2 : Multiset Nat} {k2 : Kmem}, Space k2.mem root T2 u1 n1 hi →
        ↑k2.freelist + T2 + pages u1 n (n1 - n) = P → Frame P k.mem k2.mem →
        wp (uvmdealloc L root (n1 * PGSIZE) (n * PGSIZE)) (fun _ k' =>
          Alloced P k k' root u n (n1 + (c + 1)) hi (PTE_R ||| PTE_U ||| xperm ||| PTE_V) newsz 0) k2 := by
      intro T2 k2 hs hsum hfr
      refine wp_mono (wp_uvmdealloc_pages hP hs hle hsum) ?_
      rintro _ k' ⟨h1, h2, h3⟩
      exact ⟨hfr.trans h3, .inl ⟨rfl, T2, h1, h2.ext hu⟩⟩
    rw [allocLoop, wp_bind]
    refine wp_kalloc ?_ ?_
    · intro k2 hm hf
      simp only [wp_bind, wp_pure]
      exact hback (by rw [hm]; exact hs) (by rw [hf]; exact hsum) (by rw [hm]; exact hfr)
    · intro r rest k2 hfree hrest hm
      have hn1 : n1 < 2 ^ 26 - 2 := by
        have hc := congrArg card hsum
        simp only [hfree, coe_cons_add, card_add, card_singleton, card_pages] at hc
        omega
      simp only [wp_bind, wp_memset]
      refine wp_mono (wp_mappages_fresh (b := fun _ => 0) hP hle hn1 hs hsum hfree hrest ?_ hperm hread) ?_
      · simp [hm]
      rintro res k' ⟨hfr', hpage, hsame, hr, T', ⟨rfl, hs', hsum'⟩ | ⟨rfl, hs', hsum', hfr''⟩⟩
      · simp only [ne_eq, not_true, if_false]
        rw [← Nat.succ_mul, show n1 + (c + 1) = n1 + 1 + c by omega]
        refine ih (by omega) hs' hsum' (fun j hj => ?_) (hfr.trans hfr') fun j h1 h2 => ?_
        · rw [update_of_ne (by omega), hu j hj]
        · by_cases hj : j = n1
          · rw [hj, update_self, pte2pa_pte hr.1 hperm, pteFlags_pte hperm]
            exact ⟨hpage, rfl⟩
          · rw [update_of_ne hj, hsame _ (mem_pages.mpr ⟨j, h1, by omega, rfl⟩)]
            exact hfresh j h1 (by omega)
      · simp only [ne_eq, Int.reduceNeg, Int.neg_eq_zero, one_ne_zero, not_false_iff, if_true, wp_bind,
          wp_kfree hr, wp_pure]
        exact hback hs' hsum' (hfr.trans hfr'')

theorem wp_uvmalloc {oldsz newsz xperm : Nat} (hP : Arena L P) (hs : Space k.mem root T u (npages oldsz) hi)
    (hsum : ↑k.freelist + T = P) (hn : npages oldsz + P.card ≤ 2 ^ 26 - 2) (hx : xperm < 2 ^ 10)
    (hle : oldsz ≤ newsz) : wp (uvmalloc L root oldsz newsz xperm) (fun res k' => Alloced P k k' root u (npages oldsz)
      (npages newsz) hi (PTE_R ||| PTE_U ||| xperm ||| PTE_V) newsz res) k := by
  have hold : oldsz ≤ npages oldsz * PGSIZE := le_npages_mul
  have hsz : oldsz < 2 ^ 63 := by simp only [PGSIZE] at hold; omega
  have hc : npages oldsz + (newsz - npages oldsz * PGSIZE + PGSIZE - 1) / PGSIZE = npages newsz := by
    simp only [npages, PGSIZE] at hold ⊢
    omega
  rw [uvmalloc, if_neg (by omega), pgRoundUp_eq hsz]
  refine wp_mono (wp_allocLoop hP hn hx (Nat.le_refl _) hs ?_ (fun _ _ => rfl) Frame.refl ?_) ?_
  · rw [Nat.sub_self, pages_zero, add_zero]
    exact hsum
  · exact fun j h1 h2 => absurd h1 (by omega)
  · intro res k' h
    rwa [hc] at h

end Alloc

/-! ## uvmcopy -/

section Copy

variable {L : Layout} {old new n nO : Nat} {T TO P : Multiset Nat} {u uO hi hiO : Nat → Nat} {k : Kmem}

theorem wp_uvmunmap_all (hP : Arena L P) (hs : Space k.mem new T u n hi) (hsum : ↑k.freelist + T + pages u 0 n = P) :
    wp (uvmunmap L new 0 n true) (fun _ k' => ↑k'.freelist + T = P ∧ Space k'.mem new T u 0 hi ∧
      Frame P k.mem k'.mem) k := by
  have h := wp_uvmunmap_user hP hs (Nat.zero_le n) (by rw [Nat.sub_zero]; exact hsum)
  rwa [Nat.zero_mul, Nat.sub_zero] at h

structure Apart (P T : Multiset Nat) (u : Nat → Nat) (n : Nat) : Prop where
  table : ∀ x ∈ T, x ∉ P
  user : ∀ x ∈ pages u 0 n, x ∉ P

def SamePages (mem mem' : Nat → Page) (uO u : Nat → Nat) (n : Nat) : Prop :=
  ∀ j < n, mem' (pte2pa (u j)) = mem (pte2pa (uO j)) ∧ pteFlags (u j) = pteFlags (uO j)

def Copied (P : Multiset Nat) (k k' : Kmem) (new : Nat) (uO : Nat → Nat) (n : Nat) (hi : Nat → Nat)
    (res : Int) : Prop :=
  Frame P k.mem k'.mem ∧
    ((res = -1 ∧ ∃ T' u', ↑k'.freelist + T' = P ∧ Space k'.mem new T' u' 0 hi) ∨
      (res = 0 ∧ ∃ T' u', ↑k'.freelist + T' + pages u' 0 n = P ∧ Space k'.mem new T' u' n hi ∧
        SamePages k.mem k'.mem uO u' n))

theorem pteFlags_lt (pte : Nat) : pteFlags pte < 2 ^ 10 := by
  rw [pteFlags]
  exact Nat.lt_of_le_of_lt Nat.and_le_right (by decide)

theorem pteFlags_and {pte c : Nat} (hc : 0x3FF &&& c = c) : pteFlags pte &&& c = pte &&& c := by
  rw [pteFlags, Nat.and_assoc, hc]

theorem pteFlags_or_valid {pte : Nat} (h : pte &&& PTE_V ≠ 0) : pteFlags pte ||| PTE_V = pteFlags pte := by
  have hv : pteFlags pte &&& PTE_V = PTE_V := by
    rw [pteFlags_and rfl]
    rw [Nat.and_one_is_mod] at h ⊢
    simp only [PTE_V]
    omega
  rw [← hv]
  apply Nat.eq_of_testBit_eq
  intro i
  rw [Nat.testBit_or, Nat.testBit_and]
  cases (pteFlags pte).testBit i <;> rfl

theorem wpe_copyLoop (hP : Arena L P) (hO : Space k.mem old TO uO nO hiO) (hap : Apart P TO uO nO)
    (hnO : nO < n → nO < 2 ^ 26 - 2) {c : Nat} : ∀ {i : Nat} {T : Multiset Nat} {u : Nat → Nat} {k1 : Kmem},
    i + c = n → i ≤ nO → Space k1.mem new T u i hi → ↑k1.freelist + T + pages u 0 i = P →
    Frame P k.mem k1.mem → SamePages k.mem k1.mem uO u i →
    wpe (fun _ => nO < n) (copyLoop L old new c (i * PGSIZE)) (fun res k' =>
      Copied P k k' new uO n hi res ∧ (res = 0 → n ≤ nO)) k1 := by
  induction c with
  | zero =>
    rintro i T u k1 rfl hi' hs hsum hfr hsame
    exact wpe_pure.mpr ⟨⟨hfr, .inr ⟨rfl, T, u, hsum, hs, hsame⟩⟩, fun _ => hi'⟩
  | succ c ih =>
    rintro i T u k1 hi' hle hs hsum hfr hsame
    have htO := hO.table.congr fun x hx => hfr x (hap.table x hx)
    rw [copyLoop, wpe_bind]
    have hnO' := hO.le
    rcases Nat.lt_or_eq_of_le hle with hlt | rfl
    swap
    · -- the parent has no page `i`
      have hval : splice uO i hiO i = 0 := by rw [splice, if_neg (Nat.lt_irrefl i), hO.low i (hnO (by omega))]
      have hlt := hnO (by omega)
      refine wpe_of_wp (wp_walk_false htO (by omega) (fun _ => wpe_throw.mpr (by omega)) fun ref href => ?_)
      rw [wpe_bind]
      refine wpe_of_wp (wp_readPte.mpr ?_)
      rw [htO.slot_read (by omega) href, hval, if_pos (Nat.zero_and _)]
      exact wpe_throw.mpr (by omega)
    have hval : splice uO nO hiO i = uO i := if_pos hlt
    have hpte := hO.user i hlt
    have hback : ∀ {T2 : Multiset Nat} {k2 : Kmem}, Space k2.mem new T2 u i hi →
        ↑k2.freelist + T2 + pages u 0 i = P → Frame P k.mem k2.mem →
        wp (uvmunmap L new 0 i true) (fun _ k' => Copied P k k' new uO n hi (-1)) k2 := by
      intro T2 k2 hs hsum hfr
      refine wp_mono (wp_uvmunmap_all hP hs hsum) ?_
      rintro _ k' ⟨h1, h2, h3⟩
      exact ⟨hfr.trans h3, .inl ⟨rfl, T2, u, h1, h2⟩⟩
    have hread : pteFlags (uO i) &&& PTE_R ≠ 0 := by
      rw [pteFlags_and rfl]
      exact hpte.readable
    refine wpe_of_wp (wp_walk_false htO (by omega) (fun h0 => ?_) fun ref href => ?_)
    · rw [hval] at h0
      exact absurd (by rw [h0]; rfl) hpte.valid
    rw [wpe_bind]
    refine wpe_of_wp (wp_readPte.mpr ?_)
    rw [htO.slot_read (by omega) href, hval, if_neg hpte.valid, Nat.mul_div_cancel i (by decide), wpe_bind]
    refine wpe_of_wp (wp_kalloc ?_ ?_)
    · intro k2 hm hf
      rw [wpe_bind]
      refine wpe_of_wp (wp_mono (hback (by rw [hm]; exact hs) (by rw [hf]; exact hsum)
        (by rw [hm]; exact hfr)) ?_)
      exact fun _ k' h => wpe_pure.mpr ⟨h, nofun⟩
    · intro r rest k2 hfree hrest hm
      have hx : pte2pa (uO i) ∉ P := hap.user _ (mem_pages.mpr ⟨i, Nat.zero_le i, by omega, rfl⟩)
      have hrP : r ∈ P := by
        rw [← hsum, hfree, coe_cons_add]
        simp
      have hxr : pte2pa (uO i) ≠ r := fun h => hx (h ▸ hrP)
      simp only [wpe_bind]
      refine wpe_of_wp (wp_get.mpr (wpe_of_wp (wp_setPage.mpr (wpe_of_wp (wp_mono (wp_mappages_fresh
        (b := k.mem (pte2pa (uO i))) hP (Nat.zero_le i) (by omega) hs hsum hfree hrest ?_
        (pteFlags_lt _) hread) ?_)))))
      · simp [hm, hxr, hfr _ hx]
      rintro res k' ⟨hfr', hpage, hsame', hr, T', ⟨rfl, hs', hsum'⟩ | ⟨rfl, hs', hsum', hfr''⟩⟩
      · rw [if_neg (by simp), ← Nat.succ_mul]
        refine ih (by omega) hlt hs' hsum' (hfr.trans hfr') fun j hj => ?_
        by_cases hj' : j = i
        · rw [hj', update_self, pte2pa_pte hr.1 (pteFlags_lt _), pteFlags_pte (pteFlags_lt _),
            pteFlags_or_valid hpte.valid]
          exact ⟨hpage, rfl⟩
        · rw [update_of_ne hj', hsame' _ (mem_pages.mpr ⟨j, Nat.zero_le j, by omega, rfl⟩)]
          exact hsame j (by omega)
      · rw [if_pos (by decide), wpe_bind]
        refine wpe_of_wp ((wp_kfree hr).mpr ?_)
        rw [wpe_bind]
        refine wpe_of_wp (wp_mono (hback hs' hsum' (hfr.trans hfr'')) ?_)
        exact fun _ k' h => wpe_pure.mpr ⟨h, nofun⟩

theorem wpe_uvmcopy (sz : Nat) (hP : Arena L P) (hO : Space k.mem old TO uO nO hiO)
    (hap : Apart P TO uO nO) (hnO : nO < npages sz → nO < 2 ^ 26 - 2) (hs : Space k.mem new T u 0 hi)
    (hsum : ↑k.freelist + T = P) : wpe (fun _ => nO < npages sz) (uvmcopy L old new sz) (fun res k' =>
      Copied P k k' new uO (npages sz) hi res ∧ (res = 0 → npages sz ≤ nO)) k := by
  have h := wpe_copyLoop hP hO hap hnO (c := npages sz) (Nat.zero_add _) (Nat.zero_le _) hs
    (by rw [pages_zero, add_zero]; exact hsum) Frame.refl (fun j hj => absurd hj (by omega))
  rwa [Nat.zero_mul] at h

end Copy

end Vm
end Xv6
