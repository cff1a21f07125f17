import Xv6.Vm.Model
import Xv6.Lib.Radix

/-!
# Xv6.Vm.Table

A page table is a partial map from page numbers to page-table entries.
-/

namespace Xv6
namespace Vm

open Bytes Wp Function Multiset

/-! ## Page-table entries -/

section Pte

variable {pa perm c : Nat}

theorem shiftLeft_and {x : Nat} (hc : c < 2 ^ 10) : x <<< 10 &&& c = 0 := by
  apply Nat.eq_of_testBit_eq
  intro i
  rw [Nat.testBit_and, Nat.testBit_shiftLeft, Nat.zero_testBit]
  by_cases hi : 10 ≤ i
  · have hci := Nat.testBit_lt_two_pow (Nat.lt_of_lt_of_le hc (Nat.pow_le_pow_right (by decide) hi))
    simp [hci]
  · simp [hi]

theorem pte_and (hc : c < 2 ^ 10) : (pa2pte pa ||| perm ||| PTE_V) &&& c = (perm ||| PTE_V) &&& c := by
  rw [pa2pte, Nat.or_assoc, Nat.and_or_distrib_right, shiftLeft_and hc, Nat.zero_or]

theorem pte2pa_pte (ha : pa % PGSIZE = 0) (hp : perm < 2 ^ 10) : pte2pa (pa2pte pa ||| perm ||| PTE_V) = pa := by
  have h1 : perm >>> 10 = 0 := Nat.shiftRight_eq_zero _ _ hp
  rw [pte2pa, pa2pte, Nat.shiftRight_or_distrib, Nat.shiftRight_or_distrib, Nat.shiftLeft_shiftRight,
    h1, show PTE_V >>> 10 = 0 from rfl, Nat.or_zero, Nat.or_zero, Nat.shiftLeft_eq, Nat.shiftRight_eq_div_pow]
  exact Nat.div_mul_cancel (Nat.dvd_of_mod_eq_zero ha)

theorem pte_lt (ha : pa < 2 ^ 56) (hp : perm < 2 ^ 10) : pa2pte pa ||| perm ||| PTE_V < 2 ^ 64 := by
  refine Nat.or_lt_two_pow (Nat.or_lt_two_pow ?_ (by omega)) (by decide)
  rw [pa2pte, Nat.shiftLeft_eq, Nat.shiftRight_eq_div_pow]
  omega

/-- The table that an entry of an interior page leads to. -/
def child (pte : Nat) : Option Nat :=
  if pte &&& PTE_V ≠ 0 ∧ pte &&& (PTE_R ||| PTE_W ||| PTE_X) = 0 then some (pte2pa pte) else none

@[simp] theorem child_zero : child 0 = none := rfl

theorem child_pte (ha : pa % PGSIZE = 0) : child (pa2pte pa ||| PTE_V) = some pa := by
  have h0 : pa2pte pa ||| PTE_V = pa2pte pa ||| 0 ||| PTE_V := by rw [Nat.or_zero]
  rw [child, h0, pte_and (by decide), pte_and (by decide), pte2pa_pte ha (by decide)]
  rfl

theorem child_eq_some {pte : Nat} (h : child pte = some c) :
    pte &&& PTE_V ≠ 0 ∧ pte &&& (PTE_R ||| PTE_W ||| PTE_X) = 0 ∧ c = pte2pa pte := by
  unfold child at h
  split at h
  · rename_i hv
    cases h
    exact ⟨hv.1, hv.2, rfl⟩
  · cases h

attribute [irreducible] child

end Pte

/-! ## Words of a page -/

section Word

variable {mem : Nat → Page} {pa : Nat}

theorem word_update_of_ne {x : Nat} {page : Page} (h : x ≠ pa) :
    word (update mem pa page) x = word mem x := by
  funext i
  simp [word, h]

theorem word_putLE {i : Fin 512} {v : Nat} (hv : v < 2 ^ 64) :
    word (update mem pa (putLE (mem pa) (8 * i) 8 v)) = Radix.store (word mem) pa i v := by
  have hi := i.isLt
  funext x j
  by_cases hx : x = pa
  · subst hx
    by_cases hj : j = i
    · subst hj
      rw [Radix.store_self, word, update_self, getLE_putLE_same (by simp only [PGSIZE]; omega),
        Nat.mod_eq_of_lt (by simpa using hv)]
    · have : (j : Nat) ≠ i := fun h => hj (Fin.ext h)
      rw [Radix.store_other hj, word, update_self, getLE_putLE_disj (by omega), word]
  · rw [Radix.store_of_ne hx, word_update_of_ne hx]

theorem word_zero (i : Fin 512) : word (update mem pa fun _ => 0) pa i = 0 := by
  have h : ∀ l : List UInt8, (∀ b ∈ l, b = 0) → decLE l = 0 := by
    intro l
    induction l with
    | nil => exact fun _ => rfl
    | cons b l ih =>
      intro hl
      rw [decLE, ih fun x hx => hl x (List.mem_cons_of_mem b hx), hl b List.mem_cons_self]
      rfl
  rw [word, update_self, getLE]
  apply h
  intro b hb
  obtain ⟨j, rfl⟩ := List.mem_ofFn.mp hb
  simp [byte]

end Word

/-! ## Indices -/

section Px

theorem px_inj {k k' : Nat} (hk : k < 2 ^ 27) (hk' : k' < 2 ^ 27) :
    (∀ j ≤ 2, px (k * PGSIZE) j = px (k' * PGSIZE) j) ↔ k = k' := by
  constructor
  · intro h
    have h0 := congrArg Fin.val (h 0 (by decide))
    have h1 := congrArg Fin.val (h 1 (by decide))
    have h2 := congrArg Fin.val (h 2 (by decide))
    simp only [px, PGSIZE] at h0 h1 h2
    omega
  · rintro rfl _ _
    rfl

theorem px_surj (path : Nat → Fin 512) : ∃ k < 2 ^ 27, ∀ j ≤ 2, path j = px (k * PGSIZE) j := by
  have h0 := (path 0).isLt
  have h1 := (path 1).isLt
  have h2 := (path 2).isLt
  refine ⟨path 2 * 2 ^ 18 + path 1 * 2 ^ 9 + path 0, by omega, fun j hj => ?_⟩
  have hj : j = 0 ∨ j = 1 ∨ j = 2 := by omega
  apply Fin.ext
  rcases hj with rfl | rfl | rfl <;> simp only [px, PGSIZE] <;> omega

end Px

/-! ## Memory and its pages -/

section Kalloc

variable {L : Layout} {k : Kmem} {pa : Nat} {P P' : Multiset Nat} {m m' m'' : Nat → Page} {Q : Unit → Kmem → Prop}

@[simp] theorem wp_setPage {page : Page} :
    wp (setPage pa page) Q k ↔ Q () { k with mem := update k.mem pa page } := wp_modify

@[simp] theorem wp_memset {c : UInt8} :
    wp (memset pa c) Q k ↔ Q () { k with mem := update k.mem pa fun _ => c } := wp_modify

@[simp] theorem wp_memmove {off : Nat} {src : List UInt8} : wp (memmove pa off src) Q k ↔
      Q () { k with mem := update k.mem pa (putBytes (k.mem pa) off src) } := by
  simp only [memmove, wp_bind, wp_get, wp_setPage]

@[simp] theorem wp_readPte {ref : PteRef} {Q : Nat → Kmem → Prop} :
    wp (readPte ref) Q k ↔ Q (word k.mem ref.1 ref.2) k := by
  simp only [readPte, wp_bind, wp_get, wp_pure]

@[simp] theorem wp_writePte {ref : PteRef} {pte : Nat} : wp (writePte ref pte) Q k ↔
      Q () { k with mem := update k.mem ref.1 (putLE (k.mem ref.1) (8 * ref.2) 8 pte) } := by
  simp only [writePte, wp_bind, wp_get, wp_setPage]

theorem wp_kalloc {Q : Option Nat → Kmem → Prop} (hnone : ∀ k', k'.mem = k.mem → k'.freelist = k.freelist → Q none k')
    (hsome : ∀ r rest k', k.freelist = r :: rest → k'.freelist = rest →
      k'.mem = update k.mem r (fun _ => 5) → Q (some r) k') : wp kalloc Q k := by
  simp only [kalloc, wp_bind, wp_get, wp_set]
  split
  · exact wp_pure.mpr (hnone _ rfl rfl)
  · rename_i r rest hf
    simp only [wp_ite, wp_bind, wp_modify, wp_memset, wp_pure]
    exact ⟨fun _ => hsome r rest _ hf rfl rfl, fun _ => hnone _ rfl rfl⟩

def Layout.IsPage (L : Layout) (pa : Nat) : Prop :=
  pa % PGSIZE = 0 ∧ L.kernelEnd ≤ pa ∧ pa < PHYSTOP

theorem Layout.IsPage.lt (h : L.IsPage pa) : pa < 2 ^ 56 := Nat.lt_trans h.2.2 (by decide)

theorem wp_kfree (h : L.IsPage pa) : wp (kfree L pa) Q k ↔
      Q () { k with mem := update k.mem pa fun _ => 1, freelist := pa :: k.freelist } := by
  obtain ⟨h1, h2, h3⟩ := h
  have hn : ¬ (pa % PGSIZE ≠ 0 ∨ pa < L.kernelEnd ∨ PHYSTOP ≤ pa) := by omega
  simp [kfree, hn]

structure Arena (L : Layout) (P : Multiset Nat) : Prop where
  nodup : P.Nodup
  page : ∀ x ∈ P, L.IsPage x

theorem Arena.mono (h : Arena L P) (hle : P' ≤ P) : Arena L P' :=
  ⟨nodup_of_le hle h.nodup, fun x hx => h.page x (mem_of_le hle hx)⟩

theorem Arena.card_le (h : Arena L P) : P.card ≤ 2 ^ 15 := by
  have hsub : P.toFinset ⊆ (Finset.range (2 ^ 15)).image fun i => KERNBASE + i * PGSIZE := by
    intro x hx
    obtain ⟨h1, h2, h3⟩ := h.page x (mem_toFinset.mp hx)
    have hb := L.base_le
    refine Finset.mem_image.mpr ⟨(x - KERNBASE) / PGSIZE, Finset.mem_range.mpr ?_, ?_⟩
    all_goals
      simp only [PHYSTOP, KERNBASE, PGSIZE] at *
      omega
  rw [← toFinset_card_of_nodup h.nodup]
  refine (Finset.card_le_card hsub).trans (Finset.card_image_le.trans ?_)
  rw [Finset.card_range]

def Frame (P : Multiset Nat) (m m' : Nat → Page) : Prop := ∀ x, x ∉ P → m' x = m x

theorem Frame.refl : Frame P m m := fun _ _ => rfl

theorem Frame.trans (h : Frame P m m') (h' : Frame P m' m'') : Frame P m m'' :=
  fun x hx => (h' x hx).trans (h x hx)

theorem Frame.mono (h : Frame P' m m') (hle : P' ≤ P) : Frame P m m' :=
  fun x hx => h x fun hx' => hx (mem_of_le hle hx')

theorem Frame.update {page : Page} (h : pa ∈ P) : Frame P m (update m pa page) :=
  fun x hx => update_of_ne (fun he : x = pa => hx (he ▸ h)) _ _

end Kalloc

/-! ## Tables -/

/-- The pages `T` are the table with root `root`, and its entry for page number `k` is `f k`. -/
structure Table (mem : Nat → Page) (root : Nat) (T : Multiset Nat) (f : Nat → Nat) : Prop where
  wf : Radix.Wf child 0 (word mem) 2 root
  nodes : Radix.nodes child (word mem) 2 root = T
  nodup : T.Nodup
  map : ∀ k < 2 ^ 27, Radix.lookup child 0 (word mem) (px (k * PGSIZE)) 2 root = f k

section Table

variable {mem mem' : Nat → Page} {root q k₀ v : Nat} {T : Multiset Nat} {f g : Nat → Nat} {i : Fin 512}

theorem Table.congr (h : Table mem root T f) (hm : ∀ x ∈ T, mem' x = mem x) : Table mem' root T f := by
  have hw : ∀ x ∈ Radix.nodes child (word mem) 2 root, word mem' x = word mem x := by
    intro x hx
    funext j
    rw [word, hm x (h.nodes ▸ hx), word]
  exact ⟨h.wf.congr hw, (Radix.nodes_congr hw).trans h.nodes, h.nodup,
    fun k hk => (Radix.lookup_congr hw).trans (h.map k hk)⟩

theorem Table.ext (h : Table mem root T f) (hfg : ∀ k < 2 ^ 27, f k = g k) : Table mem root T g :=
  ⟨h.wf, h.nodes, h.nodup, fun k hk => (h.map k hk).trans (hfg k hk)⟩

def IsSlot (mem : Nat → Page) (root k₀ : Nat) (ref : PteRef) : Prop :=
  Radix.slot child (word mem) (px (k₀ * PGSIZE)) 2 root = some ref

theorem Table.slot_congr (h : Table mem root T f) (hm : ∀ x ∈ T, mem' x = mem x) {ref : PteRef}
    (hs : IsSlot mem root k₀ ref) : IsSlot mem' root k₀ ref := by
  refine (Radix.slot_congr fun x hx => ?_).trans hs
  funext j
  rw [word, hm x (h.nodes ▸ hx), word]

theorem Table.slot_mem (h : Table mem root T f) (hs : IsSlot mem root k₀ (q, i)) : q ∈ T :=
  h.nodes ▸ Radix.slot_mem hs

theorem Table.slot_read (h : Table mem root T f) (hk : k₀ < 2 ^ 27) (hs : IsSlot mem root k₀ (q, i)) :
    word mem q i = f k₀ := by
  rw [← h.map k₀ hk, Radix.lookup_eq_slot, hs]
  rfl

theorem Table.store (h : Table mem root T f) (hk : k₀ < 2 ^ 27) (hs : IsSlot mem root k₀ (q, i)) (hv : v < 2 ^ 64) :
    Table (update mem q (putLE (mem q) (8 * i) 8 v)) root T (update f k₀ v) := by
  obtain ⟨h1, h2, h3⟩ := Radix.store_aux (w := v) 0 (h.nodes ▸ h.nodup) hs
  refine ⟨by rw [word_putLE hv]; exact h2 h.wf, by rw [word_putLE hv, h1, h.nodes], h.nodup, ?_⟩
  intro k hk'
  rw [word_putLE hv, h3, update_apply, h.map k hk']
  exact if_congr (px_inj hk' hk) rfl rfl

end Table

/-! ## walk -/

section Walk

variable {k : Kmem} {va level a : Nat}

theorem child_of_valid {pte : Nat} {R : Nat → Prop} (hw : (child pte).elim (pte = 0) R) :
    child pte = if pte &&& PTE_V ≠ 0 then some (pte2pa pte) else none := by
  cases hc : child pte with
  | none =>
    rw [hc] at hw
    rw [show pte = 0 from hw]
    rfl
  | some c =>
    obtain ⟨h1, -, rfl⟩ := child_eq_some hc
    rw [if_pos h1]

theorem wp_walkFrom_false {Q : Option PteRef → Kmem → Prop} (hw : Radix.Wf child 0 (word k.mem) level a) :
    wp (walkFrom va false level a) Q k ↔ Q (Radix.slot child (word k.mem) (px va) level a) k := by
  induction level generalizing a with
  | zero => rw [Radix.slot_zero, walkFrom, wp_pure]
  | succ level ih =>
    have hw' := Radix.wf_succ.mp hw (px va (level + 1))
    have hc := child_of_valid hw'
    simp only [walkFrom, wp_bind, wp_readPte, Radix.slot_succ]
    split
    · rename_i hv
      rw [if_pos hv] at hc
      rw [hc] at hw' ⊢
      exact ih hw'
    · rename_i hv
      rw [if_neg hv] at hc
      rw [hc, if_pos trivial, wp_pure, Option.bind_none]

/-- A tree in which `walk` has put new pages: the values are the same, and so are the free pages
together with those of the tree. -/
structure Grown (P : Multiset Nat) (k k' : Kmem) (level a : Nat) : Prop where
  sum : ↑k'.freelist + Radix.nodes child (word k'.mem) level a = P
  wf : Radix.Wf child 0 (word k'.mem) level a
  map : ∀ p, Radix.lookup child 0 (word k'.mem) p level a = Radix.lookup child 0 (word k.mem) p level a
  frame : Frame P k.mem k'.mem

variable {L : Layout} {P : Multiset Nat} {k' : Kmem} {c : Nat} {i : Fin 512}

theorem notMem_of_nodup_add {S T : Multiset Nat} {x : Nat} (h : (S + T).Nodup) (hx : x ∈ T) : x ∉ S :=
  fun hs => disjoint_left.mp (nodup_add.mp h).2.2 hs hx

section

variable (hP : P.Nodup) (hw : Radix.Wf Vm.child 0 (word k.mem) (level + 1) a) (hsum : ↑k.freelist + Radix.nodes Vm.child (word k.mem) (level + 1) a = P)
include hP hw hsum

theorem Grown.child
    
    (hc : Vm.child (word k.mem a i) = some c)
    (hg : Grown (↑k.freelist + Radix.nodes Vm.child (word k.mem) level c) k k' level c) :
    Grown P k k' (level + 1) a ∧ word k'.mem a i = word k.mem a i := by
  have hP' := hsum ▸ hP
  have hn := (nodup_add.mp hP').2.1
  have hsame : ∀ x, x ∈ Radix.nodes Vm.child (word k.mem) (level + 1) a →
      x ∉ Radix.nodes Vm.child (word k.mem) level c → word k'.mem x = word k.mem x := by
    intro x hx hxc
    have := hg.frame x fun h => (mem_add.mp h).elim (notMem_of_nodup_add hP' hx) hxc
    funext j
    rw [word, this, word]
  have ha := hsame a Radix.mem_nodes_self (Radix.root_notMem_child hn hc)
  have hs : Radix.Splice Vm.child (word k.mem) (word k'.mem) level a i := by
    refine ⟨fun j _ => by rw [ha], fun j d hj hd x hx => ?_⟩
    exact hsame x (Radix.mem_nodes_child hd hx) (Radix.disjoint_child hn hj hd hc hx)
  have hci : Vm.child (word k'.mem a i) = some c := by rw [ha, hc]
  have hnodes := Radix.nodes_splice hs
  rw [hc, hci, Option.elim_some, Option.elim_some] at hnodes
  refine ⟨⟨?_, hw.splice hs (by rw [hci]; exact hg.wf), fun p => ?_, hg.frame.mono ?_⟩, by rw [ha]⟩
  · have h := hg.sum
    refine add_right_cancel (b := Radix.nodes Vm.child (word k.mem) level c) ?_
    rw [add_assoc, hnodes, add_left_comm, h, ← hsum]
    abel
  · by_cases hp : p (level + 1) = i
    · rw [Radix.lookup_succ, Radix.lookup_succ, hp, hci, hc]
      exact hg.map p
    · exact Radix.lookup_splice hs hp
  · rw [← hsum]
    exact add_le_add le_rfl (Radix.nodes_child_le hc)

theorem Grown.attach {rest : List Nat} {k2 : Kmem} {r : Nat}
    
    
    (hc : Vm.child (word k.mem a i) = none) (hfree : k.freelist = r :: rest) (hr : r % PGSIZE = 0)
    (hm : ∀ x, x ≠ a → x ≠ r → k2.mem x = k.mem x)
    (ha : word k2.mem a = update (word k.mem a) i (pa2pte r ||| PTE_V))
    (hz : ∀ j, word k2.mem r j = 0) (hg : Grown (↑rest + {r}) k2 k' level r) :
    Grown P k k' (level + 1) a ∧ Vm.child (word k'.mem a i) = some r := by
  have hP' := hsum ▸ hP
  have hn := (nodup_add.mp hP').2.1
  have hpool : (↑k.freelist : Multiset Nat) = ↑rest + {r} := by
    rw [hfree, ← cons_coe, ← singleton_add, add_comm]
  have ha' : k'.mem a = k2.mem a :=
    hg.frame a fun h => notMem_of_nodup_add hP' Radix.mem_nodes_self (by rw [hpool]; exact h)
  have hwa : word k'.mem a = update (word k.mem a) i (pa2pte r ||| PTE_V) := by
    rw [← ha]
    funext j
    rw [word, ha', word]
  have hs : Radix.Splice Vm.child (word k.mem) (word k'.mem) level a i := by
    refine ⟨fun j hj => by rw [hwa, update_of_ne hj], fun j d hj hd x hx => ?_⟩
    have hxa := Radix.mem_nodes_child hd hx
    have hxf := notMem_of_nodup_add hP' hxa
    have hne : x ≠ a := fun h => Radix.root_notMem_child hn hd (h ▸ hx)
    have hner : x ≠ r := fun h => hxf (by rw [h, hfree]; exact mem_coe.mpr List.mem_cons_self)
    funext j
    rw [word, hg.frame x (by rwa [← hpool]), hm x hne hner, word]
  have hci : Vm.child (word k'.mem a i) = some r := by
    rw [hwa, update_self, child_pte hr]
  have hnodes := Radix.nodes_splice hs
  rw [hc, hci, Option.elim_none, Option.elim_some, add_zero] at hnodes
  refine ⟨⟨?_, hw.splice hs (by rw [hci]; exact hg.wf), fun p => ?_, fun x hx => ?_⟩, hci⟩
  · rw [hnodes, add_left_comm, hg.sum, ← hpool, ← hsum, add_comm]
  · by_cases hp : p (level + 1) = i
    · rw [Radix.lookup_succ, Radix.lookup_succ, hp, hci, hc]
      exact (hg.map p).trans (Radix.lookup_empty child_zero hz)
    · exact Radix.lookup_splice hs hp
  · rw [← hsum, mem_add, not_or] at hx
    have hxa : x ≠ a := fun h => hx.2 (h ▸ Radix.mem_nodes_self)
    have hxr : x ≠ r := fun h => hx.1 (by rw [h, hfree]; exact mem_coe.mpr List.mem_cons_self)
    rw [hg.frame x (by rw [← hpool]; exact hx.1), hm x hxa hxr]

end

theorem wp_walkFrom_true (hP : Arena L P) (hw : Radix.Wf child 0 (word k.mem) level a)
    (hsum : ↑k.freelist + Radix.nodes child (word k.mem) level a = P) :
    wp (walkFrom va true level a) (fun r k' => Grown P k k' level a ∧
      ∀ ref, r = some ref → Radix.slot child (word k'.mem) (px va) level a = some ref) k := by
  induction level generalizing a k P with
  | zero =>
    refine wp_pure.mpr ⟨⟨hsum, hw, fun _ => rfl, Frame.refl⟩, ?_⟩
    rintro ref ⟨⟩
    exact Radix.slot_zero
  | succ level ih =>
    have hw' := Radix.wf_succ.mp hw (px va (level + 1))
    have hc := child_of_valid hw'
    simp only [walkFrom, wp_bind, wp_readPte]
    split
    · -- the entry leads to a table of the next level
      rename_i hv
      rw [if_pos hv] at hc
      rw [hc] at hw'
      refine wp_mono (ih (hP.mono ?_) hw' rfl) ?_
      · rw [← hsum]
        exact add_le_add le_rfl (Radix.nodes_child_le hc)
      · rintro r k' ⟨hg, hslot⟩
        obtain ⟨hg, he⟩ := hg.child hP.nodup hw hsum hc
        refine ⟨hg, fun ref hr => ?_⟩
        rw [Radix.slot_succ, he, hc]
        exact hslot ref hr
    · rename_i hv
      rw [if_neg hv] at hc
      simp only [Bool.true_eq_false, if_false, wp_bind]
      refine wp_kalloc ?_ ?_
      · intro k' hm hf
        refine wp_pure.mpr ⟨⟨by rw [hf, hm]; exact hsum, by rw [hm]; exact hw, fun p => by rw [hm],
          by rw [hm]; exact Frame.refl⟩, by rintro ref ⟨⟩⟩
      · intro r rest k1 hfree hrest hm
        have hmem : r ∈ P := by
          rw [← hsum, hfree]
          exact mem_add.mpr (.inl (mem_coe.mpr List.mem_cons_self))
        have hr := hP.page r hmem
        have hra : r ≠ a := by
          intro h
          refine notMem_of_nodup_add (hsum ▸ hP.nodup) (Radix.mem_nodes_self (a := a)) ?_
          rw [← h, hfree]
          exact mem_coe.mpr List.mem_cons_self
        simp only [wp_bind, wp_memset, wp_writePte]
        generalize hk2 : ({ k1 with mem := _ } : Kmem) = k2
        have hfree2 : k2.freelist = rest := by rw [← hk2]; exact hrest
        have hpte : pa2pte r ||| PTE_V < 2 ^ 64 := by
          have := pte_lt hr.lt (show 0 < 2 ^ 10 by decide)
          rwa [Nat.or_zero] at this
        have hword : word k2.mem = Radix.store (word (update k1.mem r fun _ => 0)) a
            (px va (level + 1)) (pa2pte r ||| PTE_V) := by
          rw [← hk2]
          exact word_putLE hpte
        have hz : ∀ j, word k2.mem r j = 0 := by
          intro j
          rw [hword, Radix.store_of_ne hra, word_zero]
        have hpool : ↑rest + {r} ≤ P := by
          rw [← hsum, hfree, ← cons_coe, ← singleton_add, add_comm]
          exact le_add_right _ _
        refine wp_mono (ih (hP.mono hpool) (Radix.Wf.empty child_zero hz) ?_) ?_
        · rw [hfree2, Radix.nodes_empty child_zero hz]
        · rintro r' k' ⟨hg, hslot⟩
          have hmem2 : ∀ x, x ≠ a → x ≠ r → k2.mem x = k.mem x := by
            intro x hxa hxr
            rw [← hk2]
            simp [hxa, hxr, hm]
          have hword2 : word k2.mem a =
              update (word k.mem a) (px va (level + 1)) (pa2pte r ||| PTE_V) := by
            rw [hword, Radix.store, update_self, word_update_of_ne hra.symm, hm,
              word_update_of_ne hra.symm]
          obtain ⟨hg, he⟩ := hg.attach hP.nodup hw hsum hc hfree hr.1 hmem2 hword2 hz
          refine ⟨hg, fun ref hr => ?_⟩
          rw [Radix.slot_succ, he]
          exact hslot ref hr

end Walk

/-! ## walk and mappages on a table -/

section Mappages

variable {L : Layout} {P T : Multiset Nat} {k : Kmem} {root k₀ pa perm : Nat} {f : Nat → Nat}

theorem wp_walk_false {Q : Option PteRef → Kmem → Prop} (h : Table k.mem root T f) (hk : k₀ < 2 ^ 26)
    (hnone : f k₀ = 0 → Q none k) (hsome : ∀ ref, IsSlot k.mem root k₀ ref → Q (some ref) k) :
    wp (walk root (k₀ * PGSIZE) false) Q k := by
  have hva : ¬ MAXVA ≤ k₀ * PGSIZE := by simp only [MAXVA, PGSIZE]; omega
  rw [walk, if_neg hva, wp_walkFrom_false h.wf]
  cases hs : Radix.slot child (word k.mem) (px (k₀ * PGSIZE)) 2 root with
  | none =>
    refine hnone ?_
    rw [← h.map k₀ (by omega), Radix.lookup_eq_slot, hs]
    rfl
  | some ref => exact hsome ref hs

theorem wp_walk_true (hP : Arena L P) (h : Table k.mem root T f) (hk : k₀ < 2 ^ 26) (hsum : ↑k.freelist + T = P) :
    wp (walk root (k₀ * PGSIZE) true) (fun r k' => ∃ T', ↑k'.freelist + T' = P ∧
      Table k'.mem root T' f ∧ Frame P k.mem k'.mem ∧ ∀ ref, r = some ref → IsSlot k'.mem root k₀ ref) k := by
  have hva : ¬ MAXVA ≤ k₀ * PGSIZE := by simp only [MAXVA, PGSIZE]; omega
  rw [walk, if_neg hva]
  refine wp_mono (wp_walkFrom_true hP h.wf (by rw [h.nodes]; exact hsum)) ?_
  rintro r k' ⟨hg, hslot⟩
  refine ⟨_, hg.sum, ⟨hg.wf, rfl, ?_, fun k hk => (hg.map _).trans (h.map k hk)⟩, hg.frame, hslot⟩
  exact (nodup_add.mp (hg.sum ▸ hP.nodup)).2.1

def Mapped (P : Multiset Nat) (k k' : Kmem) (root : Nat) (f : Nat → Nat) : Prop :=
  ∃ T', ↑k'.freelist + T' = P ∧ Table k'.mem root T' f ∧ Frame P k.mem k'.mem

section

variable (hP : Arena L P) (h : Table k.mem root T f) (hk : k₀ < 2 ^ 26) (hsum : ↑k.freelist + T = P)
include hP h hk hsum

theorem wp_mapPage (hf : f k₀ &&& PTE_V = 0) (ha : pa < 2 ^ 56) (hp : perm < 2 ^ 10) :
    wp (mapPage root (k₀ * PGSIZE) pa perm) (fun b k' => Mapped P k k' root
      (if b then update f k₀ (pa2pte pa ||| perm ||| PTE_V) else f)) k := by
  simp only [mapPage, wp_bind]
  refine wp_mono (wp_walk_true hP h hk hsum) ?_
  rintro r k' ⟨T', hsum', ht, hfr, hslot⟩
  cases r with
  | none => exact wp_pure.mpr ⟨T', hsum', ht, hfr⟩
  | some ref =>
    have hs := hslot ref rfl
    simp only [wp_bind, wp_readPte, ht.slot_read (by omega) hs, hf, ne_eq, not_true, if_false,
      wp_writePte, wp_pure]
    refine ⟨T', hsum', ht.store (by omega) hs (pte_lt ha hp), hfr.trans (Frame.update ?_)⟩
    rw [← hsum']
    exact mem_add.mpr (.inr (ht.slot_mem hs))

theorem wp_mappages_page (hf : f k₀ &&& PTE_V = 0) (ha : pa < 2 ^ 56) (hp : perm < 2 ^ 10) :
    wp (mappages root (k₀ * PGSIZE) PGSIZE pa perm) (fun r k' =>
      (r = 0 ∧ Mapped P k k' root (update f k₀ (pa2pte pa ||| perm ||| PTE_V))) ∨
      (r = -1 ∧ Mapped P k k' root f)) k := by
  have h1 : pgRoundDown (k₀ * PGSIZE) = k₀ * PGSIZE := by simp only [pgRoundDown, PGSIZE]; omega
  have h2 : pgRoundDown (k₀ * PGSIZE + PGSIZE - 1) = k₀ * PGSIZE := by
    simp only [pgRoundDown, PGSIZE]; omega
  rw [mappages, if_neg (by decide), h1, h2, Nat.sub_self, Nat.zero_div, mapLoop, wp_bind]
  refine wp_mono (wp_mapPage hP h hk hsum hf ha hp) ?_
  intro b k' hm
  cases b with
  | false => exact wp_pure.mpr (.inr ⟨rfl, hm⟩)
  | true => exact wp_pure.mpr (.inl ⟨rfl, hm⟩)

end

end Mappages

end Vm
end Xv6
