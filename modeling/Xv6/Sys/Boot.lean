import Xv6.Sys.Runs

/-!
# Xv6.Sys.Boot

`main` establishes the invariant. It does not check every allocation, so this needs enough memory:
`Rich` says how many more calls of `kalloc` will succeed.

* `wp_main`: booting succeeds, and the invariant holds then.
-/

namespace Xv6
namespace Sys

open Bytes Wp Vm Function List

/-- The next `c` calls of `kalloc` succeed. -/
def Rich (c : Nat) (k : Kmem) : Prop := (∀ i, k.oracle i = true) ∧ c ≤ k.freelist.length

/-- Code that, when it returns, has taken at most `c` pages and has a result as in `ok`. -/
def Thrifty {α : Type} (c : Nat) (ok : α → Prop) (x : K α) : Prop :=
  ∀ d k, Rich (c + d) k → wpe (fun _ => True) x (fun r k' => ok r ∧ Rich d k') k

section Thrifty

variable {α β : Type} {c e : Nat} {ok : α → Prop} {ok' : β → Prop} {x : K α} {f : α → K β} {pa : Nat}

theorem Thrifty.bind (h : Thrifty c ok x) (hf : ∀ a, ok a → Thrifty e ok' (f a)) : Thrifty (c + e) ok' (x >>= f) := by
  intro d k hk
  rw [wpe_bind]
  refine wpe_mono (h (e + d) k (by rwa [← Nat.add_assoc])) ?_
  rintro a k' ⟨ha, hk'⟩
  exact hf a ha d k' hk'

theorem Thrifty.mono (h : Thrifty c ok x) (hc : c ≤ e) : Thrifty e ok x := by
  intro d k hk
  exact h d k ⟨hk.1, by have := hk.2; omega⟩

theorem thrifty_pure {a : α} (h : ok a) : Thrifty c ok (pure a) := by
  intro d k hk
  exact wpe_of_wp (wp_pure.mpr ⟨h, hk.1, by have := hk.2; omega⟩)

theorem thrifty_panic {msg : String} : Thrifty c ok (panic msg) := fun _ _ _ => wpe_throw.mpr trivial

theorem thrifty_kalloc : Thrifty 1 (fun r => r ≠ none) kalloc := by
  intro d k hk
  refine wpe_of_wp ?_
  have hlen := hk.2
  have ho := hk.1 0
  simp only [kalloc, wp_bind, wp_get, wp_set]
  cases hf : k.freelist with
  | nil =>
    rw [hf, length_nil] at hlen
    omega
  | cons r rest =>
    rw [hf, length_cons] at hlen
    simp only [ho, if_true, wp_bind, wp_modify, wp_memset, wp_pure]
    exact ⟨by simp, fun i => hk.1 (i + 1), by simp only; omega⟩

theorem thrifty_readPte {ref : PteRef} : Thrifty 0 (fun _ => True) (readPte ref) := by
  intro d k hk
  rw [Nat.zero_add] at hk
  exact wpe_of_wp (wp_readPte.mpr ⟨trivial, hk⟩)

theorem thrifty_setPage {g : Kmem → Page} :
    Thrifty 0 (fun _ => True) (do
      let k ← get
      setPage pa (g k)) := by
  intro d k hk
  rw [Nat.zero_add] at hk
  exact wpe_of_wp (wp_bind.mpr (wp_get.mpr (wp_setPage.mpr ⟨trivial, hk⟩)))

theorem thrifty_memset {b : UInt8} : Thrifty 0 (fun _ => True) (memset pa b) := by
  intro d k hk
  rw [Nat.zero_add] at hk
  exact wpe_of_wp (wp_memset.mpr ⟨trivial, hk⟩)

theorem thrifty_walkFrom {va : Nat} {level : Nat} : ∀ {a : Nat},
    Thrifty level (fun r => r ≠ none) (walkFrom va true level a) := by
  induction level with
  | zero => exact fun {a} => thrifty_pure nofun
  | succ level ih =>
    intro a
    refine (thrifty_readPte.bind (e := level + 1) fun pte _ => ?_).mono (by omega)
    split
    · exact ih.mono (Nat.le_succ level)
    · simp only [Bool.true_eq_false, if_false]
      refine (thrifty_kalloc.bind (e := level) fun r hr => ?_).mono (by omega)
      cases r with
      | none => exact absurd rfl hr
      | some page =>
        exact (thrifty_memset.bind fun _ _ => thrifty_setPage.bind fun _ _ => ih).mono (by omega)

theorem thrifty_walk {root va : Nat} : Thrifty 2 (fun r => r ≠ none) (walk root va true) := by
  unfold walk
  split
  · exact thrifty_panic
  · exact thrifty_walkFrom

theorem thrifty_mapPage {root a perm : Nat} : Thrifty 2 (fun b => b = true) (mapPage root a pa perm) := by
  refine (thrifty_walk.bind (e := 0) fun r hr => ?_)
  cases r with
  | none => exact absurd rfl hr
  | some ref =>
    refine (thrifty_readPte.bind (e := 0) fun pte _ => ?_)
    split
    · exact thrifty_panic
    · exact thrifty_setPage.bind (e := 0) fun _ _ => thrifty_pure rfl

theorem thrifty_mappages (root j pa perm : Nat) :
    Thrifty 2 (fun r => r = 0) (mappages root (j * PGSIZE) PGSIZE pa perm) := by
  have h1 : pgRoundDown (j * PGSIZE) = j * PGSIZE := by simp only [pgRoundDown, PGSIZE]; omega
  have h2 : pgRoundDown (j * PGSIZE + PGSIZE - 1) = j * PGSIZE := by simp only [pgRoundDown, PGSIZE]; omega
  rw [mappages, if_neg (by decide), h1, h2, Nat.sub_self, Nat.zero_div, mapLoop]
  refine thrifty_mapPage.bind (e := 0) fun b hb => ?_
  rw [hb]
  exact thrifty_pure rfl

theorem thrifty_procPagetable {L : Layout} {tf : Nat} : Thrifty 5 (fun r => r ≠ none) (procPagetable L tf) := by
  have hcreate : Thrifty 1 (fun r => r ≠ none) uvmcreate := by
    refine thrifty_kalloc.bind (e := 0) fun r hr => ?_
    cases r with
    | none => exact absurd rfl hr
    | some page => exact thrifty_memset.bind (e := 0) fun _ _ => thrifty_pure nofun
  refine hcreate.bind (e := 4) fun r hr => ?_
  cases r with
  | none => exact absurd rfl hr
  | some root =>
    rw [trampoline_eq, trapframe_eq]
    refine (thrifty_mappages _ _ _ _).bind (e := 2) fun r hr => ?_
    rw [hr, if_neg (by decide)]
    refine (thrifty_mappages _ _ _ _).bind (e := 0) fun r hr => ?_
    rw [hr, if_neg (by decide)]
    exact thrifty_pure nofun

end Thrifty

section Userinit

variable {L : Layout} {s : State} {R : Multiset FileId} {c : Nat} {k : Kmem} {p : ProcId}

theorem wp_kalloc_rich {Q : Option Nat → Kmem → Prop} (hk : Rich (1 + c) k)
    (hsome : ∀ r rest k', k.freelist = r :: rest → k'.freelist = rest →
      k'.mem = update k.mem r (fun _ => 5) → Rich c k' → Q (some r) k') : wp kalloc Q k := by
  refine wp_mono (wp_and_wpe (wp_kalloc (Q := fun r k' => r = none ∨ ∃ pa rest, r = some pa ∧
    k.freelist = pa :: rest ∧ k'.freelist = rest ∧ k'.mem = update k.mem pa fun _ => 5)
    (fun _ _ _ => .inl rfl) fun r rest _ h1 h2 h3 => .inr ⟨r, rest, rfl, h1, h2, h3⟩) (thrifty_kalloc c k hk)) ?_
  rintro r k' ⟨rfl | ⟨pa, rest, rfl, h1, h2, h3⟩, hne, hr⟩
  · exact absurd rfl hne
  · exact hsome pa rest k' h1 h2 h3 hr

theorem rich_initSlot (hk : Rich (6 + c) s.kmem) :
    wpe (fun _ => True) (initSlot L p) (fun r s' => r ≠ none ∧ Rich c s'.kmem) s := by
  rw [initSlot, wpe_bind]
  refine wpe_of_wp (wp_setProc.mpr ?_)
  rw [wpe_bind]
  refine wpe_zoom.mpr (wpe_mono (thrifty_kalloc (5 + c) _ (by rwa [← Nat.add_assoc])) ?_)
  rintro (_ | tf) k1 ⟨hne, hk1⟩
  · exact absurd rfl hne
  rw [wpe_bind]
  refine wpe_of_wp (wp_setProc.mpr ?_)
  rw [wpe_bind]
  refine wpe_zoom.mpr (wpe_mono (thrifty_procPagetable c _ hk1) ?_)
  rintro (_ | root) k2 ⟨hne, hk2⟩
  · exact absurd rfl hne
  exact wpe_of_wp (wp_bind.mpr (wp_setProc.mpr (wp_pure.mpr ⟨by simp, hk2⟩)))

theorem rich_allocproc (hk : Rich (6 + c) s.kmem) (hun : ∃ p, (s.proc p).state = .unused) :
    wpe (fun _ => True) (allocproc L) (fun r s' => r ≠ none ∧ Rich c s'.kmem) s := by
  rw [allocproc, wpe_bind]
  refine wpe_of_wp (wp_get.mpr ?_)
  split
  · rename_i hnone
    obtain ⟨p, hp⟩ := hun
    have := find?_eq_none.mp hnone p (mem_finRange p)
    simp [hp] at this
  · rw [wpe_bind]
    refine wpe_of_wp ?_
    simp only [allocpid, wp_bind, wp_get, wp_set, wp_pure]
    rw [wpe_bind]
    refine wpe_of_wp (wp_setProc.mpr ?_)
    exact rich_initSlot hk

theorem wp_uvmfirst_proc {root tf : Nat} {src : List UInt8} {X : Multiset Nat} (h : Inv L s X R)
    (ha : AddrSpace L s.kmem.mem (s.proc p) root tf) (hst : (s.proc p).state ≠ .unused)
    (hsz : (s.proc p).sz = 0) (hk : Rich 3 s.kmem) (hsrc : src.length < PGSIZE) :
    wp (uvmfirst root src) (fun _ k' => Inv L (withSz s p k' PGSIZE) X R) s.kmem := by
  have hall := pool_le (X := X) ha
  have hs := ha.space
  rw [hsz, npages_zero] at hall hs
  rw [pages_zero, add_zero] at hall
  have harena := (h.arena p).mono hall
  rw [uvmfirst, if_neg (Nat.not_le.mpr hsrc), wp_bind]
  refine wp_kalloc_rich (c := 2) hk ?_
  intro r rest k1 hfree hrest hm hk1
  rw [wp_bind, wp_memset, wp_bind]
  have hmap : wp (mappages root (0 * PGSIZE) PGSIZE r (PTE_W ||| PTE_R ||| PTE_X ||| PTE_U)) _
      { k1 with mem := update k1.mem r fun _ => 0 } :=
    wp_mappages_fresh (b := fun _ => 0) harena (Nat.le_refl 0) (by decide) hs (by simp) hfree hrest
      (by simp [hm]) (by decide) (by decide)
  rw [Nat.zero_mul] at hmap
  have hthrifty := thrifty_mappages root 0 r (PTE_W ||| PTE_R ||| PTE_X ||| PTE_U)
  rw [Nat.zero_mul] at hthrifty
  refine wp_mono (wp_and_wpe hmap (hthrifty 0 _ hk1)) ?_
  rintro res k4 ⟨⟨hfr, -, -, hr, T', ⟨-, hs', hsum'⟩ | ⟨hres, -⟩⟩, hok, -⟩
  · rw [wp_memmove]
    have hrP : r ∈ ↑s.kmem.freelist + Radix.nodes child (word s.kmem.mem) 2 root := by
      rw [hfree]
      simp
    have hnd := hsum' ▸ harena.nodup
    have hrT : ∀ x ∈ T', x ≠ r := by
      rintro x hx rfl
      rw [add_assoc] at hnd
      have hd := Multiset.disjoint_left.mp (Multiset.nodup_add.mp (Multiset.nodup_add.mp hnd).2.1).2.2 hx
      refine hd (mem_pages.mpr ⟨0, le_rfl, by decide, ?_⟩)
      rw [update_self, pte2pa_pte hr.1 (by decide)]
    refine (h.resize (T := T') ha hst (hs'.congr fun x hx => update_of_ne (hrT x hx) _ _) ?_ (by
      rw [hsz]; simp) (hfr.trans (Frame.update hrP)) fun j hj => absurd hj (by rw [hsz]; exact Nat.not_lt_zero j)).1
    rw [hsz, ← add_assoc, show npages PGSIZE = 1 from rfl]
    simpa using hsum'
  · rw [hok] at hres
    cases hres

theorem wp_userinit (h : Inv L s 0 R) (hk : Rich 9 s.kmem) (hun : ∃ p, (s.proc p).state = .unused) :
    wp (userinit L) (fun _ s' => Inv L s' 0 R) s := by
  rw [userinit, wp_bind]
  refine wp_mono (wp_and_wpe (wp_allocproc h) (rich_allocproc (c := 3) hk hun)) ?_
  rintro (_ | np) s1 ⟨⟨h1, hnp⟩, hne, hk1⟩
  · exact absurd rfl hne
  have hnp : NewProc s s1 np := hnp
  have hst : (s1.proc np).state ≠ .unused := by
    rw [hnp.state]
    simp
  have h2 : Inv L { s1 with initproc := some np } 0 R := ⟨h1.total, h1.proc, h1.file⟩
  obtain ⟨root, tf, ha⟩ := h2.space hst
  have hroot : (s1.proc np).pagetable = some root := ha.pagetable
  simp only [wp_bind, wp_modify, wp_get, wp_vm, hroot, Option.getD_some]
  refine wp_mono (wp_uvmfirst_proc (s := { s1 with initproc := some np }) h2 ha hst hnp.sz hk1 (by decide)) ?_
  intro _ k3 h3
  rw [wp_setProc]
  change wp _ _ (withSz { s1 with initproc := some np } np k3 PGSIZE)
  have hst3 : ((withSz { s1 with initproc := some np } np k3 PGSIZE).proc np).state ≠ .unused := by
    simpa [withSz] using hst
  generalize withSz { s1 with initproc := some np } np k3 PGSIZE = s3 at h3 hst3
  obtain ⟨root', tf', ha3⟩ := h3.space hst3
  rw [wp_setTrapframe ha3.trapframe]
  generalize putLE (s3.kmem.mem tf') 24 8 0 = page
  have h4 := h3.setFrame ha3 page
  have ha4 := AddrSpace.setFrame h3 ha3 page
  rw [wp_setTrapframe ha4.trapframe, wp_setProc]
  have h5 := h4.setFrame ha4 (putLE ((withFrame s3 tf' page).kmem.mem tf') 48 8 PGSIZE)
  refine h5.setProc _ rfl rfl rfl rfl ⟨by simp, fun he => absurd he ?_⟩ (by simp)
  exact hst3

end Userinit

/-! ## main -/

section Main

variable {L : Layout} {s : State} {R : Multiset FileId} {c : Nat} {n : Nat}

theorem wp_freerange : ∀ {a : Nat} {k : Kmem}, (∀ i < n, L.IsPage (a + i * PGSIZE)) →
    wp (freerange L n a) (fun _ k' => (∀ i, k.oracle i = true → k'.oracle i = true) ∧
      (↑k'.freelist : Multiset Nat) = ↑k.freelist + ↑((range n).map fun i => a + i * PGSIZE)) k := by
  induction n with
  | zero =>
    intro a k _
    exact wp_pure.mpr ⟨fun _ => id, by simp⟩
  | succ n ih =>
    intro a k hpage
    have h0 : L.IsPage a := by simpa using hpage 0 (Nat.succ_pos n)
    rw [freerange, wp_bind, wp_kfree h0]
    refine wp_mono (ih fun i hi => ?_) ?_
    · have := hpage (i + 1) (by omega)
      rwa [show a + PGSIZE + i * PGSIZE = a + (i + 1) * PGSIZE by rw [Nat.succ_mul]; omega]
    · rintro _ k' ⟨ho, hf⟩
      refine ⟨ho, ?_⟩
      rw [hf, range_succ_eq_map, map_cons, map_map, coe_cons_add, coe_cons_add, Nat.zero_mul,
        Nat.add_zero, add_comm ({a} : Multiset Nat), add_assoc]
      congr 3
      refine map_congr_left fun i _ => ?_
      simp only [comp_apply, Nat.succ_mul]
      omega

def Layout.npages (L : Layout) : Nat := (PHYSTOP - pgRoundUp L.kernelEnd) / PGSIZE

theorem wp_kinit (mem : Nat → Page) :
    wp (kinit L) (fun _ k' => Inv L { reset mem with kmem := k' } 0 0 ∧ Rich (Layout.npages L) k')
      (reset mem).kmem := by
  rw [kinit]
  refine wp_mono (wp_freerange fun i hi => (arena_allPages L).page _ ?_) ?_
  · exact Multiset.mem_coe.mpr (mem_map.mpr ⟨i, mem_range.mpr hi, rfl⟩)
  · rintro _ k' ⟨ho, hf⟩
    have hf : (↑k'.freelist : Multiset Nat) = allPages L := by
      rw [hf]
      exact zero_add _
    refine ⟨⟨?_, fun p => ?_, ?_⟩, fun i => ho i rfl, ?_⟩
    · have hz : ∀ p, procPages k'.mem ((reset mem).proc p) = 0 := fun p => procPages_none rfl rfl
      have hp : openPipes (reset mem).file = ∅ := by
        ext x
        rw [mem_openPipes]
        simp [reset]
      show ↑k'.freelist + (↑([] : List Nat) : Multiset Nat) + ∑ p, procPages k'.mem ((reset mem).proc p) +
        (openPipes (reset mem).file).val + 0 = allPages L
      rw [Finset.sum_congr rfl fun p _ => hz p, hp, hf]
      simp
    · exact ⟨⟨nofun, fun _ => rfl⟩, fun _ => ⟨rfl, rfl⟩, fun h => absurd rfl h, fun _ _ => rfl⟩
    · have hz : ∀ p, ofiles ((reset mem).proc p) = 0 := fun p => Finset.sum_eq_zero fun _ _ => rfl
      show FileOk k'.mem (reset mem).file (∑ p, ofiles ((reset mem).proc p) + 0)
      rw [Finset.sum_congr rfl fun p _ => hz p]
      refine ⟨fun f => ?_, fun _ _ => rfl, nofun, nofun, nofun⟩
      simp [reset]
    · have := congrArg Multiset.card hf
      simp only [Multiset.coe_card, allPages, length_map, length_range] at this
      exact Nat.le_of_eq this.symm

theorem wp_allocKernel : ∀ {s : State}, Inv L s 0 R → Rich (n + c) s.kmem →
    wp (allocKernel n) (fun _ s' => Inv L s' 0 R ∧ Rich c s'.kmem ∧ s'.proc = s.proc) s := by
  induction n with
  | zero =>
    intro s h hk
    exact wp_pure.mpr ⟨h, by simpa using hk, rfl⟩
  | succ n ih =>
    intro s h hk
    rw [allocKernel, wp_bind, wp_vm]
    refine wp_kalloc_rich (c := n + c) (by rwa [← Nat.add_assoc, Nat.add_comm 1]) ?_
    intro pa rest k1 hfree hrest hm hk1
    have h1 : Inv L { s with kmem := k1 } {pa} R := by
      refine h.pool ?_ ?_
      · rw [hrest, hfree, coe_cons_add]
        abel
      · rw [hm, hfree]
        exact Frame.update (by simp)
    have h2 : Inv L { s with kmem := k1, kernelPages := pa :: s.kernelPages } 0 R := by
      refine ⟨?_, h1.proc, h1.file⟩
      rw [← h1.total, coe_cons_add]
      abel
    simp only [wp_bind, wp_modify]
    refine wp_mono (ih h2 hk1) ?_
    rintro _ s' ⟨h', hk', hp'⟩
    exact ⟨h', hk', hp'⟩

theorem wp_main (mem : Nat → Page) (hn : n + 9 ≤ Layout.npages L) :
    wp (main L n) (fun _ s => Inv L s 0 0) (reset mem) := by
  rw [main, wp_bind, wp_vm]
  refine wp_mono (wp_kinit mem) ?_
  rintro _ k1 ⟨h1, hk1⟩
  rw [wp_bind]
  refine wp_mono (wp_allocKernel (c := 9) h1 ⟨hk1.1, hn.trans hk1.2⟩) ?_
  rintro _ s2 ⟨h2, hk2, hp2⟩
  exact wp_userinit h2 hk2 ⟨0, by rw [hp2]; rfl⟩

end Main

end Sys
end Xv6
