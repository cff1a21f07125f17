import Xv6.Sys.Contents

/-!
# Xv6.Sys.Image

`exec` builds a new address space from pages of the free list and gives all of them back when it
fails (`wp_buildImage`). In particular `loadseg` finds every page that it loads.

* `Loadable`: the program can be loaded and there is memory for its stack.
* `wp_buildImage_of`: the rule for `buildImage`. Either the program is not loadable, or the arguments are
  pushed in a memory that has the segments, a guard page and an empty stack.
* `wp_pushStack_low`: pushing arguments leaves all pages below the stack alone.
-/

namespace Xv6
namespace Sys

open Bytes Wp Vm

/-- The address space at `root` that `exec` is building, of size `sz`, from the pages `P`. -/
def Building (L : Layout) (P : Multiset Nat) (m : Nat → Page) (tf root sz : Nat) (k : Kmem) : Prop :=
  ∃ T u, ↑k.freelist + T + pages u 0 (npages sz) = P ∧ Frame P m k.mem ∧
    Space k.mem root T u (npages sz) (topPtes L tf)

section Build

variable {L : Layout} {P T : Multiset Nat} {m : Nat → Page} {tf root sz n entry : Nat} {u : Nat → Nat} {k : Kmem}
  {v : UserMem} {file : List UInt8} {argv : List Nat} {base : Nat}

theorem Holds.building (h : Holds L P m tf root k v) (hn : v.n = npages sz) : Building L P m tf root sz k := by
  obtain ⟨T, u, h⟩ := h
  refine ⟨T, u, ?_, h.frame, ?_⟩
  · rw [← hn]
    exact h.sum
  · rw [← hn]
    exact h.space

theorem Building.holds (h : Building L P m tf root sz k) : ∃ v, v.n = npages sz ∧ Holds L P m tf root k v := by
  obtain ⟨T, u, hsum, hfr, hs⟩ := h
  exact ⟨⟨npages sz, userByte k.mem u, fun j => pteFlags (u j)⟩, rfl, T, u, hsum, hfr, hs, fun _ _ => rfl, fun _ _ => rfl⟩

theorem wp_bad (hP : Arena L P) (h : Building L P m tf root sz k) :
    wp (bad L root sz) (fun r k' => r = none ∧ ↑k'.freelist = P ∧ Frame P m k'.mem) k := by
  obtain ⟨T, u, hsum, hfr, hs⟩ := h
  rw [bad, wp_bind]
  refine wp_mono (wp_procFreepagetable hP hs hsum) ?_
  rintro _ k' ⟨h1, h2⟩
  exact wp_pure.mpr ⟨rfl, h1, hfr.trans h2⟩

/-! ## The stack -/

def pushStack (L : Layout) (pagetable sz entry : Nat) (argv : List Nat) : K (Option Image) := do
  match ← pushArgs pagetable (sz - PGSIZE) argv sz [] with
  | none => bad L pagetable sz
  | some (sp, ustack) => pushUstack L pagetable sz entry sp ustack

structure SameBelow (base : Nat) (v v' : UserMem) : Prop where
  n : v'.n = v.n
  flags : v'.flags = v.flags
  byte : ∀ a < base, v'.byte a = v.byte a

theorem SameBelow.refl : SameBelow base v v := ⟨rfl, rfl, fun _ _ => rfl⟩

theorem SameBelow.trans {v' v'' : UserMem} (h : SameBelow base v v') (h' : SameBelow base v' v'') :
    SameBelow base v v'' :=
  ⟨h'.n.trans h.n, h'.flags.trans h.flags, fun a ha => (h'.byte a ha).trans (h.byte a ha)⟩

theorem wp_copyout_below {va : Nat} {l : List UInt8} (hP : Arena L P) (h : Holds L P m tf root k v) (hva : base ≤ va) :
    wp (copyout root va l) (fun _ k' => ∃ v', SameBelow base v v' ∧ Holds L P m tf root k' v') k := by
  obtain ⟨T, u, h⟩ := h
  refine wp_mono (wp_copyout topPtes_user (h.nodup hP) h.space) ?_
  rintro _ k' ⟨-, hw⟩
  refine ⟨{ v with byte := fun a => if a < base then v.byte a else userByte k'.mem u a }, ⟨rfl, rfl, fun a ha => if_pos ha⟩,
    T, u, (h.written hP hw).congr rfl (fun _ _ => rfl) fun a ha => ?_⟩
  dsimp only
  split
  · rw [hw.byte a ha (by omega), h.byte a ha]
  · rfl

theorem wp_pushArgs_below (hP : Arena L P) {stackbase : Nat} :
    ∀ {sp : Nat} {ustack : List Nat} {v : UserMem} {k : Kmem}, Holds L P m tf root k v →
    wp (pushArgs root stackbase argv sp ustack) (fun _ k' => ∃ v', SameBelow stackbase v v' ∧ Holds L P m tf root k' v') k := by
  induction argv with
  | nil =>
    intro sp ustack v k h
    exact wp_pure.mpr ⟨v, .refl, h⟩
  | cons arg argv ih =>
    intro sp ustack v k h
    simp only [pushArgs, wp_ite, wp_bind, wp_get]
    refine ⟨fun _ => wp_pure.mpr ⟨v, .refl, h⟩, fun _ => ⟨fun _ => wp_pure.mpr ⟨v, .refl, h⟩, fun hsp => ?_⟩⟩
    refine wp_mono (wp_copyout_below hP h (Nat.le_of_not_lt hsp)) ?_
    rintro r k' ⟨v', hv', h'⟩
    refine ⟨fun _ => wp_pure.mpr ⟨v', hv', h'⟩, fun _ => wp_mono (ih h') ?_⟩
    rintro _ k'' ⟨v'', hv'', h''⟩
    exact ⟨v'', hv'.trans hv'', h''⟩

/-- What `exec` has when it has pushed the arguments, or has failed. -/
def Pushed (L : Layout) (P : Multiset Nat) (m : Nat → Page) (tf root sz entry : Nat) (v : UserMem) (k : Kmem) : Option Image → Prop
  | none => ↑k.freelist = P ∧ Frame P m k.mem
  | some im => im.pagetable = root ∧ im.sz = sz ∧ im.entry = entry ∧
      ∃ v', SameBelow (sz - PGSIZE) v v' ∧ Holds L P m tf root k v'

theorem wp_pushStack_low (hP : Arena L P) (h : Holds L P m tf root k v) (hn : v.n = npages sz) :
    wp (pushStack L root sz entry argv) (fun r k' => Pushed L P m tf root sz entry v k' r) k := by
  have hbad : ∀ {k : Kmem} {v' : UserMem}, SameBelow (sz - PGSIZE) v v' → Holds L P m tf root k v' →
      wp (bad L root sz) (fun r k' => Pushed L P m tf root sz entry v k' r) k := by
    intro k v' hv' h'
    refine wp_mono (wp_bad hP (h'.building (hv'.n.trans hn))) ?_
    rintro _ k' ⟨rfl, hfail⟩
    exact hfail
  rw [pushStack, wp_bind]
  refine wp_mono (wp_pushArgs_below hP h) ?_
  rintro (_ | ⟨sp, ustack⟩) k1 ⟨v1, hv1, h1⟩
  · exact hbad hv1 h1
  · simp only [pushUstack, wp_ite, wp_bind]
    refine ⟨fun _ => hbad hv1 h1, fun hsp => ?_⟩
    refine wp_mono (wp_copyout_below hP h1 (Nat.le_of_not_lt hsp)) ?_
    rintro r k2 ⟨v2, hv2, h2⟩
    exact ⟨fun _ => hbad (hv1.trans hv2) h2, fun _ => wp_pure.mpr ⟨rfl, rfl, rfl, v2, hv1.trans hv2, h2⟩⟩

/-! ## The image -/

/-- The program is loaded, and there is memory for the stack. -/
def Loadable (L : Layout) (tf : Nat) (file : List UInt8) (k : Kmem) : Prop :=
  (readi file 0 64).length = 64 ∧ field (readi file 0 64) 0 4 = ELF_MAGIC ∧
    ∃ root k₁ sz k₂ sz1 k₃, procPagetable L tf k = .ok (some root, k₁) ∧
      loadProgram L file root (field (readi file 0 64) 56 2) (field (readi file 0 64) 32 8 % 2 ^ 32) 0 k₁ = .ok ((true, sz), k₂) ∧
      uvmalloc L root (pgRoundUp sz) (pgRoundUp sz + 2 * PGSIZE) PTE_W k₂ = .ok (sz1, k₃) ∧ sz1 ≠ 0

def UserMem.empty : UserMem := ⟨0, fun _ => 0, fun _ => 0⟩

/-- The segments that `exec` loads. It takes the offset of the program headers as a 32-bit number. -/
def loadedSegs (file : List UInt8) : List Seg :=
  segsFrom file (field (readi file 0 64) 56 2) (field (readi file 0 64) 32 8 % 2 ^ 32)

theorem wp_buildImage_of {Q : Option Image → Kmem → Prop} (hP : Arena L P) (hc : P.card ≤ 2 ^ 15) (hsum : ↑k.freelist = P)
    (htf : tf < 2 ^ 56) (hfail : ∀ k', ¬ Loadable L tf file k → ↑k'.freelist = P → Frame P k.mem k'.mem → Q none k')
    (hnext : ∀ root v k', v.Usable → Holds L P k.mem tf root k' ((v.grow (v.n + 2) (userFlags PTE_W)).guard v.n) →
      (file.length < 2 ^ 32 → (∀ g ∈ loadedSegs file, g.Passed file) ∧ v = (loadedSegs file).foldl (UserMem.load file) .empty) →
      wp (pushStack L root ((v.n + 2) * PGSIZE) (field (readi file 0 64) 24 8) argv) Q k') :
    wp (buildImage L tf file argv) Q k := by
  simp only [buildImage, wp_ite, wp_bind]
  refine ⟨fun hne => wp_pure.mpr (hfail k (fun hl => hne hl.1) hsum Frame.refl), fun _ =>
    ⟨fun hne => wp_pure.mpr (hfail k (fun hl => hne hl.2.1) hsum Frame.refl), fun _ => ?_⟩⟩
  obtain ⟨r, k1, hrun1, h1⟩ := wp_iff.mp (wp_procPagetable hP hsum htf)
  refine wp_iff.mpr ⟨r, k1, hrun1, ?_⟩
  cases r with
  | none =>
    refine wp_pure.mpr (hfail k1 ?_ h1.1 h1.2)
    rintro ⟨-, -, root, k1', -, -, -, -, hrun, -⟩
    cases hrun1.symm.trans hrun
  | some root =>
    obtain ⟨⟨T, hsum1, hs1⟩, hfr1⟩ := h1
    have hempty : Holds L P k.mem tf root k1 .empty :=
      ⟨T, fun _ => 0, by simpa [UserMem.empty] using hsum1, hfr1, hs1, fun j hj => absurd hj (Nat.not_lt_zero j),
        fun a ha => absurd ha (by simp [UserMem.empty])⟩
    rw [wp_bind]
    have hload : wp (loadProgram L file root (field (readi file 0 64) 56 2) (field (readi file 0 64) 32 8 % 2 ^ 32) 0) _ k1 :=
      wp_loadProgram_holds hP hc hempty rfl fun j hj => absurd hj (Nat.not_lt_zero j)
    obtain ⟨⟨ok, sz⟩, k2, hrun2, v, hn, hu, h2, hexact⟩ := wp_iff.mp hload
    refine wp_iff.mpr ⟨(ok, sz), k2, hrun2, ?_⟩
    cases ok with
    | false =>
      refine wp_mono (wp_bad hP (h2.building hn)) ?_
      rintro _ k' ⟨rfl, hfree, hfr⟩
      refine hfail k' ?_ hfree hfr
      rintro ⟨-, -, root', k1', sz', k2', -, -, hr1, hr2, -⟩
      cases hrun1.symm.trans hr1
      cases hrun2.symm.trans hr2
    | true =>
      dsimp only at hn
      have hlt : sz < 2 ^ 63 := by
        obtain ⟨T2, u2, h2⟩ := h2
        have hle := h2.space.le
        have h : sz ≤ npages sz * PGSIZE := le_npages_mul
        simp only [PGSIZE] at h
        omega
      have hround : pgRoundUp sz = v.n * PGSIZE := by rw [pgRoundUp_eq hlt, hn]
      have hgrown : v.n * PGSIZE + 2 * PGSIZE = (v.n + 2) * PGSIZE := (Nat.add_mul v.n 2 PGSIZE).symm
      have halloc : wp (uvmalloc L root (v.n * PGSIZE) ((v.n + 2) * PGSIZE) PTE_W) _ k2 :=
        wp_uvmalloc_holds hP hc h2 npages_mul.symm (by omega) (by decide)
      obtain ⟨r, k3, hrun3, h3⟩ := wp_iff.mp halloc
      rw [if_pos rfl, hround, buildStack, hgrown, wp_bind]
      refine wp_iff.mpr ⟨r, k3, hrun3, ?_⟩
      by_cases hr : r = 0
      · -- there is no memory for the stack
        have hv : Holds L P k.mem tf root k3 v := by
          rcases h3 with ⟨-, hv⟩ | ⟨hr', -⟩
          · exact hv
          · simp only [PGSIZE] at hr'
            omega
        rw [if_pos hr]
        refine wp_mono (wp_bad hP (hv.building npages_mul.symm)) ?_
        rintro _ k' ⟨rfl, hfree, hfr⟩
        refine hfail k' ?_ hfree hfr
        rintro ⟨-, -, root', k1', sz', k2', sz1, k3', hr1, hr2, hr3, hne⟩
        cases hrun1.symm.trans hr1
        cases hrun2.symm.trans hr2
        rw [hround, hgrown] at hr3
        cases hrun3.symm.trans hr3
        exact hne hr
      · obtain ⟨rfl, hv⟩ := h3.resolve_left fun h => hr h.1
        have hguard : (v.n + 2) * PGSIZE - 2 * PGSIZE = v.n * PGSIZE := by
          simp only [PGSIZE]
          omega
        rw [npages_mul] at hv
        rw [if_neg hr, wp_bind, hguard]
        refine wp_mono (wp_uvmclear_holds hP hv (by rw [UserMem.grow_n]; omega)) ?_
        intro _ k4 h4
        exact hnext root v k4 hu h4 fun hfile => hexact rfl hfile (Nat.mod_lt _ (by decide))

/-- What `exec` has when it commits, or when it has failed. -/
def Built (L : Layout) (P : Multiset Nat) (m : Nat → Page) (tf : Nat) (k : Kmem) : Option Image → Prop
  | none => ↑k.freelist = P ∧ Frame P m k.mem
  | some im => Building L P m tf im.pagetable im.sz k

theorem Pushed.built {r : Option Image} (h : Pushed L P m tf root sz entry v k r) (hn : v.n = npages sz) :
    Built L P m tf k r := by
  cases r with
  | none => exact h
  | some im =>
    obtain ⟨rfl, rfl, -, v', hv', h'⟩ := h
    exact h'.building (hv'.n.trans hn)

theorem wp_buildImage (hP : Arena L P) (hc : P.card ≤ 2 ^ 15) (hsum : ↑k.freelist = P) (htf : tf < 2 ^ 56) :
    wp (buildImage L tf file argv) (fun r k' => Built L P k.mem tf k' r) k := by
  refine wp_buildImage_of hP hc hsum htf (fun k' _ hfree hfr => ⟨hfree, hfr⟩) fun root v k' _ h _ => ?_
  refine wp_mono (wp_pushStack_low hP h npages_mul.symm) ?_
  intro r k'' hr
  exact hr.built npages_mul.symm

end Build

end Sys
end Xv6
