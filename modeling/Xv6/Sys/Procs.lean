import Xv6.Sys.Files
import Xv6.Sys.Image

/-!
# Xv6.Sys.Procs

A process gets its pages, changes its size, and gives its pages back.

* `wp_freeproc`: all pages of a process are on the free list afterwards.
* `wp_allocproc`: a new process with an empty address space, or nothing at all.
* `wp_growproc`, `wp_ps`: the bytes below the old and the new size are kept (`Kept`).
-/

namespace Xv6
namespace Sys

open Bytes Wp Vm Function Multiset Radix

/-! ## freeproc and allocproc -/

def cleared (q : Proc) : Proc :=
  { q with
    trapframe := none, pagetable := none, sz := 0, pid := 0, parent := none, name := putBytes q.name 0 [0]
    chan := 0, killed := 0, xstate := 0, state := .unused }

@[simp] theorem procPages_none {mem : Nat → Page} {q : Proc} (hp : q.pagetable = none) (ht : q.trapframe = none) :
    procPages mem q = 0 := by
  rw [procPages, framePages, tablePages, userPages, hp, ht]
  rfl

section Freeproc

variable {L : Layout} {s : State} {P : Multiset Nat} {p : ProcId}

theorem wp_freeprocRaw {q : Proc} (hq : s.proc p = q) (hP : Arena L P) (hown : Owned L s.kmem.mem q)
    (hsum : ↑s.kmem.freelist + procPages s.kmem.mem q = P) :
    wp (freeproc L p) (fun _ s' => ∃ k', ↑k'.freelist = P ∧ Frame P s.kmem.mem k'.mem ∧
      s' = { s with kmem := k', proc := update s.proc p (cleared q) }) s := by
  subst hq
  simp only [freeproc, wp_bind, wp_get]
  cases hpt : (s.proc p).pagetable with
  | none =>
    cases htf : (s.proc p).trapframe with
    | none =>
      rw [procPages_none hpt htf, add_zero] at hsum
      simp only [Option.elim_none, wp_pure, wp_setProc, update_self, update_idem]
      exact ⟨s.kmem, hsum, Frame.refl, by rw [cleared]⟩
    | some tf =>
      have hpages : procPages s.kmem.mem (s.proc p) = {tf} := by
        rw [procPages, framePages, tablePages, userPages, hpt, htf]
        simp
      rw [hpages] at hsum
      have htfP : tf ∈ P := by
        rw [← hsum]
        simp
      simp only [Option.elim_none, Option.elim_some, wp_pure, wp_vm, wp_setProc, update_self,
        update_idem]
      rw [wp_kfree (hP.page tf htfP)]
      refine ⟨_, ?_, Frame.update htfP, by rw [cleared]⟩
      rw [coe_cons_add, add_comm]
      exact hsum
  | some root =>
    obtain ⟨tf, ha⟩ := hown.space root hpt
    rw [ha.pages_eq] at hsum
    have htfP : tf ∈ P := by
      rw [← hsum]
      simp
    have hnot : ∀ x ∈ nodes child (word s.kmem.mem) 2 root, x ≠ tf := by
      rintro x hx rfl
      have hd := hP.nodup
      rw [← hsum] at hd
      have hd' := (nodup_add.mp (nodup_add.mp hd).2.1).1
      exact notMem_of_nodup_add hd' hx (mem_singleton_self x)
    simp only [ha.trapframe, Option.elim_some, wp_vm, wp_setProc, update_self, update_idem]
    rw [wp_kfree (hP.page tf htfP)]
    have hs : Space (update s.kmem.mem tf fun _ => 1) root _ _ _ _ := ha.space.congr fun x hx =>
      update_of_ne (hnot x hx) _ _
    refine wp_mono (wp_procFreepagetable (P := P) hP hs ?_) ?_
    · rw [← hsum, coe_cons_add]
      abel
    · rintro _ k' ⟨h1, h2⟩
      exact ⟨k', h1, (Frame.update htfP).trans h2, by rw [cleared]⟩

theorem procOk_cleared {mem : Nat → Page} {q : Proc} (hof : ∀ fd, q.ofile fd = none) : ProcOk L mem (cleared q) :=
  ⟨⟨nofun, fun _ => rfl⟩, fun _ => ⟨rfl, rfl⟩, fun h => absurd rfl h, fun _ => hof⟩

variable {X : Multiset Nat} {R : Multiset FileId}

theorem wp_freeproc (h : Inv L s X R) (hof : ∀ fd, (s.proc p).ofile fd = none) :
    wp (freeproc L p) (fun _ s' => Inv L s' X R ∧
      s' = { s with kmem := s'.kmem, proc := update s.proc p (cleared (s.proc p)) } ∧
      (↑s'.kmem.freelist : Multiset Nat) = ↑s.kmem.freelist + procPages s.kmem.mem (s.proc p)) s := by
  have hle : ↑s.kmem.freelist + procPages s.kmem.mem (s.proc p) ≤
      ↑s.kmem.freelist + procPages s.kmem.mem (s.proc p) + X := le_add_right _ _
  refine wp_mono (wp_freeprocRaw rfl ((h.arena p).mono hle) (h.proc p).toOwned rfl) ?_
  rintro _ s' ⟨k', hfree, hfr, rfl⟩
  refine ⟨h.update p _ _ _ ?_ (hfr.mono hle) (procOk_cleared hof) rfl, rfl, hfree⟩
  rw [hfree, procPages_none (q := cleared _) rfl rfl, add_zero]

def allocated (q : Proc) (tf root : Nat) : Proc :=
  { q with state := .used, trapframe := some tf, pagetable := some root }

theorem wp_initSlot (hP : Arena L P) (hsum : ↑s.kmem.freelist = P) (hpt : (s.proc p).pagetable = none)
    (hsz : (s.proc p).sz = 0) : wp (initSlot L p) (fun r s' => ∃ k', Frame P s.kmem.mem k'.mem ∧
      ((r = none ∧ ↑k'.freelist = P ∧
          s' = { s with kmem := k', proc := update s.proc p (cleared (s.proc p)) }) ∨
        (r = some p ∧ ∃ tf root T, ↑k'.freelist + ({tf} + T) = P ∧
          Space k'.mem root T (fun _ => 0) 0 (topPtes L tf) ∧
          s' = { s with kmem := k', proc := update s.proc p (allocated (s.proc p) tf root) }))) s := by
  simp only [initSlot, wp_bind, wp_setProc, wp_vm]
  refine wp_kalloc ?_ ?_
  · intro k1 hm hf
    simp only [wp_bind, wp_setProc, update_self, update_idem]
    refine wp_mono (wp_freeprocRaw (P := P) (update_self _ _ _) hP ⟨fun root hr => ?_, fun _ => hsz⟩ ?_) ?_
    · cases hpt.symm.trans hr
    · rw [procPages_none (by exact hpt) rfl, add_zero]
      exact (congrArg _ hf).trans hsum
    · rintro _ s' ⟨k', h1, h2, rfl⟩
      rw [hm] at h2
      simp only [update_idem]
      exact wp_pure.mpr ⟨k', h2, .inl ⟨rfl, h1, rfl⟩⟩
  · intro tf rest k1 hfree hrest hm
    rw [hfree, coe_cons_add] at hsum
    have htfP : tf ∈ P := by
      rw [← hsum]
      simp
    have hrestP : ↑rest ≤ P := by
      rw [← hsum]
      exact le_add_left _ _
    have hfr1 : Frame P s.kmem.mem k1.mem := by
      rw [hm]
      exact Frame.update htfP
    simp only [wp_bind, wp_setProc, wp_vm, update_self, update_idem]
    refine wp_mono (wp_procPagetable (hP.mono hrestP) (by rw [hrest]) (hP.page tf htfP).lt) ?_
    rintro (_ | root) k2 h₂
    · obtain ⟨hfree2, hfr2⟩ := h₂
      simp only [wp_bind, wp_setProc, update_self, update_idem]
      refine wp_mono (wp_freeprocRaw (P := P) (update_self _ _ _) hP ⟨by simp, fun _ => hsz⟩ ?_) ?_
      · rw [procPages, framePages, tablePages, userPages]
        simp only [Option.elim_none, Option.elim_some, add_zero]
        rw [hfree2, ← hsum, add_comm]
      · rintro _ s' ⟨k', h1, h2, rfl⟩
        simp only [update_idem]
        exact wp_pure.mpr ⟨k', (hfr1.trans (hfr2.mono hrestP)).trans h2, .inl ⟨rfl, h1, rfl⟩⟩
    · obtain ⟨⟨T, hsum2, hs2⟩, hfr2⟩ := h₂
      simp only [wp_bind, wp_setProc, update_self, update_idem]
      refine wp_pure.mpr ⟨k2, hfr1.trans (hfr2.mono hrestP), .inr ⟨rfl, tf, root, T, ?_, hs2, rfl⟩⟩
      rw [← hsum, ← hsum2]
      abel

/-- A new process, with an address space that has no user pages. -/
structure NewProc (s s' : State) (np : ProcId) : Prop where
  unused : (s.proc np).state = .unused
  state : (s'.proc np).state = .used
  sz : (s'.proc np).sz = 0
  ofile : ∀ fd, (s'.proc np).ofile fd = none
  other : ∀ j, j ≠ np → s'.proc j = s.proc j

theorem wp_allocproc (h : Inv L s X R) : wp (allocproc L) (fun r s' => Inv L s' X R ∧
      r.elim (SameStates s s') (NewProc s s')) s := by
  simp only [allocproc, wp_bind, wp_get]
  split
  · exact wp_pure.mpr ⟨h, fun _ => rfl⟩
  rename_i p hfind
  have hst : (s.proc p).state = .unused := by simpa using List.find?_some hfind
  have hq := h.proc p
  obtain ⟨hpt, htf⟩ := hq.unused hst
  have hof := hq.closed (.inl hst)
  have hsz := hq.empty hpt
  have hle : ↑s.kmem.freelist ≤ ↑s.kmem.freelist + procPages s.kmem.mem (s.proc p) + X := by
    rw [add_assoc]
    exact le_add_right _ _
  simp only [allocpid, wp_bind, wp_get, wp_set, wp_pure, wp_setProc]
  refine wp_mono (wp_initSlot (P := ↑s.kmem.freelist) ((h.arena p).mono hle) rfl ?_ ?_) ?_
  · simpa using hpt
  · simpa using hsz
  rintro r s' ⟨k', hfr, ⟨rfl, hfree, rfl⟩ | ⟨rfl, tf, root, T, hsum, hs, rfl⟩⟩
  · simp only [update_self, update_idem]
    refine ⟨?_, fun j => ?_⟩
    · have h' := h.update p k' (cleared { s.proc p with pid := s.nextpid }) X
        (by rw [hfree, procPages_none hpt htf, procPages_none rfl rfl]) (hfr.mono hle) (procOk_cleared hof) rfl
      exact ⟨h'.total, h'.proc, h'.file⟩
    · by_cases hj : j = p
      · subst hj
        simp [cleared, hst]
      · simp [hj]
  · simp only [update_self, update_idem]
    refine ⟨?_, ⟨hst, by simp [allocated], by simpa [allocated] using hsz, by simpa [allocated] using hof,
      fun j hj => by simp [hj]⟩⟩
    have hn : npages (allocated { s.proc p with pid := s.nextpid } tf root).sz = 0 := by simp [allocated, hsz]
    obtain ⟨ho, hp⟩ := AddrSpace.of_space (L := L) (m := k'.mem)
      (q := allocated { s.proc p with pid := s.nextpid } tf root) (u := fun _ => 0) rfl rfl (by rw [hn]; exact hs)
    have h' := h.update p k' (allocated { s.proc p with pid := s.nextpid } tf root) X
      (by rw [hp, hn, procPages_none hpt htf, pages_zero, add_zero, add_zero, hsum]) (hfr.mono hle)
      ⟨ho.owned, by rintro ⟨⟩, fun _ => ⟨root, rfl⟩, fun _ => hof⟩ rfl
    exact ⟨h'.total, h'.proc, h'.file⟩

end Freeproc

/-! ## Sizes and contents of user memory -/

/-- The process keeps its table and the bytes below the old and the new size. -/
def Kept (p : ProcId) (s s' : State) : Prop :=
  (s'.proc p).pagetable = (s.proc p).pagetable ∧ ∀ root, (s.proc p).pagetable = some root →
    ∀ a, a < (s.proc p).sz → a < (s'.proc p).sz →
      userByte s'.kmem.mem (pteAt s'.kmem.mem root) a = userByte s.kmem.mem (pteAt s.kmem.mem root) a

section Kept

variable {s s' s'' : State} {p : ProcId}

theorem div_lt_npages {a sz : Nat} (h : a < sz) : a / PGSIZE < npages sz := by
  simp only [npages, PGSIZE]
  omega

theorem Kept.trans (h : Kept p s s') (h' : Kept p s' s'') (hsz : (s''.proc p).sz = (s'.proc p).sz) :
    Kept p s s'' := by
  refine ⟨h'.1.trans h.1, fun root hr a ha ha' => ?_⟩
  rw [hsz] at ha'
  exact (h'.2 root (by rw [h.1]; exact hr) a ha' (by rw [hsz]; exact ha')).trans (h.2 root hr a ha ha')

theorem Kept.of_mem (hpt : (s'.proc p).pagetable = (s.proc p).pagetable)
    (hm : ∀ x ∈ tablePages s.kmem.mem (s.proc p) + userPages s.kmem.mem (s.proc p),
      s'.kmem.mem x = s.kmem.mem x) : Kept p s s' := by
  refine ⟨hpt, fun root hr a ha _ => ?_⟩
  have hw : ∀ x ∈ nodes child (word s.kmem.mem) 2 root, word s'.kmem.mem x = word s.kmem.mem x := by
    intro x hx
    funext j
    rw [word, hm x (mem_add.mpr (.inl (by rw [tablePages, hr]; exact hx))), word]
  have hl : pteAt s'.kmem.mem root (a / PGSIZE) = pteAt s.kmem.mem root (a / PGSIZE) := lookup_congr hw
  rw [userByte, userByte, hl, hm _ (mem_add.mpr (.inr ?_))]
  rw [userPages, hr]
  exact mem_pages.mpr ⟨a / PGSIZE, Nat.zero_le _, by rw [Nat.zero_add]; exact div_lt_npages ha, rfl⟩

end Kept

section Grow

variable {L : Layout} {s : State} {X : Multiset Nat} {R : Multiset FileId} {p : ProcId} {root tf : Nat} {k' : Kmem}

def withSz (s : State) (p : ProcId) (k : Kmem) (sz : Nat) : State :=
  { s with kmem := k, proc := update s.proc p { s.proc p with sz := sz } }

theorem pool_le (ha : AddrSpace L s.kmem.mem (s.proc p) root tf) :
    ↑s.kmem.freelist + nodes child (word s.kmem.mem) 2 root +
      pages (pteAt s.kmem.mem root) 0 (npages (s.proc p).sz) ≤
      ↑s.kmem.freelist + procPages s.kmem.mem (s.proc p) + X := by
  rw [ha.pages_eq, add_assoc, add_assoc ({tf} : Multiset Nat)]
  exact le_trans (add_le_add le_rfl (le_add_left _ _)) (le_add_right _ _)

theorem Inv.resize {T P : Multiset Nat} {u : Nat → Nat} {sz : Nat} (h : Inv L s X R)
    (ha : AddrSpace L s.kmem.mem (s.proc p) root tf) (hst : (s.proc p).state ≠ .unused)
    (hs : Space k'.mem root T u (npages sz) (topPtes L tf))
    (hsum : ↑k'.freelist + (T + pages u 0 (npages sz)) = ↑s.kmem.freelist +
      (nodes child (word s.kmem.mem) 2 root + pages (pteAt s.kmem.mem root) 0 (npages (s.proc p).sz)))
    (hP : P ≤ ↑s.kmem.freelist + (nodes child (word s.kmem.mem) 2 root +
      pages (pteAt s.kmem.mem root) 0 (npages (s.proc p).sz))) (hfr : Frame P s.kmem.mem k'.mem)
    (hu : ∀ j, j < npages (s.proc p).sz → j < npages sz →
      u j = pteAt s.kmem.mem root j ∧ pte2pa (pteAt s.kmem.mem root j) ∉ P) :
    Inv L (withSz s p k' sz) X R ∧ Kept p s (withSz s p k' sz) := by
  have hq := h.proc p
  obtain ⟨ho, hp⟩ := AddrSpace.of_space (q := { s.proc p with sz := sz }) ha.pagetable ha.trapframe hs
  have hle := pool_le (X := X) ha
  rw [add_assoc] at hle
  refine ⟨h.update p _ _ _ ?_ (hfr.mono (hP.trans hle))
    ⟨ho.owned, fun hz => absurd hz hst, hq.live, hq.closed⟩ rfl, ?_, fun root' hr a h1 h2 => ?_⟩
  · rw [hp, ha.pages_eq]
    calc _ = ↑k'.freelist + (T + pages u 0 (npages sz)) + {tf} + X := by abel
      _ = _ := by
        rw [hsum]
        abel
  · simp [withSz]
  · cases ha.pagetable.symm.trans hr
    have h2' : a < sz := by simpa [withSz] using h2
    obtain ⟨h3, h4⟩ := hu _ (div_lt_npages h1) (div_lt_npages h2')
    have hpte : pteAt k'.mem root (a / PGSIZE) = u (a / PGSIZE) := by
      have hle := hs.le
      have := div_lt_npages h2'
      exact (hs.table.map _ (by omega)).trans (if_pos this)
    show userByte k'.mem (pteAt k'.mem root) a = _
    rw [userByte, userByte, hpte, h3, hfr _ h4]

theorem withSz_self : withSz s p s.kmem (s.proc p).sz = s := by simp [withSz]

theorem pages_split {u u' : Nat → Nat} {n n' : Nat} (hn : n ≤ n') (hu : ∀ j < n, u' j = u j) :
    pages u' 0 n' = pages u 0 n + pages u' n (n' - n) := by
  rw [show n' = n + (n' - n) by omega, pages_append, Nat.add_sub_cancel_left, Nat.zero_add,
    pages_congr fun j _ hj => hu j (by omega)]

structure Resized (L : Layout) (p : ProcId) (X : Multiset Nat) (R : Multiset FileId) (s s' : State) : Prop where
  same : s' = withSz s p s'.kmem (s'.proc p).sz
  inv : Inv L s' X R
  kept : Kept p s s'

theorem Resized.of {sz : Nat} (h : Inv L (withSz s p k' sz) X R ∧ Kept p s (withSz s p k' sz)) :
    Resized L p X R s (withSz s p k' sz) :=
  ⟨by simp [withSz], h.1, h.2⟩

theorem Resized.refl (h : Inv L s X R) : Resized L p X R s s :=
  ⟨withSz_self.symm, h, rfl, fun _ _ _ _ _ => rfl⟩

section

variable (h : Inv L s X R) (hst : (s.proc p).state ≠ .unused)
include h hst

theorem wp_uvmalloc_proc {newsz xperm : Nat}
    (ha : AddrSpace L s.kmem.mem (s.proc p) root tf) (hx : xperm < 2 ^ 10) :
    wp (uvmalloc L root (s.proc p).sz newsz xperm) (fun r k' =>
      (r = 0 ∧ Resized L p X R s (withSz s p k' (s.proc p).sz)) ∨
      (r ≠ 0 ∧ Resized L p X R s (withSz s p k' r))) s.kmem := by
  have hd := h.nodup_space ha
  by_cases hlt : newsz < (s.proc p).sz
  · rw [uvmalloc, if_pos hlt]
    refine wp_pure.mpr (.inr ⟨by omega, ?_⟩)
    rw [withSz_self]
    exact Resized.refl h
  have hall := pool_le (X := X) ha
  have harena := (h.arena p).mono hall
  have hcard := le_trans (card_le_card hall) (h.card_le p)
  rw [card_add, card_pages] at hcard
  have hpool : ↑s.kmem.freelist + nodes child (word s.kmem.mem) 2 root ≤ ↑s.kmem.freelist +
      (nodes child (word s.kmem.mem) 2 root + pages (pteAt s.kmem.mem root) 0 (npages (s.proc p).sz)) := by
    rw [← add_assoc]
    exact le_add_right _ _
  have hout : ∀ j < npages (s.proc p).sz, pte2pa (pteAt s.kmem.mem root j) ∉
      ↑s.kmem.freelist + nodes child (word s.kmem.mem) 2 root := fun j hj =>
    notMem_of_nodup_add harena.nodup (mem_pages.mpr ⟨j, Nat.zero_le j, by omega, rfl⟩)
  refine wp_mono (wp_uvmalloc (harena.mono (le_add_right _ _)) ha.space rfl (by omega) hx (by omega)) ?_
  rintro r k' ⟨hfr, ⟨rfl, T', hsum, hs⟩ | ⟨rfl, T', u', hsum, hs, hsame, -⟩⟩
  · refine .inl ⟨rfl, .of (h.resize ha hst hs ?_ hpool hfr fun j hj _ => ⟨rfl, hout j hj⟩)⟩
    rw [← add_assoc, hsum, add_assoc]
  · have hn : npages (s.proc p).sz ≤ npages r := npages_mono (by omega)
    have hnew : Resized L p X R s (withSz s p k' r) := by
      refine .of (h.resize ha hst hs ?_ hpool hfr fun j hj _ => ⟨hsame j hj, hout j hj⟩)
      rw [pages_split hn hsame]
      calc _ = (↑k'.freelist + T' + pages u' (npages (s.proc p).sz) (npages r - npages (s.proc p).sz)) +
            pages (pteAt s.kmem.mem root) 0 (npages (s.proc p).sz) := by abel
        _ = _ := by rw [hsum, add_assoc]
    by_cases h0 : r = 0
    · exact .inl ⟨h0, by rwa [show (s.proc p).sz = r by omega]⟩
    · exact .inr ⟨h0, hnew⟩

theorem wp_uvmdealloc_proc {newsz : Nat}
    (ha : AddrSpace L s.kmem.mem (s.proc p) root tf) :
    wp (uvmdealloc L root (s.proc p).sz newsz) (fun r k' => Resized L p X R s (withSz s p k' r)) s.kmem := by
  by_cases hle : (s.proc p).sz ≤ newsz
  · rw [uvmdealloc, if_pos hle, wp_pure, withSz_self]
    exact Resized.refl h
  have hn : npages newsz ≤ npages (s.proc p).sz := npages_mono (by omega)
  have hsplit := pages_split (u := pteAt s.kmem.mem root) hn fun _ _ => rfl
  have hall := pool_le (X := X) ha
  have harena := (h.arena p).mono hall
  rw [hsplit] at harena
  generalize hP : ↑s.kmem.freelist + nodes child (word s.kmem.mem) 2 root +
    pages (pteAt s.kmem.mem root) (npages newsz) (npages (s.proc p).sz - npages newsz) = P
  have hsum : P + pages (pteAt s.kmem.mem root) 0 (npages newsz) = ↑s.kmem.freelist +
      (nodes child (word s.kmem.mem) 2 root + pages (pteAt s.kmem.mem root) 0 (npages (s.proc p).sz)) := by
    rw [hsplit, ← hP]
    abel
  have hnd : (P + pages (pteAt s.kmem.mem root) 0 (npages newsz)).Nodup := by
    rw [hsum, hsplit, ← add_assoc]
    exact harena.nodup
  have hP' : P ≤ P + pages (pteAt s.kmem.mem root) 0 (npages newsz) := le_add_right _ _
  have hPa : Arena L P := by
    refine harena.mono ?_
    rw [add_assoc, ← hsplit, ← hsum]
    exact hP'
  refine wp_mono (wp_uvmdealloc hPa ha.space (by omega) hP) ?_
  rintro r k' ⟨rfl, h1, hs, hfr⟩
  refine .of (h.resize ha hst hs ?_ (hsum ▸ hP') hfr fun j _ hj => ⟨rfl, ?_⟩)
  · rw [← add_assoc, h1, hsum]
  · exact notMem_of_nodup_add hnd (mem_pages.mpr ⟨j, Nat.zero_le j, by omega, rfl⟩)

theorem wp_growproc {n : Int} :
    wp (growproc L p n) (fun _ s' => Resized L p X R s s') s := by
  obtain ⟨root, tf, ha⟩ := h.space hst
  simp only [growproc, wp_bind, wp_get, ha.pagetable, Option.getD_some]
  rw [wp_ite]
  refine ⟨fun _ => ?_, fun _ => ?_⟩
  · rw [wp_bind, wp_vm]
    refine wp_mono (wp_uvmalloc_proc h hst ha (by decide)) ?_
    rintro r k' (⟨rfl, hr⟩ | ⟨hne, hr⟩)
    · have hs : ({ s with kmem := k' } : State) = withSz s p k' (s.proc p).sz := by simp [withSz]
      rw [if_pos rfl, hs]
      exact wp_pure.mpr hr
    · rw [if_neg hne, wp_bind, wp_setProc]
      exact wp_pure.mpr hr
  · rw [wp_ite]
    refine ⟨fun _ => ?_, fun _ => wp_pure.mpr (Resized.refl h)⟩
    rw [wp_bind, wp_vm]
    refine wp_mono (wp_uvmdealloc_proc h hst ha) ?_
    intro r k' hr
    rw [wp_bind, wp_setProc]
    exact wp_pure.mpr hr

end

theorem Resized.written {s' : State} {S : Nat → Prop} (h : Resized L p X R s s')
    (ha : AddrSpace L s'.kmem.mem (s'.proc p) root tf)
    (hw : Written s'.kmem k' (pteAt s'.kmem.mem root) (npages (s'.proc p).sz) S)
    (hS : ∀ a, S a → (s.proc p).sz ≤ a) : Resized L p X R s { s' with kmem := k' } := by
  have hd := h.inv.nodup_space ha
  have hs' := hw.space ha.space hd
  refine ⟨?_, h.inv.written ha hw, h.kept.1, fun root' hr a h1 h2 => ?_⟩
  · rw [h.same]
    simp [withSz]
  · cases (h.kept.1.trans hr).symm.trans ha.pagetable
    have hle := hs'.le
    have hj := div_lt_npages h2
    have hpte : pteAt k'.mem root (a / PGSIZE) = pteAt s'.kmem.mem root (a / PGSIZE) :=
      (hs'.table.map _ (by simp only at hj; omega)).trans (if_pos hj)
    have hbyte := hw.byte a (Nat.lt_of_lt_of_le h2 le_npages_mul) fun hs => absurd (hS a hs) (by omega)
    rw [← h.kept.2 root hr a h1 h2]
    show userByte k'.mem (pteAt k'.mem root) a = _
    rw [← hbyte, userByte, userByte, hpte]

theorem wp_ps {junk : Nat → UInt8} {start count : Nat} (h : Inv L s X R) (hst : (s.proc p).state ≠ .unused) :
    wp (ps L p junk start count) (fun _ s' => Resized L p X R s s') s := by
  simp only [ps, wp_bind, wp_get]
  rw [wp_ite]
  refine ⟨fun _ => wp_pure.mpr (Resized.refl h), fun _ => ?_⟩
  rw [wp_bind]
  refine wp_mono (wp_growproc h hst) ?_
  intro r s1 h1
  rw [wp_ite, wp_ite]
  refine ⟨fun _ => wp_pure.mpr h1, fun _ => ⟨fun _ => wp_pure.mpr h1, fun _ => ?_⟩⟩
  have hst1 : (s1.proc p).state ≠ .unused := by
    rw [h1.same]
    simpa [withSz] using hst
  obtain ⟨root, tf, ha⟩ := h1.inv.space hst1
  simp only [wp_bind, wp_get, wp_vm, ha.pagetable, Option.getD_some]
  refine wp_mono (wp_copyout_inv ha h1.inv) ?_
  rintro r k' ⟨-, -, hw⟩
  exact wp_pure.mpr (h1.written ha hw fun a ha => ha.1)

end Grow

/-! ## The trapframe -/

section Trapframe

variable {L : Layout} {s : State} {X : Multiset Nat} {R : Multiset FileId} {p : ProcId} {root tf : Nat}

def withFrame (s : State) (tf : Nat) (page : Page) : State :=
  { s with kmem := { s.kmem with mem := update s.kmem.mem tf page } }

theorem wp_setTrapframe {off v : Nat} {Q : Unit → State → Prop} (ht : (s.proc p).trapframe = some tf) :
    wp (setTrapframe p off v) Q s ↔ Q () (withFrame s tf (putLE (s.kmem.mem tf) off 8 v)) := by
  simp only [setTrapframe, wp_bind, wp_get, wp_vm, wp_setPage, ht, Option.getD_some]
  rfl

section

variable (h : Inv L s X R) (ha : AddrSpace L s.kmem.mem (s.proc p) root tf)
include h ha

theorem Inv.frame_ne (j : ProcId) {x : Nat}
    (hx : x ∈ tablePages s.kmem.mem (s.proc j) + userPages s.kmem.mem (s.proc j)) : x ≠ tf := by
  rintro rfl
  have hmem : x ∈ procPages s.kmem.mem (s.proc j) := by
    rw [procPages, add_assoc]
    exact mem_add.mpr (.inr hx)
  by_cases hj : j = p
  · subst hj
    have hd := nodup_of_le (le_trans (le_add_left _ _) (le_add_right _ _)) (h.arena j).nodup
    rw [procPages, add_assoc] at hd
    refine notMem_of_nodup_add hd hx ?_
    rw [framePages, ha.trapframe]
    exact mem_singleton_self x
  · refine h.other_notMem hj hmem ?_
    rw [ha.pages_eq]
    simp

theorem Inv.frame_other (page : Page)
    (j : ProcId) {x : Nat} (hx : x ∈ tablePages s.kmem.mem (s.proc j) + userPages s.kmem.mem (s.proc j)) :
    (withFrame s tf page).kmem.mem x = s.kmem.mem x :=
  update_of_ne (h.frame_ne ha j hx) _ _

theorem Inv.setFrame (page : Page) :
    Inv L (withFrame s tf page) X R := by
  have htab : ∀ x ∈ tablePages s.kmem.mem (s.proc p), (withFrame s tf page).kmem.mem x = s.kmem.mem x :=
    fun x hx => h.frame_other ha page p (mem_add.mpr (.inl hx))
  have h' := h.update p (withFrame s tf page).kmem (s.proc p) X ?_ (Frame.update ?_) ((h.proc p).congr htab) rfl
  · rwa [update_eq_self] at h'
  · rw [procPages_congr htab]
    rfl
  · rw [ha.pages_eq]
    simp

theorem AddrSpace.setFrame (page : Page) :
    AddrSpace L (withFrame s tf page).kmem.mem ((withFrame s tf page).proc p) root tf := by
  obtain ⟨tf', ha'⟩ := ((h.setFrame ha page).proc p).space root ha.pagetable
  cases ha.trapframe.symm.trans ha'.trapframe
  exact ha'

theorem kept_setFrame (page : Page) :
    Kept p s (withFrame s tf page) := Kept.of_mem rfl fun _ hx => h.frame_other ha page p hx

end

theorem Inv.setProc (h : Inv L s X R) (q' : Proc) (hpt : q'.pagetable = (s.proc p).pagetable)
    (htf : q'.trapframe = (s.proc p).trapframe) (hsz : q'.sz = (s.proc p).sz) (hof : q'.ofile = (s.proc p).ofile)
    (hun : q'.state = .unused ↔ (s.proc p).state = .unused) (hz : q'.state = .zombie → (s.proc p).state = .zombie) :
    Inv L { s with proc := Function.update s.proc p q' } X R := by
  refine h.map (fun j => ?_) fun j => ?_
  · by_cases hj : j = p
    · rw [hj, update_self]
      exact ⟨hpt, htf, hsz, hof⟩
    · rw [update_of_ne hj]
      exact ⟨rfl, rfl, rfl, rfl⟩
  · by_cases hj : j = p
    · rw [hj, update_self]
      exact ⟨hun, hz⟩
    · rw [update_of_ne hj]
      exact ⟨Iff.rfl, id⟩

end Trapframe

end Sys
end Xv6
