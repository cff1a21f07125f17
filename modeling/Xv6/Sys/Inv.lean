import Xv6.Sys.Trap
import Xv6.Vm.User
import Mathlib.Algebra.BigOperators.Group.Finset.Basic
import Mathlib.Algebra.Order.BigOperators.Group.Multiset

/-!
# Xv6.Sys.Inv

What holds between system calls: every page of the allocator has one owner, the address space of
each process is as large as the process says, and the counts and the pipes of the open files are
right (`Inv`). Inside a call the kernel also holds pages and references to files in its variables.

* `Inv.update`: what a call does to one process, its pages and the free list keeps the rest.
-/

namespace Xv6
namespace Sys

open Bytes Wp Vm Function Finset Radix

/-! ## Owners of pages -/

def pteAt (mem : Nat → Page) (root k : Nat) : Nat :=
  lookup child 0 (word mem) (px (k * PGSIZE)) 2 root

def tablePages (mem : Nat → Page) (q : Proc) : Multiset Nat :=
  q.pagetable.elim 0 (nodes child (word mem) 2)

def userPages (mem : Nat → Page) (q : Proc) : Multiset Nat :=
  q.pagetable.elim 0 fun root => pages (pteAt mem root) 0 (npages q.sz)

def framePages (q : Proc) : Multiset Nat := q.trapframe.elim 0 singleton

def procPages (mem : Nat → Page) (q : Proc) : Multiset Nat :=
  framePages q + tablePages mem q + userPages mem q

def openPipes (file : FileId → File) : Finset Nat :=
  (univ.filter fun f => (file f).type = .pipe).image fun f => (file f).pipe

/-- The pages of `[PGROUNDUP(end), PHYSTOP)`. -/
def allPages (L : Layout) : Multiset Nat :=
  ↑((List.range ((PHYSTOP - pgRoundUp L.kernelEnd) / PGSIZE)).map fun i => pgRoundUp L.kernelEnd + i * PGSIZE)

theorem mem_allPages {L : Layout} {pa : Nat} :
    pa ∈ allPages L ↔ pa % PGSIZE = 0 ∧ pgRoundUp L.kernelEnd ≤ pa ∧ pa < PHYSTOP := by
  have h1 := L.base_le
  have h2 := L.end_le
  simp only [allPages, Multiset.mem_coe, List.mem_map, List.mem_range, pgRoundUp, PGSIZE, PHYSTOP, KERNBASE] at *
  constructor
  · rintro ⟨i, hi, rfl⟩
    omega
  · intro h
    exact ⟨(pa - (L.kernelEnd + 4096 - 1) % 2 ^ 64 / 4096 * 4096) / 4096, by omega, by omega⟩

theorem arena_allPages (L : Layout) : Arena L (allPages L) := by
  refine ⟨?_, fun x hx => ?_⟩
  · refine Multiset.coe_nodup.mpr (List.nodup_range.map fun i j h => ?_)
    simp only [PGSIZE] at h
    omega
  · have h := mem_allPages.mp hx
    have h2 := L.end_le
    refine ⟨h.1, ?_, h.2.2⟩
    simp only [pgRoundUp, PGSIZE, PHYSTOP, KERNBASE] at *
    omega

/-! ## Processes -/

/-- The process has the table at `root` and the trapframe `tf`. -/
structure AddrSpace (L : Layout) (mem : Nat → Page) (q : Proc) (root tf : Nat) : Prop where
  pagetable : q.pagetable = some root
  trapframe : q.trapframe = some tf
  space : Space mem root (nodes child (word mem) 2 root) (pteAt mem root) (npages q.sz) (topPtes L tf)

/-- A process that may be under construction. -/
structure Owned (L : Layout) (mem : Nat → Page) (q : Proc) : Prop where
  space : ∀ root, q.pagetable = some root → ∃ tf, AddrSpace L mem q root tf
  empty : q.pagetable = none → q.sz = 0

structure ProcOk (L : Layout) (mem : Nat → Page) (q : Proc) : Prop extends Owned L mem q where
  unused : q.state = .unused → q.pagetable = none ∧ q.trapframe = none
  live : q.state ≠ .unused → ∃ root, q.pagetable = some root
  closed : q.state = .unused ∨ q.state = .zombie → ∀ fd, q.ofile fd = none

section Owned

variable {L : Layout} {mem mem' : Nat → Page} {q q' : Proc} {root tf : Nat} {T : Multiset Nat} {u : Nat → Nat}

theorem pages_pteAt {hi : Nat → Nat} {n : Nat} (hs : Space mem root T u n hi) :
    pages (pteAt mem root) 0 n = pages u 0 n := by
  have hle := hs.le
  refine pages_congr fun j _ hj => ?_
  exact (hs.table.map j (by omega)).trans (if_pos (by omega))

theorem Space.pteAt {hi : Nat → Nat} {n : Nat} (hs : Space mem root T u n hi) :
    Space mem root (nodes child (word mem) 2 root) (pteAt mem root) n hi := by
  have hle := hs.le
  rw [hs.table.nodes]
  exact hs.ext fun j hj => ((hs.table.map j (by omega)).trans (if_pos hj)).symm

theorem AddrSpace.of_space {m : Nat → Page} (hr : q.pagetable = some root) (ht : q.trapframe = some tf)
    (hs : Space m root T u (npages q.sz) (topPtes L tf)) :
    AddrSpace L m q root tf ∧ procPages m q = {tf} + T + pages u 0 (npages q.sz) := by
  refine ⟨⟨hr, ht, Space.pteAt hs⟩, ?_⟩
  rw [procPages, framePages, tablePages, userPages, hr, ht]
  simp only [Option.elim_some]
  rw [hs.table.nodes, pages_pteAt hs]

theorem AddrSpace.pages_eq (h : AddrSpace L mem q root tf) :
    procPages mem q = {tf} + nodes child (word mem) 2 root + pages (pteAt mem root) 0 (npages q.sz) := by
  rw [procPages, framePages, tablePages, userPages, h.pagetable, h.trapframe]
  rfl

theorem AddrSpace.owned (h : AddrSpace L mem q root tf) : Owned L mem q := by
  refine ⟨fun root' hr => ?_, fun hr => by cases h.pagetable.symm.trans hr⟩
  cases h.pagetable.symm.trans hr
  exact ⟨tf, h⟩

theorem procPages_congr (hm : ∀ x ∈ tablePages mem q, mem' x = mem x) : procPages mem' q = procPages mem q := by
  unfold procPages
  unfold tablePages userPages at *
  cases hp : q.pagetable with
  | none => simp only [Option.elim_none]
  | some root =>
    rw [hp] at hm
    have hw : ∀ x ∈ nodes child (word mem) 2 root, word mem' x = word mem x := by
      intro x hx
      funext j
      rw [word, hm x hx, word]
    have hl : ∀ k, pteAt mem' root k = pteAt mem root k := fun k => lookup_congr hw
    simp only [Option.elim_some]
    rw [nodes_congr hw, pages_congr fun k _ _ => hl k]

theorem Owned.congr (h : Owned L mem q) (hm : ∀ x ∈ tablePages mem q, mem' x = mem x) : Owned L mem' q := by
  refine ⟨fun root hr => ?_, h.empty⟩
  obtain ⟨tf, hs⟩ := h.space root hr
  rw [tablePages, hr] at hm
  exact ⟨tf, hr, hs.trapframe, Space.pteAt (hs.space.congr hm)⟩

theorem ProcOk.congr (h : ProcOk L mem q) (hm : ∀ x ∈ tablePages mem q, mem' x = mem x) : ProcOk L mem' q :=
  ⟨h.toOwned.congr hm, h.unused, h.live, h.closed⟩

theorem tablePages_le : tablePages mem q ≤ procPages mem q := by
  rw [procPages, add_assoc, add_left_comm]
  exact Multiset.le_add_right _ _

end Owned

/-! ## Files and pipes -/

def ofiles (q : Proc) : Multiset FileId := ∑ fd, (q.ofile fd).elim 0 singleton

/-- The field of `struct pipe` for the reading or the writing end. -/
def endOff (writable : Bool) : Nat := if writable then WRITEOPEN else READOPEN

/-- The reference counts of the files are those of the references `R`; an end of a pipe is open
exactly when there is a file for it, and one file only. -/
structure FileOk (mem : Nat → Page) (file : FileId → File) (R : Multiset FileId) : Prop where
  ref : ∀ f, (file f).ref = R.count f
  closed : ∀ f, (file f).ref = 0 → (file f).type = .none
  openEnd : ∀ f, (file f).type = .pipe → getLE (mem (file f).pipe) (endOff (file f).writable) 4 ≠ 0
  owner : ∀ f w, (file f).type = .pipe → getLE (mem (file f).pipe) (endOff w) 4 ≠ 0 →
    ∃ g, (file g).type = .pipe ∧ (file g).pipe = (file f).pipe ∧ (file g).writable = w
  inj : ∀ f g, (file f).type = .pipe → (file g).type = .pipe → (file f).pipe = (file g).pipe →
    (file f).writable = (file g).writable → f = g

theorem mem_openPipes {file : FileId → File} {pi : Nat} :
    pi ∈ openPipes file ↔ ∃ f, (file f).type = .pipe ∧ (file f).pipe = pi := by
  simp [openPipes]

theorem FileOk.congr {mem mem' : Nat → Page} {file : FileId → File} {R : Multiset FileId}
    (h : FileOk mem file R) (hm : ∀ x ∈ openPipes file, mem' x = mem x) : FileOk mem' file R := by
  have hm' : ∀ f, (file f).type = .pipe → mem' (file f).pipe = mem (file f).pipe :=
    fun f hf => hm _ (mem_openPipes.mpr ⟨f, hf, rfl⟩)
  refine ⟨h.ref, h.closed, fun f hf => ?_, fun f w hf hw => ?_, h.inj⟩
  · rw [hm' f hf]
    exact h.openEnd f hf
  · rw [hm' f hf] at hw
    exact h.owner f w hf hw

/-! ## The invariant -/

/-- `X` are the pages and `R` the references to files that the kernel holds in its variables. -/
structure Inv (L : Layout) (s : State) (X : Multiset Nat) (R : Multiset FileId) : Prop where
  total : ↑s.kmem.freelist + ↑s.kernelPages + ∑ p, procPages s.kmem.mem (s.proc p) +
    (openPipes s.file).val + X = allPages L
  proc : ∀ p, ProcOk L s.kmem.mem (s.proc p)
  file : FileOk s.kmem.mem s.file (∑ p, ofiles (s.proc p) + R)

theorem sum_update {ι M : Type} {A : Type*} [Fintype ι] [DecidableEq ι] [AddCommMonoid M] (g : A → M)
    (F : ι → A) (i : ι) (x : A) : (∑ j, g (update F i x j)) + g (F i) = (∑ j, g (F j)) + g x := by
  have hrest : ∑ j ∈ univ.erase i, g (update F i x j) = ∑ j ∈ univ.erase i, g (F j) := by
    refine sum_congr rfl fun j hj => ?_
    rw [update_of_ne (ne_of_mem_erase hj)]
  rw [← add_sum_erase _ _ (mem_univ i), ← add_sum_erase _ (fun j => g (F j)) (mem_univ i),
    hrest, update_self]
  abel

section Inv

variable {L : Layout} {s : State} {X X' : Multiset Nat} {R R' : Multiset FileId} {p : ProcId} {k' : Kmem} {q' : Proc}

section

variable (h : Inv L s X R)
include h

theorem Inv.split (p : ProcId) :
    ↑s.kmem.freelist + procPages s.kmem.mem (s.proc p) + X + (↑s.kernelPages +
      ∑ j ∈ univ.erase p, procPages s.kmem.mem (s.proc j) + (openPipes s.file).val) = allPages L := by
  rw [← h.total, ← add_sum_erase _ _ (mem_univ p)]
  abel

theorem Inv.arena (p : ProcId) :
    Arena L (↑s.kmem.freelist + procPages s.kmem.mem (s.proc p) + X) := by
  refine (arena_allPages L).mono ?_
  rw [← h.split p]
  exact Multiset.le_add_right _ _

theorem Inv.card_le (p : ProcId) :
    (↑s.kmem.freelist + procPages s.kmem.mem (s.proc p) + X).card ≤ 2 ^ 15 := (h.arena p).card_le

theorem Inv.other_notMem {j : ProcId} {x : Nat} (hj : j ≠ p)
    (hx : x ∈ procPages s.kmem.mem (s.proc j)) : x ∉ ↑s.kmem.freelist + procPages s.kmem.mem (s.proc p) + X := by
  have hd := h.split p ▸ (arena_allPages L).nodup
  refine notMem_of_nodup_add hd ?_
  have hle : procPages s.kmem.mem (s.proc j) ≤ ∑ j ∈ univ.erase p, procPages s.kmem.mem (s.proc j) :=
    single_le_sum (f := fun j => procPages s.kmem.mem (s.proc j)) (fun _ _ => Multiset.zero_le _)
      (mem_erase.mpr ⟨hj, mem_univ j⟩)
  have := Multiset.mem_of_le hle hx
  simp only [Multiset.mem_add]
  exact .inl (.inr this)

theorem Inv.pipe_notMem {x : Nat} (hx : x ∈ openPipes s.file) :
    x ∉ ↑s.kmem.freelist + procPages s.kmem.mem (s.proc p) + X := by
  have hd := h.split p ▸ (arena_allPages L).nodup
  refine notMem_of_nodup_add hd ?_
  simp only [Multiset.mem_add]
  exact .inr hx

theorem Inv.update (p : ProcId) (k' : Kmem) (q' : Proc) (X' : Multiset Nat)
    (hsum : ↑k'.freelist + procPages k'.mem q' + X' = ↑s.kmem.freelist + procPages s.kmem.mem (s.proc p) + X)
    (hfr : Frame (↑s.kmem.freelist + procPages s.kmem.mem (s.proc p) + X) s.kmem.mem k'.mem)
    (hq : ProcOk L k'.mem q') (hR : ofiles q' + R' = ofiles (s.proc p) + R) :
    Inv L { s with kmem := k', proc := update s.proc p q' } X' R' := by
  have hmem : ∀ j, j ≠ p → ∀ x ∈ procPages s.kmem.mem (s.proc j), k'.mem x = s.kmem.mem x :=
    fun j hj x hx => hfr x (h.other_notMem hj hx)
  have htab : ∀ j, j ≠ p → ∀ x ∈ tablePages s.kmem.mem (s.proc j), k'.mem x = s.kmem.mem x :=
    fun j hj x hx => hmem j hj x (Multiset.mem_of_le tablePages_le hx)
  refine ⟨?_, fun j => ?_, ?_⟩ <;> dsimp only
  · have hrest : ∑ j ∈ univ.erase p, procPages k'.mem (Function.update s.proc p q' j) =
        ∑ j ∈ univ.erase p, procPages s.kmem.mem (s.proc j) := by
      refine sum_congr rfl fun j hj => ?_
      have hj := ne_of_mem_erase hj
      rw [update_of_ne hj, procPages_congr (htab j hj)]
    rw [← h.split p, ← hsum, ← add_sum_erase _ _ (mem_univ p), hrest, update_self]
    abel
  · by_cases hj : j = p
    · rw [hj, update_self]
      exact hq
    · rw [update_of_ne hj]
      exact (h.proc j).congr (htab j hj)
  · have hfiles : ∑ j, ofiles (Function.update s.proc p q' j) + R' = ∑ j, ofiles (s.proc j) + R := by
      refine add_right_cancel (b := ofiles (s.proc p)) ?_
      rw [add_right_comm, sum_update, add_assoc, hR]
      abel
    rw [hfiles]
    exact h.file.congr fun x hx => hfr x (h.pipe_notMem hx)

theorem Inv.pool (hsum : ↑k'.freelist + X' = ↑s.kmem.freelist + X)
    (hfr : Frame (↑s.kmem.freelist + X) s.kmem.mem k'.mem) : Inv L { s with kmem := k' } X' R := by
  have hle : ↑s.kmem.freelist + X ≤ ↑s.kmem.freelist + procPages s.kmem.mem (s.proc 0) + X := by
    rw [add_right_comm]
    exact Multiset.le_add_right _ _
  have htab : ∀ x ∈ tablePages s.kmem.mem (s.proc 0), k'.mem x = s.kmem.mem x := by
    intro x hx
    refine hfr x ?_
    have hd := (h.arena 0).nodup
    rw [add_right_comm] at hd
    exact notMem_of_nodup_add hd (Multiset.mem_of_le tablePages_le hx)
  have h' := h.update 0 k' (s.proc 0) X' ?_ (hfr.mono hle) ((h.proc 0).congr htab) rfl
  · rwa [update_eq_self] at h'
  · rw [procPages_congr htab, add_right_comm, hsum, add_right_comm]

theorem Inv.space (hst : (s.proc p).state ≠ .unused) :
    ∃ root tf, AddrSpace L s.kmem.mem (s.proc p) root tf := by
  obtain ⟨root, hr⟩ := (h.proc p).live hst
  exact ⟨root, (h.proc p).space root hr⟩

end

section User

variable {root tf : Nat} (ha : AddrSpace L s.kmem.mem (s.proc p) root tf)

include ha

theorem Inv.nodup_space (h : Inv L s X R) : (nodes child (word s.kmem.mem) 2 root +
      pages (pteAt s.kmem.mem root) 0 (npages (s.proc p).sz)).Nodup := by
  refine Multiset.nodup_of_le ?_ (h.arena p).nodup
  rw [ha.pages_eq, add_assoc ({tf} : Multiset Nat)]
  exact le_trans (Multiset.le_add_left _ _) (le_trans (Multiset.le_add_left _ _) (Multiset.le_add_right _ _))

theorem Inv.written {S : Nat → Prop} (h : Inv L s X R)
    (hw : Written s.kmem k' (pteAt s.kmem.mem root) (npages (s.proc p).sz) S) : Inv L { s with kmem := k' } X R := by
  have hle : pages (pteAt s.kmem.mem root) 0 (npages (s.proc p).sz) ≤
      ↑s.kmem.freelist + procPages s.kmem.mem (s.proc p) + X := by
    rw [ha.pages_eq]
    exact le_trans (Multiset.le_add_left _ _) (le_trans (Multiset.le_add_left _ _) (Multiset.le_add_right _ _))
  obtain ⟨ho, hp⟩ := AddrSpace.of_space ha.pagetable ha.trapframe (hw.space ha.space (h.nodup_space ha))
  have h' := h.update p k' (s.proc p) X ?_ (hw.frame.mono hle)
    ⟨ho.owned, (h.proc p).unused, (h.proc p).live, (h.proc p).closed⟩ rfl
  · rwa [update_eq_self] at h'
  · rw [hp, ha.pages_eq, hw.free]

theorem wp_copyout_inv {va : Nat} {src : List UInt8} (h : Inv L s X R) :
    wp (copyout root va src) (fun r k' => (r = 0 ∨ r = -1) ∧ Inv L { s with kmem := k' } X R ∧
      Written s.kmem k' (pteAt s.kmem.mem root) (npages (s.proc p).sz)
        fun a => va ≤ a ∧ a < va + src.length) s.kmem := by
  refine wp_mono (wp_copyout topPtes_user (h.nodup_space ha) ha.space) ?_
  rintro r k' ⟨hres, hw⟩
  exact ⟨hres, h.written ha hw, hw⟩

end User

theorem Inv.map (h : Inv L s X R) {proc : ProcId → Proc}
    (hp : ∀ p, (proc p).pagetable = (s.proc p).pagetable ∧ (proc p).trapframe = (s.proc p).trapframe ∧
      (proc p).sz = (s.proc p).sz ∧ (proc p).ofile = (s.proc p).ofile)
    (hst : ∀ p, ((proc p).state = .unused ↔ (s.proc p).state = .unused) ∧
      ((proc p).state = .zombie → (s.proc p).state = .zombie)) : Inv L { s with proc := proc } X R := by
  have hpages : ∀ p, procPages s.kmem.mem (proc p) = procPages s.kmem.mem (s.proc p) := by
    intro p
    obtain ⟨h1, h2, h3, -⟩ := hp p
    rw [procPages, framePages, tablePages, userPages, h1, h2, h3]
    rfl
  have hof : ∀ p, ofiles (proc p) = ofiles (s.proc p) := by
    intro p
    rw [ofiles, (hp p).2.2.2]
    rfl
  refine ⟨?_, fun p => ?_, ?_⟩ <;> dsimp only
  · rw [sum_congr rfl fun p _ => hpages p]
    exact h.total
  · obtain ⟨h1, h2, h3, h4⟩ := hp p
    have hq := h.proc p
    refine ⟨⟨fun root hr => ?_, ?_⟩, ?_, ?_, ?_⟩
    · obtain ⟨tf, hs⟩ := hq.space root (by rw [← h1]; exact hr)
      exact ⟨tf, hr, by rw [h2]; exact hs.trapframe, by rw [h3]; exact hs.space⟩
    · rw [h1, h3]
      exact hq.empty
    · rw [h1, h2, (hst p).1]
      exact hq.unused
    · rw [h1, Ne, (hst p).1]
      exact hq.live
    · rw [h4, (hst p).1]
      exact fun hs => hq.closed (hs.imp id (hst p).2)
  · rw [sum_congr rfl fun p _ => hof p]
    exact h.file

end Inv

end Sys
end Xv6
