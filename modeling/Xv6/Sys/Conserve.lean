import Xv6.Sys.Boot

/-!
# Xv6.Sys.Conserve

Properties of every run of the system.

* `pages_conserved`: every page of the allocator is on the free list or has one owner, and the pages of a
  process are free when it has been reaped.
* `space_of_runs`: the leaves of a process's page table are those of its size, the trapframe and the
  trampoline; `sbrk` and `ps` keep the bytes below both sizes; no call panics but for `exit` of the first
  process.
* `file_refs_exact`: the counts of open files and the ends of pipes are those of the descriptors.
-/

namespace Xv6
namespace Sys

open Bytes Wp Vm

/-- How many times page `pa` is free, or is owned by a process, an open pipe or the kernel. -/
def owners (s : State) (pa : Nat) : Nat :=
  s.kmem.freelist.count pa + s.kernelPages.count pa +
    (∑ p, ((framePages (s.proc p)).count pa + (tablePages s.kmem.mem (s.proc p)).count pa +
      (userPages s.kmem.mem (s.proc p)).count pa)) + (openPipes s.file).val.count pa

section Conserve

variable {L : Layout} {n : Nat} {mem : Nat → Page} {s₀ s : State} {evs : List Event}

theorem Inv.owners_eq {R : Multiset FileId} {pa : Nat} (h : Inv L s 0 R) (hpa : pa ∈ allPages L) :
    owners s pa = 1 := by
  have hc := Multiset.count_eq_one_of_mem (arena_allPages L).nodup hpa
  rw [← h.total] at hc
  simp only [Multiset.count_add, Multiset.coe_count, Multiset.count_sum', procPages, Multiset.count_zero,
    Nat.add_zero] at hc
  exact hc

theorem inv_boot_run (hn : n + 9 ≤ Layout.npages L) (hb : main L n (reset mem) = .ok ((), s₀))
    (hr : Trans.run (step L) s₀ evs = some s) : Inv L s 0 0 := by
  obtain ⟨_, s1, he, h⟩ := wp_iff.mp (wp_main mem hn)
  cases hb.symm.trans he
  exact inv_run h hr

theorem pages_conserved (hn : n + 9 ≤ Layout.npages L) (hb : main L n (reset mem) = .ok ((), s₀))
    (hr : Trans.run (step L) s₀ evs = some s) :
    (∀ pa, pa % PGSIZE = 0 → pgRoundUp L.kernelEnd ≤ pa → pa < PHYSTOP → owners s pa = 1) ∧
      (∀ p, (s.proc p).state = .unused → procPages s.kmem.mem (s.proc p) = 0) ∧
      ∀ ev s', step L s ev = some s' → ∀ p, (s.proc p).state ≠ .unused → (s'.proc p).state = .unused →
        procPages s.kmem.mem (s.proc p) ≤ ↑s'.kmem.freelist := by
  have h := inv_boot_run hn hb hr
  refine ⟨fun pa h1 h2 h3 => h.owners_eq (mem_allPages.mpr ⟨h1, h2, h3⟩), fun p hp => ?_, fun ev s' hs => ?_⟩
  · obtain ⟨h1, h2⟩ := (h.proc p).unused hp
    exact procPages_none h1 h2
  · exact (step_trapped h hs).reaped

/-- A machine with 20 pages, and a run on it: the first process grows by a page and forks. -/
def smallLayout : Layout where
  kernelEnd := PHYSTOP - 20 * PGSIZE
  trampoline := KERNBASE
  base_le := by decide
  end_le := by decide
  aligned := by decide
  text := by decide

def quietEnv : Env := { oracle := fun _ => true, junk := fun _ => 0, files := fun _ => none }

def forkRun : List Event := [(0, quietEnv, .syscall .sbrk 4096 0), (0, quietEnv, .syscall .fork 0 0)]

theorem exists_forkRun : ∃ s₀ s, main smallLayout 1 (reset fun _ _ => 0) = .ok ((), s₀) ∧
    Trans.run (step smallLayout) s₀ forkRun = some s ∧ (s.proc 1).state = .runnable ∧ (s.proc 0).sz = 8192 := by
  obtain ⟨s0, hb, s, h⟩ : ∃ s0, main smallLayout 1 (reset fun _ _ => 0) = .ok ((), s0) ∧
      ∃ s ∈ Trans.run (step smallLayout) s0 forkRun, (s.proc 1).state = .runnable ∧ (s.proc 0).sz = 8192 := by decide +kernel
  exact ⟨s0, s, hb, h⟩

theorem pages_conserved_fork : ∃ s₀ s, main smallLayout 1 (reset fun _ _ => 0) = .ok ((), s₀) ∧
    Trans.run (step smallLayout) s₀ forkRun = some s ∧ (s.proc 1).state = .runnable ∧
    owners s (PHYSTOP - PGSIZE) = 1 := by
  obtain ⟨s₀, s, hb, hr, h1, -⟩ := exists_forkRun
  exact ⟨s₀, s, hb, hr, h1, (pages_conserved (by decide) hb hr).1 _ (by decide) (by decide) (by decide)⟩

/-- The leaves of the table at `root`, for a process of size `sz` with the trapframe `tf`. -/
structure Leaves (L : Layout) (mem : Nat → Page) (root tf sz : Nat) : Prop where
  /-- Entries of interior pages are empty or lead to another page of the table. -/
  interior : Radix.Wf child 0 (word mem) 2 root
  user : ∀ k, k * PGSIZE < pgRoundUp sz → Leaf (pteAt mem root k)
  trapframe : Leaf (pteAt mem root (TRAPFRAME / PGSIZE)) ∧ pte2pa (pteAt mem root (TRAPFRAME / PGSIZE)) = tf
  trampoline : Leaf (pteAt mem root (TRAMPOLINE / PGSIZE)) ∧
    pte2pa (pteAt mem root (TRAMPOLINE / PGSIZE)) = L.trampoline
  other : ∀ k, k < 2 ^ 27 → pgRoundUp sz ≤ k * PGSIZE → k * PGSIZE ≠ TRAPFRAME → k * PGSIZE ≠ TRAMPOLINE →
    pteAt mem root k &&& PTE_V = 0

theorem AddrSpace.leaves {q : Proc} {root tf : Nat} (h : AddrSpace L mem q root tf) (htf : tf % PGSIZE = 0) :
    Leaves L mem root tf q.sz := by
  have hs := h.space
  have hle := hs.le
  have hmap := hs.table.map
  have hsz : q.sz < 2 ^ 63 := by
    have := @le_npages_mul q.sz
    simp only [PGSIZE] at this
    omega
  have htop : ∀ k, npages q.sz ≤ k → k < 2 ^ 27 → pteAt mem root k = topPtes L tf k :=
    fun k h1 h2 => (hmap k h2).trans (if_neg (by omega))
  have htf' := htop (2 ^ 26 - 2) (by omega) (by decide)
  have htr := htop (2 ^ 26 - 1) (by omega) (by decide)
  refine ⟨hs.table.wf, fun k hk => ?_, ?_, ?_, fun k hk hge h1 h2 => ?_⟩
  · rw [pgRoundUp_eq hsz] at hk
    exact (hs.user k (Nat.lt_of_mul_lt_mul_right hk)).leaf
  · rw [show TRAPFRAME / PGSIZE = 2 ^ 26 - 2 from rfl, htf']
    refine ⟨leaf_trapframe, ?_⟩
    rw [topPtes, if_pos rfl, pte2pa_pte htf (by decide)]
  · rw [show TRAMPOLINE / PGSIZE = 2 ^ 26 - 1 from rfl, htr]
    refine ⟨leaf_trampoline, ?_⟩
    rw [topPtes, if_neg (by decide), if_pos rfl, pte2pa_pte L.aligned (by decide)]
  · rw [pgRoundUp_eq hsz] at hge
    have hge' := Nat.le_of_mul_le_mul_right hge (by decide)
    rw [htop k hge' hk, topPtes, if_neg, if_neg]
    · rfl
    · rintro rfl
      exact h2 rfl
    · rintro rfl
      exact h1 rfl

theorem space_of_runs (hn : n + 9 ≤ Layout.npages L) (hb : main L n (reset mem) = .ok ((), s₀))
    (hr : Trans.run (step L) s₀ evs = some s) :
    (∀ p, (s.proc p).state ≠ .unused → ∃ root tf, (s.proc p).pagetable = some root ∧
      (s.proc p).trapframe = some tf ∧ Leaves L s.kmem.mem root tf (s.proc p).sz) ∧
    (∀ p env c a0 a1 s', c = .sbrk ∨ c = .ps → step L s (p, env, .syscall c a0 a1) = some s' → Kept p s s') ∧
    ∀ p env op msg, (s.proc p).state = .runnable → turn L p env op s = .error (.panic msg) →
      msg = "init exiting" := by
  have h := inv_boot_run hn hb hr
  refine ⟨fun p hp => ?_, fun p env c a0 a1 s' hc hs => ?_, fun p env op msg hp he => ?_⟩
  · obtain ⟨root, tf, ha⟩ := h.space hp
    have htf : L.IsPage tf := (h.arena p).page tf (by rw [ha.pages_eq]; simp)
    exact ⟨root, tf, ha.pagetable, ha.trapframe, ha.leaves htf.1⟩
  · exact (step_trapped h hs).kept c a0 a1 rfl hc
  · rcases wpe_error (wpe_turn h hp) he with he | he
    · cases he
    · cases he
      rfl

theorem space_of_runs_fork : ∃ s₀ s root tf, main smallLayout 1 (reset fun _ _ => 0) = .ok ((), s₀) ∧
    Trans.run (step smallLayout) s₀ forkRun = some s ∧ (s.proc 0).pagetable = some root ∧
    (s.proc 0).sz = 8192 ∧ Leaves smallLayout s.kmem.mem root tf (s.proc 0).sz := by
  obtain ⟨s₀, s, hb, hr, -, hsz⟩ := exists_forkRun
  have hun : (s.proc 0).state ≠ .unused := by
    intro h0
    have h := ((inv_boot_run (by decide) hb hr).proc 0)
    have := h.empty (h.unused h0).1
    rw [hsz] at this
    cases this
  obtain ⟨root, tf, h1, -, h2⟩ := (space_of_runs (by decide) hb hr).1 0 hun
  exact ⟨s₀, s, root, tf, hb, hr, h1, hsz, h2⟩

/-- The references to a file are the descriptors for it. An end of a pipe is open exactly when one file is for it, and
then a process that has not exited has a descriptor for that file. -/
theorem file_refs_exact (hn : n + 9 ≤ Layout.npages L) (hb : main L n (reset mem) = .ok ((), s₀))
    (hr : Trans.run (step L) s₀ evs = some s) (f : FileId) :
    (s.file f).ref = ∑ p, (ofiles (s.proc p)).count f ∧
      ((s.file f).type = .pipe → (∀ w, getLE (s.kmem.mem (s.file f).pipe) (endOff w) 4 ≠ 0 ↔
        ∃! g, (s.file g).type = .pipe ∧ (s.file g).pipe = (s.file f).pipe ∧ (s.file g).writable = w) ∧
        ∃ p, (s.proc p).state ≠ .zombie ∧ f ∈ ofiles (s.proc p)) := by
  have h := inv_boot_run hn hb hr
  have href := h.file.ref f
  rw [add_zero, Multiset.count_sum'] at href
  refine ⟨href, fun hf => ⟨fun w => ⟨fun hw => ?_, ?_⟩, ?_⟩⟩
  · obtain ⟨g, hg⟩ := h.file.owner f w hf hw
    exact ⟨g, hg, fun g' hg' => h.file.inj g' g hg'.1 hg.1 (hg'.2.1.trans hg.2.1.symm) (hg'.2.2.trans hg.2.2.symm)⟩
  · rintro ⟨g, ⟨h1, h2, rfl⟩, -⟩
    exact h2 ▸ h.file.openEnd g h1
  · have hpos : (s.file f).ref ≠ 0 := fun h0 => by cases (h.file.closed f h0).symm.trans hf
    rw [href] at hpos
    obtain ⟨p, -, hp⟩ := Finset.exists_ne_zero_of_sum_ne_zero hpos
    refine ⟨p, fun hz => hp ?_, Multiset.count_ne_zero.mp hp⟩
    simp [ofiles, (h.proc p).closed (.inr hz)]

def pipeRun : List Event := [(0, quietEnv, .syscall .pipe 0 0), (0, quietEnv, .syscall .fork 0 0)]

theorem file_refs_exact_fork : ∃ s₀, main smallLayout 1 (reset fun _ _ => 0) = .ok ((), s₀) ∧
    ∃ s ∈ Trans.run (step smallLayout) s₀ pipeRun, (s.file 0).type = .pipe ∧
      (s.file 0).ref = 2 ∧ ∑ p, (ofiles (s.proc p)).count 0 = 2 := by
  obtain ⟨s₀, hb, s, hr, ht, h2⟩ : ∃ s₀, main smallLayout 1 (reset fun _ _ => 0) = .ok ((), s₀) ∧
      ∃ s ∈ Trans.run (step smallLayout) s₀ pipeRun, (s.file 0).type = .pipe ∧ (s.file 0).ref = 2 := by decide +kernel
  exact ⟨s₀, hb, s, hr, ht, h2, (file_refs_exact (by decide) hb hr 0).1.symm.trans h2⟩

end Conserve

end Sys
end Xv6
