import Xv6.Sys.Conserve

/-!
# Xv6.Sys.Load

What `exec` loads from a file.

A program header has 64-bit fields, but `loadseg` takes the offset in the file as a 32-bit number. A
segment with a larger offset is loaded from another place of the file.

* `segments`: the segments of the file, by its own headers.
* `Seg.In`, `In.load`: the segments that have been loaded stay in memory while others are loaded behind
  them.
* `exec_segments_iff`: every segment is loaded as the file says exactly when all offsets are small.
* `exec_wraps`: a program that `exec` runs with a byte that is not the one at the segment's offset.
-/

namespace Xv6
namespace Sys

open Bytes Wp Vm Function List

def segments (file : List UInt8) : List Seg := segsFrom file (field (file.take 64) 56 2) (field (file.take 64) 32 8)

/-- Ascending addresses, and no overlap. -/
def Ordered (gs : List Seg) : Prop :=
  gs.Pairwise fun a b => a.vaddr ≤ b.vaddr ∧ (0 < a.memsz → 0 < b.memsz → a.vaddr + a.memsz ≤ b.vaddr)

/-- The process has the bytes of the segment, zeros behind them, and the pages of the segment with its
permissions. -/
structure Seg.Loaded (file : List UInt8) (f : Nat → Nat) (mem : Nat → Page) (g : Seg) : Prop where
  bytes : ∀ i < g.filesz, ∃ h : g.offset + i < file.length, seen f mem (g.vaddr + i) = file[g.offset + i]
  zeros : ∀ i, g.filesz ≤ i → i < g.memsz → seen f mem (g.vaddr + i) = 0
  perms : ∀ j, Covers g.vaddr g.memsz j → pteFlags (f j) = userFlags (flags2perm g.flags)

/-! ## User memory -/

structure Seg.In (file : List UInt8) (v : UserMem) (g : Seg) : Prop where
  fits : g.vaddr + g.memsz ≤ v.n * PGSIZE
  passed : g.Passed file
  bytes : ∀ i, (hi : i < ((file.drop (g.offset % 2 ^ 32)).take g.filesz).length) →
    v.byte (g.vaddr + i) = ((file.drop (g.offset % 2 ^ 32)).take g.filesz)[i]
  zeros : ∀ i, g.filesz ≤ i → i < g.memsz → v.byte (g.vaddr + i) = 0
  perms : ∀ j, Covers g.vaddr g.memsz j → v.flags j = userFlags (flags2perm g.flags)

variable {file : List UInt8} {v v' : UserMem} {g : Seg} {gs done : List Seg}

theorem Seg.Passed.length (h : g.Passed file) : ((file.drop (g.offset % 2 ^ 32)).take g.filesz).length = g.filesz := by
  rw [length_take, length_drop]
  have := h.inFile
  omega

theorem Covers.lt {a len j n : Nat} (h : Covers a len j) (hn : a + len ≤ n * PGSIZE) : j < n := by
  simp only [Covers, PGSIZE] at *
  omega

theorem Seg.In.mono (h : g.In file v) (hn : v.n ≤ v'.n) (hf : ∀ j < v.n, v'.flags j = v.flags j)
    (hb : ∀ i < g.memsz, v'.byte (g.vaddr + i) = v.byte (g.vaddr + i)) : g.In file v' := by
  have hfits := h.fits
  have hle := h.passed.filesz_le
  refine ⟨Nat.le_trans hfits (Nat.mul_le_mul_right _ hn), h.passed, fun i hi => ?_, fun i hi hlt => ?_, fun j hj => ?_⟩
  · rw [hb i (by rw [h.passed.length] at hi; omega)]
    exact h.bytes i hi
  · rw [hb i hlt]
    exact h.zeros i hi hlt
  · rw [hf j (Covers.lt hj hfits)]
    exact h.perms j hj

/-- The segments `done` are in memory, which does not go beyond them. -/
structure Segs (file : List UInt8) (v : UserMem) (done : List Seg) : Prop where
  all : ∀ g ∈ done, g.In file v
  bound : ∀ b, (∀ g ∈ done, g.vaddr + g.memsz ≤ b) → v.n ≤ npages b

theorem Segs.load (h : Segs file v done) (hg : g.Passed file)
    (hord : ∀ a ∈ done, a.vaddr ≤ g.vaddr ∧ (0 < a.memsz → 0 < g.memsz → a.vaddr + a.memsz ≤ g.vaddr)) :
    Segs file (v.load file g) (done ++ [g]) := by
  have hlen := hg.length
  have hal := hg.aligned
  have hsz := hg.filesz_le
  -- all pages of a segment that is not empty are new
  have hnew : 0 < g.memsz → v.n * PGSIZE ≤ g.vaddr := by
    intro hpos
    have hb := h.bound g.vaddr fun a ha => by
      by_cases h0 : a.memsz = 0
      · rw [h0]
        exact (hord a ha).1
      · exact (hord a ha).2 (Nat.pos_of_ne_zero h0) hpos
    simp only [npages, PGSIZE] at hb hal ⊢
    omega
  have hin : g.vaddr + g.memsz ≤ (v.load file g).n * PGSIZE := by
    refine Nat.le_trans le_npages_mul (Nat.mul_le_mul_right _ ?_)
    exact le_max_right _ _
  have hzero : ∀ i < g.memsz, (v.grow (max v.n (npages (g.vaddr + g.memsz))) (userFlags (flags2perm g.flags))).byte (g.vaddr + i) = 0 := by
    intro i hi
    have := hnew (by omega)
    rw [UserMem.grow]
    exact if_neg (by omega)
  refine ⟨fun a ha => ?_, fun b hb => ?_⟩
  · rcases mem_append.mp ha with ha | ha
    · have hfits := (h.all a ha).fits
      refine (h.all a ha).mono (le_max_left _ _) (fun j hj => if_pos hj) fun i hi => ?_
      have hout : a.vaddr + i < g.vaddr ∨ g.vaddr + ((file.drop (g.offset % 2 ^ 32)).take g.filesz).length ≤ a.vaddr + i := by
        have := (hord a ha).2 (by omega)
        omega
      rw [UserMem.load, UserMem.put_out hout, UserMem.grow]
      exact if_pos (by omega)
    · obtain rfl := mem_singleton.mp ha
      refine ⟨hin, hg, fun i hi => UserMem.put_in hi, fun i hi hlt => ?_, fun j hj => ?_⟩
      · rw [UserMem.load, UserMem.put_out (by omega)]
        exact hzero i hlt
      · have := hnew hj.2.2
        have hge : ¬ j < v.n := by
          simp only [Covers, PGSIZE] at hj this
          omega
        exact if_neg hge
  · refine max_le (h.bound b fun a ha => hb a (mem_append.mpr (.inl ha))) (npages_mono (hb g ?_))
    exact mem_append.mpr (.inr (mem_singleton_self g))

theorem Segs.foldl (h : Segs file v done) (hord : Ordered (done ++ gs)) (hgs : ∀ g ∈ gs, g.Passed file) :
    Segs file (gs.foldl (UserMem.load file) v) (done ++ gs) := by
  induction gs generalizing v done with
  | nil => rwa [append_nil]
  | cons g gs ih =>
    have hbefore := (pairwise_append.mp hord).2.2
    have hload := h.load (hgs g mem_cons_self) fun a ha => hbefore a ha g mem_cons_self
    have happ : done ++ g :: gs = done ++ [g] ++ gs := by rw [append_assoc, singleton_append]
    rw [happ] at hord ⊢
    exact ih hload hord fun g' hg' => hgs g' (mem_cons_of_mem g hg')

theorem segs_empty : Segs file .empty [] := ⟨fun _ hg => absurd hg not_mem_nil, fun _ _ => Nat.zero_le _⟩

/-! ## exec -/

theorem readi_header : readi file 0 64 = file.take 64 := by simp [readi]

theorem segsFrom_outside {i off : Nat} (h : file.length ≤ off) : segsFrom file i off = [] := by
  induction i generalizing off with
  | zero => rfl
  | succ i ih =>
    rw [segsFrom, drop_of_length_le h]
    exact ih (by omega)

theorem segments_eq (hfile : file.length < 2 ^ 32) : segments file = loadedSegs file ∨ segments file = [] := by
  rw [segments, loadedSegs, readi_header]
  by_cases h : field (file.take 64) 32 8 < 2 ^ 32
  · rw [Nat.mod_eq_of_lt h]
    exact .inl rfl
  · exact .inr (segsFrom_outside (by omega))

theorem Seg.In.seen {mem : Nat → Page} {root i : Nat} (h : g.In file v) (hs : Shows mem root v) (hi : i < g.memsz) :
    Vm.seen (pteAt mem root) mem (g.vaddr + i) = v.byte (g.vaddr + i) := by
  have hfits := h.fits
  refine hs.seen (by omega) ?_
  rw [h.perms _ (covers_iff.mpr ⟨i, hi, rfl⟩)]
  exact userFlags_user _

theorem Seg.In.loaded {mem : Nat → Page} {root : Nat} (h : g.In file v) (hs : Shows mem root v)
    (hoff : 0 < g.filesz → g.offset < 2 ^ 32) : g.Loaded file (pteAt mem root) mem := by
  have hlen := h.passed.length
  have hle := h.passed.filesz_le
  refine ⟨fun i hi => ?_, fun i hi hlt => ?_, fun j hj => ?_⟩
  · have hin := h.passed.inFile (by omega)
    have hmod := Nat.mod_eq_of_lt (hoff (by omega))
    rw [hmod] at hin
    refine ⟨by omega, ?_⟩
    rw [h.seen hs (by omega), h.bytes i (by omega), getElem_take, getElem_drop]
    simp only [hmod]
  · rw [h.seen hs hlt]
    exact h.zeros i hi hlt
  · rw [hs.flags j (Covers.lt hj h.fits)]
    exact h.perms j hj

theorem wp_buildImage_loaded {L : Layout} {P : Multiset Nat} {tf : Nat} {argv : List Nat} {k : Kmem} (hP : Arena L P)
    (hc : P.card ≤ 2 ^ 15) (hsum : ↑k.freelist = P) (htf : tf < 2 ^ 56) (hfile : file.length < 2 ^ 32) :
    wp (buildImage L tf file argv) (fun r k' => ∀ im, r = some im → ∃ v, v.n = npages im.sz ∧
      Holds L P k.mem tf im.pagetable k' v ∧ (Ordered (loadedSegs file) → ∀ g ∈ loadedSegs file, g.In file v)) k := by
  refine wp_buildImage_of hP hc hsum htf (fun _ _ _ _ => nofun) fun root v k' _ hv hexact => ?_
  refine wp_mono (wp_pushStack_low hP hv npages_mul.symm) ?_
  rintro r k'' hr im rfl
  obtain ⟨rfl, hsz, -, v', hbelow, hv'⟩ := hr
  obtain ⟨hpassed, heq⟩ := hexact hfile
  refine ⟨v', hbelow.n.trans (by rw [hsz, npages_mul]; rfl), hv', fun hord g hg => ?_⟩
  have hin : g.In file v := by
    rw [heq]
    exact (segs_empty.foldl hord hpassed).all g hg
  have hfits := hin.fits
  refine hin.mono (hbelow.n ▸ Nat.le_add_right _ _) (fun j hj => ?_) fun i hi => ?_
  · rw [hbelow.flags, UserMem.guard]
    exact (update_of_ne (Nat.ne_of_lt hj) _ _).trans (if_pos hj)
  · have hbase : (v.n + 2) * PGSIZE - PGSIZE = v.n * PGSIZE + PGSIZE := by
      simp only [PGSIZE]
      omega
    rw [hbelow.byte _ (by omega)]
    exact if_pos (by omega)

/-- For every file and state of the system: `exec` returns, so that `loadseg` finds all its pages; and when
it returns the number of the arguments and the segments of the file are in order, all of them are in the
new image exactly when the offsets of those that are not empty are 32-bit numbers. -/
theorem exec_segments_iff (L : Layout) (s : State) (X : Multiset Nat) (R : Multiset FileId) (p : ProcId)
    (path file : List UInt8) (argv : List Nat) (h : Inv L s X R) (hst : (s.proc p).state ≠ .unused)
    (hfile : file.length < 2 ^ 32) :
    ∃ r s', exec L p path (some file) argv s = .ok (r, s') ∧ (r ≠ -1 → Ordered (segments file) →
      ∃ root, (s'.proc p).pagetable = some root ∧
        ((∀ g ∈ segments file, g.Loaded file (pteAt s'.kmem.mem root) s'.kmem.mem) ↔
          ∀ g ∈ segments file, 0 < g.filesz → g.offset < 2 ^ 32)) := by
  obtain ⟨root, tf, ha⟩ := h.space hst
  obtain ⟨hP, hc, htf⟩ := h.ready ha
  refine wp_iff.mp (wp_exec_of h hst ha (wp_buildImage_loaded hP hc rfl htf hfile) (fun _ _ hr => absurd rfl hr) fun im k' hb => ?_)
  obtain ⟨v, hn, hv, hin⟩ := hb im rfl
  refine ⟨v, hn, hv, fun s' _ hcom _ hord => ⟨im.pagetable, by rw [hcom.proc, update_self], fun hall g hg hpos => ?_,
    fun hoff g hg => ?_⟩⟩
  · obtain ⟨hlt, -⟩ := (hall g hg).bytes 0 hpos
    omega
  · rcases segments_eq hfile with heq | hnil
    · rw [heq] at hord hg
      exact (hin hord g hg).loaded hcom.shows (hoff g (heq ▸ hg))
    · rw [hnil] at hg
      exact absurd hg not_mem_nil

/-! ## Programs of one byte -/

/-- An ELF file whose one segment has one byte, at `offset` of the file. -/
def oneByte (offset : Nat) : List UInt8 :=
  encLE 4 ELF_MAGIC ++ replicate 20 0 ++ encLE 8 0 ++ encLE 8 64 ++ replicate 16 0 ++ encLE 2 1 ++ replicate 6 0 ++
    encLE 4 ELF_PROG_LOAD ++ encLE 4 5 ++ encLE 8 offset ++ encLE 8 0 ++ encLE 8 0 ++ encLE 8 1 ++ encLE 8 1 ++ encLE 8 0

/-- The first process can run it, with a small offset or a large one. -/
theorem buildImage_oneByte : ∃ s0, main smallLayout 1 (reset fun _ _ => 0) = .ok ((), s0) ∧ (s0.proc 0).state = .runnable ∧
    ∀ offset ∈ [0, 2 ^ 32], ∀ tf, (s0.proc 0).trapframe = some tf →
      ∃ im k', buildImage smallLayout tf (oneByte offset) [] s0.kmem = .ok (some im, k') ∧ im.argc = 0 := by
  obtain ⟨s0, hb, hst, hall⟩ : ∃ s0, main smallLayout 1 (reset fun _ _ => 0) = .ok ((), s0) ∧
      (s0.proc 0).state = .runnable ∧ ∀ offset ∈ [0, 2 ^ 32], ∀ tf ∈ (s0.proc 0).trapframe, ∃ r k',
        buildImage smallLayout tf (oneByte offset) [] s0.kmem = .ok (r, k') ∧ ∃ im ∈ r, im.argc = 0 := by decide +kernel
  refine ⟨s0, hb, hst, fun offset hoff tf htf => ?_⟩
  obtain ⟨_, k', hrun, im, rfl, hargc⟩ := hall offset hoff tf htf
  exact ⟨im, k', hrun, hargc⟩

theorem segs_oneByte : ∀ offset ∈ [0, 2 ^ 32], (oneByte offset).length = 120 ∧ (oneByte offset)[offset % 2 ^ 32]? = some 0x7F ∧
    segments (oneByte offset) = [⟨5, offset, 0, 1, 1⟩] ∧ loadedSegs (oneByte offset) = [⟨5, offset, 0, 1, 1⟩] := by
  decide +kernel

theorem exec_oneByte (offset : Nat) (hoff : offset ∈ [0, 2 ^ 32]) :
    ∃ s0 s' root, Inv smallLayout s0 0 0 ∧ (s0.proc 0).state ≠ .unused ∧
      exec smallLayout 0 [] (some (oneByte offset)) [] s0 = .ok (0, s') ∧ (s'.proc 0).pagetable = some root ∧
      seen (pteAt s'.kmem.mem root) s'.kmem.mem 0 = 0x7F := by
  obtain ⟨s0, hb, hrunnable, hbuild⟩ := buildImage_oneByte
  obtain ⟨hlen, hbyte, -, hsegs⟩ := segs_oneByte offset hoff
  have h : Inv smallLayout s0 0 0 := inv_boot_run (L := smallLayout) (n := 1) (by decide) hb (Trans.run_nil s0)
  have hst : (s0.proc 0).state ≠ .unused := by
    rw [hrunnable]
    nofun
  obtain ⟨root, tf, ha⟩ := h.space hst
  obtain ⟨hP, hc, htf⟩ := h.ready ha
  obtain ⟨im, k', hrun, hargc⟩ := hbuild offset hoff tf ha.trapframe
  obtain ⟨v, hn, hv, hin⟩ := wp_ok (wp_buildImage_loaded hP hc rfl htf (by rw [hlen]; decide)) hrun im rfl
  have hg : Seg.In (oneByte offset) v ⟨5, offset, 0, 1, 1⟩ := by
    rw [hsegs] at hin
    exact hin (pairwise_singleton _ _) _ (mem_singleton_self _)
  have hexec : wp (exec smallLayout 0 [] (some (oneByte offset)) []) (fun r s' => r = 0 ∧ ∃ root,
      (s'.proc 0).pagetable = some root ∧ seen (pteAt s'.kmem.mem root) s'.kmem.mem 0 = 0x7F) s0 := by
    refine wp_exec_of (B := fun r k => r = some im ∧ k = k') h hst ha (wp_iff.mpr ⟨_, _, hrun, rfl, rfl⟩) (fun _ hb => nomatch hb.1) ?_
    rintro im' k'' ⟨him, rfl⟩
    cases him
    refine ⟨v, hn, hv, fun s' _ hcom => ⟨by rw [hargc]; rfl, im.pagetable, by rw [hcom.proc, update_self], ?_⟩⟩
    have hseen : seen (pteAt s'.kmem.mem im.pagetable) s'.kmem.mem 0 = v.byte 0 := hg.seen hcom.shows (i := 0) Nat.one_pos
    have hfirst : v.byte 0 = _ := hg.bytes 0 (by rw [hg.passed.length]; exact Nat.one_pos)
    rw [hseen, hfirst, getElem_take, getElem_drop]
    exact (List.getElem?_eq_some_iff.mp hbyte).2
  obtain ⟨r, s', he, rfl, root', hpt, hseen⟩ := wp_iff.mp hexec
  exact ⟨s0, s', root', h, hst, he, hpt, hseen⟩

/-- A program whose segment lies behind the end of the file is run. -/
theorem exec_wraps : ∃ s₀ s' root g, Inv smallLayout s₀ 0 0 ∧ exec smallLayout 0 [] (some (oneByte (2 ^ 32))) [] s₀ = .ok (0, s') ∧
    (s'.proc 0).pagetable = some root ∧ segments (oneByte (2 ^ 32)) = [g] ∧ (oneByte (2 ^ 32)).length < g.offset ∧ g.filesz = 1 ∧
    seen (pteAt s'.kmem.mem root) s'.kmem.mem g.vaddr = 0x7F ∧ ¬ g.Loaded (oneByte (2 ^ 32)) (pteAt s'.kmem.mem root) s'.kmem.mem := by
  obtain ⟨s₀, s', root, h, -, he, hpt, hseen⟩ := exec_oneByte (2 ^ 32) (by decide)
  obtain ⟨hlen, -, hsegs, -⟩ := segs_oneByte (2 ^ 32) (by decide)
  refine ⟨s₀, s', root, ⟨5, 2 ^ 32, 0, 1, 1⟩, h, he, hpt, hsegs, by rw [hlen]; decide, rfl, hseen, fun hl => ?_⟩
  obtain ⟨hlt, -⟩ := hl.bytes 0 Nat.one_pos
  rw [hlen] at hlt
  exact absurd hlt (by decide)

theorem exec_segments_oneByte : ∃ s₀ s' root g, exec smallLayout 0 [] (some (oneByte 0)) [] s₀ = .ok (0, s') ∧
    segments (oneByte 0) = [g] ∧ g.Loaded (oneByte 0) (pteAt s'.kmem.mem root) s'.kmem.mem := by
  obtain ⟨s₀, s', root, h, hst, he, hpt, -⟩ := exec_oneByte 0 (by decide)
  obtain ⟨hlen, -, hsegs, -⟩ := segs_oneByte 0 (by decide)
  obtain ⟨r, s'', he', hiff⟩ := exec_segments_iff smallLayout s₀ 0 0 0 [] (oneByte 0) [] h hst (by rw [hlen]; decide)
  cases he.symm.trans he'
  obtain ⟨root', hpt', hiff⟩ := hiff (by decide) (by rw [hsegs]; exact pairwise_singleton _ _)
  refine ⟨s₀, s', root', ⟨5, 0, 0, 1, 1⟩, he, hsegs, hiff.mpr (fun g hg _ => ?_) _ (by rw [hsegs]; exact mem_singleton_self _)⟩
  rw [hsegs, mem_singleton] at hg
  rw [hg]
  decide

end Sys
end Xv6
