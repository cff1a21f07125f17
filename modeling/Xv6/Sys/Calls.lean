import Xv6.Sys.Procs
import Xv6.Vm.Fork

/-!
# Xv6.Sys.Calls

`fork`, `exit`, `wait`, `kill` and `exec` keep the invariant: `wp_fork`, `wp_exit`, `wp_wait`,
`wp_kill`, `wp_sysExec`. `wait` may also sleep.
-/

namespace Xv6
namespace Sys

open Bytes Wp Vm Function Multiset

def Stay (s s' : State) : Prop :=
  ∀ j, (s.proc j).state ≠ .unused → (s'.proc j).state = (s.proc j).state

section Stay

variable {s s' s'' : State}

theorem SameStates.stay (h : SameStates s s') : Stay s s' := fun j _ => h j

end Stay

section Fork

variable {L : Layout} {s s₁ : State} {X : Multiset Nat} {R : Multiset FileId} {p np : ProcId} {root tf : Nat}

theorem Inv.forkReady {rootn tfn : Nat} (h : Inv L s X R) (hne : p ≠ np)
    (ha : AddrSpace L s.kmem.mem (s.proc p) root tf) (hn : AddrSpace L s.kmem.mem (s.proc np) rootn tfn)
    (hsz : (s.proc np).sz = 0) : ForkReady L s.kmem root rootn (Radix.nodes child (word s.kmem.mem) 2 root)
      (Radix.nodes child (word s.kmem.mem) 2 rootn) (pteAt s.kmem.mem root) (pteAt s.kmem.mem rootn)
      (npages (s.proc p).sz) (topPtes L tf) (topPtes L tfn) := by
  have hall := pool_le (X := X) hn
  have hsn := hn.space
  rw [hsz, npages_zero] at hall hsn
  rw [pages_zero, add_zero] at hall
  have hout : ∀ x ∈ procPages s.kmem.mem (s.proc p),
      x ∉ ↑s.kmem.freelist + Radix.nodes child (word s.kmem.mem) 2 rootn :=
    fun x hx hx' => h.other_notMem hne hx (mem_of_le hall hx')
  have hown : Radix.nodes child (word s.kmem.mem) 2 root +
      pages (pteAt s.kmem.mem root) 0 (npages (s.proc p).sz) ≤ procPages s.kmem.mem (s.proc p) := by
    rw [ha.pages_eq, add_assoc]
    exact le_add_left _ _
  refine ⟨⟨nodup_add.mpr ⟨?_, ?_, disjoint_left.mpr fun hx hx' => ?_⟩, fun x hx => ?_⟩,
    ha.space, hsn, fun i hi => ?_⟩
  · exact ((h.arena np).mono hall).nodup
  · refine nodup_of_le (hown.trans ?_) (h.arena p).nodup
    exact (le_add_left _ _).trans (le_add_right _ _)
  · exact hout _ (mem_of_le hown hx') hx
  · rcases mem_add.mp hx with hx | hx
    · exact ((h.arena np).mono hall).page x hx
    · exact (h.arena p).page x (by simp [mem_of_le hown hx])
  · unfold topPtes at hi ⊢
    split
    · have htf := (h.arena p).page tf (by simp [ha.pages_eq])
      rw [pte2pa_pte htf.1 (by decide)]
      exact hout tf (by rw [ha.pages_eq]; simp)
    · rename_i h1
      rw [if_neg h1] at hi
      split
      · rw [pte2pa_pte L.aligned (by decide)]
        intro hx
        have := ((h.arena np).mono hall).page _ hx
        exact absurd this.2.1 (Nat.not_le.mpr L.text)
      · rename_i h2
        rw [if_neg h2] at hi
        exact absurd rfl hi

theorem wp_uvmcopy_child {rootn tfn : Nat} (h : Inv L s X R) (hne : p ≠ np)
    (ha : AddrSpace L s.kmem.mem (s.proc p) root tf) (hn : AddrSpace L s.kmem.mem (s.proc np) rootn tfn)
    (hst : (s.proc np).state ≠ .unused) (hsz : (s.proc np).sz = 0) :
    wp (uvmcopy L root rootn (s.proc p).sz) (fun r k' => (r = -1 ∧ Inv L { s with kmem := k' } X R) ∨
      (r = 0 ∧ Inv L (withSz s np k' (s.proc p).sz) X R)) s.kmem := by
  refine wp_mono (wp_of_wpe ((h.forkReady hne ha hn hsz).wpe_uvmcopy _) fun _ => Nat.lt_irrefl _) ?_
  rintro r k' ⟨⟨hfr, ⟨rfl, T', u', hsum, hs⟩ | ⟨rfl, T', u', hsum, hs, -⟩⟩, -⟩
  · refine .inl ⟨rfl, ?_⟩
    have h' : Inv L (withSz s np k' 0) X R := (h.resize hn hst hs (by rw [hsz]; simpa using hsum) (by simp) hfr
      fun j hj => absurd hj (by rw [hsz]; exact Nat.not_lt_zero j)).1
    have hs' : withSz s np k' 0 = { s with kmem := k' } := by
      simp [withSz, ← hsz]
    rwa [hs'] at h'
  · refine .inr ⟨rfl, (h.resize hn hst hs ?_ (by simp) hfr
      fun j hj => absurd hj (by rw [hsz]; exact Nat.not_lt_zero j)).1⟩
    rw [← add_assoc, hsum, hsz]
    simp

theorem wp_childFrame {page : Page} {Q : Unit → State → Prop} (h : Inv L s X R)
    (ha : AddrSpace L s.kmem.mem (s.proc np) root tf) (hQ : ∀ s', Inv L s' X R → s'.proc = s.proc → Q () s') :
    wp (setTrapframe np 112 0) Q (withFrame s tf page) := by
  have ha' := AddrSpace.setFrame h ha page
  rw [wp_setTrapframe ha'.trapframe]
  exact hQ _ ((h.setFrame ha page).setFrame ha' _) rfl

theorem wp_fork (h : Inv L s X R) (hst : (s.proc p).state ≠ .unused) :
    wp (fork L p) (fun _ s' => Inv L s' X R ∧ Stay s s') s := by
  rw [fork, wp_bind]
  refine wp_mono (wp_allocproc h) ?_
  rintro (_ | np) s₁ ⟨h1, hnp⟩
  · exact wp_pure.mpr ⟨h1, SameStates.stay hnp⟩
  have hnp : NewProc s s₁ np := hnp
  have hne : p ≠ np := by
    rintro rfl
    exact hst hnp.unused
  have hstay : ∀ {s' : State}, (∀ j, j ≠ np → (s'.proc j).state = (s₁.proc j).state) → Stay s s' := by
    intro s' hs j hj
    have hj' : j ≠ np := by
      rintro rfl
      exact hj hnp.unused
    rw [hs j hj', hnp.other j hj']
  have hused : (s₁.proc np).state ≠ .unused := by
    rw [hnp.state]
    simp
  obtain ⟨root, tf, ha⟩ := h1.space (p := p) (by rw [hnp.other p hne]; exact hst)
  obtain ⟨rootn, tfn, hn⟩ := h1.space hused
  simp only [wp_bind, wp_get, wp_vm, ha.pagetable, hn.pagetable, Option.getD_some]
  refine wp_mono (wp_uvmcopy_child h1 hne ha hn hused hnp.sz) ?_
  rintro r k2 (⟨rfl, h2⟩ | ⟨rfl, h2⟩)
  · -- the pages of the child go back
    rw [if_pos (by decide), wp_bind]
    refine wp_mono (wp_freeproc h2 hnp.ofile) ?_
    rintro _ s3 ⟨h3, hs3, -⟩
    refine wp_pure.mpr ⟨h3, hstay fun j hj => ?_⟩
    rw [hs3]
    simp [hj]
  · rw [if_neg (by decide)]
    obtain ⟨rootn', tfn', hn2⟩ := h2.space (p := np) (by simpa [withSz] using hused)
    have hof2 : ∀ fd, ((withSz s₁ np k2 (s₁.proc p).sz).proc np).ofile fd = none := by
      simpa [withSz] using hnp.ofile
    have hst2 : ((withSz s₁ np k2 (s₁.proc p).sz).proc np).state = .used := by
      simpa [withSz] using hnp.state
    have hs2 : ∀ j, j ≠ np → ((withSz s₁ np k2 (s₁.proc p).sz).proc j).state = (s₁.proc j).state := by
      intro j hj
      simp [withSz, hj]
    rw [wp_bind, wp_setProc]
    change wp _ _ (withSz s₁ np k2 (s₁.proc p).sz)
    generalize withSz s₁ np k2 (s₁.proc p).sz = s2 at h2 hn2 hof2 hst2 hs2
    simp only [wp_bind, wp_get, wp_vm, wp_memmove, hn2.trapframe, Option.getD_some]
    refine wp_childFrame h2 hn2 ?_
    intro s3 h3 hp3
    refine wp_mono (wp_dupFiles h3 (List.nodup_finRange _) (by rw [hp3]; exact hst2)
      fun fd _ => by rw [hp3]; exact hof2 fd) ?_
    rintro _ s4 ⟨h4, hs4⟩
    have hst4 : (s4.proc np).state = .used := by
      rw [hs4 np, hp3]
      exact hst2
    simp only [wp_setProc, wp_pure, update_self, update_idem]
    refine ⟨h4.setProc _ rfl rfl rfl rfl ?_ (by simp), hstay fun j hj => ?_⟩
    · rw [hst4]
      exact ⟨by simp, by simp⟩
    · simp only [update_of_ne hj]
      rw [hs4 j, hp3]
      exact hs2 j hj

end Fork

/-! ## exit, wait and kill -/

/-- The process has become a zombie with its pages; more pages may be free. -/
structure Exited (p : ProcId) (s s' : State) : Prop where
  zombie : (s'.proc p).state = .zombie
  other : ∀ j, j ≠ p → (s'.proc j).state = (s.proc j).state
  sz : (s'.proc p).sz = (s.proc p).sz
  kept : Kept p s s'
  free : (↑s.kmem.freelist : Multiset Nat) ≤ ↑s'.kmem.freelist

section Exit

variable {L : Layout} {s : State} {X : Multiset Nat} {R : Multiset FileId} {p : ProcId}

def reparented (s : State) (p pp : ProcId) : Proc :=
  if (s.proc pp).parent = some p then { s.proc pp with parent := s.initproc } else s.proc pp

theorem wp_reparent {Q : Unit → State → Prop} :
    wp (reparent p) Q s ↔ Q () { s with proc := reparented s p } := wp_modify

theorem wp_exit {status : Int} (h : Inv L s X R) (hst : (s.proc p).state ≠ .unused) (hinit : s.initproc ≠ some p) :
    wp (exit L p status) (fun _ s' => Inv L s' X R ∧ Exited p s s') s := by
  simp only [exit, wp_bind, wp_get]
  rw [if_neg hinit, wp_bind]
  refine wp_mono (wp_closeFiles h) ?_
  rintro _ s₁ ⟨h1, hc, hof, -⟩
  obtain ⟨o, ho⟩ := hc.proc
  have hp : s₁.proc p = { s.proc p with ofile := o } := by rw [ho, update_self]
  have hj : ∀ j, j ≠ p → s₁.proc j = s.proc j := fun j hj => by rw [ho, update_of_ne hj]
  simp only [wp_bind, wp_setProc, wp_reparent]
  -- the fields cwd and parent are not part of the invariant
  generalize hproc : reparented _ p = proc
  have hsame : ∀ j, (proc j).state = (s₁.proc j).state ∧ (proc j).pagetable = (s₁.proc j).pagetable ∧
      (proc j).trapframe = (s₁.proc j).trapframe ∧ (proc j).sz = (s₁.proc j).sz ∧
      (proc j).ofile = (s₁.proc j).ofile := by
    intro j
    rw [← hproc, reparented]
    by_cases hjp : j = p
    · subst hjp
      split <;> simp
    · split <;> simp [hjp]
  have h2 : Inv L { s₁ with proc := proc } X R :=
    h1.map (fun j => ⟨(hsame j).2.1, (hsame j).2.2.1, (hsame j).2.2.2.1, (hsame j).2.2.2.2⟩)
      fun j => by rw [(hsame j).1]; exact ⟨Iff.rfl, id⟩
  have hq := h2.proc p
  obtain ⟨-, e1, e2, e3, e4⟩ := hsame p
  refine ⟨h2.update p s₁.kmem _ X rfl Frame.refl
    ⟨⟨fun root hr => (hq.space root hr).imp fun tf ha => ⟨hr, ha.trapframe, ha.space⟩, hq.empty⟩,
      (by simp), fun _ => hq.live ?_, fun _ fd => ?_⟩ rfl, ?_⟩
  · dsimp only
    rw [(hsame p).1, hp]
    exact hst
  · exact (congrFun e4 fd).trans (hof fd (List.mem_finRange fd))
  · refine ⟨by simp, fun j hj' => ?_, ?_, Kept.of_mem ?_ fun x hx => hc.mem p x ?_, hc.free⟩
    · simp only [update_of_ne hj']
      rw [(hsame j).1, hj j hj']
    · simp only [update_self]
      rw [e3, hp]
    · simp only [update_self]
      rw [e1, hp]
    · rw [procPages, add_assoc]
      exact mem_add.mpr (.inr hx)

/-- When a process has gone, its pages are free. -/
def Reaped (s s' : State) : Prop :=
  ∀ j, (s.proc j).state ≠ .unused → (s'.proc j).state = .unused →
    procPages s.kmem.mem (s.proc j) ≤ ↑s'.kmem.freelist

theorem Stay.reaped {s' : State} (h : Stay s s') : Reaped s s' := by
  intro j hj hj'
  rw [h j hj] at hj'
  exact absurd hj' hj

/-- How a system call may stop: in `wait`, or because the first process exits. -/
def Stops (e : Stop) : Prop := e = .sleep ∨ e = .panic "init exiting"

theorem wp_wait {addr : Nat} (h : Inv L s X R) (hst : (s.proc p).state ≠ .unused ∧ (s.proc p).state ≠ .zombie) :
    wpe Stops (wait L p addr) (fun _ s' => Inv L s' X R ∧ Reaped s s' ∧ (s'.proc p).state = (s.proc p).state) s := by
  rw [wait, wpe_bind]
  refine wpe_of_wp (wp_get.mpr ?_)
  split
  · rename_i pp hfind
    have hpp : (s.proc pp).state = .zombie := by
      have := List.find?_some hfind
      simp only [decide_eq_true_eq] at this
      exact this.2
    have hne : pp ≠ p := by
      rintro rfl
      exact hst.2 hpp
    -- the child is freed after the copy of its status
    have hfree : ∀ {k' : Kmem} {r : Int}, Inv L { s with kmem := k' } X R →
        procPages k'.mem (s.proc pp) = procPages s.kmem.mem (s.proc pp) →
        wp (if r < 0 then pure (-1) else do
          freeproc L pp
          pure ((s.proc pp).pid : Int)) (fun _ s' => Inv L s' X R ∧ Reaped s s' ∧
          (s'.proc p).state = (s.proc p).state) { s with kmem := k' } := by
      intro k' r hk hpages
      rw [wp_ite]
      refine ⟨fun _ => wp_pure.mpr ⟨hk, fun j hj hj' => absurd hj' hj, rfl⟩, fun _ => ?_⟩
      rw [wp_bind]
      refine wp_mono (wp_freeproc hk ((h.proc pp).closed (.inr hpp))) ?_
      rintro _ s' ⟨h', hs', hfl⟩
      refine wp_pure.mpr ⟨h', fun j hj hj' => ?_, ?_⟩
      · by_cases hjp : j = pp
        · rw [hjp, hfl]
          dsimp only
          rw [hpages]
          exact le_add_left _ _
        · rw [hs'] at hj'
          simp only [update_of_ne hjp] at hj'
          exact absurd hj' hj
      · rw [hs']
        simp [hne.symm]
    refine wpe_of_wp ?_
    dsimp only
    rw [wp_ite]
    refine ⟨fun _ => ?_, fun _ => wp_bind.mpr (wp_pure.mpr (hfree h rfl))⟩
    obtain ⟨root, tf, ha⟩ := h.space hst.1
    rw [wp_bind, wp_vm, ha.pagetable, Option.getD_some]
    refine wp_mono (wp_copyout_inv ha h) ?_
    rintro r k' ⟨-, h', hw⟩
    refine hfree h' (procPages_congr fun x hx => hw.frame x fun hx' => ?_)
    refine h.other_notMem hne (mem_of_le tablePages_le hx) ?_
    exact mem_of_le (pool_le ha) (mem_add.mpr (.inr hx'))
  · split
    · exact wpe_of_wp (wp_pure.mpr ⟨h, fun j hj hj' => absurd hj' hj, rfl⟩)
    · exact wpe_throw.mpr (.inl rfl)

theorem wp_kill {pid : Int} (h : Inv L s X R) (hst : (s.proc p).state = .running) :
    wp (kill pid) (fun _ s' => Inv L s' X R ∧ Reaped s s' ∧ (s'.proc p).state = .running) s := by
  simp only [kill, wp_bind, wp_get]
  split
  · exact wp_pure.mpr ⟨h, fun j hj hj' => absurd hj' hj, hst⟩
  · rename_i j _
    have hun : (if (s.proc j).state = .sleeping then ProcState.runnable else (s.proc j).state) = .unused ↔
        (s.proc j).state = .unused := by
      split
      · rename_i hs
        rw [hs]
        exact ⟨by simp, by simp⟩
      · exact Iff.rfl
    simp only [wp_bind, wp_setProc, wp_pure]
    refine ⟨h.setProc _ rfl rfl rfl rfl hun fun hz => ?_, fun i hi hi' => ?_, ?_⟩
    · dsimp only at hz
      split at hz
      · cases hz
      · exact hz
    · by_cases hij : i = j
      · subst hij
        simp only [update_self] at hi'
        exact absurd (hun.mp hi') hi
      · simp only [update_of_ne hij] at hi'
        exact absurd hi' hi
    · by_cases hpj : p = j
      · subst hpj
        simp [hst]
      · simp [hpj, hst]

end Exit

/-! ## exec -/

section Args

variable {L : Layout} {P T : Multiset Nat} {u hi : Nat → Nat} {root m : Nat}

theorem wp_fetchArgs {sz uargv : Nat} (hU : ∀ j, hi j &&& PTE_U = 0) (hout : ∀ x ∈ T, x ∉ P) {n : Nat} :
    ∀ {argv : List Nat} {k : Kmem}, Space k.mem root T u m hi → ↑k.freelist + ↑argv = P →
    wp (fetchArgs root sz uargv n argv) (fun r k' => ↑k'.freelist + ↑r.2 = P ∧ Frame P k.mem k'.mem) k := by
  induction n with
  | zero =>
    intro argv k _ hsum
    exact wp_pure.mpr ⟨hsum, Frame.refl⟩
  | succ n ih =>
    intro argv k hs hsum
    have hstop : ∀ {b : Bool}, wp (pure (b, argv) : K (Bool × List Nat))
        (fun r k' => ↑k'.freelist + ↑r.2 = P ∧ Frame P k.mem k'.mem) k :=
      wp_pure.mpr ⟨hsum, Frame.refl⟩
    simp only [fetchArgs, copyin]
    rw [wp_ite]
    refine ⟨fun _ => hstop, fun _ => ?_⟩
    rw [wp_bind]
    refine wp_mono (wp_copyinLoop hs hU) ?_
    rintro ⟨r, bytes⟩ k0 hk0
    rw [hk0]
    rw [wp_ite, wp_ite]
    refine ⟨fun _ => hstop, fun _ => ⟨fun _ => hstop, fun _ => ?_⟩⟩
    rw [wp_bind]
    refine wp_kalloc ?_ ?_
    · intro k1 hm hf
      exact wp_pure.mpr ⟨by rw [hf]; exact hsum, by rw [hm]; exact Frame.refl⟩
    · intro page rest k1 hfree hrest hm
      have hpage : page ∈ P := by
        rw [← hsum, hfree]
        simp
      have hs1 : Space k1.mem root T u m hi := hs.congr fun x hx => by
        rw [hm]
        exact update_of_ne (fun he : x = page => hout x hx (he ▸ hpage)) _ _
      have hsum1 : ↑k1.freelist + (↑(argv ++ [page]) : Multiset Nat) = P := by
        rw [hrest, ← hsum, hfree, coe_cons_add, ← coe_add, coe_singleton]
        abel
      simp only [copyinstr, wp_bind]
      refine wp_mono (wp_copyinstrLoop hs1 hU) ?_
      rintro ⟨r, str⟩ k0 hk0
      rw [hk0, wp_memmove]
      have hfr : Frame P k.mem (update k1.mem page (putBytes (k1.mem page) 0 str)) := by
        rw [hm]
        exact (Frame.update hpage).trans (Frame.update hpage)
      rw [wp_ite]
      refine ⟨fun _ => wp_pure.mpr ⟨hsum1, hfr⟩, fun _ => ?_⟩
      refine wp_mono (ih (hs.congr fun x hx => hfr x (hout x hx)) hsum1) ?_
      rintro r k' ⟨h1, h2⟩
      exact ⟨h1, hfr.trans h2⟩

theorem wp_freeArgs (hP : Arena L P) {argv : List Nat} : ∀ {k : Kmem}, ↑k.freelist + ↑argv = P →
    wp (freeArgs L argv) (fun _ k' => ↑k'.freelist = P ∧ Frame P k.mem k'.mem) k := by
  induction argv with
  | nil =>
    intro k hsum
    exact wp_pure.mpr ⟨by simpa using hsum, Frame.refl⟩
  | cons page argv ih =>
    intro k hsum
    have hpage : page ∈ P := by
      rw [← hsum]
      simp
    rw [freeArgs, wp_bind, wp_kfree (hP.page page hpage)]
    refine wp_mono (ih ?_) ?_
    · rw [← hsum, coe_cons_add, coe_cons_add]
      abel
    · rintro _ k' ⟨h1, h2⟩
      exact ⟨h1, (Frame.update hpage).trans h2⟩

end Args

section Exec

variable {L : Layout} {s : State} {X : Multiset Nat} {R : Multiset FileId} {p : ProcId} {root tf : Nat}

theorem wp_execCommit {root' : Nat} {k1 k2 : Kmem} {T : Multiset Nat} {u : Nat → Nat} (q' : Proc)
    (h : Inv L s X R) (hst : (s.proc p).state ≠ .unused) (ha : AddrSpace L s.kmem.mem (s.proc p) root tf)
    (hsum : ↑k1.freelist + T + pages u 0 (npages q'.sz) = ↑s.kmem.freelist)
    (hfr : Frame ↑s.kmem.freelist s.kmem.mem k1.mem) (hs : Space k1.mem root' T u (npages q'.sz) (topPtes L tf))
    (hfree2 : k2.freelist = k1.freelist) (hmem2 : ∀ x, x ≠ tf → k2.mem x = k1.mem x)
    (hpt : q'.pagetable = some root') (htf : q'.trapframe = some tf) (hof : q'.ofile = (s.proc p).ofile)
    (hst' : q'.state = (s.proc p).state) : wp (procFreepagetable L root (s.proc p).sz)
      (fun _ k' => Inv L { s with kmem := k', proc := update s.proc p q' } X R ∧
        ∀ x ∈ {tf} + (T + pages u 0 (npages q'.sz)), k'.mem x = k2.mem x) k2 := by
  have hpages := ha.pages_eq
  have hd := (h.arena p).nodup
  rw [hpages] at hd
  generalize hN : Radix.nodes child (word s.kmem.mem) 2 root = N at hpages hd
  generalize hU : pages (pteAt s.kmem.mem root) 0 (npages (s.proc p).sz) = U at hpages hd
  generalize hV : pages u 0 (npages q'.sz) = V at hsum
  have hspace := ha.space
  rw [hN] at hspace
  -- the old pages are not free, and the trapframe is apart from all others
  have hd1 : (↑s.kmem.freelist + ({tf} + N + U)).Nodup := nodup_of_le (le_add_right _ X) hd
  have hd2 : (({tf} : Multiset Nat) + (↑k1.freelist + N + U + (T + V))).Nodup := by
    refine (congrArg Multiset.Nodup ?_).mp hd1
    rw [← hsum]
    abel
  have hd3 := (nodup_add.mp hd2).2.1
  have hd4 : (↑k1.freelist + N + U + ({tf} + (T + V))).Nodup := by
    rw [add_left_comm]
    exact hd2
  have hne : ∀ {x}, x ∈ ↑k1.freelist + N + U + (T + V) → x ≠ tf := by
    rintro x hx rfl
    exact notMem_of_nodup_add hd2 hx (mem_singleton_self x)
  have hP : ↑k1.freelist + N + U ≤ ↑s.kmem.freelist + procPages s.kmem.mem (s.proc p) + X := by
    have he : ↑s.kmem.freelist + procPages s.kmem.mem (s.proc p) + X =
        ↑k1.freelist + N + U + (T + V + {tf} + X) := by
      rw [hpages, ← hsum]
      abel
    rw [he]
    exact le_add_right _ _
  have hold : Space k2.mem root N (pteAt s.kmem.mem root) (npages (s.proc p).sz) (topPtes L tf) := by
    refine hspace.congr fun x hx => ?_
    rw [hmem2 x (hne (by simp [hx])), hfr x (notMem_of_nodup_add hd1 (by simp [hx]))]
  refine wp_mono (wp_procFreepagetable (P := ↑k1.freelist + N + U) ((h.arena p).mono hP) hold
    (by rw [hfree2, hU])) ?_
  rintro _ k' ⟨hfree', hfr'⟩
  have hnew : Space k'.mem root' T u (npages q'.sz) (topPtes L tf) := by
    refine hs.congr fun x hx => ?_
    rw [hfr' x (notMem_of_nodup_add hd3 (by simp [hx])), hmem2 x (hne (by simp [hx]))]
  obtain ⟨ho, hp⟩ := AddrSpace.of_space hpt htf hnew
  refine ⟨h.update p k' q' X ?_ (fun x hx => ?_) ⟨ho.owned, ?_, ?_, ?_⟩ ?_, fun x hx => hfr' x (notMem_of_nodup_add hd4 hx)⟩
  · rw [hp, hV, hfree', hpages, ← hsum]
    abel
  · have hx1 : x ∉ (↑s.kmem.freelist : Multiset Nat) := fun h' => hx (by simp [h'])
    have hx2 : x ≠ tf := fun h' => hx (by rw [hpages, h']; simp)
    rw [hfr' x fun h' => hx (mem_of_le hP h'), hmem2 x hx2, hfr x hx1]
  · rw [hst']
    exact fun hz => absurd hz hst
  · exact fun _ => ⟨root', hpt⟩
  · rw [hst', hof]
    exact (h.proc p).closed
  · rw [ofiles, hof]
    rfl

theorem Inv.ready (h : Inv L s X R) (ha : AddrSpace L s.kmem.mem (s.proc p) root tf) :
    Arena L ↑s.kmem.freelist ∧ (↑s.kmem.freelist : Multiset Nat).card ≤ 2 ^ 15 ∧ tf < 2 ^ 56 := by
  have hle : (↑s.kmem.freelist : Multiset Nat) ≤ ↑s.kmem.freelist + procPages s.kmem.mem (s.proc p) + X := by
    rw [add_assoc]
    exact le_add_right _ _
  have htf : L.IsPage tf := (h.arena p).page tf (by rw [ha.pages_eq]; simp)
  exact ⟨(h.arena p).mono hle, le_trans (card_le_card hle) (h.card_le p), htf.lt⟩

/-- The process sees the user memory `v` through the table at `root`. -/
structure Shows (mem : Nat → Page) (root : Nat) (v : UserMem) : Prop where
  le : v.n ≤ 2 ^ 26
  valid : ∀ j < v.n, pteAt mem root j &&& PTE_V ≠ 0
  flags : ∀ j < v.n, pteFlags (pteAt mem root j) = v.flags j
  byte : ∀ a < v.n * PGSIZE, userByte mem (pteAt mem root) a = v.byte a

theorem Contents.shows {P T : Multiset Nat} {m mem : Nat → Page} {k : Kmem} {v : UserMem} {u : Nat → Nat}
    (h : Contents L P m tf root k v T u) (hm : ∀ x ∈ T + pages u 0 v.n, mem x = k.mem x) : Shows mem root v := by
  have hle := h.space.le
  have hs := h.space.congr fun x hx => hm x (mem_add.mpr (.inl hx))
  have hpte : ∀ j < v.n, pteAt mem root j = u j := fun j hj => (hs.table.map j (by omega)).trans (if_pos hj)
  refine ⟨by omega, fun j hj => ?_, fun j hj => ?_, fun a ha => ?_⟩
  · rw [hpte j hj]
    exact (h.space.user j hj).valid
  · rw [hpte j hj]
    exact h.flags j hj
  · have hj : a / PGSIZE < v.n := Nat.div_lt_of_lt_mul (by rw [Nat.mul_comm]; exact ha)
    have hmem : pte2pa (u (a / PGSIZE)) ∈ pages u 0 v.n := mem_pages.mpr ⟨_, Nat.zero_le _, by omega, rfl⟩
    rw [userByte, hpte _ hj, hm _ (mem_add.mpr (.inr hmem))]
    exact h.byte a ha

theorem Shows.seen {mem : Nat → Page} {a : Nat} {v : UserMem} (h : Shows mem root v) (ha : a < v.n * PGSIZE)
    (hu : v.flags (a / PGSIZE) &&& PTE_U ≠ 0) : Vm.seen (pteAt mem root) mem a = v.byte a := by
  have hj : a / PGSIZE < v.n := Nat.div_lt_of_lt_mul (by rw [Nat.mul_comm]; exact ha)
  have hle := h.le
  rw [← h.flags _ hj, pteFlags_and (by decide)] at hu
  rw [Vm.seen, addrOf, if_pos ⟨by omega, h.valid _ hj, hu⟩]
  exact h.byte a ha

/-- What `exec` makes of the process when it commits to `im`: the user memory is `v`. -/
structure Committed (p : ProcId) (tf : Nat) (path : List UInt8) (im : Image) (v : UserMem) (s s' : State) : Prop where
  proc : s'.proc = update s.proc p { s.proc p with
    name := safestrcpy (s.proc p).name (lastElem path), pagetable := some im.pagetable, sz := im.sz }
  shows : Shows s'.kmem.mem im.pagetable v
  frame : s'.kmem.mem tf = putLE (putLE (putLE (s.kmem.mem tf) 120 8 im.sp) 24 8 im.entry) 48 8 im.sp

theorem wp_exec_of {path file : List UInt8} {argv : List Nat} {B : Option Image → Kmem → Prop}
    {Q : Int → State → Prop} (h : Inv L s X R) (hst : (s.proc p).state ≠ .unused)
    (ha : AddrSpace L s.kmem.mem (s.proc p) root tf) (hb : wp (buildImage L tf file argv) B s.kmem)
    (hnone : ∀ k', B none k' → Q (-1) { s with kmem := k' })
    (hsome : ∀ im k', B (some im) k' → ∃ v, v.n = npages im.sz ∧
      Holds L ↑s.kmem.freelist s.kmem.mem tf im.pagetable k' v ∧
      ∀ s', Inv L s' X R → Committed p tf path im v s s' → Q im.argc s') :
    wp (exec L p path (some file) argv) Q s := by
  rw [exec, wp_bind, wp_get]
  simp only [wp_bind, wp_vm, ha.trapframe, Option.getD_some]
  refine wp_mono hb ?_
  rintro (_ | im) k1 h1
  · exact wp_pure.mpr (hnone k1 h1)
  · obtain ⟨v, hn, ⟨T, u, hv⟩, hQ⟩ := hsome im k1 h1
    have htf : tf ∉ (↑s.kmem.freelist : Multiset Nat) := by
      have hd := (h.arena p).nodup
      rw [ha.pages_eq, add_assoc] at hd
      exact notMem_of_nodup_add hd (by simp)
    have hs := hv.space
    have hsum := hv.sum
    rw [hn] at hs hsum
    rw [wp_bind]
    refine (wp_setTrapframe (s := { s with kmem := k1 }) ha.trapframe).mpr ?_
    rw [wp_bind, wp_setProc, wp_bind]
    refine (wp_setTrapframe (by simpa [withFrame] using ha.trapframe)).mpr ?_
    rw [wp_bind]
    refine (wp_setTrapframe (by simpa [withFrame] using ha.trapframe)).mpr ?_
    simp only [wp_bind, wp_vm, ha.pagetable, Option.getD_some, withFrame, update_self, update_idem]
    refine wp_mono (wp_execCommit { s.proc p with
      name := safestrcpy (s.proc p).name (lastElem path), pagetable := some im.pagetable, sz := im.sz }
      h hst ha hsum hv.frame hs rfl (fun x hx => update_of_ne hx _ _) rfl ha.trapframe rfl rfl) ?_
    rintro _ k' ⟨hk, hmem⟩
    have hne : ∀ x ∈ T + pages u 0 v.n, x ≠ tf := by
      rintro x hx rfl
      refine htf (mem_of_le ?_ hx)
      rw [← hv.sum, add_assoc]
      exact le_add_left _ _
    refine wp_pure.mpr (hQ _ hk ⟨rfl, hv.shows fun x hx => ?_, ?_⟩)
    · rw [hmem x (by rw [← hn]; exact mem_add.mpr (.inr hx))]
      exact update_of_ne (hne x hx) _ _
    · rw [hmem tf (by simp), ← hv.frame tf htf]
      exact update_self _ _ _

theorem wp_exec {path : List UInt8} {file : Option (List UInt8)} {argv : List Nat} (h : Inv L s X R)
    (hst : (s.proc p).state ≠ .unused) :
    wp (exec L p path file argv) (fun _ s' => Inv L s' X R ∧ SameStates s s') s := by
  obtain ⟨root, tf, ha⟩ := h.space hst
  cases file with
  | none =>
    rw [exec, wp_bind, wp_get]
    exact wp_pure.mpr ⟨h, fun _ => rfl⟩
  | some file =>
    obtain ⟨hP, hc, htf⟩ := h.ready ha
    refine wp_exec_of h hst ha (wp_buildImage hP hc rfl htf) (fun k' h1 => ?_) fun im k' h1 => ?_
    · exact ⟨h.pool (by rw [h1.1]) (h1.2.mono (le_add_right _ _)), fun _ => rfl⟩
    · obtain ⟨v, hn, hv⟩ := Building.holds h1
      refine ⟨v, hn, hv, fun s' hs' hcom => ⟨hs', fun j => ?_⟩⟩
      rw [hcom.proc]
      by_cases hj : j = p
      · subst hj
        simp
      · simp [hj]

theorem wp_sysExec {files : List UInt8 → Option (List UInt8)} {path uargv : Nat} (h : Inv L s 0 R)
    (hst : (s.proc p).state ≠ .unused) :
    wp (sysExec L p files path uargv) (fun _ s' => Inv L s' 0 R ∧ SameStates s s') s := by
  obtain ⟨root, tf, ha⟩ := h.space hst
  simp only [sysExec, copyinstr, wp_bind, wp_get, wp_vm, ha.pagetable, Option.getD_some]
  refine wp_mono (wp_copyinstrLoop ha.space topPtes_user) ?_
  rintro ⟨r, str⟩ k0 hk0
  rw [hk0, wp_ite]
  refine ⟨fun _ => wp_pure.mpr ⟨h, fun _ => rfl⟩, fun _ => ?_⟩
  have hout : ∀ x ∈ Radix.nodes child (word s.kmem.mem) 2 root, x ∉ (↑s.kmem.freelist : Multiset Nat) := by
    have hd := nodup_of_le (pool_le (X := 0) ha) (h.arena p).nodup
    exact fun x hx => notMem_of_nodup_add (nodup_add.mp hd).1 hx
  rw [wp_bind, wp_vm]
  refine wp_mono (wp_fetchArgs topPtes_user hout ha.space (by simp)) ?_
  rintro ⟨ok, argv⟩ k1 ⟨hsum1, hfr1⟩
  have h1 : Inv L { s with kmem := k1 } ↑argv R :=
    h.pool (by rw [add_zero]; exact hsum1) (by rw [add_zero]; exact hfr1)
  -- the pages of the arguments are freed, whatever exec has done
  have hback : ∀ {s2 : State} {ret : Int}, Inv L s2 ↑argv R → SameStates s s2 →
      wp (do
        vm (freeArgs L argv)
        pure ret) (fun _ s' => Inv L s' 0 R ∧ SameStates s s') s2 := by
    intro s2 ret h2 hs2
    have hle : ↑s2.kmem.freelist + ↑argv ≤ ↑s2.kmem.freelist + procPages s2.kmem.mem (s2.proc p) + ↑argv := by
      rw [add_right_comm]
      exact le_add_right _ _
    rw [wp_bind, wp_vm]
    refine wp_mono (wp_freeArgs ((h2.arena p).mono hle) rfl) ?_
    rintro _ k' ⟨hfree, hfr⟩
    exact wp_pure.mpr ⟨h2.pool (by rw [hfree, add_zero]) hfr, hs2⟩
  dsimp only
  rw [wp_ite]
  refine ⟨fun _ => ?_, fun _ => wp_bind.mpr (wp_pure.mpr (hback h1 fun _ => rfl))⟩
  rw [wp_bind]
  refine wp_mono (wp_exec (p := p) h1 hst) ?_
  rintro ret s2 ⟨h2, hs2⟩
  exact hback h2 hs2

end Exec

end Sys
end Xv6
