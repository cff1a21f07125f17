import Xv6.Sys.Calls

/-!
# Xv6.Sys.Runs

The invariant holds in every state of every run.

* `wpe_turn`: one step keeps the invariant and frees the pages of a process that is reaped; the only
  panic is that of `exit` in the first process.
-/

namespace Xv6
namespace Sys

open Bytes Wp Vm Function

section Turn

variable {L : Layout} {s s' s'' : State} {R : Multiset FileId} {p : ProcId} {c : Call} {env : Env} {op : Op}

theorem Reaped.mono (h : Reaped s s') (hun : ∀ j, (s''.proc j).state = .unused → (s'.proc j).state = .unused)
    (hfree : (↑s'.kmem.freelist : Multiset Nat) ≤ ↑s''.kmem.freelist) : Reaped s s'' :=
  fun j hj hj' => (h j hj (hun j hj')).trans hfree

theorem wpe_exit {status : Int} (h : Inv L s 0 R) (hst : (s.proc p).state ≠ .unused) :
    wpe Stops (exit L p status) (fun _ s' => Inv L s' 0 R ∧ Exited p s s') s := by
  by_cases hinit : s.initproc = some p
  · rw [exit, wpe_bind]
    refine wpe_of_wp (wp_get.mpr ?_)
    rw [if_pos hinit]
    exact wpe_throw.mpr (.inr rfl)
  · exact wpe_of_wp (wp_exit h hst hinit)

theorem Exited.reaped (h : Exited p s s') : Reaped s s' := by
  intro j hj hj'
  by_cases hjp : j = p
  · rw [hjp, h.zombie] at hj'
    cases hj'
  · rw [h.other j hjp] at hj'
    exact absurd hj' hj

theorem wp_sysSbrk {n : Int} (h : Inv L s 0 R) (hst : (s.proc p).state ≠ .unused) :
    wp (sysSbrk L p n) (fun _ s' => Resized L p 0 R s s') s := by
  simp only [sysSbrk, wp_bind, wp_get]
  refine wp_mono (wp_growproc h hst) ?_
  intro r s' h'
  rw [wp_ite]
  exact ⟨fun _ => wp_pure.mpr h', fun _ => wp_pure.mpr h'⟩

theorem Resized.sameStates (h : Resized L p 0 R s s') : SameStates s s' := by
  intro j
  rw [h.same]
  by_cases hj : j = p
  · subst hj
    simp [withSz]
  · simp [withSz, hj]

/-- What a system call leaves: its process is running, or has exited. -/
structure Returned (L : Layout) (p : ProcId) (c : Call) (s s' : State) (r : Option Int) : Prop where
  inv : Inv L s' 0 0
  reaped : Reaped s s'
  state : (s'.proc p).state = r.elim .zombie fun _ => .running
  kept : c = .sbrk ∨ c = .ps → Kept p s s'

theorem Returned.of_stay {r : Int} (hst : (s.proc p).state = .running)
    (h : Inv L s' 0 0 ∧ Stay s s') (hc : ¬ (c = .sbrk ∨ c = .ps)) : Returned L p c s s' (some r) :=
  ⟨h.1, h.2.reaped, (h.2 p (by rw [hst]; exact nofun)).trans hst, fun h => absurd h hc⟩

theorem Returned.of_resized {r : Int} (hst : (s.proc p).state = .running)
    (h : Resized L p 0 0 s s') : Returned L p c s s' (some r) :=
  ⟨h.inv, h.sameStates.stay.reaped, (h.sameStates p).trans hst, fun _ => h.kept⟩

theorem wpe_syscall {a0 a1 : Nat} (h : Inv L s 0 0) (hst : (s.proc p).state = .running) :
    wpe Stops (syscall L p env c a0 a1) (fun r s' => Returned L p c s s' r) s := by
  have hun : (s.proc p).state ≠ .unused := by
    rw [hst]
    exact nofun
  have hlive : (s.proc p).state ≠ .unused ∧ (s.proc p).state ≠ .zombie := by
    rw [hst]
    exact ⟨nofun, nofun⟩
  cases c with
  | exit =>
    simp only [syscall, wpe_bind]
    refine wpe_mono (wpe_exit h hun) ?_
    rintro _ s' ⟨h', he⟩
    exact wpe_of_wp (wp_pure.mpr ⟨h', he.reaped, he.zombie, nofun⟩)
  | fork =>
    simp only [syscall, wpe_map]
    exact wpe_of_wp (wp_mono (wp_fork h hun) fun _ _ h' => .of_stay hst h' nofun)
  | wait =>
    simp only [syscall, wpe_map]
    refine wpe_mono (wp_wait h hlive) ?_
    rintro r s' ⟨h1, h2, h3⟩
    exact ⟨h1, h2, h3.trans hst, nofun⟩
  | pipe =>
    simp only [syscall, wpe_map]
    exact wpe_of_wp (wp_mono (wp_sysPipe h hlive) fun _ _ h' => .of_stay hst ⟨h'.1, h'.2.stay⟩ nofun)
  | kill =>
    simp only [syscall, wpe_map]
    refine wpe_of_wp (wp_mono (wp_kill h hst) ?_)
    rintro r s' ⟨h1, h2, h3⟩
    exact ⟨h1, h2, h3, nofun⟩
  | exec =>
    simp only [syscall, wpe_map]
    exact wpe_of_wp (wp_mono (wp_sysExec h hun) fun _ _ h' => .of_stay hst ⟨h'.1, h'.2.stay⟩ nofun)
  | dup =>
    simp only [syscall, wpe_map]
    exact wpe_of_wp (wp_mono (wp_sysDup h hlive) fun _ _ h' => .of_stay hst ⟨h'.1, h'.2.stay⟩ nofun)
  | sbrk =>
    simp only [syscall, wpe_map]
    exact wpe_of_wp (wp_mono (wp_sysSbrk h hun) fun _ _ h' => .of_resized hst h')
  | close =>
    simp only [syscall, wpe_map]
    exact wpe_of_wp (wp_mono (wp_sysClose h) fun _ _ h' => .of_stay hst ⟨h'.1, h'.2.stay⟩ nofun)
  | ps =>
    simp only [syscall, wpe_map]
    exact wpe_of_wp (wp_mono (wp_ps h hun) fun _ _ h' => .of_resized hst h')

theorem wp_userStore {T : Multiset Nat} {u hi : Nat → Nat} {root n va : Nat} {v : UInt8} {k : Kmem}
    (hU : ∀ j, hi j &&& PTE_U = 0) (hd : (pages u 0 n).Nodup) (hs : Space k.mem root T u n hi) :
    wp (userStore root va v) (fun _ k' => Written k k' u n fun a => a = va) k := by
  have hle := hs.le
  have hda := Nat.div_add_mod va PGSIZE
  rw [userStore, wp_ite]
  refine ⟨fun _ => wp_pure.mpr Written.refl, fun hva => ?_⟩
  have hj : va / PGSIZE < 2 ^ 26 := by
    simp only [MAXVA, PGSIZE] at *
    omega
  rw [wp_bind, pgRoundDown]
  refine wp_walk_false hs.table hj (fun _ => wp_pure.mpr Written.refl) fun ref href => ?_
  simp only [wp_bind, wp_readPte, hs.table.slot_read (by omega) href]
  rw [wp_ite]
  refine ⟨fun hpte => ?_, fun _ => wp_pure.mpr Written.refl⟩
  have hn : va / PGSIZE < n := by
    by_contra hn
    rw [splice, if_neg hn] at hpte
    exact hpte.2.1 (hU _)
  rw [wp_bind, wp_memmove, splice, if_pos hn]
  refine wp_pure.mpr ((written_memmove (va % PGSIZE) [v] hn hd).mono fun a ha => ?_)
  simp only [List.length_singleton, PGSIZE] at *
  omega

/-- What a trap leaves of the system. -/
structure Trapped (L : Layout) (p : ProcId) (op : Op) (s s' : State) : Prop where
  inv : Inv L s' 0 0
  reaped : Reaped s s'
  state : (s'.proc p).state ≠ .unused
  kept : ∀ c a0 a1, op = .syscall c a0 a1 → c = .sbrk ∨ c = .ps → Kept p s s'

theorem Trapped.of_exit (h : Inv L s' 0 0) (he : Exited p s s') : Trapped L p op s s' :=
  ⟨h, he.reaped, by rw [he.zombie]; exact nofun, fun _ _ _ _ _ => he.kept⟩

theorem wpe_sysret {a0 a1 : Nat} {r : Option Int} (hr : Returned L p c s s' r) :
    wpe Stops (match r with
      | none => pure ()
      | some r => do
        setTrapframe p 112 (r % 2 ^ 64).toNat
        let s ← get
        doIf ((s.proc p).killed ≠ 0) (exit L p (-1)))
      (fun _ s'' => Trapped L p (.syscall c a0 a1) s s'') s' := by
  have hst := hr.state
  cases r with
  | none =>
    refine wpe_of_wp (wp_pure.mpr ⟨hr.inv, hr.reaped, ?_, fun c' _ _ he => ?_⟩)
    · rw [hst]
      exact nofun
    · cases he
      exact hr.kept
  | some r =>
    rw [Option.elim_some] at hst
    have hun : (s'.proc p).state ≠ .unused := by
      rw [hst]
      exact nofun
    obtain ⟨root, tf, ha⟩ := hr.inv.space hun
    rw [wpe_bind]
    refine wpe_of_wp ((wp_setTrapframe ha.trapframe).mpr ?_)
    generalize putLE (s'.kmem.mem tf) 112 8 (r % 2 ^ 64).toNat = page
    have h2 := hr.inv.setFrame ha page
    have hk2 := kept_setFrame hr.inv ha page
    rw [wpe_bind]
    refine wpe_of_wp (wp_get.mpr (wpe_doIf (fun _ => ?_) fun _ => ?_))
    · refine wpe_mono (wpe_exit (p := p) h2 hun) ?_
      rintro _ s'' ⟨h'', he⟩
      refine ⟨h'', hr.reaped.mono (fun j hj => ?_) he.free, by rw [he.zombie]; exact nofun, fun c' _ _ heq hc => ?_⟩
      · by_cases hjp : j = p
        · rw [hjp, he.zombie] at hj
          cases hj
        · rwa [he.other j hjp] at hj
      · cases heq
        exact ((hr.kept hc).trans hk2 rfl).trans he.kept he.sz
    · refine ⟨h2, hr.reaped.mono (fun _ => id) le_rfl, hun, fun c' _ _ heq hc => ?_⟩
      cases heq
      exact (hr.kept hc).trans hk2 rfl

theorem wpe_usertrap (h : Inv L s 0 0) (hst : (s.proc p).state = .running) :
    wpe Stops (usertrap L p env op) (fun _ s' => Trapped L p op s s') s := by
  have hun : (s.proc p).state ≠ .unused := by
    rw [hst]
    simp
  cases op with
  | syscall c a0 a1 =>
    rw [usertrap, wpe_bind]
    refine wpe_of_wp (wp_get.mpr ?_)
    split
    · refine wpe_mono (wpe_exit h hun) ?_
      rintro _ s' ⟨h', he⟩
      exact .of_exit h' he
    · rw [wpe_bind]
      refine wpe_mono (wpe_syscall h hst) ?_
      intro r s' hr
      exact wpe_sysret hr
  | store va v =>
    obtain ⟨root, tf, ha⟩ := h.space hun
    rw [usertrap, wpe_bind]
    refine wpe_of_wp (wp_get.mpr ?_)
    rw [wpe_bind, ha.pagetable, Option.getD_some]
    have hd := (Multiset.nodup_add.mp (h.nodup_space ha)).2.1
    refine wpe_of_wp (wp_vm.mpr (wp_mono (wp_userStore topPtes_user hd ha.space) ?_))
    intro ok k' hw
    have h' := h.written ha hw
    refine wpe_doIf (fun _ => ?_) fun _ => ⟨h', fun j hj hj' => absurd hj' hj, hun, by simp⟩
    rw [wpe_bind]
    refine wpe_of_wp (wp_setProc.mpr ?_)
    have h2 := h'.setProc { s.proc p with killed := 1 } rfl rfl rfl rfl Iff.rfl id
    refine wpe_mono (wpe_exit (p := p) h2 ?_) ?_
    · simpa using hun
    · rintro _ s'' ⟨h'', he⟩
      refine ⟨h'', fun j hj hj' => ?_, by rw [he.zombie]; simp, by simp⟩
      by_cases hjp : j = p
      · rw [hjp, he.zombie] at hj'
        cases hj'
      · rw [he.other j hjp] at hj'
        simp only [update_of_ne hjp] at hj'
        exact absurd hj' hj

theorem wpe_turn (h : Inv L s 0 0) (hst : (s.proc p).state = .runnable) :
    wpe Stops (turn L p env op) (fun _ s' => Trapped L p op s s') s := by
  have h₁ : Inv L { s with kmem := { s.kmem with oracle := env.oracle } } 0 0 := ⟨h.total, h.proc, h.file⟩
  have h₂ := h₁.setProc (p := p) { s.proc p with state := .running } rfl rfl rfl rfl
    (by rw [hst]; exact ⟨nofun, nofun⟩) nofun
  simp only [turn, wpe_bind]
  refine wpe_of_wp (wp_modify.mpr (wpe_of_wp (wp_setProc.mpr ?_)))
  generalize hs2 : ({ s with kmem := _, proc := _ } : State) = s2
  have hp2 : s2.proc p = { s.proc p with state := .running } := by
    rw [← hs2]
    simp
  have hj2 : ∀ j, j ≠ p → s2.proc j = s.proc j := by
    intro j hj
    rw [← hs2]
    simp [hj]
  have hm2 : s2.kmem.mem = s.kmem.mem := by rw [← hs2]
  rw [hs2] at h₂
  refine wpe_mono (wpe_usertrap h₂ (by rw [hp2])) ?_
  intro _ s3 h3
  have hun : (if (s3.proc p).state = .running then ProcState.runnable else (s3.proc p).state) ≠ .unused := by
    split
    · exact nofun
    · exact h3.state
  refine wpe_of_wp (wp_setProc.mpr ⟨h3.inv.setProc _ rfl rfl rfl rfl ?_ ?_, fun j hj hj' => ?_, ?_, ?_⟩)
  · exact ⟨fun he => absurd he hun, fun he => absurd he h3.state⟩
  · intro hz
    dsimp only at hz
    split at hz
    · cases hz
    · exact hz
  · by_cases hjp : j = p
    · rw [hjp] at hj'
      simp only [update_self] at hj'
      exact absurd hj' hun
    · simp only [update_of_ne hjp] at hj'
      have := h3.reaped j (by rw [hj2 j hjp]; exact hj) hj'
      rwa [hj2 j hjp, hm2] at this
  · simp only [update_self]
    exact hun
  · intro c a0 a1 hop hc
    obtain ⟨hk1, hk2⟩ := h3.kept c a0 a1 hop hc
    rw [hp2] at hk1 hk2
    rw [hm2] at hk2
    refine ⟨?_, fun root hr a h1 h2 => hk2 root hr a h1 ?_⟩
    · simpa using hk1
    · simpa using h2

end Turn

section Run

variable {L : Layout} {s s' : State}

theorem step_trapped {ev : Event} (h : Inv L s 0 0) (hs : step L s ev = some s') : Trapped L ev.1 ev.2.2 s s' := by
  unfold step at hs
  split at hs
  · rename_i hst
    split at hs
    · rename_i he
      cases hs
      exact wpe_ok (Q := fun _ s' => Trapped L ev.1 ev.2.2 s s') (wpe_turn h hst) he
    · cases hs
  · cases hs

theorem inv_run {evs : List Event} (h : Inv L s 0 0) (hr : Trans.run (step L) s evs = some s') : Inv L s' 0 0 :=
  Trans.run_inv (fun _ _ _ hi hs => (step_trapped hi hs).inv) h hr

end Run

end Sys
end Xv6
