import Xv6.Sys.Conserve
import Xv6.Sys.Entry

/-!
# Xv6.Sys.Recycle

Entries of the process table that are not in use. `freeproc` and `exit` clear an entry, and `allocproc`
relies on this.

* `recycles_act`: every step keeps the entries that are not in use clean, and gives a new process nothing
  but what `fork` gives it; unless it is a call of `kill(0)`, which finds such an entry by its process id.
* `recycled_iff_no_kill_zero`: the property of runs.
* `kill_zero_residue`: a run in which a new process has been killed before it starts.
-/

namespace Xv6
namespace Sys

open Bytes Wp Vm Function Trans

section Keeps

variable {L : Layout} {s s' s'' : State} {p : ProcId} {q : Proc} {r : Int} {env : Env}

theorem EntryOk.busy (h : q.state ≠ .unused) (hz : q.state ≠ .zombie) (hp : q.pid ≠ 0) : EntryOk q :=
  ⟨fun e => absurd e h, fun e => absurd e hz, fun _ => hp⟩

theorem EntryOk.unused (h : Clean q) (hst : q.state = .unused) : EntryOk q :=
  ⟨fun _ => h, fun e => (by rw [hst] at e; cases e), fun e => absurd hst e⟩

theorem Slots.update (h : Slots s) (hp : s'.proc = update s.proc p q) (hq : EntryOk q)
    (hn : s'.nextpid ≠ 0) : Slots s' := by
  refine ⟨fun j => ?_, hn⟩
  rw [hp]
  by_cases hj : j = p
  · rw [hj, update_self]
    exact hq
  · rw [update_of_ne hj]
    exact h.entry j

theorem Slots.same (h : Slots s) (hs : SameTable s s') : Slots s' :=
  ⟨fun j => by rw [hs.1]; exact h.entry j, by rw [hs.2]; exact h.nextpid⟩

/-- What a system call of `p` leaves. -/
structure Result (p : ProcId) (s s' : State) (r : Option Int) : Prop where
  slots : Slots s'
  state : (s'.proc p).state = r.elim .zombie fun _ => .running
  fresh : ∀ j, (s.proc j).state = .unused → (s'.proc j).state = .unused ∨
    Newborn p (s.proc p) (s'.proc j) ∧ (s'.proc p).killed = 0

theorem Own.result (ho : Own p s s') (h : Slots s) (hst : (s.proc p).state = .running) : Result p s s' (some r) := by
  have hne : ∀ j, (s.proc j).state = .unused → j ≠ p := by
    rintro j hj rfl
    rw [hst] at hj
    cases hj
  refine ⟨⟨fun j => ?_, ?_⟩, ho.state.trans hst, fun j hj => .inl ?_⟩
  · by_cases hj : j = p
    · subst hj
      refine .busy ?_ ?_ ?_
      · rw [ho.state, hst]
        exact nofun
      · rw [ho.state, hst]
        exact nofun
      · rw [ho.pid]
        exact (h.entry j).pid (by rw [hst]; exact nofun)
    · rw [ho.other j hj]
      exact h.entry j
  · rw [ho.nextpid]
    exact h.nextpid
  · rw [ho.other j (hne j hj)]
    exact hj

theorem Forked.result (hf : Forked p s s') (h : Slots s) (hst : (s.proc p).state = .running)
    (hk : (s.proc p).killed = 0) : Result p s s' (some r) := by
  have hrun : (s.proc p).state ≠ .unused := by
    rw [hst]
    exact nofun
  rcases hf with hi | ⟨hn, np, hnp, hother, hb⟩
  · refine ⟨⟨fun j => ?_, hi.nextpid⟩, ?_, fun j hj => .inl ?_⟩
    · rcases hi.proc j with hj | ⟨-, hj, hc⟩
      · rw [hj]
        exact h.entry j
      · exact .unused hc hj
    · rcases hi.proc p with hp | ⟨hp, -⟩
      · rw [hp, hst]
        rfl
      · exact absurd hp hrun
    · rcases hi.proc j with hj' | ⟨-, hj', -⟩
      · rw [hj', hj]
      · exact hj'
  · have hpn : p ≠ np := by
      rintro rfl
      exact hrun hnp
    refine ⟨⟨fun j => ?_, hn⟩, ?_, fun j hj => ?_⟩
    · by_cases hj : j = np
      · subst hj
        exact .busy (by rw [hb.state]; exact nofun) (by rw [hb.state]; exact nofun) hb.pid
      · rw [hother j hj]
        exact h.entry j
    · rw [hother p hpn, hst]
      rfl
    · by_cases hjn : j = np
      · subst hjn
        exact .inr ⟨hb, by rw [hother p hpn]; exact hk⟩
      · rw [hother j hjn]
        exact .inl hj

theorem Exits.slots (he : Exits p s s') (h : Slots s) (hst : (s.proc p).state ≠ .unused) :
    Slots s' ∧ ∀ j, (s.proc j).state = .unused → (s'.proc j).state = .unused := by
  refine ⟨⟨fun j => ?_, ?_⟩, fun j hj => ?_⟩
  · by_cases hj : j = p
    · subst hj
      refine ⟨fun e => ?_, fun _ => ⟨he.ofile, he.cwd⟩, fun _ => ?_⟩
      · rw [he.state] at e
        cases e
      · rw [he.pid]
        exact (h.entry j).pid hst
    · rcases he.other j hj with hj | ⟨hpar, o, hj⟩
      · rw [hj]
        exact h.entry j
      · rw [hj]
        refine ⟨fun e => ?_, (h.entry j).zombie, (h.entry j).pid⟩
        -- an entry that is not in use has no parent
        have := ((h.entry j).clean e).parent
        rw [hpar] at this
        cases this
  · rw [he.nextpid]
    exact h.nextpid
  · have hne : j ≠ p := by
      rintro rfl
      exact hst hj
    rcases he.other j hne with hj' | ⟨-, o, hj'⟩
    · rw [hj', hj]
    · rw [hj']
      exact hj

theorem runs_syscall {c : Call} {a0 a1 : Nat} (h : Slots s) (hst : (s.proc p).state = .running)
    (hk : (s.proc p).killed = 0) (hz : c = .kill → argint a0 = 0 → ∀ j, (s.proc j).state ≠ .unused) :
    runs (syscall L p env c a0 a1) (fun r s' => Result p s s' r) s := by
  have hrun : (s.proc p).state ≠ .unused := by
    rw [hst]
    simp
  cases c with
  | exit =>
    rw [syscall, runs, wpe_bind]
    refine wpe_mono runs_exit fun _ s' he => wpe_pure.mpr ?_
    obtain ⟨h1, h2⟩ := he.slots h hrun
    exact ⟨h1, he.state, fun j hj => .inl (h2 j hj)⟩
  | fork => exact wpe_map.mpr (wpe_mono (runs_fork h hrun) fun _ _ hf => hf.result h hst hk)
  | wait =>
    refine wpe_map.mpr (wpe_mono runs_wait fun _ s' hw => ?_)
    rcases hw with hw | ⟨pp, hpp, hp, hn⟩
    · exact hw.own.result h hst
    · have hpn : p ≠ pp := by
        rintro rfl
        rw [hst] at hpp
        cases hpp
      obtain ⟨ho, hc⟩ := (h.entry pp).zombie hpp
      refine ⟨h.update hp (.unused (clean_freed ho hc) rfl) (by rw [hn]; exact h.nextpid), ?_, fun j hj => .inl ?_⟩
      · rw [hp, update_of_ne hpn, hst]
        rfl
      · rw [hp]
        by_cases hjp : j = pp
        · rw [hjp, update_self]
          rfl
        · rw [update_of_ne hjp, hj]
  | kill =>
    refine wpe_map.mpr (wpe_mono runs_kill fun _ s' hw => ?_)
    obtain ⟨hn, hw⟩ := hw
    split at hw
    · exact SameTable.own ⟨hw, hn⟩ |>.result h hst
    · rename_i j hf
      have hpid : ((s.proc j).pid : Int) = argint a0 := by simpa using List.find?_some hf
      have hun : (s.proc j).state ≠ .unused := by
        intro e
        refine hz rfl ?_ j e
        rw [← hpid, ((h.entry j).clean e).pid]
        rfl
      refine ⟨h.update hw ⟨fun e => absurd e ?_, fun e => (h.entry j).zombie ?_, fun _ => (h.entry j).pid hun⟩
        (by rw [hn]; exact h.nextpid), ?_, fun i hi => .inl ?_⟩
      · dsimp only
        split
        · simp
        · exact hun
      · dsimp only at e
        split at e
        · cases e
        · exact e
      · rw [hw]
        by_cases hpj : p = j
        · subst hpj
          simp [hst]
        · simp [hpj, hst]
      · have hij : i ≠ j := by
          rintro rfl
          exact hun hi
        rw [hw, update_of_ne hij, hi]
  | pipe => exact wpe_map.mpr (wpe_mono runs_sysPipe fun _ _ ho => ho.result h hst)
  | exec => exact wpe_map.mpr (wpe_mono runs_sysExec fun _ _ ho => ho.result h hst)
  | dup => exact wpe_map.mpr (wpe_mono runs_sysDup fun _ _ ho => ho.result h hst)
  | sbrk => exact wpe_map.mpr (wpe_mono runs_sysSbrk fun _ _ ho => ho.result h hst)
  | close => exact wpe_map.mpr (wpe_mono runs_sysClose fun _ _ ho => ho.result h hst)
  | ps => exact wpe_map.mpr (wpe_mono runs_ps fun _ _ ho => ho.result h hst)

structure Settled (p : ProcId) (s s' : State) : Prop where
  slots : Slots s'
  state : (s'.proc p).state = .running ∨ (s'.proc p).state = .zombie
  fresh : ∀ j, (s.proc j).state = .unused → (s'.proc j).state = .unused ∨ Newborn p (s.proc p) (s'.proc j)

theorem Exits.settled (he : Exits p s s') (h : Slots s) (hst : (s.proc p).state ≠ .unused) : Settled p s s' := by
  obtain ⟨h1, h2⟩ := he.slots h hst
  exact ⟨h1, .inr he.state, fun j hj => .inl (h2 j hj)⟩

theorem runs_sysret (hr : Result p s s' (some r)) : runs (do
      setTrapframe p 112 (r % 2 ^ 64).toNat
      let s ← get
      doIf ((s.proc p).killed ≠ 0) (exit L p (-1))) (fun _ s'' => Settled p s s'') s' := by
  have hst := hr.state
  rw [Option.elim_some] at hst
  refine runs_seq runs_setTrapframe fun _ s1 h1 => runs_get ?_
  have hslots : Slots s1 := hr.slots.same h1
  refine wpe_doIf (fun hk => ?_) fun _ => ?_
  · refine wpe_mono runs_exit fun _ s2 he => ?_
    have ht := he.settled hslots (by rw [h1.1, hst]; exact nofun)
    refine ⟨ht.slots, ht.state, fun j hj => ?_⟩
    rcases hr.fresh j hj with hj' | ⟨-, hk'⟩
    · left
      exact (he.slots hslots (by rw [h1.1, hst]; exact nofun)).2 j (by rw [h1.1, hj'])
    · rw [h1.1] at hk
      exact absurd hk' hk
  · refine ⟨hslots, .inl (by rw [h1.1, hst]), fun j hj => ?_⟩
    rw [h1.1]
    exact (hr.fresh j hj).imp_right fun h => h.1

/-- A process that has not been killed calls `kill(0)` when there is an entry that is not in use. -/
def killsZero (s : State) (ev : Event) : Prop :=
  (s.proc ev.1).killed = 0 ∧ (∃ j, (s.proc j).state = .unused) ∧
    match ev.2.2 with
    | .syscall .kill a0 _ => argint a0 = 0
    | _ => False

theorem runs_usertrap {op : Op} (h : Slots s) (hst : (s.proc p).state = .running)
    (hz : ¬ killsZero s (p, env, op)) : runs (usertrap L p env op) (fun _ s' => Settled p s s') s := by
  have hrun : (s.proc p).state ≠ .unused := by
    rw [hst]
    exact nofun
  cases op with
  | store va v =>
    refine runs_get (runs_seq runs_vm fun ok s1 h₁ => wpe_doIf (fun _ => ?_) fun _ => ?_)
    · rw [wpe_bind]
      refine runs_setProc.mpr (wpe_mono runs_exit fun _ s2 he => ?_)
      have hslots : Slots { s1 with proc := update s1.proc p { s1.proc p with killed := 1 } } := by
        have hp := (h.entry p).pid hrun
        exact (h.same h₁).update rfl (.busy (by simp [h₁.1, hst]) (by simp [h₁.1, hst]) (by simpa [h₁.1] using hp))
          (h.same h₁).nextpid
      obtain ⟨h1, h2⟩ := he.slots hslots (by simp [h₁.1, hst])
      refine ⟨h1, .inr he.state, fun j hj => .inl (h2 j ?_)⟩
      have hjp : j ≠ p := by
        rintro rfl
        exact hrun hj
      simpa [h₁.1, hjp] using hj
    · exact ⟨h.same h₁, .inl (by rw [h₁.1, hst]), fun j hj => .inl (by rw [h₁.1, hj])⟩
  | syscall c a0 a1 =>
    refine runs_get (wpe_ite.mpr ⟨fun _ => wpe_mono runs_exit fun _ _ he => he.settled h hrun, fun hk => ?_⟩)
    rw [wpe_bind]
    refine wpe_mono (runs_syscall h hst (not_not.mp hk) ?_) fun r s1 h₁ => ?_
    · rintro rfl ha j hj
      exact hz ⟨not_not.mp hk, ⟨j, hj⟩, ha⟩
    · cases r with
      | none => exact wpe_pure.mpr ⟨h₁.slots, .inr h₁.state, fun j hj => (h₁.fresh j hj).imp_right fun h => h.1⟩
      | some r => exact runs_sysret h₁

/-- What a step leaves: an entry that is not in use stays clean, or holds a new process. -/
structure Recycles (s s' : State) : Prop where
  slots : Slots s'
  fresh : ∀ j, (s.proc j).state = .unused → (s'.proc j).state = .unused ∨ ∃ p, Newborn p (s.proc p) (s'.proc j)

theorem runs_schedule {y : Kern Unit} (hst : (s.proc p).state = .runnable)
    (hy : runs y (fun _ s' => Settled p { s with proc := update s.proc p { s.proc p with state := .running } } s')
      { s with proc := update s.proc p { s.proc p with state := .running } }) :
    runs (do
      setProc p fun q => { q with state := .running }
      y
      setProc p fun q => { q with state := if q.state = .running then .runnable else q.state })
      (fun _ s' => Recycles s s') s := by
  rw [runs, wpe_bind]
  refine runs_setProc.mpr ?_
  rw [wpe_bind]
  refine wpe_mono hy fun _ s2 h2 => runs_setProc.mpr ⟨h2.slots.update rfl ?_ h2.slots.nextpid, fun j hj => ?_⟩
  · rcases h2.state with hp | hp
    · refine .busy (by simp [hp]) (by simp [hp]) ((h2.slots.entry p).pid ?_)
      rw [hp]
      simp
    · have hq := h2.slots.entry p
      refine ⟨fun e => ?_, fun _ => hq.zombie hp, fun _ => hq.pid (by rw [hp]; simp)⟩
      simp [hp] at e
  · have hjp : j ≠ p := by
      rintro rfl
      rw [hst] at hj
      cases hj
    simp only [update_of_ne hjp]
    refine (h2.fresh j (by simpa [hjp] using hj)).imp_right fun hb => ⟨p, ?_⟩
    simp only [update_self] at hb
    exact ⟨hb.state, hb.killed, hb.xstate, hb.chan, hb.parent, hb.pid, hb.sz, hb.ofile, hb.cwd⟩

section

variable (h : Slots s) (hst : (s.proc p).state = .runnable)
include h hst

theorem Slots.running :
    Slots { s with proc := Function.update s.proc p { s.proc p with state := .running } } :=
  h.update rfl (.busy nofun nofun ((h.entry p).pid (by rw [hst]; exact nofun))) h.nextpid

theorem runs_turn {op : Op}
    (hz : ¬ killsZero s (p, env, op)) : runs (turn L p env op) (fun _ s' => Recycles s s') s := by
  rw [turn, runs, wpe_bind]
  refine wpe_modify.mpr (wpe_mono (runs_schedule (s := { s with kmem := { s.kmem with oracle := env.oracle } }) hst
    (runs_usertrap (Slots.running (h.same ⟨rfl, rfl⟩) hst) (by simp) ?_)) fun _ _ h => ⟨h.slots, h.fresh⟩)
  rintro ⟨hk, ⟨j, hj⟩, ha⟩
  refine hz ⟨by simpa using hk, ⟨j, ?_⟩, ha⟩
  by_cases hjp : j = p
  · subst hjp
    simp at hj
  · simpa [hjp] using hj

theorem runs_callTurn {x : Kern Int}
    (hx : ∀ s, runs x (fun _ s' => Own p s s') s) : runs (callTurn L p x) (fun _ s' => Recycles s s') s := by
  refine runs_schedule hst (runs_get ?_)
  have h1 := h.running hst
  refine wpe_ite.mpr ⟨fun _ => wpe_mono runs_exit fun _ _ he => he.settled h1 (by simp), fun _ => ?_⟩
  rw [wpe_bind]
  exact wpe_mono (hx _) fun r s2 ho => runs_sysret (ho.result h1 (by simp))

end

theorem after_spec {x : Kern Unit} {Q : Unit → State → Prop} (h : runs x Q s) (hs : after x s = some s') : Q () s' := by
  unfold after at hs
  split at hs
  · rename_i he
    cases hs
    exact wpe_ok h he
  · cases hs

theorem Slots.recycles (h : Slots s) (hst : (s.proc p).state ≠ .unused)
    (hp : s'.proc = Function.update s.proc p q) (hn : s'.nextpid = s.nextpid) (hq : EntryOk q) : Recycles s s' := by
  refine ⟨h.update hp hq (by rw [hn]; exact h.nextpid), fun j hj => .inl ?_⟩
  have hjp : j ≠ p := by
    rintro rfl
    exact hst hj
  rw [hp, update_of_ne hjp, hj]

def KillsZero (s : State) : Action → Prop
  | .turn ev => killsZero s ev
  | _ => False

theorem recycles_act {a : Action} (h : Slots s) (hz : ¬ KillsZero s a) (hs : act L s a = some s') : Recycles s s' := by
  cases a with
  | turn ev =>
    obtain ⟨p, env, op⟩ := ev
    simp only [act, step] at hs
    split at hs
    · split at hs
      · split at hs <;> cases hs
        rename_i hst _ _ he
        exact wpe_ok (Q := fun _ s' => Recycles s s') (runs_turn h hst hz) he
      · cases hs
    · cases hs
  | sysOpen p device omode =>
    simp only [act] at hs
    split at hs
    · rename_i hr
      exact after_spec (runs_callTurn h hr.1 fun _ => runs_sysOpen) hs
    · cases hs
  | sysChdir p dir =>
    simp only [act] at hs
    split at hs
    · rename_i hr
      exact after_spec (runs_callTurn h hr.1 fun _ => runs_sysChdir) hs
    · cases hs
  | sleep p ch =>
    simp only [act] at hs
    split at hs <;> cases hs
    rename_i hr
    have hst : (s.proc p).state ≠ .unused := by rw [hr.1.1]; exact nofun
    exact h.recycles hst rfl rfl (.busy nofun nofun ((h.entry p).pid hst))
  | awake p =>
    simp only [act] at hs
    split at hs <;> cases hs
    rename_i hr
    have hst : (s.proc p).state ≠ .unused := by rw [hr]; exact nofun
    refine h.recycles hst rfl rfl (.busy ?_ ?_ ((h.entry p).pid hst)) <;> rw [hr] <;> exact nofun
  | wakeup ch =>
    cases hs
    refine ⟨⟨fun j => ?_, h.nextpid⟩, fun j hj => .inl ?_⟩
    · dsimp only
      split
      · rename_i hst
        exact .busy nofun nofun ((h.entry j).pid (by rw [hst.1]; exact nofun))
      · exact h.entry j
    · simp [hj]
  | consoleintr =>
    refine after_spec (Q := fun _ s' => Recycles s s') (runs_get ?_) hs
    split
    · exact wpe_throw.mpr trivial
    · rename_i pp hpp
      -- an entry that is not in use has no parent
      have hst : (s.proc (highest s)).state ≠ .unused := by
        intro e
        rw [((h.entry _).clean e).parent] at hpp
        cases hpp
      refine wpe_doIf (fun _ => ?_) fun _ => ⟨h, fun j hj => .inl hj⟩
      have hq := h.entry (highest s)
      exact runs_setProc.mpr (h.recycles hst rfl rfl ⟨fun e => absurd e hst, hq.zombie, fun _ => hq.pid hst⟩)

theorem runs_kill_zero (h : Slots s) (hex : ∃ j, (s.proc j).state = .unused) : runs (kill 0) (fun _ s' =>
    ∃ j, (s.proc j).state = .unused ∧ (s'.proc j).state = .unused ∧ (s'.proc j).killed = 1 ∧
      ∀ i, i ≠ j → s'.proc i = s.proc i) s := by
  refine wpe_mono runs_kill fun _ s' hw => ?_
  obtain ⟨-, hw⟩ := hw
  split at hw
  · rename_i hf
    obtain ⟨j, hj⟩ := hex
    have := List.find?_eq_none.mp hf j (List.mem_finRange j)
    simp [((h.entry j).clean hj).pid] at this
  · rename_i j hf
    have hpid : (s.proc j).pid = 0 := by simpa using List.find?_some hf
    have hun : (s.proc j).state = .unused := by
      by_contra hun
      exact (h.entry j).pid hun hpid
    refine ⟨j, hun, ?_, ?_, fun i hi => ?_⟩
    · simp [hw, hun]
    · simp [hw]
    · rw [hw, update_of_ne hi]

theorem runs_turn_kill_zero {a0 a1 : Nat} (h : Slots s) (hst : (s.proc p).state = .runnable)
    (hk : (s.proc p).killed = 0) (hex : ∃ j, (s.proc j).state = .unused) (ha : argint a0 = 0) :
    runs (turn L p env (.syscall .kill a0 a1)) (fun _ s' => ∃ j, (s'.proc j).state = .unused ∧ (s'.proc j).killed = 1) s := by
  rw [turn, runs, wpe_bind]
  refine wpe_modify.mpr ?_
  rw [wpe_bind]
  refine runs_setProc.mpr ?_
  rw [wpe_bind, usertrap]
  refine runs_get (wpe_ite.mpr ⟨fun hk' => absurd (by simpa using hk) hk', fun _ => ?_⟩)
  rw [wpe_bind, syscall, ha]
  have h1 : Slots { s with
      kmem := { s.kmem with oracle := env.oracle }
      proc := update s.proc p { s.proc p with state := .running } } :=
    (h.running hst).same ⟨rfl, rfl⟩
  have hne : ∀ j, (s.proc j).state = .unused → j ≠ p := by
    rintro j hj rfl
    rw [hst] at hj
    cases hj
  obtain ⟨j0, hj0⟩ := hex
  refine wpe_map.mpr (wpe_mono (runs_kill_zero h1 ⟨j0, by simpa [hne j0 hj0] using hj0⟩) fun r s2 h2 => ?_)
  obtain ⟨j, hun, hst2, hk2, hother⟩ := h2
  have hjp : p ≠ j := by
    rintro rfl
    simp at hun
  refine runs_seq runs_setTrapframe fun _ s3 h3 => runs_get ?_
  refine wpe_doIf (fun hk' => ?_) fun _ => ?_
  · rw [h3.1, hother p hjp] at hk'
    simp [hk] at hk'
  · refine runs_setProc.mpr ⟨j, ?_, ?_⟩ <;> simp only [update_of_ne hjp.symm, h3.1]
    · exact hst2
    · exact hk2

theorem killsZero_breaks {a : Action} (h : Slots s) (hz : KillsZero s a) (hs : act L s a = some s') : ¬ Recycled s' := by
  cases a with
  | turn ev =>
    obtain ⟨p, env, op⟩ := ev
    obtain ⟨hk, hex, ha⟩ := hz
    dsimp only at ha
    split at ha
    · simp only [act, step] at hs
      split at hs
      · split at hs
        · split at hs <;> cases hs
          rename_i hst _ _ he
          obtain ⟨j, hj, hj'⟩ := wpe_ok (runs_turn_kill_zero h hst hk hex ha) he
          intro hr
          rw [(hr j hj).killed] at hj'
          cases hj'
        · cases hs
      · cases hs
    · exact ha.elim
  | _ => exact hz.elim

end Keeps

section Runs

variable {L : Layout} {n : Nat} {mem : Nat → Page} {s₀ s : State} {acts : List Action}

theorem runs_allocKernel : ∀ n s, runs (allocKernel n) (fun _ s' => SameTable s s') s := by
  intro n
  induction n with
  | zero => exact fun s => runs_pure
  | succ n ih =>
    intro s
    refine runs_then runs_vm fun r s => ?_
    cases r with
    | none => exact wpe_throw.mpr trivial
    | some pa => exact runs_then (wpe_modify.mpr ⟨rfl, rfl⟩) fun _ s => ih s

theorem slots_reset : Slots (reset mem) :=
  ⟨fun _ => .unused ⟨rfl, rfl, rfl, rfl, rfl, rfl, rfl, rfl, fun _ => rfl, rfl⟩ rfl, nofun⟩

theorem runs_main : runs (main L n) (fun _ s' => Slots s') (reset mem) := by
  refine runs_seq runs_vm fun _ s1 h1 => runs_seq (runs_allocKernel n s1) fun _ s2 h2 => ?_
  have hs := (slots_reset.same h1).same h2
  rw [userinit, runs, wpe_bind]
  refine wpe_mono (runs_allocproc hs) fun r s3 h3 => ?_
  cases r with
  | none => exact wpe_throw.mpr trivial
  | some p =>
    obtain ⟨hn, -, tf, pt, h3⟩ := h3
    rw [wpe_bind]
    refine wpe_modify.mpr (runs_get (runs_seq runs_vm fun _ s4 h4 => ?_))
    rw [runs, wpe_bind]
    refine runs_setProc.mpr (runs_seq runs_setTrapframe fun _ s5 h5 => runs_seq runs_setTrapframe fun _ s6 h6 =>
      runs_setProc.mpr ?_)
    have h₄p := h4.1.trans h3
    refine ⟨fun j => ?_, ?_⟩
    · by_cases hj : j = p
      · subst hj
        exact .busy (by simp) (by simp) (by simpa [h6.1, h5.1, h₄p] using hs.nextpid)
      · simp only [update_of_ne hj, h6.1, h5.1, h₄p]
        exact hs.entry j
    · simp only [h6.2, h5.2, h4.2]
      exact hn

theorem slots_run (hb : main L n (reset mem) = .ok ((), s₀)) (hr : run (act L) s₀ acts = some s)
    (hz : Trans.AllSteps (act L) (fun s a => ¬ KillsZero s a) s₀ acts) : Slots s :=
  run_inv_of (fun _ _ _ h hz hs => (recycles_act h hz hs).slots) (wpe_ok (Q := fun _ s' => Slots s') runs_main hb)
    hz hr

/-- The entries that are not in use are clean in all states of a run exactly when no process calls
`kill(0)` while there is one; and then a new process starts with nothing from an earlier one. -/
theorem recycled_iff_no_kill_zero (hb : main L n (reset mem) = .ok ((), s₀))
    (hr : run (act L) s₀ acts = some s) :
    (Trans.AllStates (act L) Recycled s₀ acts ↔ Trans.AllSteps (act L) (fun s a => ¬ KillsZero s a) s₀ acts) ∧
      (Trans.AllSteps (act L) (fun s a => ¬ KillsZero s a) s₀ acts → ∀ a s', ¬ KillsZero s a → act L s a = some s' →
        ∀ j, (s.proc j).state = .unused → (s'.proc j).state ≠ .unused → ∃ p, Newborn p (s.proc p) (s'.proc j)) := by
  have h0 : Slots s₀ := wpe_ok (Q := fun _ s' => Slots s') runs_main hb
  refine ⟨?_, fun hz a s' ha hs j hj hj' => ?_⟩
  · refine allStates_iff_allSteps (A := fun _ _ => True) (I := Slots) (fun s h j => (h.entry j).clean)
      (fun s a s' h _ hz hs => (recycles_act h hz hs).slots) (fun s a s' h _ hz hs => ?_) h0 hr
      (allSteps_of (fun _ _ => trivial) _ _)
    exact killsZero_breaks h (not_not.mp hz) hs
  · exact ((recycles_act (slots_run hb hr hz) ha hs).fresh j hj).resolve_left hj'

end Runs

/-- The first process forks. -/
def forks : Action := .turn (0, quietEnv, .syscall .fork 0 0)

theorem recycled_fork : ∃ s₀ s, main smallLayout 1 (reset fun _ _ => 0) = .ok ((), s₀) ∧
    act smallLayout s₀ forks = some s ∧ Trans.AllStates (act smallLayout) Recycled s₀ [forks] ∧
    ∃ p, Newborn p (s₀.proc p) (s.proc 1) := by
  obtain ⟨s₀, hb, s, hs, h1, h2⟩ : ∃ s0, main smallLayout 1 (reset fun _ _ => 0) = .ok ((), s0) ∧
      ∃ s ∈ act smallLayout s0 forks, (s0.proc 1).state = .unused ∧ (s.proc 1).state = .runnable := by decide +kernel
  have hz : ∀ s, ¬ KillsZero s forks := fun s hz => hz.2.2
  have hr : run (act smallLayout) s₀ [forks] = some s := by
    rw [run, hs]
    rfl
  refine ⟨s₀, s, hb, hs, (recycled_iff_no_kill_zero hb hr).1.mpr ⟨hz s₀, fun _ _ => trivial⟩, ?_⟩
  exact (recycled_iff_no_kill_zero hb (run_nil s₀)).2 trivial forks s (hz s₀) hs 1 h1 (by rw [h2]; simp)

/-- The first process calls `kill(0)`, and then forks: the new process has been killed. -/
theorem kill_zero_residue : ∃ s₀ s₁ s₂, main smallLayout 1 (reset fun _ _ => 0) = .ok ((), s₀) ∧
    act smallLayout s₀ (.turn (0, quietEnv, .syscall .kill 0 0)) = some s₁ ∧ ¬ Recycled s₁ ∧
    act smallLayout s₁ forks = some s₂ ∧ (s₂.proc 1).state = .runnable ∧ (s₂.proc 1).killed = 1 := by
  obtain ⟨s₀, hb, s₁, hs1, hun, hk, s₂, h2⟩ : ∃ s0, main smallLayout 1 (reset fun _ _ => 0) = .ok ((), s0) ∧
      ∃ s1 ∈ act smallLayout s0 (.turn (0, quietEnv, .syscall .kill 0 0)), (s1.proc 1).state = .unused ∧
        (s1.proc 1).killed = 1 ∧ ∃ s2 ∈ act smallLayout s1 forks, (s2.proc 1).state = .runnable ∧ (s2.proc 1).killed = 1 := by
    decide +kernel
  refine ⟨s₀, s₁, s₂, hb, hs1, fun hr => ?_, h2⟩
  rw [(hr 1 hun).killed] at hk
  cases hk

end Sys
end Xv6
