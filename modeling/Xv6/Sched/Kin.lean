import Xv6.Sched.Family
import Xv6.Sched.Steps

/-!
# Xv6.Sched.Kin

The table of processes refines the abstract family: every step of every CPU is a step of the family or
leaves it as it is.

* `view`: the family that a state shows.
* `Kin`: what `fork` and `exit` have done to the parents, by the position in their code.
* `refines_step`: the refinement, and that the positions stay right.
-/

namespace Xv6
namespace Sched

open State Function

section

variable {C L : Type}

def member (q : Proc C) : Member := ⟨phase q.state, q.pid, q.parent, q.xstate⟩

def view (s : State C L) : Family :=
  { member := fun i => member (s.proc i)
    nextpid := s.nextpid
    initproc := s.initproc
    exits := s.exits
    waits := s.waits }

/-- In `exit`: the children in slots below this index have been given to `init`. -/
def Thread.rep : Thread C L → Option Nat
  | .exitReparent _ i | .wakeup _ _ (.exitReparent _ i) => some i
  | .exitZombie _ | .wakeup _ _ (.exitZombie _) => some NPROC
  | _ => none

/-- In `fork`: the parent of this process has been set. -/
def Thread.adopted : Thread C L → Option Slot
  | .forkReady np | .yielded (.forkReady np) => some np
  | _ => none

def Thread.exits : Thread C L → Bool
  | .exitLock _ | .yielded (.exitLock _) | .exitReparent .. | .exitZombie _ | .wakeup _ _ (.exitReparent ..)
  | .wakeup _ _ (.exitZombie _) | .exitRelease | .exitSched | .dead => true
  | _ => false

structure Kin (s : State C L) : Prop where
  rep : ∀ p n, (s.thread p).rep = some n → ∀ j : Slot, j.val < n → (s.proc j).parent ≠ some p
  adopted : ∀ p np, (s.thread p).adopted = some np → (s.proc np).parent ≠ none
  init : (s.thread s.initproc).exits = false

theorem Thread.child_of_adopted {t : Thread C L} (h : t.adopted = some np) : t.child = some np := by
  unfold Thread.adopted at h
  split at h <;> cases h <;> rfl

theorem Thread.exits_of_rep {t : Thread C L} {n : Nat} (h : t.rep = some n) : t.exits = true := by
  unfold Thread.rep at h
  split at h <;> first | rfl | cases h

variable {s s' : State C L} {c : Cpu} {p i : Slot} {k : Loop} {t : Thread C L} {np : Slot}

theorem Kin.not_init (h : Kin s) (hp : (s.thread p).exits = true) : p ≠ s.initproc := by
  rintro rfl
  rw [h.init] at hp
  cases hp

theorem view_setProc (q : Proc C) : view (s.setProc i q) = (view s).set i (member q) := by
  unfold view Family.set setProc
  congr
  funext j
  by_cases hj : j = i
  · simp [hj]
  · simp [hj]

theorem view_congr (hm : ∀ q, member (s'.proc q) = member (s.proc q)) (hn : s'.nextpid = s.nextpid)
    (hi : s'.initproc = s.initproc) (he : s'.exits = s.exits) (hw : s'.waits = s.waits) : view s' = view s := by
  unfold view
  simp only [hm, hn, hi, he, hw]

theorem view_quiet {q : Proc C} (h : member q = member (s.proc i)) : view (s.setProc i q) = view s := by
  rw [view_setProc, h]
  exact congrArg (fun m => { view s with member := m }) (update_eq_self i (view s).member)

theorem member_promote (q : Proc C) : member (promote q) = member q := by
  unfold promote
  split <;> rfl

theorem view_sched : view (sched s c k) = view s := view_congr (fun q => member_promote (s.proc q)) rfl rfl rfl rfl

/-- The threads other than that of `p` are as they were, and the parents too, or they are `init`, `p`,
or have gone. -/
theorem Kin.go (h : Kin s) (hinit : s'.initproc = s.initproc) (hp : s'.thread p = t)
    (hth : ∀ q, q ≠ p → s'.thread q = s.thread q ∨ s'.thread q = .forkret)
    (hpar : ∀ j, (s'.proc j).parent = (s.proc j).parent ∨ (s'.proc j).parent = some p ∨
      (s'.proc j).parent = some s.initproc ∨ ∀ q, (s.thread q).adopted ≠ some j ∧ (s'.proc j).parent = none)
    (hrep : ∀ n, t.rep = some n → ∀ j : Slot, j.val < n → (s'.proc j).parent ≠ some p)
    (hadopted : ∀ np, t.adopted = some np → (s'.proc np).parent ≠ none)
    (hexits : t.exits = true → p ≠ s.initproc) : Kin s' where
  rep q n hq j hj := by
    by_cases hqp : q = p
    · rw [hqp] at hq ⊢
      exact hrep n (hp ▸ hq) j hj
    · rcases hth q hqp with ht | ht <;> rw [ht] at hq
      · rcases hpar j with hpj | hpj | hpj | hpj
        · rw [hpj]
          exact h.rep q n hq j hj
        · rw [hpj]
          exact fun e => hqp (Option.some.inj e).symm
        · rw [hpj]
          rintro e
          have he := Thread.exits_of_rep hq
          rw [← Option.some.inj e, h.init] at he
          cases he
        · rw [(hpj q).2]
          exact nofun
      · cases hq
  adopted q np hq := by
    by_cases hqp : q = p
    · rw [hqp, hp] at hq
      exact hadopted np hq
    · rcases hth q hqp with ht | ht <;> rw [ht] at hq
      · rcases hpar np with hpj | hpj | hpj | hpj
        · rw [hpj]
          exact h.adopted q np hq
        · rw [hpj]
          exact nofun
        · rw [hpj]
          exact nofun
        · exact absurd hq (hpj q).1
      · cases hq
  init := by
    rw [hinit]
    by_cases hip : s.initproc = p
    · rw [hip, hp]
      cases he : t.exits with
      | false => rfl
      | true => exact absurd hip.symm (hexits he)
    · rcases hth _ hip with ht | ht <;> rw [ht]
      · exact h.init
      · rfl

theorem Kin.set {m : Proc C} (h : Kin s) (hinit : s'.initproc = s.initproc) (hth : s'.thread = update s.thread p t)
    (hproc : s'.proc = update s.proc i m) (hi : m.parent = (s.proc i).parent ∨ m.parent = some p ∨
      m.parent = some s.initproc ∨ ∀ q, (s.thread q).adopted ≠ some i ∧ m.parent = none)
    (hrep : ∀ n, t.rep = some n → ∀ j : Slot, j.val < n → (s'.proc j).parent ≠ some p)
    (hadopted : ∀ np, t.adopted = some np → (s'.proc np).parent ≠ none)
    (hexits : t.exits = true → p ≠ s.initproc) : Kin s' := by
  refine h.go hinit (by rw [hth, update_self]) (fun q hq => .inl (by rw [hth, update_of_ne hq])) (fun j => ?_)
    hrep hadopted hexits
  rw [hproc]
  by_cases hj : j = i
  · rw [hj, update_self]
    exact hi
  · exact .inl (by rw [update_of_ne hj])

theorem parent_update {m : Proc C} (h : m.parent = (s.proc i).parent) (j : Slot) :
    (update s.proc i m j).parent = (s.proc j).parent := by
  by_cases hj : j = i
  · rw [hj, update_self, h]
  · rw [update_of_ne hj]

theorem Kin.move (h : Kin s) (hinit : s'.initproc = s.initproc) (hth : s'.thread = update s.thread p t)
    (hpar : ∀ j, (s'.proc j).parent = (s.proc j).parent)
    (hrep : t.rep = none ∨ t.rep = (s.thread p).rep) (hadopted : t.adopted = none ∨ t.adopted = (s.thread p).adopted)
    (hexits : t.exits = true → (s.thread p).exits = true ∨ p ≠ s.initproc) : Kin s' := by
  refine h.go (p := p) hinit (by rw [hth, update_self])
    (fun q hq => .inl (by rw [hth, update_of_ne hq])) (fun j => .inl (hpar j)) (fun n hn j hj => ?_)
    (fun np hnp => ?_) (fun he => ?_)
  · rw [hpar]
    rcases hrep with hr | hr <;> rw [hr] at hn
    · cases hn
    · exact h.rep p n hn j hj
  · rw [hpar]
    rcases hadopted with ha | ha <;> rw [ha] at hnp
    · cases hnp
    · exact h.adopted p np hnp
  · rcases hexits he with hx | hx
    · rintro rfl
      rw [h.init] at hx
      cases hx
    · exact hx

def Refines (s s' : State C L) : Prop := (view s' = view s ∨ Family.Step (view s) (view s')) ∧ Kin s'

theorem parent_of_view (h : view s' = view s) (j : Slot) : (s'.proc j).parent = (s.proc j).parent :=
  congrArg (fun f => (f.member j).parent) h

theorem initproc_of_view (h : view s' = view s) : s'.initproc = s.initproc := congrArg Family.initproc h

section

variable (h : Kin s) (hv : view s' = view s) (hth : s'.thread = update s.thread p t)
include h hv hth

theorem Kin.quiet
    (hrep : t.rep = none ∨ t.rep = (s.thread p).rep) (hadopted : t.adopted = none ∨ t.adopted = (s.thread p).adopted)
    (hexits : t.exits = true → (s.thread p).exits = true ∨ p ≠ s.initproc) : Refines s s' :=
  ⟨.inl hv, h.move (initproc_of_view hv) hth (parent_of_view hv) hrep hadopted hexits⟩

theorem Kin.plain (hrep : t.rep = none) (hadopted : t.adopted = none) (hexits : t.exits = false) : Refines s s' :=
  h.quiet hv hth (.inl hrep) (.inl hadopted) fun he => by
    rw [hexits] at he
    cases he

end

theorem phase_of {x : ProcState} (h : (s.proc p).state = x) : ((view s).member p).phase = phase x := by
  rw [← h]
  rfl

theorem phase_live (h : (s.proc p).state = .running) : ((view s).member p).phase = .live := phase_of h

theorem refines_forkAlloc (h : Inv s) (hk : Kin s) (ht : s.thread p = .forkAlloc np) :
    Refines s ((allocproc s np).setThread p (.forkBuild np)) := by
  have hf : (s.proc np).state = .unused := h.forking_at ht
  have hv : view ((allocproc s np).setThread p (.forkBuild np)) = { (view s).set np
      { (view s).member np with phase := .used, pid := s.nextpid } with nextpid := s.nextpid + 1 } := by
    unfold allocproc
    exact congrArg (fun f : Family => { f with nextpid := s.nextpid + 1 }) (view_setProc (s := s) (i := np) _)
  exact ⟨.inr (hv ▸ Family.Step.alloc np (phase_of hf)), hk.move rfl rfl (parent_update rfl) (.inl rfl) (.inl rfl) nofun⟩

theorem refines_forkFails (h : Inv s) (hk : Kin s) (ht : s.thread p = .forkBuild np) :
    Refines s (((s.setProc np (freeproc (s.proc np))).setLock np none).setThread p .client) := by
  have hf : (s.proc np).state = .used := h.forking_at ht
  have hv : view (((s.setProc np (freeproc (s.proc np))).setLock np none).setThread p .client) =
      (view s).set np Family.cleared := view_setProc (s := s) (i := np) _
  refine ⟨.inr (hv ▸ Family.Step.free np (phase_of hf)), ?_⟩
  refine hk.set (t := .client) rfl rfl rfl (.inr (.inr (.inr fun q => ⟨fun hq => ?_, rfl⟩))) nofun nofun nofun
  -- nobody else makes this process
  have hqp := h.forkAlone q p np (Thread.child_of_adopted hq) (by rw [ht]; rfl)
  rw [hqp, ht] at hq
  cases hq

theorem refines_forkParent (h : Inv s) (hk : Kin s) (hrun : s.mode c = .run p k) (ht : s.thread p = .forkParent np) :
    Refines s ((s.setProc np { s.proc np with parent := some p }).setThread p (.forkReady np)) := by
  have hf : (s.proc np).state = .used := (h.forking_at ht).1
  have hv : view ((s.setProc np { s.proc np with parent := some p }).setThread p (.forkReady np)) =
      (view s).set np { (view s).member np with parent := some p } := view_setProc (s := s) (i := np) _
  have hlive := h.state_running hrun (by rw [ht]; rfl)
  refine ⟨.inr (hv ▸ Family.Step.adopt np p (phase_of hf) (phase_live hlive)), ?_⟩
  refine hk.set (t := .forkReady np) rfl rfl rfl (.inr (.inl rfl)) nofun (fun np' hnp => ?_) nofun
  cases hnp
  simp [setProc, setThread]

theorem refines_forkReady (h : Inv s) (hk : Kin s) (ht : s.thread p = .forkReady np) :
    Refines s ((s.setState np .runnable).setThread p .client) := by
  have hf : (s.proc np).state = .used := (h.forking_at ht).1
  have hv : view ((s.setState np .runnable).setThread p .client) =
      (view s).set np { (view s).member np with phase := .live } := view_setProc (s := s) (i := np) _
  exact ⟨.inr (hv ▸ Family.Step.ready np (phase_of hf) (hk.adopted p np (by rw [ht]; rfl))),
    hk.move (t := .client) rfl rfl (parent_update rfl) (.inl rfl) (.inl rfl) nofun⟩

theorem refines_exitReparent {status : Int} {n : Nat} {hn : n < NPROC} (hk : Kin s)
    (ht : s.thread p = .exitReparent status n) :
    Refines s (wakeup (s.setProc ⟨n, hn⟩ { s.proc ⟨n, hn⟩ with parent := some s.initproc }) p
      (some (.proc s.initproc)) (.exitReparent status (n + 1))) := by
  have hv : view (wakeup (s.setProc ⟨n, hn⟩ { s.proc ⟨n, hn⟩ with parent := some s.initproc }) p
      (some (.proc s.initproc)) (.exitReparent status (n + 1))) =
      (view s).set ⟨n, hn⟩ { (view s).member ⟨n, hn⟩ with parent := some s.initproc } :=
    view_setProc (s := s) (i := ⟨n, hn⟩) _
  have hpi := hk.not_init (by rw [ht]; rfl)
  refine ⟨.inr (hv ▸ Family.Step.reparent ⟨n, hn⟩), ?_⟩
  refine hk.set (t := .wakeup _ 0 (.exitReparent status (n + 1))) rfl rfl rfl (.inr (.inr (.inl rfl)))
    (fun m hm j hj => ?_) nofun (fun _ => hpi)
  cases hm
  by_cases hjn : j = ⟨n, hn⟩
  · simpa [wakeup, setProc, setThread, hjn] using Ne.symm hpi
  · have hlt : j.val < n := by
      have : j.val ≠ n := fun e => hjn (Fin.ext e)
      omega
    simpa [wakeup, setProc, setThread, hjn] using hk.rep p n (by rw [ht]; rfl) j hlt

theorem refines_exitZombie {status : Int} (h : Inv s) (hk : Kin s) (hrun : s.mode c = .run p k)
    (ht : s.thread p = .exitZombie status) :
    Refines s { ((s.setProc p { s.proc p with xstate := status, state := .zombie }).setLock p (some c)).setThread p
        .exitRelease with exits := ((s.proc p).pid, status) :: s.exits } := by
  have hpi := hk.not_init (by rw [ht]; rfl)
  have hlive := h.state_running hrun (by rw [ht]; rfl)
  have hv : view { ((s.setProc p { s.proc p with xstate := status, state := .zombie }).setLock p (some c)).setThread p
      .exitRelease with exits := ((s.proc p).pid, status) :: s.exits } =
      { (view s).set p { (view s).member p with phase := .zombie, xstate := status } with
        exits := ((s.proc p).pid, status) :: s.exits } :=
    congrArg (fun f : Family => { f with exits := ((s.proc p).pid, status) :: s.exits }) (view_setProc (s := s) (i := p) _)
  refine ⟨.inr (hv ▸ Family.Step.exit p status (phase_live hlive) hpi fun j => ?_), ?_⟩
  · exact hk.rep p NPROC (by rw [ht]; rfl) j j.isLt
  · exact hk.move (p := p) (t := .exitRelease) rfl rfl (parent_update rfl) (.inl rfl) (.inl rfl) fun _ => .inr hpi

theorem refines_reap [DecidableEq L] {pp : Slot} {addr : Nat} {ok : Bool} (h : Inv s) (hk : Kin s)
    (hz : (s.proc pp).state = .zombie) (hpar : (s.proc pp).parent = some p) : Refines s (reap s p pp addr ok) := by
  have hv : view (reap s p pp addr ok) = (view s).wait p pp (if addr = 0 then none else some ok) := by
    have hset : ∀ w, view { ((s.setSpin .wait none).setThread p .client).setProc pp (freeproc (s.proc pp)) with waits := w } =
        { (view s).set pp Family.cleared with waits := w } :=
      fun w => congrArg (fun f : Family => { f with waits := w }) (view_setProc (s := s) (i := pp) _)
    unfold reap Family.wait
    by_cases ha : addr = 0
    · simp only [ha, ne_eq, not_true_eq_false, false_and, ↓reduceIte, decide_true, Bool.true_or, reduceCtorEq,
        not_false_eq_true]
      exact hset _
    · cases ok
      · simp [ha, view, setSpin, setThread, member]
      · simp only [ne_eq, ha, not_false_eq_true, Bool.true_eq_false, and_false, ↓reduceIte, and_self, decide_false,
          Bool.or_true, Option.some.injEq, decide_true]
        exact hset _
  refine ⟨.inr (hv ▸ Family.Step.wait p pp _ (phase_of hz) hpar), ?_⟩
  rw [reap_eq]
  refine hk.set (t := .client) rfl rfl rfl ?_ nofun nofun nofun
  by_cases hc : addr ≠ 0 ∧ ok = false
  · exact .inl (by rw [if_pos hc])
  · refine .inr (.inr (.inr fun q => ⟨fun hq => ?_, by rw [if_neg hc]; rfl⟩))
    rcases h.child_new (Thread.child_of_adopted hq) with hst | hst <;> rw [hst] at hz <;> cases hz

theorem member_woken [DecidableEq C] (ch : Option (Chan C)) (q : Proc C) : member (woken ch q) = member q := by
  unfold woken
  split
  · rename_i hq
    simp [member, hq.1, phase]
  · rfl

theorem member_live {q : Proc C} {x : ProcState} {o : Option (Chan C)} (hq : phase q.state = .live)
    (hx : phase x = .live) : member { q with state := x, chan := o } = member q := by
  rw [member, hx, ← hq]
  rfl

theorem member_kill (q : Proc C) :
    member { q with killed := true, state := if q.state = .sleeping then .runnable else q.state } = member q := by
  by_cases hs : q.state = .sleeping
  · simp [member, hs, phase]
  · simp [member, hs]

theorem view_dispatch (h : (s.proc i).state = .runnable) : view (dispatch s c i k) = view s :=
  view_quiet (s := s.setLock i (some c)) (member_live (by simp [h, setLock, phase]) rfl)

theorem view_schedStep (hs : schedStep s c k = some s') : view s' = view s ∧ s'.thread = s.thread ∧ s'.spin = s.spin ∧
    ∃ m, s'.mode = update s.mode c m := by
  cases k <;> simp only [schedStep] at hs <;> (repeat' split at hs) <;> cases hs
  all_goals first | exact ⟨rfl, rfl, rfl, _, rfl⟩ | exact ⟨view_dispatch ‹_›, rfl, rfl, _, rfl⟩

theorem refines_schedStep (hk : Kin s) (hs : schedStep s c k = some s') : Refines s s' := by
  obtain ⟨hv, hth, -⟩ := view_schedStep hs
  refine ⟨.inl hv, ⟨fun p n => ?_, fun p np => ?_, ?_⟩⟩
  · rw [hth]
    simpa only [parent_of_view hv] using hk.rep p n
  · rw [hth]
    simpa only [parent_of_view hv] using hk.adopted p np
  · rw [hth, initproc_of_view hv]
    exact hk.init

theorem positions_yielded (hp : t.preemptible = true) :
    (Thread.yielded t).rep = none ∧ t.rep = none ∧ (Thread.yielded t).adopted = t.adopted ∧
      (Thread.yielded t).exits = t.exits := by
  cases t <;> simp_all [Thread.rep, Thread.adopted, Thread.exits, Thread.preemptible]
  all_goals split at hp <;> simp_all

theorem view_yield {user : Bool} (h : Inv s) (hrun : s.mode c = .run p k) (hp : (s.thread p).preemptible = true)
    (hs : yield s c p k user = some s') : view s' = view s := by
  have hlive : phase (s.proc p).state = .live :=
    phase_live (h.state_running hrun (Thread.free_spec (p := p) (Thread.free_of_preemptible hp)).2.1)
  unfold yield at hs
  split at hs <;> cases hs
  refine view_sched.trans (view_quiet ?_)
  cases user <;> exact member_live (o := (s.proc p).chan) hlive rfl

theorem refines_yield {user : Bool} (h : Inv s) (hk : Kin s) (hrun : s.mode c = .run p k)
    (hp : (s.thread p).preemptible = true) (hs : yield s c p k user = some s') : Refines s s' := by
  obtain ⟨h1, -, h2, h3⟩ := positions_yielded hp
  have hv := view_yield h hrun hp hs
  unfold yield at hs
  split at hs <;> cases hs
  exact hk.quiet hv rfl (.inl h1) (.inr h2) fun he => .inl (h3 ▸ he)

section Threads

variable [DecidableEq C] [DecidableEq L]

theorem refines_threadStep {ok : Bool} (h : Inv s) (hk : Kin s) (hrun : s.mode c = .run p k)
    (ht : s.thread p = t) (hs : threadStep s c p k ok t = some s') : Refines s s' := by
  have hwf := ht ▸ h.wf p
  cases t with
  | client | dead => cases hs
  | forkret | sleep0 ch lk t | sleep1 ch lk t | forkScan i | waitLock addr | waitKilled addr =>
    simp only [threadStep] at hs
    (repeat' split at hs) <;> cases hs <;> exact hk.plain rfl rfl rfl rfl rfl
  | yielded t =>
    cases hs
    obtain ⟨-, h1, h2, h3⟩ := positions_yielded hwf.1
    refine hk.quiet (t := t) rfl rfl (.inl h1) (.inr ?_) fun he => .inl ?_
    · rw [ht, h2]
    · rw [ht, h3, he]
  | sleep2 ch lk t =>
    cases hs
    have hlive := phase_live (h.state_running hrun (by rw [ht]; rfl))
    exact hk.plain (view_sched.trans (view_quiet (member_live hlive rfl))) rfl rfl rfl rfl
  | slept ch lk t =>
    cases hs
    exact hk.plain (view_quiet rfl) rfl rfl rfl rfl
  | relock lk t =>
    simp only [threadStep] at hs
    split at hs <;> cases hs
    rcases hwf with ⟨l, -, rfl⟩ | ⟨addr, -, rfl⟩ <;> exact hk.plain rfl rfl rfl rfl rfl
  | wakeup ch i t =>
    -- behind `wakeup` the process is as far as in it
    have hpos : ∀ j, (Thread.wakeup ch j t).rep = (s.thread p).rep ∧ (Thread.wakeup ch j t).adopted = none ∧
        (Thread.wakeup ch j t).exits = (s.thread p).exits ∧ t.rep = (s.thread p).rep ∧ t.adopted = none ∧
        t.exits = (s.thread p).exits := by
      intro j
      rw [ht]
      rcases hwf with ⟨rfl, -⟩ | ⟨status, ⟨j, rfl⟩ | rfl⟩ <;> exact ⟨rfl, rfl, rfl, rfl, rfl, rfl⟩
    obtain ⟨h1, h2, h3, h4, h5, h6⟩ := hpos (i + 1)
    simp only [threadStep] at hs
    split at hs
    · split at hs
      · cases hs
        exact hk.quiet rfl rfl (.inr h1) (.inl h2) fun he => .inl (h3 ▸ he)
      · split at hs <;> cases hs
        rw [wakeupTurn_eq]
        exact hk.quiet (view_quiet (member_woken ch _)) rfl (.inr h1) (.inl h2) fun he => .inl (h3 ▸ he)
    · cases hs
      exact hk.quiet rfl rfl (.inr h4) (.inl h5) fun he => .inl (h6 ▸ he)
  | kill pid i =>
    simp only [threadStep] at hs
    split at hs
    · split at hs
      · cases hs
      split at hs <;> cases hs
      · exact hk.plain (view_quiet (member_kill _)) rfl rfl rfl rfl
      · exact hk.plain rfl rfl rfl rfl rfl
    · cases hs
      exact hk.plain rfl rfl rfl rfl rfl
  | forkAlloc np =>
    cases hs
    exact refines_forkAlloc h hk ht
  | forkBuild np =>
    simp only [threadStep] at hs
    split at hs <;> cases hs
    · refine ⟨.inl rfl, hk.go (p := p) (t := .forkParent np) rfl (update_self ..) (fun q hq => ?_)
        (fun j => .inl rfl) (by rintro _ ⟨⟩) (by rintro _ ⟨⟩) (by rintro ⟨⟩)⟩
      by_cases hqn : q = np
      · exact .inr (by simp [setThread, setLock, hqn, hqn ▸ hq])
      · exact .inl (by simp [setThread, setLock, hqn, hq])
    · exact refines_forkFails h hk ht
  | forkParent np =>
    simp only [threadStep] at hs
    split at hs <;> cases hs
    exact refines_forkParent h hk hrun ht
  | forkReady np =>
    simp only [threadStep] at hs
    split at hs <;> cases hs
    exact refines_forkReady h hk ht
  | exitLock status =>
    simp only [threadStep] at hs
    split at hs <;> cases hs
    refine ⟨.inl rfl, hk.go (p := p) (t := .exitReparent status 0) rfl (update_self ..)
      (fun q hq => .inl (update_of_ne hq _ _)) (fun j => .inl rfl) (fun n hn j hj => ?_) (by rintro _ ⟨⟩) fun _ => hk.not_init (by rw [ht]; rfl)⟩
    cases hn
    exact absurd hj (Nat.not_lt_zero _)
  | exitReparent status i =>
    have hpi := hk.not_init (by rw [ht]; rfl)
    have hrep : ∀ j : Slot, j.val < i → (s.proc j).parent ≠ some p := hk.rep p i (by rw [ht]; rfl)
    simp only [threadStep] at hs
    split at hs
    · rename_i hi
      split at hs <;> cases hs
      · exact refines_exitReparent hk ht
      · rename_i hpar
        refine ⟨.inl rfl, hk.go (p := p) (t := .exitReparent status (i + 1)) rfl (update_self ..)
          (fun q hq => .inl (update_of_ne hq _ _)) (fun j => .inl rfl) (fun n hn j hj => ?_) (by rintro _ ⟨⟩) fun _ => hpi⟩
        cases hn
        by_cases hji : j = ⟨i, hi⟩
        · exact hji ▸ hpar
        · refine hrep j ?_
          have hne : j.val ≠ i := fun e => hji (Fin.ext e)
          omega
    · cases hs
      refine ⟨.inl rfl, hk.go (p := p) (t := .wakeup _ 0 (.exitZombie status)) rfl (update_self ..)
        (fun q hq => .inl (update_of_ne hq _ _)) (fun j => .inl rfl) (fun n hn j hj => ?_) (by rintro _ ⟨⟩) fun _ => hpi⟩
      exact hrep j (by omega)
  | exitZombie status =>
    simp only [threadStep] at hs
    split at hs <;> cases hs
    exact refines_exitZombie h hk hrun ht
  | exitRelease =>
    cases hs
    exact hk.quiet (t := .exitSched) rfl rfl (.inl rfl) (.inl rfl) fun _ => .inl (by rw [ht]; rfl)
  | exitSched =>
    cases hs
    exact hk.quiet (t := .dead) view_sched rfl (.inl rfl) (.inl rfl) fun _ => .inl (by rw [ht]; rfl)
  | waitScan addr i b =>
    simp only [threadStep] at hs
    (repeat' split at hs) <;> cases hs
    all_goals first
      | exact hk.plain rfl rfl rfl rfl rfl
      | exact refines_reap h hk ‹_› ‹_›

omit [DecidableEq C] in
theorem refines_call {x : Call C L} (hk : Kin s) (ht : s.thread p = .client) (hs : call s c p x = some s') :
    Refines s s' := by
  have hsame : s.thread = update s.thread p .client := by rw [← ht, update_eq_self]
  cases x with
  | acquire l | release l | schedset id =>
    simp only [call] at hs
    (repeat' split at hs) <;> cases hs <;> exact hk.plain rfl hsame rfl rfl rfl
  | sleep ch l | wakeup ch | kill pid | fork | wait addr =>
    simp only [call] at hs
    (repeat' split at hs) <;> cases hs
    all_goals exact hk.plain rfl rfl rfl rfl rfl
  | exit status =>
    simp only [call] at hs
    split at hs <;> cases hs
    exact hk.quiet (t := .exitLock status) rfl rfl (.inl rfl) (.inl rfl) fun _ => .inr ‹_›

/-- Every step of every CPU is a step of the family, or leaves it as it is. -/
theorem refines_step {ev : Cpu × Op C L} (h : Inv s) (hk : Kin s) (hs : step s ev = some s') : Refines s s' := by
  rcases step_cases hs with ⟨k, hm, ⟨-, hs⟩ | rfl⟩ | ⟨p, k, hm, ⟨ok, -, hs⟩ | ⟨user, -, hp, hs⟩ | ⟨x, -, ht, hs⟩⟩
  · exact refines_schedStep hk hs
  · exact ⟨.inl rfl, hk⟩
  · exact refines_threadStep h hk hm rfl hs
  · exact refines_yield h hk hm hp hs
  · exact refines_call hk ht hs

end Threads

theorem kin_boot : Kin (boot C L) := ⟨nofun, nofun, rfl⟩

theorem tree_boot : (view (boot C L)).Tree where
  live p q h := by cases h
  past p hp hph := by
    have : p ≠ 0 := hp
    simp [view, boot, member, this, phase] at hph
  init := rfl

theorem pids_boot : (view (boot C L)).Pids where
  lt p hp := by
    by_cases h0 : p = 0
    · simp [view, boot, member, h0]
    · simp [view, boot, member, h0, phase] at hp
  inj p q hp hq _ := by
    have hzero : ∀ r : Slot, ((view (boot C L)).member r).phase ≠ .unused → r = 0 := by
      intro r hr
      by_contra h0
      simp [view, boot, member, h0, phase] at hr
    rw [hzero p hp, hzero q hq]
  exits_nodup := List.nodup_nil
  exit_lt := nofun
  zombie p hp := by
    by_cases h0 : p = 0 <;> simp [view, boot, member, h0, phase] at hp
  not_exited := nofun
  stored := nofun
  gone := nofun
  reaped_nodup := List.nodup_nil

end

end Sched
end Xv6
