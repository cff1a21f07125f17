import Xv6.Sched.Inv

/-!
# Xv6.Sched.Steps

Every step of every CPU keeps the invariant.

* `inv_schedStep`, `inv_threadStep`, `inv_yield`, `inv_call`: the steps of the scheduler, of a process in
  the functions of `proc.c`, a timer interrupt and a call from other code.
* `inv_step`, `inv_boot`: the invariant holds in every state of every run.
-/

namespace Xv6
namespace Sched

open State Function

attribute [local simp] setProc setLock setSpin setThread setMode setCur setState

section Forms

variable {C L : Type} {s : State C L}

def woken [DecidableEq C] (ch : Option (Chan C)) (q : Proc C) : Proc C :=
  if q.state = .sleeping ∧ q.chan = ch then { q with state := .runnable } else q

theorem wakeupTurn_eq [DecidableEq C] (ch : Option (Chan C)) (i : Slot) :
    wakeupTurn s ch i = s.setProc i (woken ch (s.proc i)) := by
  unfold wakeupTurn woken
  split
  · rfl
  · simp

theorem steady_woken [DecidableEq C] (ch : Option (Chan C)) (q : Proc C) : Steady q (woken ch q) := by
  unfold woken
  split
  · exact .inr ⟨(‹_ ∧ _›).1, rfl⟩
  · exact Steady.refl q

theorem reap_eq [DecidableEq L] (p pp : Slot) (addr : Nat) (ok : Bool) : reap s p pp addr ok =
      { ((s.setSpin .wait none).setThread p .client).setProc pp
          (if addr ≠ 0 ∧ ok = false then s.proc pp else freeproc (s.proc pp)) with
        waits := ⟨p, pp, (s.proc pp).pid, if addr ≠ 0 ∧ ok then some (s.proc pp).xstate else none,
          decide (addr = 0) || ok⟩ :: s.waits } := by
  unfold reap
  dsimp only
  split
  · simp
  · rfl

theorem steady_setProc {q : Proc C} {i : Slot} (h : Steady (s.proc i) q) (j : Slot) :
    Steady (s.proc j) ((s.setProc i q).proc j) := by
  by_cases hj : j = i
  · subst hj
    simpa using h
  · simpa [hj] using Steady.refl (s.proc j)

end Forms

section Scheduler

variable {C L : Type} {s s' : State C L} {c : Cpu} {p : Slot} {k : Loop} {t : Thread C L}

theorem inv_schedStep (h : Inv s) (hm : s.mode c = .sched k) (hs : schedStep s c k = some s') : Inv s' := by
  have hmove : ∀ k', k.back = none → k'.back = none → Inv (s.setMode c (.sched k')) :=
    fun k' hk hk' => h.schedMove hm hk hk' fun _ _ => rfl
  have hback : ∀ {i k'} {o : Cpu → Option Slot}, k.back = some i → k'.back = none → (∀ c', c' ≠ c → o c' = s.cur c') →
      Inv { (s.setLock i none).setMode c (.sched k') with cur := o } := h.back_release hm
  cases k with
  | start =>
    cases hs
    exact h.schedMove hm rfl (by split <;> rfl) fun c' hc => update_of_ne hc _ _
  | rr i | high i avail | low i =>
    simp only [schedStep] at hs
    split at hs
    · split at hs
      · cases hs
      rename_i hl
      (repeat' split at hs) <;> cases hs
      all_goals first
        | exact hmove _ rfl rfl
        | exact h.dispatch hm rfl (not_not.mp hl) ‹_› rfl
    · cases hs
      exact hmove _ rfl (by first | rfl | split <;> rfl)
  | rrBack i =>
    cases hs
    exact hback rfl rfl fun c' hc => update_of_ne hc _ _
  | highBack i | lowBack i =>
    simp only [schedStep] at hs
    split at hs <;> cases hs
    · exact hback rfl rfl fun _ _ => rfl
    · exact hback rfl rfl fun c' hc => update_of_ne hc _ _

@[simp] theorem promote_state (q : Proc C) : (promote q).state = q.state := by
  unfold promote
  split <;> rfl

@[simp] theorem promote_chan (q : Proc C) : (promote q).chan = q.chan := by
  unfold promote
  split <;> rfl

theorem inv_yield {user : Bool} (h : Inv s) (hrun : s.mode c = .run p k) (hp : (s.thread p).preemptible = true)
    (hs : yield s c p k user = some s') : Inv s' := by
  obtain ⟨hh, -⟩ := Thread.free_spec (p := p) (Thread.free_of_preemptible hp)
  unfold yield at hs
  split at hs
  · cases hs
  rename_i hl
  have hl : s.lock p = none := not_not.mp hl
  cases hs
  refine h.switch (t := .yielded (s.thread p)) hrun (.inr ⟨hh, hl⟩) rfl rfl rfl rfl (fun q hq => ?_) ?_
    (.inr ⟨child_yielded hp, (forking_yielded hp).mpr⟩) ⟨hp, h.wf p⟩
  · simp [sched, hq]
  · cases user <;> simp [Suspended, sched, Thread.resumes]

end Scheduler

section Processes

variable {C L : Type} {s s' : State C L} {c : Cpu} {p np : Slot} {k : Loop}

section

variable (h : Inv s)
include h

theorem Inv.child_free (hl : s.lock np = none) (hst : (s.proc np).state = .unused) (q : Slot) :
    (s.thread q).child ≠ some np := by
  intro hq
  have hf := h.forking q
  have ht : s.thread q = .forkAlloc np := by
    generalize s.thread q = t at hq hf
    unfold Thread.child at hq
    split at hq <;> cases hq <;> simp_all [Forking]
  obtain ⟨c, k, hm⟩ := h.runs (p := q) (by rw [ht]; rfl) (by rw [ht]; exact nofun)
  have hlock := (h.lock np c).mpr ((heldBy_run hm).trans (by rw [ht]; rfl))
  rw [hl] at hlock
  cases hlock

theorem Inv.child_suspended (hc : (s.thread p).child = some np) : Suspended (s.proc np) (s.thread np) :=
  h.suspended np fun c k => h.not_running_of_new (h.child_new hc) c k

theorem inv_forkAlloc (hrun : s.mode c = .run p k) (ht : s.thread p = .forkAlloc np) :
    Inv ((allocproc s np).setThread p (.forkBuild np)) := by
  have hf : (s.proc np).state = .unused := h.forking_at ht
  have hc : (s.thread p).child = some np := by rw [ht]; rfl
  have hsusp := h.child_suspended hc
  refine h.other hrun rfl rfl (h.lock_same rfl (by simp [heldBy, allocproc, hrun, ht, Thread.holds])) rfl
    (by rw [ht]; rfl) ⟨rfl, nofun⟩ hsusp ?_ (fun q hq => update_of_ne hq _ _) (.inl hc)
    (.inr ⟨hc.symm, ?_⟩) trivial
  · rw [Suspended, hf] at hsusp
    simpa [allocproc, Suspended] using hsusp
  · simp [allocproc, Forking]

theorem inv_forkBuilt (hrun : s.mode c = .run p k) (ht : s.thread p = .forkBuild np) :
    Inv (((s.setThread np .forkret).setLock np none).setThread p (.forkParent np)) := by
  have hf : (s.proc np).state = .used := h.forking_at ht
  have hnr : ∀ c' k', s.mode c' ≠ .run np k' := h.not_running_of_new (.inr hf)
  have hnp : np ≠ p := fun e => hnr c k (e ▸ hrun)
  have hth : s.thread np = .dead ∨ s.thread np = .forkret := by
    have := h.suspended np hnr
    rwa [Suspended, hf] at this
  refine h.change (fun c' _ => ⟨rfl, rfl⟩) (h.lock_give rfl ((heldBy_run hrun).trans (by rw [ht]; rfl)) ?_)
    (fun q hq => ?_) (fun q hq _ => ?_) (fun _ _ _ => rfl) (fun q k' hq => ?_) (fun q k' hq => ?_) (fun k' i hk => ?_)
  · simp [heldBy, hrun, Thread.holds]
  · have hqp := ne_of_mode hrun hq
    by_cases hqn : q = np
    · subst hqn
      rcases hth with hth | hth
      · exact .inr ⟨hth, by simp [hqp]⟩
      · exact .inl (by simp [hqp, hth])
    · exact .inl (by simp [hqp, hqn])
  · have hqp := ne_of_mode hrun hq
    by_cases hqn : q = np
    · subst hqn
      simp [hqp, Suspended, Active, hf, Thread.exiting]
    · simp [hqp, hqn]
  · obtain rfl := mode_run_eq hrun hq
    exact ⟨by simp [Forking, hf, hnp], by simp [Thread.Wf], by simp [ht, Thread.child], fun hno => absurd hrun (hno k)⟩
  · obtain rfl := mode_run_eq hrun hq
    refine ⟨.inl ⟨h.state_running hrun (by rw [ht]; rfl), ?_⟩, (h.active c q k' hq).2, .inl ⟨k', hq⟩⟩
    simp [Thread.exiting]
  · cases hrun.symm.trans hk

theorem inv_forkFails (hrun : s.mode c = .run p k) (ht : s.thread p = .forkBuild np) :
    Inv (((s.setProc np (freeproc (s.proc np))).setLock np none).setThread p .client) := by
  have hf : (s.proc np).state = .used := h.forking_at ht
  have hc : (s.thread p).child = some np := by rw [ht]; rfl
  have hsusp := h.child_suspended hc
  refine h.other hrun rfl rfl (h.lock_give rfl ((heldBy_run hrun).trans (by rw [ht]; rfl)) ?_)
    rfl (by rw [ht]; rfl) ⟨rfl, nofun⟩ hsusp ?_ (fun q hq => update_of_ne hq _ _) (.inl hc) (.inl rfl) trivial
  · simp [heldBy, hrun, Thread.holds]
  · rw [Suspended, hf] at hsusp
    simpa [freeproc, Suspended] using hsusp

theorem inv_forkReady (hrun : s.mode c = .run p k) (ht : s.thread p = .forkReady np) :
    Inv ((s.setState np .runnable).setThread p .client) := by
  have hf : (s.proc np).state = .used ∧ s.thread np = .forkret := h.forking_at ht
  have hc : (s.thread p).child = some np := by rw [ht]; rfl
  refine h.other hrun rfl rfl (h.lock_same rfl (by simp [heldBy, hrun, ht, Thread.holds])) rfl
    (by rw [ht]; rfl) ⟨rfl, nofun⟩ (h.child_suspended hc) ?_ (fun q hq => update_of_ne hq _ _) (.inl hc)
    (.inl rfl) trivial
  simp [Suspended, hf, Thread.resumes]

theorem Inv.zombie_suspended {i : Slot} (hl : s.lock i = none) (hst : (s.proc i).state = .zombie) :
    Suspended (s.proc i) (s.thread i) := by
  refine h.suspended i fun c k hm => ?_
  have he : (s.thread i).exiting = true := by
    rcases (h.active c i k hm).1 with ⟨ha, -⟩ | ⟨-, he⟩
    · rw [hst] at ha
      cases ha
    · exact he
  have hh : (s.thread i).holds i = some i := by
    generalize s.thread i = t at he
    cases t <;> first | rfl | cases he
  rw [(h.lock i c).mpr ((heldBy_run hm).trans hh)] at hl
  cases hl

theorem inv_exitZombie {status : Int} {xs : List (Nat × Int)} (hrun : s.mode c = .run p k)
    (ht : s.thread p = .exitZombie status) (hl : s.lock p = none) :
    Inv { ((s.setProc p { s.proc p with xstate := status, state := .zombie }).setLock p (some c)).setThread p
        .exitRelease with exits := xs } := by
  refine h.act hrun rfl rfl (h.lock_take rfl hl ((heldBy_run hrun).trans (by rw [ht]; rfl)) ?_)
    (fun q hq => update_of_ne hq _ _) ?_ (fun q hq => ?_) (fun i hi hc => ?_) ?_ (fun q hq => ?_) ?_
  · simp [heldBy, hrun, Thread.holds]
  · simp [Active, Thread.exiting]
  · simp [hq]
  · have hip : i ≠ p := fun e => h.not_running_of_new hi c k (e ▸ hrun)
    simp [hip]
  · simp [Forking]
  · simp [Thread.child] at hq
  · simp [Thread.Wf]

theorem inv_exitSched (hrun : s.mode c = .run p k) (ht : s.thread p = .exitSched) :
    Inv (sched (s.setThread p .dead) c k) := by
  have hh : (s.thread p).holds p = some p := by rw [ht]; rfl
  have hl : s.lock p = some c := (h.lock p c).mpr ((heldBy_run hrun).trans hh)
  refine h.switch hrun (.inl hh) rfl rfl ?_ rfl (fun q hq => ?_) ?_ (.inl rfl) trivial
  · simp [sched, ← hl]
  · simp [sched]
  · rcases (h.active c p k hrun).1 with ⟨-, he, -⟩ | ⟨hz, -⟩
    · rw [ht] at he
      cases he
    · simp [Suspended, sched, hz]

end

end Processes

section Steps

variable {C L : Type} [DecidableEq L] {s s' : State C L} {c : Cpu} {p : Slot} {k : Loop}

theorem inv_reap {pp : Slot} {addr i : Nat} {b ok : Bool} (h : Inv s) (hrun : s.mode c = .run p k)
    (ht : s.thread p = .waitScan addr i b) (hl : s.lock pp = none) (hst : (s.proc pp).state = .zombie) :
    Inv (reap s p pp addr ok) := by
  have h0 : (s.thread p).free = true := by rw [ht]; rfl
  unfold reap
  dsimp only
  split
  · exact h.move (t := .client) hrun h0 rfl trivial rfl rfl rfl rfl (fun q => Steady.refl _) (.inl rfl)
  · have hsusp := h.zombie_suspended hl hst
    refine h.other hrun rfl rfl (h.lock_same rfl (by simp [heldBy, hrun, ht, Thread.holds])) rfl
      (by rw [ht]; rfl) ⟨rfl, nofun⟩ hsusp ?_ (fun q hq => update_of_ne hq _ _) (.inr ?_) (.inl rfl) trivial
    · rw [Suspended, hst] at hsusp
      simp [freeproc, Suspended, hsusp]
    · simp [hst]

theorem inv_exitRelease (h : Inv s) (hrun : s.mode c = .run p k) (ht : s.thread p = .exitRelease) :
    Inv ((s.setSpin .wait none).setThread p .exitSched) := by
  have hact := (h.active c p k hrun).1
  rw [ht] at hact
  refine h.act hrun rfl rfl (h.lock_same rfl (by simp [heldBy, hrun, ht, Thread.holds]))
    (fun q hq => update_of_ne hq _ _) ?_ (fun q hq => ⟨id, id⟩) (fun i hi hc => rfl) ?_ (fun q hq => ?_) ?_
  · simpa [Active, Thread.exiting] using hact
  · simp [Forking]
  · simp [Thread.child] at hq
  · simp [Thread.Wf]

end Steps

section Threads

variable {C L : Type} {s s' : State C L} {c : Cpu} {p : Slot} {k : Loop}

theorem Thread.Wf.relock {ch : Chan C} {lk : Lk L} (h : (Thread.slept ch lk t).Wf p) : (Thread.relock lk t).Wf p := by
  rcases h with ⟨x, l, -, h⟩ | ⟨addr, -, h⟩
  · exact .inl ⟨l, h⟩
  · exact .inr ⟨addr, h⟩

theorem Thread.Wf.of_relock {lk : Lk L} (h : (Thread.relock lk t).Wf p) :
    t.free = true ∧ t.Wf p ∧ t.child = none := by
  rcases h with ⟨l, -, rfl⟩ | ⟨addr, -, rfl⟩ <;> exact ⟨rfl, trivial, rfl⟩

theorem Thread.Wf.of_wakeup {ch : Option (Chan C)} {i : Nat} (h : (Thread.wakeup ch i t).Wf p) :
    t.free = true ∧ t.Wf p ∧ t.child = none := by
  rcases h with ⟨rfl, -⟩ | ⟨status, ⟨j, rfl⟩ | rfl⟩ <;> exact ⟨rfl, trivial, rfl⟩

variable [DecidableEq C] [DecidableEq L] {t : Thread C L}

theorem inv_threadStep {ok : Bool} (h : Inv s) (hrun : s.mode c = .run p k) (ht : s.thread p = t)
    (hs : threadStep s c p k ok t = some s') : Inv s' := by
  have hwf := ht ▸ h.wf p
  have hfork := h.forking_at ht
  have hmove : ∀ {u : Thread C L} {s' : State C L}, t.free = true → s'.mode = s.mode → s'.cur = s.cur →
      s'.lock = s.lock → s'.thread = update s.thread p u → (∀ q, Steady (s.proc q) (s'.proc q)) →
      u.free = true → u.Wf p → u.child = none → Inv s' :=
    fun h0 hm hc hl hth hp hu huw huc => h.move hrun (ht ▸ h0) hu huw hm hc hl hth hp (.inl huc)
  -- from a place without a lock to another one, with the table as it is
  have hplain : ∀ {u : Thread C L} {s' : State C L}, t.free = true → s'.mode = s.mode → s'.cur = s.cur →
      s'.lock = s.lock → s'.thread = update s.thread p u → s'.proc = s.proc →
      u.free = true → u.Wf p → u.child = none → Inv s' :=
    fun h0 hm hc hl hth hp => hmove h0 hm hc hl hth fun q => hp ▸ Steady.refl _
  cases t with
  | client | dead => cases hs
  | forkret =>
    cases hs
    exact h.resume (t := .client) hrun (by rw [ht]; rfl) rfl trivial rfl rfl rfl rfl rfl (fun _ _ => rfl) (.inl rfl)
  | yielded t =>
    cases hs
    refine h.resume (t := t) hrun (by rw [ht]; rfl) (Thread.free_of_preemptible hwf.1) hwf.2 rfl rfl rfl rfl rfl
      (fun _ _ => rfl) (.inr ⟨by rw [ht, child_yielded hwf.1], ?_⟩)
    refine ((forking_yielded hwf.1).mp hfork).congr fun np hnp => ⟨rfl, (update_of_ne ?_ _ _).trans⟩
    rintro rfl
    exact h.not_running_of_new (h.child_new (by rw [ht, child_yielded hwf.1, hnp])) c k hrun
  | sleep0 ch lk t =>
    simp only [threadStep] at hs
    split at hs <;> cases hs
    rename_i hl
    exact h.take hrun (by rw [ht]; rfl) ⟨rfl, by simp⟩ (not_not.mp hl) rfl hwf (.inl rfl)
  | sleep1 ch lk t =>
    simp only [threadStep] at hs
    split at hs <;> cases hs
    exact h.go hrun rfl rfl (h.lock_same rfl (by simp [heldBy, hrun, ht, Thread.holds])) rfl (by rw [ht]; rfl)
      ⟨rfl, by simp⟩ rfl (fun q _ => Steady.refl _) (.inl rfl) hwf
  | sleep2 ch lk t =>
    cases hs
    have hh : (s.thread p).holds p = some p := by rw [ht]; rfl
    have hl : s.lock p = some c := (h.lock p c).mpr ((heldBy_run hrun).trans hh)
    refine h.switch hrun (.inl hh) rfl rfl ?_ rfl (fun q hq => ?_) ?_ (.inl rfl) hwf
    · simp [sched, ← hl]
    · simp [sched, hq]
    · simp [Suspended, sched]
  | slept ch lk t =>
    cases hs
    exact h.resume hrun (by rw [ht]; rfl) rfl hwf.relock rfl rfl rfl rfl (by simp) (fun q hq => by simp [hq]) (.inl rfl)
  | relock lk t =>
    simp only [threadStep] at hs
    split at hs <;> cases hs
    obtain ⟨hf, hw, hc⟩ := hwf.of_relock
    exact hplain rfl rfl rfl rfl rfl rfl hf hw hc
  | wakeup ch i t =>
    simp only [threadStep] at hs
    split at hs
    · split at hs
      · cases hs
        exact hplain rfl rfl rfl rfl rfl rfl rfl hwf rfl
      · split at hs <;> cases hs
        rw [wakeupTurn_eq]
        exact hmove rfl rfl rfl rfl rfl (steady_setProc (steady_woken ch _)) rfl hwf rfl
    · cases hs
      obtain ⟨hf, hw, hc⟩ := hwf.of_wakeup
      exact hplain rfl rfl rfl rfl rfl rfl hf hw hc
  | kill pid i =>
    simp only [threadStep] at hs
    split at hs
    · split at hs
      · cases hs
      split at hs <;> cases hs
      · refine hmove rfl rfl rfl rfl rfl (steady_setProc ?_) rfl trivial rfl
        rename_i hi _ _
        by_cases hsl : (s.proc ⟨i, hi⟩).state = .sleeping
        · exact .inr ⟨hsl, if_pos hsl⟩
        · exact .inl ⟨if_neg hsl, rfl⟩
      · exact hplain rfl rfl rfl rfl rfl rfl rfl trivial rfl
    · cases hs
      exact hplain rfl rfl rfl rfl rfl rfl rfl trivial rfl
  | forkScan i =>
    simp only [threadStep] at hs
    split at hs
    · split at hs
      · cases hs
      rename_i hl
      split at hs <;> cases hs
      · rename_i hst
        have hl := not_not.mp hl
        refine h.take hrun (by rw [ht]; rfl) ⟨rfl, by simp⟩ hl rfl trivial (.inr ⟨hst, fun np hnp => ?_⟩)
        cases hnp
        refine ⟨fun e => ?_, h.child_free hl hst⟩
        exact h.not_running_of_new (.inl hst) c k (e ▸ hrun)
      · exact hplain rfl rfl rfl rfl rfl rfl rfl trivial rfl
    · cases hs
      exact hplain rfl rfl rfl rfl rfl rfl rfl trivial rfl
  | forkAlloc np =>
    cases hs
    exact inv_forkAlloc h hrun ht
  | forkBuild np =>
    simp only [threadStep] at hs
    split at hs <;> cases hs
    · exact inv_forkBuilt h hrun ht
    · exact inv_forkFails h hrun ht
  | forkParent np =>
    simp only [threadStep] at hs
    split at hs <;> cases hs
    have hnp : np ≠ p := fun e => h.not_running_of_new (.inr hfork.1) c k (e ▸ hrun)
    refine h.move (t := .forkReady np) hrun (by rw [ht]; rfl) rfl trivial rfl rfl rfl rfl
      (steady_setProc (.inl ⟨rfl, rfl⟩)) (.inr ⟨by rw [ht]; rfl, ?_⟩)
    simpa [Forking, hnp] using hfork
  | forkReady np =>
    simp only [threadStep] at hs
    split at hs <;> cases hs
    exact inv_forkReady h hrun ht
  | exitLock status | waitLock addr =>
    simp only [threadStep] at hs
    split at hs <;> cases hs
    exact hplain rfl rfl rfl rfl rfl rfl rfl trivial rfl
  | exitReparent status i =>
    simp only [threadStep] at hs
    split at hs
    · split at hs <;> cases hs
      · exact hmove rfl rfl rfl rfl rfl (steady_setProc (.inl ⟨rfl, rfl⟩)) rfl (.inr ⟨status, .inl ⟨_, rfl⟩⟩) rfl
      · exact hplain rfl rfl rfl rfl rfl rfl rfl trivial rfl
    · cases hs
      exact hplain rfl rfl rfl rfl rfl rfl rfl (.inr ⟨status, .inr rfl⟩) rfl
  | exitZombie status =>
    simp only [threadStep] at hs
    split at hs <;> cases hs
    rename_i hl
    exact inv_exitZombie h hrun ht (not_not.mp hl)
  | exitRelease =>
    cases hs
    exact inv_exitRelease h hrun ht
  | exitSched =>
    cases hs
    exact inv_exitSched h hrun ht
  | waitScan addr i b =>
    have hscan : ∀ b', Inv (s.setThread p (.waitScan addr (i + 1) b')) :=
      fun b' => hplain rfl rfl rfl rfl rfl rfl rfl trivial rfl
    simp only [threadStep] at hs
    split at hs
    · split at hs
      · split at hs
        · cases hs
        rename_i hl
        split at hs <;> cases hs
        · exact inv_reap h hrun ht (not_not.mp hl) ‹_›
        · exact hscan true
      · cases hs
        exact hscan b
    · split at hs <;> cases hs <;> exact hplain rfl rfl rfl rfl rfl rfl rfl trivial rfl
  | waitKilled addr =>
    simp only [threadStep] at hs
    split at hs
    · cases hs
    split at hs <;> cases hs
    · exact hplain rfl rfl rfl rfl rfl rfl rfl trivial rfl
    · exact hplain rfl rfl rfl rfl rfl rfl rfl (.inr ⟨addr, rfl, rfl, rfl⟩) rfl

omit [DecidableEq C] in
theorem inv_call {x : Call C L} (h : Inv s) (hrun : s.mode c = .run p k) (ht : s.thread p = .client)
    (hs : call s c p x = some s') : Inv s' := by
  have hmove : ∀ {t : Thread C L} {s' : State C L}, s'.mode = s.mode → s'.cur = s.cur → s'.lock = s.lock →
      s'.thread = update s.thread p t → s'.proc = s.proc → t.free = true → t.Wf p → t.child = none → Inv s' :=
    fun hm hcr hl hth hp hf hw hc =>
      h.move hrun (by rw [ht]; rfl) hf hw hm hcr hl hth (fun q => hp ▸ Steady.refl _) (.inl hc)
  have hsame : s.thread = update s.thread p .client := by rw [← ht, update_eq_self]
  cases x with
  | acquire l | release l | schedset id =>
    simp only [call] at hs
    (repeat' split at hs) <;> cases hs <;> exact hmove rfl rfl rfl hsame rfl rfl trivial rfl
  | sleep ch l =>
    simp only [call] at hs
    split at hs <;> cases hs
    exact hmove rfl rfl rfl rfl rfl rfl (.inl ⟨ch, l, rfl, rfl, rfl⟩) rfl
  | wakeup ch =>
    cases hs
    exact hmove rfl rfl rfl rfl rfl rfl (.inl ⟨rfl, ch, rfl⟩) rfl
  | kill pid | fork | wait addr =>
    cases hs
    exact hmove rfl rfl rfl rfl rfl rfl trivial rfl
  | exit status =>
    simp only [call] at hs
    split at hs <;> cases hs
    exact hmove rfl rfl rfl rfl rfl rfl trivial rfl

theorem inv_step {ev : Cpu × Op C L} (h : Inv s) (hs : step s ev = some s') : Inv s' := by
  rcases step_cases hs with ⟨k, hm, ⟨-, hs⟩ | rfl⟩ | ⟨p, k, hm, ⟨ok, -, hs⟩ | ⟨user, -, hp, hs⟩ | ⟨x, -, ht, hs⟩⟩
  · exact inv_schedStep h hm hs
  · exact h
  · exact inv_threadStep h hm rfl hs
  · exact inv_yield h hm hp hs
  · exact inv_call h hm ht hs

end Threads

section Elsewhere

variable {C L : Type} [DecidableEq C] [DecidableEq L] {s s' : State C L} {c : Cpu} {p : Slot} {k : Loop}

theorem threadStep_mode {ok : Bool} {t : Thread C L} (hs : threadStep s c p k ok t = some s') :
    s'.cur = s.cur ∧ (s'.mode = s.mode ∨ s'.mode = update s.mode c (.sched k)) := by
  cases t <;> simp only [threadStep] at hs <;> (repeat' split at hs) <;> cases hs
  all_goals try simp only [wakeupTurn_eq, reap_eq]
  all_goals first | exact ⟨rfl, .inl rfl⟩ | exact ⟨rfl, .inr rfl⟩

omit [DecidableEq C] [DecidableEq L] in
theorem yield_mode {user : Bool} (hs : yield s c p k user = some s') :
    s'.cur = s.cur ∧ s'.mode = update s.mode c (.sched k) := by
  unfold yield at hs
  split at hs <;> cases hs
  exact ⟨rfl, rfl⟩

omit [DecidableEq C] in
theorem call_mode {x : Call C L} (hs : call s c p x = some s') : s'.cur = s.cur ∧ s'.mode = s.mode := by
  cases x <;> simp only [call] at hs <;> (repeat' split at hs) <;> cases hs
  all_goals exact ⟨rfl, rfl⟩

theorem mode_step {ev : Cpu × Op C L} {c' : Cpu} (hs : step s ev = some s') (hc : c' ≠ ev.1) :
    s'.mode c' = s.mode c' := by
  rcases step_cases hs with ⟨k, -, ⟨-, hs⟩ | rfl⟩ | ⟨p, k, -, ⟨ok, -, hs⟩ | ⟨user, -, -, hs⟩ | ⟨x, -, -, hs⟩⟩
  · cases k <;> simp only [schedStep] at hs <;> (repeat' split at hs) <;> cases hs
    all_goals exact update_of_ne hc _ _
  · rfl
  · rcases (threadStep_mode hs).2 with he | he <;> rw [he]
    exact update_of_ne hc _ _
  · rw [(yield_mode hs).2]
    exact update_of_ne hc _ _
  · rw [(call_mode hs).2]

omit [DecidableEq C] in
theorem spin_update {lk lk' : Lk L} {o : Option Cpu} (h : s.spin lk = none ∨ s.spin lk = some c) :
    update s.spin lk o lk' = s.spin lk' ∨ s.spin lk' = none ∨ s.spin lk' = some c := by
  by_cases hl : lk' = lk
  · subst hl
    exact .inr h
  · exact .inl (update_of_ne hl _ _)

theorem spin_threadStep {l : L} {ok : Bool} {t : Thread C L} (hs : threadStep s c p k ok t = some s') :
    s'.spin (.other l) = s.spin (.other l) ∨ s.spin (.other l) = none ∨ s.spin (.other l) = some c := by
  cases t <;> simp only [threadStep] at hs <;> (repeat' split at hs) <;> cases hs
  all_goals try simp only [wakeupTurn_eq, reap_eq]
  all_goals first
    | exact .inl rfl
    | exact .inl (update_of_ne nofun _ _)
    | exact spin_update (.inl (not_not.mp ‹_›))
    | exact spin_update (.inr (not_not.mp ‹_›))

theorem spin_step {ev : Cpu × Op C L} {l : L} (hs : step s ev = some s') :
    s'.spin (.other l) = s.spin (.other l) ∨ s.spin (.other l) = none ∨ s.spin (.other l) = some ev.1 := by
  rcases step_cases hs with ⟨k, -, ⟨-, hs⟩ | rfl⟩ | ⟨p, k, -, ⟨ok, -, hs⟩ | ⟨user, -, -, hs⟩ | ⟨x, -, -, hs⟩⟩
  · left
    cases k <;> simp only [schedStep] at hs <;> (repeat' split at hs) <;> cases hs
    all_goals rfl
  · exact .inl rfl
  · exact spin_threadStep hs
  · unfold yield at hs
    split at hs <;> cases hs
    exact .inl rfl
  · cases x <;> simp only [call] at hs <;> (repeat' split at hs) <;> cases hs
    all_goals first
      | exact .inl rfl
      | exact spin_update (.inl (not_not.mp ‹_›))
      | exact spin_update (.inr (not_not.mp ‹_›))

end Elsewhere

theorem inv_boot (C L : Type) : Inv (boot C L) where
  lock i c := by simp [boot, heldBy, Loop.back]
  alone c c' p k k' h := by simp [boot] at h
  active c p k h := by simp [boot] at h
  suspended p _ := by
    by_cases hp : p = 0 <;> simp [boot, Suspended, hp, Thread.resumes]
  back c k i h hk := by
    simp only [boot, Mode.sched.injEq] at h
    subst h
    cases hk
  forking p := trivial
  forkAlone p p' np h := by simp [boot, Thread.child] at h
  wf p := trivial

end Sched
end Xv6
