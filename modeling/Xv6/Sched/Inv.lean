import Xv6.Sched.Model

/-!
# Xv6.Sched.Inv

Who holds which `p->lock`, which CPU runs which process, and what the state of a process says about
where its code is.

* `heldBy`: the `p->lock` that a CPU holds, read off the positions of its code. `Inv.lock` says that the
  locks are as these positions say.
* `Inv.change`: what one CPU may do. `Inv.act`: what a running process may do. `Inv.move`, `Inv.take`, `Inv.resume` and `Inv.other` are the
  kinds of steps that occur: without a lock, taking one, giving its own lock back, changing a process
  that does not run.
* `Inv.schedMove`, `Inv.dispatch`, `Inv.back_release` and `Inv.switch`: what a CPU does in the scheduler,
  and how it comes there.
-/

namespace Xv6
namespace Sched

open State Function

section Positions

variable {C L : Type}

/-- The `p->lock` that process `p` holds here while it runs. -/
def Thread.holds (p : Slot) : Thread C L → Option Slot
  | .forkret | .yielded _ | .sleep1 .. | .sleep2 .. | .slept .. | .exitRelease | .exitSched => some p
  | .forkAlloc np | .forkBuild np => some np
  | _ => none

def heldBy (s : State C L) (c : Cpu) : Option Slot :=
  match s.mode c with
  | .sched k => k.back
  | .run p _ => (s.thread p).holds p

/-- The process that `fork` is making here. -/
def Thread.child : Thread C L → Option Slot
  | .forkAlloc np | .forkBuild np | .forkParent np | .forkReady np => some np
  | .yielded (.forkParent np) | .yielded (.forkReady np) => some np
  | _ => none

def Thread.free : Thread C L → Bool
  | .client | .sleep0 .. | .relock .. | .wakeup .. | .kill .. | .forkScan _ | .forkParent _ | .forkReady _
  | .exitLock _ | .exitReparent .. | .exitZombie _ | .waitLock _ | .waitScan .. | .waitKilled _ => true
  | _ => false

def Thread.resumes : Thread C L → Bool
  | .forkret | .yielded _ | .slept .. => true
  | _ => false

def Thread.exiting : Thread C L → Bool
  | .exitRelease | .exitSched => true
  | _ => false

def Active (q : Proc C) (t : Thread C L) : Prop :=
  q.state = .running ∧ t.exiting = false ∧ t ≠ .dead ∨ q.state = .zombie ∧ t.exiting = true

def Suspended (q : Proc C) (t : Thread C L) : Prop :=
  match q.state with
  | .runnable => t.resumes = true
  | .sleeping => ∃ ch lk k, t = .slept ch lk k ∧ q.chan = some ch
  | .zombie => t = .dead
  | .running => False
  | .unused | .used => t = .dead ∨ t = .forkret

def Forking (s : State C L) : Thread C L → Prop
  | .forkAlloc np => (s.proc np).state = .unused
  | .forkBuild np => (s.proc np).state = .used
  | .forkParent np | .forkReady np | .yielded (.forkParent np) | .yielded (.forkReady np) =>
    (s.proc np).state = .used ∧ s.thread np = .forkret
  | _ => True

/-- The functions are called from where they are called in the source: `sleep` by `wait` or by other
code, `wakeup` by `exit` or by other code. -/
def Thread.Wf (p : Slot) : Thread C L → Prop
  | .yielded k => k.preemptible = true ∧ k.Wf p
  | .sleep0 ch lk k | .sleep1 ch lk k | .sleep2 ch lk k | .slept ch lk k =>
    (∃ x l, ch = .other x ∧ lk = .other l ∧ k = .client) ∨
      ∃ addr, ch = .proc p ∧ lk = .wait ∧ k = .waitScan addr 0 false
  | .relock lk k => (∃ l, lk = .other l ∧ k = .client) ∨ ∃ addr, lk = .wait ∧ k = .waitScan addr 0 false
  | .wakeup ch _ k =>
    (k = .client ∧ ∃ x, ch = some (.other x)) ∨ ∃ status, (∃ j, k = .exitReparent status j) ∨ k = .exitZombie status
  | _ => True

structure Inv (s : State C L) : Prop where
  lock : ∀ i c, s.lock i = some c ↔ heldBy s c = some i
  alone : ∀ c c' p k k', s.mode c = .run p k → s.mode c' = .run p k' → c = c'
  active : ∀ c p k, s.mode c = .run p k → Active (s.proc p) (s.thread p) ∧ k.back = some p ∧ s.cur c = some p
  suspended : ∀ p, (∀ c k, s.mode c ≠ .run p k) → Suspended (s.proc p) (s.thread p)
  back : ∀ c k i, s.mode c = .sched k → k.back = some i → s.cur c = some i ∧ ∀ c' k', s.mode c' ≠ .run i k'
  forking : ∀ p, Forking s (s.thread p)
  forkAlone : ∀ p p' np, (s.thread p).child = some np → (s.thread p').child = some np → p = p'
  wf : ∀ p, (s.thread p).Wf p

end Positions

section Cases

variable {C L : Type} [DecidableEq C] [DecidableEq L] {s s' : State C L} {ev : Cpu × Op C L}

theorem step_run {p : Slot} {k : Loop} (hm : s.mode ev.1 = .run p k) (hs : step s ev = some s') :
    (∃ ok, ev.2 = .tau ok ∧ threadStep s ev.1 p k ok (s.thread p) = some s') ∨
    (∃ user, ev.2 = .timer user ∧ (s.thread p).preemptible = true ∧ yield s ev.1 p k user = some s') ∨
    ∃ x, ev.2 = .call x ∧ s.thread p = .client ∧ call s ev.1 p x = some s' := by
  obtain ⟨c, op⟩ := ev
  cases op with
  | tau ok =>
    simp only [step, hm] at hs
    exact .inl ⟨ok, rfl, hs⟩
  | timer user =>
    simp only [step, hm] at hs
    split at hs
    · exact .inr (.inl ⟨user, rfl, (‹_ ∧ _›).1, hs⟩)
    · cases hs
  | call x =>
    simp only [step, hm] at hs
    split at hs
    · exact .inr (.inr ⟨x, rfl, ‹_›, hs⟩)
    · cases hs

theorem step_cases (hs : step s ev = some s') :
    (∃ k, s.mode ev.1 = .sched k ∧ ((∃ ok, ev.2 = .tau ok) ∧ schedStep s ev.1 k = some s' ∨ s' = s)) ∨
    ∃ p k, s.mode ev.1 = .run p k ∧ ((∃ ok, ev.2 = .tau ok ∧ threadStep s ev.1 p k ok (s.thread p) = some s') ∨
      (∃ user, ev.2 = .timer user ∧ (s.thread p).preemptible = true ∧ yield s ev.1 p k user = some s') ∨
      ∃ x, ev.2 = .call x ∧ s.thread p = .client ∧ call s ev.1 p x = some s') := by
  cases hm : s.mode ev.1 with
  | sched k =>
    obtain ⟨c, op⟩ := ev
    cases op with
    | tau ok =>
      simp only [step, hm] at hs
      exact .inl ⟨k, rfl, .inl ⟨⟨ok, rfl⟩, hs⟩⟩
    | timer user =>
      simp only [step, hm, schedTimer] at hs
      split at hs <;> cases hs
      exact .inl ⟨k, rfl, .inr rfl⟩
    | call x => simp only [step, hm, reduceCtorEq] at hs
  | run p k => exact .inr ⟨p, k, rfl, step_run hm hs⟩

end Cases

attribute [local simp] setProc setLock setSpin setThread setMode setCur setState

section Changes

variable {C L : Type} {s s' : State C L} {c : Cpu} {p i : Slot} {k : Loop} {t : Thread C L} {q q' : Proc C}

theorem heldBy_run (h : s.mode c = .run p k) : heldBy s c = (s.thread p).holds p := by
  rw [heldBy, h]

theorem heldBy_sched (h : s.mode c = .sched k) : heldBy s c = k.back := by
  rw [heldBy, h]

theorem Thread.free_spec (h : t.free = true) : t.holds p = none ∧ t.exiting = false ∧ t ≠ .dead := by
  cases t <;> simp_all [Thread.free, Thread.holds, Thread.exiting]

theorem Thread.free_of_preemptible (h : t.preemptible = true) : t.free = true := by
  cases t <;> first | rfl | cases h

/-- The changes of other processes that a process makes without further ado: it does not touch `state`
and `chan`, or it wakes the process up. -/
def Steady (q q' : Proc C) : Prop :=
  q'.state = q.state ∧ q'.chan = q.chan ∨ q.state = .sleeping ∧ q'.state = .runnable

theorem Steady.active (h : Steady q q') (ha : Active q t) : Active q' t := by
  rcases h with ⟨h, -⟩ | ⟨h, -⟩
  · rwa [Active, h]
  · rw [Active, h] at ha
    rcases ha with ⟨ha, -⟩ | ⟨ha, -⟩ <;> cases ha

theorem Steady.suspended (h : Steady q q') (hs : Suspended q t) : Suspended q' t := by
  rcases h with ⟨h1, h2⟩ | ⟨h1, h2⟩
  · rwa [Suspended, h1, h2]
  · rw [Suspended, h1] at hs
    obtain ⟨ch, lk, k, rfl, -⟩ := hs
    rw [Suspended, h2]
    rfl

theorem Suspended.not_active (h : Suspended q t) : ¬ Active q t := by
  rintro (⟨hq, -⟩ | ⟨hq, he⟩)
  · rw [Suspended, hq] at h
    exact h
  · rw [Suspended, hq] at h
    subst h
    cases he

theorem Inv.runs (h : Inv s) (hr : (s.thread p).resumes = false) (hd : s.thread p ≠ .dead) :
    ∃ c k, s.mode c = .run p k := by
  by_contra hno
  push Not at hno
  have hs := h.suspended p hno
  unfold Suspended at hs
  split at hs
  · rw [hr] at hs
    cases hs
  · obtain ⟨ch, lk, u, ht, -⟩ := hs
    rw [ht] at hr
    cases hr
  · exact hd hs
  · exact hs
  all_goals
    rcases hs with hs | hs
    · exact hd hs
    · rw [hs] at hr
      cases hr

theorem Inv.not_running_of_new (h : Inv s) (hi : (s.proc i).state = .unused ∨ (s.proc i).state = .used) (c : Cpu)
    (k : Loop) : s.mode c ≠ .run i k := by
  intro hm
  obtain ⟨⟨ha, -⟩ | ⟨ha, -⟩, -⟩ := h.active c i k hm
  · rw [ha] at hi
    rcases hi with hi | hi <;> cases hi
  · rw [ha] at hi
    rcases hi with hi | hi <;> cases hi

theorem Inv.child_new {np : Slot} (h : Inv s) (hc : (s.thread p).child = some np) :
    (s.proc np).state = .unused ∨ (s.proc np).state = .used := by
  have hf := h.forking p
  generalize s.thread p = t at hc hf
  unfold Thread.child at hc
  split at hc <;> cases hc
  · exact .inl hf
  · exact .inr hf
  all_goals exact .inr hf.1

theorem Inv.forking_at (h : Inv s) (ht : s.thread p = t) : Forking s t := ht ▸ h.forking p

theorem Inv.state_running (h : Inv s) (hrun : s.mode c = .run p k) (ht : (s.thread p).exiting = false) :
    (s.proc p).state = .running := by
  rcases (h.active c p k hrun).1 with ⟨ha, -⟩ | ⟨-, he⟩
  · exact ha
  · rw [ht] at he
    cases he

theorem Forking.congr (hf : Forking s t)
    (h : ∀ np, t.child = some np → (s'.proc np).state = (s.proc np).state ∧
      (s.thread np = .forkret → s'.thread np = .forkret)) : Forking s' t := by
  unfold Forking at hf ⊢
  split at hf <;> simp_all [Thread.child]

theorem child_yielded (h : t.preemptible = true) : (Thread.yielded t).child = t.child := by
  cases t <;> first | rfl | cases h

theorem forking_yielded (h : t.preemptible = true) : Forking s (.yielded t) ↔ Forking s t := by
  cases t <;> first | exact Iff.rfl | cases h

structure Locks (s s' : State C L) (c : Cpu) : Prop where
  own : ∀ i, s'.lock i = some c ↔ heldBy s' c = some i
  others : ∀ i c', c' ≠ c → (s'.lock i = some c' ↔ s.lock i = some c')

section Locks

variable {j : Slot} (h : Inv s)
include h

theorem Inv.lock_same (hl : s'.lock = s.lock) (hh : heldBy s' c = heldBy s c) : Locks s s' c :=
  ⟨fun i => by rw [hl, hh, h.lock], fun i c' _ => by rw [hl]⟩

theorem Inv.lock_take (hl : s'.lock = update s.lock j (some c)) (hj : s.lock j = none)
    (h0 : heldBy s c = none) (h1 : heldBy s' c = some j) : Locks s s' c := by
  refine ⟨fun i => ?_, fun i c' hc => ?_⟩ <;> rw [hl]
  · have hno : s.lock i ≠ some c := by
      rw [Ne, h.lock, h0]
      exact nofun
    by_cases hi : i = j
    · simp [hi, h1]
    · simp [hi, hno, h1, Ne.symm hi]
  · by_cases hi : i = j
    · simp [hi, hj, Ne.symm hc]
    · simp [hi]

theorem Inv.lock_give (hl : s'.lock = update s.lock j none) (h0 : heldBy s c = some j)
    (h1 : heldBy s' c = none) : Locks s s' c := by
  have hj := (h.lock j c).mpr h0
  refine ⟨fun i => ?_, fun i c' hc => ?_⟩ <;> rw [hl]
  · by_cases hi : i = j
    · simp [hi, h1]
    · have hno : s.lock i ≠ some c := by
        rw [Ne, h.lock, h0]
        simpa using Ne.symm hi
      simp [hi, hno, h1]
  · by_cases hi : i = j
    · simp [hi, hj, Ne.symm hc]
    · simp [hi]

end Locks

/-- What one CPU may do: with the process that it runs, the one that it dispatches, the locks, and
processes that run nowhere. -/
theorem Inv.change (h : Inv s) (hmode : ∀ c', c' ≠ c → s'.mode c' = s.mode c' ∧ s'.cur c' = s.cur c')
    (hlock : Locks s s' c)
    (hthread : ∀ q, (∀ k, s.mode c ≠ .run q k) → s'.thread q = s.thread q ∨ s.thread q = .dead ∧ s'.thread q = .forkret)
    (hproc : ∀ q, (∀ k, s.mode c ≠ .run q k) → (∀ k, s'.mode c ≠ .run q k) →
      (Active (s.proc q) (s.thread q) → Active (s'.proc q) (s'.thread q)) ∧
      (Suspended (s.proc q) (s.thread q) → Suspended (s'.proc q) (s'.thread q)))
    (hnew : ∀ i, (s.proc i).state = .unused ∨ (s.proc i).state = .used →
      (∀ p k, s.mode c = .run p k → (s.thread p).child ≠ some i) → (s'.proc i).state = (s.proc i).state)
    (hself : ∀ p k, s.mode c = .run p k → Forking s' (s'.thread p) ∧ (s'.thread p).Wf p ∧
      (∀ np, (s'.thread p).child = some np → (s.thread p).child = some np ∨ ∀ q, (s.thread q).child ≠ some np) ∧
      ((∀ k', s'.mode c ≠ .run p k') → Suspended (s'.proc p) (s'.thread p)))
    (hrun : ∀ q k, s'.mode c = .run q k → Active (s'.proc q) (s'.thread q) ∧ (k.back = some q ∧ s'.cur c = some q) ∧
      ((∃ k', s.mode c = .run q k') ∨ (s.proc q).state = .runnable ∧ s.lock q = none))
    (hback : ∀ k i, s'.mode c = .sched k → k.back = some i → s'.cur c = some i ∧ ∃ k', s.mode c = .run i k') :
    Inv s' := by
  -- what runs on another CPU does not run on `c`, before and after
  have halone : ∀ {c' q k}, c' ≠ c → s.mode c' = .run q k → (∀ k', s.mode c ≠ .run q k') ∧ ∀ k', s'.mode c ≠ .run q k' := by
    intro c' q k hc hm
    have hoff : ∀ k', s.mode c ≠ .run q k' := fun k' hk' => hc (h.alone c' c q k k' hm hk')
    refine ⟨hoff, fun k' hk' => ?_⟩
    rcases (hrun q k' hk').2.2 with ⟨k1, hk1⟩ | ⟨hst, -⟩
    · exact hoff k1 hk1
    · obtain ⟨⟨ha, -⟩ | ⟨ha, -⟩, -⟩ := h.active c' q k hm <;> rw [hst] at ha <;> cases ha
  have hchild : ∀ {q np}, (s'.thread q).child = some np → (s.thread q).child = some np ∨
      (∃ k, s.mode c = .run q k) ∧ ∀ q', (s.thread q').child ≠ some np := by
    intro q np hq
    by_cases hon : ∃ k, s.mode c = .run q k
    · obtain ⟨k, hk⟩ := hon
      exact ((hself q k hk).2.2.1 np hq).imp_right fun hn => ⟨⟨k, hk⟩, hn⟩
    · rcases hthread q (not_exists.mp hon) with he | ⟨-, he⟩ <;> rw [he] at hq
      · exact .inl hq
      · cases hq
  refine ⟨fun i c' => ?_, fun c1 c2 q k1 k2 h1 h2 => ?_, fun c' q k hm => ?_, fun q hq => ?_,
    fun c' k i hm hb => ?_, fun q => ?_, fun q q' np h1 h2 => ?_, fun q => ?_⟩
  · by_cases hc : c' = c
    · rw [hc, hlock.own]
    · rw [hlock.others i c' hc, h.lock, heldBy, heldBy, (hmode c' hc).1]
      cases hm : s.mode c' with
      | sched k => rfl
      | run q k =>
        dsimp only
        rcases hthread q (halone hc hm).1 with he | ⟨he, -⟩
        · rw [he]
        · rcases (h.active c' q k hm).1 with ⟨-, -, hd⟩ | ⟨-, hd⟩
          · exact absurd he hd
          · rw [he] at hd
            cases hd
  · by_cases hc1 : c1 = c <;> by_cases hc2 : c2 = c
    · rw [hc1, hc2]
    · rw [(hmode c2 hc2).1] at h2
      exact absurd (hc1 ▸ h1) ((halone hc2 h2).2 k1)
    · rw [(hmode c1 hc1).1] at h1
      exact absurd (hc2 ▸ h2) ((halone hc1 h1).2 k2)
    · rw [(hmode c1 hc1).1] at h1
      rw [(hmode c2 hc2).1] at h2
      exact h.alone c1 c2 q k1 k2 h1 h2
  · by_cases hc : c' = c
    · subst hc
      obtain ⟨ha, hb, -⟩ := hrun q k hm
      exact ⟨ha, hb⟩
    · rw [(hmode c' hc).1] at hm
      rw [(hmode c' hc).2]
      obtain ⟨hoff, hoff'⟩ := halone hc hm
      obtain ⟨ha, hb⟩ := h.active c' q k hm
      exact ⟨(hproc q hoff hoff').1 ha, hb⟩
  · by_cases hon : ∃ k, s.mode c = .run q k
    · obtain ⟨k, hk⟩ := hon
      exact (hself q k hk).2.2.2 (hq c)
    · refine (hproc q (not_exists.mp hon) (hq c)).2 (h.suspended q fun c' k hm => ?_)
      by_cases hc : c' = c
      · exact hon ⟨k, hc ▸ hm⟩
      · exact hq c' k ((hmode c' hc).1.trans hm)
  · by_cases hc : c' = c
    · subst hc
      obtain ⟨hcur, k', hk'⟩ := hback k i hm hb
      refine ⟨hcur, fun c2 k2 h2 => ?_⟩
      by_cases hc2 : c2 = c'
      · rw [hc2, hm] at h2
        cases h2
      · rw [(hmode c2 hc2).1] at h2
        exact (halone hc2 h2).1 k' hk'
    · rw [(hmode c' hc).1] at hm
      obtain ⟨h3, h4⟩ := h.back c' k i hm hb
      refine ⟨(hmode c' hc).2.trans h3, fun c2 k2 h2 => ?_⟩
      by_cases hc2 : c2 = c
      · subst hc2
        rcases (hrun i k2 h2).2.2 with ⟨k', hk'⟩ | ⟨-, hl⟩
        · exact h4 c2 k' hk'
        · rw [(h.lock i c').mpr ((heldBy_sched hm).trans hb)] at hl
          cases hl
      · exact h4 c2 k2 ((hmode c2 hc2).1 ▸ h2)
  · by_cases hon : ∃ k, s.mode c = .run q k
    · obtain ⟨k, hk⟩ := hon
      exact (hself q k hk).1
    · rcases hthread q (not_exists.mp hon) with he | ⟨-, he⟩ <;> rw [he]
      · -- the child of another process keeps its state and its thread
        refine (h.forking q).congr fun np hnp => ?_
        have hst := h.child_new hnp
        refine ⟨hnew np hst fun p k hk e => hon ⟨k, h.forkAlone q p np hnp e ▸ hk⟩, fun hf => ?_⟩
        rcases hthread np (h.not_running_of_new hst c) with he | ⟨-, he⟩
        · exact he.trans hf
        · exact he
      · trivial
  · rcases hchild h1 with h1 | ⟨⟨k, hk⟩, h1⟩ <;> rcases hchild h2 with h2 | ⟨⟨k', hk'⟩, h2⟩
    · exact h.forkAlone q q' np h1 h2
    · exact absurd h1 (h2 q)
    · exact absurd h2 (h1 q')
    · rw [hk] at hk'
      cases hk'
      rfl
  · by_cases hon : ∃ k, s.mode c = .run q k
    · obtain ⟨k, hk⟩ := hon
      exact (hself q k hk).2.1
    · rcases hthread q (not_exists.mp hon) with he | ⟨-, he⟩ <;> rw [he]
      · exact h.wf q
      · trivial

theorem mode_run_eq {q : Slot} {k' : Loop} (hrun : s.mode c = .run p k) (hq : s.mode c = .run q k') : q = p := by
  rw [hrun] at hq
  cases hq
  rfl

theorem ne_of_mode {q : Slot} (hrun : s.mode c = .run p k) (hq : ∀ k', s.mode c ≠ .run q k') : q ≠ p :=
  fun e => hq k (e ▸ hrun)

theorem Inv.act (h : Inv s) (hrun : s.mode c = .run p k) (hmode : s'.mode = s.mode) (hcur : s'.cur = s.cur)
    (hlock : Locks s s' c) (hthread : ∀ q, q ≠ p → s'.thread q = s.thread q)
    (hactive : Active (s'.proc p) (s'.thread p))
    (hproc : ∀ q, q ≠ p → (Active (s.proc q) (s.thread q) → Active (s'.proc q) (s.thread q)) ∧
      (Suspended (s.proc q) (s.thread q) → Suspended (s'.proc q) (s.thread q)))
    (hnew : ∀ i, (s.proc i).state = .unused ∨ (s.proc i).state = .used → (s.thread p).child ≠ some i →
      (s'.proc i).state = (s.proc i).state) (hfork : Forking s' (s'.thread p))
    (hchild : ∀ np, (s'.thread p).child = some np → (s.thread p).child = some np ∨ ∀ q, (s.thread q).child ≠ some np)
    (hwf : (s'.thread p).Wf p) : Inv s' := by
  refine h.change (fun c' _ => by rw [hmode, hcur]; exact ⟨rfl, rfl⟩) hlock
    (fun q hq => .inl (hthread q (ne_of_mode hrun hq))) (fun q hq _ => ?_) (fun i hi hc => hnew i hi (hc p k hrun))
    (fun q k' hq => ?_) (fun q k' hq => ?_) (fun k' i hk => ?_)
  · rw [hthread q (ne_of_mode hrun hq)]
    exact hproc q (ne_of_mode hrun hq)
  · obtain rfl := mode_run_eq hrun hq
    exact ⟨hfork, hwf, hchild, fun hno => absurd (hmode ▸ hrun) (hno k)⟩
  · rw [hmode] at hq
    obtain rfl := mode_run_eq hrun hq
    exact ⟨hactive, hcur ▸ (h.active c q k' hq).2, .inl ⟨k', hq⟩⟩
  · rw [hmode, hrun] at hk
    cases hk

theorem forking_of_child (h : t.child = none) : Forking s t := by
  unfold Thread.child at h
  unfold Forking
  split <;> trivial

theorem Steady.refl (q : Proc C) : Steady q q := .inl ⟨rfl, rfl⟩

theorem Steady.new (h : Steady q q') (hq : q.state = .unused ∨ q.state = .used) : q'.state = q.state := by
  rcases h with ⟨h, -⟩ | ⟨h, -⟩
  · exact h
  · rw [h] at hq
    rcases hq with hq | hq <;> cases hq

section

variable (h : Inv s) (hrun : s.mode c = .run p k)
include h hrun

theorem Inv.go (hmode : s'.mode = s.mode) (hcur : s'.cur = s.cur)
    (hlock : Locks s s' c) (hthread : s'.thread = update s.thread p t) (h0 : (s.thread p).exiting = false)
    (ht : t.exiting = false ∧ t ≠ .dead) (hself : (s'.proc p).state = (s.proc p).state)
    (hproc : ∀ q, q ≠ p → Steady (s.proc q) (s'.proc q))
    (hchild : t.child = none ∨ Forking s' t ∧ ∀ np, t.child = some np →
      (s.thread p).child = some np ∨ ∀ q, (s.thread q).child ≠ some np) (hwf : t.Wf p) : Inv s' := by
  have hp : s'.thread p = t := by rw [hthread, update_self]
  have hrunning := h.state_running hrun h0
  refine h.act hrun hmode hcur hlock (fun q hq => by rw [hthread, update_of_ne hq]) ?_
    (fun q hq => ⟨(hproc q hq).active, (hproc q hq).suspended⟩) (fun i hi _ => ?_) ?_ ?_ (hp ▸ hwf)
  · rw [hp]
    exact .inl ⟨hself.trans hrunning, ht⟩
  · by_cases hip : i = p
    · rw [hip, hself]
    · exact (hproc i hip).new hi
  · rw [hp]
    rcases hchild with hc | ⟨hc, -⟩
    · exact forking_of_child hc
    · exact hc
  · intro np hnp
    rw [hp] at hnp
    rcases hchild with hc | ⟨-, hc⟩
    · rw [hc] at hnp
      cases hnp
    · exact hc np hnp

theorem Inv.move (h0 : (s.thread p).free = true) (ht : t.free = true)
    (hwf : t.Wf p) (hmode : s'.mode = s.mode) (hcur : s'.cur = s.cur) (hlock : s'.lock = s.lock)
    (hthread : s'.thread = update s.thread p t) (hproc : ∀ q, Steady (s.proc q) (s'.proc q))
    (hchild : t.child = none ∨ t.child = (s.thread p).child ∧ Forking s' t) : Inv s' := by
  obtain ⟨hh0, he0, -⟩ := Thread.free_spec (p := p) h0
  obtain ⟨hh1, ht⟩ := Thread.free_spec (p := p) ht
  have hp : s'.thread p = t := by rw [hthread, update_self]
  have hself : (s'.proc p).state = (s.proc p).state := by
    rcases hproc p with ⟨hs, -⟩ | ⟨hs, -⟩
    · exact hs
    · rcases (h.active c p k hrun).1 with ⟨ha, -⟩ | ⟨ha, -⟩ <;> rw [hs] at ha <;> cases ha
  refine h.go hrun hmode hcur ?_ hthread he0 ht hself (fun q _ => hproc q) ?_ hwf
  · refine h.lock_same hlock ?_
    rw [heldBy_run hrun, heldBy_run (hmode ▸ hrun), hp, hh0, hh1]
  · rcases hchild with hc | ⟨hc, hf⟩
    · exact .inl hc
    · exact .inr ⟨hf, fun np hnp => .inl (hc ▸ hnp)⟩

theorem Inv.take {j : Slot} (h0 : (s.thread p).free = true)
    (ht : t.exiting = false ∧ t ≠ .dead) (hj : s.lock j = none) (hh : t.holds p = some j) (hwf : t.Wf p)
    (hchild : t.child = none ∨ Forking s t ∧ ∀ np, t.child = some np → np ≠ p ∧ ∀ q, (s.thread q).child ≠ some np) :
    Inv ((s.setLock j (some c)).setThread p t) := by
  obtain ⟨hh0, he0, -⟩ := Thread.free_spec (p := p) h0
  refine h.go hrun rfl rfl ?_ rfl he0 ht rfl (fun q _ => Steady.refl _) ?_ hwf
  · exact h.lock_take rfl hj ((heldBy_run hrun).trans hh0) (by simp [heldBy, hrun, hh])
  · refine hchild.imp_right fun ⟨hf, hc⟩ => ⟨hf.congr fun np hnp => ⟨rfl, ?_⟩, fun np hnp => .inr (hc np hnp).2⟩
    exact (update_of_ne (hc np hnp).1 _ _).trans

theorem Inv.other {j : Slot} (hmode : s'.mode = s.mode) (hcur : s'.cur = s.cur)
    (hlock : Locks s s' c) (hthread : s'.thread = update s.thread p t) (h0 : (s.thread p).exiting = false)
    (ht : t.exiting = false ∧ t ≠ .dead) (hj : Suspended (s.proc j) (s.thread j))
    (hj' : Suspended (s'.proc j) (s.thread j)) (hproc : ∀ q, q ≠ j → s'.proc q = s.proc q)
    (hnew : (s.thread p).child = some j ∨ (s.proc j).state ≠ .unused ∧ (s.proc j).state ≠ .used)
    (hchild : t.child = none ∨ t.child = (s.thread p).child ∧ Forking s' t) (hwf : t.Wf p) : Inv s' := by
  have hp : s'.thread p = t := by rw [hthread, update_self]
  have hact := (h.active c p k hrun).1
  have hpj : p ≠ j := by
    rintro rfl
    exact hj.not_active hact
  refine h.act hrun hmode hcur hlock (fun q hq => by rw [hthread, update_of_ne hq]) ?_ (fun q hq => ?_)
    (fun i hi hc => ?_) ?_ (fun q hq => ?_) (hp ▸ hwf)
  · rw [hp, hproc p hpj]
    exact .inl ⟨h.state_running hrun h0, ht⟩
  · by_cases hqj : q = j
    · subst hqj
      exact ⟨fun ha => absurd ha hj.not_active, fun _ => hj'⟩
    · rw [hproc q hqj]
      exact ⟨id, id⟩
  · have hij : i ≠ j := by
      rintro rfl
      rcases hnew with hn | ⟨h1, h2⟩
      · exact hc hn
      · rcases hi with hi | hi
        · exact h1 hi
        · exact h2 hi
    rw [hproc i hij]
  · rw [hp]
    rcases hchild with hc | ⟨-, hc⟩
    · exact forking_of_child hc
    · exact hc
  · rw [hp] at hq
    rcases hchild with hc | ⟨hc, -⟩
    · rw [hc] at hq
      cases hq
    · exact .inl (hc ▸ hq)

theorem Inv.resume (h0 : (s.thread p).resumes = true) (ht : t.free = true)
    (hwf : t.Wf p) (hmode : s'.mode = s.mode) (hcur : s'.cur = s.cur) (hlock : s'.lock = update s.lock p none)
    (hthread : s'.thread = update s.thread p t) (hself : (s'.proc p).state = (s.proc p).state)
    (hproc : ∀ q, q ≠ p → s'.proc q = s.proc q)
    (hchild : t.child = none ∨ t.child = (s.thread p).child ∧ Forking s' t) : Inv s' := by
  have h1 : (s.thread p).holds p = some p ∧ (s.thread p).exiting = false := by
    generalize s.thread p = t at h0
    cases t <;> simp_all [Thread.resumes, Thread.holds, Thread.exiting]
  obtain ⟨hh, ht⟩ := Thread.free_spec (p := p) ht
  have hp : s'.thread p = t := by rw [hthread, update_self]
  refine h.go hrun hmode hcur ?_ hthread h1.2 ht hself (fun q hq => hproc q hq ▸ Steady.refl _) ?_ hwf
  · exact h.lock_give hlock ((heldBy_run hrun).trans h1.1) (by rw [heldBy_run (hmode ▸ hrun), hp, hh])
  · rcases hchild with hc | ⟨hc, hf⟩
    · exact .inl hc
    · exact .inr ⟨hf, fun np hnp => .inl (hc ▸ hnp)⟩

end

/-! ## Switching -/

section Mode

variable {k' : Loop}

theorem Inv.stay (h : Inv s) (hm : s.mode c = .sched k) (hk' : k'.back = none)
    (hmode : s'.mode = update s.mode c (.sched k')) (hcur : ∀ c', c' ≠ c → s'.cur c' = s.cur c')
    (hlock : Locks s s' c) (hthread : s'.thread = s.thread) (hproc : s'.proc = s.proc) : Inv s' := by
  have hself : s'.mode c = .sched k' := by rw [hmode, update_self]
  refine h.change (fun c' hc => ⟨by rw [hmode, update_of_ne hc], hcur c' hc⟩) hlock (fun q _ => .inl (by rw [hthread]))
    (fun q _ _ => by rw [hproc, hthread]; exact ⟨id, id⟩) (fun i _ _ => by rw [hproc]) (fun q k1 hq => ?_)
    (fun q k1 hq => ?_) (fun k1 i hk1 hb => ?_)
  · rw [hm] at hq
    cases hq
  · rw [hself] at hq
    cases hq
  · rw [hself] at hk1
    cases hk1
    rw [hk'] at hb
    cases hb

theorem Inv.schedMove {o : Cpu → Option Slot} (h : Inv s) (hm : s.mode c = .sched k) (hk : k.back = none)
    (hk' : k'.back = none) (ho : ∀ c', c' ≠ c → o c' = s.cur c') : Inv { s.setMode c (.sched k') with cur := o } :=
  h.stay hm hk' rfl ho (h.lock_same rfl (by simp [heldBy, hm, hk, hk'])) rfl rfl

theorem Inv.dispatch (h : Inv s) (hm : s.mode c = .sched k) (hk : k.back = none) (hi : s.lock i = none)
    (hst : (s.proc i).state = .runnable) (hk' : k'.back = some i) : Inv (dispatch s c i k') := by
  have hns : ∀ c' k1, s.mode c' ≠ .run i k1 := by
    intro c' k1 h1
    obtain ⟨⟨ha, -⟩ | ⟨ha, -⟩, -⟩ := h.active c' i k1 h1 <;> rw [hst] at ha <;> cases ha
  have hres : (s.thread i).resumes = true := by
    have := h.suspended i hns
    rwa [Suspended, hst] at this
  have hth : (s.thread i).holds i = some i ∧ (s.thread i).exiting = false ∧ s.thread i ≠ .dead := by
    generalize s.thread i = t at hres
    cases t <;> simp_all [Thread.resumes, Thread.holds, Thread.exiting]
  have hmode : (Sched.dispatch s c i k').mode c = .run i k' := by simp [Sched.dispatch]
  have hproc : ∀ {q}, q ≠ i → (Sched.dispatch s c i k').proc q = s.proc q := fun hq => by
    simp [Sched.dispatch, hq]
  refine h.change (fun c' hc => ⟨update_of_ne hc _ _, update_of_ne hc _ _⟩) ?_ (fun q _ => .inl rfl) (fun q _ hq => ?_)
    (fun j hj _ => ?_) (fun q k1 hq => ?_) (fun q k1 hq => ?_) (fun k1 j hk1 => ?_)
  · exact h.lock_take rfl hi ((heldBy_sched hm).trans hk) ((heldBy_run hmode).trans hth.1)
  · rw [hproc]
    · exact ⟨id, id⟩
    · rintro rfl
      exact hq k' hmode
  · rw [hproc]
    rintro rfl
    rw [hst] at hj
    rcases hj with hj | hj <;> cases hj
  · rw [hm] at hq
    cases hq
  · rw [hmode] at hq
    cases hq
    refine ⟨.inl ⟨?_, hth.2⟩, ⟨hk', ?_⟩, .inr ⟨hst, hi⟩⟩ <;> simp [Sched.dispatch]
  · rw [hmode] at hk1
    cases hk1

theorem Inv.back_release {o : Cpu → Option Slot} (h : Inv s) (hm : s.mode c = .sched k) (hk : k.back = some i)
    (hk' : k'.back = none) (ho : ∀ c', c' ≠ c → o c' = s.cur c') :
    Inv { (s.setLock i none).setMode c (.sched k') with cur := o } :=
  h.stay hm hk' rfl ho (h.lock_give rfl ((heldBy_sched hm).trans hk) (by simp [heldBy, hk'])) rfl rfl

theorem Inv.switch (h : Inv s) (hrun : s.mode c = .run p k)
    (hold : (s.thread p).holds p = some p ∨ (s.thread p).holds p = none ∧ s.lock p = none)
    (hmode : s'.mode = update s.mode c (.sched k)) (hcur : s'.cur = s.cur)
    (hlock : s'.lock = update s.lock p (some c)) (hthread : s'.thread = update s.thread p t)
    (hproc : ∀ q, q ≠ p → (s'.proc q).state = (s.proc q).state ∧ (s'.proc q).chan = (s.proc q).chan)
    (hsusp : Suspended (s'.proc p) t)
    (hchild : t.child = none ∨ t.child = (s.thread p).child ∧ (Forking s (s.thread p) → Forking s t))
    (hwf : t.Wf p) : Inv s' := by
  obtain ⟨-, hkp, hcp⟩ := h.active c p k hrun
  have hself : s'.mode c = .sched k := by rw [hmode, update_self]
  have hth : ∀ q, q ≠ p → s'.thread q = s.thread q := fun q hq => by rw [hthread, update_of_ne hq]
  have hthp : s'.thread p = t := by rw [hthread, update_self]
  have hne : ∀ i, (s.proc i).state = .unused ∨ (s.proc i).state = .used → i ≠ p :=
    fun i hi e => h.not_running_of_new hi c k (e ▸ hrun)
  have hlocks : Locks s s' c := by
    have hh : heldBy s' c = some p := (heldBy_sched hself).trans hkp
    rcases hold with ho | ⟨ho, hl⟩
    · have hl := (h.lock p c).mpr ((heldBy_run hrun).trans ho)
      refine h.lock_same ?_ (by rw [hh, heldBy_run hrun, ho])
      rw [hlock, ← hl, update_eq_self]
    · exact h.lock_take hlock hl ((heldBy_run hrun).trans ho) hh
  refine h.change (fun c' hc => ⟨by rw [hmode, update_of_ne hc], by rw [hcur]⟩) hlocks
    (fun q hq => .inl (hth q (ne_of_mode hrun hq))) (fun q hq _ => ?_) (fun i hi _ => (hproc i (hne i hi)).1)
    (fun q k' hq => ?_) (fun q k' hq => ?_) (fun k' i hk hb => ?_)
  · have hqp := ne_of_mode hrun hq
    have hst : Steady (s.proc q) (s'.proc q) := .inl (hproc q hqp)
    rw [hth q hqp]
    exact ⟨hst.active, hst.suspended⟩
  · obtain rfl := mode_run_eq hrun hq
    rw [hthp]
    rcases hchild with hc | ⟨hc, hf⟩
    · exact ⟨forking_of_child hc, hwf, by simp [hc], fun _ => hsusp⟩
    · refine ⟨(hf (h.forking q)).congr fun np hnp => ?_, hwf, fun np hnp => .inl (hc ▸ hnp), fun _ => hsusp⟩
      have hnp := hne np (h.child_new (hc ▸ hnp))
      exact ⟨(hproc np hnp).1, (hth np hnp).trans⟩
  · rw [hself] at hq
    cases hq
  · rw [hself] at hk
    cases hk
    rw [hkp] at hb
    cases hb
    exact ⟨hcur ▸ hcp, k, hrun⟩

end Mode

end Changes

end Sched
end Xv6
