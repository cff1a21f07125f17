import Xv6.Pipe.Inv

/-!
# Xv6.Pipe.Wakeup

Who sleeps on the channels of the pipe.

* `Due`: a process that sleeps on a channel, or is about to, has a reason to, or the holder of
  `pi->lock` has still to wake it up. `due_step`: every step keeps this, except a `return` of a killed
  process from `pipewrite` that has stored something.
* `no_lost_wakeup`: in the runs without such a step, no process sleeps without a reason while the lock is
  free.
* `lost_wakeup`: a run with such a step, after which a reader sleeps while there is a byte in the pipe.
-/

namespace Xv6
namespace Pipe

open Sched (Slot Cpu Thread Loop DueOn)
open Sched.State

section

variable {X Y : Type} {s s' : State X Y} {c : Cpu} {p q r : Slot} {k : Loop} {t : Thread (Ch X) (Lock Y)} {l : Pc}
  {ch : Ch X}

def Due (s : State X Y) : Prop :=
  ∀ q ch, DueOn s.m q (.other ch) → Waits s ch ∨ ∃ r i, owes (s.m.thread r) (s.pc r) ch = some i ∧ i ≤ q.val

theorem locked_of_owes (h : owes t l ch = some i) : locked t l = true := by
  unfold owes at h
  split at h <;> first | rfl | cases h

theorem At.wakeup (h : At s t l) (ho : owes t l ch = some i) (ht : t ≠ .client) :
    t = .wakeup (some (.other ch)) i .client ∧
      ∀ j, owes (.wakeup (some (.other ch)) j .client : Thread (Ch X) (Lock Y)) l ch = some j := by
  have hwakes : ∀ {ch'}, Wakes ch' t → t.turn.map Prod.snd = some i → t = .wakeup (some (.other ch')) i .client := by
    intro ch' hw hi
    obtain ⟨j, rfl⟩ := hw.resolve_left ht
    cases hi
    rfl
  unfold owes at ho
  split at ho
  all_goals first | exact absurd h.1 ht | exact absurd h ht | cases ho | skip
  · exact ⟨hwakes h.1 ho, fun j => rfl⟩
  all_goals exact ⟨hwakes h ho, fun j => rfl⟩

theorem At.waits {lk : Sched.Lk (Lock Y)} {u : Thread (Ch X) (Lock Y)} (h : At s (.sleep1 (.other ch) lk u) l) :
    Waits s ch := by
  unfold At at h
  split at h
  case h_1 =>
    obtain ⟨h1, h2, -⟩ := h
    cases ch with
    | nread => exact absurd rfl h1
    | nwrite => exact absurd rfl h2
    | other x => trivial
  all_goals simp_all [Wakes, Sleeps]

theorem Inv.stays {m : Sched.State (Ch X) (Lock Y)} (h : Inv s) (hr : holds s r = true)
    (hth : m.thread r = s.m.thread r ∨ m.thread r = .forkret ∧ ∃ p, s.m.thread p = .forkBuild r) :
    m.thread r = s.m.thread r := by
  rcases hth with hth | ⟨-, p, hp⟩
  · exact hth
  · obtain ⟨c, k, hm, -⟩ := h.lock r hr
    exact absurd hm (h.m.not_running_of_new (h.m.child_new (p := p) (by rw [hp]; rfl)) c k)

theorem due_go (hd : Due s) (ht : s.m.thread p = .client) (hg : GoTurn s s' c p)
    (ha : abandons s p = true → ∀ q, ¬ DueOn s.m q (.other .nread)) : Due s' := by
  intro q ch hq
  have hq := hg.quiet.due q _ hq
  rcases hd q ch hq with hw | ⟨r, i, ho, hi⟩
  · rcases hg.waits ch hw with hw | ho
    · exact .inl hw
    · exact .inr ⟨p, 0, ho, Nat.zero_le _⟩
  · by_cases hrp : r = p
    · subst hrp
      rw [ht] at ho
      rcases hg.owed ch (by rw [ho]; exact nofun) with ho | ⟨hab, rfl⟩
      · exact .inr ⟨r, 0, ho, Nat.zero_le _⟩
      · exact absurd hq (ha hab q)
    · refine .inr ⟨r, i, ?_, hi⟩
      rw [hg.quiet.thread r hrp, hg.pc r hrp]
      exact ho

variable [DecidableEq X] [DecidableEq Y] {m : Sched.State (Ch X) (Lock Y)} {i : Nat}

/-- A turn of `wakeup`: the process that it looks at has not to be woken up any more. -/
theorem due_wakeup {ok : Bool} (h : Inv s) (hrun : s.m.mode c = .run p k)
    (ht : s.m.thread p = .wakeup (some (.other ch)) i .client) (hs : Sched.step s.m (c, .tau ok) = some m)
    (hq : DueOn m q (.other ch)) (hq0 : DueOn s.m q (.other ch)) (hi : i ≤ q.val) :
    ∃ j, m.thread p = .wakeup (some (.other ch)) j .client ∧ j ≤ q.val := by
  have hqp : q ≠ p := by
    rintro rfl
    exact h.m.not_dueOn hrun (by rw [ht]; exact nofun) hq0
  simp only [Sched.step, hrun, ht] at hs
  rcases Sched.wakeup_threadStep hs with ⟨-, f, rfl, hf⟩ | ⟨hN, -⟩
  · refine ⟨i + 1, by simp [setThread], ?_⟩
    by_contra hlt
    obtain ⟨hl, hw⟩ := (hf q).1 ⟨by omega, hqp⟩
    exact Sched.not_dueOn_woken h.m hl hw (by simp [setThread, hqp]) hq
  · exact absurd (lt_of_lt_of_le q.isLt hN) (by omega)

theorem due_machine {op : Sched.Op (Ch X) (Lock Y)} (h : Inv s) (hd : Due s) (hs : Sched.step s.m (c, op) = some m)
    (hop : ∀ p k, s.m.mode c = .run p k → (∃ ok, op = .tau ok) ∨ holds s p = false) : Due { s with m := m } := by
  intro q ch hq
  rcases Sched.dueOn_step h.m hs hq with hq0 | ⟨lk, u, k, hm, ht, -⟩
  · rcases hd q ch hq0 with hw | ⟨r, i, ho, hi⟩
    · exact .inl ((Same.waits ⟨rfl, rfl, rfl, rfl⟩ ch).mpr hw)
    · right
      have hold : holds s r = true := locked_of_owes ho
      by_cases hrun : ∃ k, s.m.mode c = .run r k
      · obtain ⟨k, hrun⟩ := hrun
        rcases hop r k hrun with ⟨ok, rfl⟩ | hno
        · have hne : s.m.thread r ≠ .client := by
            intro e
            simp only [Sched.step, hrun, e] at hs
            cases hs
          obtain ⟨ht, howes⟩ := (h.pos r).wakeup ho hne
          obtain ⟨j, hj, hjq⟩ := due_wakeup h hrun ht hs hq hq0 hi
          exact ⟨r, j, by rw [hj]; exact howes j, hjq⟩
        · rw [hold] at hno
          cases hno
      · have hth := h.stays hold (Sched.frame_step hs (not_exists.mp hrun)).2.2.1
        exact ⟨r, i, by rw [hth]; exact ho, hi⟩
  · have hp := h.pos q
    rw [ht] at hp
    exact .inl ((Same.waits ⟨rfl, rfl, rfl, rfl⟩ ch).mpr hp.waits)

/-- A process returns from `pipewrite` because it has been killed, after it has stored something since it
has the lock. -/
def returnsKilled (s : State X Y) (ev : Cpu × Op X Y) : Bool :=
  match s.m.mode ev.1, ev.2 with
  | .run p _, .go _ => abandons s p
  | _, _ => false

/-- Who returns so leaves no process that sleeps on `&pi->nread` or is about to. -/
def Prompt (s : State X Y) (ev : Cpu × Op X Y) : Prop :=
  returnsKilled s ev = true → ∀ q, ¬ DueOn s.m q (.other .nread)

theorem due_step {ev : Cpu × Op X Y} (h : Inv s) (hd : Due s) (hp : Prompt s ev) (hs : step s ev = some s') : Due s' := by
  rcases step_cases h hs with ⟨op, m, hm, rfl, hk⟩ | ⟨p, k, hk, ht, hg, ha⟩
  · refine due_machine h hd hm fun p k hrun => ?_
    rcases hk with ⟨k', hk⟩ | ⟨p', k', hk, -, hop⟩ <;> rw [hrun] at hk <;> cases hk
    exact hop
  · refine due_go hd ht hg fun hab => ?_
    obtain ⟨ok, hev⟩ := ha hab
    exact hp (by rw [returnsKilled, hk, hev]; exact hab)

/-- Whenever `pi->lock` is free, a process SLEEPING on `&pi->nread` means that the pipe is empty and can
be written to, and one SLEEPING on `&pi->nwrite` that the pipe is full and can be read from. -/
def NoLostWakeup (s : State X Y) : Prop :=
  s.m.spin (.other .pipe) = none → ∀ q, (s.m.proc q).state = .sleeping →
    ((s.m.proc q).chan = some (.other .nread) → Fifo.size s.nread s.nwrite = 0 ∧ s.writeopen = true) ∧
    ((s.m.proc q).chan = some (.other .nwrite) → Fifo.size s.nread s.nwrite = PIPESIZE ∧ s.readopen = true)

omit [DecidableEq X] [DecidableEq Y] in
theorem Due.noLostWakeup (h : Inv s) (hd : Due s) : NoLostWakeup s := by
  intro hfree q hst
  have hwaits : ∀ ch, (s.m.proc q).chan = some (.other ch) → Waits s ch := by
    intro ch hch
    refine (hd q ch (.inl ⟨hst, hch⟩)).resolve_right ?_
    rintro ⟨r, i, ho, -⟩
    obtain ⟨c, k, -, hl⟩ := h.lock r (locked_of_owes ho)
    rw [hfree] at hl
    cases hl
  exact ⟨fun hch => ⟨empty_iff.mp (hwaits _ hch).1, (hwaits _ hch).2⟩,
    fun hch => ⟨full_iff.mp (hwaits _ hch).1, (hwaits _ hch).2⟩⟩

theorem no_lost_wakeup {data : Nat → UInt8} {evs : List (Cpu × Op X Y)}
    (hr : Trans.run step (pipealloc X Y data) evs = some s) (hp : Trans.AllSteps step Prompt (pipealloc X Y data) evs) :
    NoLostWakeup s := by
  have hdue : Due (pipealloc X Y data) := by
    rintro q ch (⟨hst, -⟩ | ⟨lk, u, hu⟩)
    · simp only [pipealloc, Sched.boot] at hst
      split at hst <;> cases hst
    · cases hu
  obtain ⟨h, hd⟩ := Trans.run_inv_of (I := fun s => Inv s ∧ Due s)
    (fun _ _ _ h hp hs => ⟨inv_step h.1 hs, due_step h.1 h.2 hp hs⟩) ⟨inv_pipealloc data, hdue⟩ hp hr
  exact hd.noLostWakeup h

def aboutToSleep {C L : Type} : Thread C L → Option (Sched.Chan C)
  | .sleep2 ch _ _ => some ch
  | _ => none

instance {C L : Type} [DecidableEq C] (m : Sched.State C L) (p : Slot) (ch : Sched.Chan C) : Decidable (DueOn m p ch) :=
  decidable_of_iff ((m.proc p).state = .sleeping ∧ (m.proc p).chan = some ch ∨ aboutToSleep (m.thread p) = some ch)
    (or_congr_right (by cases m.thread p <;> simp [aboutToSleep]))

instance (s : State X Y) (ev : Cpu × Op X Y) : Decidable (Prompt s ev) :=
  inferInstanceAs (Decidable (returnsKilled s ev = true → ∀ q, ¬ DueOn s.m q (.other .nread)))

end

/-- The first process forks twice and calls `piperead`, on CPU 0, which goes on with the second child;
the first child runs on CPU 1. -/
def readerSleeps : List (Cpu × Op Unit Unit) :=
  List.replicate 3 (0, .tau true) ++ [(0, .call .fork)] ++ List.replicate 6 (0, .tau true) ++ [(0, .call .fork)] ++
    List.replicate 7 (0, .tau true) ++ List.replicate 4 (1, .tau true) ++ [(0, .read 1)] ++
    List.replicate 3 (0, .go true) ++ List.replicate 7 (0, .tau true)

theorem no_lost_wakeup_readerSleeps : ∃ s, Trans.run step (pipealloc Unit Unit fun _ => 0) readerSleeps = some s ∧
    s.m.spin (.other .pipe) = none ∧ (s.m.proc 0).state = .sleeping ∧ (s.m.proc 0).chan = some (.other .nread) ∧
    Trans.AllSteps step Prompt (pipealloc Unit Unit fun _ => 0) readerSleeps ∧ NoLostWakeup s := by
  obtain ⟨s, hr, h1, h2, h3⟩ : ∃ s ∈ Trans.run step (pipealloc Unit Unit fun _ => 0) readerSleeps,
      s.m.spin (.other .pipe) = none ∧ (s.m.proc 0).state = .sleeping ∧ (s.m.proc 0).chan = some (.other .nread) := by
    decide +kernel
  have hp : Trans.AllSteps step Prompt (pipealloc Unit Unit fun _ => 0) readerSleeps := by
    decide +kernel
  exact ⟨s, hr, h1, h2, h3, hp, no_lost_wakeup hr hp⟩

/-- Then the first child writes a byte, and is killed by the second one before it writes another. -/
def writerKilled : List (Cpu × Op Unit Unit) :=
  readerSleeps ++ [(1, .write [some 7, some 8])] ++ List.replicate 5 (1, .go true) ++
    [(0, .call (.kill 2)), (0, .tau true), (0, .tau true), (1, .go true), (1, .go true)]

/-- The lock is free and there is a byte in the pipe, and the first process sleeps until there is one. -/
theorem lost_wakeup : ∃ s, Trans.run step (pipealloc Unit Unit fun _ => 0) writerKilled = some s ∧
    Fifo.queue PIPESIZE s.data s.nread s.nwrite = [7] ∧ ¬ NoLostWakeup s := by
  obtain ⟨s, hr, h1, h2, h3, h4, h5⟩ : ∃ s ∈ Trans.run step (pipealloc Unit Unit fun _ => 0) writerKilled,
      s.m.spin (.other .pipe) = none ∧ (s.m.proc 0).state = .sleeping ∧ (s.m.proc 0).chan = some (.other .nread) ∧
      Fifo.size s.nread s.nwrite = 1 ∧ Fifo.queue PIPESIZE s.data s.nread s.nwrite = [7] := by
    decide +kernel
  refine ⟨s, hr, h5, fun hno => ?_⟩
  have := ((hno h1 0 h2).1 h3).1
  omega

end Pipe
end Xv6
