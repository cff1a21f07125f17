import Xv6.Sched.Kin
import Xv6.Sched.Sleep

/-!
# Xv6.Sched.Wait

`wait_lock`: what its holder has seen and done. A process that scans for zombies in `wait` finds all of
them, and a process that exits wakes its parent up before it is a zombie.

* `WaitInv`: what the position of the holder of `wait_lock` says about the parents that sleep in `wait`.
* `Moves`: what a step may do to `wait_lock`, to the zombies and to the parents.
* `WaitInv.move`: such a step keeps the invariant.
-/

namespace Xv6
namespace Sched

open State

section

variable {C L : Type}

def Thread.holdsWait : Thread C L → Bool
  | .sleep0 _ .wait _ | .sleep1 _ .wait _ | .wakeup _ _ (.exitReparent ..) | .wakeup _ _ (.exitZombie _)
  | .exitReparent .. | .exitZombie _ | .exitRelease | .waitScan .. | .waitKilled _ => true
  | _ => false

/-- In `wait`: no child in a slot below this index is a zombie. -/
def Thread.scanned : Thread C L → Option Nat
  | .waitScan _ i _ => some i
  | .waitKilled _ | .sleep0 _ .wait _ | .sleep1 _ .wait _ => some NPROC
  | _ => none

def Zombie (s : State C L) (j q : Slot) : Prop := (s.proc j).state = .zombie ∧ (s.proc j).parent = some q

def Waking (s : State C L) : Prop :=
  ∃ p i st n, s.thread p = .wakeup (some (.proc s.initproc)) i (.exitReparent st n) ∧ i ≤ s.initproc.val

structure WaitInv (s : State C L) : Prop where
  holder : ∀ p, (s.thread p).holdsWait = true → ∃ c k, s.mode c = .run p k ∧ s.spin .wait = some c
  scan : ∀ q n, (s.thread q).scanned = some n → ∀ j : Slot, j.val < n → ¬ Zombie s j q
  parent : ∀ p ch i st, s.thread p = .wakeup ch i (.exitZombie st) → ch = (s.proc p).parent.map .proc
  notify : ∀ p i st q, s.thread p = .wakeup (some (.proc q)) i (.exitZombie st) → q.val < i → ¬ DueOn s q (.proc q)
  notified : ∀ p st q, s.thread p = .exitZombie st → (s.proc p).parent = some q → ¬ DueOn s q (.proc q)
  due : ∀ q, DueOn s q (.proc q) → (∀ j, ¬ Zombie s j q) ∨ q = s.initproc ∧ Waking s

/-- What a step of `p` on CPU `c` does to `wait_lock`, to the zombies and the parents. -/
structure Moves [DecidableEq C] (s s' : State C L) (c : Cpu) (p : Slot) : Prop where
  mode : ∀ c', c' ≠ c → s'.mode c' = s.mode c'
  spin : s'.spin .wait = s.spin .wait ∨ s.spin .wait = none ∨ (s.thread p).holdsWait = true
  hold : (s'.thread p).holdsWait = true → s'.mode c = s.mode c ∧
    ((s.thread p).holdsWait = true ∧ s'.spin .wait = s.spin .wait ∨ s'.spin .wait = some c)
  initproc : s'.initproc = s.initproc
  table : ∀ j, ((s'.proc j).parent = (s.proc j).parent ∧ ((s'.proc j).state = .zombie →
      (s.proc j).state = .zombie ∨ j = p ∧ ∃ st, s.thread p = .exitZombie st)) ∨
    (∃ st n, s.thread p = .exitReparent st n ∧
      s'.thread p = .wakeup (some (.proc s.initproc)) 0 (.exitReparent st (n + 1)) ∧
      (s'.proc j).parent = some s.initproc) ∨
    (s'.proc j).state ≠ .zombie ∧ ∀ c k, s.mode c ≠ .run j k
  scanned : ∀ n, (s'.thread p).scanned = some n → ∀ j : Slot, j.val < n → Zombie s' j p →
    Zombie s j p ∧ ∃ m, (s.thread p).scanned = some m ∧ j.val < m
  toWakeup : ∀ ch i st, s'.thread p = .wakeup ch i (.exitZombie st) → ch = (s.proc p).parent.map .proc ∧ i = 0 ∨
    ∃ j, s.thread p = .wakeup ch j (.exitZombie st) ∧ i = j + 1 ∧ j < NPROC
  toZombie : ∀ st, s'.thread p = .exitZombie st → s'.proc = s.proc ∧
    ∃ ch i, s.thread p = .wakeup ch i (.exitZombie st) ∧ NPROC ≤ i
  turn : ∀ ch i u, s.thread p = .wakeup ch i u → u ≠ .client → i < NPROC → s'.thread p = .wakeup ch (i + 1) u ∧
    ∀ q : Slot, q.val = i → q ≠ p → s.lock q = none ∧ s'.proc q = woken ch (s.proc q) ∧ s'.thread q = s.thread q

variable {s s' : State C L} {c : Cpu} {p q : Slot} {k : Loop} {t : Thread C L}

theorem WaitInv.holder_unique (h : WaitInv s) (hp : (s.thread p).holdsWait = true) (hq : (s.thread q).holdsWait = true) :
    p = q := by
  obtain ⟨c, k, hm, hc⟩ := h.holder p hp
  obtain ⟨c', k', hm', hc'⟩ := h.holder q hq
  rw [hc] at hc'
  cases hc'
  rw [hm] at hm'
  cases hm'
  rfl

theorem Thread.holdsWait_of_scanned {n : Nat} (h : t.scanned = some n) : t.holdsWait = true := by
  unfold Thread.scanned at h
  split at h <;> first | rfl | cases h

theorem Thread.holdsWait_of_preemptible (h : t.preemptible = true) : t.holdsWait = false := by
  cases t <;> simp_all [Thread.holdsWait, Thread.preemptible]
  split at h <;> simp_all

theorem Thread.Wf.holdsWait {lk : Lk L} {u : Thread C L} (h : (Thread.sleep1 (.proc q) lk u).Wf p) :
    (Thread.sleep1 (.proc q) lk u).holdsWait = true ∧ (Thread.sleep1 (.proc q) lk u).scanned = some NPROC := by
  rcases h with ⟨x, l, hch, -⟩ | ⟨addr, -, rfl, -⟩
  · cases hch
  · exact ⟨rfl, rfl⟩

variable [DecidableEq C] [DecidableEq L]

/-- A step of `p` is done under `wait_lock` where it matters, so that what the other processes have seen
stays true. -/
theorem WaitInv.move {ev : Cpu × Op C L} (hw : WaitInv s) (h : Inv s) (hk : Kin s) (hrun : s.mode ev.1 = .run p k)
    (hs : step s ev = some s') (hm : Moves s s' ev.1 p) : WaitInv s' := by
  have hth : ∀ q, q ≠ p → s'.thread q = s.thread q ∨ s'.thread q = .forkret ∧ ∃ r, s.thread r = .forkBuild q :=
    fun q hq => (frame_step hs fun k' hk' => hq (by rw [hrun] at hk'; cases hk'; rfl)).2.2.1
  -- a zombie child that is new was made under `wait_lock`
  have hzombie : ∀ j q, Zombie s' j q → Zombie s j q ∨ (s.thread p).holdsWait = true ∧
      (j = p ∧ (∃ st, s.thread p = .exitZombie st) ∧ (s.proc p).parent = some q ∨ q = s.initproc ∧ Waking s') := by
    rintro j q ⟨hst, hpar⟩
    rcases hm.table j with ⟨h1, h2⟩ | ⟨st, n, h1, h2, h3⟩ | ⟨h1, -⟩
    · rw [h1] at hpar
      rcases h2 hst with h2 | ⟨rfl, st, h2⟩
      · exact .inl ⟨h2, hpar⟩
      · exact .inr ⟨by rw [h2]; rfl, .inl ⟨rfl, ⟨st, h2⟩, hpar⟩⟩
    · rw [h3] at hpar
      cases hpar
      exact .inr ⟨by rw [h1]; rfl, .inr ⟨rfl, p, 0, st, n + 1, hm.initproc ▸ h2, Nat.zero_le _⟩⟩
    · exact absurd hst h1
  -- a process that comes to sleep in `wait` does so under `wait_lock`
  have hdue : ∀ q, DueOn s' q (.proc q) → DueOn s q (.proc q) ∨
      q = p ∧ (s.thread p).holdsWait = true ∧ (s.thread p).scanned = some NPROC ∧ (s.thread p).rep = none := by
    intro q hd
    rcases dueOn_step h hs hd with hd | ⟨lk, u, k', hm', ht, -⟩
    · exact .inl hd
    · rw [hrun] at hm'
      cases hm'
      have hwf := h.wf p
      rw [ht] at hwf
      exact .inr ⟨rfl, by rw [ht]; exact hwf.holdsWait.1, by rw [ht]; exact hwf.holdsWait.2, by rw [ht]; rfl⟩
  -- the parent of a process that holds `wait_lock` stays
  have hparent : ∀ q, q ≠ p → (s.thread q).holdsWait = true → (s'.proc q).parent = (s.proc q).parent := by
    intro q hqp hq
    rcases hm.table q with ⟨h1, -⟩ | ⟨st, n, h1, -⟩ | ⟨-, h1⟩
    · exact h1
    · exact absurd (hw.holder_unique hq (by rw [h1]; rfl)) hqp
    · obtain ⟨c, k', hm', -⟩ := hw.holder q hq
      exact absurd hm' (h1 c k')
  -- what a process that holds `wait_lock` knows about a parent stays true
  have hkeep : ∀ r q, r ≠ p → (s.thread r).holdsWait = true → ¬ DueOn s q (.proc q) → ¬ DueOn s' q (.proc q) := by
    intro r q hrp hr hn hd
    rcases hdue q hd with hd | ⟨-, hp, -⟩
    · exact hn hd
    · exact hrp (hw.holder_unique hr hp)
  have hkeep_p : ∀ q m, (s.thread p).rep = some m → ¬ DueOn s q (.proc q) → ¬ DueOn s' q (.proc q) := by
    intro q m hp hn hd
    rcases hdue q hd with hd | ⟨-, -, -, hr⟩
    · exact hn hd
    · rw [hp] at hr
      cases hr
  constructor
  · intro q hq
    by_cases hqp : q = p
    · subst hqp
      obtain ⟨hmode, hspin⟩ := hm.hold hq
      refine ⟨ev.1, k, hmode.trans hrun, ?_⟩
      rcases hspin with ⟨hold, hspin⟩ | hspin
      · obtain ⟨c, k', hm', hc⟩ := hw.holder q hold
        rw [hspin, hc, h.alone c ev.1 q k' k hm' hrun]
      · exact hspin
    · rcases hth q hqp with ht | ⟨ht, -⟩ <;> rw [ht] at hq
      · obtain ⟨c, k', hm', hc⟩ := hw.holder q hq
        have hce : c ≠ ev.1 := by
          rintro rfl
          rw [hrun] at hm'
          cases hm'
          exact hqp rfl
        refine ⟨c, k', (hm.mode c hce).trans hm', ?_⟩
        rcases hm.spin with hs | hs | hs
        · rw [hs, hc]
        · rw [hc] at hs
          cases hs
        · exact absurd (hw.holder_unique hq hs) hqp
      · cases hq
  · intro q n hq j hj hz
    by_cases hqp : q = p
    · subst hqp
      obtain ⟨hz, m, hm, hjm⟩ := hm.scanned n hq j hj hz
      exact hw.scan q m hm j hjm hz
    · rcases hth q hqp with ht | ⟨ht, -⟩ <;> rw [ht] at hq
      · rcases hzombie j q hz with hz | ⟨hp, -⟩
        · exact hw.scan q n hq j hj hz
        · exact hqp (hw.holder_unique (Thread.holdsWait_of_scanned hq) hp)
      · cases hq
  · intro r ch i st hr
    by_cases hrp : r = p
    · subst hrp
      have hpar : (s'.proc r).parent = (s.proc r).parent := by
        rcases hm.table r with ⟨h1, -⟩ | ⟨st', n, -, h1, -⟩ | ⟨-, h1⟩
        · exact h1
        · rw [hr] at h1
          cases h1
        · exact absurd hrun (h1 _ _)
      rw [hpar]
      rcases hm.toWakeup ch i st hr with ⟨h1, -⟩ | ⟨j, h1, -⟩
      · exact h1
      · exact hw.parent r ch j st h1
    · rcases hth r hrp with ht | ⟨ht, -⟩ <;> rw [ht] at hr
      · rw [hparent r hrp (by rw [hr]; rfl)]
        exact hw.parent r ch i st hr
      · cases hr
  · intro r i st q hr hqi
    by_cases hrp : r = p
    · subst hrp
      rcases hm.toWakeup _ i st hr with ⟨-, rfl⟩ | ⟨j, h1, rfl, hj⟩
      · exact absurd hqi (Nat.not_lt_zero _)
      · rcases Nat.lt_or_ge q.val j with hlt | hge
        · exact hkeep_p q NPROC (by rw [h1]; rfl) (hw.notify r j st q h1 hlt)
        · by_cases hqr : q = r
          · subst hqr
            exact hkeep_p q NPROC (by rw [h1]; rfl) (h.not_dueOn hrun (by rw [h1]; exact nofun))
          · obtain ⟨hl, hp, hq⟩ := (hm.turn _ j _ h1 nofun hj).2 q (by omega) hqr
            exact not_dueOn_woken h hl hp hq
    · rcases hth r hrp with ht | ⟨ht, -⟩ <;> rw [ht] at hr
      · exact hkeep r q hrp (by rw [hr]; rfl) (hw.notify r i st q hr hqi)
      · cases hr
  · intro r st q hr hpar
    by_cases hrp : r = p
    · subst hrp
      obtain ⟨hproc, ch, i, h1, hi⟩ := hm.toZombie st hr
      rw [hproc] at hpar
      have hch := hw.parent r ch i st h1
      rw [hpar] at hch
      subst hch
      exact hkeep_p q NPROC (by rw [h1]; rfl) (hw.notify r i st q h1 (lt_of_lt_of_le q.isLt hi))
    · rcases hth r hrp with ht | ⟨ht, -⟩ <;> rw [ht] at hr
      · have hhold : (s.thread r).holdsWait = true := by rw [hr]; rfl
        rw [hparent r hrp hhold] at hpar
        exact hkeep r q hrp hhold (hw.notified r st q hr hpar)
      · cases hr
  · intro q hd
    rw [hm.initproc]
    -- there is a zombie child only if `init` is about to be woken up
    have hnone : (∀ j, ¬ Zombie s j q) → (∀ st, s.thread p = .exitZombie st → (s.proc p).parent ≠ some q) →
        (∀ j, ¬ Zombie s' j q) ∨ q = s.initproc ∧ Waking s' := by
      intro hz hx
      by_cases hz' : ∃ j, Zombie s' j q
      · obtain ⟨j, hz'⟩ := hz'
        rcases hzombie j q hz' with hz' | ⟨-, ⟨-, ⟨st, hst⟩, hpar⟩ | hwake⟩
        · exact absurd hz' (hz j)
        · exact absurd hpar (hx st hst)
        · exact .inr hwake
      · exact .inl (not_exists.mp hz')
    rcases hdue q hd with hd' | ⟨rfl, -, hsc, hrep⟩
    · rcases hw.due q hd' with hz | ⟨hq, r, i, st, n, hr, hi⟩
      · exact hnone hz fun st hst hpar => hw.notified p st q hst hpar hd'
      · subst hq
        by_cases hrp : r = p
        · subst hrp
          have hin : s.initproc ≠ r := by
            rintro rfl
            have := hk.init
            rw [hr] at this
            cases this
          have hiN : i < NPROC := lt_of_le_of_lt hi s.initproc.isLt
          obtain ⟨ht, hturn⟩ := hm.turn _ i _ hr nofun hiN
          rcases Nat.lt_or_ge i s.initproc.val with hlt | hge
          · exact .inr ⟨rfl, r, i + 1, st, n, hm.initproc ▸ ht, hm.initproc ▸ hlt⟩
          · obtain ⟨hl, hp, hq⟩ := hturn s.initproc (by omega) hin
            exact absurd hd (not_dueOn_woken h hl hp hq)
        · rcases hth r hrp with ht | ⟨-, r', hr'⟩
          · exact .inr ⟨rfl, r, i, st, n, by rw [ht, hm.initproc, hr], hm.initproc ▸ hi⟩
          · -- a process in `exit` is not one that `fork` is making
            obtain ⟨c, k', hm', -⟩ := hw.holder r (by rw [hr]; rfl)
            exact absurd hm' (h.not_running_of_new (h.child_new (by rw [hr']; rfl)) c k')
    · refine hnone (fun j => hw.scan q NPROC hsc j j.isLt) fun st hst => ?_
      rw [hst] at hrep
      cases hrep

end

end Sched
end Xv6
