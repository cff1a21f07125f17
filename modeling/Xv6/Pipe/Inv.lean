import Xv6.Lib.Fifo
import Xv6.Pipe.Model
import Xv6.Sched.Sleep

/-!
# Xv6.Pipe.Inv

Who holds `pi->lock`, and what is known at each place of the code of the pipe.

* `At`: the assertion at a place. It says something about the pipe only where the process holds the lock,
  so the steps of other processes leave it true.
* `owes`: the processes that the holder of the lock has still to wake up.
* `inv_step`: every step of every CPU keeps the invariant. For steps in the code of the pipe, `turn_go`
  also says what becomes of `owes`.
* `fifo`: the bytes that have been taken out of the pipe and those in the ring are the bytes that have
  been put in, and the ring is never overfull.
-/

namespace Xv6
namespace Pipe

open Sched (Slot Cpu Thread Loop)
open Sched.State Function

section Positions

variable {X Y : Type}

/-- A process outside the pipe sleeps on other channels, with other locks. -/
def Apart : Thread (Ch X) (Lock Y) → Prop
  | .yielded t => Apart t
  | .sleep0 ch lk _ | .sleep1 ch lk _ | .sleep2 ch lk _ | .slept ch lk _ =>
    ch ≠ .other .nread ∧ ch ≠ .other .nwrite ∧ lk ≠ .other .pipe
  | .relock lk _ => lk ≠ .other .pipe
  | _ => True

/-- There is a reason to sleep on a channel of the pipe. -/
def Waits (s : State X Y) : Ch X → Prop
  | .nread => s.empty = true ∧ s.writeopen = true
  | .nwrite => s.full = true ∧ s.readopen = true
  | .other _ => True

def Sleeps (s : State X Y) (ch : Ch X) : Thread (Ch X) (Lock Y) → Prop
  | .sleep0 ch' lk k | .sleep1 ch' lk k => (ch' = .other ch ∧ lk = .other .pipe ∧ k = .client) ∧ Waits s ch
  | .sleep2 ch' lk k | .slept ch' lk k => ch' = .other ch ∧ lk = .other .pipe ∧ k = .client
  | .relock lk k | .yielded (.relock lk k) => lk = .other .pipe ∧ k = .client
  | .client => True
  | _ => False

def Wakes (ch : Ch X) (t : Thread (Ch X) (Lock Y)) : Prop :=
  t = .client ∨ ∃ i, t = .wakeup (some (.other ch)) i .client

def At (s : State X Y) (t : Thread (Ch X) (Lock Y)) : Pc → Prop
  | .out => Apart t
  | .writeAcquire _ | .readAcquire _ | .closeAcquire _ => t = .client ∨ t = .yielded .client
  | .writeLoop _ _ stored => t = .client ∧ (stored = true → s.readopen = true)
  | .writeKilled .. => t = .client ∧ s.readopen = true
  | .writeCopy .. | .writeStore .. => t = .client ∧ s.readopen = true ∧ s.full = false
  | .writeFull .. => Wakes .nread t ∧ Waits s .nwrite
  | .writeSleep .. => Sleeps s .nwrite t
  | .writeWake _ | .closeWake true => Wakes .nread t
  | .readLoop _ | .readCopy .. | .readOut .. | .closeSet _ => t = .client
  | .readKilled _ => t = .client ∧ Waits s .nread
  | .readSleep _ => Sleeps s .nread t
  | .readWake _ | .closeWake false => Wakes .nwrite t

/-- The first process that has still to be woken up on a channel. -/
def owes (t : Thread (Ch X) (Lock Y)) : Pc → Ch X → Option Nat
  | .writeLoop _ _ stored, .nread | .writeKilled _ _ _ stored, .nread | .writeCopy _ _ _ stored, .nread
  | .writeStore _ _ _ stored, .nread => if stored then some 0 else none
  | .writeFull .., .nread | .writeWake _, .nread | .closeWake true, .nread => t.turn.map Prod.snd
  | .readCopy .., .nwrite | .readOut .., .nwrite => some 0
  | .readWake _, .nwrite | .closeWake false, .nwrite => t.turn.map Prod.snd
  | _, _ => none

def Ring (s : State X Y) : Prop :=
  Fifo.size s.nread s.nwrite ≤ PIPESIZE ∧ s.taken ++ Fifo.queue PIPESIZE s.data s.nread s.nwrite = s.put

structure Inv (s : State X Y) : Prop where
  m : Sched.Inv s.m
  lock : ∀ p, holds s p = true → ∃ c k, s.m.mode c = .run p k ∧ s.m.spin (.other .pipe) = some c
  pos : ∀ p, At s (s.m.thread p) (s.pc p)
  ring : Ring s

def Same (s s' : State X Y) : Prop :=
  s'.nread = s.nread ∧ s'.nwrite = s.nwrite ∧ s'.readopen = s.readopen ∧ s'.writeopen = s.writeopen

variable {s s' : State X Y} {c : Cpu} {p q : Slot} {k : Loop} {t : Thread (Ch X) (Lock Y)} {l : Pc} {ch : Ch X}

theorem Same.waits (h : Same s s') (ch : Ch X) : Waits s' ch ↔ Waits s ch := by
  obtain ⟨h1, h2, h3, h4⟩ := h
  cases ch <;> simp only [Waits, State.full, State.empty, h1, h2, h3, h4]

theorem Same.sleeps (h : Same s s') : Sleeps s' ch t ↔ Sleeps s ch t := by
  unfold Sleeps
  split <;> simp only [h.waits]

theorem Same.pos (h : Same s s') : At s' t l ↔ At s t l := by
  have hsleeps : ∀ ch, Sleeps s' ch t ↔ Sleeps s ch t := fun _ => h.sleeps
  have hfull : s'.full = s.full := by rw [State.full, State.full, h.1, h.2.1]
  unfold At
  split
  all_goals first | rfl | simp only [hfull, h.2.2.1, h.waits, hsleeps]

theorem holds_congr (h1 : s'.pc q = s.pc q) (h2 : s'.m.thread q = s.m.thread q) : holds s' q = holds s q := by
  rw [holds, h1, h2, holds]

theorem At.apart (h : At s (s.m.thread q) (s.pc q)) (hq : holds s q = false) : At s' (s.m.thread q) (s.pc q) := by
  rw [holds] at hq
  generalize s.m.thread q = t at h hq
  unfold locked at hq
  split at hq
  all_goals simp_all only [At, reduceCtorEq]
  all_goals
    unfold Sleeps at h ⊢
    split at h <;> simp_all [sleepHolds]

theorem At.out_of_new (h : At s t l) (ht : t = .dead ∨ t = .forkret) : l = .out := by
  rcases ht with rfl | rfl <;> unfold At at h <;> split at h <;> simp_all [Sleeps, Wakes]

theorem Inv.held (h : Inv s) (hrun : s.m.mode c = .run p k) (hp : holds s p = true) :
    s.m.spin (.other .pipe) = some c := by
  obtain ⟨c', k', hm, hl⟩ := h.lock p hp
  rw [hl, h.m.alone c' c p k' k hm hrun]

theorem Inv.alone (h : Inv s) (hp : holds s p = true) (hq : holds s q = true) : p = q := by
  obtain ⟨c, k, hm, hl⟩ := h.lock p hp
  obtain ⟨c', k', hm', hl'⟩ := h.lock q hq
  rw [hl] at hl'
  cases hl'
  rw [hm] at hm'
  cases hm'
  rfl

theorem Inv.other (h : Inv s) (hq : ∀ k, s.m.mode c ≠ .run q k) (hmode : ∀ c', c' ≠ c → s'.m.mode c' = s.m.mode c')
    (hspin : s'.m.spin (.other .pipe) = s.m.spin (.other .pipe) ∨ s.m.spin (.other .pipe) = none ∨
      s.m.spin (.other .pipe) = some c) (hpc : s'.pc q = s.pc q)
    (hth : s'.m.thread q = s.m.thread q ∨ s'.m.thread q = .forkret ∧ ∃ r, s.m.thread r = .forkBuild q)
    (hsame : holds s q = true → Same s s') : At s' (s'.m.thread q) (s'.pc q) ∧
      (holds s' q = true → ∃ c' k', s'.m.mode c' = .run q k' ∧ s'.m.spin (.other .pipe) = some c') := by
  rcases hth with hth | ⟨hth, r, hr⟩
  · rw [hth, hpc]
    cases hold : holds s q with
    | false => exact ⟨(h.pos q).apart hold, fun hh => by rw [holds_congr hpc hth, hold] at hh; cases hh⟩
    | true =>
      refine ⟨(hsame hold).pos.mpr (h.pos q), fun _ => ?_⟩
      obtain ⟨c', k', hm, hl⟩ := h.lock q hold
      have hc : c' ≠ c := fun e => hq k' (e ▸ hm)
      refine ⟨c', k', (hmode c' hc).trans hm, ?_⟩
      rcases hspin with hs | hs | hs
      · rw [hs, hl]
      · rw [hl] at hs
        cases hs
      · rw [hl] at hs
        exact absurd (Option.some.inj hs) hc
  · -- a process that has just been made
    have hout : s.pc q = .out := by
      refine (h.pos q).out_of_new ?_
      have hchild : (s.m.thread r).child = some q := by rw [hr]; rfl
      have hsus := h.m.child_suspended hchild
      have hf := h.m.forking r
      rw [hr] at hf
      rw [Sched.Suspended, show (s.m.proc q).state = .used from hf] at hsus
      exact hsus
    rw [hth, hpc, hout]
    refine ⟨trivial, fun hh => ?_⟩
    rw [holds, hpc, hout] at hh
    cases hh

structure Turn (s s' : State X Y) (c : Cpu) (p : Slot) : Prop where
  m : Sched.Inv s'.m
  mode : ∀ c', c' ≠ c → s'.m.mode c' = s.m.mode c'
  spin : s'.m.spin (.other .pipe) = s.m.spin (.other .pipe) ∨ s.m.spin (.other .pipe) = none ∨
    s.m.spin (.other .pipe) = some c
  pc : ∀ q, q ≠ p → s'.pc q = s.pc q
  thread : ∀ q, q ≠ p → s'.m.thread q = s.m.thread q ∨ s'.m.thread q = .forkret ∧ ∃ r, s.m.thread r = .forkBuild q
  under : Same s s' ∨ holds s p = true
  hold : holds s' p = true → (∃ k, s'.m.mode c = .run p k) ∧ s'.m.spin (.other .pipe) = some c
  pos : At s' (s'.m.thread p) (s'.pc p)
  ring : Ring s'

theorem Inv.turn (h : Inv s) (hrun : s.m.mode c = .run p k) (ht : Turn s s' c p) : Inv s' := by
  have hother : ∀ q, q ≠ p → At s' (s'.m.thread q) (s'.pc q) ∧
      (holds s' q = true → ∃ c' k', s'.m.mode c' = .run q k' ∧ s'.m.spin (.other .pipe) = some c') := by
    intro q hq
    refine h.other (c := c) (fun k' hk' => ?_) ht.mode ht.spin (ht.pc q hq) (ht.thread q hq) fun hold => ?_
    · rw [hrun] at hk'
      cases hk'
      exact hq rfl
    · exact ht.under.resolve_right fun hp => hq (h.alone hold hp)
  refine ⟨ht.m, fun q hq => ?_, fun q => ?_, ht.ring⟩
  · by_cases hqp : q = p
    · subst hqp
      obtain ⟨⟨k', hk'⟩, hsp⟩ := ht.hold hq
      exact ⟨c, k', hk', hsp⟩
    · exact (hother q hqp).2 hq
  · by_cases hqp : q = p
    · subst hqp
      exact ht.pos
    · exact (hother q hqp).1

end Positions

attribute [local simp] setProc setLock setSpin setThread setMode setCur setState

section Machine

variable {X Y : Type} [DecidableEq X] [DecidableEq Y] {s s' : State X Y} {m m' : Sched.State (Ch X) (Lock Y)}
  {c : Cpu} {p q : Slot} {k : Loop} {ch : Ch X} {ok : Bool}

theorem apart_threadStep (hwf : (m.thread p).Wf p) (ha : Apart (m.thread p))
    (hs : Sched.threadStep m c p k ok (m.thread p) = some m') : Apart (m'.thread p) := by
  cases ht : m.thread p with
  | yielded u =>
    rw [ht] at hs ha
    cases hs
    simpa [Apart] using ha
  | wakeup ch i u =>
    rw [ht] at hs hwf
    rcases Sched.wakeup_threadStep hs with ⟨-, f, rfl, -⟩ | ⟨-, rfl⟩
    · simp [Apart]
    · rcases hwf with ⟨rfl, -⟩ | ⟨status, ⟨j, rfl⟩ | rfl⟩ <;> simp [Apart]
  | relock lk u =>
    rw [ht] at hs hwf
    simp only [Sched.threadStep] at hs
    split at hs <;> cases hs
    rcases hwf with ⟨l, -, rfl⟩ | ⟨addr, -, rfl⟩ <;> simp [Apart]
  | _ =>
    rw [ht] at hs ha
    simp only [Sched.threadStep] at hs
    (repeat' split at hs) <;> cases hs
    all_goals try simp only [Sched.reap_eq]
    all_goals simp_all [Apart, Sched.sleep, Sched.wakeup, Sched.sched]

theorem wakes_threadStep (h : Wakes ch (m.thread p)) (hs : Sched.threadStep m c p k ok (m.thread p) = some m') :
    Wakes ch (m'.thread p) ∧ m'.mode = m.mode ∧ m'.spin = m.spin := by
  rcases h with ht | ⟨i, ht⟩ <;> rw [ht] at hs
  · cases hs
  · rcases Sched.wakeup_threadStep hs with ⟨-, f, rfl, -⟩ | ⟨-, rfl⟩
    · exact ⟨.inr ⟨i + 1, by simp⟩, rfl, rfl⟩
    · exact ⟨.inl (by simp), rfl, rfl⟩

theorem sleeps_threadStep (h : Sleeps s ch (s.m.thread p))
    (hl : sleepHolds (s.m.thread p) = true → s.m.spin (.other .pipe) = some c)
    (hs : Sched.threadStep s.m c p k ok (s.m.thread p) = some m) : Sleeps s ch (m.thread p) ∧
      (sleepHolds (m.thread p) = true → m.mode = s.m.mode ∧ m.spin (.other .pipe) = some c) := by
  unfold Sleeps at h
  split at h
  case h_8 => exact h.elim
  all_goals
    rename_i ht
    rw [ht] at hs hl
  · -- `acquire(&p->lock)`
    simp only [Sched.threadStep] at hs
    split at hs <;> cases hs
    exact ⟨by simpa [Sleeps] using h, fun _ => ⟨rfl, hl rfl⟩⟩
  · -- `release(lk)`
    simp only [Sched.threadStep] at hs
    split at hs <;> cases hs
    exact ⟨by simpa [Sleeps] using h.1, by simp [sleepHolds]⟩
  · cases hs
    exact ⟨by simpa [Sleeps, Sched.sched] using h, by simp [sleepHolds, Sched.sched]⟩
  · cases hs
    exact ⟨by simpa [Sleeps] using h.2, by simp [sleepHolds]⟩
  · -- `acquire(lk)`
    obtain ⟨rfl, rfl⟩ := h
    simp only [Sched.threadStep] at hs
    split at hs <;> cases hs
    exact ⟨by simp [Sleeps], by simp⟩
  · cases hs
    exact ⟨by simpa [Sleeps] using h, by simp [sleepHolds]⟩
  · cases hs

theorem turn_machine {op : Sched.Op (Ch X) (Lock Y)} (h : Inv s) (hrun : s.m.mode c = .run p k)
    (hs : Sched.step s.m (c, op) = some m)
    (hhold : holds { s with m := m } p = true → (∃ k, m.mode c = .run p k) ∧ m.spin (.other .pipe) = some c)
    (hpos : At s (m.thread p) (s.pc p)) : Turn s { s with m := m } c p where
  m := Sched.inv_step h.m hs
  mode c' hc := Sched.mode_step hs hc
  spin := Sched.spin_step hs
  pc q _ := rfl
  thread q hq := by
    refine (Sched.frame_step hs fun k' hk' => hq ?_).2.2.1
    rw [hrun] at hk'
    cases hk'
    rfl
  under := .inl ⟨rfl, rfl, rfl, rfl⟩
  hold := hhold
  pos := (Same.pos ⟨rfl, rfl, rfl, rfl⟩).mpr hpos
  ring := h.ring

theorem turn_tau (h : Inv s) (hrun : s.m.mode c = .run p k) (hs : Sched.step s.m (c, .tau ok) = some m) :
    Turn s { s with m := m } c p := by
  have hst : Sched.threadStep s.m c p k ok (s.m.thread p) = some m := by simpa only [Sched.step, hrun] using hs
  have hclient : s.m.thread p ≠ .client := by
    intro e
    rw [e] at hst
    cases hst
  have hwake : ∀ ch, Wakes ch (s.m.thread p) → holds s p = true →
      (Wakes ch (m.thread p) → At s (m.thread p) (s.pc p)) → Turn s { s with m := m } c p := by
    intro ch hw hh hat
    obtain ⟨hw', hmode, hspin⟩ := wakes_threadStep hw hst
    exact turn_machine h hrun hs (fun _ => ⟨⟨k, hmode ▸ hrun⟩, by rw [hspin]; exact h.held hrun hh⟩) (hat hw')
  have hsleep : ∀ ch, (∀ t : Thread (Ch X) (Lock Y), locked t (s.pc p) = sleepHolds t) → (∀ t, At s t (s.pc p) = Sleeps s ch t) → Turn s { s with m := m } c p := by
    intro ch hh hat
    obtain ⟨hsl, hl⟩ := sleeps_threadStep (hat _ ▸ h.pos p) (fun e => h.held hrun ((hh _).trans e)) hst
    refine turn_machine h hrun hs (fun e => ?_) (hat _ ▸ hsl)
    obtain ⟨hmode, hspin⟩ := hl ((hh _).symm.trans e)
    exact ⟨⟨k, hmode ▸ hrun⟩, hspin⟩
  have hacquire : s.m.thread p = .client ∨ s.m.thread p = .yielded .client →
      (∀ t : Thread (Ch X) (Lock Y), locked t (s.pc p) = false) → (∀ t, At s t (s.pc p) = (t = .client ∨ t = .yielded .client)) →
      Turn s { s with m := m } c p := by
    intro ht hh hat
    rw [ht.resolve_left hclient] at hst
    cases hst
    exact turn_machine h hrun hs (fun e => by rw [holds, hh] at e; cases e) (hat _ ▸ .inl (by simp))
  have hp := h.pos p
  cases hpc : s.pc p with
  | out =>
    rw [hpc] at hp
    exact turn_machine h hrun hs (fun e => by rw [holds, hpc] at e; cases e) (hpc ▸ apart_threadStep (h.m.wf p) hp hst)
  | writeAcquire todo | readAcquire n | closeAcquire w =>
    rw [hpc] at hp
    exact hacquire hp (fun t => by rw [hpc]; rfl) fun t => by rw [hpc]; rfl
  | writeLoop i todo stored | writeKilled i x todo stored | writeCopy i x todo stored | writeStore i x todo stored
  | readKilled n =>
    rw [hpc] at hp
    exact absurd hp.1 hclient
  | readLoop n | readCopy i n | readOut i n | closeSet w =>
    rw [hpc] at hp
    exact absurd hp hclient
  | writeFull i todo =>
    rw [hpc] at hp
    exact hwake .nread hp.1 (by rw [holds, hpc]; rfl) fun hw => by rw [hpc]; exact ⟨hw, hp.2⟩
  | writeWake i =>
    rw [hpc] at hp
    exact hwake .nread hp (by rw [holds, hpc]; rfl) fun hw => by rw [hpc]; exact hw
  | readWake i =>
    rw [hpc] at hp
    exact hwake .nwrite hp (by rw [holds, hpc]; rfl) fun hw => by rw [hpc]; exact hw
  | closeWake w =>
    rw [hpc] at hp
    cases w
    · exact hwake .nwrite hp (by rw [holds, hpc]; rfl) fun hw => by rw [hpc]; exact hw
    · exact hwake .nread hp (by rw [holds, hpc]; rfl) fun hw => by rw [hpc]; exact hw
  | writeSleep i todo => exact hsleep .nwrite (fun t => by rw [hpc]; rfl) fun t => by rw [hpc]; rfl
  | readSleep n => exact hsleep .nread (fun t => by rw [hpc]; rfl) fun t => by rw [hpc]; rfl

omit [DecidableEq X] [DecidableEq Y] in
theorem At.yielded {t : Thread (Ch X) (Lock Y)} {l : Pc} (h : At s t l) (hp : t.preemptible = true)
    (hl : locked t l = false) : At s (.yielded t) l ∧ locked (.yielded t) l = false := by
  cases l with
  | out => exact ⟨h, rfl⟩
  | writeAcquire _ | readAcquire _ | closeAcquire _ =>
    rcases h with rfl | rfl
    · exact ⟨.inr rfl, rfl⟩
    · cases hp
  | writeSleep _ _ | readSleep _ => cases t <;> simp_all [At, Sleeps, locked, sleepHolds, Thread.preemptible]
  | _ => cases hl

theorem turn_timer {user : Bool} (h : Inv s) (hrun : s.m.mode c = .run p k) (hh : holds s p = false)
    (hs : Sched.step s.m (c, .timer user) = some m) : Turn s { s with m := m } c p := by
  have hy := hs
  simp only [Sched.step, hrun] at hy
  split at hy
  · rename_i hp
    unfold Sched.yield at hy
    split at hy <;> cases hy
    obtain ⟨hat, hl⟩ := (h.pos p).yielded hp.1 hh
    have ht : ∀ q, (Sched.sched (((s.m.setProc p q).setLock p (some c)).setThread p (.yielded (s.m.thread p))) c k).thread p =
        .yielded (s.m.thread p) := fun q => by simp [Sched.sched]
    refine turn_machine h hrun hs (fun e => ?_) (by rw [ht]; exact hat)
    rw [holds, ht, hl] at e
    cases e
  · cases hy

theorem turn_call {x : Sched.Call X Y} (h : Inv s) (hrun : s.m.mode c = .run p k) (hpc : s.pc p = .out)
    (hs : Sched.step s.m (c, .call (embed x)) = some m) : Turn s { s with m := m } c p := by
  refine turn_machine h hrun hs (fun e => by rw [holds, hpc] at e; cases e) ?_
  have hp := h.pos p
  rw [hpc] at hp ⊢
  simp only [Sched.step, hrun] at hs
  split at hs
  · cases x <;> simp only [embed, Sched.call] at hs <;> (repeat' split at hs) <;> cases hs
    all_goals simp_all [At, Apart, Sched.sleep, Sched.wakeup]
  · cases hs

end Machine

section Code

variable {X Y : Type} {s s' : State X Y} {m m' : Sched.State (Ch X) (Lock Y)} {c : Cpu} {p q : Slot} {k : Loop}
  {l : Pc} {ch : Ch X}

structure Quiet (m m' : Sched.State (Ch X) (Lock Y)) (c : Cpu) (p : Slot) : Prop where
  inv : Sched.Inv m'
  mode : m'.mode = m.mode
  spin : m'.spin (.other .pipe) = m.spin (.other .pipe) ∨ m.spin (.other .pipe) = none ∨
    m.spin (.other .pipe) = some c
  thread : ∀ q, q ≠ p → m'.thread q = m.thread q
  due : ∀ q ch, Sched.DueOn m' q ch → Sched.DueOn m q ch

/-- A killed process is about to return from `pipewrite`, and has stored something since it has the
lock. -/
def abandons (s : State X Y) (p : Slot) : Bool :=
  match s.pc p with
  | .writeKilled _ _ _ true => (s.m.proc p).killed
  | _ => false

/-- A step of process `p` in the code of the pipe. If it takes away a reason to sleep, then it has to wake
up all that sleep for it, and it has to until it calls `wakeup`. -/
structure GoTurn (s s' : State X Y) (c : Cpu) (p : Slot) : Prop extends Turn s s' c p where
  quiet : Quiet s.m s'.m c p
  waits : ∀ ch, Waits s ch → Waits s' ch ∨ owes (s'.m.thread p) (s'.pc p) ch = some 0
  owed : ∀ ch, owes (.client : Thread (Ch X) (Lock Y)) (s.pc p) ch ≠ none →
    owes (s'.m.thread p) (s'.pc p) ch = some 0 ∨ abandons s p = true ∧ ch = .nread

theorem Quiet.refl (h : Sched.Inv m) : Quiet m m c p := ⟨h, rfl, .inl rfl, fun _ _ => rfl, fun _ _ h => h⟩

theorem quiet_call [DecidableEq X] [DecidableEq Y] {x : Sched.Call (Ch X) (Lock Y)} (h : Sched.Inv m)
    (hrun : m.mode c = .run p k) (ht : m.thread p = .client) (hs : Sched.call m c p x = some m') : Quiet m m' c p := by
  have hstep : Sched.step m (c, .call x) = some m' := by
    simp only [Sched.step, hrun]
    rw [if_pos ht]
    exact hs
  refine ⟨Sched.inv_step h hstep, (Sched.call_mode hs).2, Sched.spin_step hstep, fun q hq => ?_, fun q ch hd => ?_⟩
  · cases x <;> simp only [Sched.call] at hs <;> (repeat' split at hs) <;> cases hs
    all_goals simp [Sched.sleep, Sched.wakeup, hq]
  · rcases Sched.dueOn_step h hstep hd with hd | ⟨lk, u, k', hm, ht', -⟩
    · exact hd
    · rw [hrun] at hm
      cases hm
      rw [ht] at ht'
      cases ht'

theorem Quiet.go (hm : Quiet s.m s'.m c p) (hrun : s.m.mode c = .run p k)
    (hpc : s'.pc = update s.pc p l) (hu : Same s s' ∨ holds s p = true)
    (hl : locked (s'.m.thread p) l = true → s'.m.spin (.other .pipe) = some c) (hpos : At s' (s'.m.thread p) l)
    (hring : Ring s') (hwaits : ∀ ch, Waits s ch → Waits s' ch ∨ owes (s'.m.thread p) l ch = some 0)
    (howed : ∀ ch, owes (.client : Thread (Ch X) (Lock Y)) (s.pc p) ch ≠ none →
      owes (s'.m.thread p) l ch = some 0 ∨ abandons s p = true ∧ ch = .nread) : GoTurn s s' c p := by
  have hpcp : s'.pc p = l := by rw [hpc, update_self]
  refine ⟨⟨hm.inv, fun c' _ => by rw [hm.mode], hm.spin, fun q hq => ?_, fun q hq => .inl (hm.thread q hq), hu,
    fun e => ?_, ?_, hring⟩, hm, ?_, ?_⟩
  · rw [hpc, update_of_ne hq]
  · rw [holds, hpcp] at e
    exact ⟨⟨k, hm.mode ▸ hrun⟩, hl e⟩
  all_goals rwa [hpcp]

section

variable (h : Inv s) (hrun : s.m.mode c = .run p k)

include h hrun

theorem Inv.goSame (hm : Quiet s.m m c p) {r : Slot → Int} {b : Bool}
    (hl : locked (m.thread p) l = true → m.spin (.other .pipe) = some c) (hpos : At s (m.thread p) l)
    (howed : ∀ ch, owes (.client : Thread (Ch X) (Lock Y)) (s.pc p) ch ≠ none →
      owes (m.thread p) l ch = some 0 ∨ abandons s p = true ∧ ch = .nread) :
    GoTurn s { s with m := m, pc := update s.pc p l, ret := r, freed := b } c p :=
  Quiet.go hm hrun rfl (.inl ⟨rfl, rfl, rfl, rfl⟩) hl ((Same.pos ⟨rfl, rfl, rfl, rfl⟩).mpr hpos) h.ring
    (fun ch hw => .inl ((Same.waits ⟨rfl, rfl, rfl, rfl⟩ ch).mpr hw)) howed

variable (ht : s.m.thread p = .client)

include ht

theorem Inv.goto (hh : holds s p = true) (hpos : At s .client l)
    (howed : ∀ ch, owes (.client : Thread (Ch X) (Lock Y)) (s.pc p) ch ≠ none →
      owes (.client : Thread (Ch X) (Lock Y)) l ch = some 0) : GoTurn s (goto s p l) c p :=
  h.goSame hrun (.refl h.m) (fun _ => h.held hrun hh) (ht ▸ hpos) fun ch hne => .inl (ht ▸ howed ch hne)

variable [DecidableEq X] [DecidableEq Y]

theorem Inv.acquires (hs : acquire s c p l = some s') (hpos : At s .client l)
    (howed : ∀ ch, owes (.client : Thread (Ch X) (Lock Y)) (s.pc p) ch = none) : GoTurn s s' c p := by
  unfold acquire at hs
  split at hs
  · cases hs
  · obtain ⟨m, hm, rfl⟩ := Option.map_eq_some_iff.mp hs
    have hq := quiet_call h.m hrun ht hm
    simp only [Sched.call] at hm
    split at hm <;> cases hm
    exact h.goSame hrun hq (fun _ => by simp) (by simpa [ht] using hpos) fun ch hne => absurd (howed ch) hne

theorem Inv.wakes (hs : mcall s c p (.wakeup ch) l = some s') (hh : holds s p = true)
    (hpos : At s (.wakeup (some (.other ch)) 0 .client) l)
    (howed : ∀ ch', owes (.client : Thread (Ch X) (Lock Y)) (s.pc p) ch' ≠ none →
      owes (.wakeup (some (.other ch)) 0 .client : Thread (Ch X) (Lock Y)) l ch' = some 0) : GoTurn s s' c p := by
  obtain ⟨m, hm, rfl⟩ := Option.map_eq_some_iff.mp hs
  have hq := quiet_call h.m hrun ht hm
  cases hm
  refine h.goSame hrun hq (fun _ => h.held hrun hh) (by simpa [Sched.wakeup] using hpos) fun ch' hne => .inl ?_
  simpa [Sched.wakeup] using howed ch' hne

theorem Inv.sleeps (hs : mcall s c p (.sleep ch .pipe) l = some s') (hh : holds s p = true)
    (hpos : At s (.sleep0 (.other ch) (.other .pipe) .client) l)
    (howed : ∀ ch, owes (.client : Thread (Ch X) (Lock Y)) (s.pc p) ch = none) : GoTurn s s' c p := by
  obtain ⟨m, hm, rfl⟩ := Option.map_eq_some_iff.mp hs
  have hq := quiet_call h.m hrun ht hm
  simp only [Sched.call] at hm
  split at hm <;> cases hm
  exact h.goSame hrun hq (fun _ => h.held hrun hh) (by simpa [Sched.sleep] using hpos) fun ch hne =>
    absurd (howed ch) hne

theorem Inv.returns {r : Int} (b : Bool) (hs : ret s c p r = some s')
    (howed : ∀ ch, owes (.client : Thread (Ch X) (Lock Y)) (s.pc p) ch ≠ none → abandons s p = true ∧ ch = .nread) :
    GoTurn s { s' with freed := b } c p := by
  obtain ⟨m, hm, rfl⟩ := Option.map_eq_some_iff.mp hs
  have hq := quiet_call h.m hrun ht hm
  simp only [Sched.call] at hm
  split at hm <;> cases hm
  exact h.goSame hrun hq (by simp [locked]) (by simp [ht, At, Apart]) fun ch hne => .inr (howed ch hne)

end

theorem full_iff : s.full = true ↔ Fifo.size s.nread s.nwrite = PIPESIZE := by
  rw [State.full, decide_eq_true_iff, Fifo.size_eq (by decide)]

theorem empty_iff : s.empty = true ↔ Fifo.size s.nread s.nwrite = 0 := by
  rw [State.empty, decide_eq_true_iff, Fifo.size_eq_zero]

theorem Ring.store (h : Ring s) (hf : s.full = false) (b : UInt8) : Ring (store s b) := by
  have hlt : Fifo.size s.nread s.nwrite < PIPESIZE := by
    refine lt_of_le_of_ne h.1 fun e => ?_
    rw [full_iff.mpr e] at hf
    cases hf
  constructor
  · exact (Fifo.size_push (lt_trans (Nat.succ_lt_succ hlt) (by decide))).trans_le hlt
  · simp only [Pipe.store]
    rw [Fifo.queue_push (by decide) b (by decide) hlt, ← h.2, List.append_assoc]

theorem Ring.take (h : Ring s) (he : s.empty = false) : Ring (take s) := by
  have hpos : 0 < Fifo.size s.nread s.nwrite := by
    refine Nat.pos_of_ne_zero fun e => ?_
    rw [empty_iff.mpr e] at he
    cases he
  constructor
  · exact (Fifo.size_pop hpos).trans_le ((Nat.sub_le _ _).trans h.1)
  · simp only [Pipe.take]
    rw [← h.2, Fifo.queue_pop (N := PIPESIZE) (d := s.data) (by decide) hpos, List.append_assoc, List.singleton_append]

theorem turn_go [DecidableEq X] [DecidableEq Y] {ok : Bool} (h : Inv s) (hrun : s.m.mode c = .run p k)
    (ht : s.m.thread p = .client) (hs : go s c p ok = some s') : GoTurn s s' c p := by
  have hp := h.pos p
  rw [ht] at hp
  cases hpc : s.pc p with
  | out =>
    simp only [go, hpc] at hs
    cases hs
  | writeAcquire todo | readAcquire n | closeAcquire w =>
    simp only [go, hpc] at hs
    exact h.acquires hrun ht hs (by simp [At]) fun ch => by rw [hpc]; rfl
  | writeLoop i todo stored =>
    rw [hpc] at hp
    have hh : holds s p = true := by rw [holds, hpc]; rfl
    cases todo with
    | nil =>
      simp only [go, hpc] at hs
      refine h.wakes hrun ht hs hh (.inr ⟨0, rfl⟩) fun ch hne => ?_
      cases ch <;> simp_all [owes, Thread.turn]
    | cons x todo =>
      simp only [go, hpc] at hs
      split at hs
      · rename_i hr
        refine h.returns hrun ht s'.freed hs fun ch hne => ?_
        have : stored = false := by
          cases stored with
          | false => rfl
          | true => rw [hp.2 rfl] at hr; cases hr
        cases ch <;> simp_all [owes]
      · rename_i hr
        cases hs
        refine h.goto hrun ht hh ⟨rfl, by simpa using hr⟩ fun ch hne => ?_
        cases ch <;> simp_all [owes]
  | writeKilled i x todo stored =>
    rw [hpc] at hp
    have hh : holds s p = true := by rw [holds, hpc]; rfl
    simp only [go, hpc] at hs
    split at hs
    · cases hs
    · rename_i hk
      refine h.returns hrun ht s'.freed hs fun ch hne => ?_
      have hkilled : (s.m.proc p).killed = true := by
        unfold killed at hk
        split at hk
        · cases hk
        · exact Option.some.inj hk
      cases ch <;> cases stored <;> simp_all [owes, abandons]
    · split at hs
      · rename_i hf
        refine h.wakes hrun ht hs hh ⟨.inr ⟨0, rfl⟩, hf, hp.2⟩ fun ch hne => ?_
        cases ch <;> simp_all [owes, Thread.turn]
      · rename_i hf
        cases hs
        refine h.goto hrun ht hh ⟨rfl, hp.2, by simpa using hf⟩ fun ch hne => ?_
        cases ch <;> simp_all [owes]
  | writeCopy i x todo stored =>
    rw [hpc] at hp
    have hh : holds s p = true := by rw [holds, hpc]; rfl
    cases x with
    | none =>
      simp only [go, hpc] at hs
      refine h.wakes hrun ht hs hh (.inr ⟨0, rfl⟩) fun ch hne => ?_
      cases ch <;> simp_all [owes, Thread.turn]
    | some b =>
      simp only [go, hpc] at hs
      cases hs
      refine h.goto hrun ht hh hp fun ch hne => ?_
      cases ch <;> simp_all [owes]
  | writeStore i b todo stored =>
    rw [hpc] at hp
    have hh : holds s p = true := by rw [holds, hpc]; rfl
    simp only [go, hpc] at hs
    cases hs
    refine Quiet.go (.refl h.m) hrun rfl (.inr hh) (fun _ => h.held hrun hh) ⟨ht, fun _ => hp.2.1⟩
      (h.ring.store hp.2.2 b) (fun ch hw => ?_) fun ch hne => ?_
    · -- a pipe that is not full is no reason to sleep for writers
      cases ch with
      | nread => exact .inr rfl
      | nwrite =>
        have := hp.2.2.symm.trans hw.1
        cases this
      | other x => exact .inl trivial
    · cases ch <;> simp_all [owes]
  | writeFull i todo =>
    rw [hpc] at hp
    simp only [go, hpc] at hs
    refine h.sleeps hrun ht hs (by rw [holds, hpc]; rfl) ⟨⟨rfl, rfl, rfl⟩, hp.2⟩ fun ch => ?_
    rw [hpc]
    cases ch <;> rfl
  | writeSleep i todo =>
    simp only [go, hpc] at hs
    cases hs
    refine h.goto hrun ht (by rw [holds, hpc, ht]; rfl) ⟨rfl, by simp⟩ fun ch hne => ?_
    rw [hpc] at hne
    exact absurd rfl hne
  | readLoop n =>
    have hh : holds s p = true := by rw [holds, hpc]; rfl
    have hnone : ∀ ch : Ch X, owes (.client : Thread (Ch X) (Lock Y)) (s.pc p) ch = none := fun ch => by rw [hpc]; rfl
    simp only [go, hpc] at hs
    split at hs <;> cases hs
    · exact h.goto hrun ht hh ⟨rfl, ‹_›⟩ fun ch hne => absurd (hnone ch) hne
    · exact h.goto hrun ht hh rfl fun ch hne => absurd (hnone ch) hne
  | readKilled n =>
    rw [hpc] at hp
    have hnone : ∀ ch : Ch X, owes (.client : Thread (Ch X) (Lock Y)) (s.pc p) ch = none := fun ch => by rw [hpc]; rfl
    simp only [go, hpc] at hs
    split at hs
    · cases hs
    · exact h.returns hrun ht s'.freed hs fun ch hne => absurd (hnone ch) hne
    · exact h.sleeps hrun ht hs (by rw [holds, hpc]; rfl) ⟨⟨rfl, rfl, rfl⟩, hp.2⟩ hnone
  | readSleep n =>
    simp only [go, hpc] at hs
    cases hs
    refine h.goto hrun ht (by rw [holds, hpc, ht]; rfl) rfl fun ch hne => ?_
    rw [hpc] at hne
    exact absurd rfl hne
  | readCopy i n =>
    have hh : holds s p = true := by rw [holds, hpc]; rfl
    simp only [go, hpc] at hs
    split at hs
    · rename_i hn
      cases hs
      refine Quiet.go (.refl h.m) hrun rfl (.inr hh) (fun _ => h.held hrun hh) ht (h.ring.take hn.2)
        (fun ch hw => ?_) fun ch hne => ?_
      · -- a pipe that is not empty is no reason to sleep for readers
        cases ch with
        | nread =>
          have := hn.2.symm.trans hw.1
          cases this
        | nwrite => exact .inr rfl
        | other x => exact .inl trivial
      · cases ch <;> simp_all [owes]
    · refine h.wakes hrun ht hs hh (.inr ⟨0, rfl⟩) fun ch hne => ?_
      cases ch <;> simp_all [owes, Thread.turn]
  | readOut i n =>
    have hh : holds s p = true := by rw [holds, hpc]; rfl
    simp only [go, hpc] at hs
    split at hs
    · cases hs
      refine h.goto hrun ht hh rfl fun ch hne => ?_
      cases ch <;> simp_all [owes]
    · refine h.wakes hrun ht hs hh (.inr ⟨0, rfl⟩) fun ch hne => ?_
      cases ch <;> simp_all [owes, Thread.turn]
  | writeWake i | readWake i =>
    simp only [go, hpc] at hs
    refine h.returns hrun ht s'.freed hs fun ch hne => ?_
    cases ch <;> simp_all [owes, Thread.turn]
  | closeSet w =>
    have hh : holds s p = true := by rw [holds, hpc]; rfl
    have hnone : ∀ ch : Ch X, owes (.client : Thread (Ch X) (Lock Y)) (s.pc p) ch = none := fun ch => by rw [hpc]; rfl
    cases w with
    | true =>
      simp only [go, hpc] at hs
      obtain ⟨m, hm, rfl⟩ := Option.map_eq_some_iff.mp hs
      have hq := quiet_call h.m hrun ht hm
      cases hm
      refine Quiet.go hq hrun rfl (.inr hh) (fun _ => h.held hrun hh) (.inr ⟨0, by simp [Sched.wakeup]⟩) h.ring
        (fun ch hw => ?_) fun ch hne => absurd (hnone ch) hne
      cases ch with
      | nread => simp [owes, Sched.wakeup, Thread.turn]
      | nwrite => exact .inl hw
      | other x => exact .inl trivial
    | false =>
      simp only [go, hpc] at hs
      obtain ⟨m, hm, rfl⟩ := Option.map_eq_some_iff.mp hs
      have hq := quiet_call h.m hrun ht hm
      cases hm
      refine Quiet.go hq hrun rfl (.inr hh) (fun _ => h.held hrun hh) (.inr ⟨0, by simp [Sched.wakeup]⟩) h.ring
        (fun ch hw => ?_) fun ch hne => absurd (hnone ch) hne
      cases ch with
      | nread => exact .inl hw
      | nwrite => simp [owes, Sched.wakeup, Thread.turn]
      | other x => exact .inl trivial
  | closeWake w =>
    simp only [go, hpc] at hs
    obtain ⟨s1, h1, hs⟩ := Option.map_eq_some_iff.mp hs
    have hnone : ∀ ch : Ch X, owes (.client : Thread (Ch X) (Lock Y)) (s.pc p) ch = none := by
      intro ch
      rw [hpc]
      cases ch <;> cases w <;> rfl
    split at hs <;> cases hs
    · exact h.returns hrun ht true h1 fun ch hne => absurd (hnone ch) hne
    · exact h.returns hrun ht _ h1 fun ch hne => absurd (hnone ch) hne

theorem turn_begin (h : Inv s) (hrun : s.m.mode c = .run p k) (ht : s.m.thread p = .client) (hpc : s.pc p = .out)
    (hl : (∃ buf, l = .writeAcquire buf) ∨ (∃ n, l = .readAcquire n) ∨ ∃ w, l = .closeAcquire w) :
    GoTurn s (goto s p l) c p := by
  have hnone : ∀ ch : Ch X, owes (.client : Thread (Ch X) (Lock Y)) (s.pc p) ch = none := fun ch => by rw [hpc]; rfl
  have hat : At s .client l ∧ locked (.client : Thread (Ch X) (Lock Y)) l = false := by
    rcases hl with ⟨x, rfl⟩ | ⟨x, rfl⟩ | ⟨x, rfl⟩ <;> exact ⟨.inl rfl, rfl⟩
  refine h.goSame hrun (.refl h.m) (fun e => ?_) (ht ▸ hat.1) fun ch hne => absurd (hnone ch) hne
  rw [ht, hat.2] at e
  cases e

end Code

section Runs

variable {X Y : Type} [DecidableEq X] [DecidableEq Y] {s s' : State X Y} {c : Cpu} {p q : Slot} {k : Loop} {ch : Ch X}

/-- What a step can be: one of the scheduler, one of a process in other code, or one in the code of the
pipe. -/
theorem step_cases {ev : Cpu × Op X Y} (h : Inv s) (hs : step s ev = some s') :
    (∃ op m, Sched.step s.m (ev.1, op) = some m ∧ s' = { s with m := m } ∧
      ((∃ k, s.m.mode ev.1 = .sched k) ∨ ∃ p k, s.m.mode ev.1 = .run p k ∧ Turn s s' ev.1 p ∧
        ((∃ ok, op = .tau ok) ∨ holds s p = false))) ∨
    ∃ p k, s.m.mode ev.1 = .run p k ∧ s.m.thread p = .client ∧ GoTurn s s' ev.1 p ∧
      (abandons s p = true → ∃ ok, ev.2 = .go ok) := by
  obtain ⟨c, op⟩ := ev
  cases hm : s.m.mode c with
  | sched k =>
    cases op with
    | tau ok =>
      obtain ⟨m, hm', rfl⟩ := Option.map_eq_some_iff.mp hs
      exact .inl ⟨_, m, hm', rfl, .inl ⟨k, rfl⟩⟩
    | timer user =>
      simp only [step, hm] at hs
      obtain ⟨m, hm', rfl⟩ := Option.map_eq_some_iff.mp hs
      exact .inl ⟨_, m, hm', rfl, .inl ⟨k, rfl⟩⟩
    | _ =>
      simp only [step, hm] at hs
      cases hs
  | run p k =>
    have hbegin : ∀ l, ((∃ buf, l = Pc.writeAcquire buf) ∨ (∃ n, l = .readAcquire n) ∨ ∃ w, l = .closeAcquire w) →
        (if s.pc p = .out ∧ s.m.thread p = .client then some (goto s p l) else none) = some s' →
        s.m.thread p = .client ∧ GoTurn s s' c p ∧ abandons s p = false := by
      intro l hl hs
      split at hs <;> cases hs
      rename_i ho
      exact ⟨ho.2, turn_begin h hm ho.2 ho.1 hl, by rw [abandons, ho.1]⟩
    cases op <;> simp only [step, hm] at hs
    case tau ok =>
      obtain ⟨m, hm', rfl⟩ := Option.map_eq_some_iff.mp hs
      exact .inl ⟨_, m, hm', rfl, .inr ⟨p, k, rfl, turn_tau h hm hm', .inl ⟨ok, rfl⟩⟩⟩
    case timer user =>
      split at hs
      · rename_i ho
        obtain ⟨m, hm', rfl⟩ := Option.map_eq_some_iff.mp hs
        exact .inl ⟨_, m, hm', rfl, .inr ⟨p, k, rfl, turn_timer h hm ho.1 hm', .inr ho.1⟩⟩
      · cases hs
    case call x =>
      split at hs
      · rename_i ho
        obtain ⟨m, hm', rfl⟩ := Option.map_eq_some_iff.mp hs
        exact .inl ⟨_, m, hm', rfl, .inr ⟨p, k, rfl, turn_call h hm ho hm', .inr (by rw [holds, ho]; rfl)⟩⟩
      · cases hs
    case write buf =>
      obtain ⟨ht, hg, ha⟩ := hbegin _ (.inl ⟨buf, rfl⟩) hs
      exact .inr ⟨p, k, rfl, ht, hg, fun e => by rw [ha] at e; cases e⟩
    case read n =>
      obtain ⟨ht, hg, ha⟩ := hbegin _ (.inr (.inl ⟨n, rfl⟩)) hs
      exact .inr ⟨p, k, rfl, ht, hg, fun e => by rw [ha] at e; cases e⟩
    case close w =>
      obtain ⟨ht, hg, ha⟩ := hbegin _ (.inr (.inr ⟨w, rfl⟩)) hs
      exact .inr ⟨p, k, rfl, ht, hg, fun e => by rw [ha] at e; cases e⟩
    case go ok =>
      split at hs
      · rename_i ht
        exact .inr ⟨p, k, rfl, ht, turn_go h hm ht hs, fun _ => ⟨ok, rfl⟩⟩
      · cases hs

theorem inv_step {ev : Cpu × Op X Y} (h : Inv s) (hs : step s ev = some s') : Inv s' := by
  rcases step_cases h hs with ⟨op, m, hm, rfl, ⟨k, hk⟩ | ⟨p, k, hk, ht, -⟩⟩ | ⟨p, k, hk, -, hg, -⟩
  · have hidle : ∀ q k', s.m.mode ev.1 ≠ .run q k' := by
      intro q k' hk'
      rw [hk] at hk'
      cases hk'
    have hother : ∀ q, At { s with m := m } (m.thread q) (s.pc q) ∧ (holds { s with m := m } q = true →
        ∃ c' k', m.mode c' = .run q k' ∧ m.spin (.other .pipe) = some c') := fun q =>
      h.other (hidle q) (fun c' hc => Sched.mode_step hm hc) (Sched.spin_step hm) rfl
        (Sched.frame_step hm (hidle q)).2.2.1 fun _ => ⟨rfl, rfl, rfl, rfl⟩
    exact ⟨Sched.inv_step h.m hm, fun q => (hother q).2, fun q => (hother q).1, h.ring⟩
  · exact h.turn hk ht
  · exact h.turn hk hg.toTurn

omit [DecidableEq X] [DecidableEq Y] in
theorem inv_pipealloc (data : Nat → UInt8) : Inv (pipealloc X Y data) where
  m := Sched.inv_boot _ _
  lock p hp := by cases hp
  pos p := trivial
  ring := by simp [Ring, pipealloc, Fifo.size, Fifo.queue, Fifo.contents]

/-- In every state of every run there are at most `PIPESIZE` bytes in the pipe, and the bytes that have
been taken out, followed by those in the ring, are the bytes that have been put in. -/
theorem fifo {data : Nat → UInt8} {evs : List (Cpu × Op X Y)}
    (hr : Trans.run step (pipealloc X Y data) evs = some s) :
    (s.nwrite - s.nread).toNat ≤ PIPESIZE ∧ s.taken ++ Fifo.queue PIPESIZE s.data s.nread s.nwrite = s.put :=
  (Trans.run_inv (fun _ _ _ h hs => inv_step h hs) (inv_pipealloc data) hr).ring

end Runs

def writeThenRead : List (Cpu × Op Unit Unit) :=
  List.replicate 3 (0, .tau true) ++ [(0, .write [some 7, some 8])] ++ List.replicate 10 (0, .go true) ++
    List.replicate 65 (0, .tau true) ++ [(0, .go true), (0, .read 1)] ++ List.replicate 5 (0, .go true)

theorem fifo_writeThenRead : ∃ s, Trans.run step (pipealloc Unit Unit fun _ => 0) writeThenRead = some s ∧
    s.put = [7, 8] ∧ s.taken = [7] ∧ Fifo.queue PIPESIZE s.data s.nread s.nwrite = [8] := by
  obtain ⟨s, hr, hput, htaken⟩ : ∃ s ∈ Trans.run step (pipealloc Unit Unit fun _ => 0) writeThenRead,
      s.put = [7, 8] ∧ s.taken = [7] := by decide +kernel
  refine ⟨s, hr, hput, htaken, ?_⟩
  have hf := (fifo hr).2
  rw [hput, htaken] at hf
  exact List.append_cancel_left hf

end Pipe
end Xv6
