import Xv6.Uthread.Tid
import Xv6.Uthread.Create

/-!
# Xv6.Uthread.Resume

What happens when `tsched` dispatches a thread that is itself inside `tsched`.

A resumed thread goes on in the loop that switched away from it, with the `i` and the
`current_thread_index` of its own stack, over a table that has changed meanwhile. Its `tyield`
returns because no slot that this loop has yet to look at holds a RUNNABLE thread. That rests on the
ids that `new_thread_id` really hands out: the main thread has id 0 and every other thread id 2, so
that every loop starts at slot 0 or 1. `tyield` may be called from a thread's own code, also inside
`acquire` and `release`, or from `tjoin`.

* `Base`, `SlotOne`, `Loop`: the invariant of the table and of the loop that runs. The main thread is
  resumed at most once, by the thread in slot 1, and that thread at most once, by the main thread.
* `resumed_returns`: in every run, a resumed thread returns from `tyield` before the next switch.
-/

namespace Xv6
namespace Uthread

open St Trans List

/-- The step is a turn of `tsched` that calls `tswtch`. -/
def switches (s : St) : Event → Bool
  | .tau =>
    match s.ctl with
    | .sched k i _ => decide (((i % MAX_THREADS : Nat) : Int) ≠ k) && runnableAt s (i % MAX_THREADS)
    | _ => false
  | .op _ => false

/-! ## The invariant -/

/-- A thread in slot `j` that can be dispatched has not run yet. -/
def Fresh (s : St) (j : Nat) : Prop :=
  ∀ t, s.threads j = some t → (s.thread t).state = .runnable → (s.thread t).tcontext = .entry

def Live (s : St) : Prop := (s.thread 0).state = .runnable

structure Base (s : St) : Prop where
  main : (s.thread 0).tid = 0
  tids : ∀ p, p ≠ 0 → p < s.heap.length → (s.thread p).tid = 2
  current : s.current < s.heap.length
  slots : TableOk s
  once : ∀ {i j p}, s.threads i = some p → s.threads j = some p → i = j
  home : ∀ {j}, s.threads j = some 0 → j = 0
  zero : s.threads 0 ≠ none
  one : s.threads 1 = none → s.current = 0 ∧ ∀ j, 1 ≤ j → s.threads j = none
  live : Live s → s.threads 0 = some 0
  fresh : ∀ j, 2 ≤ j → Fresh s j

/-- What slot 1 holds, and where the main thread will go on, by who runs. -/
structure SlotOne (s : St) : Prop where
  first : s.current = 0 → Live s → Fresh s 1
  back : s.current = 0 → s.threads 0 = some 0 → ¬ Live s → ∀ t, s.threads 1 = some t → (s.thread t).state = .runnable →
    (s.thread t).tcontext = .entry ∨ ∃ r, (s.thread t).tcontext = .sched 1 65 r
  away : s.current ≠ 0 → Live s → ∃ j r, (s.thread 0).tcontext = .sched 0 j r ∧ 2 ≤ j ∧ j ≤ 64
  gone : s.current ≠ 0 → s.threads 0 = some 0 → (s.thread 0).state = .unused → runnableAt s 1 = false
  taken : s.current ≠ 0 → s.threads 0 ≠ some 0 → Fresh s 1

def startIndex (s : St) : Int :=
  if s.threads 0 = some 0 then if s.current = 0 then 0 else 1
  else if s.current = 0 then -1 else 0

/-- The loop of `tsched` of the current thread, about to look at slot `i`. -/
structure Loop (s : St) (k : Int) (i : Nat) : Prop where
  index : k = startIndex s
  low : k < i
  high : 0 ≤ k → i ≤ 64 + k
  away : s.current ≠ 0 → Live s → ∀ x, 2 ≤ x → x < i → x < 64 → runnableAt s x = false
  back : s.current = 0 → s.threads 0 = some 0 → ¬ Live s → 2 ≤ i →
    runnableAt s 1 = false ∨ ∀ x, i ≤ x → x < 64 → runnableAt s x = false

structure ResumeInv (s : St) : Prop where
  base : Base s
  phase : SlotOne s
  loop : ∀ k i r, s.ctl = .sched k i r → Loop s k i

variable {s s' : St} {j i : Nat} {k : Int} {a : CreateArgs}

theorem Base.pos (h : Base s) : 0 < s.heap.length := Nat.lt_of_le_of_lt (Nat.zero_le _) h.current

theorem Fresh.of_quiet (h : runnableAt s j = false) : Fresh s j := by
  intro t ht hrun
  simp [runnableAt, ht, hrun] at h

/-! ## The loop of `tsched` -/

theorem findThreadIndex_first {p q : Ptr} (hj : j < MAX_THREADS) (hq : s.threads j = some q)
    (heq : (s.thread q).tid = (s.thread p).tid)
    (hlow : ∀ i < j, ∀ u, s.threads i = some u → (s.thread u).tid ≠ (s.thread p).tid) : findThreadIndex s p = j := by
  have hf : findTid s (s.thread p).tid = some j := by
    rw [findTid, find?_range_eq_some]
    refine ⟨by simp [tidAt, hq, heq], by simpa using hj, fun i hi => ?_⟩
    unfold tidAt
    split
    · rename_i u hu
      have hne := hlow i hi u hu
      simp
      omega
    · rfl
  rw [findThreadIndex, hf]

theorem Base.index (h : Base s) : findThreadIndex s s.current = startIndex s := by
  obtain ⟨q, hq⟩ := Option.ne_none_iff_exists'.mp h.zero
  unfold startIndex
  split
  · rename_i h0
    split
    · rename_i hc
      exact findThreadIndex_first (by decide) h0 (by rw [hc]) fun i hi => absurd hi (Nat.not_lt_zero i)
    · rename_i hc
      have hcur := h.tids _ hc h.current
      obtain ⟨t, ht⟩ := Option.ne_none_iff_exists'.mp fun h1 => hc (h.one h1).1
      have ht0 : t ≠ 0 := by
        rintro rfl
        exact absurd (h.home ht) (by decide)
      refine findThreadIndex_first (j := 1) (by decide) ht (by rw [h.tids t ht0 (h.slots 1 t ht), hcur]) fun i hi u hu => ?_
      obtain rfl : i = 0 := by omega
      obtain rfl : 0 = u := Option.some.inj (h0.symm.trans hu)
      rw [h.main, hcur]
      decide
  · rename_i h0
    have hq0 : q ≠ 0 := by
      rintro rfl
      exact h0 hq
    split
    · rename_i hc
      -- no slot holds the id of the main thread
      have hnone : findTid s (s.thread s.current).tid = none := by
        refine find?_eq_none.mpr fun i _ => ?_
        unfold tidAt
        split
        · rename_i u hu
          have hu0 : u ≠ 0 := by
            rintro rfl
            exact h0 (h.home hu ▸ hu)
          rw [hc, h.main, h.tids u hu0 (h.slots i u hu)]
          decide
        · simp
      rw [findThreadIndex, hnone]
    · rename_i hc
      refine findThreadIndex_first (by decide) hq ?_ fun i hi => absurd hi (Nat.not_lt_zero i)
      rw [h.tids q hq0 (h.slots 0 q hq), h.tids _ hc h.current]

theorem startIndex_cases (s : St) : startIndex s = 0 ∨ startIndex s = 1 ∨ startIndex s = -1 := by
  unfold startIndex
  split
  · split
    · exact .inl rfl
    · exact .inr (.inl rfl)
  · split
    · exact .inr (.inr rfl)
    · exact .inl rfl

theorem Base.loop_start (h : Base s) : Loop s (findThreadIndex s s.current) (findThreadIndex s s.current + 1).toNat := by
  rw [h.index]
  have hk := startIndex_cases s
  refine ⟨rfl, by omega, by omega, fun hc hlive x hx hxi => ?_, fun hc h0 _ hi => ?_⟩
  · rw [startIndex, if_pos (h.live hlive), if_neg hc] at hxi
    exact absurd hxi (by simp; omega)
  · rw [startIndex, if_pos h0, if_pos hc] at hi
    exact absurd hi (by decide)

theorem Loop.next (h : Loop s k j) (hne : ((j % MAX_THREADS : Nat) : Int) ≠ k)
    (hq : runnableAt s (j % MAX_THREADS) = false) : Loop s k (j + 1) := by
  have hk := startIndex_cases s
  rw [← h.index] at hk
  have hlow := h.low
  have hhigh := h.high
  simp only [MAX_THREADS] at hne hq
  refine ⟨h.index, by omega, fun h0 => by have := hhigh h0; omega, fun hc hlive x hx hxj hx64 => ?_,
    fun hc h0 hlive hj => ?_⟩
  · by_cases hxe : x = j
    · rw [Nat.mod_eq_of_lt (by omega), ← hxe] at hq
      exact hq
    · exact h.away hc hlive x hx (by omega) hx64
  · by_cases hj1 : j = 1
    · rw [hj1] at hq
      exact .inl hq
    · rcases h.back hc h0 hlive (by omega) with h1 | h1
      · exact .inl h1
      · exact .inr fun x hx => h1 x (by omega)

theorem ResumeInv.with_ctl (hb : Base s) (hp : SlotOne s) {c : Ctl} (hl : ∀ k i r, c = .sched k i r → Loop s k i) :
    ResumeInv { s with ctl := c } := by
  refine ⟨⟨hb.main, hb.tids, hb.current, hb.slots, hb.once, hb.home, hb.zero, hb.one, hb.live, hb.fresh⟩,
    ⟨hp.first, hp.back, hp.away, hp.gone, hp.taken⟩, fun k i r hk => ?_⟩
  have h := hl k i r hk
  exact ⟨h.index, h.low, h.high, h.away, h.back⟩

/-! ## Steps that change no slot -/

/-- Of the threads that exist, only the state of the current one changes, and not to RUNNABLE. -/
structure Calms (s s' : St) : Prop where
  length : s.heap.length ≤ s'.heap.length
  threads : s'.threads = s.threads
  current : s'.current = s.current
  tid : ∀ p < s.heap.length, (s'.thread p).tid = (s.thread p).tid
  new : ∀ p, s.heap.length ≤ p → p < s'.heap.length → (s'.thread p).tid = 2
  tcontext : ∀ p < s.heap.length, (s'.thread p).tcontext = (s.thread p).tcontext
  state : ∀ p < s.heap.length, (s'.thread p).state = (s.thread p).state ∨ p = s.current ∧ (s'.thread p).state ≠ .runnable

theorem Calms.runnable (h : Calms s s') {p : Ptr} (hlt : p < s.heap.length) (hp : (s'.thread p).state = .runnable) :
    (s.thread p).state = .runnable := by
  rcases h.state p hlt with he | ⟨-, hn⟩
  · exact he.symm.trans hp
  · exact absurd hp hn

theorem Calms.fresh (h : Calms s s') (hs : TableOk s) (hf : Fresh s j) : Fresh s' j := by
  intro t ht hrun
  rw [h.threads] at ht
  have hlt := hs j t ht
  rw [h.tcontext t hlt]
  exact hf t ht (h.runnable hlt hrun)

theorem Calms.base (h : Calms s s') (hb : Base s) : Base s' := by
  have ht := h.threads
  have hlt0 := hb.pos
  refine ⟨by rw [h.tid 0 hlt0, hb.main], fun p h0 hp => ?_, ?_, fun i p hi => ?_,
    fun hi hj => hb.once (ht ▸ hi) (ht ▸ hj), fun hj => hb.home (ht ▸ hj), by rw [ht]; exact hb.zero, ?_, ?_,
    fun j hj => h.fresh hb.slots (hb.fresh j hj)⟩
  · by_cases hlt : p < s.heap.length
    · rw [h.tid p hlt, hb.tids p h0 hlt]
    · exact h.new p (Nat.le_of_not_lt hlt) hp
  · rw [h.current]
    exact Nat.lt_of_lt_of_le hb.current h.length
  · exact Nat.lt_of_lt_of_le (hb.slots i p (ht ▸ hi)) h.length
  · rw [ht, h.current]
    exact hb.one
  · rw [ht]
    exact fun hl => hb.live (h.runnable hlt0 hl)

theorem Calms.phase (h : Calms s s') (hb : Base s) (hp : SlotOne s) : SlotOne s' := by
  have hc := h.current
  have ht := h.threads
  have hlt0 := hb.pos
  refine ⟨fun h0 hl => h.fresh hb.slots (hp.first (hc ▸ h0) (h.runnable hlt0 hl)), fun h0 hh hl t h1 hrun => ?_,
    fun h0 hl => ?_, fun h0 hh hu => ?_, fun h0 hh => h.fresh hb.slots (hp.taken (hc ▸ h0) (ht ▸ hh))⟩
  · rw [ht] at h1
    have hlt := hb.slots 1 t h1
    rw [h.tcontext t hlt]
    by_cases hlive : Live s
    · exact .inl (hp.first (hc ▸ h0) hlive t h1 (h.runnable hlt hrun))
    · exact hp.back (hc ▸ h0) (ht ▸ hh) hlive t h1 (h.runnable hlt hrun)
  · rw [h.tcontext 0 hlt0]
    exact hp.away (hc ▸ h0) (h.runnable hlt0 hl)
  · have hstate : (s.thread 0).state = .unused := by
      rcases h.state 0 hlt0 with he | ⟨he, -⟩
      · exact he.symm.trans hu
      · exact absurd (hc.trans he.symm) h0
    have hq := hp.gone (hc ▸ h0) (ht ▸ hh) hstate
    unfold runnableAt at hq ⊢
    rw [ht]
    split
    · rename_i t h1
      rw [h1] at hq
      exact decide_eq_false fun hrun => of_decide_eq_false hq (h.runnable (hb.slots 1 t h1) hrun)
    · rfl

theorem calms_setThread {t : Thread} (htid : t.tid = (s.thread s.current).tid)
    (hctx : t.tcontext = (s.thread s.current).tcontext) (hst : t.state ≠ .runnable) :
    Calms s (s.setThread s.current t) := by
  have hlen := length_setThread s s.current t
  refine ⟨Nat.le_of_eq hlen.symm, rfl, rfl, fun p _ => ?_, fun p hp hp' => absurd hp (Nat.not_le_of_lt (hlen ▸ hp')),
    fun p _ => ?_, fun p _ => ?_⟩ <;>
  · rw [thread_setThread]
    split
    · rename_i hp
      simp [hp.1, htid, hctx, hst]
    · simp

theorem calms_tcreate (hs : TableOk s) (htid : a.tid = 2) (hf : ¬ HasRoom s) : Calms s (tcreate s a) := by
  have hold : ∀ p < s.heap.length, (tcreate s a).thread p = s.thread p := fun p hp => tcreate_thread s a hp
  refine ⟨by simp, by rw [tcreate_full hs hf], tcreate_current s a, fun p hp => by rw [hold p hp], fun p hp hp' => ?_,
    fun p hp => by rw [hold p hp], fun p hp => .inl (by rw [hold p hp])⟩
  rw [tcreate_length] at hp'
  obtain rfl : p = s.heap.length := Nat.le_antisymm (Nat.le_of_lt_succ hp') hp
  show (created s a).tid = 2
  rw [created_full hs hf]
  exact htid

/-! ## Creating a thread -/

theorem slot_le (hf : (range MAX_THREADS).find? (available s) = some i)
    (hj : s.threads j = none ∨ ∃ p, s.threads j = some p ∧ (s.thread p).state = .unused) : i ≤ j := by
  by_contra hlt
  obtain ⟨-, -, hall⟩ := find?_range_eq_some.mp hf
  have := hall j (by omega)
  rw [available_iff.mpr hj] at this
  cases this

theorem Placed.slot {t : Ptr} (h : Placed s a i) (ht : (tcreate s a).threads j = some t) :
    j = i ∧ t = s.heap.length ∨ j ≠ i ∧ s.threads j = some t := by
  by_cases hj : j = i
  · exact .inl ⟨hj, Option.some.inj (ht.symm.trans ((h.only j).mpr hj))⟩
  · exact .inr ⟨hj, h.others j hj ▸ ht⟩

theorem Placed.fresh (h : Placed s a i) (hs : TableOk s) (hf : j ≠ i → Fresh s j) : Fresh (tcreate s a) j := by
  intro t ht hrun
  rcases h.slot ht with ⟨-, rfl⟩ | ⟨hj, ht'⟩
  · show (created s a).tcontext = .entry
    rw [h.thread]
    rfl
  · rw [tcreate_thread s a (hs j t ht')] at hrun ⊢
    exact hf hj t ht' hrun

theorem Placed.base (hb : Base s) (htid : a.tid = 2) (h : Placed s a i)
    (hf : (range MAX_THREADS).find? (available s) = some i) : Base (tcreate s a) := by
  have hmain : (tcreate s a).thread 0 = s.thread 0 := tcreate_thread s a hb.pos
  refine ⟨by rw [hmain, hb.main], fun p h0 hp => ?_, ?_, fun j p hj => ?_, fun {j j' p} hj hj' => ?_, fun {j} hj => ?_, ?_,
    fun h1 => ?_, fun hl => ?_, fun j hj => h.fresh hb.slots fun _ => hb.fresh j hj⟩
  · rw [tcreate_length] at hp
    by_cases hpn : p = s.heap.length
    · rw [hpn]
      show (created s a).tid = 2
      rw [h.thread]
      exact htid
    · have hlt : p < s.heap.length := Nat.lt_of_le_of_ne (Nat.le_of_lt_succ hp) hpn
      rw [tcreate_thread s a hlt]
      exact hb.tids p h0 hlt
  · rw [tcreate_current, tcreate_length]
    exact Nat.lt_succ_of_lt hb.current
  · rw [tcreate_length]
    rcases h.slot hj with ⟨-, rfl⟩ | ⟨-, hj'⟩
    · exact Nat.lt_succ_self _
    · exact Nat.lt_succ_of_lt (hb.slots j p hj')
  · rcases h.slot hj with ⟨rfl, rfl⟩ | ⟨-, ho⟩
    · exact ((h.only j').mp hj').symm
    · rcases h.slot hj' with ⟨-, rfl⟩ | ⟨-, ho'⟩
      · exact absurd (hb.slots j _ ho) (Nat.lt_irrefl _)
      · exact hb.once ho ho'
  · rcases h.slot hj with ⟨-, he⟩ | ⟨-, ho⟩
    · exact absurd he (Nat.ne_of_lt hb.pos)
    · exact hb.home ho
  · by_cases hi : 0 = i
    · rw [(h.only 0).mpr hi]
      simp
    · rw [h.others 0 hi]
      exact hb.zero
  · -- an empty slot 1 means that the new thread went to slot 0
    have hi1 : 1 ≠ i := by
      intro he
      rw [(h.only 1).mpr he] at h1
      cases h1
    rw [h.others 1 hi1] at h1
    obtain ⟨hc, hall⟩ := hb.one h1
    have hi := slot_le hf (.inl h1)
    refine ⟨by rw [tcreate_current, hc], fun j hj => ?_⟩
    rw [h.others j (by omega)]
    exact hall j hj
  · have hl' : Live s := by rwa [Live, hmain] at hl
    have hi : 0 ≠ i := by
      rintro rfl
      rcases h.free with he | ⟨p, hp, hu⟩
      · exact hb.zero he
      · obtain rfl : 0 = p := Option.some.inj ((hb.live hl').symm.trans hp)
        rw [Live, hu] at hl'
        cases hl'
    rw [h.others 0 hi]
    exact hb.live hl'

theorem Placed.phase (hb : Base s) (hp : SlotOne s) (h : Placed s a i)
    (hf : (range MAX_THREADS).find? (available s) = some i) : SlotOne (tcreate s a) := by
  have hmain : (tcreate s a).thread 0 = s.thread 0 := tcreate_thread s a hb.pos
  have hhome : (tcreate s a).threads 0 = some 0 → i ≠ 0 ∧ s.threads 0 = some 0 := fun h0 => by
    rcases h.slot h0 with ⟨-, he⟩ | ⟨hi, ho⟩
    · exact absurd he (Nat.ne_of_lt hb.pos)
    · exact ⟨Ne.symm hi, ho⟩
  refine ⟨fun hc hl => h.fresh hb.slots fun _ => ?_, fun hc h0 hl t ht hrun => ?_, fun hc hl => ?_, fun hc h0 hu => ?_,
    fun hc h0 => h.fresh hb.slots fun h1 => ?_⟩
  · rw [tcreate_current] at hc
    rw [Live, hmain] at hl
    exact hp.first hc hl
  · rw [tcreate_current] at hc
    rw [Live, hmain] at hl
    rcases h.slot ht with ⟨-, rfl⟩ | ⟨-, ho⟩
    · left
      show (created s a).tcontext = .entry
      rw [h.thread]
      rfl
    · rw [tcreate_thread s a (hb.slots 1 t ho)] at hrun ⊢
      exact hp.back hc (hhome h0).2 hl t ho hrun
  · rw [tcreate_current] at hc
    rw [Live, hmain] at hl
    rw [hmain]
    exact hp.away hc hl
  · -- an UNUSED main thread gives its slot to the new thread
    obtain ⟨hi, ho⟩ := hhome h0
    rw [hmain] at hu
    exact absurd (slot_le hf (.inr ⟨0, ho, hu⟩)) (by omega)
  · rw [tcreate_current] at hc
    by_cases ho : s.threads 0 = some 0
    · have hi : i = 0 := by
        by_contra hi
        exact h0 (by rw [h.others 0 (Ne.symm hi), ho])
      rcases h.free with he | ⟨p, hpz, hu⟩
      · rw [hi] at he
        exact absurd he hb.zero
      · rw [hi, ho] at hpz
        cases hpz
        exact .of_quiet (hp.gone hc ho hu)
    · exact hp.taken hc ho

theorem ResumeInv.tcreate (h : ResumeInv s) (hctl : s.ctl = .user) (htid : a.tid = 2) : ResumeInv (tcreate s a) := by
  have hloop : ∀ k i r, (Uthread.tcreate s a).ctl = .sched k i r → Loop (Uthread.tcreate s a) k i := fun k i r hk => by
    rw [tcreate_ctl, hctl] at hk
    cases hk
  by_cases hroom : HasRoom s
  · cases hf : (range MAX_THREADS).find? (available s) with
    | none =>
      obtain ⟨i, hi, hav⟩ := hroom
      exact absurd hav (find?_eq_none.mp hf i (mem_range.mpr hi))
    | some i =>
      have hp : Placed s a i := tcreate_placed h.base.slots hf
      exact ⟨hp.base h.base htid hf, hp.phase h.base h.phase hf, hloop⟩
  · have hc := calms_tcreate h.base.slots htid hroom
    exact ⟨hc.base h.base, hc.phase h.base h.phase, hloop⟩

/-! ## Switching -/

/-- The loop ends without finding a RUNNABLE thread. -/
structure Idle (s : St) (k : Int) (i : Nat) : Prop where
  nonneg : 0 ≤ k
  lt : k < MAX_THREADS
  low : k < i
  high : i ≤ MAX_THREADS + k
  quiet : ∀ x : Nat, i ≤ x → x < MAX_THREADS + k → runnableAt s (x % MAX_THREADS) = false

section Switch

variable {k : Int} {i : Nat} {r : Ret} {old t : Ptr}

theorem quiet_switched (ht : t < s.heap.length) {x : Nat} (h : runnableAt s x = false) :
    runnableAt (switched s k i r old t) x = false := by
  unfold runnableAt at h ⊢
  have hth : (switched s k i r old t).threads = s.threads := rfl
  rw [hth]
  cases hx : s.threads x with
  | none => rfl
  | some p =>
    rw [hx] at h
    by_cases hp : p = t
    · simp [hp, switched_state_self s k i r old ht]
    · simpa [switched_state_ne s k i r old hp] using h

theorem switched_tcontext_ne {p : Ptr} (h : p ≠ old) : ((switched s k i r old t).thread p).tcontext = (s.thread p).tcontext := by
  rw [thread_switched]
  exact if_neg fun hp => h hp.1

theorem switched_tcontext_self (h : old < s.heap.length) :
    ((switched s k i r old t).thread old).tcontext = .sched k (i + 1) r := by
  rw [thread_switched]
  exact if_pos ⟨rfl, h⟩

theorem fresh_switched (ht : t < s.heap.length) {x : Nat} (hx : s.threads x ≠ some old) (h : Fresh s x) :
    Fresh (switched s k i r old t) x := by
  intro p hp hrun
  have hp' : s.threads x = some p := hp
  have hne : p ≠ t := by
    rintro rfl
    rw [switched_state_self s k i r old ht] at hrun
    cases hrun
  rw [switched_state_ne s k i r old hne] at hrun
  have hold : p ≠ old := by
    rintro rfl
    exact hx hp'
  rw [switched_tcontext_ne hold]
  exact h p hp' hrun

theorem Base.switched (hb : Base s) (hl : Loop s k i) (h0 : 0 ≤ k) (hne : ((i % MAX_THREADS : Nat) : Int) ≠ k)
    (hold : s.threads k.toNat = some old) (ht : s.threads (i % MAX_THREADS) = some t) : Base (switched s k i r old t) := by
  have hlt := hb.slots _ t ht
  have hk := startIndex_cases s
  rw [← hl.index] at hk
  refine ⟨by rw [switched_tid, hb.main], fun p hp0 hp => ?_, by rw [switched_length]; exact hlt, fun j p hj => ?_,
    fun hi hj => hb.once hi hj, fun hj => hb.home hj, hb.zero, fun h1 => ?_, fun hl => ?_, fun j hj => ?_⟩
  · rw [switched_length] at hp
    rw [switched_tid, hb.tids p hp0 hp]
  · rw [switched_length]
    exact hb.slots j p hj
  · -- with slot 1 empty, no loop finds a thread
    obtain ⟨hc, hall⟩ := hb.one h1
    have hk0 : k = 0 := by
      have hi := hl.index
      rw [startIndex, if_pos hc, if_pos hc] at hi
      split at hi <;> omega
    rw [hall _ (by omega)] at ht
    cases ht
  · have ht0 : 0 ≠ t := by
      rintro rfl
      rw [Live, switched_state_self s k i r old hlt] at hl
      cases hl
    rw [Live, switched_state_ne s k i r old ht0] at hl
    exact hb.live hl
  · refine fresh_switched hlt (fun he => ?_) (hb.fresh j hj)
    have := hb.once he hold
    omega

/-- The loop of `tsched` of thread `old` has found thread `t`. -/
structure Found (s : St) (k : Int) (i : Nat) (old t : Ptr) : Prop where
  base : Base s
  phase : SlotOne s
  loop : Loop s k i
  nonneg : 0 ≤ k
  ne : ((i % MAX_THREADS : Nat) : Int) ≠ k
  from_old : s.threads k.toNat = some old
  slot : s.threads (i % MAX_THREADS) = some t
  runnable : (s.thread t).state = .runnable

/-- After a switch a new thread starts, or a loop goes on that will not find another one. -/
structure Handed (s : St) : Prop where
  phase : SlotOne s
  loop : ∀ k i r, s.ctl = .sched k i r → Loop s k i ∧ Idle s k i

theorem Found.lt (h : Found s k i old t) : t < s.heap.length := h.base.slots _ t h.slot

theorem Found.ne_old (h : Found s k i old t) : t ≠ old := by
  rintro rfl
  have h0 := h.nonneg
  have hne := h.ne
  have := h.base.once h.slot h.from_old
  omega

theorem Found.ctl (h : Found s k i old t) : (switched s k i r old t).ctl = (s.thread t).tcontext :=
  switched_tcontext_ne h.ne_old

theorem Found.handed_entry (h : Found s k i old t) (he : (s.thread t).tcontext = .entry)
    (hp : SlotOne (switched s k i r old t)) : Handed (switched s k i r old t) := by
  refine ⟨hp, fun k' i' r' hk => ?_⟩
  rw [h.ctl, he] at hk
  cases hk

theorem live_switched (ht : t ≠ 0) : Live (switched s k i r old t) ↔ Live s := by
  rw [Live, switched_state_ne s k i r old (Ne.symm ht), Live]

theorem Found.from_main (h : Found s k i old t) (hhome : s.threads 0 = some 0) (hc : s.current = 0) :
    Handed (switched s k i r old t) := by
  have hk := h.loop.index
  rw [startIndex, if_pos hhome, if_pos hc] at hk
  subst hk
  obtain rfl : 0 = old := Option.some.inj (hhome.symm.trans h.from_old)
  have hlow := h.loop.low
  have hhigh := h.loop.high (by decide)
  have hne := h.ne
  have ht := h.slot
  simp only [MAX_THREADS] at hne ht
  rw [Nat.mod_eq_of_lt (by omega)] at ht
  have ht0 : t ≠ 0 := h.ne_old
  by_cases hL : Live s
  · have hf : (s.thread t).tcontext = .entry := by
      by_cases hi : i = 1
      · rw [hi] at ht
        exact h.phase.first hc hL t ht h.runnable
      · exact h.base.fresh i (by omega) t ht h.runnable
    refine h.handed_entry hf ⟨fun he => absurd he ht0, fun he => absurd he ht0, fun _ _ => ?_, fun _ _ hu => ?_,
      fun _ he => absurd hhome he⟩
    · exact ⟨i + 1, r, switched_tcontext_self h.base.pos, by omega, by omega⟩
    · rw [switched_state_ne s 0 i r 0 (Ne.symm ht0), hL] at hu
      cases hu
  · have hL' : ¬ Live (switched s 0 i r 0 t) := fun hl => hL ((live_switched ht0).mp hl)
    have hphase : runnableAt (switched s 0 i r 0 t) 1 = false → SlotOne (switched s 0 i r 0 t) := fun hq =>
      ⟨fun he => absurd he ht0, fun he => absurd he ht0, fun _ hl => absurd hl hL', fun _ _ _ => hq,
        fun _ he => absurd hhome he⟩
    by_cases hi : i = 1
    · rw [hi] at ht
      have hq : runnableAt (switched s 0 i r 0 t) 1 = false := by
        have : (switched s 0 i r 0 t).threads 1 = some t := ht
        simp [runnableAt, this, switched_state_self s 0 i r 0 h.lt]
      rcases h.phase.back hc hhome hL t ht h.runnable with he | ⟨r1, he⟩
      · exact h.handed_entry he (hphase hq)
      · refine ⟨hphase hq, fun k' i' r' hk => ?_⟩
        rw [h.ctl, he] at hk
        cases hk
        refine ⟨⟨?_, by decide, by decide, fun _ hl => absurd hl hL', fun hc' => absurd hc' ht0⟩, by decide, by decide,
          by decide, by decide, fun x hx hx' => ?_⟩
        · exact ((if_pos hhome).trans (if_neg ht0)).symm
        · simp only [MAX_THREADS] at hx'
          omega
    · refine h.handed_entry (h.base.fresh i (by omega) t ht h.runnable) (hphase (quiet_switched h.lt ?_))
      rcases h.loop.back hc hhome hL (by omega) with hq | hq
      · exact hq
      · have hq := hq i (Nat.le_refl i) (by omega)
        simp [runnableAt, ht, h.runnable] at hq

theorem Found.from_one (h : Found s k i old t) (hhome : s.threads 0 = some 0) (hc : s.current ≠ 0) :
    Handed (switched s k i r old t) := by
  have hk := h.loop.index
  rw [startIndex, if_pos hhome, if_neg hc] at hk
  subst hk
  have hlow := h.loop.low
  have hhigh := h.loop.high (by decide)
  have hne := h.ne
  have ht := h.slot
  have hold : s.threads 1 = some old := h.from_old
  simp only [MAX_THREADS] at hne ht
  by_cases hi : i = 64
  · subst hi
    obtain rfl : 0 = t := Option.some.inj (hhome.symm.trans ht)
    have hL : Live s := h.runnable
    have hL' : ¬ Live (switched s 1 64 r old 0) := by
      rw [Live, switched_state_self s 1 64 r old h.lt]
      decide
    have hquiet : ∀ x, 2 ≤ x → x < 64 → runnableAt (switched s 1 64 r old 0) x = false := fun x hx hx' =>
      quiet_switched h.lt (h.loop.away hc hL x hx hx' hx')
    obtain ⟨j, r1, hj, hj2, hj64⟩ := h.phase.away hc hL
    refine ⟨⟨fun _ hl => absurd hl hL', fun _ _ _ u hu _ => .inr ⟨r, ?_⟩, fun he => absurd rfl he, fun he => absurd rfl he,
      fun he => absurd rfl he⟩, fun k' i' r' hk => ?_⟩
    · obtain rfl : u = old := Option.some.inj (hu.symm.trans hold)
      exact switched_tcontext_self (h.base.slots 1 u hold)
    · rw [h.ctl, hj] at hk
      cases hk
      refine ⟨⟨?_, by omega, by omega, fun he => absurd rfl he, fun _ _ _ _ => .inr fun x hx hx' => ?_⟩, by decide,
        by decide, by omega, by simp only [MAX_THREADS]; omega, fun x hx hx' => ?_⟩
      · exact ((if_pos hhome).trans (if_pos rfl)).symm
      · exact hquiet x (by omega) hx'
      · simp only [MAX_THREADS] at hx' ⊢
        rw [Nat.mod_eq_of_lt (by omega)]
        exact hquiet x (by omega) (by omega)
  · rw [Nat.mod_eq_of_lt (by omega)] at ht
    have ht0 : t ≠ 0 := by
      rintro rfl
      have := h.base.home ht
      omega
    have hold0 : 0 ≠ old := by
      rintro rfl
      exact absurd (h.base.home hold) (by decide)
    refine h.handed_entry (h.base.fresh i (by omega) t ht h.runnable) ⟨fun he => absurd he ht0, fun he => absurd he ht0,
      fun _ hl => ?_, fun _ _ hu => quiet_switched h.lt (h.phase.gone hc hhome ?_), fun _ he => absurd hhome he⟩
    · rw [switched_tcontext_ne hold0]
      exact h.phase.away hc ((live_switched ht0).mp hl)
    · rwa [switched_state_ne s 1 i r old (Ne.symm ht0)] at hu

theorem Found.from_zero (h : Found s k i old t) (hhome : s.threads 0 ≠ some 0) : Handed (switched s k i r old t) := by
  have hk := h.loop.index
  have h0 := h.nonneg
  have hc : s.current ≠ 0 := fun hc => by
    rw [startIndex, if_neg hhome, if_pos hc] at hk
    omega
  rw [startIndex, if_neg hhome, if_neg hc] at hk
  subst hk
  have hlow := h.loop.low
  have hhigh := h.loop.high (by decide)
  have hne := h.ne
  have ht := h.slot
  simp only [MAX_THREADS] at hne ht
  rw [Nat.mod_eq_of_lt (by omega)] at ht
  have ht0 : t ≠ 0 := by
    rintro rfl
    have := h.base.home ht
    omega
  have hf : (s.thread t).tcontext = .entry := by
    by_cases hi : i = 1
    · rw [hi] at ht
      exact h.phase.taken hc hhome t ht h.runnable
    · exact h.base.fresh i (by omega) t ht h.runnable
  refine h.handed_entry hf ⟨fun he => absurd he ht0, fun he => absurd he ht0,
    fun _ hl => absurd (h.base.live ((live_switched ht0).mp hl)) hhome, fun _ he => absurd he hhome,
    fun _ _ => fresh_switched h.lt (fun he => ?_) (h.phase.taken hc hhome)⟩
  exact absurd (h.base.once he h.from_old) (by decide)

theorem Found.handed (h : Found s k i old t) : Handed (switched s k i r old t) := by
  by_cases hhome : s.threads 0 = some 0
  · by_cases hc : s.current = 0
    · exact h.from_main hhome hc
    · exact h.from_one hhome hc
  · exact h.from_zero hhome

end Switch

theorem ResumeInv.found (h : ResumeInv s) {r : Ret} {old t : Ptr} (hctl : s.ctl = .sched k i r)
    (h0 : 0 ≤ k) (hne : ((i % MAX_THREADS : Nat) : Int) ≠ k) (hold : s.threads k.toNat = some old)
    (ht : s.threads (i % MAX_THREADS) = some t) (hrun : (s.thread t).state = .runnable) : Found s k i old t :=
  ⟨h.base, h.phase, h.loop k i r hctl, h0, hne, hold, ht, hrun⟩

/-! ## Runs -/

theorem ResumeInv.step {e : Event} (h : ResumeInv s) (htid : ∀ a, e = .op (.tcreate a) → a.tid = 2)
    (hs : step s e = some s') : ResumeInv s' := by
  rcases step_places hs with ⟨a, he, hctl, rfl⟩ | ⟨c, -, rfl, hc⟩ | ⟨-, -, rfl⟩ | ⟨v, -, -, -, rfl⟩ | ⟨k, i, -, -, rfl⟩ |
    ⟨k, i, r, old, t, -, hctl, h0, hne, hold, ht, hrun, rfl⟩ | ⟨t, status, size, -, -, hx, rfl⟩
  · exact h.tcreate hctl (htid a he)
  · refine .with_ctl h.base h.phase fun k i r hk => ?_
    rcases hc.loop k i r hk with ⟨rfl, rfl⟩ | ⟨j, hj, rfl, hne, hq⟩
    · exact h.base.loop_start
    · exact (h.loop k j r hj).next hne hq
  · exact .with_ctl h.base h.phase (by simp)
  · have hc : Calms s (finished s v) := calms_setThread rfl rfl (by simp)
    have hb := hc.base h.base
    refine .with_ctl hb (hc.phase h.base h.phase) ?_
    rintro k i r ⟨⟩
    exact hb.loop_start
  · exact .with_ctl h.base h.phase (by simp)
  · have hf := h.found hctl h0 hne hold ht hrun
    have hh : Handed (switched s k i r old t) := hf.handed
    exact ⟨h.base.switched hf.loop h0 hne hold ht, hh.phase, fun k' i' r' hk => (hh.loop k' i' r' hk).1⟩
  · have hc : Calms s (s.setState s.current .unused) := calms_setThread rfl rfl (by simp)
    rw [tjoinTurn, if_pos hx]
    have hi : ResumeInv { s.setState s.current .unused with ctl := .user } :=
      .with_ctl (hc.base h.base) (hc.phase h.base h.phase) (by simp)
    exact ⟨⟨hi.base.main, hi.base.tids, hi.base.current, hi.base.slots, hi.base.once, hi.base.home, hi.base.zero,
      hi.base.one, hi.base.live, hi.base.fresh⟩, ⟨hi.phase.first, hi.phase.back, hi.phase.away, hi.phase.gone,
      hi.phase.taken⟩, by simp⟩

theorem resumeInv_init (mem : Nat → UInt8) : ResumeInv (init mem) := by
  have hslot : ∀ {j p}, (init mem).threads j = some p → j = 0 ∧ p = 0 := fun {j p} hj => by
    cases j with
    | zero => cases hj; exact ⟨rfl, rfl⟩
    | succ j => cases hj
  have hempty : ∀ j, 1 ≤ j → (init mem).threads j = none := fun j hj => by
    cases j with
    | zero => cases hj
    | succ j => rfl
  have hfresh : ∀ j, 1 ≤ j → Fresh (init mem) j := fun j hj t ht => by
    rw [hempty j hj] at ht
    cases ht
  refine ⟨⟨rfl, fun p h0 hp => ?_, Nat.one_pos, tableOk_init mem, fun hi hj => ?_, fun hj => (hslot hj).1, by simp [init],
    fun _ => ⟨rfl, hempty⟩, fun _ => rfl, fun j hj => hfresh j (by omega)⟩, ⟨fun _ _ => hfresh 1 (by decide), fun _ _ hl => absurd rfl hl,
    fun hc => absurd rfl hc, fun hc => absurd rfl hc, fun hc => absurd rfl hc⟩, fun k i r hk => nomatch hk⟩
  · exact absurd (Nat.lt_one_iff.mp hp) h0
  · rw [(hslot hi).1, (hslot hj).1]

theorem resumeInv_run {mem : Nat → UInt8} {es : List Event} {l : Lib} (h : run libStep (start mem) es = some l) :
    ResumeInv l.st ∧ l.threadCount = 1 := by
  refine run_inv (I := fun l => ResumeInv l.st ∧ l.threadCount = 1) (fun l e l' hi hs => ?_)
    ⟨resumeInv_init mem, rfl⟩ h
  obtain ⟨hc, ⟨-, hne, hstep⟩ | ⟨a, -, htid, hu, he⟩⟩ := libStep_cases hi.2 hs
  · exact ⟨hi.1.step (fun a he => absurd he (hne a)) hstep, hc⟩
  · rw [he]
    exact ⟨hi.1.tcreate hu htid, hc⟩

theorem Idle.returns {r : Ret} : ∀ (d : Nat) {i : Nat} {s : St}, Idle s k i → s.ctl = .sched k i r →
    (d : Int) = MAX_THREADS + k - i →
    Trans.AllSteps step (fun s e => switches s e = false) s (replicate (d + 1) .tau) ∧
      run step s (replicate (d + 1) .tau) = some (ret s r) := by
  intro d
  induction d with
  | zero =>
    intro i s h hctl hd
    have h0 := h.nonneg
    have hlt := h.lt
    simp only [MAX_THREADS] at hd hlt
    have hmod : ((i % MAX_THREADS : Nat) : Int) = k := by simp only [MAX_THREADS]; omega
    have hstep : step s .tau = some (ret s r) := by
      simp only [step, hctl, tschedTurn, if_pos hmod]
    refine ⟨⟨?_, fun _ _ => trivial⟩, ?_⟩
    · simp [switches, hctl, hmod]
    · simp [run, hstep]
  | succ d ih =>
    intro i s h hctl hd
    have h0 := h.nonneg
    have hlow := h.low
    have hlt := h.lt
    have hq := h.quiet i (Nat.le_refl i) (by omega)
    simp only [MAX_THREADS] at hd hlt
    have hmod : ((i % MAX_THREADS : Nat) : Int) ≠ k := by simp only [MAX_THREADS]; omega
    have hstep : step s .tau = some { s with ctl := .sched k (i + 1) r } := by
      simp only [step, hctl, tschedTurn, if_neg hmod]
      unfold runnableAt at hq
      split
      · rename_i t ht
        rw [ht] at hq
        rw [if_neg (of_decide_eq_false hq)]
      · rfl
    have hnext : Idle { s with ctl := .sched k (i + 1) r } k (i + 1) :=
      ⟨h0, h.lt, by omega, by simp only [MAX_THREADS]; omega, fun x hx => h.quiet x (by omega)⟩
    obtain ⟨hall, hrun⟩ := ih hnext rfl (by simp only [MAX_THREADS]; omega)
    refine ⟨⟨by simp [switches, hctl, hq], fun s1 hs1 => ?_⟩, ?_⟩
    · rw [hstep] at hs1
      cases hs1
      exact hall
    · rw [replicate_succ, run, hstep]
      show run step _ _ = _
      rw [hrun]
      cases r <;> rfl

/-- When a switch resumes a thread inside `tsched`, its `tyield` returns before any further switch. -/
theorem resumed_returns (mem : Nat → UInt8) (es : List Event) (l l' : Lib) (e : Event)
    (h : run libStep (start mem) es = some l) (hs : libStep l e = some l') (hsw : switches l.st e = true)
    (k : Int) (i : Nat) (r : Ret) (hctl : l'.st.ctl = .sched k i r) :
    ∃ n, Trans.AllSteps step (fun s e => switches s e = false) l'.st (replicate n .tau) ∧
      run step l'.st (replicate n .tau) = some (ret l'.st r) := by
  obtain ⟨hi, hc⟩ := resumeInv_run h
  obtain rfl : e = .tau := by
    cases e with
    | tau => rfl
    | op o => cases hsw
  obtain ⟨s, hstep, rfl⟩ := Option.map_eq_some_iff.mp hs
  have hstep : step l.st .tau = some s := hstep
  cases hl : l.st.ctl with
  | sched k0 i0 r0 =>
    simp only [switches, hl, Bool.and_eq_true, decide_eq_true_eq] at hsw
    simp only [step, hl] at hstep
    rcases tschedTurn_cases hstep with ⟨he, -⟩ | ⟨-, hq, -⟩ | ⟨old, t, h0, hne, hold, ht, hrun, rfl⟩
    · exact absurd he hsw.1
    · rw [hsw.2] at hq
      cases hq
    · have hh : Handed (switched l.st k0 i0 r0 old t) := (hi.found hl h0 hne hold ht hrun).handed
      have hidle := (hh.loop k i r hctl).2
      have hhigh := hidle.high
      exact ⟨_, hidle.returns (MAX_THREADS + k - i).toNat hctl (by omega)⟩
  | _ => simp [switches, hl] at hsw

/-- The main thread creates a thread and yields; the new thread yields. -/
def yieldTwice : List Event :=
  [.op (.tcreate oneThread), .op .tyield, .tau, .tau, .op .tyield] ++ replicate 62 .tau

/-- The switch back to the main thread, which was about to look at slot 2. -/
theorem resumed_returns_main : ∃ l l' n, run libStep (start fun _ => 0) yieldTwice = some l ∧
    libStep l .tau = some l' ∧ switches l.st .tau = true ∧ l'.st.ctl = .sched 0 2 .user ∧
    run step l'.st (replicate n .tau) = some (ret l'.st .user) := by
  obtain ⟨l, hl, l', hl', hs, hc⟩ : ∃ l ∈ run libStep (start fun _ => 0) yieldTwice, ∃ l' ∈ libStep l .tau,
      switches l.st .tau = true ∧ l'.st.ctl = .sched 0 2 .user := by decide +kernel
  obtain ⟨n, -, hn⟩ := resumed_returns _ _ l l' .tau hl hl' hs 0 2 .user hc
  exact ⟨l, l', n, hl, hl', hs, hc, hn⟩

end Uthread
end Xv6
