import Xv6.Uthread.Sched

/-!
# Xv6.Uthread.Tid

The thread ids that `new_thread_id` hands out.

`new_thread_id` returns `thread_count + 1`, and `_main` is the only place that changes
`thread_count`: after it the counter is 1 for ever, and every thread gets the id 2.

* `Lib`, `libStep`: the library with its counter.
* `Two`: the table after the first `tcreate`, until the second one.
* `tids_iff_one_tcreate`: the ids in the table stay distinct in exactly the runs with at most one
  `tcreate` call.
* `twoThreads_collide`: after two calls, `find_thread_index` of the second thread gives the slot of
  the first one, and a `tjoin` for the second one waits for the first.
-/

namespace Xv6
namespace Uthread

open St Function List

variable {s s' : St} {i : Nat} {p : Ptr} {e : Event}

/-- `(uint8) thread_count + 1`, stored in a `uint8`. -/
def newThreadId (threadCount : Int) : Nat := ((threadCount % 256 + 1) % 256).toNat

/-- The library together with `thread_count`. -/
structure Lib where
  st : St
  threadCount : Int

/-- The event with the id that `tcreate` gets from `new_thread_id`. -/
def Event.withTid (tid : Nat) : Event → Event
  | .op (.tcreate a) => .op (.tcreate { a with tid := tid })
  | e => e

/-- No function of the library writes `thread_count`. -/
def libStep (l : Lib) (e : Event) : Option Lib :=
  (step l.st (e.withTid (newThreadId l.threadCount))).map fun s => { l with st := s }

/-- `_main` sets `thread_count` to 0 and increments it for the main thread. -/
def start (mem : Nat → UInt8) : Lib := { st := init mem, threadCount := 0 + 1 }

/-- The ids in the table are distinct, and identify their threads. -/
structure TidsOk (s : St) : Prop where
  distinct : ∀ i j p q, i < MAX_THREADS → j < MAX_THREADS → s.threads i = some p →
    s.threads j = some q → (s.thread p).tid = (s.thread q).tid → i = j
  own_slot : ∀ i p, i < MAX_THREADS → s.threads i = some p → findThreadIndex s p = i
  joins : ∀ i p status size, i < MAX_THREADS → s.threads i = some p →
    (tjoin s (s.thread p).tid status size).ctl = .wait p status size

theorem findTid_of_distinct
    (hd : ∀ j q, j < MAX_THREADS → s.threads j = some q → (s.thread p).tid = (s.thread q).tid → i = j)
    (hi : i < MAX_THREADS) (hp : s.threads i = some p) : findTid s (s.thread p).tid = some i := by
  rw [findTid, find?_range_eq_some]
  refine ⟨by simp [tidAt, hp], by simpa using hi, fun j hj => ?_⟩
  simp only [tidAt, Bool.not_eq_true']
  split
  · rename_i q hq
    by_contra he
    have he : ((s.thread q).tid : Int) = (s.thread p).tid := by simpa using he
    have := hd j q (by omega) hq (by omega)
    omega
  · rfl

theorem TidsOk.of_distinct (hd : ∀ i j p q, i < MAX_THREADS → j < MAX_THREADS →
    s.threads i = some p → s.threads j = some q → (s.thread p).tid = (s.thread q).tid → i = j) : TidsOk s := by
  have hfind : ∀ i p, i < MAX_THREADS → s.threads i = some p →
      findTid s (s.thread p).tid = some i :=
    fun i p hi hp => findTid_of_distinct (fun j q hj hq he => hd i j p q hi hj hp hq he) hi hp
  refine ⟨hd, fun i p hi hp => ?_, fun i p status size hi hp => ?_⟩
  · rw [findThreadIndex, hfind i p hi hp]
  · simp only [tjoin, hfind i p hi hp, hp]

/-! ## Steps -/

theorem switched_tid (s : St) (k : Int) (i : Nat) (r : Ret) (old t p : Ptr) :
    ((switched s k i r old t).thread p).tid = (s.thread p).tid := by
  rw [thread_switched]

theorem finished_tid (s : St) (v : Nat) (p : Ptr) : ((finished s v).thread p).tid = (s.thread p).tid := by
  rw [finished, thread_setThread]
  split
  · rename_i hq
    rw [hq.1]
  · rfl

theorem findThreadIndex_congr (s s' : St) (ht : s'.threads = s.threads)
    (htid : ∀ p, (s'.thread p).tid = (s.thread p).tid) (p : Ptr) : findThreadIndex s' p = findThreadIndex s p := by
  have hat : s'.tidAt = s.tidAt := by
    funext i tid
    simp only [tidAt, ht, htid]
  simp only [findThreadIndex, findTid, hat, htid]

theorem step_tid (h : step s e = some s') (hp : p < s.heap.length) : (s'.thread p).tid = (s.thread p).tid := by
  obtain hs | ⟨a, -, rfl⟩ | ⟨v, -, -, hs⟩ | ⟨k, i, r, old, t, -, -, -, -, -, rfl⟩ |
    ⟨t, status, size, -, -, hh, -, -, -, -⟩ := step_cases h
  · rw [hs.thread]
  · rw [tcreate_thread s a hp]
  · rw [hs.thread, finished_tid]
  · exact switched_tid s k i r old t p
  · have ht : s'.thread p = (s.setState s.current .unused).thread p := by simp [thread, hh]
    rw [ht, setState, thread_setThread]
    split
    · rename_i hq
      rw [hq.1]
    · rfl

theorem step_table (h : step s e = some s') (he : ∀ a, e ≠ .op (.tcreate a)) :
    s'.threads = s.threads ∧ s'.heap.length = s.heap.length := by
  obtain hs | ⟨a, rfl, -⟩ | ⟨v, -, -, hs⟩ | ⟨k, i, r, old, t, -, -, -, -, -, rfl⟩ |
    ⟨t, status, size, -, -, hh, ht, -, -, -⟩ := step_cases h
  · exact ⟨hs.threads, by rw [hs.heap]⟩
  · exact absurd rfl (he a)
  · exact ⟨hs.threads, by rw [hs.heap]; simp [finished]⟩
  · exact ⟨rfl, switched_length s k i r old t⟩
  · exact ⟨ht, by rw [hh]; simp⟩

theorem step_sched (h : step s e = some s') (hc : s.current = 0)
    (hc' : s'.current = 0) {k : Int} {r : Ret} (hk : s'.ctl = .sched k i r)
    (hr : ∀ k i r, s.ctl = .sched k i r → k = 0) (hf : findThreadIndex s 0 = 0)
    (hd : ∀ k i r old, s' ≠ switched s k i r old 0) : k = 0 := by
  rcases step_places h with ⟨a, -, hu, rfl⟩ | ⟨c, -, rfl, hg⟩ | ⟨-, -, rfl⟩ | ⟨v, -, -, h0, -⟩ | ⟨k', i', -, -, rfl⟩ |
    ⟨k', i', r', old, t, -, -, -, -, -, -, -, rfl⟩ | ⟨t, status, size, -, -, hx, rfl⟩
  · rw [tcreate_ctl, hu] at hk
    cases hk
  · rcases hg.loop k i r hk with ⟨rfl, -⟩ | ⟨j, hj, -⟩
    · rw [hc, hf]
    · exact hr k j r hj
  · cases hk
  · exact absurd hc h0
  · cases hk
  · cases hc'
    exact absurd rfl (hd k' i' r' old)
  · rw [(tjoinTurn_exited hx status size).2.2.2.2] at hk
    cases hk

/-! ## One thread besides the main thread -/

/-- The threads 0 and 1 take turns once: from main to the new thread, and back. -/
inductive Turns (s : St) : Prop where
  /-- The new thread has not run. -/
  | before (hc : s.current = 0) (h0 : (s.thread 0).state = .runnable)
      (h1 : (s.thread 1).state = .runnable) (hk : ∀ k i r, s.ctl = .sched k i r → k = 0)
  | during (hc : s.current = 1) (h0 : (s.thread 0).state = .runnable)
      (h1 : (s.thread 1).state = .running)
  /-- It has returned, and `tsched` is on its way to slot 0. -/
  | ending (hc : s.current = 1) (h0 : (s.thread 0).state = .runnable)
      (h1 : (s.thread 1).state = .exited)
      (hk : ∃ i r, s.ctl = .sched 1 i r ∧ 2 ≤ i ∧ i ≤ MAX_THREADS)
  | after (hc : s.current = 0)
      (h0 : (s.thread 0).state = .running ∨ (s.thread 0).state = .unused)
      (h1 : (s.thread 1).state = .running ∨ (s.thread 1).state = .exited)

structure Two (s : St) : Prop where
  len : s.heap.length = 2
  threads : s.threads = update (update (fun _ => none) 0 (some 0)) 1 (some 1)
  main : (s.thread 0).tid = 0
  other : (s.thread 1).tid = 2
  turns : Turns s

theorem Two.slot (h : Two s) (hp : s.threads i = some p) : (i = 0 ∧ p = 0) ∨ (i = 1 ∧ p = 1) := by
  rw [h.threads, update_apply] at hp
  split at hp
  · rename_i hi
    exact .inr ⟨hi, (Option.some.inj hp).symm⟩
  · rw [update_apply] at hp
    split at hp
    · rename_i hi
      exact .inl ⟨hi, (Option.some.inj hp).symm⟩
    · cases hp

theorem Two.tidsOk (h : Two s) : TidsOk s := by
  refine .of_distinct fun i j p q _ _ hp hq he => ?_
  have hm := h.main
  have ho := h.other
  rcases h.slot hp with ⟨rfl, rfl⟩ | ⟨rfl, rfl⟩ <;> rcases h.slot hq with ⟨rfl, rfl⟩ | ⟨rfl, rfl⟩ <;>
    simp_all

theorem Two.findThreadIndex (h : Two s) : findThreadIndex s 0 = 0 :=
  h.tidsOk.own_slot 0 0 (by decide) (by rw [h.threads]; rfl)

theorem Two.ending_step (ht : Two s) {r : Ret}
    (h0 : (s.thread 0).state = .runnable) (hk : s.ctl = .sched 1 i r) (hi : 2 ≤ i)
    (hi' : i ≤ MAX_THREADS) (h : step s e = some s') :
    s' = { s with ctl := .sched 1 (i + 1) r } ∧ i < MAX_THREADS ∨ s' = switched s 1 i r 1 0 := by
  cases e with
  | op o => simp [step, hk] at h
  | tau =>
    simp only [step, hk] at h
    rcases Nat.lt_or_eq_of_le hi' with hlt | rfl
    · have hnone : s.threads (i % MAX_THREADS) = none := by
        rw [Nat.mod_eq_of_lt hlt, ht.threads, update_of_ne (by omega),
          update_of_ne (by omega)]
      have hne : ((i % MAX_THREADS : Nat) : Int) ≠ 1 := by rw [Nat.mod_eq_of_lt hlt]; omega
      rw [tschedTurn, if_neg hne, hnone] at h
      cases h
      exact .inl ⟨rfl, hlt⟩
    · have hz : s.threads (MAX_THREADS % MAX_THREADS) = some 0 := by rw [ht.threads]; rfl
      have ho : s.threads (1 : Int).toNat = some 1 := by rw [ht.threads]; rfl
      rw [tschedTurn, if_neg (by decide), hz] at h
      simp only [h0, if_true, dispatch, ho] at h
      cases h
      exact .inr rfl

theorem Two.turns_step (ht : Two s) (he : ∀ a, e ≠ .op (.tcreate a)) (h : step s e = some s') : Turns s' := by
  have hlen := ht.len
  have hdef : ∀ t : Nat, (s.thread t).state = .exited → t = 0 ∨ t = 1 := by
    intro t hx
    by_contra hne
    have hge : s.heap.length ≤ t := by omega
    simp [thread, getElem?_eq_none hge] at hx
    cases hx
  have hunused : ∀ {c}, s'.heap = (s.setState c .unused).heap → ∀ p,
      (s'.thread p).state = if p = c ∧ c < s.heap.length then .unused else (s.thread p).state := by
    intro c hh p
    have : s'.thread p = (s.setState c .unused).thread p := by simp [thread, hh]
    rw [this, setState, thread_setThread]
    split <;> rfl
  cases ht.turns with
  | ending hc h0 h1 hk =>
    obtain ⟨i, r, hk, hi, hi'⟩ := hk
    rcases ht.ending_step h0 hk hi hi' h with ⟨rfl, hlt⟩ | rfl
    · exact .ending hc h0 h1 ⟨i + 1, r, rfl, by omega, Nat.succ_le_of_lt hlt⟩
    · refine .after rfl (.inl (switched_state_self s 1 i r 1 (by rw [hlen]; decide))) (.inr ?_)
      rw [switched_state_ne s 1 i r 1 (by decide), h1]
  | before hc h0 h1 hk =>
    obtain hs | ⟨a, rfl, -⟩ | ⟨v, -, hne, -⟩ | ⟨k, i, r, old, t, hctl, hne, -, hslot, hrun, rfl⟩ |
      ⟨t, status, size, -, hx, -⟩ := step_cases h
    · refine .before (by rw [hs.current, hc]) (by rw [hs.thread, h0]) (by rw [hs.thread, h1]) ?_
      intro k i r hk'
      refine step_sched h hc (by rw [hs.current, hc]) hk' hk ht.findThreadIndex ?_
      rintro k i r old rfl
      have hr := switched_state_self s k i r old (t := 0) (by rw [hlen]; decide)
      rw [hs.thread, h0] at hr
      cases hr
    · exact absurd rfl (he a)
    · exact absurd hc hne
    · obtain rfl := hk k i r hctl
      rcases ht.slot hslot with ⟨hi, rfl⟩ | ⟨hi, rfl⟩
      · rw [hi] at hne
        exact absurd rfl hne
      · refine .during rfl ?_ (switched_state_self s 0 i r old (by rw [hlen]; decide))
        rw [switched_state_ne s 0 i r old (by decide), h0]
    · rcases hdef t hx with rfl | rfl <;> simp_all
  | during hc h0 h1 =>
    obtain hs | ⟨a, rfl, -⟩ | ⟨v, rfl, hne, hs⟩ | ⟨k, i, r, old, t, -, -, -, hslot, hrun, rfl⟩ |
      ⟨t, status, size, -, hx, -⟩ := step_cases h
    · exact .during (by rw [hs.current, hc]) (by rw [hs.thread, h0]) (by rw [hs.thread, h1])
    · exact absurd rfl (he a)
    · obtain rfl : tyield (finished s v) .exit = s' := by
        simp only [step] at h
        split at h
        · rw [threadReturn, if_neg hne] at h
          exact Option.some.inj h
        · cases h
      have hf : Uthread.findThreadIndex (finished s v) 1 = 1 := by
        rw [findThreadIndex_congr s (finished s v) rfl (finished_tid s v)]
        exact ht.tidsOk.own_slot 1 1 (by decide) (by rw [ht.threads]; rfl)
      refine .ending hc ?_ ?_ ⟨2, .exit, ?_, by decide, by decide⟩
      · rw [hs.thread, finished, thread_setThread, if_neg (by rw [hc]; simp), h0]
      · rw [hs.thread, finished, thread_setThread, if_pos ⟨hc.symm, by rw [hc, hlen]; decide⟩]
      · have hcur : (finished s v).current = 1 := hc
        rw [tyield, hcur, hf]
        rfl
    · rcases ht.slot hslot with ⟨-, rfl⟩ | ⟨-, rfl⟩
      · refine .after rfl (.inl (switched_state_self s k i r old (by rw [hlen]; decide))) (.inl ?_)
        rw [switched_state_ne s k i r old (by decide), h1]
      · rw [h1] at hrun
        cases hrun
    · rcases hdef t hx with rfl | rfl <;> simp_all
  | after hc h0 h1 =>
    obtain hs | ⟨a, rfl, -⟩ | ⟨v, -, hne, -⟩ | ⟨k, i, r, old, t, -, -, -, hslot, hrun, rfl⟩ |
      ⟨t, status, size, -, hx, hh, -, hcur, -, -⟩ := step_cases h
    · exact .after (by rw [hs.current, hc]) (by simpa only [hs.thread] using h0)
        (by simpa only [hs.thread] using h1)
    · exact absurd rfl (he a)
    · exact absurd hc hne
    · rcases ht.slot hslot with ⟨-, rfl⟩ | ⟨-, rfl⟩ <;> simp_all
    · refine .after (by rw [hcur, hc]) (.inr ?_) ?_
      · rw [hunused hh, hc, if_pos ⟨rfl, by rw [hlen]; decide⟩]
      · rw [hunused hh, hc, if_neg (by simp)]
        exact h1

theorem two_step (ht : Two s) (he : ∀ a, e ≠ .op (.tcreate a)) (h : step s e = some s') : Two s' := by
  obtain ⟨hthreads, hlen⟩ := step_table h he
  have hl := ht.len
  refine ⟨by rw [hlen, hl], by rw [hthreads, ht.threads], ?_, ?_, ht.turns_step he h⟩
  · rw [step_tid h (by rw [hl]; decide), ht.main]
  · rw [step_tid h (by rw [hl]; decide), ht.other]

theorem Alone.tcreate (ha : Alone s) (hu : s.ctl = .user) {a : CreateArgs}
    (htid : a.tid = 2) : Two (tcreate s a) := by
  have hfind : (range MAX_THREADS).find?
      (fun i => available { s with heap := s.heap ++ [a.thread] } i) = some 1 := by
    rw [find?_range_eq_some]
    refine ⟨by simp [available, ha.threads], by simp [MAX_THREADS], fun j hj => ?_⟩
    obtain rfl : j = 0 := by omega
    simp [available, ha.threads, thread, ha.heap, mainThread, ProcState.toNat]
  have hc : Uthread.tcreate s a = { s with
      heap := [mainThread, { a.thread with state := .runnable }],
      threads := update s.threads 1 (some 1) } := by
    rw [Uthread.tcreate, addThreadToTable, hfind]
    simp [setState, setThread, thread, ha.heap]
  have h0 : (Uthread.tcreate s a).thread 0 = mainThread := by rw [hc]; rfl
  have h1 : (Uthread.tcreate s a).thread 1 = { a.thread with state := .runnable } := by rw [hc]; rfl
  refine ⟨by rw [hc]; rfl, by rw [hc, ha.threads], by rw [h0]; rfl, by rw [h1]; exact htid, ?_⟩
  refine .before (by rw [tcreate_current, ha.current]) (by rw [h0]; rfl) (by rw [h1]) ?_
  intro k i r hk
  rw [tcreate_ctl, hu] at hk
  cases hk

theorem Two.tcreate_not_tidsOk (ht : Two s) {a : CreateArgs} (htid : a.tid = 2) : ¬ TidsOk (tcreate s a) := by
  have hl := ht.len
  have h1 : (s.thread 1).state ≠ .unused ∧ ¬ ProcState.exited.toNat < (s.thread 1).state.toNat := by
    cases ht.turns with
    | before _ _ h1 => rw [h1]; decide
    | during _ _ h1 => rw [h1]; decide
    | ending _ _ h1 => rw [h1]; decide
    | after _ _ h1 => rcases h1 with h1 | h1 <;> rw [h1] <;> decide
  have hold : ∀ p : Nat, p < 2 → ({ s with heap := s.heap ++ [a.thread] } : St).thread p = s.thread p :=
    fun p hp => thread_append s _ (by rwa [hl])
  have hslot1 : available { s with heap := s.heap ++ [a.thread] } 1 = false := by
    have : s.threads 1 = some 1 := by rw [ht.threads]; rfl
    simp [available, this, hold 1 (by decide), h1.1, Nat.le_of_not_lt h1.2]
  have hslot2 : available { s with heap := s.heap ++ [a.thread] } 2 = true := by
    have : s.threads 2 = none := by rw [ht.threads]; rfl
    simp [available, this]
  obtain ⟨j, hj, hfind⟩ : ∃ j, (j < MAX_THREADS ∧ j ≠ 1) ∧ (range MAX_THREADS).find?
      (fun i => available { s with heap := s.heap ++ [a.thread] } i) = some j := by
    cases hf : (range MAX_THREADS).find?
        (fun i => available { s with heap := s.heap ++ [a.thread] } i) with
    | none =>
      rw [find?_range_eq_none] at hf
      have := hf 2 (by decide)
      simp [hslot2] at this
    | some j =>
      rw [find?_range_eq_some] at hf
      refine ⟨j, ⟨by simpa using hf.2.1, ?_⟩, rfl⟩
      rintro rfl
      rw [hslot1] at hf
      cases hf.1
  have hthreads : (tcreate s a).threads = update s.threads j (some s.heap.length) := by
    rw [tcreate, addThreadToTable, hfind]
    rfl
  have hnew : ((tcreate s a).thread s.heap.length).tid = 2 := by
    simp only [tcreate, addThreadToTable, hfind]
    rw [setState, thread_setThread, if_pos ⟨rfl, by simp⟩]
    simp [thread, CreateArgs.thread, htid]
  intro hok
  refine hj.2 (hok.distinct j 1 s.heap.length 1 hj.1 (by decide) ?_ ?_ ?_)
  · rw [hthreads, update_self]
  · rw [hthreads, update_of_ne hj.2.symm, ht.threads]
    rfl
  · rw [hnew, tcreate_thread s a (by rw [hl]; decide), ht.other]

/-! ## Runs -/

def Event.isTcreate : Event → Bool
  | .op (.tcreate _) => true
  | _ => false

theorem Event.withTid_of_not_tcreate (he : e.isTcreate = false) (tid : Nat) :
    e.withTid tid = e ∧ ∀ a, e ≠ .op (.tcreate a) := by
  cases e with
  | tau => exact ⟨rfl, by simp⟩
  | op o => cases o <;> simp_all [Event.withTid, Event.isTcreate]

theorem libStep_cases {l l' : Lib} (hc : l.threadCount = 1) (h : libStep l e = some l') : l'.threadCount = 1 ∧
      ((e.isTcreate = false ∧ (∀ a, e ≠ .op (.tcreate a)) ∧ step l.st e = some l'.st) ∨
        ∃ a : CreateArgs, e.isTcreate = true ∧ a.tid = 2 ∧ l.st.ctl = .user ∧ l'.st = tcreate l.st a) := by
  obtain ⟨s, hs, rfl⟩ := Option.map_eq_some_iff.mp h
  refine ⟨hc, ?_⟩
  by_cases he : e.isTcreate = false
  · obtain ⟨h1, h2⟩ := Event.withTid_of_not_tcreate he (newThreadId l.threadCount)
    rw [h1] at hs
    exact .inl ⟨he, h2, hs⟩
  · right
    obtain ⟨a, rfl⟩ : ∃ a, e = .op (.tcreate a) := by
      cases e with
      | tau => simp [Event.isTcreate] at he
      | op o => cases o <;> simp_all [Event.isTcreate]
    simp only [Event.withTid, step] at hs
    split at hs
    · cases hs
      exact ⟨_, rfl, by rw [hc]; rfl, ‹_›, rfl⟩
    · cases hs

theorem Alone.tidsOk (h : Alone s) : TidsOk s := by
  refine .of_distinct fun i j p q _ _ hp hq _ => ?_
  rw [h.threads, update_apply] at hp hq
  split at hp <;> split at hq <;> simp_all

theorem two_run {es : List Event} : ∀ {l l' : Lib}, l.threadCount = 1 → Two l.st → Trans.run libStep l es = some l' →
    (Trans.AllStates libStep (fun l => TidsOk l.st) l es ↔ es.countP Event.isTcreate = 0) := by
  induction es with
  | nil =>
    intro l l' _ ht _
    simpa [Trans.AllStates] using ht.tidsOk
  | cons e es ih =>
    intro l l' hc ht h
    obtain ⟨l1, h1, h2⟩ := Trans.run_cons h
    have hall {Q : Lib → Prop} : (∀ t, libStep l e = some t → Q t) ↔ Q l1 := by simp [h1]
    obtain ⟨hc1, ⟨he, hne, hs⟩ | ⟨a, he, htid, hu, hs⟩⟩ := libStep_cases hc h1
    · have ht1 := two_step ht hne hs
      rw [Trans.AllStates, hall, ih hc1 ht1 h2, countP_cons_of_neg (by simp [he])]
      exact ⟨And.right, fun h => ⟨ht.tidsOk, h⟩⟩
    · rw [Trans.AllStates, hall, countP_cons_of_pos he]
      refine ⟨fun h => absurd ?_ (ht.tcreate_not_tidsOk htid), fun h => by omega⟩
      rw [← hs]
      cases es with
      | nil => exact h.2
      | cons e' es => exact h.2.1

theorem alone_tids {es : List Event} : ∀ {l l' : Lib}, l.threadCount = 1 → Alone l.st →
    Trans.run libStep l es = some l' →
    (Trans.AllStates libStep (fun l => TidsOk l.st) l es ↔ es.countP Event.isTcreate ≤ 1) := by
  induction es with
  | nil =>
    intro l l' _ ha _
    simpa [Trans.AllStates] using ha.tidsOk
  | cons e es ih =>
    intro l l' hc ha h
    obtain ⟨l1, h1, h2⟩ := Trans.run_cons h
    have hall {Q : Lib → Prop} : (∀ t, libStep l e = some t → Q t) ↔ Q l1 := by simp [h1]
    obtain ⟨hc1, ⟨he, hne, hs⟩ | ⟨a, he, htid, hu, hs⟩⟩ := libStep_cases hc h1
    · rw [Trans.AllStates, hall, ih hc1 (alone_keep ha hne hs) h2,
        countP_cons_of_neg (by simp [he])]
      exact ⟨And.right, fun h => ⟨ha.tidsOk, h⟩⟩
    · rw [Trans.AllStates, hall, two_run hc1 (hs ▸ ha.tcreate hu htid) h2,
        countP_cons_of_pos he]
      exact ⟨fun h => by omega, fun h => ⟨ha.tidsOk, by omega⟩⟩

/-- The ids are unique, and identify the threads, in exactly the runs with at most one `tcreate`. -/
theorem tids_iff_one_tcreate (mem : Nat → UInt8) (es : List Event) (l : Lib)
    (hrun : Trans.run libStep (start mem) es = some l) :
    Trans.AllStates libStep (fun l => TidsOk l.st) (start mem) es ↔ es.countP Event.isTcreate ≤ 1 :=
  alone_tids rfl (alone_init mem) hrun

theorem tids_iff_one_tcreate_once :
    Trans.AllStates libStep (fun l => TidsOk l.st) (start fun _ => 0) [.op (.tcreate oneThread)] :=
  (tids_iff_one_tcreate (fun _ => 0) [.op (.tcreate oneThread)] _ rfl).mpr (by decide)

def twoThreads : List Event := [.op (.tcreate oneThread), .op (.tcreate oneThread)]

/-- The second thread, in slot 2, has the id of the first one: its slot cannot be found, and a
`tjoin` for it waits for the other thread. -/
theorem twoThreads_collide : ∃ l, Trans.run libStep (start fun _ => 0) twoThreads = some l ∧ l.st.threads 1 = some 1 ∧
      l.st.threads 2 = some 2 ∧ (l.st.thread 1).tid = 2 ∧ (l.st.thread 2).tid = 2 ∧
      findThreadIndex l.st 2 = 1 ∧ (tjoin l.st (l.st.thread 2).tid 0 0).ctl = .wait 1 0 0 ∧ ¬ TidsOk l.st := by
  obtain ⟨l, hl, h1, h2, h3, h4, h5, h6⟩ : ∃ l ∈ Trans.run libStep (start fun _ => 0) twoThreads,
      l.st.threads 1 = some 1 ∧ l.st.threads 2 = some 2 ∧ (l.st.thread 1).tid = 2 ∧ (l.st.thread 2).tid = 2 ∧
      findThreadIndex l.st 2 = 1 ∧ (tjoin l.st (l.st.thread 2).tid 0 0).ctl = .wait 1 0 0 := by decide +kernel
  refine ⟨l, hl, h1, h2, h3, h4, h5, h6, fun hok => ?_⟩
  have := hok.own_slot 2 2 (by decide) h2
  rw [h5] at this
  cases this

end Uthread
end Xv6
