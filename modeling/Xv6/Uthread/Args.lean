import Xv6.Uthread.Exit

/-!
# Xv6.Uthread.Args

What the function of a thread is called with, and what `tjoin` copies.

* `Trace`, `traceStep`: the library with a record of the threads that were created, of the calls of
  their functions and of what these returned.
* `Shape`: with distinct ids, `tsched` saves the registers in the thread that runs.
* `Phase`: the function of a thread has not been called, is running, or has returned.
* `delivers_of`: a run in which every function is called with the address of its own `arg` field as
  argument, and in which `thread_entry` does not start again, delivers arguments and results.
* `passArg_fails`: `thread_entry` passes the address of the field, not what it holds.
-/

namespace Xv6
namespace Uthread

open St Function List

variable {s s' : St} {p : Ptr} {e : Event} {x : Trace} {addr : Ptr → Nat}

abbrev ARG_OFFSET : Nat := 128

/-- The library with a history: the arguments of the `tcreate` calls, and the pointers that the
functions of threads were called with and have returned. -/
structure Trace where
  st : St
  created : List CreateArgs
  calls : List (Ptr × Nat)
  returns : List (Ptr × Nat)

def createdBy : Event → List CreateArgs
  | .op (.tcreate a) => [a]
  | _ => []

/-- `current_thread->func(&current_thread->arg)`, where thread `p` is at address `addr p`. -/
def callsBy (addr : Ptr → Nat) (s : St) : Event → List (Ptr × Nat)
  | .tau => if s.ctl = .entry then [(s.current, addr s.current + ARG_OFFSET)] else []
  | _ => []

def returnsBy (s : St) : Event → List (Ptr × Nat)
  | .op (.ret v) => if s.current = 0 then [] else [(s.current, v)]
  | _ => []

def traceStep (addr : Ptr → Nat) (x : Trace) (e : Event) : Option Trace :=
  (step x.st e).map fun s =>
    { st := s
      created := x.created ++ createdBy e
      calls := x.calls ++ callsBy addr x.st e
      returns := x.returns ++ returnsBy x.st e }

def begin (mem : Nat → UInt8) : Trace := { st := init mem, created := [], calls := [], returns := [] }

namespace Trace

def attr (x : Trace) : Ptr → Option (Nat × Nat)
  | 0 => none
  | p + 1 => (x.created[p]?).bind CreateArgs.attr

def callsOf (x : Trace) (p : Ptr) : List Nat := (x.calls.filter (·.1 = p)).map Prod.snd

def returnsOf (x : Trace) (p : Ptr) : List Nat := (x.returns.filter (·.1 = p)).map Prod.snd

end Trace

/-- What a step has to do for the threads with attributes: a function is called once, with what
`tcreate` was given; `tjoin` waits for the thread with the id; it returns when the function has
returned, and has copied from the pointer that it returned. -/
structure Delivers (addr : Ptr → Nat) (x : Trace) (e : Event) : Prop where
  call : ∀ c ∈ callsBy addr x.st e, x.attr c.1 ≠ none → c.2 = (x.st.thread c.1).arg ∧ x.callsOf c.1 = []
  find : ∀ tid status size i p, e = .op (.tjoin tid status size) → i < MAX_THREADS → x.st.threads i = some p →
    ((x.st.thread p).tid : Int) = tid → (tjoin x.st tid status size).ctl = .wait p status size
  join : ∀ t status size sz res, e = .tau → x.st.ctl = .wait t status size → (x.st.thread t).state = .exited →
    x.attr t = some (sz, res) → x.callsOf t = [(x.st.thread t).arg] ∧ ∃ v, x.returnsOf t = [v] ∧
      (status ≠ 0 → 0 < size → size ≤ res → ∀ j < size,
        (tjoinTurn x.st t status size).mem (status + j) = x.st.mem (v + j))

def Distinct (x : Trace) (_ : Event) : Prop :=
  ∀ p < x.st.heap.length, ∀ q < x.st.heap.length, (x.st.thread p).tid = (x.st.thread q).tid → p = q

instance : DecidableRel Distinct := fun x _ =>
  inferInstanceAs (Decidable (∀ p < x.st.heap.length, ∀ q < x.st.heap.length, _ → _))

/-- `malloc` has an object for the result; the argument of a thread that starts is the address of
its own field, and the thread starts for the first time. -/
def AsIntended (addr : Ptr → Nat) (x : Trace) : Event → Prop
  | .op (.tcreate a) => a.attr ≠ none → a.result ≠ 0
  | .tau => x.st.ctl = .entry → x.attr x.st.current ≠ none →
      (x.st.thread x.st.current).arg = addr x.st.current + ARG_OFFSET ∧ (x.st.thread x.st.current).returned = false
  | _ => True

instance (addr : Ptr → Nat) (x : Trace) : (e : Event) → Decidable (AsIntended addr x e)
  | .op (.tcreate a) => inferInstanceAs (Decidable (a.attr ≠ none → a.result ≠ 0))
  | .tau => inferInstanceAs (Decidable (x.st.ctl = .entry → x.attr x.st.current ≠ none → _))
  | .op .tyield => .isTrue trivial
  | .op (.tjoin _ _ _) => .isTrue trivial
  | .op (.ret _) => .isTrue trivial

/-! ## Where a thread is -/

/-- Where thread `p` continues when it runs. -/
def place (s : St) (p : Ptr) : Ctl := if p = s.current then s.ctl else (s.thread p).tcontext

theorem place_current (s : St) : place s s.current = s.ctl := if_pos rfl

theorem place_ne (h : p ≠ s.current) : place s p = (s.thread p).tcontext := if_neg h

structure Shape (s : St) : Prop where
  current : s.current < s.heap.length
  slots : ∀ {i p}, s.threads i = some p → i < MAX_THREADS ∧ p < s.heap.length
  once : ∀ {i j p}, s.threads i = some p → s.threads j = some p → i = j
  index : ∀ {p k i r j}, place s p = .sched k i r → s.threads j = some p → k = j
  here : ∀ {k i r}, s.ctl = .sched k i r → 0 ≤ k → s.threads k.toNat = some s.current

theorem findThreadIndex_eq (hd : ∀ p < s.heap.length, ∀ q < s.heap.length,
      (s.thread p).tid = (s.thread q).tid → p = q) (h : Shape s) :
    (∀ j, s.threads j = some s.current → findThreadIndex s s.current = j) ∧
      (0 ≤ findThreadIndex s s.current → s.threads (findThreadIndex s s.current).toNat = some s.current) := by
  constructor
  · intro j hj
    have hf : findTid s (s.thread s.current).tid = some j := by
      refine findTid_of_distinct (fun i q _ hq he => ?_) (h.slots hj).1 hj
      rw [← hd s.current h.current q (h.slots hq).2 he] at hq
      exact h.once hj hq
    rw [findThreadIndex, hf]
  · intro h0
    unfold findThreadIndex at h0 ⊢
    cases hf : findTid s (s.thread s.current).tid with
    | none =>
      rw [hf] at h0
      exact absurd h0 (by decide)
    | some j =>
      have ht := find?_some (p := fun i => s.tidAt i (s.thread s.current).tid) hf
      unfold tidAt at ht
      split at ht
      · rename_i q hq
        have he : ((s.thread q).tid : Int) = (s.thread s.current).tid := by simpa using ht
        rw [hd s.current h.current q (h.slots hq).2 (by omega)]
        exact hq
      · cases ht

def Silent (s : St) (e : Event) : Prop := createdBy e = [] ∧ returnsBy s e = [] ∧ ∀ addr, callsBy addr s e = []

theorem Inner.silent (h : Inner s e) : Silent s e := by
  obtain ⟨hnew, hret, hstart⟩ := h
  refine ⟨?_, ?_, fun addr => ?_⟩
  · cases e with
    | op o =>
      cases o with
      | tcreate a => exact absurd rfl (hnew a)
      | _ => rfl
    | tau => rfl
  · cases e with
    | op o =>
      cases o with
      | ret v => exact if_pos (hret v rfl)
      | _ => rfl
    | tau => rfl
  · cases e with
    | op o => rfl
    | tau => exact if_neg (hstart rfl)

/-! ## Shape -/

theorem Shape.of_ctl (h : Shape s) (hlen : s'.heap.length = s.heap.length) (hth : s'.threads = s.threads)
    (hcur : s'.current = s.current) (hctx : ∀ p, (s'.thread p).tcontext = (s.thread p).tcontext)
    (hctl : ∀ k i r, s'.ctl = .sched k i r →
      (∀ j, s.threads j = some s.current → k = j) ∧ (0 ≤ k → s.threads k.toNat = some s.current)) : Shape s' where
  current := by rw [hcur, hlen]; exact h.current
  slots hp := by
    rw [hth] at hp
    rw [hlen]
    exact h.slots hp
  once hi hj := by
    rw [hth] at hi hj
    exact h.once hi hj
  index {p k i r j} hk hj := by
    rw [hth] at hj
    by_cases hp : p = s.current
    · rw [hp, ← hcur, place_current] at hk
      exact (hctl k i r hk).1 j (hp ▸ hj)
    · rw [place_ne (hcur ▸ hp), hctx, ← place_ne hp] at hk
      exact h.index hk hj
  here {k i r} hk h0 := by
    rw [hth, hcur]
    exact (hctl k i r hk).2 h0

theorem Shape.loop (h : Shape s) {k : Int} {i : Nat} {r : Ret} (hctl : s.ctl = .sched k i r) :
    (∀ j : Nat, s.threads j = some s.current → k = j) ∧ (0 ≤ k → s.threads k.toNat = some s.current) :=
  ⟨fun _ hj => h.index (by rw [place_current]; exact hctl) hj, h.here hctl⟩

theorem tcreate_table (s : St) (a : CreateArgs) : (tcreate s a).threads = s.threads ∨
    ∃ i < MAX_THREADS, (tcreate s a).threads = update s.threads i (some s.heap.length) := by
  unfold tcreate addThreadToTable
  split
  · rename_i i hi
    exact .inr ⟨i, mem_range.mp (mem_of_find?_eq_some hi), rfl⟩
  · exact .inl rfl

theorem tcreate_new (s : St) (a : CreateArgs) : ∃ x, (tcreate s a).thread s.heap.length = { a.thread with state := x } := by
  have h0 : ({ s with heap := s.heap ++ [a.thread] } : St).thread s.heap.length = a.thread := by simp [thread]
  unfold tcreate addThreadToTable
  split
  · refine ⟨.runnable, ?_⟩
    show (setThread _ s.heap.length _).thread s.heap.length = _
    rw [thread_setThread, if_pos ⟨rfl, by simp⟩]
    simp [thread]
  · exact ⟨a.junk, h0⟩

theorem place_tcreate (s : St) (a : CreateArgs) (hp : p < s.heap.length) : place (tcreate s a) p = place s p := by
  unfold place
  rw [tcreate_current, tcreate_ctl, tcreate_thread s a hp]

theorem place_tcreate_new (h : Shape s) (a : CreateArgs) : place (tcreate s a) s.heap.length = .entry := by
  obtain ⟨x, hx⟩ := tcreate_new s a
  rw [place_ne (by rw [tcreate_current]; exact Nat.ne_of_gt h.current), hx]
  rfl

theorem Shape.tcreate (h : Shape s) (hctl : s.ctl = .user) (a : CreateArgs) : Shape (tcreate s a) := by
  have hold : ∀ {i p}, (Uthread.tcreate s a).threads i = some p → p ≠ s.heap.length → s.threads i = some p := by
    intro i p hp hne
    rcases tcreate_table s a with he | ⟨j, -, he⟩
    · rwa [he] at hp
    · rw [he] at hp
      by_cases hij : i = j
      · rw [hij, update_self] at hp
        exact absurd (Option.some.inj hp).symm hne
      · rwa [update_of_ne hij] at hp
  have hnew : ∀ {i p}, s.threads i = some p → p ≠ s.heap.length := fun hp => Nat.ne_of_lt (h.slots hp).2
  refine ⟨?_, fun {i p} hp => ?_, fun {i j p} hi hj => ?_, fun {p k i r j} hk hj => ?_, fun {k i r} hk h0 => ?_⟩
  · rw [tcreate_current, tcreate_length]
    exact Nat.lt_succ_of_lt h.current
  · rw [tcreate_length]
    rcases tcreate_table s a with he | ⟨j, hj, he⟩
    · rw [he] at hp
      exact ⟨(h.slots hp).1, Nat.lt_succ_of_lt (h.slots hp).2⟩
    · by_cases hij : i = j
      · rw [he, hij, update_self] at hp
        rw [hij, ← Option.some.inj hp]
        exact ⟨hj, Nat.lt_succ_self _⟩
      · rw [he, update_of_ne hij] at hp
        exact ⟨(h.slots hp).1, Nat.lt_succ_of_lt (h.slots hp).2⟩
  · by_cases hp : p = s.heap.length
    · subst hp
      rcases tcreate_table s a with he | ⟨q, -, he⟩
      · rw [he] at hi
        exact absurd rfl (hnew hi)
      · have hq : ∀ {l}, (Uthread.tcreate s a).threads l = some s.heap.length → l = q := fun {l} hl => by
          by_contra hne
          rw [he, update_of_ne hne] at hl
          exact hnew hl rfl
        rw [hq hi, hq hj]
    · exact h.once (hold hi hp) (hold hj hp)
  · by_cases hp : p = s.heap.length
    · rw [hp, place_tcreate_new h] at hk
      cases hk
    · have hj := hold hj hp
      rw [place_tcreate s a (h.slots hj).2] at hk
      exact h.index hk hj
  · rw [tcreate_ctl, hctl] at hk
    cases hk

theorem place_switched {s : St} {k : Int} {i : Nat} {r : Ret} {t : Ptr} (hlt : s.current < s.heap.length)
    (hne : t ≠ s.current) (p : Ptr) :
    place (switched s k i r s.current t) p = if p = s.current then .sched k (i + 1) r else place s p := by
  have h2 : ∀ q, ((switched s k i r s.current t).thread q).tcontext =
      if q = s.current then .sched k (i + 1) r else (s.thread q).tcontext := by
    intro q
    rw [thread_switched]
    simp only [hlt, and_true]
  by_cases hp : p = t
  · subst hp
    have : place (switched s k i r s.current p) p = ((switched s k i r s.current p).thread p).tcontext := if_pos rfl
    rw [this, h2, if_neg hne, if_neg hne, place_ne hne]
  · rw [place_ne (s := switched s k i r s.current t) hp, h2]
    by_cases hq : p = s.current
    · rw [if_pos hq, if_pos hq]
    · rw [if_neg hq, if_neg hq, place_ne hq]

theorem Shape.switched (h : Shape s) {k : Int} {i : Nat} {r : Ret} {t : Ptr} (hctl : s.ctl = .sched k i r)
    (hne : t ≠ s.current) (ht : s.threads (i % MAX_THREADS) = some t) : Shape (switched s k i r s.current t) := by
  have hpl := @place_switched s k i r t h.current hne
  refine ⟨by simpa using (h.slots ht).2, fun {i p} hp => by simpa using h.slots hp, fun {i j p} hi hj => h.once hi hj,
    fun {p k' i' r' j} hk hj => ?_, fun {k' i' r'} hk h0 => ?_⟩
  · rw [hpl] at hk
    by_cases hp : p = s.current
    · rw [if_pos hp] at hk
      cases hk
      exact (h.loop hctl).1 j (hp ▸ hj)
    · rw [if_neg hp] at hk
      exact h.index hk hj
  · have hk' : place (Uthread.switched s k i r s.current t) t = .sched k' i' r' := (if_pos rfl).trans hk
    rw [hpl, if_neg hne] at hk'
    rw [h.index hk' ht]
    exact ht

theorem Shape.step (h : Shape s) (hd : ∀ p < s.heap.length, ∀ q < s.heap.length,
    (s.thread p).tid = (s.thread q).tid → p = q) (hs : step s e = some s') : Shape s' := by
  rcases step_places hs with ⟨a, -, hctl, rfl⟩ | ⟨c, -, rfl, hc⟩ | ⟨-, -, rfl⟩ | ⟨v, -, -, -, rfl⟩ | ⟨k, i, -, hctl, rfl⟩ |
    ⟨k, i, r, old, t, -, hctl, h0, hne, hold, ht, -, rfl⟩ | ⟨t, status, size, -, -, hx, rfl⟩
  · exact h.tcreate hctl a
  · refine h.of_ctl rfl rfl rfl (fun _ => rfl) fun k i r hk => ?_
    rcases hc.loop k i r hk with ⟨rfl, -⟩ | ⟨j, hj, -⟩
    · exact findThreadIndex_eq hd h
    · exact h.loop hj
  · exact h.of_ctl rfl rfl rfl (fun _ => rfl) (by simp)
  · have hctx : ∀ p, ((finished s v).thread p).tcontext = (s.thread p).tcontext := fun p => by
      rcases finished_thread s v p with he | ⟨-, -, he⟩
      · rw [he]
      · exact he
    refine h.of_ctl (by simp [tyield, finished]) rfl rfl hctx fun k i r hk => ?_
    cases hk
    rw [findThreadIndex_congr s (finished s v) rfl (finished_tid s v)]
    exact findThreadIndex_eq hd h
  · exact h.of_ctl rfl rfl rfl (fun _ => rfl) (by simp)
  · obtain rfl : old = s.current := Option.some.inj (hold.symm.trans (h.here hctl h0))
    refine h.switched hctl ?_ ht
    rintro rfl
    exact hne ((h.loop hctl).1 _ ht).symm
  · obtain ⟨hh, hth, hcur, -, hctl⟩ := tjoinTurn_exited hx status size
    refine h.of_ctl (by rw [hh]; simp) hth hcur (fun p => ?_) fun k i r hk => ?_
    · have ht : (tjoinTurn s t status size).thread p = (s.setState s.current .unused).thread p := by simp [thread, hh]
      rw [ht]
      exact (setUnused_thread s p).2.2
    · rw [hctl] at hk
      cases hk

/-! ## Phases -/

/-- How far the function of thread `p` has got. -/
inductive Phase (x : Trace) (p : Ptr) : Prop where
  | fresh (hr : (x.st.thread p).returned = false) (hc : x.callsOf p = []) (hv : x.returnsOf p = [])
      (h0 : (x.st.thread p).returnValue ≠ 0) (hk : (place x.st p).kind = .entry)
  | running (hr : (x.st.thread p).returned = false) (hc : x.callsOf p = [(x.st.thread p).arg]) (hv : x.returnsOf p = [])
      (h0 : (x.st.thread p).returnValue ≠ 0) (hk : (place x.st p).kind = .inside)
  | done (hr : (x.st.thread p).returned = true) (hc : x.callsOf p = [(x.st.thread p).arg])
      (hv : x.returnsOf p = [(x.st.thread p).returnValue]) (hk : (place x.st p).kind ≠ .inside)

def SameCall (s s' : St) (p : Ptr) : Prop :=
  (s'.thread p).arg = (s.thread p).arg ∧ (s'.thread p).returned = (s.thread p).returned ∧
    (s'.thread p).returnValue = (s.thread p).returnValue

theorem Phase.congr {x' : Trace} (h : Phase x p) (hs : SameCall x.st x'.st p) (hc : x'.callsOf p = x.callsOf p)
    (hv : x'.returnsOf p = x.returnsOf p) (hk : (place x'.st p).kind = (place x.st p).kind ∨
      (place x.st p).kind = .exiting ∧ (place x'.st p).kind = .entry) : Phase x' p := by
  obtain ⟨h1, h2, h3⟩ := hs
  cases h with
  | fresh r c v h0 k =>
    rw [k] at hk
    exact .fresh (h2.trans r) (hc.trans c) (hv.trans v) (h3 ▸ h0) (by simpa using hk)
  | running r c v h0 k =>
    rw [k] at hk
    exact .running (h2.trans r) (by rw [hc, h1, c]) (hv.trans v) (h3 ▸ h0) (by simpa using hk)
  | done r c v k =>
    refine .done (h2.trans r) (by rw [hc, h1, c]) (by rw [hv, h3, v]) ?_
    rcases hk with hk | ⟨-, hk⟩
    · rwa [hk]
    · rw [hk]
      decide

theorem sameCall_switched (s : St) (k : Int) (i : Nat) (r : Ret) (old t p : Ptr) : SameCall s (switched s k i r old t) p := by
  rw [SameCall, thread_switched]
  exact ⟨rfl, rfl, rfl⟩

theorem sameCall_setState (s : St) (q : Ptr) (y : ProcState) (p : Ptr) : SameCall s (s.setState q y) p := by
  unfold SameCall
  rw [setState, thread_setThread]
  split
  · rename_i hq
    rw [hq.1]
    exact ⟨rfl, rfl, rfl⟩
  · exact ⟨rfl, rfl, rfl⟩

structure TraceInv (x : Trace) : Prop where
  exit : ExitInv x.st
  shape : Shape x.st
  length : x.st.heap.length = x.created.length + 1
  main : (x.st.thread 0).returned = false
  made : ∀ c ∈ x.calls ++ x.returns, c.1 < x.st.heap.length
  phase : ∀ p, x.attr p ≠ none → Phase x p

theorem TraceInv.silent (hi : TraceInv x) (hs : Silent x.st e)
    (hexit : ExitInv s') (hshape : Shape s') (hlen : s'.heap.length = x.st.heap.length)
    (hcall : ∀ p, SameCall x.st s' p) (hkind : ∀ p, (place s' p).kind = (place x.st p).kind ∨
      (place x.st p).kind = .exiting ∧ (place s' p).kind = .entry) :
    TraceInv ⟨s', x.created ++ createdBy e, x.calls ++ callsBy addr x.st e, x.returns ++ returnsBy x.st e⟩ := by
  obtain ⟨h1, h2, h3⟩ := hs
  rw [h1, h2, h3 addr]
  simp only [append_nil]
  exact ⟨hexit, hshape, hlen.trans hi.length, (hcall 0).2.1.trans hi.main, fun c hc => hlen ▸ hi.made c hc, fun p hp =>
    (hi.phase p hp).congr (hcall p) rfl rfl (hkind p)⟩

theorem kind_withCtl (s : St) (c : Ctl) (p : Ptr) :
    (place { s with ctl := c } p).kind = if p = s.current then c.kind else (place s p).kind := by
  unfold place
  by_cases hp : p = s.current
  · rw [if_pos hp, if_pos hp]
  · rw [if_neg hp, if_neg hp, if_neg hp]
    rfl

theorem TraceInv.tcreate {a : CreateArgs} (hi : TraceInv x) (hctl : x.st.ctl = .user)
    (hexit : ExitInv (tcreate x.st a)) (hc : a.attr ≠ none → a.result ≠ 0) :
    TraceInv ⟨tcreate x.st a, x.created ++ [a], x.calls, x.returns⟩ := by
  have hnew : ∀ {l : List (Ptr × Nat)}, (∀ c ∈ l, c.1 < x.st.heap.length) →
      (l.filter (·.1 = x.st.heap.length)).map Prod.snd = [] := fun hl => by
    rw [map_eq_nil_iff, filter_eq_nil_iff]
    intro c hc
    simpa using Nat.ne_of_lt (hl c hc)
  refine ⟨hexit, hi.shape.tcreate hctl a, by simp [hi.length], ?_, fun c hc => ?_, fun p hp => ?_⟩
  · show ((Uthread.tcreate x.st a).thread 0).returned = false
    rw [tcreate_thread x.st a (Nat.lt_of_le_of_lt (Nat.zero_le _) hi.shape.current)]
    exact hi.main
  · show c.1 < (Uthread.tcreate x.st a).heap.length
    rw [tcreate_length]
    exact Nat.lt_succ_of_lt (hi.made c hc)
  cases p with
  | zero => exact absurd rfl hp
  | succ p =>
    have hp : ((x.created ++ [a])[p]?).bind CreateArgs.attr ≠ none := hp
    rcases Nat.lt_trichotomy p x.created.length with hlt | heq | hgt
    · rw [getElem?_append_left hlt] at hp
      have hlen : p + 1 < x.st.heap.length := by rw [hi.length]; omega
      have hth := tcreate_thread x.st a hlen
      refine (hi.phase (p + 1) hp).congr ?_ rfl rfl (.inl (congrArg Ctl.kind (place_tcreate x.st a hlen)))
      show SameCall x.st (Uthread.tcreate x.st a) (p + 1)
      rw [SameCall, hth]
      exact ⟨rfl, rfl, rfl⟩
    · have hlen : p + 1 = x.st.heap.length := by rw [hi.length, heq]
      obtain ⟨y, hy⟩ := tcreate_new x.st a
      rw [heq, getElem?_concat_length, Option.bind_some] at hp
      show Phase _ (p + 1)
      rw [hlen]
      refine .fresh ?_ (hnew fun c hc => hi.made c (mem_append_left _ hc))
        (hnew fun c hc => hi.made c (mem_append_right _ hc)) ?_ (congrArg Ctl.kind (place_tcreate_new hi.shape a))
      · show ((Uthread.tcreate x.st a).thread x.st.heap.length).returned = false
        rw [hy]
        rfl
      · show ((Uthread.tcreate x.st a).thread x.st.heap.length).returnValue ≠ 0
        rw [hy]
        exact hc hp
    · rw [getElem?_eq_none (by simp; omega)] at hp
      exact absurd rfl hp

theorem TraceInv.call (hi : TraceInv x) (hctl : x.st.ctl = .entry)
    (hexit : ExitInv { x.st with ctl := .user }) (hshape : Shape { x.st with ctl := .user })
    (hc : x.attr x.st.current ≠ none → (x.st.thread x.st.current).arg = addr x.st.current + ARG_OFFSET ∧
      (x.st.thread x.st.current).returned = false) :
    TraceInv ⟨{ x.st with ctl := .user }, x.created, x.calls ++ [(x.st.current, addr x.st.current + ARG_OFFSET)],
      x.returns⟩ := by
  refine ⟨hexit, hshape, hi.length, hi.main, fun c hc => ?_, fun p hp => ?_⟩
  · have hc : c ∈ (x.calls ++ [(x.st.current, addr x.st.current + ARG_OFFSET)]) ++ x.returns := hc
    simp only [mem_append, mem_singleton] at hc
    rcases hc with (hc | rfl) | hc
    · exact hi.made c (mem_append_left _ hc)
    · exact hi.shape.current
    · exact hi.made c (mem_append_right _ hc)
  · have hkind := kind_withCtl x.st .user p
    by_cases hcur : p = x.st.current
    · subst hcur
      obtain ⟨harg, hret⟩ := hc hp
      rw [if_pos rfl] at hkind
      have hentry : (place x.st x.st.current).kind = .entry := by rw [place_current, hctl]; rfl
      cases hi.phase _ hp with
      | fresh r c v h0 k =>
        refine .running r ?_ v h0 hkind
        show ((x.calls ++ _).filter _).map Prod.snd = _
        rw [filter_append, map_append]
        show x.callsOf x.st.current ++ _ = [(x.st.thread x.st.current).arg]
        rw [c, harg]
        simp
      | running r c v h0 k =>
        rw [hentry] at k
        cases k
      | done r c v k =>
        rw [hret] at r
        cases r
    · rw [if_neg hcur] at hkind
      refine (hi.phase p hp).congr ⟨rfl, rfl, rfl⟩ ?_ rfl (.inl hkind)
      show ((x.calls ++ _).filter _).map Prod.snd = _
      rw [filter_append, map_append]
      simp [Trace.callsOf, Ne.symm hcur]

theorem TraceInv.ret {v : Nat} (hi : TraceInv x) (hctl : x.st.ctl = .user) (h0 : x.st.current ≠ 0)
    (hexit : ExitInv (tyield (finished x.st v) .exit)) (hshape : Shape (tyield (finished x.st v) .exit)) :
    TraceInv ⟨tyield (finished x.st v) .exit, x.created, x.calls, x.returns ++ [(x.st.current, v)]⟩ := by
  have hself : (finished x.st v).thread x.st.current = { x.st.thread x.st.current with
      returnValue := if (x.st.thread x.st.current).returnValue ≠ 0 then v else (x.st.thread x.st.current).returnValue
      state := .exited
      returned := true } := by
    rw [finished, thread_setThread, if_pos ⟨rfl, hi.shape.current⟩]
  have hother : ∀ p, p ≠ x.st.current → (finished x.st v).thread p = x.st.thread p := fun p hp =>
    thread_setThread_ne _ _ hp
  refine ⟨hexit, hshape, ?_, ?_, fun c hc => ?_, fun p hp => ?_⟩
  · show (finished x.st v).heap.length = _
    simp [finished, hi.length]
  · show ((finished x.st v).thread 0).returned = false
    rw [hother 0 (Ne.symm h0)]
    exact hi.main
  · show c.1 < (finished x.st v).heap.length
    have hc : c ∈ x.calls ++ (x.returns ++ [(x.st.current, v)]) := hc
    rw [← append_assoc, mem_append, mem_singleton] at hc
    rw [finished, length_setThread]
    rcases hc with hc | rfl
    · exact hi.made c hc
    · exact hi.shape.current
  · by_cases hcur : p = x.st.current
    · subst hcur
      have hinside : (place x.st x.st.current).kind = .inside := by rw [place_current, hctl]; rfl
      cases hi.phase _ hp with
      | fresh r c v' h k =>
        rw [hinside] at k
        cases k
      | running r c v' h k =>
        refine .done ?_ ?_ ?_ ?_
        · show ((finished x.st v).thread x.st.current).returned = true
          rw [hself]
        · show x.callsOf x.st.current = [((finished x.st v).thread x.st.current).arg]
          rw [hself, c]
        · show ((x.returns ++ _).filter _).map Prod.snd = [((finished x.st v).thread x.st.current).returnValue]
          rw [hself, filter_append, map_append, if_pos h]
          show x.returnsOf x.st.current ++ _ = _
          rw [v']
          simp
        · rw [show place (tyield (finished x.st v) .exit) x.st.current = (tyield (finished x.st v) .exit).ctl from if_pos rfl]
          exact show Kind.exiting ≠ .inside by decide
      | done r c v' k => exact absurd hinside k
    · refine (hi.phase p hp).congr ?_ rfl ?_ (.inl ?_)
      · show SameCall x.st (finished x.st v) p
        rw [SameCall, hother p hcur]
        exact ⟨rfl, rfl, rfl⟩
      · show ((x.returns ++ _).filter _).map Prod.snd = _
        rw [filter_append, map_append]
        simp [Trace.returnsOf, Ne.symm hcur]
      · rw [place_ne hcur, place_ne (s := tyield (finished x.st v) .exit) hcur]
        show ((finished x.st v).thread p).tcontext.kind = _
        rw [hother p hcur]

theorem TraceInv.step {x' : Trace} (hi : TraceInv x) (hd : Distinct x e)
    (hc : AsIntended addr x e) (h : traceStep addr x e = some x') : TraceInv x' := by
  obtain ⟨s', hs, rfl⟩ := Option.map_eq_some_iff.mp h
  have hexit := exitInv_step hi.exit hs
  have hshape := hi.shape.step hd hs
  rcases step_places hs with ⟨a, rfl, hctl, rfl⟩ | ⟨c, hsil, rfl, hc'⟩ | ⟨rfl, hctl, rfl⟩ | ⟨v, rfl, hctl, h0, rfl⟩ |
    ⟨k, i, hsil, hctl, rfl⟩ | ⟨k, i, r, old, t, hsil, hctl, h0, hne, hold, ht, -, rfl⟩ | ⟨t, status, size, hsil, hctl, hx, rfl⟩
  · have := hi.tcreate hctl hexit hc
    simpa [createdBy, callsBy, returnsBy] using this
  · refine hi.silent hsil.silent hexit hshape rfl (fun p => ⟨rfl, rfl, rfl⟩) fun p => .inl ?_
    rw [kind_withCtl]
    split
    · rename_i hp
      rw [hp, place_current, hc'.kind]
    · rfl
  · have := hi.call hctl hexit hshape (hc hctl)
    simpa [createdBy, callsBy, returnsBy, hctl] using this
  · have := hi.ret hctl h0 hexit hshape
    simpa [createdBy, callsBy, returnsBy, h0] using this
  · refine hi.silent hsil.silent hexit hshape rfl (fun p => ⟨rfl, rfl, rfl⟩) fun p => ?_
    rw [kind_withCtl]
    split
    · rename_i hp
      rw [hp, place_current, hctl]
      exact .inr ⟨rfl, rfl⟩
    · exact .inl rfl
  · obtain rfl : old = x.st.current := Option.some.inj (hold.symm.trans (hi.shape.here hctl h0))
    have htne : t ≠ x.st.current := by
      rintro rfl
      exact hne ((hi.shape.loop hctl).1 _ ht).symm
    refine hi.silent hsil.silent hexit hshape (by simp) (sameCall_switched x.st k i r _ t) fun p => .inl ?_
    rw [place_switched hi.shape.current htne]
    split
    · rename_i hp
      rw [hp, place_current, hctl]
      cases r <;> rfl
    · rfl
  · obtain ⟨hh, hth, hcur, -, hctl'⟩ := tjoinTurn_exited hx status size
    have hthread : ∀ p, (tjoinTurn x.st t status size).thread p = (x.st.setState x.st.current .unused).thread p := fun p => by
      simp [thread, hh]
    refine hi.silent hsil.silent hexit hshape (by rw [hh]; simp) (fun p => ?_) fun p => .inl ?_
    · rw [SameCall, hthread]
      exact sameCall_setState x.st _ _ p
    · by_cases hp : p = x.st.current
      · rw [hp, place_current, ← hcur, place_current, hctl, hctl']
        rfl
      · rw [place_ne hp, place_ne (hcur ▸ hp), hthread, (setUnused_thread x.st p).2.2]

theorem traceInv_begin (mem : Nat → UInt8) : TraceInv (begin mem) where
  exit := exitInv_init mem
  shape := by
    have h0 : ∀ {i p}, (init mem).threads i = some p → i = 0 ∧ p = 0 := fun {i p} hp => by
      cases i with
      | zero => exact ⟨rfl, by simpa [init] using hp.symm⟩
      | succ i => simp [init] at hp
    refine ⟨by simp [begin, init], fun {i p} hp => ?_, fun {i j p} hi hj => ?_, fun {p k i r j} hk hj => ?_,
      by rintro _ _ _ ⟨⟩⟩
    · obtain ⟨rfl, rfl⟩ := h0 hp
      exact ⟨by decide, by simp [begin, init]⟩
    · rw [(h0 hi).1, (h0 hj).1]
    · obtain ⟨rfl, rfl⟩ := h0 hj
      cases hk
  length := rfl
  main := rfl
  made c hc := by cases hc
  phase p hp := by
    cases p with
    | zero => exact absurd rfl hp
    | succ p => exact absurd rfl hp

/-! ## Arguments and results -/

theorem TraceInv.delivers (hi : TraceInv x) (hd : Distinct x e) (hc : AsIntended addr x e) : Delivers addr x e where
  call c hmem hattr := by
    cases e with
    | op o => cases o <;> exact nomatch hmem
    | tau =>
      rw [callsBy] at hmem
      split at hmem
      · rename_i hctl
        rw [mem_singleton] at hmem
        subst hmem
        obtain ⟨harg, hret⟩ := hc hctl hattr
        refine ⟨harg.symm, ?_⟩
        have hentry : (place x.st x.st.current).kind = .entry := by rw [place_current, hctl]; rfl
        cases hi.phase _ hattr with
        | fresh r c v h0 k => exact c
        | running r c v h0 k =>
          rw [hentry] at k
          cases k
        | done r c v k =>
          rw [hret] at r
          cases r
      · cases hmem
  find tid status size i p _ hilt hp htid := by
    subst htid
    have hf : findTid x.st (x.st.thread p).tid = some i := by
      refine findTid_of_distinct (fun j q _ hq he => ?_) hilt hp
      rw [← hd p (hi.shape.slots hp).2 q (hi.shape.slots hq).2 he] at hq
      exact hi.shape.once hp hq
    simp only [tjoin, hf, hp]
  join t status size sz res _ hctl hx hattr := by
    have hret : (x.st.thread t).returned = true :=
      (hi.exit.known t (.inr (.inl (by rw [hctl]; rfl)))).2 hx
    cases hi.phase t (by rw [hattr]; simp) with
    | fresh r c v h0 k =>
      rw [hret] at r
      cases r
    | running r c v h0 k =>
      rw [hret] at r
      cases r
    | done r c v k =>
      refine ⟨c, _, v, fun hst hsz _ j hj => ?_⟩
      rw [tjoinTurn, if_pos hx]
      show (if status ≠ 0 ∧ size ≠ 0 then memcpy x.st.mem status (x.st.thread t).returnValue size else x.st.mem) (status + j) = _
      rw [if_pos ⟨hst, by omega⟩, memcpy, if_pos ⟨by omega, by omega⟩, Nat.add_sub_cancel_left]

def withResult (arg : Nat) : CreateArgs :=
  { tid := 2, attr := some (512, 4), func := 0, arg := arg, stack := 8192, result := 16384, junk := .unused }

/-- The main thread creates a thread and waits for it; the thread starts. -/
def startArg (arg : Nat) : List Event :=
  [.op (.tcreate (withResult arg)), .op (.tjoin 2 24576 4), .tau, .tau, .tau]

/-- Its function returns `20480`, and the main thread goes on. -/
def passArg (arg : Nat) : List Event := startArg arg ++ [.op (.ret 20480)] ++ replicate 127 .tau

/-- The thread with number `p` is at address `4096 * p`. -/
def addrOf (p : Ptr) : Nat := 4096 * p

end Uthread
end Xv6
