import Xv6.Sched.Steps

/-!
# Xv6.Sched.Sleep

`sleep` and `wakeup`. The calls of both are numbered by the counters of the state, so that a state says
which call of `sleep` a process sleeps in, and which call of `wakeup` a process is in.

* `DueOn`: a process sleeps on a channel or is about to, and a call of `wakeup` on the channel has to look
  at it. `dueOn_step`: it comes there only by a step of its own, in which it releases its lock;
  `turns_step`: a turn of `wakeup` ends it.
* `wakeup_not_lost`: a call of `wakeup` that begins after a call of `sleep` on its channel has released
  its lock returns with the caller of `sleep` awake, and changes no other processes.
-/

namespace Xv6
namespace Sched

open State Function Trans

section

variable {C L : Type}

/-- Behind `release(lk)` in call number `n` of `sleep` by `p`, or after this call. -/
def Released (s : State C L) (p : Slot) (n : Nat) : Prop :=
  n < s.sleeps p ∨ s.sleeps p = n ∧ ∀ ch lk k, s.thread p ≠ .sleep0 ch lk k ∧ s.thread p ≠ .sleep1 ch lk k

/-- `p` is SLEEPING on `ch`, from call number `n` of `sleep`. -/
def Asleep (s : State C L) (p : Slot) (ch : Chan C) (n : Nat) : Prop :=
  s.sleeps p = n ∧ (s.proc p).state = .sleeping ∧ (s.proc p).chan = some ch

def DueOn (s : State C L) (p : Slot) (ch : Chan C) : Prop :=
  (s.proc p).state = .sleeping ∧ (s.proc p).chan = some ch ∨ ∃ lk k, s.thread p = .sleep2 ch lk k

def Frame (s s' : State C L) (q : Slot) : Prop :=
  s'.sleeps q = s.sleeps q ∧ s'.wakeups q = s.wakeups q ∧
    (s'.thread q = s.thread q ∨ s'.thread q = .forkret ∧ ∃ p, s.thread p = .forkBuild q) ∧
    ((s'.proc q).state = .sleeping → (s.proc q).state = .sleeping ∧ (s'.proc q).chan = (s.proc q).chan)

def Thread.turn : Thread C L → Option (Option (Chan C) × Nat)
  | .wakeup ch i _ | .yielded (.wakeup ch i _) => some (ch, i)
  | _ => none

end

attribute [local simp] setProc setLock setSpin setThread setMode setCur setState

section Steps

variable {C L : Type} [DecidableEq C] [DecidableEq L] {s s' : State C L} {c : Cpu} {p q : Slot} {k : Loop}
  {t : Thread C L}

omit [DecidableEq C] [DecidableEq L] in
theorem frame_schedStep (hs : schedStep s c k = some s') : Frame s s' q := by
  have hsame : ∀ {s' : State C L}, s'.sleeps = s.sleeps → s'.wakeups = s.wakeups → s'.thread = s.thread →
      s'.proc = s.proc → Frame s s' q :=
    fun h1 h2 h3 h4 => ⟨by rw [h1], by rw [h2], .inl (by rw [h3]), fun h => ⟨h4 ▸ h, by rw [h4]⟩⟩
  have hdisp : ∀ i k', Frame s (dispatch s c i k') q := by
    intro i k'
    refine ⟨rfl, rfl, .inl rfl, fun h => ?_⟩
    by_cases hq : q = i
    · simp [dispatch, hq] at h
    · simpa [dispatch, hq] using h
  cases k <;> simp only [schedStep] at hs <;> (repeat' split at hs) <;> cases hs
  all_goals first | exact hsame rfl rfl rfl rfl | exact hdisp _ _

theorem frame_threadStep (hs : threadStep s c p k ok (s.thread p) = some s') (hq : q ≠ p) : Frame s s' q := by
  cases ht : s.thread p <;> rw [ht] at hs <;> simp only [threadStep] at hs <;> (repeat' split at hs) <;> cases hs
  all_goals try simp only [wakeupTurn_eq, reap_eq]
  all_goals try simp [Frame, wakeup, sleep, sched, allocproc, hq]
  all_goals simp only [woken, freeproc, update_apply]
  all_goals grind

omit [DecidableEq C] in
theorem frame_call {x : Call C L} (hs : call s c p x = some s') (hq : q ≠ p) : Frame s s' q := by
  cases x <;> simp only [call] at hs <;> (repeat' split at hs) <;> cases hs
  all_goals simp [Frame, wakeup, sleep, hq]

omit [DecidableEq C] [DecidableEq L] in
theorem frame_yield {user : Bool} (hs : yield s c p k user = some s') (hq : q ≠ p) : Frame s s' q := by
  unfold yield at hs
  split at hs <;> cases hs
  simp [Frame, sched, hq]

theorem frame_step (hs : step s ev = some s') (hq : ∀ k, s.mode ev.1 ≠ .run q k) : Frame s s' q := by
  have hqp : ∀ {p k}, s.mode ev.1 = .run p k → q ≠ p := fun {p k} hm e => hq k (e ▸ hm)
  rcases step_cases hs with ⟨k, -, ⟨-, hs⟩ | rfl⟩ | ⟨p, k, hm, ⟨ok, -, hs⟩ | ⟨user, -, -, hs⟩ | ⟨x, -, -, hs⟩⟩
  · exact frame_schedStep hs
  · exact ⟨rfl, rfl, .inl rfl, fun h => ⟨h, rfl⟩⟩
  · exact frame_threadStep hs (hqp hm)
  · exact frame_yield hs (hqp hm)
  · exact frame_call hs (hqp hm)

structure Own (s s' : State C L) (c : Cpu) (p : Slot) : Prop where
  mono : s.sleeps p ≤ s'.sleeps p
  sleep0 : s'.sleeps p = s.sleeps p → ∀ ch lk u, s'.thread p ≠ .sleep0 ch lk u
  sleep1 : ∀ ch lk u, s'.thread p = .sleep1 ch lk u → s.thread p = .sleep0 ch lk u
  sleep2 : ∀ ch lk u, s'.thread p = .sleep2 ch lk u → s.thread p = .sleep1 ch lk u ∧ s.spin lk = some c
  sleeping : (s'.proc p).state = .sleeping → (s.proc p).state = .sleeping ∨
    ∃ ch lk u, s.thread p = .sleep2 ch lk u ∧ (s'.proc p).chan = some ch

theorem own_threadStep (hwf : (s.thread p).Wf p) (hs : threadStep s c p k ok (s.thread p) = some s') :
    Own s s' c p := by
  cases ht : s.thread p <;> rw [ht] at hs hwf <;> simp only [threadStep] at hs <;> (repeat' split at hs) <;> cases hs
  all_goals try simp only [wakeupTurn_eq, reap_eq]
  all_goals constructor
  all_goals try simp [wakeup, sleep, sched, allocproc, ht]
  all_goals first
    | intro _ _ _ he
      simp [he, Thread.Wf, Thread.preemptible] at hwf
    | grind [woken, freeproc, update_apply]

omit [DecidableEq C] in
theorem own_call {x : Call C L} (ht : s.thread p = .client) (hs : call s c p x = some s') : Own s s' c p := by
  cases x <;> simp only [call] at hs <;> (repeat' split at hs) <;> cases hs
  all_goals constructor
  all_goals simp [wakeup, sleep, ht]

omit [DecidableEq C] [DecidableEq L] in
theorem own_yield {user : Bool} (hs : yield s c p k user = some s') : Own s s' c p := by
  unfold yield at hs
  split at hs <;> cases hs
  constructor
  all_goals simp [sched]
  cases user <;> simp

theorem own_step (h : Inv s) (hm : s.mode ev.1 = .run p k) (hs : step s ev = some s') : Own s s' ev.1 p := by
  rcases step_run hm hs with ⟨ok, -, hs⟩ | ⟨user, -, -, hs⟩ | ⟨x, -, ht, hs⟩
  · exact own_threadStep (h.wf p) hs
  · exact own_yield hs
  · exact own_call ht hs

variable {ch : Chan C} {n : Nat} {ok : Bool} {ev : Cpu × Op C L}

/-- A process comes to sleep on a channel in the step that releases its lock. -/
theorem dueOn_step (h : Inv s) (hs : step s ev = some s') (hd : DueOn s' p ch) :
    DueOn s p ch ∨ ∃ lk u k, s.mode ev.1 = .run p k ∧ s.thread p = .sleep1 ch lk u ∧ s.spin lk = some ev.1 := by
  by_cases hp : ∃ k, s.mode ev.1 = .run p k
  · obtain ⟨k, hm⟩ := hp
    have ho := own_step h hm hs
    rcases hd with ⟨hst, hch⟩ | ⟨lk, u, ht⟩
    · left
      rcases ho.sleeping hst with hst | ⟨ch', lk, u, ht, hch'⟩
      · rcases (h.active _ p k hm).1 with ⟨ha, -⟩ | ⟨ha, -⟩ <;> rw [hst] at ha <;> cases ha
      · rw [hch] at hch'
        cases hch'
        exact .inr ⟨lk, u, ht⟩
    · exact .inr ⟨lk, u, k, hm, ho.sleep2 ch lk u ht⟩
  · obtain ⟨-, -, hth, hst⟩ := frame_step hs (not_exists.mp hp)
    left
    rcases hd with ⟨hsp, hch⟩ | ⟨lk, u, ht⟩
    · obtain ⟨h1, h2⟩ := hst hsp
      exact .inl ⟨h1, h2 ▸ hch⟩
    · rcases hth with hth | ⟨hth, -⟩ <;> rw [hth] at ht
      · exact .inr ⟨lk, u, ht⟩
      · cases ht

/-- A process behind the release in a call of `sleep` stays there, and does not come to sleep in this
call again. -/
theorem released_step (h : Inv s) (hr : Released s p n) (hs : step s ev = some s') :
    Released s' p n ∧ ∀ ch, s'.sleeps p = n → DueOn s' p ch → s.sleeps p = n ∧ DueOn s p ch := by
  by_cases hp : ∃ k, s.mode ev.1 = .run p k
  · obtain ⟨k, hm⟩ := hp
    have ho := own_step h hm hs
    have hmono := ho.mono
    rcases hr with hr | ⟨hr, hpos⟩
    · exact ⟨.inl (by omega), fun _ hn _ => by omega⟩
    · refine ⟨?_, fun ch hn hd => ⟨hr, ?_⟩⟩
      · rcases Nat.lt_or_ge n (s'.sleeps p) with hlt | hge
        · exact .inl hlt
        · have hn : s'.sleeps p = s.sleeps p := by omega
          refine .inr ⟨hn.trans hr, fun ch lk u => ⟨ho.sleep0 hn ch lk u, fun he => ?_⟩⟩
          exact (hpos ch lk u).1 (ho.sleep1 ch lk u he)
      · rcases dueOn_step h hs hd with hd | ⟨lk, u, -, -, ht, -⟩
        · exact hd
        · exact absurd ht (hpos ch lk u).2
  · obtain ⟨hsl, -, hth, -⟩ := frame_step hs (not_exists.mp hp)
    refine ⟨?_, fun ch hn hd => ⟨hsl ▸ hn, ?_⟩⟩
    · rw [Released, hsl]
      refine hr.imp_right fun hpos => ⟨hpos.1, fun ch lk u => ?_⟩
      rcases hth with hth | ⟨hth, -⟩ <;> rw [hth]
      · exact hpos.2 ch lk u
      · exact ⟨nofun, nofun⟩
    · rcases dueOn_step h hs hd with hd | ⟨lk, u, k, hm, -⟩
      · exact hd
      · exact absurd ⟨k, hm⟩ hp

theorem wakeup_threadStep {ch : Option (Chan C)} {i : Nat} {u : Thread C L}
    (hs : threadStep s c p k ok (.wakeup ch i u) = some s') :
    (i < NPROC ∧ ∃ f, s' = { s.setThread p (.wakeup ch (i + 1) u) with proc := f } ∧
      ∀ q : Slot, (q.val = i ∧ q ≠ p → s.lock q = none ∧ f q = woken ch (s.proc q)) ∧
        (¬ (q.val = i ∧ q ≠ p) → f q = s.proc q)) ∨
      NPROC ≤ i ∧ s' = s.setThread p u := by
  simp only [threadStep] at hs
  split at hs
  · rename_i hi
    split at hs
    · -- the caller of `wakeup` itself is left out
      rename_i hip
      cases hs
      refine .inl ⟨hi, s.proc, rfl, fun q => ⟨fun hq => absurd ?_ hq.2, fun _ => rfl⟩⟩
      exact (Fin.ext (hq.1 : q.val = (⟨i, hi⟩ : Slot).val)).trans hip
    · rename_i hip
      split at hs <;> cases hs
      rename_i hl
      rw [wakeupTurn_eq]
      refine .inl ⟨hi, _, rfl, fun q => ⟨fun hq => ?_, fun hq => ?_⟩⟩
      · obtain rfl : q = ⟨i, hi⟩ := Fin.ext hq.1
        exact ⟨not_not.mp hl, by simp⟩
      · have hqi : q ≠ ⟨i, hi⟩ := by
          rintro rfl
          exact hq ⟨rfl, hip⟩
        simp [hqi]
  · rename_i hi
    cases hs
    exact .inr ⟨by omega, rfl⟩

def Turns (s s' : State C L) (p : Slot) : Prop :=
  s.wakeups p ≤ s'.wakeups p ∧ (s'.wakeups p = s.wakeups p → ∀ ch i, (s'.thread p).turn = some (ch, i) →
    (s.thread p).turn = some (ch, i) ∨ ∃ j u, s.thread p = .wakeup ch j u ∧ i = j + 1 ∧
      ∀ q : Slot, q.val = j → q ≠ p → s.lock q = none ∧ s'.proc q = woken ch (s.proc q) ∧ s'.thread q = s.thread q)

theorem turns_threadStep (hwf : (s.thread p).Wf p) (hs : threadStep s c p k ok (s.thread p) = some s') :
    Turns s s' p := by
  cases ht : s.thread p with
  | wakeup ch i u =>
    rw [ht] at hs hwf
    rcases wakeup_threadStep hs with ⟨-, f, rfl, hq⟩ | ⟨-, rfl⟩
    · refine ⟨le_refl _, fun _ ch' i' he => ?_⟩
      simp only [setThread, update_self, Thread.turn, Option.some.injEq, Prod.mk.injEq] at he
      obtain ⟨rfl, rfl⟩ := he
      refine .inr ⟨i, u, ht, rfl, fun q hqi hqp => ?_⟩
      obtain ⟨hl, hp⟩ := (hq q).1 ⟨hqi, hqp⟩
      exact ⟨hl, hp, update_of_ne hqp _ _⟩
    · refine ⟨le_refl _, fun _ ch' i' he => ?_⟩
      rcases hwf with ⟨rfl, -⟩ | ⟨status, ⟨j, rfl⟩ | rfl⟩ <;> simp [Thread.turn] at he
  | yielded u =>
    rw [ht] at hs hwf
    cases hs
    refine ⟨le_refl _, fun _ ch i he => .inl ?_⟩
    rw [ht]
    cases u <;> simp_all [Thread.turn, Thread.Wf, Thread.preemptible]
  | relock lk u =>
    rw [ht] at hs hwf
    simp only [threadStep] at hs
    split at hs <;> cases hs
    refine ⟨le_refl _, fun _ ch i he => ?_⟩
    rcases hwf with ⟨l, -, rfl⟩ | ⟨addr, -, rfl⟩ <;> simp [Thread.turn] at he
  | _ =>
    rw [ht] at hs
    simp only [threadStep] at hs
    (repeat' split at hs) <;> cases hs
    all_goals try simp only [reap_eq]
    all_goals simp [Turns, wakeup, sleep, sched, allocproc, Thread.turn]

theorem turns_step (h : Inv s) (hm : s.mode ev.1 = .run p k) (hs : step s ev = some s') : Turns s s' p := by
  rcases step_run hm hs with ⟨ok, -, hs⟩ | ⟨user, -, hp, hs⟩ | ⟨x, -, ht, hs⟩
  · exact turns_threadStep (h.wf p) hs
  · unfold yield at hs
    split at hs <;> cases hs
    refine ⟨le_refl _, fun _ ch i he => .inl ?_⟩
    simp only [sched, setMode, setThread, update_self] at he
    cases ht : s.thread p <;> simp_all [Thread.turn, Thread.preemptible]
  · cases x <;> simp only [call] at hs <;> (repeat' split at hs) <;> cases hs
    all_goals simp [Turns, wakeup, sleep, Thread.turn, ht]

omit [DecidableEq C] [DecidableEq L] in
theorem Inv.sleep2_lock {lk : Lk L} {u : Thread C L} (h : Inv s) (ht : s.thread p = .sleep2 ch lk u) :
    s.lock p ≠ none := by
  obtain ⟨c, k, hm⟩ := h.runs (p := p) (by rw [ht]; rfl) (by rw [ht]; exact nofun)
  rw [(h.lock p c).mpr ((heldBy_run hm).trans (by rw [ht]; rfl))]
  exact nofun

omit [DecidableEq L] in
theorem not_dueOn_woken (h : Inv s) (hl : s.lock p = none) (hp : s'.proc p = woken (some ch) (s.proc p))
    (ht : s'.thread p = s.thread p) : ¬ DueOn s' p ch := by
  rintro (⟨hst, hch⟩ | ⟨lk, u, hth⟩)
  · rw [hp] at hst hch
    unfold woken at hst hch
    split at hst
    · cases hst
    · rename_i hno
      rw [if_neg hno] at hch
      exact hno ⟨hst, hch⟩
  · exact h.sleep2_lock (ht ▸ hth) hl

omit [DecidableEq C] [DecidableEq L] in
theorem Inv.not_dueOn (h : Inv s) (hrun : s.mode c = .run p k) (ht : ∀ lk u, s.thread p ≠ .sleep2 ch lk u) :
    ¬ DueOn s p ch := by
  rintro (⟨hst, -⟩ | ⟨lk, u, hu⟩)
  · rcases (h.active _ p k hrun).1 with ⟨ha, -⟩ | ⟨ha, -⟩ <;> rw [hst] at ha <;> cases ha
  · exact ht lk u hu

/-- If the loop of `wakeup` has passed `p`, then `p` is not to be woken up any more. -/
def Passed (s : State C L) (p q : Slot) (ch : Chan C) (n m : Nat) : Prop :=
  Released s p n ∧ m ≤ s.wakeups q ∧
    (s.wakeups q = m → ∀ i, (s.thread q).turn = some (some ch, i) → p.val < i → s.sleeps p = n → ¬ DueOn s p ch)

theorem passed_step {m : Nat} (h : Inv s) (hpq : q ≠ p) (hj : Passed s p q ch n m)
    (hs : step s ev = some s') : Passed s' p q ch n m := by
  obtain ⟨hr, hm, hj⟩ := hj
  obtain ⟨hr', hdue⟩ := released_step h hr hs
  by_cases hq : ∃ k, s.mode ev.1 = .run q k
  · obtain ⟨k, hrun⟩ := hq
    obtain ⟨hmono, hturn⟩ := turns_step h hrun hs
    refine ⟨hr', hm.trans hmono, fun hw i hi hpi hn hd => ?_⟩
    rcases hturn (by omega) (some ch) i hi with hi | ⟨j, u, ht, rfl, hjp⟩
    · exact hj (by omega) i hi hpi (hdue ch hn hd).1 (hdue ch hn hd).2
    · rcases Nat.lt_or_ge p.val j with hlt | hge
      · exact hj (by omega) j (by rw [ht]; rfl) hlt (hdue ch hn hd).1 (hdue ch hn hd).2
      · -- this turn looks at `p`
        obtain ⟨hl, hp, hth⟩ := hjp p (by omega) (Ne.symm hpq)
        exact not_dueOn_woken h hl hp hth hd
  · obtain ⟨-, hw, hth, -⟩ := frame_step hs (not_exists.mp hq)
    refine ⟨hr', hw ▸ hm, fun hw' i hi hpi hn hd => ?_⟩
    rcases hth with hth | ⟨hth, -⟩ <;> rw [hth] at hi
    · exact hj (hw ▸ hw') i hi hpi (hdue ch hn hd).1 (hdue ch hn hd).2
    · cases hi

def BeginsWakeup (s : State C L) (q : Slot) (ch : Chan C) : Prop := ∃ k, s.thread q = .wakeup (some ch) 0 k

def ReturnsFromWakeup (s s' : State C L) (q : Slot) (ch : Chan C) : Prop :=
  ∃ c k i u ok, s.mode c = .run q k ∧ s.thread q = .wakeup (some ch) i u ∧ NPROC ≤ i ∧ step s (c, .tau ok) = some s'

/-- A call of `wakeup(ch)` that begins when a call of `sleep(ch, lk)` by another process has released
`lk` returns with that process not asleep on `ch` in this call of `sleep`; and a turn of `wakeup`
changes only processes that sleep on its channel. -/
theorem wakeup_not_lost {es : List (Cpu × Op C L)} (h0 : run step (boot C L) es = some s) :
    (∀ p q ch n es₁ s₁ s₂, q ≠ p → Released s p n → BeginsWakeup s q ch → run step s es₁ = some s₁ →
      s₁.wakeups q = s.wakeups q → ReturnsFromWakeup s₁ s₂ q ch → ¬ Asleep s₂ p ch n) ∧
    ∀ c q k ch i u ok s₁, s.mode c = .run q k → s.thread q = .wakeup ch i u → step s (c, .tau ok) = some s₁ →
      ∀ p, s₁.proc p ≠ s.proc p → (s.proc p).state = .sleeping ∧ (s.proc p).chan = ch ∧
        s₁.proc p = { s.proc p with state := .runnable } := by
  have hinv : Inv s := run_inv (fun _ _ _ h hs => inv_step h hs) (inv_boot C L) h0
  refine ⟨?_, ?_⟩
  · rintro p q ch n es₁ s₁ s₂ hqp hr ⟨k, hk⟩ hrun hw ⟨c, k', i, u, ok, hm, ht, hi, hs⟩ hasleep
    have hstart : Passed s p q ch n (s.wakeups q) := by
      refine ⟨hr, le_refl _, fun _ j hj hpj => ?_⟩
      rw [hk, Thread.turn] at hj
      cases hj
      exact absurd hpj (Nat.not_lt_zero _)
    obtain ⟨hinv1, hr1, -, hpass⟩ := run_inv (I := fun s' => Inv s' ∧ Passed s' p q ch n (s.wakeups q))
      (fun _ _ _ h hs => ⟨inv_step h.1 hs, passed_step h.1 hqp h.2 hs⟩) ⟨hinv, hstart⟩ hrun
    have hpi : p.val < i := lt_of_lt_of_le p.isLt hi
    obtain ⟨hn, hdue⟩ := (released_step hinv1 hr1 hs).2 ch hasleep.1 (.inl hasleep.2)
    exact hpass hw i (by rw [ht]; rfl) hpi hn hdue
  · intro c q k ch i u ok s₁ hm ht hs p hp
    simp only [step, hm, ht] at hs
    rcases wakeup_threadStep hs with ⟨-, f, rfl, hq⟩ | ⟨-, rfl⟩
    · by_cases hpi : p.val = i ∧ p ≠ q
      · simp only [((hq p).1 hpi).2] at hp ⊢
        unfold woken at hp ⊢
        split at hp
        · rename_i hst
          exact ⟨hst.1, hst.2, if_pos hst⟩
        · exact absurd rfl hp
      · exact absurd ((hq p).2 hpi) hp
    · exact absurd rfl hp

end Steps

/-- The first process forks and calls `sleep` on CPU 0, up to behind the release; its child calls
`wakeup` on CPU 1. -/
def sleepThenWakeup : List (Cpu × Op Unit Unit) :=
  [(0, .tau true), (0, .tau true), (0, .tau true), (0, .call .fork)] ++ List.replicate 6 (0, .tau true) ++
    [(1, .tau true), (1, .tau true), (1, .tau true), (1, .tau true), (0, .call (.acquire ())),
      (0, .call (.sleep () ())), (0, .tau true), (0, .tau true), (1, .call (.wakeup ()))]

/-- The first process goes to sleep, and `wakeup` looks at all processes. -/
def wakeupLoop : List (Cpu × Op Unit Unit) :=
  [(0, .tau true), (0, .tau true)] ++ List.replicate NPROC (1, .tau true)

theorem wakeup_not_lost_sleepThenWakeup : ∃ s s₁ s₂,
    run step (boot Unit Unit) sleepThenWakeup = some s ∧ Released s 0 1 ∧ BeginsWakeup s 1 (.other ()) ∧
    run step s wakeupLoop = some s₁ ∧ ReturnsFromWakeup s₁ s₂ 1 (.other ()) ∧ ¬ Asleep s₂ 0 (.other ()) 1 := by
  obtain ⟨s, hr, hn, hsleep, hwake, s₁, hr1, hw, hm, ht, s₂, hs2, -⟩ : ∃ s ∈ run step (boot Unit Unit) sleepThenWakeup,
      s.sleeps 0 = 1 ∧ s.thread 0 = .sleep2 (.other ()) (.other ()) .client ∧
      s.thread 1 = .wakeup (some (.other ())) 0 .client ∧ ∃ s₁ ∈ run step s wakeupLoop, s₁.wakeups 1 = s.wakeups 1 ∧
      s₁.mode 1 = .run 1 (.rrBack 1) ∧ s₁.thread 1 = .wakeup (some (.other ())) NPROC .client ∧
      ∃ s₂ ∈ step s₁ (1, .tau true), True := by decide +kernel
  have hrel : Released s 0 1 := .inr ⟨hn, by simp [hsleep]⟩
  have hret : ReturnsFromWakeup s₁ s₂ 1 (.other ()) := ⟨1, _, _, _, true, hm, ht, le_refl _, hs2⟩
  exact ⟨s, s₁, s₂, hr, hrel, ⟨_, hwake⟩, hr1, hret,
    (wakeup_not_lost hr).1 0 1 (.other ()) 1 wakeupLoop s₁ s₂ (by decide) hrel ⟨_, hwake⟩ hr1 hw hret⟩

end Sched
end Xv6
