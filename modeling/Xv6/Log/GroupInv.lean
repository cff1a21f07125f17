import Xv6.Log.Group
import Mathlib.Algebra.Order.BigOperators.Group.Finset

/-!
# Xv6.Log.GroupInv

What holds of the log in every run of any number of processes.

* `Inv`: the count of outstanding operations is exact, nobody is in an operation during a commit, and
  the blocks of every operation are in the header until its commit has written them.
* `group_commit`: the two panics of `end_op` and `log_write` about the protocol are unreachable, one
  process commits at a time, and each operation is in one commit, which starts after it.
* `reservation_sufficient`: operations of at most `MAXOPBLOCKS - 1` blocks never fill the log;
  `reservation_overflow` is a run of three operations of `MAXOPBLOCKS` blocks that does.
-/

namespace Xv6
namespace Log
namespace Group

open State Function Finset Trans

def Has (lh : LogHeader) (b : Nat) : Prop := ∃ j : Nat, (j : Int) < lh.n ∧ lh.block j = b

def Pc.busy : Pc → Bool
  | .user | .beginOp | .op => false
  | _ => true

def Stage (s : State) : Pc → Prop
  | .writeLog tail => ∀ j : Nat, j < tail → (j : Int) < s.lh.n → s.lh.block j ∈ s.wrote s.finished
  | .writeHead | .installTrans _ | .clearN => ∀ b, Has s.lh b → b ∈ s.wrote s.finished
  | .clearHead | .finish => s.lh.n = 0
  | _ => True

structure Inv (s : State) : Prop where
  n_nonneg : 0 ≤ s.lh.n
  active : ∃ A : Finset Pid, (∀ p, p ∈ A ↔ s.pc p = .op) ∧ s.outstanding = A.card
  count : s.started = s.finished + if s.committing then 1 else 0
  committing : s.committing = true → s.outstanding = 0
  busy : ∀ p, (s.pc p).busy = true → s.committing = true
  alone : ∀ p q, (s.pc p).busy = true → (s.pc q).busy = true → p = q
  idle : s.committing = false → s.outstanding = 0 → s.lh.n = 0
  stage : ∀ p, Stage s (s.pc p)
  cur : ∀ p, s.pc p = .op → (s.cur p).start = s.started ∧ ∀ b ∈ (s.cur p).blocks, Has s.lh b
  ended : ∀ r ∈ s.ended, r.stop = r.start ∧
    ∀ b ∈ r.blocks, b ∈ s.wrote r.start ∨ s.finished = r.start ∧ Has s.lh b
  panicked : s.panicked ≠ some "log.committing" ∧ s.panicked ≠ some "log_write outside of trans"

variable {size : Nat} {s s' : State} {p : Pid} {b : Nat} {c : Pc} {lh : LogHeader} {t : State} {r : Record}

theorem Has.add (h : 0 ≤ lh.n) : Has (lh.add b) b ∧ ∀ b', Has lh b' → Has (lh.add b) b' := by
  obtain ⟨hs, -⟩ | ⟨hs, hb⟩ := slot_cases h b
  · rw [add_of_notMem hs]
    refine ⟨⟨lh.n.toNat, by dsimp only; omega, update_self _ _ _⟩, ?_⟩
    rintro b' ⟨j, hj, rfl⟩
    exact ⟨j, by dsimp only; omega, update_of_ne (by omega) _ _⟩
  · rw [add_of_mem hs hb]
    exact ⟨⟨_, hs, hb⟩, fun b' hb' => hb'⟩

theorem n_le_add (h : 0 ≤ lh.n) : lh.n ≤ (lh.add b).n := by
  obtain ⟨hs, -⟩ | ⟨hs, hb⟩ := slot_cases h b
  · rw [add_of_notMem hs]
    dsimp only
    omega
  · rw [add_of_mem hs hb]

/-! ## Each step keeps the invariant -/

theorem Inv.setPc (h : Inv s) (hop : c = .op ↔ s.pc p = .op) (hb : c.busy = (s.pc p).busy)
    (hc : Stage s c) : Inv (s.setPc p c) := by
  have hpc : ∀ q, (s.setPc p c).pc q = if q = p then c else s.pc q := fun q => update_apply _ _ _ _
  have hbusy : ∀ q, ((s.setPc p c).pc q).busy = (s.pc q).busy := by
    intro q
    rw [hpc]
    split
    · rw [hb, ‹q = p›]
    · rfl
  have hopq : ∀ q, (s.setPc p c).pc q = .op ↔ s.pc q = .op := by
    intro q
    rw [hpc]
    split
    · rw [hop, ‹q = p›]
    · rfl
  obtain ⟨A, hA, hcard⟩ := h.active
  refine { h with
    active := ⟨A, fun q => (hA q).trans (hopq q).symm, hcard⟩
    busy := fun q hq => h.busy q (hbusy q ▸ hq)
    alone := fun q r hq hr => h.alone q r (hbusy q ▸ hq) (hbusy r ▸ hr)
    stage := fun q => ?_
    cur := fun q hq => h.cur q ((hopq q).mp hq) }
  rw [hpc]
  split
  · exact hc
  · exact h.stage q

theorem Inv.no_op (h : Inv s) (hc : s.committing = true) : s.pc p ≠ .op := by
  obtain ⟨A, hA, hcard⟩ := h.active
  have h0 := h.committing hc
  rw [hcard, Nat.cast_eq_zero, card_eq_zero] at h0
  intro hp
  have hm := (hA p).mpr hp
  simp [h0] at hm

theorem Inv.not_committing (h : Inv s) (hp : s.pc p = .op) : s.committing = false := by
  by_contra hc
  exact h.no_op (by simpa using hc) hp

theorem Inv.not_busy (h : Inv s) (hc : s.committing = false) (q : Pid) : (s.pc q).busy = false := by
  by_contra hb
  have := h.busy q (by simpa using hb)
  simp [hc] at this

theorem stage_of_not_busy (h : c.busy = false) : Stage s c := by
  cases c <;> trivial

section

variable (h : Inv s)
include h

theorem inv_beginOp (hp : s.pc p = .beginOp) : Inv (beginOp s p) := by
  unfold beginOp
  split
  · exact h
  split
  · exact h
  rename_i hc _
  have hc : s.committing = false := by simpa using hc
  obtain ⟨A, hA, hcard⟩ := h.active
  have hpA : p ∉ A := by simp [hA, hp]
  have hbusy : ∀ q, ((s.setPc p .op).pc q).busy = false := by
    intro q
    by_cases hq : q = p
    · simp [State.setPc, hq, Pc.busy]
    · simpa [State.setPc, hq] using h.not_busy hc q
  refine { h with
    active := ⟨insert p A, fun q => ?_, ?_⟩
    committing := fun hc' => absurd hc' (by simp [State.setPc, hc])
    busy := fun q hq => absurd hq (by simp [hbusy q])
    alone := fun q _ hq => absurd hq (by simp [hbusy q])
    idle := fun _ h0 => ?_
    stage := fun q => stage_of_not_busy (hbusy q)
    cur := fun q hq => ?_ }
  · by_cases hq : q = p
    · simp [State.setPc, hq]
    · simp [State.setPc, hq, hA]
  · simp [card_insert_of_notMem hpA, hcard]
  · dsimp only at h0
    omega
  · by_cases hqp : q = p
    · simp [State.setPc, hqp]
    · have hq : s.pc q = .op := by simpa [State.setPc, hqp] using hq
      simpa [State.setPc, hqp] using h.cur q hq

theorem inv_panic {msg : String} (h1 : msg ≠ "log.committing")
    (h2 : msg ≠ "log_write outside of trans") : Inv (s.panic msg) :=
  { h with panicked := ⟨by simpa [State.panic] using h1, by simpa [State.panic] using h2⟩ }

theorem Inv.outstanding_pos (hp : s.pc p = .op) : 1 ≤ s.outstanding := by
  obtain ⟨A, hA, hcard⟩ := h.active
  have := card_pos.mpr ⟨p, (hA p).mpr hp⟩
  omega

theorem inv_logWrite (hp : s.pc p = .op) : Inv (logWrite size s p b) := by
  unfold logWrite
  split
  · exact inv_panic h (by decide) (by decide)
  have hpos := h.outstanding_pos hp
  rw [if_neg (by omega)]
  obtain ⟨hb, hadd⟩ := Has.add (b := b) h.n_nonneg
  refine { h with
    n_nonneg := Int.le_trans h.n_nonneg (n_le_add h.n_nonneg)
    idle := fun _ h0 => ?_
    stage := fun q => stage_of_not_busy (h.not_busy (h.not_committing hp) q)
    cur := fun q hq => ?_
    ended := fun r hr => ⟨(h.ended r hr).1, fun b' hb' => ?_⟩ }
  · dsimp only at h0
    omega
  · by_cases hqp : q = p
    · subst hqp
      obtain ⟨h1, h2⟩ := h.cur q hq
      refine ⟨by simpa using h1, ?_⟩
      simp only [update_self, List.mem_cons, forall_eq_or_imp]
      exact ⟨hb, fun b' hb' => hadd b' (h2 b' hb')⟩
    · obtain ⟨h1, h2⟩ := h.cur q hq
      simp only [update_of_ne hqp]
      exact ⟨h1, fun b' hb' => hadd b' (h2 b' hb')⟩
  · exact ((h.ended r hr).2 b' hb').imp_right fun hr' => ⟨hr'.1, hadd b' hr'.2⟩

theorem Inv.leave (hp : s.pc p = .op) (hc : c ≠ .op) :
    ∃ A : Finset Pid, (∀ q, q ∈ A ↔ (s.setPc p c).pc q = .op) ∧ s.outstanding - 1 = A.card := by
  obtain ⟨A, hA, hcard⟩ := h.active
  have hpA : p ∈ A := (hA p).mpr hp
  refine ⟨A.erase p, fun q => ?_, ?_⟩
  · by_cases hq : q = p
    · simp [State.setPc, hq, hc]
    · simp [State.setPc, hq, hA]
  · have := card_pos.mpr ⟨p, hpA⟩
    rw [card_erase_of_mem hpA, hcard]
    omega

/-- The operation that ends: no commit has started since it began. -/
theorem Inv.ended_cons (hp : s.pc p = .op) :
    ∀ r ∈ { s.cur p with stop := s.started } :: s.ended, r.stop = r.start ∧
      ∀ b ∈ r.blocks, b ∈ s.wrote r.start ∨ s.finished = r.start ∧ Has s.lh b := by
  have hstart : s.started = s.finished := by simpa [h.not_committing hp] using h.count
  obtain ⟨hs, hblocks⟩ := h.cur p hp
  intro r hr
  rcases List.mem_cons.mp hr with rfl | hr
  · exact ⟨hs.symm, fun b hb => .inr ⟨by dsimp only; omega, hblocks b hb⟩⟩
  · exact h.ended r hr

theorem Inv.endOp_more (hp : s.pc p = .op) (h1 : s.outstanding - 1 ≠ 0) : Inv { s.setPc p .user with
      outstanding := s.outstanding - 1, ended := { s.cur p with stop := s.started } :: s.ended } := by
  have hnc := h.not_committing hp
  have hpc : ∀ q, (s.setPc p .user).pc q = if q = p then .user else s.pc q :=
    fun q => update_apply _ _ _ _
  have hbusy : ∀ q, ((s.setPc p .user).pc q).busy = false := by
    intro q
    rw [hpc]
    split
    · rfl
    · exact h.not_busy hnc q
  refine { h with
    active := h.leave hp (by decide)
    committing := fun hc => absurd (hnc.symm.trans hc) (by decide)
    busy := fun q hq => absurd ((hbusy q).symm.trans hq) (by decide)
    alone := fun q _ hq => absurd ((hbusy q).symm.trans hq) (by decide)
    idle := fun _ h0 => absurd h0 h1
    stage := fun q => stage_of_not_busy (hbusy q)
    cur := fun q hq => ?_
    ended := h.ended_cons hp }
  have hq' : s.pc q = .op := by
    rw [show (s.setPc p .user).pc q = _ from hpc q] at hq
    split at hq
    · cases hq
    · exact hq
  exact h.cur q hq'

/-- The last operation ends, and its process starts the commit. -/
theorem Inv.endOp_last (hp : s.pc p = .op) (h0 : s.outstanding - 1 = 0) : Inv { s.setPc p .commit with
      outstanding := s.outstanding - 1, ended := { s.cur p with stop := s.started } :: s.ended
      committing := true, started := s.started + 1 } := by
  have hnc := h.not_committing hp
  have hpc : ∀ q, (s.setPc p .commit).pc q = if q = p then .commit else s.pc q :=
    fun q => update_apply _ _ _ _
  have hbusy : ∀ q, ((s.setPc p .commit).pc q).busy = true → q = p := by
    intro q hq
    rw [hpc] at hq
    split at hq
    · assumption
    · exact absurd ((h.not_busy hnc q).symm.trans hq) (by decide)
  have hact := h.leave hp (c := .commit) (by decide)
  refine { h with
    active := hact
    count := by simpa [State.setPc, hnc] using h.count
    committing := fun _ => h0
    busy := fun _ _ => rfl
    alone := fun q r hq hr => (hbusy q hq).trans (hbusy r hr).symm
    idle := fun hc => nomatch hc
    stage := fun q => ?_
    cur := fun q hq => ?_
    ended := h.ended_cons hp }
  · rw [show (s.setPc p .commit).pc q = _ from hpc q]
    split
    · trivial
    · exact stage_of_not_busy (h.not_busy hnc q)
  · obtain ⟨A, hA, hcard⟩ := hact
    have := card_pos.mpr ⟨q, (hA q).mpr hq⟩
    omega

theorem inv_endOp (hp : s.pc p = .op) : Inv (endOp s p) := by
  unfold endOp
  dsimp only
  rw [if_neg (by simp [h.not_committing hp])]
  split
  · exact h.endOp_last hp ‹_›
  · exact h.endOp_more hp ‹_›

/-- A step of the process that commits: it is the only one, and no operation is open. -/
theorem Inv.work {wrote : Nat → List Nat} (hp : (s.pc p).busy = true)
    (hc : c.busy = true) (hn : 0 ≤ lh.n) (hst : Stage { s with lh := lh, wrote := wrote } c)
    (hended : ∀ r ∈ s.ended, ∀ b, b ∈ s.wrote r.start ∨ s.finished = r.start ∧ Has s.lh b →
      b ∈ wrote r.start ∨ s.finished = r.start ∧ Has lh b) :
    Inv { s.setPc p c with lh := lh, wrote := wrote } := by
  have hcom := h.busy p hp
  have hpc : ∀ q, (s.setPc p c).pc q = if q = p then c else s.pc q := fun q => update_apply _ _ _ _
  have hbusy : ∀ q, ((s.setPc p c).pc q).busy = true → q = p := by
    intro q hq
    rw [hpc] at hq
    split at hq
    · assumption
    · exact h.alone q p hq hp
  have hop : ∀ q, (s.setPc p c).pc q ≠ .op := by
    intro q hq
    rw [hpc] at hq
    split at hq
    · rw [hq] at hc
      cases hc
    · exact h.no_op hcom hq
  refine { h with
    n_nonneg := hn
    active := ⟨∅, fun q => by simpa using hop q, h.committing hcom⟩
    busy := fun _ _ => hcom
    alone := fun q r hq hr => (hbusy q hq).trans (hbusy r hr).symm
    idle := fun hnc => absurd (hcom.symm.trans hnc) (by decide)
    stage := fun q => ?_
    cur := fun q hq => absurd hq (hop q)
    ended := fun r hr => ⟨(h.ended r hr).1, fun b hb => hended r hr b ((h.ended r hr).2 b hb)⟩ }
  rw [show (s.setPc p c).pc q = _ from hpc q]
  split
  · exact hst
  · refine stage_of_not_busy (Bool.eq_false_iff.mpr fun hq => ?_)
    exact absurd (h.alone q p hq hp) ‹q ≠ p›

theorem inv_writeLog {tail : Nat} (hp : s.pc p = .writeLog tail) (ht : (tail : Int) < s.lh.n) :
    Inv { s.setPc p (.writeLog (tail + 1)) with
      wrote := update s.wrote s.finished (s.lh.block tail :: s.wrote s.finished) } := by
  have hmono : ∀ k b, b ∈ s.wrote k →
      b ∈ update s.wrote s.finished (s.lh.block tail :: s.wrote s.finished) k := by
    intro k b hb
    by_cases hk : k = s.finished
    · subst hk
      simp [hb]
    · simpa [hk] using hb
  have hst : Stage s (.writeLog tail) := hp ▸ h.stage p
  refine h.work (by rw [hp]; rfl) rfl h.n_nonneg (fun j hj hjn => ?_) fun r _ b hb => ?_
  · rcases Nat.lt_succ_iff_lt_or_eq.mp hj with hj | rfl
    · exact hmono _ _ (hst j hj hjn)
    · simp [State.setPc]
  · exact hb.imp_left (hmono _ b)

theorem inv_clearN (hp : s.pc p = .clearN) :
    Inv { s.setPc p .clearHead with lh := { s.lh with n := 0 } } := by
  have hst : Stage s .clearN := hp ▸ h.stage p
  refine h.work (by rw [hp]; rfl) rfl (Int.le_refl 0) rfl fun r _ b hb => .inl ?_
  rcases hb with hb | ⟨hr, hb⟩
  · exact hb
  · exact hr ▸ hst b hb

theorem inv_finish (hp : s.pc p = .finish) :
    Inv { s.setPc p .user with committing := false, finished := s.finished + 1 } := by
  have hbp : (s.pc p).busy = true := by rw [hp]; rfl
  have hcom := h.busy p hbp
  have hn : s.lh.n = 0 := by
    have hst : Stage s .finish := hp ▸ h.stage p
    exact hst
  have hpc : ∀ q, (s.setPc p .user).pc q = if q = p then .user else s.pc q :=
    fun q => update_apply _ _ _ _
  have hbusy : ∀ q, ((s.setPc p .user).pc q).busy = false := by
    intro q
    rw [hpc]
    split
    · rfl
    · exact Bool.eq_false_iff.mpr fun hq => absurd (h.alone q p hq hbp) ‹q ≠ p›
  have hop : ∀ q, (s.setPc p .user).pc q ≠ .op := by
    intro q hq
    rw [hpc] at hq
    split at hq
    · cases hq
    · exact h.no_op hcom hq
  refine { h with
    active := ⟨∅, fun q => by simpa using hop q, h.committing hcom⟩
    count := by simpa [State.setPc, hcom] using h.count
    committing := fun hc => nomatch hc
    busy := fun q hq => absurd ((hbusy q).symm.trans hq) (by decide)
    alone := fun q _ hq => absurd ((hbusy q).symm.trans hq) (by decide)
    idle := fun _ _ => hn
    stage := fun q => stage_of_not_busy (hbusy q)
    cur := fun q hq => absurd hq (hop q)
    ended := fun r hr => ⟨(h.ended r hr).1, fun b hb => .inl ?_⟩ }
  rcases (h.ended r hr).2 b hb with hb | ⟨-, j, hj, -⟩
  · exact hb
  · omega

theorem inv_resume (hs : resume s p (s.pc p) = some s') : Inv s' := by
  have hst := h.stage p
  generalize hp : s.pc p = c at hs hst
  cases c with
  | user => cases hs
  | op => cases hs
  | beginOp =>
    cases hs
    exact inv_beginOp h hp
  | commit =>
    cases hs
    split
    · exact h.setPc (by simp [hp]) (by rw [hp]; rfl) fun j hj => nomatch hj
    · rename_i hn
      exact h.setPc (by simp [hp]) (by rw [hp]; rfl) (Int.le_antisymm (Int.not_lt.mp hn) h.n_nonneg)
  | writeLog tail =>
    simp only [resume] at hs
    split at hs
    · cases hs
      exact inv_writeLog h hp ‹_›
    · rename_i ht
      cases hs
      refine h.setPc (by simp [hp]) (by rw [hp]; rfl) ?_
      rintro b ⟨j, hj, rfl⟩
      exact hst j (by omega) hj
  | writeHead =>
    cases hs
    exact h.setPc (by simp [hp]) (by rw [hp]; rfl) hst
  | installTrans tail =>
    cases hs
    split <;> exact h.setPc (by simp [hp]) (by rw [hp]; rfl) hst
  | clearN =>
    cases hs
    exact inv_clearN h hp
  | clearHead =>
    cases hs
    exact h.setPc (by simp [hp]) (by rw [hp]; rfl) hst
  | finish =>
    cases hs
    exact inv_finish h hp

theorem inv_step {ev : Pid × Op} (hs : step size s ev = some s') : Inv s' := by
  unfold step at hs
  split at hs
  · cases hs
  split at hs
  · rename_i hp _
    cases hs
    exact h.setPc (by simp [hp]) (by rw [hp]; rfl) trivial
  · rename_i hp _
    cases hs
    exact inv_logWrite h hp
  · rename_i hp _
    cases hs
    exact inv_endOp h hp
  · exact inv_resume h hs
  · cases hs

end

theorem inv_initlog (block : Nat → Nat) : Inv (initlog block) where
  n_nonneg := Int.le_refl 0
  active := ⟨∅, fun _ => by simp [initlog], rfl⟩
  count := rfl
  committing := fun _ => rfl
  busy := fun _ hp => nomatch hp
  alone := fun _ _ hp => nomatch hp
  idle := fun _ _ => rfl
  stage := fun _ => trivial
  cur := fun _ hp => nomatch hp
  ended := fun _ hr => nomatch hr
  panicked := ⟨nofun, nofun⟩

/-- In every run: the number of outstanding operations is exact and zero during a commit, the two
panics do not happen, one process commits at a time; no commit starts during an operation, and the
first commit after its end has written all blocks that it logged when it finishes. -/
theorem group_commit {block : Nat → Nat} {evs : List (Pid × Op)}
    (hr : run (step size) (initlog block) evs = some s) :
    (∃ A : Finset Pid, (∀ p, p ∈ A ↔ s.pc p = .op) ∧ s.outstanding = A.card) ∧
      (s.committing = true → s.outstanding = 0) ∧
      s.panicked ≠ some "log.committing" ∧ s.panicked ≠ some "log_write outside of trans" ∧
      (∀ p q, (s.pc p).inCommit = true → (s.pc q).inCommit = true → p = q) ∧
      (∀ p, s.pc p = .op → (s.cur p).start = s.started) ∧
      ∀ r ∈ s.ended, r.stop = r.start ∧ (r.start < s.finished → ∀ b ∈ r.blocks, b ∈ s.wrote r.start) := by
  have h : Inv s := run_inv (fun _ _ _ h hs => inv_step h hs) (inv_initlog block) hr
  have hbusy : ∀ c : Pc, c.inCommit = true → c.busy = true := by
    intro c hc
    cases c <;> first | rfl | cases hc
  refine ⟨h.active, h.committing, h.panicked.1, h.panicked.2, fun p q hp hq => ?_, fun p hp => (h.cur p hp).1,
    fun r hr => ⟨(h.ended r hr).1, fun hlt b hb => ?_⟩⟩
  · exact h.alone p q (hbusy _ hp) (hbusy _ hq)
  · rcases (h.ended r hr).2 b hb with hb | ⟨he, -⟩
    · exact hb
    · omega

/-- Two processes log a block each; the second one to end commits both blocks. -/
def twoOps : List (Pid × Op) :=
  [(1, .beginOp), (1, .tau), (2, .beginOp), (2, .tau), (1, .logWrite 50), (2, .logWrite 60), (1, .endOp),
    (2, .endOp)] ++ List.replicate 11 (2, .tau)

theorem group_commit_twoOps : ∃ s, run (step LOGSIZE) (initlog fun _ => 0) twoOps = some s ∧
    s.finished = 1 ∧ s.ended.map Record.blocks = [[60], [50]] ∧
    ∀ r ∈ s.ended, r.stop = r.start ∧ (r.start < s.finished → ∀ b ∈ r.blocks, b ∈ s.wrote r.start) := by
  obtain ⟨s, hr, h1, h2⟩ : ∃ s ∈ run (step LOGSIZE) (initlog fun _ => 0) twoOps,
      s.finished = 1 ∧ s.ended.map Record.blocks = [[60], [50]] := by decide +kernel
  exact ⟨s, hr, h1, h2, (group_commit hr).2.2.2.2.2.2⟩

/-! ## Space in the log -/

def used (s : State) (q : Pid) : Nat := (s.cur q).blocks.toFinset.card

/-- The event is not a `log_write` with which an operation logs more than `m` blocks. -/
def Within (m : Nat) (s : State) : Pid × Op → Prop
  | (p, .logWrite b) => (b :: (s.cur p).blocks).toFinset.card ≤ m
  | _ => True

instance (m : Nat) (s : State) : (ev : Pid × Op) → Decidable (Within m s ev)
  | (p, .logWrite b) => inferInstanceAs (Decidable ((b :: (s.cur p).blocks).toFinset.card ≤ m))
  | (_, .beginOp) | (_, .endOp) | (_, .tau) => .isTrue trivial

def Room (s : State) : Prop :=
  ∀ A : Finset Pid, (∀ q, q ∈ A ↔ s.pc q = .op) → (∀ q ∈ A, used s q ≤ MAXOPBLOCKS - 1) ∧
    s.lh.n + (∑ q ∈ A, (MAXOPBLOCKS - 1 - used s q) : Nat) ≤ LOGSIZE - 2

theorem Room.move (hi : Inv s) (h : Room s) (hc : c ≠ .op) (hn : t.lh.n ≤ s.lh.n)
    (hpc : t.pc = update s.pc p c) (hcur : t.cur = s.cur) : Room t := by
  intro B hB
  obtain ⟨A, hA, -⟩ := hi.active
  obtain ⟨h1, h2⟩ := h A hA
  have hsub : B ⊆ A := by
    intro q hq
    have hq := (hB q).mp hq
    rw [hpc, update_apply] at hq
    split at hq
    · exact absurd hq hc
    · exact (hA q).mpr hq
  have hused : used t = used s := by
    funext q
    rw [used, hcur, used]
  rw [hused]
  refine ⟨fun q hq => h1 q (hsub hq), ?_⟩
  have hsum := sum_le_sum_of_subset (f := fun q => MAXOPBLOCKS - 1 - used s q) hsub
  omega

theorem used_update (ht : t.cur = update s.cur p r) (q : Pid) :
    used t q = if q = p then r.blocks.toFinset.card else used s q := by
  rw [used, ht, update_apply]
  split <;> rfl

/-- `begin_op` admits an operation: either it is the first one after a commit, or the reservation
leaves one block for each of the operations that are already open. -/
theorem Room.enter (hi : Inv s) (h : Room s) (hp : s.pc p ≠ .op)
    (hc : s.committing = false) (hroom : s.lh.n + (s.outstanding + 1) * MAXOPBLOCKS ≤ LOGSIZE)
    (hlh : t.lh = s.lh) (hpc : ∀ q, t.pc q = .op ↔ q = p ∨ s.pc q = .op)
    (hcur : t.cur = update s.cur p r) (hr : r.blocks = []) : Room t := by
  intro B hB
  obtain ⟨A, hA, hcard⟩ := hi.active
  obtain ⟨h1, h2⟩ := h A hA
  have hpA : p ∉ A := fun hm => hp ((hA p).mp hm)
  have hBA : B = insert p A := by
    ext q
    rw [hB, hpc, mem_insert, hA]
  have h0 : used t p = 0 := by simp [used_update hcur, hr]
  have hold : ∀ q ∈ A, used t q = used s q := fun q hq => by
    rw [used_update hcur, if_neg fun e : q = p => hpA (e ▸ hq)]
  rw [hBA]
  refine ⟨(forall_mem_insert ..).mpr ⟨by omega, fun q hq => hold q hq ▸ h1 q hq⟩, ?_⟩
  rw [sum_insert hpA, h0, sum_congr rfl fun q hq => by rw [hold q hq], hlh]
  have hle : ∑ q ∈ A, (MAXOPBLOCKS - 1 - used s q) ≤ A.card * (MAXOPBLOCKS - 1) := by
    simpa using sum_le_card_nsmul A _ (MAXOPBLOCKS - 1) fun q _ => Nat.sub_le _ (used s q)
  have hidle : A.card = 0 → s.lh.n = 0 := fun h0 => hi.idle hc (by rw [hcard, h0]; rfl)
  simp only [MAXOPBLOCKS, LOGSIZE] at *
  omega

theorem add_cases (h : 0 ≤ lh.n) : (lh.add b).n = lh.n ∨ (lh.add b).n = lh.n + 1 ∧ ¬ Has lh b := by
  obtain ⟨hs, hb⟩ | ⟨hs, hb⟩ := slot_cases h b
  · rw [add_of_notMem hs]
    exact .inr ⟨rfl, fun ⟨j, hj, he⟩ => hb j hj he⟩
  · rw [add_of_mem hs hb]
    exact .inl rfl

section

variable (hi : Inv s) (h : Room s)
include hi h

/-- A block that is new to the header is new to the operation: what the header gains, the operation
has used. -/
theorem Room.logged (hp : s.pc p = .op)
    (hw : (b :: (s.cur p).blocks).toFinset.card ≤ MAXOPBLOCKS - 1) (hlh : t.lh = s.lh.add b) (hpc : t.pc = s.pc)
    (hcur : t.cur = update s.cur p r) (hr : r.blocks = b :: (s.cur p).blocks) : Room t := by
  intro A hA
  rw [hpc] at hA
  obtain ⟨h1, h2⟩ := h A hA
  have hpA : p ∈ A := (hA p).mpr hp
  have hup : used t p = (b :: (s.cur p).blocks).toFinset.card := by rw [used_update hcur, if_pos rfl, hr]
  have hold : ∀ q ∈ A.erase p, used t q = used s q := fun q hq => by
    rw [used_update hcur, if_neg (ne_of_mem_erase hq)]
  refine ⟨fun q hq => ?_, ?_⟩
  · by_cases hqp : q = p
    · rw [hqp, hup]
      exact hw
    · rw [hold q (mem_erase.mpr ⟨hqp, hq⟩)]
      exact h1 q hq
  · rw [← add_sum_erase A _ hpA] at h2 ⊢
    rw [sum_congr rfl fun q hq => by rw [hold q hq], hup, hlh]
    have hmono : used s p ≤ (b :: (s.cur p).blocks).toFinset.card :=
      card_le_card (by simp [List.toFinset_cons])
    rcases add_cases (b := b) hi.n_nonneg with hn | ⟨hn, hnew⟩
    · omega
    · have hb : b ∉ (s.cur p).blocks := fun hb => hnew ((hi.cur p hp).2 b hb)
      have hcard : (b :: (s.cur p).blocks).toFinset.card = used s p + 1 := by
        rw [List.toFinset_cons, card_insert_of_notMem (by simpa using hb)]
        rfl
      omega

theorem room_beginOp (hp : s.pc p = .beginOp) :
    Room (beginOp s p) ∧ (beginOp s p).panicked = s.panicked := by
  unfold beginOp
  split
  · exact ⟨h, rfl⟩
  split
  · exact ⟨h, rfl⟩
  rename_i hc hroom
  refine ⟨h.enter hi (by simp [hp]) (by simpa using hc) (Int.not_lt.mp hroom) rfl (fun q => ?_) rfl rfl, rfl⟩
  by_cases hq : q = p <;> simp [State.setPc, hq]

theorem room_logWrite (hp : s.pc p = .op)
    (hw : (b :: (s.cur p).blocks).toFinset.card ≤ MAXOPBLOCKS - 1) :
    Room (logWrite LOGSIZE s p b) ∧ (logWrite LOGSIZE s p b).panicked = s.panicked := by
  obtain ⟨A, hA, -⟩ := hi.active
  have hroom := (h A hA).2
  have hpos := hi.outstanding_pos hp
  unfold logWrite
  rw [if_neg (by simp only [LOGSIZE, MAXOPBLOCKS] at *; omega), if_neg (by omega)]
  exact ⟨h.logged hi hp hw rfl rfl rfl rfl, rfl⟩

theorem room_endOp (hp : s.pc p = .op) :
    Room (endOp s p) ∧ (endOp s p).panicked = s.panicked := by
  unfold endOp
  dsimp only
  rw [if_neg (by simp [hi.not_committing hp])]
  split
  · exact ⟨h.move hi (c := .commit) (by decide) (Int.le_refl _) rfl rfl, rfl⟩
  · exact ⟨h.move hi (c := .user) (by decide) (Int.le_refl _) rfl rfl, rfl⟩

theorem room_resume (hs : resume s p (s.pc p) = some s') :
    Room s' ∧ s'.panicked = s.panicked := by
  have hmove (c : Pc) (hc : c ≠ .op) : Room (s.setPc p c) := h.move hi hc (Int.le_refl _) rfl rfl
  generalize hp : s.pc p = c at hs
  cases c with
  | user => cases hs
  | op => cases hs
  | beginOp =>
    cases hs
    exact room_beginOp hi h hp
  | commit =>
    cases hs
    split <;> exact ⟨hmove _ (by decide), rfl⟩
  | writeLog tail =>
    simp only [resume] at hs
    split at hs
    · cases hs
      exact ⟨h.move hi (c := .writeLog (tail + 1)) (by simp) (Int.le_refl _) rfl rfl, rfl⟩
    · cases hs
      exact ⟨hmove _ (by decide), rfl⟩
  | writeHead =>
    cases hs
    exact ⟨hmove _ (by decide), rfl⟩
  | installTrans tail =>
    cases hs
    split <;> exact ⟨hmove _ (by simp), rfl⟩
  | clearN =>
    cases hs
    exact ⟨h.move hi (c := .clearHead) (by decide) hi.n_nonneg rfl rfl, rfl⟩
  | clearHead =>
    cases hs
    exact ⟨hmove _ (by decide), rfl⟩
  | finish =>
    cases hs
    exact ⟨h.move hi (c := .user) (by decide) (Int.le_refl _) rfl rfl, rfl⟩

theorem room_step {ev : Pid × Op} (hw : Within (MAXOPBLOCKS - 1) s ev)
    (hs : step LOGSIZE s ev = some s') : Room s' ∧ s'.panicked = s.panicked := by
  obtain ⟨p, op⟩ := ev
  unfold step at hs
  split at hs
  · cases hs
  dsimp only at hs
  split at hs
  · cases hs
    exact ⟨h.move hi (c := .beginOp) (by decide) (Int.le_refl _) rfl rfl, rfl⟩
  · rename_i hp
    cases hs
    exact room_logWrite hi h hp hw
  · rename_i hp
    cases hs
    exact room_endOp hi h hp
  · exact room_resume hi h hs
  · cases hs

end

/-- When every operation logs at most `MAXOPBLOCKS - 1` blocks, `log_write` never panics. -/
theorem reservation_sufficient {block : Nat → Nat} {evs : List (Pid × Op)}
    (hw : Trans.AllSteps (step LOGSIZE) (Within (MAXOPBLOCKS - 1)) (initlog block) evs)
    (hr : run (step LOGSIZE) (initlog block) evs = some s) : s.panicked ≠ some "too big a transaction" := by
  have h0 : Room (initlog block) := by
    intro A hA
    have hA : A = ∅ := eq_empty_of_forall_notMem fun q hq => nomatch (hA q).mp hq
    subst hA
    exact ⟨by simp, by simp [initlog]⟩
  have h : Inv s ∧ Room s ∧ s.panicked = none :=
    run_inv_of (I := fun s => Inv s ∧ Room s ∧ s.panicked = none)
      (fun s ev s' hi hw hs => ⟨inv_step hi.1 hs, (room_step hi.1 hi.2.1 hw hs).1,
        (room_step hi.1 hi.2.1 hw hs).2.trans hi.2.2⟩)
      ⟨inv_initlog block, h0, rfl⟩ hw hr
  rw [h.2.2]
  exact nofun

/-- Three operations at the same time, with blocks of their own, `m` of them each. -/
def threeOps (m : Nat) : List (Pid × Op) :=
  [0, 1, 2].flatMap (fun p => [(p, .beginOp), (p, .tau)]) ++
    [0, 1, 2].flatMap fun p => (List.range m).map fun b => (p, .logWrite (100 * p + b))

theorem reservation_sufficient_threeOps : ∃ s,
    Trans.AllSteps (step LOGSIZE) (Within (MAXOPBLOCKS - 1)) (initlog fun _ => 0) (threeOps (MAXOPBLOCKS - 1)) ∧
    run (step LOGSIZE) (initlog fun _ => 0) (threeOps (MAXOPBLOCKS - 1)) = some s ∧
    s.lh.n = 27 ∧ s.panicked ≠ some "too big a transaction" := by
  have hw : Trans.AllSteps (step LOGSIZE) (Within (MAXOPBLOCKS - 1)) (initlog fun _ => 0)
      (threeOps (MAXOPBLOCKS - 1)) := by decide +kernel
  obtain ⟨s, hr, hn⟩ : ∃ s ∈ run (step LOGSIZE) (initlog fun _ => 0) (threeOps (MAXOPBLOCKS - 1)), s.lh.n = 27 := by
    decide +kernel
  exact ⟨s, hw, hr, hn, reservation_sufficient hw hr⟩

/-- Three operations of `MAXOPBLOCKS` blocks are admitted together, but the log has room for
`LOGSIZE - 1` blocks only. -/
theorem reservation_overflow :
    Trans.AllSteps (step LOGSIZE) (Within MAXOPBLOCKS) (initlog fun _ => 0) (threeOps MAXOPBLOCKS) ∧
    ∃ s, run (step LOGSIZE) (initlog fun _ => 0) (threeOps MAXOPBLOCKS) = some s ∧
      s.panicked = some "too big a transaction" := by decide +kernel

end Group
end Log
end Xv6
