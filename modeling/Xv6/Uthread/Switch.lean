import Mathlib.Data.Nat.Find
import Xv6.Uthread.Tid

/-!
# Xv6.Uthread.Switch

`tsched` with the registers that `tswtch.S` saves and loads. `Machine` has the registers beside the state of
the library, and for every thread the words of its `tcontext`.

* `tswtch_saves`, `tswtch_loads`, `tswtch_other`: the code of `tswtch`.
* `tschedLoop_skip`: the loop of `tsched` passes the slots that are not RUNNABLE.
* `tsched_first_switch`: which thread the first switch goes to, and what happens to the registers.
-/

namespace Xv6
namespace Uthread

open St Function

inductive Reg
  | ra | sp | s0 | s1 | s2 | s3 | s4 | s5 | s6 | s7 | s8 | s9 | s10 | s11
  deriving DecidableEq, Repr

def Reg.offset : Reg → Nat
  | .ra => 0
  | .sp => 8
  | .s0 => 16
  | .s1 => 24
  | .s2 => 32
  | .s3 => 40
  | .s4 => 48
  | .s5 => 56
  | .s6 => 64
  | .s7 => 72
  | .s8 => 80
  | .s9 => 88
  | .s10 => 96
  | .s11 => 104

/-- `tcontext p off` is the word at `off` in the `tcontext` of thread `p`. -/
structure Machine where
  st : St
  regs : Reg → UInt64
  tcontext : Ptr → Nat → UInt64

/-- `sd r, off(a)`, where `a` points to the `tcontext` of `p`. -/
def sd (p : Ptr) (m : Machine) (x : Reg × Nat) : Machine :=
  { m with tcontext := update m.tcontext p (update (m.tcontext p) x.2 (m.regs x.1)) }

/-- `ld r, off(a)` -/
def ld (p : Ptr) (m : Machine) (x : Reg × Nat) : Machine :=
  { m with regs := update m.regs x.1 (m.tcontext p x.2) }

/-- The operands of the `sd` and of the `ld` in `tswtch`. -/
def operands : List (Reg × Nat) :=
  [(.ra, 0), (.sp, 8), (.s0, 16), (.s1, 24), (.s2, 32), (.s3, 40), (.s4, 48), (.s5, 56), (.s6, 64), (.s7, 72),
    (.s8, 80), (.s9, 88), (.s10, 96), (.s11, 104)]

def tswtch (m : Machine) (old new : Ptr) : Machine := operands.foldl (ld new) (operands.foldl (sd old) m)

/-- Where a call of `tsched` is first: behind a switch, or behind its loop. -/
inductive Stop
  | switched (m : Machine)
  | returned (m : Machine)

/-- The body of the `if` in `tsched`. There is no slot -1. -/
def switchTo (m : Machine) (k : Int) (t : Ptr) : Option Stop :=
  let st := { m.st.setState t .running with current := t }
  if k < 0 then none else (st.threads k.toNat).map fun old => .switched (tswtch { m with st := st } old t)

/-- The loop of `tsched`, at most `n` turns of it. -/
def tschedLoop (m : Machine) (k : Int) : Nat → Nat → Option Stop
  | 0, _ => none
  | n + 1, i =>
    if ((i % MAX_THREADS : Nat) : Int) = k then some (.returned m)
    else
      match m.st.threads (i % MAX_THREADS) with
      | some t => if (m.st.thread t).state = .runnable then switchTo m k t else tschedLoop m k n (i + 1)
      | none => tschedLoop m k n (i + 1)

def tsched (n : Nat) (m : Machine) : Option Stop :=
  let k := findThreadIndex m.st m.st.current
  tschedLoop m k n (k + 1).toNat

/-! ## tswtch -/

section Swtch

variable (m : Machine) {old new p : Ptr} (r : Reg)

theorem foldl_ld (l : List (Reg × Nat)) : ∀ m : Machine,
    (l.foldl (ld p) m).st = m.st ∧ (l.foldl (ld p) m).tcontext = m.tcontext := by
  induction l with
  | nil => exact fun m => ⟨rfl, rfl⟩
  | cons x l ih => exact fun m => ih (ld p m x)

theorem foldl_sd (l : List (Reg × Nat)) : ∀ m : Machine, (l.foldl (sd old) m).st = m.st ∧
    (l.foldl (sd old) m).regs = m.regs ∧ ∀ p, p ≠ old → (l.foldl (sd old) m).tcontext p = m.tcontext p := by
  induction l with
  | nil => exact fun m => ⟨rfl, rfl, fun _ _ => rfl⟩
  | cons x l ih =>
    intro m
    obtain ⟨h1, h2, h3⟩ := ih (sd old m x)
    exact ⟨h1, h2, fun p hp => (h3 p hp).trans (update_of_ne hp _ _)⟩

theorem tswtch_st : (tswtch m old new).st = m.st :=
  (foldl_ld operands _).1.trans (foldl_sd operands m).1

theorem tswtch_other (hp : p ≠ old) : (tswtch m old new).tcontext p = m.tcontext p := by
  rw [tswtch, (foldl_ld operands _).2, (foldl_sd operands m).2.2 p hp]

theorem tswtch_saves : (tswtch m old new).tcontext old r.offset = m.regs r := by
  rw [tswtch, (foldl_ld operands _).2]
  cases r <;> simp [operands, sd, Reg.offset]

theorem tswtch_loads (hne : new ≠ old) : (tswtch m old new).regs r = m.tcontext new r.offset := by
  rw [← (foldl_sd operands m).2.2 new hne, tswtch]
  generalize operands.foldl (sd old) m = m'
  cases r <;> simp [operands, ld, Reg.offset]

end Swtch

/-! ## The loop -/

section Loop

variable {m : Machine} {k n d : Nat}

theorem slot_ne (h1 : 1 ≤ d) (h2 : d < MAX_THREADS) : (k + d) % MAX_THREADS ≠ k := by
  simp only [MAX_THREADS] at *
  omega

theorem tschedLoop_skip (hd : d < MAX_THREADS)
    (hno : ∀ j, 1 ≤ j → j ≤ d → runnableAt m.st ((k + j) % MAX_THREADS) = false) :
    tschedLoop m k (n + d) (k + 1) = tschedLoop m k n (k + 1 + d) := by
  induction d generalizing n with
  | zero => rfl
  | succ d ih =>
    have hne : ((((k + 1 + d) % MAX_THREADS : Nat)) : Int) ≠ k := by
      have := slot_ne (k := k) (Nat.le_add_left 1 d) hd
      rw [Nat.add_right_comm, Nat.add_assoc]
      exact_mod_cast this
    have hslot := hno (d + 1) (Nat.le_add_left 1 d) (Nat.le_refl _)
    rw [show n + (d + 1) = n + 1 + d by omega, ih (by omega) fun j h1 h2 => hno j h1 (by omega), tschedLoop,
      if_neg hne]
    rw [show k + (d + 1) = k + 1 + d by omega, runnableAt] at hslot
    split
    · rename_i t ht
      rw [ht] at hslot
      rw [if_neg (of_decide_eq_false hslot)]
      rfl
    · rfl

end Loop

/-- The call of `tsched` by the thread in slot `k`. -/
theorem tsched_first_switch (m : Machine) (k : Nat) (hk : k < MAX_THREADS) (hcur : m.st.threads k = some m.st.current)
    (hd : ∀ i j p q, i < MAX_THREADS → j < MAX_THREADS → m.st.threads i = some p → m.st.threads j = some q →
      (m.st.thread p).tid = (m.st.thread q).tid → i = j) (n : Nat) (hn : MAX_THREADS ≤ n) :
    ((∃ i < MAX_THREADS, i ≠ k ∧ runnableAt m.st i = true) → ∃ d t m', 1 ≤ d ∧ d < MAX_THREADS ∧
      m.st.threads ((k + d) % MAX_THREADS) = some t ∧ (m.st.thread t).state = .runnable ∧
      (∀ j, 1 ≤ j → j < d → runnableAt m.st ((k + j) % MAX_THREADS) = false) ∧
      tsched n m = some (.switched m') ∧ m'.st = { m.st.setState t .running with current := t } ∧
      (∀ r : Reg, m'.tcontext m.st.current r.offset = m.regs r) ∧
      (∀ r : Reg, m'.regs r = m.tcontext t r.offset) ∧
      ∀ p, p ≠ m.st.current → m'.tcontext p = m.tcontext p) ∧
    ((∀ i < MAX_THREADS, i ≠ k → runnableAt m.st i = false) → tsched n m = some (.returned m)) := by
  have hown : findThreadIndex m.st m.st.current = k := (TidsOk.of_distinct hd).own_slot k _ hk hcur
  have hstart : tsched n m = tschedLoop m k n (k + 1) := by
    simp only [tsched, hown]
    rfl
  have hlt : ∀ j, (k + j) % MAX_THREADS < MAX_THREADS := fun j => Nat.mod_lt _ (by decide)
  rw [hstart]
  refine ⟨fun ⟨i, hi, hik, hrun⟩ => ?_, fun hno => ?_⟩
  · -- the first RUNNABLE slot in cyclic order
    have hex : ∃ d, 1 ≤ d ∧ d < MAX_THREADS ∧ runnableAt m.st ((k + d) % MAX_THREADS) = true := by
      refine ⟨(i + MAX_THREADS - k) % MAX_THREADS, ?_⟩
      have hback : (k + (i + MAX_THREADS - k) % MAX_THREADS) % MAX_THREADS = i := by
        simp only [MAX_THREADS] at *
        omega
      rw [hback]
      refine ⟨?_, Nat.mod_lt _ (by decide), hrun⟩
      simp only [MAX_THREADS] at *
      omega
    classical
    obtain ⟨h1, h2, h3⟩ := Nat.find_spec hex
    have hfirst : ∀ j, 1 ≤ j → j < Nat.find hex → runnableAt m.st ((k + j) % MAX_THREADS) = false := by
      intro j hj hlt
      have := Nat.find_min hex hlt
      simpa [hj, Nat.lt_trans hlt h2] using this
    generalize Nat.find hex = d at h1 h2 h3 hfirst
    have hrun := h3
    rw [runnableAt] at h3
    split at h3
    · rename_i t ht
      have hne : t ≠ m.st.current := by
        rintro rfl
        exact slot_ne h1 h2 (hd _ _ _ _ (hlt d) hk ht hcur rfl)
      have hloop := tschedLoop_skip (n := n - (d - 1)) (show d - 1 < MAX_THREADS by omega)
        fun j g1 g2 => hfirst j g1 (by omega)
      rw [show n - (d - 1) + (d - 1) = n by simp only [MAX_THREADS] at *; omega,
        show n - (d - 1) = n - d + 1 by simp only [MAX_THREADS] at *; omega, tschedLoop,
        show k + 1 + (d - 1) = k + d by omega, if_neg (by exact_mod_cast slot_ne h1 h2), ht] at hloop
      simp only [of_decide_eq_true h3, if_true, switchTo, Int.toNat_natCast, setState, setThread, hcur,
        Option.map_some, if_neg (Int.not_lt.mpr (Int.natCast_nonneg k))] at hloop
      exact ⟨d, t, _, h1, h2, ht, of_decide_eq_true h3, hfirst, hloop, tswtch_st _, tswtch_saves _,
        fun r => tswtch_loads _ r hne, fun p hp => tswtch_other _ hp⟩
    · cases h3
  · have hloop := tschedLoop_skip (m := m) (n := n - (MAX_THREADS - 1))
      (show MAX_THREADS - 1 < MAX_THREADS by decide) fun j h1 h2 => hno _ (hlt j) (slot_ne h1 (by omega))
    rw [Nat.sub_add_cancel (by omega), show n - (MAX_THREADS - 1) = n - MAX_THREADS + 1 by
      simp only [MAX_THREADS] at *; omega, tschedLoop, show k + 1 + (MAX_THREADS - 1) = k + MAX_THREADS by omega,
      Nat.add_mod_right, Nat.mod_eq_of_lt hk, if_pos rfl] at hloop
    exact hloop

/-- The main thread has made a thread. -/
def afterCreate : Machine :=
  { st := tcreate (init fun _ => 0) { oneThread with tid := 2 }, regs := fun _ => 7, tcontext := fun _ _ => 0 }

theorem tsched_first_switch_create : ∃ m', tsched MAX_THREADS afterCreate = some (.switched m') ∧
    m'.st.current = 1 ∧ (∀ r : Reg, m'.tcontext 0 r.offset = 7) ∧ ∀ r, m'.regs r = 0 := by
  have h2 : Two afterCreate.st := (alone_init fun _ => 0).tcreate rfl rfl
  obtain ⟨d, t, m', h1, hlt, ht, -, -, hs, hst, hsave, hload, -⟩ := (tsched_first_switch afterCreate 0 (by decide)
    (by decide) h2.tidsOk.distinct MAX_THREADS (Nat.le_refl _)).1 ⟨1, by decide, by decide, by decide⟩
  refine ⟨m', hs, ?_, hsave, hload⟩
  rw [hst]
  rcases h2.slot ht with ⟨h0, -⟩ | ⟨-, rfl⟩
  · rw [Nat.zero_add, Nat.mod_eq_of_lt hlt] at h0
    omega
  · rfl

end Uthread
end Xv6
