import Mathlib

/-!
# Xv6.Sys.Ticks

`sys_sleep` of `kernel/sysproc.c` and the tick counter of `kernel/trap.c`.

* `sysSleep`: the loop, with the clock interrupts of each `sleep`.
* `sysSleep_punctual_iff`: for which arguments it returns at its first test behind that number of ticks.
-/

namespace Xv6
namespace Ticks

open List

/-- `clockintr`, as to `ticks`; it wakes up the sleepers. -/
def clockintr (ticks : BitVec 32) : BitVec 32 := ticks + 1

/-- A `sleep`: the clock interrupts until the process runs again, and whether it has been killed by then. -/
structure Wake where
  interrupts : Nat
  killed : Bool

/-- The loop of `sys_sleep`: the result, and the interrupts that came since `ticks0` was read. Without a further
`Wake` it is asleep. The comparison is unsigned, since `ticks` is. -/
def sleepLoop (n ticks0 : BitVec 32) : Nat → BitVec 32 → Bool → List Wake → Option (Int × Nat)
  | elapsed, ticks, killed, wakes =>
    if ticks - ticks0 < n then
      if killed then some (-1, elapsed)
      else
        match wakes with
        | [] => none
        | w :: wakes => sleepLoop n ticks0 (elapsed + w.interrupts) (clockintr^[w.interrupts] ticks) w.killed wakes
    else some (0, elapsed)

/-- `sys_sleep` for the `int` argument `n`. -/
def sysSleep (n ticks : BitVec 32) (killed : Bool) (wakes : List Wake) : Option (Int × Nat) :=
  sleepLoop n ticks 0 ticks killed wakes

/-- The interrupts that came before each test of the loop, if all fail. -/
def tests (elapsed : Nat) (wakes : List Wake) : List Nat := wakes.scanl (fun e w => e + w.interrupts) elapsed

/-- The interrupts that came before the first test with `max n 0` of them. -/
def due (n : BitVec 32) (wakes : List Wake) : Option Nat :=
  (tests 0 wakes).find? fun x => decide (max n.toInt 0 ≤ (x : Int))

theorem find?_eq_find?_iff {p q : Nat → Bool} {l : List Nat} (hpq : ∀ x, p x = true → q x = true) :
    l.find? p = l.find? q ↔ ∀ x, l.find? q = some x → p x = true := by
  refine ⟨fun h x hx => find?_some (h.trans hx), fun h => ?_⟩
  induction l with
  | nil => rfl
  | cons a l ih =>
    by_cases hq : q a = true
    · rw [find?_cons_of_pos hq] at h ⊢
      rw [find?_cons_of_pos (h a rfl)]
    · rw [find?_cons_of_neg hq] at h ⊢
      rw [find?_cons_of_neg fun hp => hq (hpq a hp)]
      exact ih h

theorem iterate_clockintr (k : Nat) (ticks : BitVec 32) : clockintr^[k] ticks = ticks + BitVec.ofNat 32 k := by
  induction k generalizing ticks with
  | zero => simp
  | succ k ih =>
    rw [Function.iterate_succ_apply, ih, clockintr]
    bv_omega

variable {wakes : List Wake}

/-- The loop tests the number of interrupts modulo `2 ^ 32` against the argument as an unsigned number. -/
theorem sleepLoop_eq {n : BitVec 32} (ticks0 : BitVec 32) (h : ∀ w ∈ wakes, w.killed = false) (e : Nat) :
    sleepLoop n ticks0 e (ticks0 + BitVec.ofNat 32 e) false wakes =
      ((tests e wakes).find? fun x => decide (n.toNat ≤ x % 2 ^ 32)).map fun x => (0, x) := by
  have htest : ∀ e, ticks0 + BitVec.ofNat 32 e - ticks0 < n ↔ ¬ n.toNat ≤ e % 2 ^ 32 := fun e => by
    rw [show ticks0 + BitVec.ofNat 32 e - ticks0 = BitVec.ofNat 32 e by bv_omega, BitVec.lt_def, BitVec.toNat_ofNat]
    omega
  induction wakes generalizing e with
  | nil =>
    rw [tests, scanl_nil, sleepLoop]
    by_cases ht : n.toNat ≤ e % 2 ^ 32
    · rw [if_neg ((htest e).not.mpr (not_not.mpr ht)), find?_cons_of_pos (by simpa using ht)]
      rfl
    · rw [if_pos ((htest e).mpr ht), find?_cons_of_neg (by simpa using ht)]
      rfl
  | cons w wakes ih =>
    rw [tests, scanl_cons, sleepLoop]
    by_cases ht : n.toNat ≤ e % 2 ^ 32
    · rw [if_neg ((htest e).not.mpr (not_not.mpr ht)), find?_cons_of_pos (by simpa using ht)]
      rfl
    · rw [if_pos ((htest e).mpr ht), find?_cons_of_neg (by simpa using ht), h w mem_cons_self,
        iterate_clockintr, BitVec.add_assoc, ← BitVec.ofNat_add, ← tests,
        ← ih fun w' hw' => h w' (mem_cons_of_mem _ hw')]
      rfl

/-- A process that is not killed returns 0 at its first test behind `max n 0` ticks, exactly if `n` is not negative and
the difference of the counters has not wrapped below `n` then. -/
theorem sysSleep_punctual_iff (n ticks : BitVec 32) (h : ∀ w ∈ wakes, w.killed = false) :
    sysSleep n ticks false wakes = (due n wakes).map (fun x => (0, x)) ↔
      0 ≤ n.toInt ∧ ∀ x, due n wakes = some x → n.toNat ≤ x % 2 ^ 32 := by
  have hrun := sleepLoop_eq (n := n) ticks h 0
  rw [BitVec.add_zero] at hrun
  rw [sysSleep, hrun, (Option.map_injective fun _ _ hxy => (Prod.mk.inj hxy).2).eq_iff]
  by_cases hn : 0 ≤ n.toInt
  · have hnat : n.toInt = n.toNat := by
      rw [BitVec.toInt_eq_toNat_cond] at hn ⊢
      split at hn <;> omega
    simp only [hn, true_and]
    rw [due, find?_eq_find?_iff]
    · simp
    · intro x hx
      rw [decide_eq_true_eq] at hx ⊢
      have := Nat.mod_le x (2 ^ 32)
      omega
  · refine iff_of_false (fun he => ?_) fun hc => hn hc.1
    -- the property is that it returns at once
    have h0 : due n wakes = some 0 := by
      rw [due, show tests 0 wakes = 0 :: (tests 0 wakes).tail by cases wakes <;> simp [tests]]
      exact find?_cons_of_pos (by simp; omega)
    have hpos := find?_some (he.trans h0)
    rw [decide_eq_true_eq] at hpos
    obtain rfl : n = 0 := by bv_omega
    exact hn (by decide)

theorem sysSleep_punctual_wraps : sysSleep 2 (BitVec.ofNat 32 (2 ^ 32 - 1)) false [⟨1, false⟩, ⟨1, false⟩] = some (0, 2) :=
  ((sysSleep_punctual_iff 2 _ (by decide)).mpr (by decide)).trans (by decide)

/-- A negative argument is a large unsigned number, and the process sleeps. -/
theorem negative_sleeps : sysSleep (-1) 0 false [⟨1, false⟩] = none ∧ due (-1) [⟨1, false⟩] = some 0 := by decide

end Ticks
end Xv6
