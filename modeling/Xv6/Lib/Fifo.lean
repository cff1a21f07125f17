import Mathlib.Data.BitVec
import Mathlib.Data.Nat.ModEq
import Mathlib.Logic.Function.Basic

/-!
# Xv6.Lib.Fifo

A ring of `N` places with two counters of `w` bits that are never reduced: places are used at the
counters modulo `N`, and the number of elements is the difference of the counters. When `N` divides
`2 ^ w` the counters may wrap around.

* `queue`: the elements, oldest first.
* `queue_push`, `queue_pop`: advancing a counter appends an element, or takes the oldest one away.
-/

namespace Fifo

open Function

variable {α : Type*} {N w r r' n : Nat} {d : Nat → α}

/-- The `n` elements from index `r` on. -/
def contents (N : Nat) (d : Nat → α) : Nat → Nat → List α
  | _, 0 => []
  | r, n + 1 => d (r % N) :: contents N d (r + 1) n

theorem contents_succ : contents N d r (n + 1) = contents N d r n ++ [d ((r + n) % N)] := by
  induction n generalizing r with
  | zero => rfl
  | succ n ih => rw [contents, ih, contents, List.cons_append, Nat.add_right_comm r 1 n, Nat.add_assoc r n 1]

theorem contents_congr (h : r ≡ r' [MOD N]) : contents N d r n = contents N d r' n := by
  induction n generalizing r r' with
  | zero => rfl
  | succ n ih => rw [contents, contents, ih (h.add_right 1), show r % N = r' % N from h]

@[simp] theorem length_contents : (contents N d r n).length = n := by
  induction n generalizing r with
  | zero => rfl
  | succ n ih => rw [contents, List.length_cons, ih]

theorem contents_update {m : Nat} (b : α) (hm : m < N) (hn : n ≤ m) :
    contents N (update d ((r + m) % N) b) r n = contents N d r n := by
  induction n generalizing r m with
  | zero => rfl
  | succ n ih =>
    obtain ⟨m, rfl⟩ := Nat.exists_eq_add_of_lt hn
    have hne : r % N ≠ (r + (n + m + 1)) % N := by
      intro he
      have hmod : n + m + 1 ≡ 0 [MOD N] := Nat.ModEq.add_left_cancel' r (by simpa using (show r ≡ _ [MOD N] from he).symm)
      exact absurd (Nat.le_of_dvd (by omega) (Nat.modEq_zero_iff_dvd.mp hmod)) (by omega)
    rw [contents, contents, update_of_ne hne, show r + (n + m + 1) = r + 1 + (n + m) by omega,
      ih (by omega) (by omega)]

def size (rd wr : BitVec w) : Nat := (wr - rd).toNat

/-- The elements, oldest first. -/
def queue (N : Nat) (d : Nat → α) (rd wr : BitVec w) : List α := contents N d rd.toNat (size rd wr)

variable {rd wr : BitVec w}

@[simp] theorem length_queue : (queue N d rd wr).length = size rd wr := length_contents

theorem size_eq_zero : size rd wr = 0 ↔ rd = wr := by
  rw [size, ← BitVec.toNat_zero, BitVec.toNat_inj, eq_comm (a := rd)]
  exact sub_eq_zero

/-- The write counter is the read counter and the number of elements, modulo `2 ^ w`. -/
theorem toNat_eq (rd wr : BitVec w) : wr.toNat = (rd.toNat + size rd wr) % 2 ^ w := by
  rw [size, ← BitVec.toNat_add, BitVec.add_comm, BitVec.sub_add_cancel]

theorem size_eq (hN : N < 2 ^ w) : size rd wr = N ↔ wr = rd + BitVec.ofNat w N := by
  constructor
  · rintro rfl
    exact BitVec.eq_of_toNat_eq (by rw [toNat_eq rd, BitVec.toNat_add, size, BitVec.ofNat_toNat]; simp)
  · rintro rfl
    rw [size, BitVec.add_comm, BitVec.add_sub_cancel, BitVec.toNat_ofNat, Nat.mod_eq_of_lt hN]

theorem toNat_one (h : 1 < 2 ^ w) : (1 : BitVec w).toNat = 1 := (BitVec.toNat_ofNat 1 w).trans (Nat.mod_eq_of_lt h)

theorem size_push (h : size rd wr + 1 < 2 ^ w) : size rd (wr + 1) = size rd wr + 1 := by
  rw [size, add_sub_right_comm, BitVec.toNat_add, toNat_one (by omega)]
  exact Nat.mod_eq_of_lt h

theorem size_pop (h : 0 < size rd wr) : size (rd + 1) wr = size rd wr - 1 := by
  have hlt : size rd wr < 2 ^ w := (wr - rd).isLt
  have h1 : (1 : BitVec w).toNat = 1 := toNat_one (by omega)
  rw [size, ← sub_sub, BitVec.toNat_sub_of_le (BitVec.le_def.mpr (by rw [h1]; exact h)), h1, size]

section Ring

variable (hd : N ∣ 2 ^ w)

include hd

theorem modEq_write : wr.toNat ≡ rd.toNat + size rd wr [MOD N] := by
  rw [toNat_eq rd]
  exact (Nat.mod_modEq _ _).of_dvd hd

theorem queue_push (b : α) (hN : N < 2 ^ w) (h : size rd wr < N) :
    queue N (update d (wr.toNat % N) b) rd (wr + 1) = queue N d rd wr ++ [b] := by
  have hwr : wr.toNat % N = (rd.toNat + size rd wr) % N := modEq_write hd
  rw [queue, size_push (by omega), contents_succ, hwr, contents_update b h (le_refl _), update_self, queue]

/-- Writing to the place behind the last element does not add it yet. -/
theorem queue_update (b : α) (h : size rd wr < N) :
    queue N (update d (wr.toNat % N) b) rd wr = queue N d rd wr := by
  have hwr : wr.toNat % N = (rd.toNat + size rd wr) % N := modEq_write hd
  rw [queue, hwr, contents_update b h (le_refl _), queue]

/-- Advancing the write counter adds the place behind the last element. -/
theorem queue_advance (hN : N < 2 ^ w) (h : size rd wr < N) :
    queue N d rd (wr + 1) = queue N d rd wr ++ [d (wr.toNat % N)] := by
  have hp := queue_push hd (d := d) (d (wr.toNat % N)) hN h
  rwa [update_eq_self] at hp

/-- An element that has not been taken is not at the place behind the last one. -/
theorem place_ne {k : Nat} (hk : k < size rd wr) (h : size rd wr < N) : (rd.toNat + k) % N ≠ wr.toNat % N := by
  rw [show wr.toNat % N = (rd.toNat + size rd wr) % N from modEq_write hd]
  intro he
  have hmod : size rd wr - k ≡ 0 [MOD N] := by
    refine Nat.ModEq.add_left_cancel' (rd.toNat + k) ?_
    rw [show rd.toNat + k + (size rd wr - k) = rd.toNat + size rd wr by omega, Nat.add_zero]
    exact he.symm
  exact absurd (Nat.le_of_dvd (by omega) (Nat.modEq_zero_iff_dvd.mp hmod)) (by omega)

theorem queue_pop (h : 0 < size rd wr) : queue N d rd wr = d (rd.toNat % N) :: queue N d (rd + 1) wr := by
  obtain ⟨n, hn⟩ := Nat.exists_eq_add_of_lt h
  have hrd : (rd + 1).toNat ≡ rd.toNat + 1 [MOD N] := by
    have hlt : size rd wr < 2 ^ w := (wr - rd).isLt
    rw [BitVec.toNat_add, toNat_one (by omega)]
    exact (Nat.mod_modEq _ _).of_dvd hd
  rw [queue, queue, size_pop h, hn, Nat.zero_add, Nat.add_sub_cancel, contents, contents_congr hrd]

end Ring

end Fifo
