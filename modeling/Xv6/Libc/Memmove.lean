import Mathlib

/-!
# Xv6.Libc.Memmove

The two functions `memmove`, of `kernel/string.c` and of `user/ulib.c`. Both copy upwards or downwards, with
different tests for the direction.

* `copyUp_eq`, `copyDown_eq`: a loop moves the bytes if no byte is overwritten before it is read.
* `memmove_moves`: both functions move the bytes, for all overlaps.
-/

namespace Xv6
namespace Libc

open Function

abbrev Addr := BitVec 64

abbrev Mem := Addr → UInt8

/-- `while(n-- > 0) *d++ = *s++;` -/
def copyUp : Nat → Addr → Addr → Mem → Mem
  | 0, _, _, m => m
  | n + 1, d, s, m => copyUp n (d + 1) (s + 1) (update m d (m s))

/-- `while(n-- > 0) *--d = *--s;` -/
def copyDown : Nat → Addr → Addr → Mem → Mem
  | 0, _, _, m => m
  | n + 1, d, s, m => copyDown n (d - 1) (s - 1) (update m (d - 1) (m (s - 1)))

/-- `memmove` of the kernel; `n` is a `uint`. -/
def Kernel.memmove (dst src : Addr) (n : BitVec 32) (m : Mem) : Mem :=
  if n = 0 then m
  else if src < dst ∧ src + n.setWidth 64 > dst then
    copyDown n.toNat (dst + n.setWidth 64) (src + n.setWidth 64) m
  else copyUp n.toNat dst src m

/-- `memmove` of the user library; `n` is an `int`. -/
def User.memmove (dst src : Addr) (n : BitVec 32) (m : Mem) : Mem :=
  if src > dst then copyUp n.toInt.toNat dst src m
  else copyDown n.toInt.toNat (dst + n.signExtend 64) (src + n.signExtend 64) m

/-- The `n` bytes at `src` are at `dst`, and the other bytes are as they were. -/
def moved (dst src : Addr) (n : Nat) (m : Mem) : Mem := fun a =>
  if (a - dst).toNat < n then m (src + (a - dst)) else m a

variable {m : Mem}

theorem copyUp_eq : ∀ {n : Nat} {d s : Addr} {m : Mem}, n ≤ 2 ^ 64 → ¬ (0 < (d - s).toNat ∧ (d - s).toNat < n) →
    copyUp n d s m = moved d s n m := by
  intro n
  induction n with
  | zero => exact fun _ _ => rfl
  | succ n ih =>
    intro d s m hn h
    rw [copyUp, ih (by omega) (by bv_omega)]
    funext a
    simp only [moved]
    rw [show s + 1 + (a - (d + 1)) = s + (a - d) by bv_omega]
    by_cases ha : a = d
    · subst ha
      rw [if_neg (by bv_omega), if_pos (by bv_omega), update_self]
      congr 1
      bv_omega
    · by_cases hlt : (a - d).toNat < n + 1
      · -- what is read was not written yet
        rw [if_pos (by bv_omega), if_pos hlt, update_of_ne (by bv_omega)]
      · rw [if_neg (by bv_omega), if_neg hlt, update_of_ne ha]

theorem copyDown_eq_top : ∀ {n : Nat} {d s : Addr} {m : Mem}, n ≤ 2 ^ 64 →
    ¬ (0 < (s - d).toNat ∧ (s - d).toNat < n) →
    copyDown n d s m = fun a => if (d - 1 - a).toNat < n then m (s - (d - a)) else m a := by
  intro n
  induction n with
  | zero => exact fun _ _ => rfl
  | succ n ih =>
    intro d s m hn h
    rw [copyDown, ih (by omega) (by bv_omega)]
    funext a
    rw [show s - 1 - (d - 1 - a) = s - (d - a) by bv_omega]
    by_cases ha : a = d - 1
    · subst ha
      rw [if_neg (by bv_omega), if_pos (by bv_omega), update_self]
      congr 1
      bv_omega
    · by_cases hlt : (d - 1 - a).toNat < n + 1
      · rw [if_pos (by bv_omega), if_pos hlt, update_of_ne (by bv_omega)]
      · rw [if_neg (by bv_omega), if_neg hlt, update_of_ne ha]

theorem copyDown_eq {n : Nat} {d s : Addr} (hn : n < 2 ^ 64) (h : ¬ (0 < (s - d).toNat ∧ (s - d).toNat < n)) :
    copyDown n (d + BitVec.ofNat 64 n) (s + BitVec.ofNat 64 n) m = moved d s n m := by
  rw [copyDown_eq_top (by omega) (by bv_omega)]
  funext a
  simp only [moved]
  rw [show s + BitVec.ofNat 64 n - (d + BitVec.ofNat 64 n - a) = s + (a - d) by bv_omega]
  exact if_congr (by bv_omega) rfl rfl

/-- The destination has the bytes of the source, and every other byte is unchanged. -/
def Moves (dst src : Addr) (n : Nat) (m m' : Mem) : Prop :=
  (∀ i < n, m' (dst + BitVec.ofNat 64 i) = m (src + BitVec.ofNat 64 i)) ∧
    ∀ a, (∀ i < n, a ≠ dst + BitVec.ofNat 64 i) → m' a = m a

theorem moves_moved {dst src : Addr} {n : Nat} (hn : n < 2 ^ 64) : Moves dst src n m (moved dst src n m) := by
  refine ⟨fun i hi => ?_, fun a ha => ?_⟩
  · rw [moved, if_pos (by bv_omega)]
    congr 1
    bv_omega
  · rw [moved, if_neg]
    intro hlt
    exact ha _ hlt (by bv_omega)

/-- For ranges that do not wrap both functions move the bytes, whatever the overlap, and so they agree. -/
theorem memmove_moves {dst src : Addr} {n : Nat} (hn : n < 2 ^ 31) (hd : dst.toNat + n ≤ 2 ^ 64)
    (hs : src.toNat + n ≤ 2 ^ 64) (m : Mem) :
    Moves dst src n m (Kernel.memmove dst src (BitVec.ofNat 32 n) m) ∧
      Moves dst src n m (User.memmove dst src (BitVec.ofNat 32 n) m) ∧
      Kernel.memmove dst src (BitVec.ofNat 32 n) m = User.memmove dst src (BitVec.ofNat 32 n) m := by
  have hw : (BitVec.ofNat 32 n).setWidth 64 = BitVec.ofNat 64 n := by bv_omega
  have hnat : (BitVec.ofNat 32 n).toNat = n := by bv_omega
  have hkernel : Kernel.memmove dst src (BitVec.ofNat 32 n) m = moved dst src n m := by
    rw [Kernel.memmove, hw, hnat]
    split
    · rename_i h0
      obtain rfl : n = 0 := by bv_omega
      rfl
    split
    · exact copyDown_eq (by omega) (by bv_omega)
    · exact copyUp_eq (by omega) (by bv_omega)
  have huser : User.memmove dst src (BitVec.ofNat 32 n) m = moved dst src n m := by
    rw [User.memmove, BitVec.toInt_eq_toNat_of_lt (by omega), hnat, Int.toNat_natCast,
      BitVec.signExtend_eq_setWidth_of_msb_false (BitVec.msb_eq_false_iff_two_mul_lt.mpr (by omega)), hw]
    split
    · exact copyUp_eq (by omega) (by bv_omega)
    · exact copyDown_eq (by omega) (by bv_omega)
  rw [hkernel, huser]
  exact ⟨moves_moved (by omega), moves_moved (by omega), rfl⟩

theorem memmove_moves_overlap : Moves 4 3 2 (fun a => .ofNat a.toNat) (Kernel.memmove 4 3 2 fun a => .ofNat a.toNat) :=
  (memmove_moves (n := 2) (by decide) (by decide) (by decide) _).1

end Libc
end Xv6
