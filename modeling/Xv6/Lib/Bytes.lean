import Mathlib.Data.List.OfFn
import Mathlib.Tactic.Ring

/-!
# Xv6.Lib.Bytes

Fixed-size byte buffers and the little-endian layout of integers in them.

* `slice b off k` reads `k` bytes at offset `off`; `putBytes b off src` overwrites the bytes at
  `off` with the list `src`. A slice of what was just written is what was written
  (`slice_putBytes_same`), and a slice that does not meet the written range is unchanged
  (`slice_putBytes_disj`).
* `encLE k v` is the `k`-byte little-endian form of `v`, `decLE` reads it back
  (`decLE_encLE`).
* `getLE` and `putLE` put the two together: an integer field of a C structure.
-/

namespace Bytes

open List

abbrev Buf (n : Nat) := Fin n → UInt8

variable {n : Nat} {b : Buf n} {off k v : Nat} {src : List UInt8}

/-- The byte at offset `i`; zero beyond the end. -/
def byte (b : Buf n) (i : Nat) : UInt8 := if h : i < n then b ⟨i, h⟩ else 0

/-- The `k` bytes at offset `off`. -/
def slice (b : Buf n) (off k : Nat) : List UInt8 := ofFn fun i : Fin k => byte b (off + i)

/-- The bytes at `off` replaced by `src`, as `memmove` does. -/
def putBytes (b : Buf n) (off : Nat) (src : List UInt8) : Buf n :=
  fun p => if off ≤ p.val then (src[p.val - off]?).getD (b p) else b p

@[simp] theorem length_slice (b : Buf n) (off k : Nat) : (slice b off k).length = k := by
  simp [slice]

theorem byte_putBytes_in {b : Buf n} {off i : Nat} {src : List UInt8} (hi : off + i < n)
    (hs : i < src.length) : byte (putBytes b off src) (off + i) = src[i] := by
  simp [byte, putBytes, hi, hs]

theorem byte_putBytes_out {i : Nat}
    (h : i < off ∨ off + src.length ≤ i) : byte (putBytes b off src) i = byte b i := by
  unfold byte putBytes
  split
  · rcases h with h | h
    · rw [if_neg (by simp; omega)]
    · rw [getElem?_eq_none (by simp; omega)]
      simp
  · rfl

theorem slice_congr {c : Buf n}
    (h : ∀ i, i < k → byte b (off + i) = byte c (off + i)) : slice b off k = slice c off k := by
  simp only [slice, ofFn_inj]
  funext i
  exact h i i.isLt

theorem slice_putBytes_same (h : off + src.length ≤ n) : slice (putBytes b off src) off src.length = src := by
  apply ext_getElem (by simp)
  intro i h1 h2
  simp only [slice, List.getElem_ofFn]
  exact byte_putBytes_in (by omega) h2

theorem slice_putBytes_disj {off' : Nat} (h : off' + k ≤ off ∨ off + src.length ≤ off') :
    slice (putBytes b off src) off' k = slice b off' k := by
  apply slice_congr
  intro i hi
  exact byte_putBytes_out (by omega)

/-! ## Little-endian integers -/

/-- The `k` low bytes of `v`, least significant first. -/
def encLE : Nat → Nat → List UInt8
  | 0, _ => []
  | k + 1, v => UInt8.ofNat v :: encLE k (v / 256)

/-- The number that a list of bytes denotes, least significant first. -/
def decLE : List UInt8 → Nat
  | [] => 0
  | x :: xs => x.toNat + 256 * decLE xs

@[simp] theorem length_encLE (k v : Nat) : (encLE k v).length = k := by
  induction k generalizing v with
  | zero => rfl
  | succ k ih => simp [encLE, ih]

theorem decLE_encLE (k v : Nat) : decLE (encLE k v) = v % 256 ^ k := by
  induction k generalizing v with
  | zero => simp [encLE, decLE, Nat.mod_one]
  | succ k ih =>
    simp only [encLE, decLE, ih, UInt8.toNat_ofNat']
    have hp : 256 ^ (k + 1) = 256 * 256 ^ k := by ring
    rw [hp, Nat.mod_mul]

theorem decLE_lt (l : List UInt8) : decLE l < 256 ^ l.length := by
  induction l with
  | nil => simp [decLE]
  | cons x xs ih =>
    have hx := x.toNat_lt
    simp only [decLE, length_cons, Nat.pow_succ]
    omega

/-- The `k`-byte integer at offset `off`. -/
def getLE (b : Buf n) (off k : Nat) : Nat := decLE (slice b off k)

/-- The `k`-byte integer at offset `off` set to `v`. -/
def putLE (b : Buf n) (off k v : Nat) : Buf n := putBytes b off (encLE k v)

theorem getLE_lt (b : Buf n) (off k : Nat) : getLE b off k < 256 ^ k := by
  simpa [getLE] using decLE_lt (slice b off k)

theorem getLE_putLE_same (h : off + k ≤ n) : getLE (putLE b off k v) off k = v % 256 ^ k := by
  have hs : slice (putBytes b off (encLE k v)) off (encLE k v).length = encLE k v :=
    slice_putBytes_same (by simpa using h)
  rw [length_encLE] at hs
  rw [getLE, putLE, hs, decLE_encLE]

theorem getLE_putLE_disj {off' k' : Nat} (h : off' + k' ≤ off ∨ off + k ≤ off') :
    getLE (putLE b off k v) off' k' = getLE b off' k' := by
  rw [getLE, putLE, slice_putBytes_disj (by simpa using h), getLE]

/-! ## Records -/

theorem take_drop_flatMap {α : Type} {f : α → List UInt8} (hf : ∀ x, (f x).length = k) :
    ∀ (l : List α) (i : Nat) (h : i < l.length), ((l.flatMap f).drop (k * i)).take k = f l[i] := by
  intro l
  induction l with
  | nil => exact fun i h => absurd h (Nat.not_lt_zero i)
  | cons x l ih =>
    intro i h
    have hx := hf x
    cases i with
    | zero => simp [← hx]
    | succ i =>
      have hd : k * (i + 1) = (f x).length + k * i := by rw [hx]; ring
      rw [flatMap_cons, hd, ← drop_drop, drop_left]
      exact ih i (Nat.lt_of_succ_lt_succ h)

/-- The `k`-byte integer at offset `off` of a record. -/
def field (l : List UInt8) (off k : Nat) : Nat := decLE ((l.drop off).take k)

theorem field_append_right {l l' : List UInt8} (h : l.length ≤ off) :
    field (l ++ l') off k = field l' (off - l.length) k := by
  rw [field, drop_append, drop_of_length_le h, nil_append, field]

theorem field_encLE {l : List UInt8} : field (encLE k v ++ l) 0 k = v % 256 ^ k := by
  rw [field, drop_zero, take_append_of_le_length (by simp),
    take_of_length_le (by simp), decLE_encLE]

end Bytes
