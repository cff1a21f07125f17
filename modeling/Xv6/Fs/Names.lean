import Xv6.Fs.Calls
import Mathlib.Data.List.TakeWhile

/-!
# Xv6.Fs.Names

Names of directory entries.

A name is a field of `DIRSIZ` bytes that ends at its first zero, if it has one: `cstr` is the string in
it. `namecmp` and `skipelem` work on that string (`namecmp_eq_zero`, `skipelem_eq`), so that longer names
are cut in the same way.
-/

namespace Xv6
namespace Fs

open Bytes List

variable {nm : Name} {path : List UInt8}

def cstrFrom (f : Nat → UInt8) (n i : Nat) : List UInt8 := ((range' i n).map f).takeWhile (· ≠ 0)

def cstr (f : Nat → UInt8) : List UInt8 := cstrFrom f DIRSIZ 0

theorem cstrFrom_succ (f : Nat → UInt8) (n i : Nat) :
    cstrFrom f (n + 1) i = if f i = 0 then [] else f i :: cstrFrom f n (i + 1) := by
  simp only [cstrFrom, range'_succ, map_cons, takeWhile_cons]
  by_cases h : f i = 0 <;> simp [h]

theorem strncmp_eq_zero (p q : Nat → UInt8) (n i : Nat) : strncmp p q n i = 0 ↔ cstrFrom p n i = cstrFrom q n i := by
  induction n generalizing i with
  | zero => simp [strncmp, cstrFrom]
  | succ n ih =>
    rw [strncmp, cstrFrom_succ, cstrFrom_succ]
    by_cases h : p i ≠ 0 ∧ p i = q i
    · rw [if_pos h, if_neg h.1, if_neg (h.2 ▸ h.1), ih, cons.injEq]
      exact ⟨fun he => ⟨h.2, he⟩, fun he => he.2⟩
    · rw [if_neg h]
      have heq : ((p i).toNat : Int) - (q i).toNat = 0 ↔ p i = q i := by
        rw [← UInt8.toNat_inj]
        omega
      rw [heq]
      by_cases hp : p i = 0 <;> by_cases hq : q i = 0
      · simp [hp, hq]
      · rw [if_pos hp, if_neg hq, hp]
        exact ⟨fun he => absurd he.symm hq, fun he => absurd he (by simp)⟩
      · rw [if_neg hp, if_pos hq, hq]
        exact ⟨fun he => absurd he hp, fun he => absurd he (by simp)⟩
      · rw [if_neg hp, if_neg hq, cons.injEq]
        exact ⟨fun he => absurd ⟨hp, he⟩ h, fun he => absurd ⟨hp, he.1⟩ h⟩

theorem namecmp_eq_zero (p q : Nat → UInt8) : namecmp p q = 0 ↔ cstr p = cstr q := strncmp_eq_zero p q DIRSIZ 0

theorem cstr_putBytes {l m : List UInt8} (h0 : 0 ∉ l) (hl : l.length ≤ DIRSIZ)
    (hm : m = l ∧ l.length = DIRSIZ ∨ m = l ++ [0] ∧ l.length < DIRSIZ) : cstr (byte (putBytes nm 0 m)) = l := by
  have hget : ∀ j, (hj : j < l.length) → byte (putBytes nm 0 m) j = l[j] := fun j hj => by
    have hjm : j < m.length := by
      rcases hm with ⟨rfl, -⟩ | ⟨rfl, -⟩
      · exact hj
      · rw [length_append]
        omega
    have : byte (putBytes nm 0 m) (0 + j) = m[j] := byte_putBytes_in (by omega) hjm
    rw [Nat.zero_add] at this
    rw [this]
    rcases hm with ⟨rfl, -⟩ | ⟨rfl, -⟩
    · rfl
    · exact getElem_append_left hj
  have hsplit : (range' 0 DIRSIZ).map (byte (putBytes nm 0 m)) =
      l ++ (range' l.length (DIRSIZ - l.length)).map (byte (putBytes nm 0 m)) := by
    have : range' 0 DIRSIZ = range' 0 l.length ++ range' l.length (DIRSIZ - l.length) := by
      have happ := @range'_append_1 0 l.length (DIRSIZ - l.length)
      rw [Nat.zero_add] at happ
      rw [happ]
      congr 1
      omega
    rw [this, map_append]
    congr 1
    refine ext_getElem (by simp) fun j h1 h2 => ?_
    simp only [getElem_map, getElem_range', Nat.zero_add, Nat.one_mul]
    exact hget j h2
  have hrest : ((range' l.length (DIRSIZ - l.length)).map (byte (putBytes nm 0 m))).takeWhile (· ≠ 0) = [] := by
    rcases hm with ⟨-, hlen⟩ | ⟨rfl, hlen⟩
    · rw [hlen, Nat.sub_self]
      rfl
    · have hz : byte (putBytes nm 0 (l ++ [0])) l.length = 0 := by
        have := @byte_putBytes_in _ nm 0 l.length (l ++ [0]) (by omega) (by simp)
        rw [Nat.zero_add] at this
        rw [this]
        simp
      obtain ⟨k, hk⟩ : ∃ k, DIRSIZ - l.length = k + 1 := ⟨DIRSIZ - l.length - 1, by omega⟩
      rw [hk, range'_succ, map_cons, takeWhile_cons, if_neg (by simp [hz])]
  rw [cstr, cstrFrom, hsplit, takeWhile_append_of_pos fun c hc => ?_, hrest, append_nil]
  exact decide_eq_true fun hz => h0 (hz ▸ hc)

/-! ## Paths -/

def elems (path : List UInt8) : List (List UInt8) := (path.splitOn SLASH).filter (· ≠ [])

theorem elems_slash (path : List UInt8) : elems (SLASH :: path) = elems path := by
  have := @splitOnP_append_cons_of_forall_mem _ (· == SLASH) [] (by simp) SLASH (by simp) path
  rw [elems, splitOn, ← nil_append (SLASH :: path), this]
  rfl

theorem elems_dropWhile (path : List UInt8) : elems (path.dropWhile (· = SLASH)) = elems path := by
  induction path with
  | nil => rfl
  | cons c path ih =>
    rw [dropWhile_cons]
    split
    · rename_i h
      have hc : c = SLASH := by simpa using h
      rw [ih, hc, elems_slash]
    · rfl

theorem elems_takeWhile {s : List UInt8} (h : s.takeWhile (· ≠ SLASH) ≠ []) :
    elems s = s.takeWhile (· ≠ SLASH) :: elems (s.dropWhile (· ≠ SLASH)) := by
  have hw : ∀ c ∈ s.takeWhile (· ≠ SLASH), (c == SLASH) = false := fun c hc => by
    simpa using mem_takeWhile_imp hc
  have hs := (takeWhile_append_dropWhile (p := (· ≠ SLASH)) (l := s)).symm
  cases hd : s.dropWhile (· ≠ SLASH) with
  | nil =>
    rw [hd, append_nil] at hs
    have hone := splitOnP_eq_singleton hw
    rw [← hs] at hone h ⊢
    rw [elems, splitOn, hone, filter_cons_of_pos (by simpa using h)]
    rfl
  | cons c r =>
    have hc : c = SLASH := by
      have := head_dropWhile_not (p := (· ≠ SLASH)) (l := s) (by rw [hd]; simp)
      simp only [hd, head_cons] at this
      simpa using this
    rw [hd, hc] at hs
    have hfirst := splitOnP_append_cons_of_forall_mem hw SLASH (by simp) r
    rw [← hs] at hfirst
    rw [elems, splitOn, hfirst, filter_cons_of_pos (by simpa using h), hc, elems_slash]
    rfl

theorem takeWhile_ne_nil (h : path.dropWhile (· = SLASH) ≠ []) :
    (path.dropWhile (· = SLASH)).takeWhile (· ≠ SLASH) ≠ [] := by
  have hhead := head_dropWhile_not (p := (· = SLASH)) (l := path) h
  cases hs : path.dropWhile (· = SLASH) with
  | nil => exact absurd hs h
  | cons c r =>
    simp only [hs, head_cons, decide_eq_false_iff_not] at hhead
    rw [takeWhile_cons, if_pos (by simpa using hhead)]
    simp

theorem elems_eq_nil {path : List UInt8} (h : path.dropWhile (· = SLASH) ≠ []) : elems path ≠ [] := by
  rw [← elems_dropWhile, elems_takeWhile (takeWhile_ne_nil h)]
  simp

theorem skipelem_none (h : skipelem path nm = none) : elems path = [] := by
  rw [skipelem] at h
  dsimp only at h
  split at h
  · rename_i hs
    rw [← elems_dropWhile, hs]
    rfl
  · split at h <;> cases h

/-- `skipelem` yields the first element, cut to `DIRSIZ` bytes, and the rest of the path. -/
theorem skipelem_eq {rest : List UInt8} {nm' : Name} (h0 : 0 ∉ path) (h : skipelem path nm = some (rest, nm')) :
    ∃ w, elems path = w :: elems rest ∧ cstr (byte nm') = w.take DIRSIZ ∧ (rest = [] ↔ elems rest = []) ∧
      0 ∉ rest ∧ rest.length < path.length := by
  rw [skipelem] at h
  dsimp only at h
  split at h
  · cases h
  rename_i hs
  have hne := takeWhile_ne_nil hs
  set s := path.dropWhile (· = SLASH) with hsdef
  set w := s.takeWhile (· ≠ SLASH) with hw
  have hsub : ∀ c ∈ s, c ∈ path := fun c hc => (dropWhile_suffix _).subset hc
  have hw0 : 0 ∉ w := fun hc => h0 (hsub 0 (( takeWhile_prefix _).subset hc))
  have hrest : rest = (s.dropWhile (· ≠ SLASH)).dropWhile (· = SLASH) ∧ cstr (byte nm') = w.take DIRSIZ := by
    split at h
    · rename_i hlen
      cases h
      refine ⟨rfl, cstr_putBytes (fun hc => hw0 (mem_of_mem_take hc)) (by simp) (.inl ⟨rfl, ?_⟩)⟩
      simpa using hlen
    · rename_i hlen
      cases h
      have hlt : w.length < DIRSIZ := Nat.lt_of_not_le hlen
      refine ⟨rfl, ?_⟩
      rw [take_of_length_le (Nat.le_of_lt hlt)]
      exact cstr_putBytes hw0 (Nat.le_of_lt hlt) (.inr ⟨rfl, hlt⟩)
  obtain ⟨rfl, hname⟩ := hrest
  refine ⟨w, ?_, hname, ⟨fun hr => by rw [hr]; rfl, fun hr => ?_⟩, fun hc => ?_, ?_⟩
  · rw [← elems_dropWhile, elems_takeWhile hne, elems_dropWhile]
  · by_contra hcon
    refine @elems_eq_nil (s.dropWhile (· ≠ SLASH)) hcon ?_
    rwa [elems_dropWhile] at hr
  · exact h0 (hsub 0 ((dropWhile_suffix _).subset ((dropWhile_suffix _).subset hc)))
  · have h1 := ((s.dropWhile (· ≠ SLASH)).dropWhile_suffix (· = SLASH)).length_le
    have h2 : (s.dropWhile (· ≠ SLASH)).length + w.length = s.length := by
      rw [Nat.add_comm, ← length_append, takeWhile_append_dropWhile]
    have h3 : s.length ≤ path.length := (path.dropWhile_suffix (· = SLASH)).length_le
    have h4 := length_pos_iff.mpr hne
    omega

end Fs
end Xv6
