import Mathlib.Order.Lattice.Nat
import Xv6.Sh.Model

/-!
# Xv6.Sh.Tokens

The input as a list of tokens. `toks c s` are the tokens that `gettoken` returns from the cursor `s` on;
what the parser sees of its input is this list.

* `wp_gettoken`, `wp_peek`: the two functions that read characters, on the tokens.
* `IsWord`: the characters of a word, and that the one behind it belongs to no word.
-/

namespace Xv6
namespace Sh

open Wp List

/-- A token: a word, or a symbol, where `>>` is `+`. -/
inductive Tok
  | word (w : Word)
  | sym (c : Char)
  deriving DecidableEq, Repr

def tokOf (x : Char × Word) : Option Tok :=
  if x.1 = '\x00' then none else if x.1 = 'a' then some (.word x.2) else some (.sym x.1)

def toksFrom (c : CStr) : Nat → Nat → List Tok
  | 0, _ => []
  | n + 1, s =>
    match tokOf (scan c s).1 with
    | none => []
    | some t => t :: toksFrom c n (scan c s).2

/-- The tokens from the cursor on: a token has a character at least. -/
def toks (c : CStr) (s : Nat) : List Tok := toksFrom c (c.len + 1 - s) s

variable {c : CStr} {s : Nat} {r : Char} {Q : Char × Word → Nat → Prop}

/-! ## Characters -/

theorem skip_spec (p : Char → Bool) (mem : Nat → Char) : ∀ n s, s ≤ skip p mem n s ∧ skip p mem n s ≤ s + n ∧
    (∀ i, s ≤ i → i < skip p mem n s → p (mem i) = true) ∧
    (skip p mem n s < s + n → p (mem (skip p mem n s)) = false) := by
  intro n
  induction n with
  | zero =>
    intro s
    refine ⟨le_refl _, le_refl _, fun i h1 h2 => ?_, fun h => absurd h (lt_irrefl _)⟩
    exact absurd h2 (not_lt.mpr h1)
  | succ n ih =>
    intro s
    rw [skip]
    split
    · rename_i hp
      obtain ⟨h1, h2, h3, h4⟩ := ih (s + 1)
      refine ⟨by omega, by omega, fun i hi hlt => ?_, fun h => h4 (by omega)⟩
      rcases Nat.eq_or_lt_of_le hi with rfl | hi
      · exact hp
      · exact h3 i hi hlt
    · rename_i hp
      exact ⟨le_refl _, by omega, fun i h1 h2 => absurd h2 (not_lt.mpr h1), fun _ => eq_false_of_ne_true hp⟩

def isWordChar (x : Char) : Bool := x != '\x00' && !whitespace.contains x && !symbols.contains x

theorem skipSpace_spec (hs : s ≤ c.len) : s ≤ skipSpace c s ∧ skipSpace c s ≤ c.len ∧
    whitespace.contains (c.mem (skipSpace c s)) = false := by
  obtain ⟨h1, h2, _, h4⟩ := skip_spec (whitespace.contains ·) c.mem (c.len - s) s
  change s ≤ skipSpace c s at h1
  change skipSpace c s ≤ _ at h2
  refine ⟨h1, by omega, ?_⟩
  by_cases hlt : skipSpace c s < c.len
  · exact h4 (by change skipSpace c s < _; omega)
  · rw [show skipSpace c s = c.len by omega, c.zero]
    decide

theorem skipSpace_idem (hs : s ≤ c.len) : skipSpace c (skipSpace c s) = skipSpace c s := by
  obtain ⟨_, _, h3⟩ := skipSpace_spec hs
  generalize skipSpace c s = t at h3 ⊢
  unfold skipSpace
  cases c.len - t with
  | zero => rfl
  | succ n =>
    rw [skip, if_neg]
    simpa using h3

/-- The pointers of a word: its characters are between them, and the character behind is none. -/
structure IsWord (c : CStr) (w : Word) : Prop where
  lt : w.q < w.eq
  le : w.eq ≤ c.len
  chars : ∀ i, w.q ≤ i → i < w.eq → isWordChar (c.mem i) = true
  stop : isWordChar (c.mem w.eq) = false

theorem skipWord_spec (hs : s ≤ c.len) (hw : isWordChar (c.mem s) = true) :
    skipWord c s ≤ c.len ∧ IsWord c ⟨s, skipWord c s⟩ := by
  obtain ⟨h1, h2, h3, h4⟩ :=
    skip_spec (fun x => !whitespace.contains x && !symbols.contains x) c.mem (c.len - s) s
  change s ≤ skipWord c s at h1
  change skipWord c s ≤ _ at h2
  have hle : skipWord c s ≤ c.len := by omega
  have hstop : isWordChar (c.mem (skipWord c s)) = false := by
    by_cases hlt : skipWord c s < c.len
    · have := h4 (by change skipWord c s < _; omega)
      rw [isWordChar, Bool.and_assoc]
      exact Bool.and_eq_false_imp.mpr fun _ => this
    · rw [show skipWord c s = c.len by omega, c.zero]
      decide
  refine ⟨hle, ?_, hle, fun i hi hlt => ?_, hstop⟩
  · refine lt_of_le_of_ne h1 fun he => ?_
    change s = skipWord c s at he
    rw [← he, hw] at hstop
    cases hstop
  · have hp := h3 i hi hlt
    have hne := c.nonzero i (lt_of_lt_of_le hlt hle)
    rw [isWordChar, Bool.and_assoc, hp, Bool.and_true]
    simpa using hne

/-! ## One token -/

def first (r : Char) : Char := if r = '+' then '>' else r

/-- What `gettoken` returns at the end, for a symbol and for a word. -/
inductive Scanned (c : CStr) (s : Nat) : Char → Word → Nat → Prop
  | stop {w : Word} : skipSpace c s = c.len → Scanned c s '\x00' w c.len
  | sym {r : Char} {w : Word} {s' : Nat} : r ∈ ['|', '(', ')', ';', '&', '<', '>', '+'] →
      c.mem (skipSpace c s) = first r → s < s' → s' ≤ c.len → Scanned c s r w s'
  | word {w : Word} {s' : Nat} : w.q = skipSpace c s → IsWord c w → s < s' → s' ≤ c.len → Scanned c s 'a' w s'

theorem scanned (hs : s ≤ c.len) : Scanned c s (scan c s).1.1 (scan c s).1.2 (scan c s).2 := by
  obtain ⟨hle, hlen, hspace⟩ := skipSpace_spec hs
  unfold scan
  dsimp only
  generalize ht : skipSpace c s = t at hle hlen hspace
  unfold token
  dsimp only
  split
  · -- the end of the string
    rename_i h0
    have htl : t = c.len := by
      by_contra hne
      exact c.nonzero t (by omega) h0
    rw [h0, show skipSpace c t = c.len by
      have := skipSpace_spec (s := t) hlen
      omega]
    exact .stop (ht.trans htl)
  rename_i h0
  have hlt : t < c.len := by
    refine lt_of_le_of_ne hlen fun he => h0 ?_
    rw [he, c.zero]
  -- behind a symbol of `k` characters
  have hsym : ∀ {r : Char} (k : Nat), r ∈ ['|', '(', ')', ';', '&', '<', '>', '+'] → c.mem t = first r → 0 < k →
      t + k ≤ c.len → Scanned c s r ⟨t, t + k⟩ (skipSpace c (t + k)) := by
    intro r k hr hf hk hlek
    have := skipSpace_spec (s := t + k) hlek
    exact .sym hr (by rw [ht]; exact hf) (by omega) (by omega)
  split
  · rename_i hm
    refine hsym (r := c.mem t) 1 ?_ ?_ Nat.one_pos hlt
    · simp only [mem_cons, not_mem_nil, or_false] at hm ⊢
      tauto
    · rw [first, if_neg]
      rintro he
      rw [he] at hm
      revert hm
      decide
  · rename_i hm
    split
    · rename_i hgt
      split
      · rename_i hgt'
        have hlt' : t + 1 < c.len := by
          refine lt_of_le_of_ne hlt fun he => ?_
          rw [he, c.zero] at hgt'
          revert hgt'
          decide
        exact hsym (r := '+') 2 (by decide) (by rw [hgt]; decide) Nat.two_pos hlt'
      · rw [hgt]
        exact hsym (r := '>') 1 (by decide) (by rw [hgt]; decide) Nat.one_pos hlt
    · rename_i hgt
      have hw : isWordChar (c.mem t) = true := by
        rw [isWordChar, hspace]
        simp only [mem_cons, not_mem_nil, or_false, not_or] at hm
        simp [symbols, h0, hgt, hm]
      obtain ⟨hle', hword⟩ := skipWord_spec hlen hw
      have := skipSpace_spec (s := skipWord c t) hle'
      have hlt' : t < skipWord c t := hword.lt
      dsimp only
      exact Scanned.word (w := ⟨t, skipWord c t⟩) ht.symm hword (by omega) (by omega)

/-! ## All tokens -/

theorem toksFrom_eq : ∀ {n m s : Nat}, s ≤ c.len → c.len < s + n → c.len < s + m → toksFrom c n s = toksFrom c m s := by
  intro n
  induction n with
  | zero =>
    intro m s hs hn _
    omega
  | succ n ih =>
    intro m s hs hn hm
    obtain ⟨m, rfl⟩ := Nat.exists_eq_succ_of_ne_zero (show m ≠ 0 by omega)
    simp only [toksFrom]
    have hsc := scanned hs
    generalize scan c s = x at hsc
    obtain ⟨⟨r, w⟩, s'⟩ := x
    cases hsc with
    | stop => rfl
    | sym hr _ hlt hle => rw [ih (m := m) hle (by omega) (by omega)]
    | word _ _ hlt hle => rw [ih (m := m) hle (by omega) (by omega)]

theorem toks_eq (hs : s ≤ c.len) : toks c s =
    match tokOf (scan c s).1 with
    | none => []
    | some t => t :: toks c (scan c s).2 := by
  have hsc := scanned hs
  unfold toks
  rw [show c.len + 1 - s = (c.len - s) + 1 by omega, toksFrom]
  generalize scan c s = x at hsc
  obtain ⟨⟨r, w⟩, s'⟩ := x
  cases hsc with
  | stop => rfl
  | sym hr _ hlt hle => rw [toksFrom_eq hle (m := c.len + 1 - s') (by omega) (by omega)]
  | word _ _ hlt hle => rw [toksFrom_eq hle (m := c.len + 1 - s') (by omega) (by omega)]

theorem sym_ne (h : r ∈ ['|', '(', ')', ';', '&', '<', '>', '+']) : r ≠ '\x00' ∧ r ≠ 'a' := by
  constructor <;> rintro rfl <;> revert h <;> decide

theorem toks_cases (hs : s ≤ c.len) {w : Word} {s' : Nat} (h : scan c s = ((r, w), s')) :
    (r = '\x00' ∧ skipSpace c s = c.len ∧ s' = c.len ∧ toks c s = []) ∨
    (r ∈ ['|', '(', ')', ';', '&', '<', '>', '+'] ∧ c.mem (skipSpace c s) = first r ∧ s < s' ∧ s' ≤ c.len ∧
      toks c s = .sym r :: toks c s') ∨
    (r = 'a' ∧ isWordChar (c.mem (skipSpace c s)) = true ∧ s < s' ∧ s' ≤ c.len ∧ IsWord c w ∧
      toks c s = .word w :: toks c s') := by
  have hsc := scanned hs
  have ht := toks_eq hs
  rw [h] at hsc ht
  dsimp only at hsc ht
  rw [ht]
  cases hsc with
  | stop he => exact .inl ⟨rfl, he, rfl, rfl⟩
  | sym hr hf hlt hle => exact .inr (.inl ⟨hr, hf, hlt, hle, by rw [tokOf, if_neg (sym_ne hr).1, if_neg (sym_ne hr).2]⟩)
  | word hq hw hlt hle => exact .inr (.inr ⟨rfl, hq ▸ hw.chars _ (le_refl _) hw.lt, hlt, hle, hw, rfl⟩)

theorem toks_skipSpace (hs : s ≤ c.len) : toks c (skipSpace c s) = toks c s := by
  have hscan : scan c (skipSpace c s) = scan c s := by
    unfold scan
    rw [skipSpace_idem hs]
  rw [toks_eq hs, toks_eq (skipSpace_spec hs).2.1, hscan]

theorem toks_len (c : CStr) : toks c c.len = [] := by
  obtain ⟨h1, h2, _⟩ := skipSpace_spec (c := c) (le_refl c.len)
  rcases toks_cases (le_refl c.len) (r := (scan c c.len).1.1) (w := (scan c c.len).1.2) rfl with h | h | h
  · exact h.2.2.2
  · omega
  · omega

theorem length_toks_le : ∀ (n : Nat) {s : Nat}, s ≤ c.len → c.len - s ≤ n → (toks c s).length ≤ c.len - s := by
  intro n
  induction n with
  | zero =>
    intro s hs hn
    rw [show s = c.len by omega, toks_len]
    simp
  | succ n ih =>
    intro s hs hn
    rcases toks_cases hs rfl with h | h | h
    · rw [h.2.2.2]
      simp
    · have := ih h.2.2.2.1 (by omega)
      rw [h.2.2.2.2, length_cons]
      omega
    · have := ih h.2.2.2.1 (by omega)
      rw [h.2.2.2.2.2, length_cons]
      omega

theorem isWord_of_mem : ∀ (n : Nat) {s : Nat}, s ≤ c.len → c.len - s ≤ n → ∀ w, .word w ∈ toks c s → IsWord c w := by
  intro n
  induction n with
  | zero =>
    intro s hs hn w hw
    rw [show s = c.len by omega, toks_len] at hw
    cases hw
  | succ n ih =>
    intro s hs hn w hw
    rcases toks_cases hs rfl with h | h | h
    · rw [h.2.2.2] at hw
      cases hw
    · rw [h.2.2.2.2] at hw
      obtain he | hw := mem_cons.mp hw
      · cases he
      · exact ih h.2.2.2.1 (by omega) w hw
    · rw [h.2.2.2.2.2] at hw
      obtain he | hw := mem_cons.mp hw
      · cases he
        exact h.2.2.2.2.1
      · exact ih h.2.2.2.1 (by omega) w hw

/-! ## Reading -/

theorem wp_gettoken (hs : s ≤ c.len) (hstop : ∀ w, toks c s = [] → Q ('\x00', w) c.len)
    (hsym : ∀ r w s', r ≠ '\x00' → r ≠ 'a' → s' ≤ c.len → toks c s = .sym r :: toks c s' → Q (r, w) s')
    (hword : ∀ w s', s' ≤ c.len → toks c s = .word w :: toks c s' → Q ('a', w) s') : wp (gettoken c) Q s := by
  refine wp_iff.mpr ⟨(scan c s).1, (scan c s).2, rfl, ?_⟩
  generalize hx : scan c s = x
  obtain ⟨⟨r, w⟩, s'⟩ := x
  rcases toks_cases hs hx with h | h | h
  · obtain ⟨rfl, _, rfl, ht⟩ := h
    exact hstop w ht
  · exact hsym r w s' (sym_ne h.1).1 (sym_ne h.1).2 h.2.2.2.1 h.2.2.2.2
  · obtain ⟨rfl, _, _, hle, _, ht⟩ := h
    exact hword w s' hle ht

theorem wp_gettoken_sym {ts : List Tok} (hs : s ≤ c.len)
    (ht : toks c s = .sym r :: ts) (h : ∀ w s', s' ≤ c.len → toks c s' = ts → Q (r, w) s') : wp (gettoken c) Q s := by
  refine wp_gettoken hs (fun w h' => ?_) (fun r' w s' _ _ hs' ht' => ?_) fun w s' _ h' => ?_
  · rw [ht] at h'
    cases h'
  · rw [ht] at ht'
    cases ht'
    exact h w s' hs' rfl
  · rw [ht] at h'
    cases h'

theorem wp_gettoken_word {w : Word} {ts : List Tok} (hs : s ≤ c.len)
    (ht : toks c s = .word w :: ts) (h : ∀ s', s' ≤ c.len → toks c s' = ts → Q ('a', w) s') :
    wp (gettoken c) Q s := by
  refine wp_gettoken hs (fun w h' => ?_) (fun r' w s' _ _ _ h' => ?_) fun w s' hs' ht' => ?_
  · rw [ht] at h'
    cases h'
  · rw [ht] at h'
    cases h'
  · rw [ht] at ht'
    cases ht'
    exact h s' hs' rfl

def starts (cs : List Char) : List Tok → Bool
  | .sym r :: _ => cs.contains (first r)
  | _ => false

theorem wp_peek {Q : Bool → Nat → Prop} {cs : List Char} (hs : s ≤ c.len) (hcs : cs.all (symbols.contains ·) = true)
    (h : ∀ s', s' ≤ c.len → toks c s' = toks c s → (s' = c.len ↔ toks c s = []) → Q (starts cs (toks c s)) s') :
    wp (peek c cs) Q s := by
  obtain ⟨h1, h2, _⟩ := skipSpace_spec hs
  refine wp_iff.mpr ⟨_, _, rfl, ?_⟩
  have hend : skipSpace c s = c.len ↔ toks c s = [] := by
    constructor
    · intro he
      rw [← toks_skipSpace hs, he, toks_len]
    · intro he
      rcases toks_cases hs rfl with ht | ht | ht
      · exact ht.2.1
      · rw [ht.2.2.2.2] at he
        cases he
      · rw [ht.2.2.2.2.2] at he
        cases he
  have hval : (decide (c.mem (skipSpace c s) ≠ '\x00') && cs.contains (c.mem (skipSpace c s))) = starts cs (toks c s) := by
    obtain ⟨r, w, s', hx⟩ : ∃ r w s', scan c s = ((r, w), s') := ⟨_, _, _, rfl⟩
    rcases toks_cases hs hx with ht | ht | ht
    · rw [ht.2.2.2, ht.2.1, c.zero]
      rfl
    · obtain ⟨hr, hf, _, _, htk⟩ := ht
      have hne : first r ≠ '\x00' := by
        unfold first
        split
        · decide
        · exact (sym_ne hr).1
      rw [htk, hf, starts, decide_eq_true hne, Bool.true_and]
    · obtain ⟨_, hw, _, _, _, htk⟩ := ht
      rw [htk, show starts cs (.word w :: toks c s') = false from rfl, Bool.and_eq_false_iff]
      refine .inr ?_
      rw [contains_eq_mem, decide_eq_false_iff_not]
      intro hm
      have := all_eq_true.mp hcs _ hm
      rw [isWordChar] at hw
      simp only [Bool.and_eq_true, Bool.not_eq_true', contains_eq_mem, decide_eq_false_iff_not] at hw
      exact hw.2 (contains_iff_mem.mp this)
  rw [hval]
  exact h _ h2 (toks_skipSpace hs) hend

end Sh
end Xv6
