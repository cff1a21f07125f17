import Mathlib.Computability.Language
import Xv6.Lib.Lines

/-!
# Xv6.Grep.Grep

`user/grep.c`. A string is the list of its characters before the NUL.

* `matchText_iff`: `match` decides the language of its pattern.
* `grep_eq`: `grep` writes the matching lines before the first one that does not fit into the buffer.
-/

namespace Xv6
namespace Grep

open Lines List

/-! ## The matcher -/

/-- `matchstar(c, re, text)`, where `here` is `matchhere(re, _)`. -/
def matchstar (c : Char) (here : List Char → Bool) : List Char → Bool
  | [] => here []
  | t :: text => here (t :: text) || ((t == c || c == '.') && matchstar c here text)

def matchhere : List Char → List Char → Bool
  | [], _ => true
  | c :: '*' :: re, text => matchstar c (matchhere re) text
  | ['$'], text => text.isEmpty
  | c :: re, t :: text => (c == '.' || c == t) && matchhere re text
  | _ :: _, [] => false

/-- `match`: at the start of the text, or at every place of it and at its end. -/
def matchText : List Char → List Char → Bool
  | '^' :: re, text => matchhere re text
  | re, text => text.tails.any (matchhere re)

/-! ## The language of a pattern -/

/-- An element of a pattern: a character, or any number of a character. -/
inductive Atom
  | one (c : Char)
  | star (c : Char)

/-- The elements of a pattern, and whether it ends with `$`. -/
def parse : List Char → List Atom × Bool
  | [] => ([], false)
  | c :: '*' :: re => (.star c :: (parse re).1, (parse re).2)
  | ['$'] => ([], true)
  | c :: re => (.one c :: (parse re).1, (parse re).2)

def single (c : Char) : Language Char := {w | ∃ x, w = [x] ∧ (c = '.' ∨ x = c)}

def Atom.lang : Atom → Language Char
  | .one c => single c
  | .star c => KStar.kstar (single c)

def lang (as : List Atom) : Language Char := (as.map Atom.lang).prod

/-- The text has a part in the language of the pattern: at its start for `^`, at its end for `$`. -/
def Matches (re text : List Char) : Prop :=
  ∃ u v w, text = u ++ v ++ w ∧ (re.head? = some '^' → u = []) ∧
    v ∈ lang (parse (if re.head? = some '^' then re.tail else re)).1 ∧
    ((parse (if re.head? = some '^' then re.tail else re)).2 = true → w = [])

variable {c : Char} {re text : List Char}

theorem mem_star_single {v : List Char} : v ∈ KStar.kstar (single c) ↔ ∀ x ∈ v, c = '.' ∨ x = c := by
  rw [Language.mem_kstar]
  constructor
  · rintro ⟨L, rfl, hL⟩ x hx
    obtain ⟨w, hw, hx⟩ := mem_flatten.mp hx
    obtain ⟨y, rfl, hy⟩ := hL w hw
    rwa [mem_singleton.mp hx]
  · intro h
    refine ⟨v.map fun x => [x], (flatMap_singleton' v).symm, fun w hw => ?_⟩
    obtain ⟨x, hx, rfl⟩ := mem_map.mp hw
    exact ⟨x, rfl, h x hx⟩

theorem matchstar_iff {here : List Char → Bool} :
    matchstar c here text = true ↔ ∃ v w, text = v ++ w ∧ v ∈ KStar.kstar (single c) ∧ here w = true := by
  simp only [mem_star_single]
  induction text with
  | nil =>
    rw [matchstar]
    constructor
    · exact fun h => ⟨[], [], rfl, nofun, h⟩
    · rintro ⟨v, w, hvw, -, h⟩
      obtain ⟨rfl, rfl⟩ := append_eq_nil_iff.mp hvw.symm
      exact h
  | cons t text ih =>
    simp only [matchstar, Bool.or_eq_true, Bool.and_eq_true, ih, beq_iff_eq]
    constructor
    · rintro (h | ⟨ht, v, w, rfl, hv, h⟩)
      · exact ⟨[], _, rfl, nofun, h⟩
      · refine ⟨t :: v, w, rfl, fun x hx => ?_, h⟩
        obtain rfl | hx := mem_cons.mp hx
        · exact ht.symm
        · exact hv x hx
    · rintro ⟨_ | ⟨x, v⟩, w, hvw, hv, h⟩
      · obtain rfl : t :: text = w := hvw
        exact .inl h
      · obtain ⟨rfl, rfl⟩ := cons.inj hvw
        exact .inr ⟨(hv t mem_cons_self).symm, v, w, rfl, fun x hx => hv x (mem_cons_of_mem _ hx), h⟩

theorem matchhere_iff : ∀ text, matchhere re text = true ↔
    ∃ v w, text = v ++ w ∧ v ∈ lang (parse re).1 ∧ ((parse re).2 = true → w = []) := by
  induction re using parse.induct with
  | case1 => exact fun text => ⟨fun _ => ⟨[], text, rfl, rfl, nofun⟩, fun _ => rfl⟩
  | case2 c re ih =>
    intro text
    rw [matchhere, matchstar_iff, parse]
    simp only [ih, lang, map_cons, prod_cons, Language.mem_mul]
    constructor
    · rintro ⟨v, w, rfl, hv, v', w', rfl, hv', hw'⟩
      exact ⟨v ++ v', w', by rw [append_assoc], ⟨v, hv, v', hv', rfl⟩, hw'⟩
    · rintro ⟨_, w', rfl, ⟨v, hv, v', hv', rfl⟩, hw'⟩
      exact ⟨v, v' ++ w', by rw [append_assoc], hv, v', w', rfl, hv', hw'⟩
  | case3 =>
    intro text
    rw [matchhere, List.isEmpty_iff]
    constructor
    · rintro rfl
      exact ⟨[], [], rfl, rfl, fun _ => rfl⟩
    · rintro ⟨v, w, rfl, hv, hw⟩
      rw [hw rfl, append_nil]
      exact hv
  | case4 c re h1 h2 ih =>
    intro text
    have hp : parse (c :: re) = (.one c :: (parse re).1, (parse re).2) := by
      rw [parse]
      · exact h1
      · exact h2
    rw [hp]
    simp only [lang, map_cons, prod_cons, Language.mem_mul]
    cases text with
    | nil =>
      rw [matchhere]
      · constructor
        · exact nofun
        · rintro ⟨_, w, h, ⟨_, ⟨x, rfl, -⟩, v', -, rfl⟩, -⟩
          cases h
      · exact h1
      · exact h2
    | cons t text =>
      rw [matchhere]
      · simp only [Bool.and_eq_true, Bool.or_eq_true, beq_iff_eq, ih]
        constructor
        · rintro ⟨ht, v, w, rfl, hv, hw⟩
          exact ⟨t :: v, w, rfl, ⟨[t], ⟨t, rfl, ht.imp id Eq.symm⟩, v, hv, rfl⟩, hw⟩
        · rintro ⟨_, w, h, ⟨_, ⟨x, rfl, hx⟩, v, hv, rfl⟩, hw⟩
          obtain ⟨rfl, rfl⟩ := cons.inj h
          exact ⟨hx.imp id Eq.symm, v, w, rfl, hv, hw⟩
      · exact h1
      · exact h2

/-- For every pattern and text `match` returns, with 1 exactly if the text has a part that the pattern matches. -/
theorem matchText_iff (re text : List Char) : matchText re text = true ↔ Matches re text := by
  unfold Matches
  by_cases h : re.head? = some '^'
  · obtain ⟨re, rfl⟩ : ∃ r, re = '^' :: r := ⟨re.tail, eq_cons_of_mem_head? h⟩
    rw [matchText, matchhere_iff]
    simp only [h, if_true, tail_cons, true_imp_iff]
    constructor
    · rintro ⟨v, w, rfl, hv, hw⟩
      exact ⟨[], v, w, rfl, rfl, hv, hw⟩
    · rintro ⟨_, v, w, rfl, rfl, hv, hw⟩
      exact ⟨v, w, rfl, hv, hw⟩
  · rw [matchText, any_eq_true]
    · simp only [h, if_false, false_imp_iff, true_and, mem_tails, matchhere_iff]
      constructor
      · rintro ⟨s, ⟨u, rfl⟩, v, w, rfl, hv, hw⟩
        exact ⟨u, v, w, (append_assoc ..).symm, hv, hw⟩
      · rintro ⟨u, v, w, rfl, hv, hw⟩
        exact ⟨v ++ w, ⟨u, (append_assoc ..).symm⟩, v, w, rfl, hv, hw⟩
    · rintro re' rfl
      exact h rfl

/-! ## The lines -/

abbrev SIZE : Nat := 1024

/-- The inner loop of `grep` and the search of `strchr` for a newline, where `line` is what lies between `p` and the
character that is looked at: the writes, and what stays behind the last newline. -/
def scanLines (pattern : List Char) : List Char → List Char → List (List Char) × List Char
  | line, [] => ([], line)
  | line, c :: rest =>
    if c = '\n' then
      let (out, tail) := scanLines pattern [] rest
      (if matchText pattern line then (line ++ ['\n']) :: out else out, tail)
    else scanLines pattern (line ++ [c]) rest

/-- The bytes that `read` returns when `room` are asked for: at least one if there is one, and as many as `pick`
says. -/
def readSize (pick room left : Nat) : Nat := min (max 1 pick) (min room left)

/-- The loop of `grep`. The first `m` bytes of the buffer are `held`; the `i`-th `read` is told by `pick i` how much
it returns. Every turn but the last one takes a byte. -/
def grepLoop (pattern : List Char) : Nat → (Nat → Nat) → List Char → List Char → List (List Char)
  | 0, _, _, _ => []
  | fuel + 1, pick, held, input =>
    let n := readSize (pick 0) (SIZE - held.length - 1) input.length
    if n = 0 then []
    else
      let (out, tail) := scanLines pattern [] (held ++ input.take n)
      out ++ grepLoop pattern fuel (fun i => pick (i + 1)) tail (input.drop n)

/-- `grep(pattern, fd)`: what it writes. -/
def grep (pattern : List Char) (pick : Nat → Nat) (input : List Char) : List (List Char) :=
  grepLoop pattern (input.length + 1) pick [] input

def matching (pattern : List Char) (ls : List (List Char)) : List (List Char) :=
  (ls.filter (matchText pattern)).map (· ++ ['\n'])

/-- With its newline and the NUL the line fits into the buffer. -/
def fits (l : List Char) : Bool := decide (l.length + 2 ≤ SIZE)

variable {pattern : List Char} {ls : List (List Char)}

theorem matching_append (ls ls' : List (List Char)) :
    matching pattern (ls ++ ls') = matching pattern ls ++ matching pattern ls' := by
  simp [matching]

theorem scanLines_spec : ∀ (rest line more : List Char) {ls : List (List Char)}, (∀ l ∈ ls, '\n' ∉ l) → '\n' ∉ line →
    line ++ rest ++ more = join ls → ∃ ls1 ls2, ls = ls1 ++ ls2 ∧
      (scanLines pattern line rest).1 = matching pattern ls1 ∧ '\n' ∉ (scanLines pattern line rest).2 ∧
      line ++ rest = join ls1 ++ (scanLines pattern line rest).2 := by
  intro rest
  induction rest with
  | nil =>
    intro line more ls _ hl _
    exact ⟨[], ls, rfl, rfl, hl, append_nil line⟩
  | cons c rest ih =>
    intro line more ls hls hl h
    rw [scanLines]
    by_cases hc : c = '\n'
    swap
    · rw [if_neg hc]
      obtain ⟨ls1, ls2, h1, h2, h3, h4⟩ := ih (line ++ [c]) more hls
        (by simpa [hl] using Ne.symm hc) (by simpa using h)
      exact ⟨ls1, ls2, h1, h2, h3, by simpa using h4⟩
    subst hc
    rw [if_pos rfl]
    -- the line is the first one of the file
    cases ls with
    | nil =>
      rw [append_assoc] at h
      simp [join] at h
    | cons l ls =>
      rw [join_cons, append_assoc, cons_append] at h
      obtain ⟨rfl, hrest⟩ := first_inj hl (hls l mem_cons_self) h
      obtain ⟨ls1, ls2, rfl, h2, h3, h4⟩ := ih [] more
        (fun l hl => hls l (mem_cons_of_mem _ hl)) not_mem_nil hrest
      refine ⟨line :: ls1, ls2, rfl, ?_, h3, ?_⟩
      · simp only [h2, matching, filter_cons]
        split <;> rfl
      · rw [join_cons, append_assoc, cons_append, ← h4, nil_append]

theorem grepLoop_eq : ∀ {fuel : Nat} {pick : Nat → Nat} {held input : List Char} {ls : List (List Char)},
    (∀ l ∈ ls, '\n' ∉ l) → '\n' ∉ held → held.length + 1 ≤ SIZE → held ++ input = join ls → input.length < fuel →
    grepLoop pattern fuel pick held input = matching pattern (ls.takeWhile fits) := by
  intro fuel
  induction fuel with
  | zero => exact fun _ _ _ _ h => absurd h (Nat.not_lt_zero _)
  | succ fuel ih =>
    intro pick held input ls hls hheld hlen h hfuel
    simp only [grepLoop]
    generalize hn : readSize (pick 0) (SIZE - held.length - 1) input.length = n
    simp only [readSize] at hn
    by_cases h0 : n = 0
    · -- the input has ended, or the buffer is full of a line
      rw [if_pos h0]
      cases ls with
      | nil => rfl
      | cons l ls =>
        rw [join_cons] at h
        have hlong : held.length ≤ l.length := by
          by_contra hlt
          have hmem : '\n' ∈ held := by
            have hget : (held ++ input)[l.length]? = some '\n' := by
              rw [h, getElem?_append_right le_rfl, Nat.sub_self]
              rfl
            rw [getElem?_append_left (by omega)] at hget
            exact mem_of_getElem? hget
          exact hheld hmem
        have hsum : held.length + input.length = l.length + ((join ls).length + 1) := by
          rw [← length_append, h, length_append, length_cons]
        rw [takeWhile_cons_of_neg]
        · rfl
        · simp only [fits, decide_eq_true_eq]
          omega
    rw [if_neg h0]
    obtain ⟨ls1, ls2, rfl, h2, h3, h4⟩ := scanLines_spec (held ++ input.take n) [] (input.drop n) hls
      not_mem_nil (by simpa using h)
    rw [nil_append] at h4
    have hlen4 := congrArg length h4
    rw [length_append, length_append, length_take] at hlen4
    have hfits : ∀ l ∈ ls1, fits l = true := by
      intro l hl
      obtain ⟨a, b, rfl⟩ := append_of_mem hl
      rw [join_append, join_cons, length_append, length_append, length_cons] at hlen4
      simp only [fits, decide_eq_true_eq]
      omega
    have hls2 : ∀ l ∈ ls2, '\n' ∉ l := fun l hl => hls l (mem_append_right _ hl)
    rw [h2, ih hls2 h3 (by omega) ?_ (by rw [length_drop]; omega), takeWhile_append_of_pos hfits, matching_append]
    refine (append_right_inj (join ls1)).mp ?_
    rw [← append_assoc, ← h4, append_assoc, take_append_drop, h, join_append]

/-- However `read` splits the input, the lines before the first one that does not fit into the buffer are searched, and
no others. -/
theorem grep_eq (hls : ∀ l ∈ ls, '\n' ∉ l) (pick : Nat → Nat) :
    grep pattern pick (join ls) = matching pattern (ls.takeWhile fits) :=
  grepLoop_eq hls not_mem_nil (by decide) rfl (Nat.lt_succ_self _)

/-- All matching lines are written exactly if none stands at or behind a line that does not fit. -/
theorem grep_writes_iff (hls : ∀ l ∈ ls, '\n' ∉ l) (pick : Nat → Nat) :
    grep pattern pick (join ls) = matching pattern ls ↔ ∀ l ∈ ls.dropWhile fits, matchText pattern l = false := by
  have hsplit : matching pattern ls = matching pattern (ls.takeWhile fits) ++ matching pattern (ls.dropWhile fits) := by
    rw [← matching_append, takeWhile_append_dropWhile]
  rw [grep_eq hls, hsplit, self_eq_append_right, matching, map_eq_nil_iff, filter_eq_nil_iff]
  simp only [Bool.not_eq_true]

theorem grep_writes_short : grep ['b'] (fun _ => 1) (join [['a'], ['b']]) = matching ['b'] [['a'], ['b']] :=
  (grep_writes_iff (by decide) _).mpr (by decide)

/-- A line of 1023 characters is not written, though the pattern matches it. -/
theorem longLine_lost : grep ['a'] (fun _ => SIZE) (join [replicate 1023 'a']) = [] ∧
    matching ['a'] [replicate 1023 'a'] = [replicate 1023 'a' ++ ['\n']] := by
  constructor
  · have hline : ∀ l ∈ [replicate 1023 'a'], '\n' ∉ l := fun l hl h => by
      rw [mem_singleton.mp hl] at h
      exact absurd (eq_of_mem_replicate h) (by decide)
    rw [grep_eq hline, takeWhile_cons_of_neg]
    · rfl
    · rw [fits, length_replicate]
      decide
  · rfl

end Grep
end Xv6
