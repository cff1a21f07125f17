import Xv6.Lib.Lines

/-!
# Xv6.Sh.Script

The two ways in which `main` of the shell reads commands, and the strings that it passes to `parse_buffer`.

* `interactive`: one line after the other, by `getcmd` and `gets`.
* `script`: the file in pieces of the size of the buffer.
* `script_agrees_iff`: they pass the same strings exactly for files of one line.
-/

namespace Xv6
namespace Sh

open Lines List

abbrev NBUF : Nat := 120

def untilNul (l : List Char) : List Char := l.takeWhile (· ≠ '\x00')

/-- `gets` for at most `n` characters: what it puts into the buffer, and the input behind it. -/
def gets : Nat → List Char → List Char × List Char
  | 0, input => ([], input)
  | _ + 1, [] => ([], [])
  | n + 1, c :: input =>
    if c = '\n' ∨ c = '\r' then ([c], input) else (c :: (gets n input).1, (gets n input).2)

/-- Whether `parse_buffer` returns. A `cd` shortens the string in the buffer, which is cleared or filled before it is
read again. -/
def parseBuffer (cmd : List Char) : Bool := decide (cmd.take 4 ≠ ['e', 'x', 'i', 't'])

/-- `while (getcmd(buf, sizeof(buf)) >= 0) parse_buffer(buf);` -/
def interactiveLoop : Nat → List Char → List (List Char)
  | 0, _ => []
  | fuel + 1, input =>
    let cmd := untilNul (gets (NBUF - 1) input).1
    if cmd = [] then []
    else cmd :: if parseBuffer cmd then interactiveLoop fuel (gets (NBUF - 1) input).2 else []

/-- The strings that are passed to `parse_buffer` when the input is typed. Every turn takes a character of it. -/
def interactive (input : List Char) : List (List Char) := interactiveLoop (input.length + 1) input

/-- `do parse_buffer(buf); while (read(shfd, buf, sizeof(buf)) == sizeof(buf));` where `input` is what has not been
read of the file. The string goes on behind a full buffer, with what is in memory there. -/
def scriptLoop : Nat → (Nat → List Char) → List Char → List Char → List (List Char)
  | 0, _, _, _ => []
  | fuel + 1, behind, buf, input =>
    let cmd := untilNul (buf ++ behind 0)
    cmd :: if parseBuffer cmd ∧ NBUF ≤ input.length then
        scriptLoop fuel (fun i => behind (i + 1)) (input.take NBUF) (input.drop NBUF)
      else []

/-- The strings that are passed to `parse_buffer` by `sh file`. -/
def script (behind : Nat → List Char) (file : List Char) : List (List Char) :=
  scriptLoop (file.length + 1) behind (file.take NBUF ++ replicate (NBUF - file.length) '\x00') (file.drop NBUF)

/-- A line of a script, without its newline, that is shorter than the buffer. -/
structure IsLine (l : List Char) : Prop where
  newline : '\n' ∉ l
  nul : '\x00' ∉ l
  short : l.length + 1 < NBUF

variable {l : List Char} {ls : List (List Char)}

theorem untilNul_append {a b : List Char} (h : '\x00' ∉ a) : untilNul (a ++ b) = a ++ untilNul b :=
  takeWhile_append_of_pos fun _ hc => decide_eq_true fun h0 => h (h0 ▸ hc)

theorem untilNul_eq (h : '\x00' ∉ l) : untilNul l = l := by
  simpa [untilNul] using untilNul_append (b := []) h

theorem gets_spec : ∀ (n : Nat) (input : List Char), (gets n input).1.length ≤ n ∧
    (gets n input).1 ++ (gets n input).2 = input ∧
    ∀ a b, (gets n input).1 = a ++ b → b ≠ [] → '\n' ∉ a ∧ '\r' ∉ a := by
  intro n
  induction n with
  | zero => exact fun _ => ⟨Nat.le_refl _, rfl, fun a b h hb => absurd (append_eq_nil_iff.mp h.symm).2 hb⟩
  | succ n ih =>
    intro input
    cases input with
    | nil => exact ⟨Nat.zero_le _, rfl, fun a b h hb => absurd (append_eq_nil_iff.mp h.symm).2 hb⟩
    | cons c input =>
      obtain ⟨h1, h2, h3⟩ := ih input
      rw [gets]
      split
      · refine ⟨Nat.succ_le_succ (Nat.zero_le _), rfl, fun a b h hb => ?_⟩
        cases a with
        | nil => simp
        | cons x a => exact absurd (append_eq_nil_iff.mp (cons.inj h).2.symm).2 hb
      · rename_i hc
        refine ⟨Nat.succ_le_succ h1, congrArg (c :: ·) h2, fun a b h hb => ?_⟩
        cases a with
        | nil => simp
        | cons x a =>
          obtain ⟨rfl, hab⟩ := cons.inj h
          obtain ⟨k1, k2⟩ := h3 a b hab hb
          simp only [mem_cons, not_or]
          exact ⟨⟨fun he => hc (.inl he.symm), k1⟩, fun he => hc (.inr he.symm), k2⟩

theorem gets_line {n : Nat} {l rest : List Char} (h1 : '\n' ∉ l) (h2 : '\r' ∉ l) (hn : l.length < n) :
    gets n (l ++ '\n' :: rest) = (l ++ ['\n'], rest) := by
  induction l generalizing n with
  | nil =>
    obtain ⟨n, rfl⟩ := Nat.exists_eq_succ_of_ne_zero (Nat.ne_of_gt hn)
    rfl
  | cons c l ih =>
    obtain ⟨n, rfl⟩ := Nat.exists_eq_succ_of_ne_zero (Nat.ne_of_gt (Nat.zero_lt_of_lt hn))
    simp only [mem_cons, not_or] at h1 h2
    rw [cons_append, gets, if_neg (by rintro (rfl | rfl); exacts [h1.1 rfl, h2.1 rfl]),
      ih h1.2 h2.2 (Nat.lt_of_succ_lt_succ hn)]
    rfl

theorem nul_notMem_join (hls : ∀ l ∈ ls, IsLine l) : '\x00' ∉ join ls := by
  intro h
  obtain ⟨l, hl, h⟩ := mem_flatMap.mp h
  rcases mem_append.mp h with h | h
  · exact (hls l hl).nul h
  · exact absurd (mem_singleton.mp h) (by decide)

theorem script_head {file : List Char} (h : '\x00' ∉ file) (behind : Nat → List Char) :
    ∃ cmd rest, script behind file = cmd :: rest ∧
      (file.length < NBUF → cmd = file ∧ rest = []) ∧ (NBUF ≤ file.length → NBUF ≤ cmd.length) := by
  refine ⟨_, _, rfl, fun hlt => ⟨?_, if_neg fun hc => ?_⟩, fun hle => ?_⟩
  · obtain ⟨k, hk⟩ := Nat.exists_eq_succ_of_ne_zero (Nat.sub_ne_zero_of_lt hlt)
    rw [take_of_length_le (Nat.le_of_lt hlt), hk, append_assoc, untilNul_append h]
    exact append_nil file
  · have := hc.2
    rw [length_drop] at this
    omega
  · rw [Nat.sub_eq_zero_of_le hle, replicate_zero, append_nil,
      untilNul_append fun hm => h (mem_of_mem_take hm), length_append, length_take]
    omega

/-- For a file of short lines the strings are those that typing it gives, exactly if it is one line that has no
carriage return. -/
theorem script_agrees_iff (hls : ∀ l ∈ ls, IsLine l) (behind : Nat → List Char) :
    script behind (join ls) = interactive (join ls) ↔ ∃ l, ls = [l] ∧ '\r' ∉ l := by
  have hnul := nul_notMem_join hls
  obtain ⟨cmd, rest, hs, hshort, hlong⟩ := script_head hnul behind
  rw [hs, interactive, interactiveLoop]
  obtain ⟨hle, happ, hends⟩ := gets_spec (NBUF - 1) (join ls)
  constructor
  · intro h
    split at h
    · cases h
    obtain ⟨rfl, -⟩ := cons.inj h
    -- the first line that is typed is the whole file
    rw [untilNul_eq fun hm => hnul (happ ▸ mem_append_left _ hm)] at hshort hlong
    have hlt : (join ls).length < NBUF := by
      by_contra hge
      exact absurd (Nat.le_trans (hlong (Nat.le_of_not_lt hge)) hle) (by decide)
    rw [(hshort hlt).1] at hends
    cases ls with
    | nil => simp_all [join, gets, untilNul]
    | cons l ls =>
      cases ls with
      | nil => exact ⟨l, rfl, (hends l ['\n'] (by simp [join]) (by simp)).2⟩
      | cons l' ls =>
        refine absurd ?_ (hends (l ++ ['\n']) (join (l' :: ls)) (by simp [join_cons]) (by simp [join_cons])).1
        simp
  · rintro ⟨l, rfl, hr⟩
    have hl := hls l mem_cons_self
    have hj : join [l] = l ++ ['\n'] := join_cons l []
    have hlen : (join [l]).length < NBUF := by
      rw [hj, length_append]
      exact hl.short
    have hg : gets (NBUF - 1) (join [l]) = (join [l], []) := by
      rw [hj]
      exact gets_line hl.newline hr (Nat.lt_sub_of_add_lt hl.short)
    obtain ⟨rfl, rfl⟩ := hshort hlen
    rw [hg, untilNul_eq hnul, if_neg (by simp [join])]
    have hend : ∀ fuel, interactiveLoop fuel [] = [] := fun fuel => by cases fuel <;> rfl
    rw [hend]
    simp

theorem script_agrees_echo : script (fun _ => []) (join [['l', 's']]) = interactive (join [['l', 's']]) :=
  (script_agrees_iff (by simpa using ⟨by decide, by decide, by decide⟩) _).mpr ⟨_, rfl, by decide⟩

/-- Two lines are passed as one string. -/
theorem script_merges : script (fun _ => []) (join [['a'], ['b']]) = [['a', '\n', 'b', '\n']] ∧
    interactive (join [['a'], ['b']]) = [['a', '\n'], ['b', '\n']] := by decide

end Sh
end Xv6
