import Xv6.Sh.Parse

/-!
# Xv6.Sh.Parsecmd

`parsecmd` as a whole, with the strings that its pointers point to behind `nulterminate`.

* `cstr_nulterminate`: a word of the tree is the string of its characters then.
* `parsecmd_grammar`: `parsecmd` returns the command that the derivation of the whole input denotes, and
  panics when there is none.
-/

namespace Xv6
namespace Sh

open Wp Function List

variable {mem : Nat → Char} {cmd : Cmd Word} {w : Word}

def Cmd.map {α β : Type} (f : α → β) : Cmd α → Cmd β
  | .exec argv => .exec (argv.map f)
  | .redir cmd file mode fd => .redir (cmd.map f) (f file) mode fd
  | .pipe l r => .pipe (l.map f) (r.map f)
  | .list l r => .list (l.map f) (r.map f)
  | .back cmd => .back (cmd.map f)

def Cmd.words {α : Type} : Cmd α → List α
  | .exec argv => argv
  | .redir cmd file _ _ => cmd.words ++ [file]
  | .pipe l r => l.words ++ r.words
  | .list l r => l.words ++ r.words
  | .back cmd => cmd.words

theorem Cmd.map_congr {α β : Type} {f g : α → β} {cmd : Cmd α} (h : ∀ w ∈ cmd.words, f w = g w) :
    cmd.map f = cmd.map g := by
  induction cmd with
  | exec argv =>
    have h : ∀ w ∈ argv, f w = g w := h
    rw [Cmd.map, Cmd.map, map_congr_left h]
  | redir cmd file mode fd ih =>
    simp only [Cmd.words, mem_append, mem_singleton] at h
    rw [Cmd.map, Cmd.map, ih fun w hw => h w (.inl hw), h file (.inr rfl)]
  | pipe l r ihl ihr =>
    simp only [Cmd.words, mem_append] at h
    rw [Cmd.map, Cmd.map, ihl fun w hw => h w (.inl hw), ihr fun w hw => h w (.inr hw)]
  | list l r ihl ihr =>
    simp only [Cmd.words, mem_append] at h
    rw [Cmd.map, Cmd.map, ihl fun w hw => h w (.inl hw), ihr fun w hw => h w (.inr hw)]
  | back cmd ih => rw [Cmd.map, Cmd.map, ih h]

/-! ## Strings -/

def text (c : CStr) (w : Word) : List Char := (range' w.q (w.eq - w.q)).map c.mem

def cstr (mem : Nat → Char) : Nat → Nat → List Char
  | 0, _ => []
  | n + 1, a => if mem a = '\x00' then [] else mem a :: cstr mem n (a + 1)

theorem cstr_eq : ∀ {k n a : Nat}, k < n → (∀ i, a ≤ i → i < a + k → mem i ≠ '\x00') →
    mem (a + k) = '\x00' → cstr mem n a = (range' a k).map mem := by
  intro k
  induction k with
  | zero =>
    intro n a hn _ hz
    obtain ⟨n, rfl⟩ := Nat.exists_eq_succ_of_ne_zero (Nat.ne_of_gt hn)
    rw [Nat.add_zero] at hz
    rw [cstr, if_pos hz]
    rfl
  | succ k ih =>
    intro n a hn hnz hz
    obtain ⟨n, rfl⟩ := Nat.exists_eq_succ_of_ne_zero (Nat.ne_of_gt (Nat.zero_lt_of_lt hn))
    rw [cstr, if_neg (hnz a (le_refl _) (by omega)), range'_succ, map_cons,
      ih (by omega) (fun i h1 h2 => hnz i (by omega) (by omega)) (by rwa [show a + 1 + k = a + (k + 1) by omega])]

theorem foldl_update {ws : List Word} : ∀ i,
    ws.foldl (fun m w => update m w.eq '\x00') mem i = if ∃ w ∈ ws, w.eq = i then '\x00' else mem i := by
  induction ws generalizing mem with
  | nil => simp
  | cons w ws ih =>
    intro i
    rw [foldl_cons, ih]
    by_cases h : ∃ w' ∈ ws, w'.eq = i
    · obtain ⟨w', hw', he⟩ := h
      rw [if_pos ⟨w', hw', he⟩, if_pos ⟨w', mem_cons_of_mem _ hw', he⟩]
    · rw [if_neg h]
      by_cases hi : w.eq = i
      · rw [if_pos ⟨w, mem_cons_self .., hi⟩, hi, update_self]
      · rw [update_of_ne (Ne.symm hi), if_neg]
        rintro ⟨w', hw', he⟩
        obtain rfl | hw' := mem_cons.mp hw'
        · exact hi he
        · exact h ⟨w', hw', he⟩

theorem nulterminate_eq_foldl :
    nulterminate cmd mem = cmd.words.foldl (fun m w => update m w.eq '\x00') mem := by
  induction cmd generalizing mem with
  | exec argv => rfl
  | redir cmd file mode fd ih => rw [nulterminate, ih, Cmd.words, foldl_append, foldl_cons, foldl_nil]
  | pipe l r ihl ihr => rw [nulterminate, ihr, ihl, Cmd.words, foldl_append]
  | list l r ihl ihr => rw [nulterminate, ihr, ihl, Cmd.words, foldl_append]
  | back cmd ih => exact ih

theorem nulterminate_eq (i : Nat) : nulterminate cmd mem i = if ∃ w ∈ cmd.words, w.eq = i then '\x00' else mem i := by
  rw [nulterminate_eq_foldl, foldl_update]

theorem cstr_nulterminate {c : CStr} (hw : ∀ w ∈ cmd.words, IsWord c w)
    (hm : w ∈ cmd.words) : cstr (nulterminate cmd c.mem) (c.len + 1) w.q = text c w := by
  have hword := hw w hm
  have hlt := hword.lt
  have hle := hword.le
  -- a NUL is behind a word, and never inside one
  have hkeep : ∀ i, w.q ≤ i → i < w.eq → nulterminate cmd c.mem i = c.mem i := by
    intro i h1 h2
    rw [nulterminate_eq, if_neg]
    rintro ⟨w', hw', he⟩
    have hstop := (hw w' hw').stop
    rw [he, hword.chars i h1 h2] at hstop
    cases hstop
  have hne : ∀ i, w.q ≤ i → i < w.eq → c.mem i ≠ '\x00' := by
    intro i h1 h2 h0
    have := hword.chars i h1 h2
    rw [h0] at this
    revert this
    decide
  have hend : nulterminate cmd c.mem w.eq = '\x00' := by
    rw [nulterminate_eq, if_pos ⟨w, hm, rfl⟩]
  rw [cstr_eq (k := w.eq - w.q) (by omega)
    (fun i h1 h2 => by rw [hkeep i h1 (by omega)]; exact hne i h1 (by omega))
    (by rw [show w.q + (w.eq - w.q) = w.eq by omega, hend])]
  refine map_congr_left fun i hi => ?_
  rw [mem_range'_1] at hi
  exact hkeep i hi.1 (by omega)

/-! ## The words of a derivation -/

theorem words_wrap (rs : Redirs) (cmd : Cmd Word) : (wrap rs cmd).words = cmd.words ++ rs.map Prod.snd := by
  induction rs generalizing cmd with
  | nil => simp
  | cons r rs ih =>
    obtain ⟨d, w⟩ := r
    rw [wrap_cons, ih, Cmd.words]
    simp

theorem words_back (n : Nat) (cmd : Cmd Word) : (Cmd.back^[n] cmd).words = cmd.words := by
  induction n with
  | zero => rfl
  | succ n ih => rw [iterate_succ_apply', Cmd.words, ih]

theorem mem_redirToks {rs : Redirs} (h : w ∈ rs.map Prod.snd) : .word w ∈ redirToks rs := by
  induction rs with
  | nil => cases h
  | cons r rs ih =>
    obtain ⟨d, f⟩ := r
    rw [redirToks]
    obtain rfl | h := mem_cons.mp h
    · simp
    · exact mem_cons_of_mem _ (mem_cons_of_mem _ (ih h))

theorem mem_argToks {args : Args}
    (h : w ∈ args.map Prod.fst ∨ w ∈ (args.flatMap Prod.snd).map Prod.snd) : .word w ∈ argToks args := by
  induction args with
  | nil => obtain h | h := h <;> cases h
  | cons a args ih =>
    obtain ⟨v, rs⟩ := a
    rw [argToks, mem_cons, mem_append]
    rw [map_cons, mem_cons, flatMap_cons, map_append, mem_append] at h
    obtain (rfl | h) | h | h := h
    · exact .inl rfl
    · exact .inr (.inr (ih (.inl h)))
    · exact .inr (.inl (mem_redirToks h))
    · exact .inr (.inr (ih (.inr h)))

mutual

theorem Line.mem_toks : ∀ (l : Line) {w : Word}, w ∈ l.cmd.words → .word w ∈ l.toks
  | .last p n, w, h => by
    rw [Line.cmd, words_back] at h
    rw [Line.toks]
    exact mem_append_left _ (p.mem_toks h)
  | .seq p n l, w, h => by
    rw [Line.cmd, Cmd.words, words_back, mem_append] at h
    rw [Line.toks]
    obtain h | h := h
    · exact mem_append_left _ (p.mem_toks h)
    · exact mem_append_right _ (mem_append_right _ (mem_cons_of_mem _ (l.mem_toks h)))

theorem Pipe.mem_toks : ∀ (p : Pipe) {w : Word}, w ∈ p.cmd.words → .word w ∈ p.toks
  | .one e, w, h => by
    rw [Pipe.toks]
    exact e.mem_toks h
  | .pipe e p, w, h => by
    rw [Pipe.cmd, Cmd.words, mem_append] at h
    rw [Pipe.toks]
    obtain h | h := h
    · exact mem_append_left _ (e.mem_toks h)
    · exact mem_append_right _ (mem_cons_of_mem _ (p.mem_toks h))

theorem Exec.mem_toks : ∀ (e : Exec) {w : Word}, w ∈ e.cmd.words → .word w ∈ e.toks
  | .block l rs, w, h => by
    rw [Exec.cmd, words_wrap, mem_append] at h
    rw [Exec.toks]
    obtain h | h := h
    · exact mem_cons_of_mem _ (mem_append_left _ (l.mem_toks h))
    · exact mem_cons_of_mem _ (mem_append_right _ (mem_cons_of_mem _ (mem_redirToks h)))
  | .simple rs args, w, h => by
    rw [Exec.cmd, words_wrap, Cmd.words, mem_append, map_append, mem_append] at h
    rw [Exec.toks]
    obtain h | h | h := h
    · exact mem_append_right _ (mem_argToks (.inl h))
    · exact mem_append_left _ (mem_redirToks h)
    · exact mem_append_right _ (mem_argToks (.inr h))

end

/-! ## parsecmd -/

/-- The call of `parseline` in `parsecmd`, and the `peek` behind it. -/
def parseAll (c : CStr) (n : Nat) : P (Cmd Word) := do
  let cmd ← parseline c n
  let _ ← peek c []
  pure cmd

theorem parseAll_sound {c : CStr} {n : Nat} (hn : 8 * c.len + 7 ≤ n) :
    wpe NotFuel (parseAll c n) (fun cmd s => s = c.len → ∃ l : Line, l.Ok ∧ l.toks = toks c 0 ∧ cmd = l.cmd) 0 := by
  have hlen := length_toks_le (c := c) c.len (Nat.zero_le _) (Nat.sub_le ..)
  unfold parseAll
  rw [wpe_bind]
  refine wpe_mono ((sound n).1 (Nat.zero_le _) (by omega)) ?_
  rintro cmd s ⟨hs, l, hl, ht, rfl⟩
  rw [wpe_bind]
  refine wpe_of_wp (wp_peek hs (by decide) fun s' _ ht' hend => wpe_pure.mpr fun he => ?_)
  rw [hend.mp he, append_nil] at ht
  exact ⟨l, hl, ht.symm, rfl⟩

theorem parseAll_complete {c : CStr} {n : Nat} (hn : 8 * c.len + 7 ≤ n) {l : Line} (hl : l.Ok)
    (ht : l.toks = toks c 0) : parseAll c n 0 = .ok (l.cmd, c.len) := by
  have hlen := length_toks_le (c := c) c.len (Nat.zero_le _) (Nat.sub_le ..)
  have hwp : wp (parseAll c n) (fun cmd s => cmd = l.cmd ∧ s = c.len) 0 := by
    unfold parseAll
    rw [wp_bind]
    refine wp_mono ((complete n).1 (Nat.zero_le _) hl (by rw [ht, append_nil]) (.inl rfl) (by rw [ht]; omega)) ?_
    rintro cmd s ⟨hs, ht', rfl⟩
    rw [wp_bind]
    exact wp_peek hs (by decide) fun s' _ _ hend => wp_pure.mpr ⟨rfl, hend.mpr ht'⟩
  obtain ⟨cmd, s, he, rfl, rfl⟩ := wp_iff.mp hwp
  exact he

theorem parsecmd_eq (n : Nat) (c : CStr) : parsecmd n c = match parseAll c n 0 with
    | .error e => .error e
    | .ok (cmd, s) => if s ≠ c.len then .error (.panic "syntax") else .ok (cmd, nulterminate cmd c.mem) := rfl

theorem parsecmd_ok {c : CStr} {n : Nat} (hn : 8 * c.len + 7 ≤ n) {x : Cmd Word × (Nat → Char)} (h : parsecmd n c = .ok x) :
    ∃ l : Line, l.Ok ∧ l.toks = toks c 0 ∧ x = (l.cmd, nulterminate l.cmd c.mem) := by
  have hsound := parseAll_sound hn
  rw [parsecmd_eq] at h
  unfold wpe at hsound
  split at h
  · cases h
  · rename_i cmd s he
    rw [he] at hsound
    split at h
    · cases h
    · rename_i hs
      obtain ⟨l, hl, ht, rfl⟩ := hsound (not_not.mp hs)
      cases h
      exact ⟨l, hl, ht, rfl⟩

theorem isWord_of_derived {c : CStr} {l : Line} (ht : l.toks = toks c 0) (hw : w ∈ l.cmd.words) : IsWord c w :=
  isWord_of_mem c.len (Nat.zero_le _) (Nat.sub_le ..) w (ht ▸ l.mem_toks hw)

/-- For every string and enough turns `parsecmd` returns or panics. It returns exactly when the grammar
derives all tokens of the string, and then the tree that every such derivation denotes; the words of the tree
are strings in memory, with the characters of the words of the input. -/
theorem parsecmd_grammar (c : CStr) (k : Nat) : parsecmd (8 * c.len + 7 + k) c ≠ .error .fuel ∧
    ((∃ x, parsecmd (8 * c.len + 7 + k) c = .ok x) ↔ ∃ l : Line, l.Ok ∧ l.toks = toks c 0) ∧
    ∀ l : Line, l.Ok → l.toks = toks c 0 → ∃ mem, parsecmd (8 * c.len + 7 + k) c = .ok (l.cmd, mem) ∧
      l.cmd.map (fun w => cstr mem (c.len + 1) w.q) = l.cmd.map (text c) := by
  have hn : 8 * c.len + 7 ≤ 8 * c.len + 7 + k := Nat.le_add_right ..
  generalize 8 * c.len + 7 + k = n at hn
  have hder : ∀ l : Line, l.Ok → l.toks = toks c 0 → parsecmd n c = .ok (l.cmd, nulterminate l.cmd c.mem) := by
    intro l hl ht
    rw [parsecmd_eq, parseAll_complete hn hl ht]
    exact if_neg (not_not.mpr rfl)
  refine ⟨?_, ⟨?_, ?_⟩, fun l hl ht => ⟨_, hder l hl ht, Cmd.map_congr fun w hw => ?_⟩⟩
  · have hsound := parseAll_sound hn
    rw [parsecmd_eq]
    unfold wpe at hsound
    split
    · rename_i e he
      rw [he] at hsound
      exact fun h => hsound (Except.error.inj h)
    · split
      · exact fun h => by cases h
      · exact fun h => by cases h
  · rintro ⟨x, hx⟩
    obtain ⟨l, hl, ht, -⟩ := parsecmd_ok hn hx
    exact ⟨l, hl, ht⟩
  · rintro ⟨l, hl, ht⟩
    exact ⟨_, hder l hl ht⟩
  · exact cstr_nulterminate (fun w' hw' => isWord_of_derived ht hw') hw

/-- Behind `parsecmd` every pointer of the tree points to the text of a token of the input, and no NUL that was
written lies inside the text of a word. -/
theorem parsecmd_words_kept (c : CStr) (k : Nat) {mem : Nat → Char} (h : parsecmd (8 * c.len + 7 + k) c = .ok (cmd, mem)) :
    ∀ w ∈ cmd.words, .word w ∈ toks c 0 ∧ cstr mem (c.len + 1) w.q = text c w ∧
      ∀ v ∈ cmd.words, ¬ (w.q ≤ v.eq ∧ v.eq < w.eq) := by
  obtain ⟨l, hl, ht, hx⟩ := parsecmd_ok (Nat.le_add_right ..) h
  cases hx
  intro w hw
  refine ⟨ht ▸ l.mem_toks hw, cstr_nulterminate (fun w' hw' => isWord_of_derived ht hw') hw, fun v hv hin => ?_⟩
  have hstop := (isWord_of_derived ht hv).stop
  rw [(isWord_of_derived ht hw).chars v.eq hin.1 hin.2] at hstop
  cases hstop

def CStr.ofList (l : List Char) (h : '\x00' ∉ l) : CStr where
  mem i := l.getD i '\x00'
  len := l.length
  nonzero i hi := by
    have hg : l.getD i '\x00' = l[i] := by simp [hi]
    rw [hg]
    exact fun he => h (he ▸ getElem_mem hi)
  zero := by simp

-- `(a>b;c)&` with pointers into the string
example : (parsecmd 100 (.ofList ['(', 'a', '>', 'b', ';', 'c', ')', '&'] (by decide))).toOption.map Prod.fst =
    some (.back (.list (.redir (.exec [⟨1, 2⟩]) ⟨3, 4⟩ 0x601 1) (.exec [⟨5, 6⟩]))) := by decide +kernel

/-- `a>b`: the symbol between the words is overwritten. -/
def oneRedir : CStr := .ofList ['a', '>', 'b'] (by decide)

theorem parsecmd_words_kept_oneRedir : ∃ mem, parsecmd 31 oneRedir = .ok (.redir (.exec [⟨0, 1⟩]) ⟨2, 3⟩ 0x601 1, mem) ∧
    cstr mem 4 2 = text oneRedir ⟨2, 3⟩ := by
  have h : (parsecmd 31 oneRedir).toOption.map Prod.fst = some (.redir (.exec [⟨0, 1⟩]) ⟨2, 3⟩ 0x601 1) := by
    decide +kernel
  match hx : parsecmd 31 oneRedir with
  | .error e =>
    rw [hx] at h
    cases h
  | .ok (cmd, mem) =>
    rw [hx] at h
    cases h
    exact ⟨mem, rfl, (parsecmd_words_kept oneRedir 0 hx ⟨2, 3⟩ (by decide)).2.1⟩

end Sh
end Xv6
