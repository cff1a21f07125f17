import Xv6.Sh.Grammar

/-!
# Xv6.Sh.Parse

The parser and the grammar. What the functions of the parser accept is derived by the grammar, and the
command is the one that the derivation denotes (`sound`); with a number of turns in proportion to the number
of tokens they return or panic. What the grammar derives is accepted when a token follows that can follow
(`complete`).
-/

namespace Xv6
namespace Sh

open Wp List

variable {c : CStr} {s : Nat} {cs : List Char} {ts : List Tok}

/-! ## The next token -/

def Ends (cs : List Char) (ts : List Tok) : Prop := ts = [] ∨ starts cs ts = true

theorem Ends.starts_eq_false {ds : List Char} (h : Ends cs ts)
    (hd : cs.all (!ds.contains ·) = true) : starts ds ts = false := by
  obtain rfl | h := h
  · rfl
  cases ts with
  | nil => rfl
  | cons t ts =>
    cases t with
    | word w => rfl
    | sym r =>
      have hr : cs.contains (first r) = true := h
      have := all_eq_true.mp hd (first r) (contains_iff_mem.mp hr)
      rwa [Bool.not_eq_true'] at this

theorem Ends.mono {ds : List Char} (h : Ends cs ts) (hd : cs.all (ds.contains ·) = true) : Ends ds ts := by
  refine h.imp id fun h => ?_
  cases ts with
  | nil => cases h
  | cons t ts =>
    cases t with
    | word w => cases h
    | sym r =>
      have hr : cs.contains (first r) = true := h
      exact all_eq_true.mp hd (first r) (contains_iff_mem.mp hr)

theorem starts_one {x : Char} (hx : x ≠ '>') (h : starts [x] ts = true) : ∃ ts', ts = .sym x :: ts' := by
  cases ts with
  | nil => cases h
  | cons t ts =>
    cases t with
    | word w => cases h
    | sym r =>
      have hr : first r = x := by
        have : [x].contains (first r) = true := h
        simpa using this
      unfold first at hr
      split at hr
      · exact absurd hr.symm hx
      · exact ⟨ts, by rw [hr]⟩

theorem starts_redir (h : starts ['<', '>'] ts = true) : ∃ (d : Dir) (ts' : List Tok), ts = .sym d.sym :: ts' := by
  cases ts with
  | nil => cases h
  | cons t ts =>
    cases t with
    | word w => cases h
    | sym r =>
      have hr : first r = '<' ∨ first r = '>' := by
        have : ['<', '>'].contains (first r) = true := h
        simpa using this
      unfold first at hr
      split at hr
      · rename_i he
        exact ⟨.append, ts, by rw [he]; rfl⟩
      · obtain rfl | rfl := hr
        · exact ⟨.input, ts, rfl⟩
        · exact ⟨.output, ts, rfl⟩

/-! ## Soundness -/

abbrev NotFuel (e : Err) : Prop := e ≠ .fuel

theorem notFuel_panic (m : String) : NotFuel (.panic m) := by
  intro h
  cases h

theorem parseredirs_sound : ∀ (n : Nat) {s : Nat} (cmd : Cmd Word), s ≤ c.len → (toks c s).length < n →
    wpe NotFuel (parseredirs c n cmd) (fun cmd' s' => s' ≤ c.len ∧ ∃ rs, toks c s = redirToks rs ++ toks c s' ∧
      cmd' = wrap rs cmd) s := by
  intro n
  induction n with
  | zero =>
    intro s cmd _ hn
    omega
  | succ n ih =>
    intro s cmd hs hn
    rw [parseredirs, wpe_bind]
    refine wpe_of_wp (wp_peek hs (by decide) fun s1 hs1 ht1 _ => ?_)
    rw [wpe_ite]
    refine ⟨fun hst => ?_, fun hst => wpe_pure.mpr ⟨hs1, [], ht1.symm, rfl⟩⟩
    obtain ⟨d, ts, hts⟩ := starts_redir hst
    rw [wpe_bind]
    refine wpe_of_wp (wp_gettoken_sym hs1 (ht1.trans hts) fun w s2 hs2 ht2 => ?_)
    -- the file
    dsimp only
    rw [wpe_bind]
    refine wpe_of_wp (wp_gettoken hs2 (fun w h => ?_) (fun r w s3 _ ha hs3 ht3 => ?_) fun w s3 hs3 ht3 => ?_)
    · dsimp only
      rw [if_pos (by decide), wpe_throw]
      exact notFuel_panic _
    · dsimp only
      rw [if_pos ha, wpe_throw]
      exact notFuel_panic _
    · dsimp only
      rw [if_neg (by decide), redirect_sym]
      rw [hts, ← ht2, ht3] at hn ⊢
      refine wpe_mono (ih _ hs3 (by simp at hn; omega)) ?_
      rintro cmd' s' ⟨hs', rs, hrs, rfl⟩
      exact ⟨hs', (d, w) :: rs, by rw [hrs]; rfl, rfl⟩

theorem parsebacks_sound : ∀ (n : Nat) {s : Nat} (cmd : Cmd Word), s ≤ c.len → (toks c s).length < n →
    wpe NotFuel (parsebacks c n cmd) (fun cmd' s' => s' ≤ c.len ∧
      ∃ k, toks c s = replicate k (.sym '&') ++ toks c s' ∧ cmd' = Cmd.back^[k] cmd) s := by
  intro n
  induction n with
  | zero =>
    intro s cmd _ hn
    omega
  | succ n ih =>
    intro s cmd hs hn
    rw [parsebacks, wpe_bind]
    refine wpe_of_wp (wp_peek hs (by decide) fun s1 hs1 ht1 _ => ?_)
    rw [wpe_ite]
    refine ⟨fun hst => ?_, fun hst => wpe_pure.mpr ⟨hs1, 0, ht1.symm, rfl⟩⟩
    obtain ⟨ts, hts⟩ := starts_one (by decide) hst
    rw [wpe_bind]
    refine wpe_of_wp (wp_gettoken_sym hs1 (ht1.trans hts) fun w s2 hs2 ht2 => ?_)
    rw [hts, ← ht2] at hn ⊢
    refine wpe_mono (ih _ hs2 (by simp at hn; omega)) ?_
    rintro cmd' s' ⟨hs', k, hk, rfl⟩
    exact ⟨hs', k + 1, by rw [hk]; rfl, by rw [Function.iterate_succ_apply]⟩

theorem parseargs_sound : ∀ (n : Nat) {s argc : Nat} (ret : Cmd Word), s ≤ c.len → (toks c s).length < n →
    argc ≤ MAXARGS - 1 → wpe NotFuel (parseargs c n argc ret) (fun cmd' s' => s' ≤ c.len ∧
      ∃ args, toks c s = argToks args ++ toks c s' ∧ cmd' = addArgs args ret ∧ argc + args.length ≤ MAXARGS - 1) s := by
  intro n
  induction n with
  | zero =>
    intro s argc ret _ hn
    omega
  | succ n ih =>
    intro s argc ret hs hn hargc
    rw [parseargs, wpe_bind]
    refine wpe_of_wp (wp_peek hs (by decide) fun s1 hs1 ht1 _ => ?_)
    rw [wpe_ite]
    refine ⟨fun _ => wpe_pure.mpr ⟨hs1, [], ht1.symm, rfl, hargc⟩, fun _ => ?_⟩
    rw [wpe_bind]
    refine wpe_of_wp (wp_gettoken hs1 (fun w h => ?_) (fun r w s2 h0 ha _ _ => ?_) fun w s2 hs2 ht2 => ?_)
    · dsimp only
      rw [if_pos rfl, wpe_pure]
      exact ⟨le_refl _, [], by rw [← ht1, h, toks_len]; rfl, rfl, hargc⟩
    · dsimp only
      rw [if_neg h0, if_pos ha, wpe_throw]
      exact fun h => by cases h
    · dsimp only
      rw [if_neg (by decide), if_neg (by decide), wpe_ite]
      refine ⟨fun _ => wpe_throw.mpr (notFuel_panic _), fun hmax => ?_⟩
      rw [← ht1, ht2] at hn ⊢
      rw [wpe_bind]
      refine wpe_mono (parseredirs_sound n _ hs2 (by simp at hn; omega)) ?_
      rintro ret' s3 ⟨hs3, rs, hrs, rfl⟩
      rw [hrs] at hn
      refine wpe_mono (ih _ hs3 (by simp at hn; omega) (by omega)) ?_
      rintro cmd' s' ⟨hs', args, hargs, rfl, hlen⟩
      refine ⟨hs', (w, rs) :: args, ?_, rfl, by rw [length_cons]; omega⟩
      rw [hrs, hargs, argToks, cons_append, append_assoc]

/-- What is parsed from the cursor `s` is derived: `d` stands for the kind of derivation. -/
def Derived {D : Type} (ok : D → Prop) (ts : D → List Tok) (den : D → Cmd Word) (c : CStr) (s : Nat) (cmd : Cmd Word)
    (s' : Nat) : Prop :=
  s' ≤ c.len ∧ ∃ d, ok d ∧ toks c s = ts d ++ toks c s' ∧ cmd = den d

theorem parseblock_sound {n : Nat} (hs : s ≤ c.len) (hn : 8 * (toks c s).length + 4 ≤ n + 1)
    (ih : ∀ {s : Nat}, s ≤ c.len → 8 * (toks c s).length + 7 ≤ n →
      wpe NotFuel (parseline c n) (Derived Line.Ok Line.toks Line.cmd c s) s) :
    wpe NotFuel (parseblock c (n + 1)) (Derived Exec.Ok Exec.toks Exec.cmd c s) s := by
  rw [parseblock, wpe_bind]
  refine wpe_of_wp (wp_peek hs (by decide) fun s1 hs1 ht1 _ => ?_)
  rw [wpe_ite]
  refine ⟨fun _ => wpe_throw.mpr (notFuel_panic _), fun hst => ?_⟩
  obtain ⟨ts, hts⟩ := starts_one (by decide) (not_not.mp hst)
  rw [wpe_bind]
  refine wpe_of_wp (wp_gettoken_sym hs1 (ht1.trans hts) fun w s2 hs2 ht2 => ?_)
  rw [hts, ← ht2] at hn
  rw [wpe_bind]
  refine wpe_mono (ih hs2 (by simp at hn; omega)) ?_
  rintro cmd s3 ⟨hs3, l, hl, hlt, rfl⟩
  rw [wpe_bind]
  refine wpe_of_wp (wp_peek hs3 (by decide) fun s4 hs4 ht4 _ => ?_)
  rw [wpe_ite]
  refine ⟨fun _ => wpe_throw.mpr (notFuel_panic _), fun hst' => ?_⟩
  obtain ⟨ts', hts'⟩ := starts_one (by decide) (not_not.mp hst')
  rw [wpe_bind]
  refine wpe_of_wp (wp_gettoken_sym hs4 (ht4.trans hts') fun w s5 hs5 ht5 => ?_)
  rw [hts', ← ht5] at hlt
  rw [hlt] at hn
  refine wpe_mono (parseredirs_sound n _ hs5 (by simp at hn; omega)) ?_
  rintro cmd' s' ⟨hs', rs, hrs, rfl⟩
  refine ⟨hs', .block l rs, hl, ?_, rfl⟩
  rw [hts, ← ht2, hlt, hrs, Exec.toks]
  simp

/-- The functions of the parser return what the grammar derives, or panic. -/
theorem sound : ∀ n : Nat, (∀ {s : Nat}, s ≤ c.len → 8 * (toks c s).length + 7 ≤ n →
      wpe NotFuel (parseline c n) (Derived Line.Ok Line.toks Line.cmd c s) s) ∧
    (∀ {s : Nat}, s ≤ c.len → 8 * (toks c s).length + 6 ≤ n →
      wpe NotFuel (parsepipe c n) (Derived Pipe.Ok Pipe.toks Pipe.cmd c s) s) ∧
    (∀ {s : Nat}, s ≤ c.len → 8 * (toks c s).length + 5 ≤ n →
      wpe NotFuel (parseexec c n) (Derived Exec.Ok Exec.toks Exec.cmd c s) s) ∧
    (∀ {s : Nat}, s ≤ c.len → 8 * (toks c s).length + 4 ≤ n →
      wpe NotFuel (parseblock c n) (Derived Exec.Ok Exec.toks Exec.cmd c s) s) := by
  intro n
  induction n with
  | zero => exact ⟨fun _ h => by omega, fun _ h => by omega, fun _ h => by omega, fun _ h => by omega⟩
  | succ n ih =>
    obtain ⟨ihl, ihp, ihe, ihb⟩ := ih
    refine ⟨fun {s} hs hn => ?_, fun {s} hs hn => ?_, fun {s} hs hn => ?_, fun {s} hs hn => parseblock_sound hs hn ihl⟩
    · -- a line
      rw [parseline, wpe_bind]
      refine wpe_mono (ihp hs (by omega)) ?_
      rintro cmd s1 ⟨hs1, p, hp, hpt, rfl⟩
      rw [hpt] at hn
      rw [wpe_bind]
      refine wpe_mono (parsebacks_sound n _ hs1 (by simp at hn; omega)) ?_
      rintro cmd' s2 ⟨hs2, k, hk, rfl⟩
      rw [hk] at hn
      rw [wpe_bind]
      refine wpe_of_wp (wp_peek hs2 (by decide) fun s3 hs3 ht3 _ => ?_)
      rw [wpe_ite]
      refine ⟨fun hst => ?_, fun _ => wpe_pure.mpr ⟨hs3, .last p k, hp, ?_, rfl⟩⟩
      · obtain ⟨ts, hts⟩ := starts_one (by decide) hst
        rw [wpe_bind]
        refine wpe_of_wp (wp_gettoken_sym hs3 (ht3.trans hts) fun w s4 hs4 ht4 => ?_)
        rw [hts, ← ht4] at hn
        rw [wpe_bind]
        refine wpe_mono (ihl hs4 (by simp at hn; omega)) ?_
        rintro right s5 ⟨hs5, l, hl, hlt, rfl⟩
        refine wpe_pure.mpr ⟨hs5, .seq p k l, ⟨hp, hl⟩, ?_, rfl⟩
        rw [hpt, hk, hts, ← ht4, hlt, Line.toks]
        simp
      · rw [hpt, hk, ht3, Line.toks, append_assoc]
    · -- a pipe
      rw [parsepipe, wpe_bind]
      refine wpe_mono (ihe hs (by omega)) ?_
      rintro cmd s1 ⟨hs1, e, he, het, rfl⟩
      rw [het] at hn
      rw [wpe_bind]
      refine wpe_of_wp (wp_peek hs1 (by decide) fun s2 hs2 ht2 _ => ?_)
      rw [wpe_ite]
      refine ⟨fun hst => ?_, fun _ => wpe_pure.mpr ⟨hs2, .one e, he, by rw [het, ht2, Pipe.toks], rfl⟩⟩
      obtain ⟨ts, hts⟩ := starts_one (by decide) hst
      rw [wpe_bind]
      refine wpe_of_wp (wp_gettoken_sym hs2 (ht2.trans hts) fun w s3 hs3 ht3 => ?_)
      rw [hts, ← ht3] at hn
      rw [wpe_bind]
      refine wpe_mono (ihp hs3 (by simp at hn; omega)) ?_
      rintro right s4 ⟨hs4, p, hp, hpt, rfl⟩
      refine wpe_pure.mpr ⟨hs4, .pipe e p, ⟨he, hp⟩, ?_, rfl⟩
      rw [het, hts, ← ht3, hpt, Pipe.toks]
      simp
    · -- a command
      rw [parseexec, wpe_bind]
      refine wpe_of_wp (wp_peek hs (by decide) fun s1 hs1 ht1 _ => ?_)
      rw [wpe_ite]
      refine ⟨fun _ => ?_, fun _ => ?_⟩
      · refine wpe_mono (ihb hs1 (by rw [ht1]; omega)) ?_
        rintro cmd s' ⟨hs', e, he, het, rfl⟩
        exact ⟨hs', e, he, ht1 ▸ het, rfl⟩
      · rw [wpe_bind]
        refine wpe_mono (parseredirs_sound n _ hs1 (by rw [ht1]; omega)) ?_
        rintro ret s2 ⟨hs2, rs, hrs, rfl⟩
        rw [← ht1, hrs] at hn
        refine wpe_mono (parseargs_sound n _ hs2 (by simp at hn; omega) (Nat.zero_le _)) ?_
        rintro cmd s' ⟨hs', args, hargs, rfl, hlen⟩
        refine ⟨hs', .simple rs args, by simpa [Exec.Ok] using hlen, ?_, ?_⟩
        · rw [← ht1, hrs, hargs, Exec.toks, append_assoc]
        · rw [addArgs_eq]
          rfl

/-! ## Completeness -/

/-- From the cursor `s` the parser returns `cmd`, with `rest` still to be read. -/
def Reads (c : CStr) (x : P (Cmd Word)) (cmd : Cmd Word) (rest : List Tok) (s : Nat) : Prop :=
  wp x (fun cmd' s' => s' ≤ c.len ∧ toks c s' = rest ∧ cmd' = cmd) s

theorem parseredirs_complete : ∀ (n : Nat) {s : Nat} {rs : Redirs} {rest : List Tok} (cmd : Cmd Word), s ≤ c.len →
    toks c s = redirToks rs ++ rest → starts ['<', '>'] rest = false → rs.length < n →
      Reads c (parseredirs c n cmd) (wrap rs cmd) rest s := by
  intro n
  induction n with
  | zero =>
    intro s rs rest cmd _ _ _ hn
    omega
  | succ n ih =>
    intro s rs rest cmd hs ht hrest hn
    unfold Reads
    rw [parseredirs, wp_bind]
    refine wp_peek hs (by decide) fun s1 hs1 ht1 _ => ?_
    rw [ht] at ht1 ⊢
    cases rs with
    | nil =>
      rw [show starts ['<', '>'] (redirToks [] ++ rest) = false from hrest, if_neg (by decide), wp_pure]
      exact ⟨hs1, ht1, rfl⟩
    | cons r rs =>
      obtain ⟨d, w⟩ := r
      rw [show starts ['<', '>'] (redirToks ((d, w) :: rs) ++ rest) = true by cases d <;> rfl, if_pos rfl, wp_bind]
      refine wp_gettoken_sym hs1 ht1 fun _ s2 hs2 ht2 => ?_
      dsimp only
      rw [wp_bind]
      refine wp_gettoken_word hs2 ht2 fun s3 hs3 ht3 => ?_
      dsimp only
      rw [if_neg (by decide), redirect_sym]
      exact ih _ hs3 ht3 hrest (by simpa using hn)

theorem parsebacks_complete : ∀ (n : Nat) {s k : Nat} {rest : List Tok} (cmd : Cmd Word), s ≤ c.len →
    toks c s = replicate k (.sym '&') ++ rest → starts ['&'] rest = false → k < n →
      Reads c (parsebacks c n cmd) (Cmd.back^[k] cmd) rest s := by
  intro n
  induction n with
  | zero =>
    intro s k rest cmd _ _ _ hn
    omega
  | succ n ih =>
    intro s k rest cmd hs ht hrest hn
    unfold Reads
    rw [parsebacks, wp_bind]
    refine wp_peek hs (by decide) fun s1 hs1 ht1 _ => ?_
    rw [ht] at ht1 ⊢
    cases k with
    | zero =>
      rw [show starts ['&'] (replicate 0 (.sym '&') ++ rest) = false from hrest, if_neg (by decide), wp_pure]
      exact ⟨hs1, ht1, rfl⟩
    | succ k =>
      rw [show starts ['&'] (replicate (k + 1) (.sym '&') ++ rest) = true from rfl, if_pos rfl, wp_bind]
      refine wp_gettoken_sym hs1 ht1 fun _ s2 hs2 ht2 => ?_
      rw [Function.iterate_succ_apply]
      exact ih _ hs2 ht2 hrest (by omega)

abbrev afterExec : List Char := ['|', ')', '&', ';']

theorem starts_argToks {args : Args} {rest : List Tok} (h : starts cs rest = false) :
    starts cs (argToks args ++ rest) = false := by
  cases args with
  | nil => exact h
  | cons a args => rfl

theorem length_redirToks (rs : Redirs) : (redirToks rs).length = 2 * rs.length := by
  induction rs with
  | nil => rfl
  | cons r rs ih =>
    rw [redirToks, length_cons, length_cons, ih, length_cons]
    omega

theorem parseargs_complete : ∀ (n : Nat) {s argc : Nat} {args : Args} {rest : List Tok} (ret : Cmd Word), s ≤ c.len →
    toks c s = argToks args ++ rest → Ends afterExec rest → argc + args.length ≤ MAXARGS - 1 →
    (argToks args).length < n → Reads c (parseargs c n argc ret) (addArgs args ret) rest s := by
  intro n
  induction n with
  | zero =>
    intro s argc args rest ret _ _ _ _ hn
    omega
  | succ n ih =>
    intro s argc args rest ret hs ht hrest hargc hn
    unfold Reads
    rw [parseargs, wp_bind]
    refine wp_peek hs (by decide) fun s1 hs1 ht1 _ => ?_
    rw [ht] at ht1 ⊢
    cases args with
    | nil =>
      obtain rfl | hst := hrest
      · -- at the end `gettoken` returns 0
        rw [show starts afterExec (argToks [] ++ []) = false from rfl, if_neg (by decide), wp_bind]
        refine wp_gettoken hs1 (fun w h => ?_) (fun r w s2 _ _ _ h => ?_) fun w s2 _ h => ?_
        · dsimp only
          rw [if_pos rfl, wp_pure]
          exact ⟨le_refl _, toks_len c, rfl⟩
        · rw [ht1] at h
          cases h
        · rw [ht1] at h
          cases h
      · rw [show starts afterExec (argToks [] ++ rest) = true from hst, if_pos rfl, wp_pure]
        exact ⟨hs1, ht1, rfl⟩
    | cons a args =>
      obtain ⟨w, rs⟩ := a
      rw [show starts afterExec (argToks ((w, rs) :: args) ++ rest) = false from rfl, if_neg (by decide), wp_bind]
      refine wp_gettoken_word hs1 ht1 fun s2 hs2 ht2 => ?_
      dsimp only
      rw [length_cons] at hargc
      rw [argToks, length_cons, length_append, length_redirToks] at hn
      rw [if_neg (by decide), if_neg (by decide), if_neg (by omega), wp_bind]
      have hnext : starts ['<', '>'] (argToks args ++ rest) = false :=
        starts_argToks (hrest.starts_eq_false (by decide))
      refine wp_mono (parseredirs_complete n _ hs2 (ht2.trans (append_assoc ..)) hnext (by omega)) ?_
      rintro ret' s3 ⟨hs3, ht3, rfl⟩
      exact ih _ hs3 ht3 hrest (by omega) (by omega)

/-- What the grammar derives is read. -/
theorem complete : ∀ n : Nat,
    (∀ {s : Nat} {l : Line} {rest : List Tok}, s ≤ c.len → l.Ok → toks c s = l.toks ++ rest → Ends [')'] rest →
      8 * l.toks.length + 7 ≤ n → Reads c (parseline c n) l.cmd rest s) ∧
    (∀ {s : Nat} {p : Pipe} {rest : List Tok}, s ≤ c.len → p.Ok → toks c s = p.toks ++ rest →
      Ends [')', '&', ';'] rest → 8 * p.toks.length + 6 ≤ n → Reads c (parsepipe c n) p.cmd rest s) ∧
    (∀ {s : Nat} {e : Exec} {rest : List Tok}, s ≤ c.len → e.Ok → toks c s = e.toks ++ rest →
      Ends afterExec rest → 8 * e.toks.length + 5 ≤ n → Reads c (parseexec c n) e.cmd rest s) ∧
    (∀ {s : Nat} {l : Line} {rs : Redirs} {rest : List Tok}, s ≤ c.len → l.Ok →
      toks c s = (Exec.block l rs).toks ++ rest → Ends afterExec rest →
      8 * (Exec.block l rs).toks.length + 4 ≤ n → Reads c (parseblock c n) (wrap rs l.cmd) rest s) := by
  intro n
  induction n with
  | zero => exact ⟨fun _ _ _ _ h => by omega, fun _ _ _ _ h => by omega, fun _ _ _ _ h => by omega,
      fun _ _ _ _ h => by omega⟩
  | succ n ih =>
    obtain ⟨ihl, ihp, ihe, ihb⟩ := ih
    refine ⟨fun {s l rest} hs hok ht hrest hn => ?_, fun {s p rest} hs hok ht hrest hn => ?_,
      fun {s e rest} hs hok ht hrest hn => ?_, fun {s l rs rest} hs hok ht hrest hn => ?_⟩
    · -- a line
      unfold Reads
      rw [parseline, wp_bind]
      cases l with
      | last p k =>
        rw [Line.toks, append_assoc] at ht
        rw [Line.toks, length_append, length_replicate] at hn
        have hafter : Ends [')', '&', ';'] (replicate k (.sym '&') ++ rest) := by
          cases k with
          | zero => exact hrest.mono (by decide)
          | succ k => exact .inr rfl
        refine wp_mono (ihp hs hok ht hafter (by omega)) ?_
        rintro _ s1 ⟨hs1, ht1, rfl⟩
        rw [wp_bind]
        refine wp_mono (parsebacks_complete n _ hs1 ht1 (hrest.starts_eq_false (by decide)) (by omega)) ?_
        rintro _ s2 ⟨hs2, ht2, rfl⟩
        rw [wp_bind]
        refine wp_peek hs2 (by decide) fun s3 hs3 ht3 _ => ?_
        rw [ht2] at ht3 ⊢
        rw [hrest.starts_eq_false (by decide), if_neg (by decide), wp_pure]
        exact ⟨hs3, ht3, rfl⟩
      | seq p k l =>
        rw [Line.toks, append_assoc, append_assoc] at ht
        rw [Line.toks, length_append, length_append, length_replicate, length_cons] at hn
        have hafter : Ends [')', '&', ';'] (replicate k (.sym '&') ++ (.sym ';' :: l.toks ++ rest)) := by
          cases k with
          | zero => exact .inr rfl
          | succ k => exact .inr rfl
        refine wp_mono (ihp hs hok.1 ht hafter (by omega)) ?_
        rintro _ s1 ⟨hs1, ht1, rfl⟩
        rw [wp_bind]
        refine wp_mono (parsebacks_complete n _ hs1 ht1 rfl (by omega)) ?_
        rintro _ s2 ⟨hs2, ht2, rfl⟩
        rw [wp_bind]
        refine wp_peek hs2 (by decide) fun s3 hs3 ht3 _ => ?_
        rw [ht2] at ht3 ⊢
        rw [show starts [';'] (.sym ';' :: l.toks ++ rest) = true from rfl, if_pos rfl, wp_bind]
        refine wp_gettoken_sym hs3 ht3 fun _ s4 hs4 ht4 => ?_
        rw [wp_bind]
        refine wp_mono (ihl hs4 hok.2 ht4 hrest (by omega)) ?_
        rintro _ s5 ⟨hs5, ht5, rfl⟩
        exact wp_pure.mpr ⟨hs5, ht5, rfl⟩
    · -- a pipe
      unfold Reads
      rw [parsepipe, wp_bind]
      cases p with
      | one e =>
        rw [Pipe.toks] at ht hn
        refine wp_mono (ihe hs hok ht (hrest.mono (by decide)) (by omega)) ?_
        rintro _ s1 ⟨hs1, ht1, rfl⟩
        rw [wp_bind]
        refine wp_peek hs1 (by decide) fun s2 hs2 ht2 _ => ?_
        rw [ht1] at ht2 ⊢
        rw [hrest.starts_eq_false (by decide), if_neg (by decide), wp_pure]
        exact ⟨hs2, ht2, rfl⟩
      | pipe e p =>
        rw [Pipe.toks, append_assoc] at ht
        rw [Pipe.toks, length_append, length_cons] at hn
        refine wp_mono (ihe hs hok.1 ht (.inr rfl) (by omega)) ?_
        rintro _ s1 ⟨hs1, ht1, rfl⟩
        rw [wp_bind]
        refine wp_peek hs1 (by decide) fun s2 hs2 ht2 _ => ?_
        rw [ht1] at ht2 ⊢
        rw [show starts ['|'] (.sym '|' :: p.toks ++ rest) = true from rfl, if_pos rfl, wp_bind]
        refine wp_gettoken_sym hs2 ht2 fun _ s3 hs3 ht3 => ?_
        rw [wp_bind]
        refine wp_mono (ihp hs3 hok.2 ht3 hrest (by omega)) ?_
        rintro _ s4 ⟨hs4, ht4, rfl⟩
        exact wp_pure.mpr ⟨hs4, ht4, rfl⟩
    · -- a command
      unfold Reads
      rw [parseexec, wp_bind]
      refine wp_peek hs (by decide) fun s1 hs1 ht1 _ => ?_
      rw [ht] at ht1 ⊢
      cases e with
      | block l rs =>
        rw [show starts ['('] ((Exec.block l rs).toks ++ rest) = true by rw [Exec.toks]; rfl, if_pos rfl]
        exact ihb hs1 hok ht1 hrest (by omega)
      | simple rs args =>
        rw [Exec.toks, append_assoc] at ht1 ⊢
        rw [Exec.toks, length_append, length_redirToks] at hn
        have hopen : starts ['('] (redirToks rs ++ (argToks args ++ rest)) = false :=
          starts_redirToks_append (by decide) (starts_argToks (hrest.starts_eq_false (by decide)))
        rw [hopen, if_neg (by decide), wp_bind]
        have hnext : starts ['<', '>'] (argToks args ++ rest) = false :=
          starts_argToks (hrest.starts_eq_false (by decide))
        refine wp_mono (parseredirs_complete n _ hs1 ht1 hnext (by omega)) ?_
        rintro _ s2 ⟨hs2, ht2, rfl⟩
        rw [Exec.cmd, ← nil_append (args.map Prod.fst), ← addArgs_eq]
        exact parseargs_complete n _ hs2 ht2 hrest (by rw [Nat.zero_add]; exact hok) (by omega)
    · -- a block
      unfold Reads
      rw [parseblock, wp_bind]
      refine wp_peek hs (by decide) fun s1 hs1 ht1 _ => ?_
      rw [ht, Exec.toks, cons_append, append_assoc] at ht1
      rw [ht, Exec.toks, show starts ['('] (_ ++ rest) = true from rfl, if_neg (by decide), wp_bind]
      rw [Exec.toks, length_cons, length_append, length_cons, length_redirToks] at hn
      refine wp_gettoken_sym hs1 ht1 fun _ s2 hs2 ht2 => ?_
      rw [wp_bind]
      refine wp_mono (ihl hs2 hok ht2 (.inr rfl) (by omega)) ?_
      rintro _ s3 ⟨hs3, ht3, rfl⟩
      rw [wp_bind]
      refine wp_peek hs3 (by decide) fun s4 hs4 ht4 _ => ?_
      rw [ht3] at ht4 ⊢
      rw [show starts [')'] (_ :: _ ++ rest) = true from rfl, if_neg (by decide), wp_bind]
      refine wp_gettoken_sym hs4 ht4 fun _ s5 hs5 ht5 => ?_
      exact parseredirs_complete n _ hs5 ht5 (hrest.starts_eq_false (by decide)) (by omega)

end Sh
end Xv6
