import Xv6.Sys.Load

/-!
# Xv6.Sys.Args

The arguments of a program on its stack.

* `need`: the room that the strings and the array of pointers take.
* `ArgLayout`: what the program finds at its stack pointer.
* `wp_pushStack_args`: the arguments are pushed when there is room in the stack page, and only then.
* `exec_args`: the same for `exec`, from any state of the system.
-/

namespace Xv6
namespace Sys

open Bytes Wp Vm Function List

/-! ## The stack pointer -/

def up16 (n : Nat) : Nat := (n + 15) / 16 * 16

theorem le_up16 (n : Nat) : n ≤ up16 n := by
  unfold up16
  omega

theorem up16_mod (n : Nat) : up16 n % 16 = 0 := by
  unfold up16
  omega

theorem pushed_eq {sp n : Nat} (hsp : sp % 16 = 0) (hlt : sp < 2 ^ 64) (hn : n ≤ sp) : pushed sp n = sp - up16 n := by
  have hsub : sub64 sp n = sp - n := by
    unfold sub64
    omega
  rw [pushed, hsub, up16]
  omega

def used (args : List (List UInt8)) : Nat := (args.map fun s => up16 (s.length + 1)).sum

def need (args : List (List UInt8)) : Nat := used args + up16 (8 * (args.length + 1))

theorem used_nil : used [] = 0 := rfl

theorem used_cons (s : List UInt8) (args : List (List UInt8)) : used (s :: args) = up16 (s.length + 1) + used args := rfl

theorem used_mod (args : List (List UInt8)) : used args % 16 = 0 := by
  induction args with
  | nil => rfl
  | cons s args ih =>
    have := up16_mod (s.length + 1)
    rw [used_cons]
    omega

/-- Where the strings are when the stack pointer was `sp`. -/
def places : Nat → List (List UInt8) → List Nat
  | _, [] => []
  | sp, s :: args => (sp - up16 (s.length + 1)) :: places (sp - up16 (s.length + 1)) args

def UserMem.pushStrs (v : UserMem) : Nat → List (List UInt8) → UserMem
  | _, [] => v
  | sp, s :: args => (v.put (sp - up16 (s.length + 1)) (s ++ [0])).pushStrs (sp - up16 (s.length + 1)) args

theorem length_places (sp : Nat) (args : List (List UInt8)) : (places sp args).length = args.length := by
  induction args generalizing sp with
  | nil => rfl
  | cons s args ih => rw [places, length_cons, length_cons, ih]

section Places

variable {v : UserMem} {sp : Nat} {args : List (List UInt8)}

theorem pushStrs_n : (v.pushStrs sp args).n = v.n := by
  induction args generalizing v sp with
  | nil => rfl
  | cons s args ih => exact ih

theorem pushStrs_flags : (v.pushStrs sp args).flags = v.flags := by
  induction args generalizing v sp with
  | nil => rfl
  | cons s args ih => exact ih

theorem pushStrs_out {a : Nat} (h : used args ≤ sp) (ha : a < sp - used args ∨ sp ≤ a) :
    (v.pushStrs sp args).byte a = v.byte a := by
  induction args generalizing v sp with
  | nil => rfl
  | cons s args ih =>
    have hle := le_up16 (s.length + 1)
    rw [used_cons] at h ha
    rw [UserMem.pushStrs, ih (by omega) (by omega), UserMem.put_out]
    rw [length_append, length_singleton]
    omega

theorem places_range {i : Nat} (h : used args ≤ sp) (hi : i < args.length) (hp : i < (places sp args).length) :
    sp - used args ≤ (places sp args)[i] ∧ (places sp args)[i] + args[i].length + 1 ≤ sp := by
  induction args generalizing sp i with
  | nil => exact absurd hi (Nat.not_lt_zero i)
  | cons s args ih =>
    have hle := le_up16 (s.length + 1)
    rw [used_cons] at h ⊢
    cases i with
    | zero =>
      simp only [places, getElem_cons_zero]
      omega
    | succ i =>
      simp only [places, getElem_cons_succ]
      have hp' : i < (places (sp - up16 (s.length + 1)) args).length := by simpa [places] using hp
      have := ih (by omega) (Nat.lt_of_succ_lt_succ hi) hp'
      omega

theorem places_lt {i j : Nat} (h : used args ≤ sp) (hij : i < j) (hj : j < args.length) (hp : j < (places sp args).length) :
    (places sp args)[j] + args[j].length + 1 ≤ (places sp args)[i] := by
  induction args generalizing sp i j with
  | nil => exact absurd hj (Nat.not_lt_zero j)
  | cons s args ih =>
    rw [used_cons] at h
    cases j with
    | zero => exact absurd hij (Nat.not_lt_zero i)
    | succ j =>
      have hp' : j < (places (sp - up16 (s.length + 1)) args).length := by simpa [places] using hp
      cases i with
      | zero =>
        simp only [places, getElem_cons_succ, getElem_cons_zero]
        exact (places_range (by omega) (Nat.lt_of_succ_lt_succ hj) hp').2
      | succ i =>
        simp only [places, getElem_cons_succ]
        exact ih (by omega) (Nat.lt_of_succ_lt_succ hij) (Nat.lt_of_succ_lt_succ hj) hp'

theorem pushStrs_in {i q : Nat} (h : used args ≤ sp) (hi : i < args.length) (hp : i < (places sp args).length)
    (hq : q < (args[i] ++ [0]).length) :
    (v.pushStrs sp args).byte ((places sp args)[i] + q) = (args[i] ++ [0])[q] := by
  induction args generalizing v sp i with
  | nil => exact absurd hi (Nat.not_lt_zero i)
  | cons s args ih =>
    have hle := le_up16 (s.length + 1)
    rw [used_cons] at h
    cases i with
    | zero =>
      simp only [places, getElem_cons_zero] at hq ⊢
      rw [UserMem.pushStrs, pushStrs_out (by omega) (by omega), UserMem.put_in hq]
    | succ i =>
      simp only [places, getElem_cons_succ] at hq ⊢
      exact ih (by omega) (Nat.lt_of_succ_lt_succ hi) (by simpa [places] using hp) hq

end Places

/-! ## Pushing the arguments -/

section Push

variable {L : Layout} {P T : Multiset Nat} {m : Nat → Page} {tf root N entry : Nat} {k : Kmem} {v : UserMem} {u : Nat → Nat}
  {argv : List Nat}

def strings (m : Nat → Page) (argv : List Nat) : List (List UInt8) := argv.map fun arg => strIn (m arg)

/-- Page `N`, behind at least one other, is the stack. -/
structure Stack (N : Nat) (v : UserMem) : Prop where
  n : v.n = N + 1
  pos : 0 < N
  user : v.flags N &&& PTE_U ≠ 0

theorem Stack.put {va : Nat} {l : List UInt8} (h : Stack N v) : Stack N (v.put va l) := ⟨h.n, h.pos, h.user⟩

theorem Contents.wp_copyout_stack {va : Nat} {l : List UInt8} (hP : Arena L P) (h : Contents L P m tf root k v T u)
    (hv : Stack N v) (hlo : N * PGSIZE ≤ va) (hhi : va + l.length ≤ (N + 1) * PGSIZE) :
    wp (copyout root va l) (fun r k' => r = 0 ∧ Contents L P m tf root k' (v.put va l) T u) k := by
  refine h.wp_copyout hP fun j hj => ?_
  obtain rfl : j = N := by
    simp only [Covers, PGSIZE] at hj hlo hhi
    omega
  exact ⟨by rw [hv.n]; omega, hv.user⟩

theorem wp_pushArgs_args (hP : Arena L P) (hout : ∀ arg ∈ argv, arg ∉ P) (hshort : ∀ arg ∈ argv, (strIn (m arg)).length < PGSIZE) :
    ∀ {sp : Nat} {ustack : List Nat} {v : UserMem} {k : Kmem}, Contents L P m tf root k v T u → Stack N v →
    ustack.length + argv.length ≤ MAXARG → sp % 16 = 0 → N * PGSIZE ≤ sp → sp ≤ (N + 1) * PGSIZE →
    wp (pushArgs root (N * PGSIZE) argv sp ustack) (fun r k' =>
      (N * PGSIZE + used (strings m argv) ≤ sp ∧ r = some (sp - used (strings m argv), ustack ++ places sp (strings m argv)) ∧
        Contents L P m tf root k' (v.pushStrs sp (strings m argv)) T u) ∨
      (sp < N * PGSIZE + used (strings m argv) ∧ r = none ∧ ∃ v', v'.n = v.n ∧ Contents L P m tf root k' v' T u)) k := by
  induction argv with
  | nil =>
    intro sp ustack v k h _ _ _ hlo _
    rw [strings, map_nil, used_nil]
    refine wp_pure.mpr (Or.inl ?_)
    refine ⟨(Nat.add_zero _).trans_le hlo, ?_, h⟩
    rw [places, append_nil, Nat.sub_zero]
  | cons arg argv ih =>
    intro sp ustack v k h hv hlen hal hlo hhi
    have hle := h.space.le
    have hN := hv.n
    have hpos := hv.pos
    have hpage : k.mem arg = m arg := h.frame arg (hout arg mem_cons_self)
    have hstr := hshort arg mem_cons_self
    have hcons : strings m (arg :: argv) = strIn (m arg) :: strings m argv := rfl
    have hup := le_up16 ((strIn (m arg)).length + 1)
    have hup' := up16_mod ((strIn (m arg)).length + 1)
    have hlast : (strIn (m arg) ++ [0]).length = (strIn (m arg)).length + 1 := by
      rw [length_append, length_singleton]
    have hbase : PGSIZE ≤ N * PGSIZE ∧ (N + 1) * PGSIZE < 2 ^ 64 ∧ up16 ((strIn (m arg)).length + 1) ≤ PGSIZE := by
      simp only [up16, PGSIZE] at hstr ⊢
      omega
    have hdown : up16 ((strIn (m arg)).length + 1) ≤ sp := hbase.2.2.trans (hbase.1.trans hlo)
    have hpush := pushed_eq hal (by omega) (show (strIn (m arg)).length + 1 ≤ sp by omega)
    simp only [pushArgs, wp_ite, wp_bind, wp_get]
    rw [hpage, hlast, hpush, hcons, used_cons]
    refine ⟨fun hmax => ?_, fun _ => ⟨fun hsmall => ?_, fun hsp => ?_⟩⟩
    · simp only [length_cons] at hlen
      omega
    · refine wp_pure.mpr (Or.inr ?_)
      exact ⟨by omega, rfl, v, rfl, h⟩
    · refine wp_mono (h.wp_copyout_stack hP hv (Nat.le_of_not_lt hsp) (by omega)) ?_
      rintro r k1 ⟨rfl, h1⟩
      refine ⟨fun hr => absurd hr (by decide), fun _ => ?_⟩
      refine wp_mono (ih (fun a ha => hout a (mem_cons_of_mem arg ha)) (fun a ha => hshort a (mem_cons_of_mem arg ha))
        h1 hv.put ?_ (by omega) (Nat.le_of_not_lt hsp) (by omega)) ?_
      · simp only [length_append, length_cons, length_nil] at hlen ⊢
        omega
      rintro r k' (⟨hfit, hr, h'⟩ | ⟨hfull, hr, v', hn', h'⟩)
      · have hroom := Nat.add_le_of_le_sub hdown hfit
        rw [places, UserMem.pushStrs, Nat.add_comm (up16 _), ← Nat.add_assoc]
        refine .inl ⟨hroom, ?_, h'⟩
        rw [hr, append_assoc, singleton_append, Nat.sub_sub, Nat.add_comm (used _)]
      · exact .inr ⟨by omega, hr, v', hn', h'⟩

/-- The memory with the strings and the array of pointers, below address `sz`. -/
def UserMem.pushArgs (v : UserMem) (sz : Nat) (args : List (List UInt8)) : UserMem :=
  (v.pushStrs sz args).put (sz - need args) ((places sz args ++ [0]).flatMap (encLE 8))

theorem length_words (ws : List Nat) : (ws.flatMap (encLE 8)).length = 8 * ws.length := by
  induction ws with
  | nil => rfl
  | cons w ws ih =>
    rw [flatMap_cons, length_append, ih, length_encLE, length_cons]
    omega

/-- The arguments are on the stack, or they do not fit in its page and all pages are free again. -/
def ArgsPushed (L : Layout) (P : Multiset Nat) (m : Nat → Page) (tf root N : Nat) (v : UserMem) (args : List (List UInt8))
    (r : Option Image) (k : Kmem) : Prop :=
  (need args ≤ PGSIZE ∧ ∃ im, r = some im ∧ im.pagetable = root ∧ im.sz = (N + 1) * PGSIZE ∧
    im.sp = (N + 1) * PGSIZE - need args ∧ im.argc = args.length ∧
    Holds L P m tf root k (v.pushArgs ((N + 1) * PGSIZE) args)) ∨
  (PGSIZE < need args ∧ r = none ∧ ↑k.freelist = P ∧ Frame P m k.mem)

theorem wp_pushStack_args (hP : Arena L P) (hout : ∀ arg ∈ argv, arg ∉ P)
    (hshort : ∀ arg ∈ argv, (strIn (m arg)).length < PGSIZE) (hlen : argv.length < MAXARG) (h : Holds L P m tf root k v)
    (hv : Stack N v) :
    wp (pushStack L root ((N + 1) * PGSIZE) entry argv) (ArgsPushed L P m tf root N v (strings m argv)) k := by
  obtain ⟨T, u, h⟩ := h
  have hle := h.space.le
  have hN := hv.n
  have hpos := hv.pos
  have htop : (N + 1) * PGSIZE = N * PGSIZE + PGSIZE := Nat.succ_mul N PGSIZE
  have hargs : (strings m argv).length = argv.length := length_map _
  have hal : (N + 1) * PGSIZE % 16 = 0 := by
    simp only [PGSIZE]
    omega
  have hbad : ∀ {k : Kmem} {v' : UserMem}, PGSIZE < need (strings m argv) → v'.n = v.n → Contents L P m tf root k v' T u →
      wp (bad L root ((N + 1) * PGSIZE)) (ArgsPushed L P m tf root N v (strings m argv)) k := by
    intro k v' hneed hn' h'
    refine wp_mono (wp_bad hP (Holds.building ⟨T, u, h'⟩ (by rw [hn', hN, npages_mul]))) ?_
    rintro r k' ⟨hr, hfree, hfr⟩
    exact .inr ⟨hneed, hr, hfree, hfr⟩
  rw [pushStack, wp_bind, htop, Nat.add_sub_cancel, ← htop]
  refine wp_mono (wp_pushArgs_args hP hout hshort h hv (by simpa using Nat.le_of_lt hlen) hal (by omega) le_rfl) ?_
  rintro r k1 (⟨hfit, rfl, h1⟩ | ⟨hfull, rfl, v', hn', h1⟩)
  · have hplaces := length_places ((N + 1) * PGSIZE) (strings m argv)
    generalize hsp : (N + 1) * PGSIZE - used (strings m argv) = sp
    have hmod := used_mod (strings m argv)
    have hup := le_up16 (8 * (argv.length + 1))
    have hsmall : up16 (8 * (argv.length + 1)) ≤ N * PGSIZE ∧ (N + 1) * PGSIZE < 2 ^ 64 := by
      simp only [up16, PGSIZE, MAXARG] at hlen ⊢
      omega
    have hwords : (places ((N + 1) * PGSIZE) (strings m argv) ++ [0]).length * 8 = 8 * (argv.length + 1) := by
      rw [length_append, length_singleton, hplaces, hargs, Nat.mul_comm]
    have hpush : pushed sp (8 * (argv.length + 1)) = sp - up16 (8 * (argv.length + 1)) :=
      pushed_eq (by omega) (by omega) (by omega)
    have hneed : sp - up16 (8 * (argv.length + 1)) = (N + 1) * PGSIZE - need (strings m argv) := by
      rw [need, hargs]
      omega
    simp only [pushUstack, wp_ite, wp_bind, nil_append]
    rw [hwords, hpush, htop, Nat.add_sub_cancel, ← htop]
    refine ⟨fun hlow => hbad ?_ pushStrs_n h1, fun hsp => ?_⟩
    · rw [need, hargs]
      omega
    · have hstack : Stack N (v.pushStrs ((N + 1) * PGSIZE) (strings m argv)) :=
        ⟨pushStrs_n.trans hN, hpos, by rw [pushStrs_flags]; exact hv.user⟩
      refine wp_mono (h1.wp_copyout_stack hP hstack (Nat.le_of_not_lt hsp) ?_) ?_
      · rw [length_words, length_append, length_singleton, hplaces, hargs]
        omega
      rintro r k2 ⟨rfl, h2⟩
      refine ⟨fun hr => absurd hr (by decide), fun _ => wp_pure.mpr (.inl ⟨?_, _, rfl, rfl, rfl, hneed, hplaces, T, u, ?_⟩)⟩
      · rw [need, hargs]
        omega
      · rw [UserMem.pushArgs, ← hneed]
        exact h2
  · exact hbad (by rw [need]; omega) hn' h1

end Push

/-! ## What the program finds -/

def wordAt (f : Nat → Nat) (mem : Nat → Page) (a : Nat) : Nat := decLE (chars f mem a 8)

def RangesApart (a m b n : Nat) : Prop := a + m ≤ b ∨ b + n ≤ a

/-- The arguments as `main` takes them, from a stack pointer that has come down from `sz` by what they
need. -/
structure ArgLayout (f : Nat → Nat) (mem : Nat → Page) (sz sp : Nat) (args : List (List UInt8)) : Prop where
  aligned : sp % 16 = 0
  down : sp + need args = sz
  strings : ∀ i, (hi : i < args.length) → chars f mem (wordAt f mem (sp + 8 * i)) (args[i].length + 1) = args[i] ++ [0]
  null : wordAt f mem (sp + 8 * args.length) = 0
  apart : ∀ i j, (hi : i < args.length) → (hj : j < args.length) → i ≠ j →
    RangesApart (wordAt f mem (sp + 8 * i)) (args[i].length + 1) (wordAt f mem (sp + 8 * j)) (args[j].length + 1)
  array : ∀ i, (hi : i < args.length) →
    RangesApart sp (8 * (args.length + 1)) (wordAt f mem (sp + 8 * i)) (args[i].length + 1)
  low : sz - PGSIZE ≤ sp ∧ ∀ i, (hi : i < args.length) → sz - PGSIZE ≤ wordAt f mem (sp + 8 * i)
  high : sp + 8 * (args.length + 1) ≤ sz ∧ ∀ i, (hi : i < args.length) → wordAt f mem (sp + 8 * i) + (args[i].length + 1) ≤ sz
  page : sz % PGSIZE = 0 ∧ 2 * PGSIZE ≤ sz ∧ UserPage f (sz / PGSIZE - 1)
  guard : f (sz / PGSIZE - 2) &&& PTE_V ≠ 0 ∧ f (sz / PGSIZE - 2) &&& PTE_U = 0

section Find

variable {mem : Nat → Page} {root N : Nat} {v : UserMem} {args : List (List UInt8)}

theorem Stack.seen {a : Nat} (hv : Stack N v) (hs : Shows mem root v) (hlo : N * PGSIZE ≤ a) (hhi : a < (N + 1) * PGSIZE) :
    Vm.seen (pteAt mem root) mem a = v.byte a := by
  have hdiv : a / PGSIZE = N := by
    simp only [PGSIZE] at hlo hhi ⊢
    omega
  refine hs.seen (by rw [hv.n]; exact hhi) ?_
  rw [hdiv]
  exact hv.user

theorem Stack.chars {a n : Nat} {l : List UInt8} (hv : Stack N v) (hs : Shows mem root v) (hlo : N * PGSIZE ≤ a)
    (hhi : a + n ≤ (N + 1) * PGSIZE) (hl : l.length = n) (hb : ∀ q, (hq : q < l.length) → v.byte (a + q) = l[q]) :
    Vm.chars (pteAt mem root) mem a n = l := by
  refine ext_getElem (by rw [length_chars, hl]) fun q h1 h2 => ?_
  rw [getElem_chars, hv.seen hs (by omega) (by omega), hb q h2]

theorem Stack.pushArgs {sz : Nat} (hv : Stack N v) : Stack N (v.pushArgs sz args) :=
  ⟨pushStrs_n.trans hv.n, hv.pos, by rw [UserMem.pushArgs, UserMem.put_flags, pushStrs_flags]; exact hv.user⟩

theorem wordAt_pushArgs {i : Nat} (hv : Stack N v) (hfit : need args ≤ PGSIZE)
    (hs : Shows mem root (v.pushArgs ((N + 1) * PGSIZE) args)) (hi : i < (places ((N + 1) * PGSIZE) args ++ [0]).length) :
    wordAt (pteAt mem root) mem ((N + 1) * PGSIZE - need args + 8 * i) = (places ((N + 1) * PGSIZE) args ++ [0])[i] := by
  have htop : (N + 1) * PGSIZE = N * PGSIZE + PGSIZE := Nat.succ_mul N PGSIZE
  have hplaces := length_places ((N + 1) * PGSIZE) args
  have hup := le_up16 (8 * (args.length + 1))
  have hneed : need args = used args + up16 (8 * (args.length + 1)) := rfl
  have hlt : (N + 1) * PGSIZE < 2 ^ 64 := by
    have hle := hs.le
    rw [hv.pushArgs.n] at hle
    simp only [PGSIZE]
    omega
  have hwords := length_words (places ((N + 1) * PGSIZE) args ++ [0])
  have hcount : (places ((N + 1) * PGSIZE) args ++ [0]).length = args.length + 1 := by
    rw [length_append, length_singleton, hplaces]
  rw [hcount] at hwords
  have hword : (places ((N + 1) * PGSIZE) args ++ [0])[i] < 256 ^ 8 := by
    have hall : ∀ w ∈ places ((N + 1) * PGSIZE) args ++ [0], w < 2 ^ 64 := by
      intro w hw
      rcases mem_append.mp hw with hw | hw
      · obtain ⟨j, hj, rfl⟩ := mem_iff_getElem.mp hw
        have := (places_range (by omega) (hplaces ▸ hj) hj).2
        omega
      · rw [mem_singleton.mp hw]
        decide
    exact hall _ (getElem_mem hi)
  have hbytes := take_drop_flatMap (length_encLE 8) (places ((N + 1) * PGSIZE) args ++ [0]) i hi
  have hchars : chars (pteAt mem root) mem ((N + 1) * PGSIZE - need args + 8 * i) 8 =
      encLE 8 (places ((N + 1) * PGSIZE) args ++ [0])[i] := by
    refine hv.pushArgs.chars hs (by omega) (by omega) (length_encLE 8 _) fun q hq => ?_
    rw [length_encLE] at hq
    rw [Nat.add_assoc, UserMem.pushArgs, UserMem.put_in (by rw [hwords]; omega)]
    simp only [← hbytes, getElem_take, getElem_drop]
  rw [wordAt, hchars, decLE_encLE, Nat.mod_eq_of_lt hword]

theorem ArgLayout.of_shows (hv : Stack N v) (hguard : v.flags (N - 1) &&& PTE_U = 0) (hfit : need args ≤ PGSIZE)
    (hs : Shows mem root (v.pushArgs ((N + 1) * PGSIZE) args)) :
    ArgLayout (pteAt mem root) mem ((N + 1) * PGSIZE) ((N + 1) * PGSIZE - need args) args := by
  have hpos := hv.pos
  have hstack : Stack N (v.pushArgs ((N + 1) * PGSIZE) args) := hv.pushArgs
  have hflags : (v.pushArgs ((N + 1) * PGSIZE) args).flags = v.flags := pushStrs_flags
  have htop : (N + 1) * PGSIZE = N * PGSIZE + PGSIZE := Nat.succ_mul N PGSIZE
  have hplaces := length_places ((N + 1) * PGSIZE) args
  have hwords := length_words (places ((N + 1) * PGSIZE) args ++ [0])
  rw [length_append, length_singleton, hplaces] at hwords
  have hmod := used_mod args
  have hmod' := up16_mod (8 * (args.length + 1))
  have hup := le_up16 (8 * (args.length + 1))
  have hneed : need args = used args + up16 (8 * (args.length + 1)) := rfl
  have hused : used args ≤ (N + 1) * PGSIZE := by omega
  have hal : (N + 1) * PGSIZE % 16 = 0 := by
    simp only [PGSIZE]
    omega
  have hdiv : (N + 1) * PGSIZE / PGSIZE = N + 1 := Nat.mul_div_cancel _ (by decide)
  have hptr : ∀ i < args.length, ∃ hp : i < (places ((N + 1) * PGSIZE) args).length,
      wordAt (pteAt mem root) mem ((N + 1) * PGSIZE - need args + 8 * i) = (places ((N + 1) * PGSIZE) args)[i] := by
    intro i hi
    have hp : i < (places ((N + 1) * PGSIZE) args).length := by omega
    refine ⟨hp, ?_⟩
    rw [wordAt_pushArgs hv hfit hs (by rw [length_append]; omega), getElem_append_left hp]
  have huser : ∀ j ≤ N, pteAt mem root j &&& PTE_V ≠ 0 ∧ pteAt mem root j &&& PTE_U = v.flags j &&& PTE_U := by
    intro j hj
    have hlt : j < (v.pushArgs ((N + 1) * PGSIZE) args).n := by
      rw [hstack.n]
      omega
    refine ⟨hs.valid j hlt, ?_⟩
    rw [← hflags, ← hs.flags j hlt, pteFlags_and (by decide)]
  refine ⟨by omega, by omega, fun i hi => ?_, ?_, fun i j hi hj hij => ?_, fun i hi => ?_, ⟨by omega, fun i hi => ?_⟩,
    ⟨by omega, fun i hi => ?_⟩, ⟨Nat.mul_mod_left _ _, Nat.mul_le_mul_right _ (by omega), ?_⟩, ?_⟩
  · obtain ⟨hp, hw⟩ := hptr i hi
    have hrange := places_range hused hi hp
    rw [hw]
    refine hstack.chars hs (by omega) (by omega) (by rw [length_append, length_singleton]) fun q hq => ?_
    rw [UserMem.pushArgs, UserMem.put_out (by omega), pushStrs_in hused hi hp hq]
  · rw [wordAt_pushArgs hv hfit hs (by rw [length_append, hplaces, length_singleton]; omega),
      getElem_append_right (by omega)]
    simp
  · obtain ⟨hp, hw⟩ := hptr i hi
    obtain ⟨hp', hw'⟩ := hptr j hj
    rw [hw, hw']
    rcases Nat.lt_or_gt_of_ne hij with hlt | hlt
    · exact .inr (places_lt hused hlt hj hp')
    · exact .inl (places_lt hused hlt hi hp)
  · obtain ⟨hp, hw⟩ := hptr i hi
    have hrange := places_range hused hi hp
    rw [hw]
    exact .inl (by omega)
  · obtain ⟨hp, hw⟩ := hptr i hi
    have hrange := places_range hused hi hp
    omega
  · obtain ⟨hp, hw⟩ := hptr i hi
    have hrange := places_range hused hi hp
    omega
  · rw [hdiv, Nat.add_sub_cancel]
    have hle := hs.le
    rw [hstack.n] at hle
    refine ⟨by omega, (huser N le_rfl).1, ?_⟩
    rw [(huser N le_rfl).2]
    exact hv.user
  · rw [hdiv, show N + 1 - 2 = N - 1 by omega]
    refine ⟨(huser (N - 1) (by omega)).1, ?_⟩
    rw [(huser (N - 1) (by omega)).2]
    exact hguard

end Find

/-! ## exec -/

section Exec

variable {L : Layout} {P : Multiset Nat} {tf : Nat} {k : Kmem} {file : List UInt8} {argv : List Nat}

def ArgsBuilt (L : Layout) (P : Multiset Nat) (tf : Nat) (file : List UInt8) (k : Kmem) (args : List (List UInt8))
    (r : Option Image) (k' : Kmem) : Prop :=
  match r with
  | none => (Loadable L tf file k → PGSIZE < need args) ∧ ↑k'.freelist = P ∧ Frame P k.mem k'.mem
  | some im => need args ≤ PGSIZE ∧ im.argc = args.length ∧ ∃ N v, Stack N v ∧ v.flags (N - 1) &&& PTE_U = 0 ∧
      im.sz = (N + 1) * PGSIZE ∧ im.sp = (N + 1) * PGSIZE - need args ∧
      Holds L P k.mem tf im.pagetable k' (v.pushArgs ((N + 1) * PGSIZE) args)

theorem wp_buildImage_args (hP : Arena L P) (hc : P.card ≤ 2 ^ 15) (hsum : ↑k.freelist = P) (htf : tf < 2 ^ 56)
    (hout : ∀ arg ∈ argv, arg ∉ P) (hshort : ∀ arg ∈ argv, (strIn (k.mem arg)).length < PGSIZE) (hlen : argv.length < MAXARG) :
    wp (buildImage L tf file argv) (ArgsBuilt L P tf file k (strings k.mem argv)) k := by
  refine wp_buildImage_of hP hc hsum htf (fun k' hno hfree hfr => ⟨fun hl => absurd hl hno, hfree, hfr⟩) fun root v k' hu h _ => ?_
  have hflag : ((v.grow (v.n + 2) (userFlags PTE_W)).guard v.n).flags (v.n + 1) = userFlags PTE_W :=
    (update_of_ne (by omega) _ _).trans (if_neg (by omega))
  have hguard : ((v.grow (v.n + 2) (userFlags PTE_W)).guard v.n).flags v.n = clearUser (userFlags PTE_W) :=
    (update_self _ _ _).trans (congrArg clearUser (if_neg (Nat.lt_irrefl _)))
  have hstack : Stack (v.n + 1) ((v.grow (v.n + 2) (userFlags PTE_W)).guard v.n) :=
    ⟨rfl, Nat.succ_pos _, by rw [hflag]; exact userFlags_user _⟩
  refine wp_mono (wp_pushStack_args hP hout hshort hlen h hstack) ?_
  rintro r k'' (⟨hfit, im, rfl, rfl, hsz, hsp, hargc, h'⟩ | ⟨hfull, rfl, hfree, hfr⟩)
  · refine ⟨hfit, hargc, v.n + 1, _, hstack, ?_, hsz, hsp, h'⟩
    rw [Nat.add_sub_cancel, hguard]
    decide
  · exact ⟨fun _ => hfull, hfree, hfr⟩

end Exec

section Call

variable {L : Layout} {s : State} {X : Multiset Nat} {R : Multiset FileId} {p : ProcId} {root tf : Nat} {v : UserMem}

theorem Shows.withFrame (h : Inv L s X R) (ha : AddrSpace L s.kmem.mem (s.proc p) root tf) (hs : Shows s.kmem.mem root v)
    (hn : v.n = npages (s.proc p).sz) (page : Page) : Shows (withFrame s tf page).kmem.mem root v := by
  have hpages : ∀ x ∈ Radix.nodes child (word s.kmem.mem) 2 root + pages (pteAt s.kmem.mem root) 0 v.n,
      (Sys.withFrame s tf page).kmem.mem x = s.kmem.mem x := by
    intro x hx
    refine h.frame_other ha page p ?_
    rwa [tablePages, userPages, ha.pagetable, Option.elim_some, Option.elim_some, ← hn]
  have hpte : ∀ j, pteAt (Sys.withFrame s tf page).kmem.mem root j = pteAt s.kmem.mem root j := by
    refine fun j => Radix.lookup_congr fun x hx => ?_
    funext i
    rw [word, hpages x (Multiset.mem_add.mpr (.inl hx)), word]
  refine ⟨hs.le, fun j hj => ?_, fun j hj => ?_, fun a ha => ?_⟩
  · rw [hpte]
    exact hs.valid j hj
  · rw [hpte]
    exact hs.flags j hj
  · have hj : a / PGSIZE < v.n := Nat.div_lt_of_lt_mul (by rw [Nat.mul_comm]; exact ha)
    rw [userByte, hpte, hpages _ (Multiset.mem_add.mpr (.inr (mem_pages.mpr ⟨_, Nat.zero_le _, by omega, rfl⟩)))]
    exact hs.byte a ha

/-- `exec` as a system call: `syscall` stores the result in `a0`. -/
def execCall (L : Layout) (p : ProcId) (path file : List UInt8) (argv : List Nat) : Kern Int := do
  let r ← exec L p path (some file) argv
  setTrapframe p 112 (r % 2 ^ 64).toNat
  pure r

/-- For every program, and fewer than `MAXARG` strings that are shorter than a page: when `exec` succeeds,
the program finds its arguments where `a0` and `a1` say; and when it could be loaded, `exec` fails exactly
when the arguments do not fit in the stack page. -/
theorem exec_args (L : Layout) (s : State) (X : Multiset Nat) (R : Multiset FileId) (p : ProcId) (path file : List UInt8)
    (argv : List Nat) (h : Inv L s X R) (hst : (s.proc p).state ≠ .unused) (hX : ∀ arg ∈ argv, arg ∈ X)
    (hlen : argv.length < MAXARG) (hshort : ∀ arg ∈ argv, (strIn (s.kmem.mem arg)).length < PGSIZE) :
    ∃ r s', execCall L p path file argv s = .ok (r, s') ∧
      (r ≠ -1 → ∃ root tf sp, (s'.proc p).pagetable = some root ∧ (s'.proc p).trapframe = some tf ∧
        getLE (s'.kmem.mem tf) 112 8 = argv.length ∧ getLE (s'.kmem.mem tf) 120 8 = sp ∧ getLE (s'.kmem.mem tf) 48 8 = sp ∧
        ArgLayout (pteAt s'.kmem.mem root) s'.kmem.mem (s'.proc p).sz sp (strings s.kmem.mem argv)) ∧
      (∀ tf, (s.proc p).trapframe = some tf → Loadable L tf file s.kmem →
        (r = -1 ↔ PGSIZE < need (strings s.kmem.mem argv))) := by
  obtain ⟨root, tf, ha⟩ := h.space hst
  obtain ⟨hP, hc, htf⟩ := h.ready ha
  have hout : ∀ arg ∈ argv, arg ∉ (↑s.kmem.freelist : Multiset Nat) := by
    intro arg harg hfree
    have hd := (h.arena p).nodup
    rw [add_assoc] at hd
    exact notMem_of_nodup_add hd (Multiset.mem_add.mpr (.inr (hX arg harg))) hfree
  refine wp_iff.mp ?_
  rw [execCall, wp_bind]
  refine wp_exec_of h hst ha (wp_buildImage_args hP hc rfl htf hout hshort hlen) (fun k' hb => ?_) fun im k' hb => ?_
  · rw [wp_bind]
    refine (wp_setTrapframe (s := { s with kmem := k' }) ha.trapframe).mpr ?_
    refine wp_pure.mpr ⟨fun hr => absurd rfl hr, fun tf' htf' hl => ⟨fun _ => ?_, fun _ => rfl⟩⟩
    cases ha.trapframe.symm.trans htf'
    exact hb.1 hl
  · obtain ⟨hfit, hargc, N, v, hv, hguard, hsz, hsp, hv'⟩ := hb
    have hn : (v.pushArgs ((N + 1) * PGSIZE) (strings s.kmem.mem argv)).n = npages im.sz := by
      rw [hsz, npages_mul]
      exact pushStrs_n.trans hv.n
    refine ⟨_, hn, hv', fun s' hs' hcom => ?_⟩
    have hproc : s'.proc p = { s.proc p with
        name := safestrcpy (s.proc p).name (lastElem path), pagetable := some im.pagetable, sz := im.sz } := by
      rw [hcom.proc, update_self]
    have htf' : (s'.proc p).trapframe = some tf := by
      rw [hproc]
      exact ha.trapframe
    obtain ⟨tf', ha'⟩ := (hs'.proc p).space im.pagetable (by rw [hproc])
    cases htf'.symm.trans ha'.trapframe
    have hlt : im.sp < 256 ^ 8 ∧ argv.length < 256 ^ 8 := by
      have hle := hcom.shows.le
      rw [hn, hsz, npages_mul] at hle
      simp only [MAXARG] at hlen
      rw [hsp]
      simp only [PGSIZE]
      omega
    have hargc' : (((im.argc : Int)) % 2 ^ 64).toNat = argv.length := by
      rw [hargc, strings, length_map]
      omega
    have hpage : (withFrame s' tf (putLE (s'.kmem.mem tf) 112 8 ((im.argc : Int) % 2 ^ 64).toNat)).kmem.mem tf =
        putLE (putLE (putLE (putLE (s.kmem.mem tf) 120 8 im.sp) 24 8 im.entry) 48 8 im.sp) 112 8 argv.length := by
      rw [hargc', hcom.frame]
      exact update_self _ _ _
    rw [wp_bind]
    refine (wp_setTrapframe htf').mpr (wp_pure.mpr ⟨fun _ => ⟨im.pagetable, tf, im.sp, ?_, htf', ?_, ?_, ?_, ?_⟩, ?_⟩)
    · exact congrArg Proc.pagetable hproc
    · rw [hpage, getLE_putLE_same (by decide), Nat.mod_eq_of_lt hlt.2]
    · rw [hpage, getLE_putLE_disj (by decide), getLE_putLE_disj (by decide), getLE_putLE_disj (by decide),
        getLE_putLE_same (by decide), Nat.mod_eq_of_lt hlt.1]
    · rw [hpage, getLE_putLE_disj (by decide), getLE_putLE_same (by decide), Nat.mod_eq_of_lt hlt.1]
    · have hsize : (s'.proc p).sz = (N + 1) * PGSIZE := (congrArg Proc.sz hproc).trans hsz
      have hshows := hcom.shows.withFrame hs' ha' (by rw [hn, congrArg Proc.sz hproc])
        (putLE (s'.kmem.mem tf) 112 8 ((im.argc : Int) % 2 ^ 64).toNat)
      have hlayout := ArgLayout.of_shows hv hguard hfit hshows
      rw [← hsp] at hlayout
      rw [← hsize] at hlayout
      exact hlayout
    · intro tf' htf' hl
      refine ⟨fun hr => ?_, fun hfull => absurd hfit (by omega)⟩
      omega

/-! ## A program with one argument -/

theorem slice_succ {n : Nat} (b : Buf n) (off k : Nat) : slice b off (k + 1) = byte b off :: slice b (off + 1) k := by
  rw [slice, ofFn_succ, slice]
  refine congrArg _ (congrArg ofFn (funext fun i => ?_))
  rw [Fin.val_succ, Nat.add_assoc, Nat.add_comm 1]

def oneArg : K (Option Nat) := do
  match ← kalloc with
  | none => pure none
  | some page => do
    memmove page 0 [97, 0]
    pure (some page)

theorem strIn_oneArg (page : Page) : strIn (putBytes page 0 [97, 0]) = [97] := by
  have h0 : byte (putBytes page 0 [97, 0]) 0 = 97 := byte_putBytes_in (i := 0) (by decide) (by decide)
  have h1 : byte (putBytes page 0 [97, 0]) (0 + 1) = 0 := byte_putBytes_in (by decide) (by decide)
  have hs : slice (putBytes page 0 [97, 0]) 0 PGSIZE = 97 :: 0 :: slice (putBytes page 0 [97, 0]) 2 4094 := by
    rw [← h0, ← h1]
    exact (slice_succ _ 0 4095).trans (congrArg _ (slice_succ _ 1 4094))
  rw [strIn, hs]
  rfl

theorem wp_oneArg (h : Inv L s 0 R) : wp oneArg (fun r k' => ∀ page, r = some page →
    Inv L { s with kmem := k' } {page} R ∧ strIn (k'.mem page) = [97]) s.kmem := by
  rw [oneArg, wp_bind]
  refine wp_kalloc (fun k' _ _ => wp_pure.mpr fun page hr => by cases hr) fun page rest k' hfree hrest hm => ?_
  rw [wp_bind, wp_memmove]
  refine wp_pure.mpr fun page' hr => ?_
  cases hr
  have hpage : page ∈ (↑s.kmem.freelist + 0 : Multiset Nat) := by
    rw [hfree]
    simp
  refine ⟨h.pool ?_ ?_, ?_⟩
  · rw [hfree, hrest, coe_cons_add, add_zero, add_comm]
  · dsimp only
    rw [hm]
    exact (Frame.update hpage).trans (Frame.update hpage)
  · dsimp only
    rw [update_self]
    exact strIn_oneArg _

set_option synthInstance.maxSize 256 in
theorem oneArg_loadable : ∃ s0 page k, main smallLayout 1 (reset fun _ _ => 0) = .ok ((), s0) ∧ (s0.proc 0).state = .runnable ∧
    oneArg s0.kmem = .ok (some page, k) ∧ ∀ tf, (s0.proc 0).trapframe = some tf → Loadable smallLayout tf (oneByte 0) k := by
  obtain ⟨s0, hb, hst, _, k, hk, page, rfl, hall⟩ : ∃ s0, main smallLayout 1 (reset fun _ _ => 0) = .ok ((), s0) ∧
      (s0.proc 0).state = .runnable ∧ ∃ r k, oneArg s0.kmem = .ok (r, k) ∧ ∃ page ∈ r, ∀ tf ∈ (s0.proc 0).trapframe,
        ∃ r k1, procPagetable smallLayout tf k = .ok (r, k1) ∧ ∃ root ∈ r,
        ∃ r k2, loadProgram smallLayout (oneByte 0) root (field (readi (oneByte 0) 0 64) 56 2)
          (field (readi (oneByte 0) 0 64) 32 8 % 2 ^ 32) 0 k1 = .ok (r, k2) ∧ r.1 = true ∧
        ∃ sz1 k3, uvmalloc smallLayout root (pgRoundUp r.2) (pgRoundUp r.2 + 2 * PGSIZE) PTE_W k2 = .ok (sz1, k3) ∧
          sz1 ≠ 0 := by decide +kernel
  refine ⟨s0, page, k, hb, hst, hk, fun tf htf => ?_⟩
  obtain ⟨_, k1, h1, root, rfl, ⟨_, sz⟩, k2, h2, rfl, sz1, k3, h3, hsz⟩ := hall tf htf
  exact ⟨by decide +kernel, by decide +kernel, root, k1, sz, k2, sz1, k3, h1, h2, h3, hsz⟩

theorem exec_args_oneArg : ∃ s page r s' root sp, execCall smallLayout 0 [] (oneByte 0) [page] s = .ok (r, s') ∧
    (s'.proc 0).pagetable = some root ∧ ArgLayout (pteAt s'.kmem.mem root) s'.kmem.mem (s'.proc 0).sz sp [[97]] := by
  obtain ⟨s0, page, k, hb, hst, hk, hload⟩ := oneArg_loadable
  have h0 : Inv smallLayout s0 0 0 := inv_boot_run (L := smallLayout) (n := 1) (by decide) hb (Trans.run_nil s0)
  have hst' : (s0.proc 0).state ≠ .unused := by
    rw [hst]
    nofun
  obtain ⟨h, hstr⟩ := wp_ok (wp_oneArg h0) hk page rfl
  obtain ⟨root, tf, ha⟩ := h.space (p := 0) hst'
  obtain ⟨r, s', he, hlayout, hiff⟩ := exec_args smallLayout { s0 with kmem := k } {page} 0 0 [] (oneByte 0) [page] h hst'
    (fun arg harg => by simpa using harg) (show 1 < MAXARG by decide) fun arg harg => by
      rw [mem_singleton.mp harg]
      exact hstr.symm ▸ (by decide)
  have hargs : strings k.mem [page] = [[97]] := by rw [strings, map_cons, map_nil, hstr]
  have hr : r ≠ -1 := fun hr => by
    have hneed := (hiff tf ha.trapframe (hload tf ha.trapframe)).mp hr
    rw [show strings ({ s0 with kmem := k } : State).kmem.mem [page] = [[97]] from hargs] at hneed
    exact absurd hneed (by decide)
  obtain ⟨root', tf', sp, hpt, -, -, -, -, hlay⟩ := hlayout hr
  rw [show strings ({ s0 with kmem := k } : State).kmem.mem [page] = [[97]] from hargs] at hlay
  exact ⟨_, page, r, s', root', sp, he, hpt, hlay⟩

end Call

end Sys
end Xv6
