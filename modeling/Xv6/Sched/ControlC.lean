import Xv6.Sched.Protocol

/-!
# Xv6.Sched.ControlC

Control-C on the console (`consoleintr` in `kernel/console.c`), in any state that the processes can reach, also
in the middle of `fork`.

* `highest_spec`: the loop of the handler finds the process with the highest process id.
* `controlC_safe_iff`: the handler is safe exactly when that process has a parent.
* `controlC_traps`: it has none while `init` is alone, and in `fork` before the parent is set.
-/

namespace Xv6
namespace Sched

open State

section

variable {C L : Type} (s : State C L)

def setkilled (p : Slot) : State C L := s.setProc p { s.proc p with killed := true }

/-- The process that the loop over the table ends with. -/
def highest : Slot :=
  (List.finRange NPROC).foldl
    (fun cur p => if (s.proc p).state ≠ .unused ∧ (s.proc cur).pid < (s.proc p).pid then p else cur) 0

/-- `consoleintr(C('C'))`; there is no result when it reads through a null pointer. -/
def consoleintr : Option (State C L) :=
  match (s.proc (highest s)).parent with
  | none => none
  | some pp => some (if (s.proc pp).pid ≠ 1 then setkilled s (highest s) else s)

/-- The handler changes nothing or kills one process: that with the highest process id, neither `init` nor a
child of `init`. -/
def ControlCSafe : Prop :=
  ∃ s', consoleintr s = some s' ∧ (s' = s ∨ ∃ q, s' = setkilled s q ∧ (s.proc q).state ≠ .unused ∧
    (∀ r, (s.proc r).state ≠ .unused → r ≠ q → (s.proc r).pid < (s.proc q).pid) ∧
    q ≠ s.initproc ∧ (s.proc q).parent ≠ some s.initproc)

variable {s}

theorem highest_spec (h0 : (s.proc 0).state ≠ .unused) : (s.proc (highest s)).state ≠ .unused ∧
    ∀ r, (s.proc r).state ≠ .unused → (s.proc r).pid ≤ (s.proc (highest s)).pid := by
  have hfold : ∀ (l : List Slot) (cur : Slot), (s.proc cur).state ≠ .unused → ∃ m, l.foldl
      (fun cur p => if (s.proc p).state ≠ .unused ∧ (s.proc cur).pid < (s.proc p).pid then p else cur) cur = m ∧
      (s.proc m).state ≠ .unused ∧ (s.proc cur).pid ≤ (s.proc m).pid ∧
      ∀ r ∈ l, (s.proc r).state ≠ .unused → (s.proc r).pid ≤ (s.proc m).pid := by
    intro l
    induction l with
    | nil => exact fun cur hc => ⟨cur, rfl, hc, Nat.le_refl _, nofun⟩
    | cons p l ih =>
      intro cur hc
      rw [List.foldl_cons]
      split
      · rename_i hp
        obtain ⟨m, hm, h1, h2, h3⟩ := ih p hp.1
        refine ⟨m, hm, h1, Nat.le_trans (Nat.le_of_lt hp.2) h2, fun r hr hst => ?_⟩
        rcases List.mem_cons.mp hr with rfl | hr
        · exact h2
        · exact h3 r hr hst
      · rename_i hp
        obtain ⟨m, hm, h1, h2, h3⟩ := ih cur hc
        refine ⟨m, hm, h1, h2, fun r hr hst => ?_⟩
        rcases List.mem_cons.mp hr with rfl | hr
        · exact Nat.le_trans (Nat.le_of_not_lt fun hlt => hp ⟨hst, hlt⟩) h2
        · exact h3 r hr hst
  obtain ⟨m, hm, h1, -, h3⟩ := hfold (List.finRange NPROC) 0 h0
  rw [highest, hm]
  exact ⟨h1, fun r => h3 r (List.mem_finRange r)⟩

end

namespace Family

variable {f f' : Family}

structure First (f : Family) : Prop where
  slot : f.initproc = 0
  pid : (f.member 0).pid = 1
  pos : ∀ p, (f.member p).phase ≠ .unused → 1 ≤ (f.member p).pid
  next : 1 ≤ f.nextpid

theorem First.set {p : Slot} {m : Member} (h : First f) (hp : p = 0 → m.pid = 1)
    (hpos : m.phase ≠ .unused → 1 ≤ m.pid) : First (f.set p m) := by
  refine ⟨h.slot, ?_, fun q hq => ?_, h.next⟩
  · rw [member_set]
    split
    · exact hp (Eq.symm ‹_›)
    · exact h.pid
  · rw [member_set] at hq ⊢
    split at hq
    · rw [if_pos ‹_›]
      exact hpos hq
    · rw [if_neg ‹_›]
      exact h.pos q hq

theorem First.step (h : First f) (ht : Tree f) (hs : Step f f') : First f' := by
  have hlive : ∀ {p}, (f.member p).phase ≠ .live → p ≠ 0 := by
    rintro p hp rfl
    exact hp (h.slot ▸ ht.init)
  -- a step that keeps the process id of `p`, which is in use
  have hkeep : ∀ {p : Slot} {m : Member}, (f.member p).phase ≠ .unused → m.pid = (f.member p).pid →
      First (f.set p m) := fun {p m} hp he =>
    h.set (fun h0 => by rw [he, h0, h.pid]) fun _ => he ▸ h.pos p hp
  have hclear : ∀ {p}, (f.member p).phase ≠ .live → First (f.set p cleared) := fun hp =>
    h.set (fun h0 => absurd h0 (hlive hp)) fun hc => absurd rfl hc
  cases hs with
  | alloc np hn =>
    have hset := h.set (p := np) (m := { f.member np with phase := .used, pid := f.nextpid })
      (fun h0 => absurd h0 (hlive (by rw [hn]; decide))) fun _ => h.next
    exact ⟨hset.slot, hset.pid, hset.pos, Nat.le_succ_of_le h.next⟩
  | free np hn => exact hclear (by rw [hn]; decide)
  | adopt np p hn _ => exact hkeep (by rw [hn]; decide) rfl
  | ready np hn _ => exact hkeep (by rw [hn]; decide) rfl
  | reparent j =>
    exact h.set (fun h0 => by rw [h0]; exact h.pid) fun hj => h.pos j hj
  | exit p status hl _ _ =>
    have hset := hkeep (p := p) (m := { f.member p with phase := .zombie, xstate := status }) (by rw [hl]; decide) rfl
    exact ⟨hset.slot, hset.pid, hset.pos, hset.next⟩
  | wait p pp store hz _ =>
    have hset := hclear (p := pp) (by rw [hz]; decide)
    unfold Family.wait
    split
    · exact ⟨h.slot, h.pid, h.pos, h.next⟩
    · exact ⟨hset.slot, hset.pid, hset.pos, hset.next⟩

end Family

section Runs

variable {C L : Type} [DecidableEq C] [DecidableEq L] {s : State C L} {evs : List (Cpu × Op C L)}

omit [DecidableEq C] [DecidableEq L] in
theorem first_boot : (view (boot C L)).First := by
  refine ⟨rfl, rfl, fun p hp => ?_, Nat.le_succ 1⟩
  by_cases h0 : p = 0
  · rw [h0]
    exact Nat.le_refl 1
  · simp [view, boot, member, h0, phase] at hp

/-- In every state that can be reached, control-C is safe exactly when the process with the highest process id
has a parent. -/
theorem controlC_safe_iff (hr : Trans.run step (boot C L) evs = some s) :
    ControlCSafe s ↔ (s.proc (highest s)).parent ≠ none := by
  obtain ⟨-, htree, hpids, hfirst⟩ := family_run first_boot (fun _ _ ht hf hs => hf.step ht hs) hr
  have hused : ∀ q, (s.proc q).state ≠ .unused ↔ ((view s).member q).phase ≠ .unused := fun q =>
    (not_congr (phase_eq_unused q)).symm
  have hslot : s.initproc = 0 := hfirst.slot
  have hinit : (s.proc 0).pid = 1 := hfirst.pid
  have h0 : (s.proc 0).state ≠ .unused := (phase_eq_live 0 (hslot ▸ htree.init)).1
  obtain ⟨hst, hmax⟩ := highest_spec h0
  constructor
  · rintro ⟨s', hs, -⟩ hn
    simp [consoleintr, hn] at hs
  · intro hn
    obtain ⟨pp, hpp⟩ := Option.ne_none_iff_exists'.mp hn
    refine ⟨_, by rw [consoleintr, hpp], ?_⟩
    split
    · rename_i hpid
      have hlive := (phase_eq_live pp (htree.live (highest s) pp hpp)).1
      refine .inr ⟨highest s, rfl, hst, fun r hr hne => ?_, fun he => hpid ?_, fun he => hpid ?_⟩
      · exact Nat.lt_of_le_of_ne (hmax r hr) fun he => hne (hpids.inj r _ ((hused r).mp hr) ((hused _).mp hst) he)
      · -- when `init` is the highest process, its parent has process id 1
        have hle := hmax pp hlive
        have hpos : 1 ≤ (s.proc pp).pid := hfirst.pos pp ((hused pp).mp hlive)
        rw [he, hslot, hinit] at hle
        omega
      · rw [hpp, hslot] at he
        rw [Option.some.inj he, hinit]
    · exact .inl rfl

end Runs

/-- The first process has made a child that has no parent yet. -/
def forkHalf : List (Cpu × Op Unit Unit) :=
  List.replicate 3 (0, .tau true) ++ [(0, .call .fork)] ++ List.replicate 4 (0, .tau true)

theorem controlC_safe_child : ∃ s, Trans.run step (boot Unit Unit) (forkHalf ++ [(0, .tau true)]) = some s ∧
    ControlCSafe s := by
  obtain ⟨s, hr, hs⟩ : ∃ s ∈ Trans.run step (boot Unit Unit) (forkHalf ++ [(0, .tau true)]),
      (s.proc (highest s)).parent ≠ none := by decide +kernel
  exact ⟨s, hr, (controlC_safe_iff hr).mpr hs⟩

/-- After boot, and in the middle of the first `fork`, the handler reads through a null pointer. -/
theorem controlC_traps : ¬ ControlCSafe (boot Unit Unit) ∧
    ∃ s, Trans.run step (boot Unit Unit) forkHalf = some s ∧ ¬ ControlCSafe s := by
  have hnot : ∀ s : State Unit Unit, (consoleintr s).isNone = true → ¬ ControlCSafe s := by
    rintro s hn ⟨s', hs, -⟩
    rw [hs] at hn
    cases hn
  obtain ⟨s, hr, hs⟩ : ∃ s ∈ Trans.run step (boot Unit Unit) forkHalf, (consoleintr s).isNone = true := by decide +kernel
  exact ⟨hnot _ (by decide +kernel), s, hr, hnot s hs⟩

end Sched
end Xv6
