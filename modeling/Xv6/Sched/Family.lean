import Xv6.Sched.Model
import Mathlib.Data.List.Nodup

/-!
# Xv6.Sched.Family

What `fork`, `exit` and `wait` are for: a table of processes, each with a process id, a parent and, when
it has exited, a status. `Family.Step` says what may happen to it; locks and scheduling are not there.

* `Family.Tree`: parents are live. `Family.Pids`: process ids are distinct, and a process that has exited
  is returned by one `wait` at most, with its own status.
* `Family.Tree.step`, `Family.Pids.step`: every step keeps this.
-/

namespace Xv6
namespace Sched

open Function List

inductive Phase
  | unused | used | live | zombie
  deriving DecidableEq, Repr

def phase : ProcState → Phase
  | .unused => .unused
  | .used => .used
  | .sleeping | .runnable | .running => .live
  | .zombie => .zombie

structure Member where
  phase : Phase
  pid : Nat
  parent : Option Slot
  xstate : Int

structure Family where
  member : Slot → Member
  nextpid : Nat
  initproc : Slot
  exits : List (Nat × Int)
  waits : List Wait

namespace Family

variable {f f' : Family} {p np : Slot}

def set (f : Family) (p : Slot) (m : Member) : Family := { f with member := update f.member p m }

@[simp] theorem set_self (f : Family) (p : Slot) (m : Member) : (f.set p m).member p = m := update_self ..

@[simp] theorem set_of_ne {q : Slot} (h : q ≠ p) (m : Member) : (f.set p m).member q = f.member q :=
  update_of_ne h _ _

def cleared : Member := ⟨.unused, 0, none, 0⟩

/-- A call of `wait` by `p` finds the zombie `pp`, and stores its status (`some true`), fails to
(`some false`) or does not have to. -/
def wait (f : Family) (p pp : Slot) (store : Option Bool) : Family :=
  { (if store = some false then f else f.set pp cleared) with
    waits := ⟨p, pp, (f.member pp).pid, if store = some true then some (f.member pp).xstate else none,
      decide (store ≠ some false)⟩ :: f.waits }

inductive Step (f : Family) : Family → Prop
  | alloc (np : Slot) (h : (f.member np).phase = .unused) :
    Step f { f.set np { f.member np with phase := .used, pid := f.nextpid } with nextpid := f.nextpid + 1 }
  | free (np : Slot) (h : (f.member np).phase = .used) : Step f (f.set np cleared)
  | adopt (np p : Slot) (h : (f.member np).phase = .used) (hp : (f.member p).phase = .live) :
    Step f (f.set np { f.member np with parent := some p })
  | ready (np : Slot) (h : (f.member np).phase = .used) (hp : (f.member np).parent ≠ none) :
    Step f (f.set np { f.member np with phase := .live })
  | reparent (j : Slot) : Step f (f.set j { f.member j with parent := some f.initproc })
  | exit (p : Slot) (status : Int) (h : (f.member p).phase = .live) (hp : p ≠ f.initproc)
    (hc : ∀ j, (f.member j).parent ≠ some p) :
    Step f { f.set p { f.member p with phase := .zombie, xstate := status } with
      exits := ((f.member p).pid, status) :: f.exits }
  | wait (p pp : Slot) (store : Option Bool) (h : (f.member pp).phase = .zombie) (hp : (f.member pp).parent = some p) :
    Step f (f.wait p pp store)

/-- Parents are live processes, and every process past `fork`, apart from the first one, has one. -/
structure Tree (f : Family) : Prop where
  live : ∀ p q, (f.member p).parent = some q → (f.member q).phase = .live
  past : ∀ p, p ≠ f.initproc → (f.member p).phase = .live ∨ (f.member p).phase = .zombie → (f.member p).parent ≠ none
  init : (f.member f.initproc).phase = .live

/-- Process ids are given once; a process that has exited is in `exits` once, and one that has been
reaped is not in the table any more. -/
structure Pids (f : Family) : Prop where
  lt : ∀ p, (f.member p).phase ≠ .unused → (f.member p).pid < f.nextpid
  inj : ∀ p q, (f.member p).phase ≠ .unused → (f.member q).phase ≠ .unused →
    (f.member p).pid = (f.member q).pid → p = q
  exits_nodup : (f.exits.map Prod.fst).Nodup
  exit_lt : ∀ e ∈ f.exits, e.1 < f.nextpid
  zombie : ∀ p, (f.member p).phase = .zombie → ((f.member p).pid, (f.member p).xstate) ∈ f.exits
  not_exited : ∀ p, (f.member p).phase ≠ .unused → (f.member p).phase ≠ .zombie →
    ∀ e ∈ f.exits, e.1 ≠ (f.member p).pid
  stored : ∀ w ∈ f.waits, ∃ status, (w.pid, status) ∈ f.exits ∧ ∀ x, w.stored = some x → x = status
  gone : ∀ w ∈ f.waits, w.reaped = true → ∀ p, (f.member p).phase ≠ .unused → (f.member p).pid ≠ w.pid
  reaped_nodup : ((f.waits.filter (·.reaped)).map (·.pid)).Nodup

theorem member_set (q : Slot) (m : Member) : (f.set p m).member q = if q = p then m else f.member q :=
  update_apply ..

/-! ## Parents -/

theorem Tree.set {m : Member} (h : Tree f) (hpar : ∀ q, m.parent = some q → (q ≠ p ∨ m.phase = .live) ∧ (f.member q).phase = .live)
    (hlive : (f.member p).phase ≠ .live ∨ m.phase = .live ∨ p ≠ f.initproc ∧ ∀ j, (f.member j).parent ≠ some p)
    (hpast : m.phase = .live ∨ m.phase = .zombie → p = f.initproc ∨ m.parent ≠ none) : Tree (f.set p m) := by
  have hmem : ∀ q, q ≠ p ∨ m.phase = .live → (f.member q).phase = .live → ((f.set p m).member q).phase = .live := by
    intro q hq hl
    rw [member_set]
    split
    · exact hq.resolve_left (not_not.mpr ‹_›)
    · exact hl
  refine ⟨fun r q hr => ?_, fun r hr hph => ?_, ?_⟩
  · rw [member_set] at hr
    split at hr
    · exact hmem q (hpar q hr).1 (hpar q hr).2
    · refine hmem q ?_ (h.live r q hr)
      rcases hlive with hl | hl | ⟨-, hl⟩
      · exact .inl fun e => hl (e ▸ h.live r q hr)
      · exact .inr hl
      · exact .inl fun e => hl r (e ▸ hr)
  · rw [member_set] at hph ⊢
    split at hph
    · subst_vars
      rw [if_pos rfl]
      exact (hpast hph).resolve_left hr
    · rw [if_neg ‹_›]
      exact h.past r hr hph
  · refine hmem _ ?_ h.init
    rcases hlive with hl | hl | ⟨hl, -⟩
    · exact .inl fun e => hl (e ▸ h.init)
    · exact .inr hl
    · exact .inl (Ne.symm hl)

theorem Tree.clear (h : Tree f) (hp : (f.member p).phase ≠ .live) : Tree (f.set p cleared) :=
  h.set (fun q hq => nomatch hq) (.inl hp) fun hph => by rcases hph with hph | hph <;> cases hph

theorem Tree.step (h : Tree f) (hs : Step f f') : Tree f' := by
  cases hs with
  | alloc np hn =>
    have ht : Tree (f.set np { f.member np with phase := .used, pid := f.nextpid }) := by
      refine h.set (fun q hq => ⟨.inl ?_, h.live np q hq⟩) (.inl (by simp [hn])) fun hph => ?_
      · rintro rfl
        rw [h.live q q hq] at hn
        cases hn
      · rcases hph with hph | hph <;> cases hph
    exact ⟨ht.live, ht.past, ht.init⟩
  | free np hn => exact h.clear (by simp [hn])
  | adopt np p hn hp =>
    refine h.set (fun q hq => ?_) (.inl (by simp [hn])) fun _ => .inr nofun
    cases hq
    refine ⟨.inl fun e => ?_, hp⟩
    rw [e, hn] at hp
    cases hp
  | ready np hn hp => exact h.set (fun q hq => ⟨.inr rfl, h.live np q hq⟩) (.inr (.inl rfl)) fun _ => .inr hp
  | reparent j =>
    refine h.set (fun q hq => ?_) ?_ fun _ => .inr nofun
    · cases hq
      refine ⟨?_, h.init⟩
      by_cases hj : f.initproc = j
      · exact .inr (hj ▸ h.init)
      · exact .inl hj
    · by_cases hj : (f.member j).phase = .live
      · exact .inr (.inl hj)
      · exact .inl hj
  | exit p status hl hp hc =>
    have ht : Tree (f.set p { f.member p with phase := .zombie, xstate := status }) := by
      refine h.set (fun q hq => ⟨.inl fun e => hc p (e ▸ hq), h.live p q hq⟩) (.inr (.inr ⟨hp, hc⟩)) fun _ => .inr ?_
      exact h.past p hp (.inl hl)
    exact ⟨ht.live, ht.past, ht.init⟩
  | wait p pp store hz hp =>
    unfold wait
    have ht : Tree (if store = some false then f else f.set pp cleared) := by
      split
      · exact h
      · exact h.clear (by simp [hz])
    exact ⟨ht.live, ht.past, ht.init⟩

/-! ## Process ids -/

section

variable (h : Pids f)
include h

theorem Pids.congr (hu : ∀ q, (f'.member q).phase = .unused ↔ (f.member q).phase = .unused)
    (hz : ∀ q, (f'.member q).phase = .zombie ↔ (f.member q).phase = .zombie)
    (hpid : ∀ q, (f'.member q).pid = (f.member q).pid) (hx : ∀ q, (f'.member q).xstate = (f.member q).xstate)
    (hn : f'.nextpid = f.nextpid) (he : f'.exits = f.exits) (hw : f'.waits = f.waits) : Pids f' where
  lt p hp := by
    rw [hpid, hn]
    exact h.lt p (mt (hu p).mpr hp)
  inj p q hp hq hpq := by
    rw [hpid, hpid] at hpq
    exact h.inj p q (mt (hu p).mpr hp) (mt (hu q).mpr hq) hpq
  exits_nodup := he ▸ h.exits_nodup
  exit_lt := by
    rw [he, hn]
    exact h.exit_lt
  zombie p hp := by
    rw [hpid, hx, he]
    exact h.zombie p ((hz p).mp hp)
  not_exited p hp hp' := by
    rw [hpid, he]
    exact h.not_exited p (mt (hu p).mpr hp) (mt (hz p).mpr hp')
  stored := by
    rw [hw, he]
    exact h.stored
  gone w hmem hr p hp := by
    rw [hpid]
    exact h.gone w (hw ▸ hmem) hr p (mt (hu p).mpr hp)
  reaped_nodup := hw ▸ h.reaped_nodup

theorem Pids.set {m : Member} (hu : m.phase = .unused ↔ (f.member p).phase = .unused)
    (hz : m.phase = .zombie ↔ (f.member p).phase = .zombie) (hpid : m.pid = (f.member p).pid)
    (hx : m.xstate = (f.member p).xstate) : Pids (f.set p m) := by
  refine h.congr (fun q => ?_) (fun q => ?_) (fun q => ?_) (fun q => ?_) rfl rfl rfl <;> rw [member_set] <;> split
  all_goals first | subst_vars; assumption | rfl

theorem Pids.alloc :
    Pids { f.set np { f.member np with phase := .used, pid := f.nextpid } with nextpid := f.nextpid + 1 } := by
  have hwait : ∀ w ∈ f.waits, w.pid < f.nextpid := by
    intro w hw
    obtain ⟨status, he, -⟩ := h.stored w hw
    exact h.exit_lt _ he
  refine ⟨fun p hp => ?_, fun p q hp hq hpq => ?_, h.exits_nodup, fun e he => Nat.lt_succ_of_lt (h.exit_lt e he),
    fun p hp => ?_, fun p hp hz e he => ?_, h.stored, fun w hw hr p hp => ?_, h.reaped_nodup⟩
  · by_cases hn : p = np
    · simp [hn]
    · simp only [set_of_ne hn] at hp ⊢
      exact Nat.lt_succ_of_lt (h.lt p hp)
  · by_cases hpn : p = np <;> by_cases hqn : q = np
    · rw [hpn, hqn]
    · subst hpn
      simp only [set_self, set_of_ne hqn] at hq hpq
      exact absurd (h.lt q hq) (by omega)
    · subst hqn
      simp only [set_self, set_of_ne hpn] at hp hpq
      exact absurd (h.lt p hp) (by omega)
    · simp only [set_of_ne hpn, set_of_ne hqn] at hp hq hpq
      exact h.inj p q hp hq hpq
  · by_cases hn : p = np
    · simp [hn] at hp
    · simp only [set_of_ne hn] at hp ⊢
      exact h.zombie p hp
  · have hlt := h.exit_lt e he
    by_cases hn : p = np
    · simp only [hn, set_self]
      omega
    · simp only [set_of_ne hn] at hp hz ⊢
      exact h.not_exited p hp hz e he
  · have hlt := hwait w hw
    by_cases hn : p = np
    · simp only [hn, set_self]
      omega
    · simp only [set_of_ne hn] at hp ⊢
      exact h.gone w hw hr p hp

theorem Pids.clear : Pids (f.set p cleared) := by
  have hne : ∀ q, ((f.set p cleared).member q).phase ≠ .unused → q ≠ p := by
    rintro q hq rfl
    simp [cleared] at hq
  refine ⟨fun q hq => ?_, fun q r hq hr hqr => ?_, h.exits_nodup, h.exit_lt, fun q hq => ?_, fun q hq hz e he => ?_,
    h.stored, fun w hw hr q hq => ?_, h.reaped_nodup⟩
  · have hqp := hne q hq
    simp only [set_of_ne hqp] at hq ⊢
    exact h.lt q hq
  · have hqp := hne q hq
    have hrp := hne r hr
    simp only [set_of_ne hqp, set_of_ne hrp] at hq hr hqr
    exact h.inj q r hq hr hqr
  · have hqp := hne q (by simp [hq])
    simp only [set_of_ne hqp] at hq ⊢
    exact h.zombie q hq
  · have hqp := hne q hq
    simp only [set_of_ne hqp] at hq hz ⊢
    exact h.not_exited q hq hz e he
  · have hqp := hne q hq
    simp only [set_of_ne hqp] at hq ⊢
    exact h.gone w hw hr q hq

theorem Pids.exit {status : Int} (hl : (f.member p).phase = .live) :
    Pids { f.set p { f.member p with phase := .zombie, xstate := status } with
      exits := ((f.member p).pid, status) :: f.exits } := by
  have hpu : (f.member p).phase ≠ .unused := by simp [hl]
  have hpz : (f.member p).phase ≠ .zombie := by simp [hl]
  have hpid : ∀ q, ((f.set p { f.member p with phase := .zombie, xstate := status }).member q).pid = (f.member q).pid := by
    intro q
    rw [member_set]
    split
    · subst_vars
      rfl
    · rfl
  have hocc : ∀ q, ((f.set p { f.member p with phase := .zombie, xstate := status }).member q).phase ≠ .unused →
      (f.member q).phase ≠ .unused := by
    intro q hq
    by_cases hqp : q = p
    · rwa [hqp]
    · rwa [set_of_ne hqp] at hq
  refine ⟨fun q hq => ?_, fun q r hq hr hqr => ?_, ?_, fun e he => ?_, fun q hq => ?_, fun q hq hz e he => ?_,
    fun w hw => ?_, fun w hw hr q hq => ?_, h.reaped_nodup⟩
  · simp only [hpid]
    exact h.lt q (hocc q hq)
  · simp only [hpid] at hqr
    exact h.inj q r (hocc q hq) (hocc r hr) hqr
  · refine nodup_cons.mpr ⟨fun hmem => ?_, h.exits_nodup⟩
    obtain ⟨e, he, hep⟩ := mem_map.mp hmem
    exact h.not_exited p hpu hpz e he hep
  · rcases mem_cons.mp he with rfl | he
    · exact h.lt p hpu
    · exact h.exit_lt e he
  · by_cases hqp : q = p
    · simp [hqp]
    · simp only [set_of_ne hqp] at hq ⊢
      exact mem_cons_of_mem _ (h.zombie q hq)
  · have hqp : q ≠ p := by
      rintro rfl
      simp at hz
    simp only [set_of_ne hqp] at hq hz ⊢
    rcases mem_cons.mp he with rfl | he
    · exact fun hpq => hqp (h.inj p q hpu hq hpq).symm
    · exact h.not_exited q hq hz e he
  · obtain ⟨st, hst, hx⟩ := h.stored w hw
    exact ⟨st, mem_cons_of_mem _ hst, hx⟩
  · simp only [hpid]
    exact h.gone w hw hr q (hocc q hq)

theorem Pids.record {w : Wait} (hst : ∃ status, (w.pid, status) ∈ f.exits ∧ ∀ x, w.stored = some x → x = status)
    (hgone : w.reaped = true → (∀ p, (f.member p).phase ≠ .unused → (f.member p).pid ≠ w.pid) ∧
      ∀ w' ∈ f.waits, w'.reaped = true → w'.pid ≠ w.pid) : Pids { f with waits := w :: f.waits } where
  lt := h.lt
  inj := h.inj
  exits_nodup := h.exits_nodup
  exit_lt := h.exit_lt
  zombie := h.zombie
  not_exited := h.not_exited
  stored w' hw := by
    rcases mem_cons.mp hw with rfl | hw
    · exact hst
    · exact h.stored w' hw
  gone w' hw hr := by
    rcases mem_cons.mp hw with rfl | hw
    · exact (hgone hr).1
    · exact h.gone w' hw hr
  reaped_nodup := by
    cases hr : w.reaped with
    | false => simpa [hr] using h.reaped_nodup
    | true =>
      rw [filter_cons_of_pos (by simp [hr]), map_cons]
      refine nodup_cons.mpr ⟨fun hmem => ?_, h.reaped_nodup⟩
      obtain ⟨w', hw', hp⟩ := mem_map.mp hmem
      obtain ⟨hw', hr'⟩ := mem_filter.mp hw'
      exact (hgone hr).2 w' hw' hr' hp

theorem Pids.wait {pp : Slot} {store : Option Bool} (hz : (f.member pp).phase = .zombie) :
    Pids (f.wait p pp store) := by
  have hocc : (f.member pp).phase ≠ .unused := by simp [hz]
  unfold Family.wait
  split
  · subst_vars
    exact h.record ⟨_, h.zombie pp hz, by simp⟩ (by simp)
  · refine h.clear.record ⟨_, h.zombie pp hz, fun x hx => ?_⟩ fun _ => ⟨fun q hq => ?_, fun w hw hr => ?_⟩
    · simp only at hx
      split at hx <;> cases hx
      rfl
    · have hqp : q ≠ pp := by
        rintro rfl
        simp [cleared] at hq
      simp only [set_of_ne hqp] at hq ⊢
      exact fun hpq => hqp (h.inj q pp hq hocc hpq)
    · exact (h.gone w hw hr pp hocc).symm

theorem Pids.step (hs : Step f f') : Pids f' := by
  cases hs with
  | alloc np hn => exact h.alloc
  | free np hn => exact h.clear
  | adopt np p hn hp => exact h.set Iff.rfl Iff.rfl rfl rfl
  | ready np hn hp => exact h.set (by simp [hn]) (by simp [hn]) rfl rfl
  | reparent j => exact h.set Iff.rfl Iff.rfl rfl rfl
  | exit p status hl hp hc => exact h.exit hl
  | wait p pp store hz hp => exact h.wait hz

end

end Family

end Sched
end Xv6
