import Xv6.Itable.Model
import Xv6.Lib.Tokens

/-!
# Xv6.Itable.Table

The inode table under any use of its functions: a process may drop or pass on a reference while it has
the inode locked. The counts and labels do not depend on the locks:

* `Change`: what one step does to the table and to who holds references.
* `Counted`: an inode has at most one entry in use, and counts are exact.
* `table_exact`: `Counted` holds in every run, no step gives another label to an entry in use, and
  `iput` decides to free an inode only when its caller has the only reference.
-/

namespace Xv6
namespace Itable

open State Function

variable {s s' : State} {p : Pid} {c : Pc} {e : Entry}

theorem igetEntry_cases {dev inum : Nat} {x : Inode} (h : igetEntry s dev inum = some (e, x)) :
    (0 < (s.inode e).ref ∧ (s.inode e).dev = dev ∧ (s.inode e).inum = inum ∧
      x = { s.inode e with ref := (s.inode e).ref + 1 }) ∨
    ((s.inode e).ref = 0 ∧
      (∀ e', 0 < (s.inode e').ref → ¬ ((s.inode e').dev = dev ∧ (s.inode e').inum = inum)) ∧
      x = { s.inode e with dev := dev, inum := inum, ref := 1, valid := false }) := by
  unfold igetEntry at h
  split at h
  · rename_i e' he
    cases h
    have := List.find?_some he
    simp only [decide_eq_true_eq] at this
    exact .inl ⟨this.1, this.2.1, this.2.2, rfl⟩
  · rename_i hnone
    split at h
    · rename_i e' he
      cases h
      refine .inr ⟨by simpa using List.find?_some he, fun e' hpos hk => ?_, rfl⟩
      have := List.find?_eq_none.mp hnone e' (List.mem_finRange e')
      simp only [decide_eq_true_eq] at this
      exact this ⟨hpos, hk.1, hk.2⟩
    · cases h

def Pc.entry : Pc → Option Entry
  | .fresh e | .ilock e _ | .init e | .freeing e | .freed e | .dropping e => some e
  | _ => none

/-- An operation that a process starts, with no regard to what it has locked. `iunlock` panics when
the entry is not in use. -/
def callAny (s : State) (p : Pid) : Op → Option State
  | .iunlock e =>
    if (s.inode e).lock = some p ∧ 0 < (s.inode e).ref then some (iunlock s e) else none
  | .iput e => if (p, e) ∈ s.held then iput s p e else none
  | .give q e => if (p, e) ∈ s.held then some ((s.unhold p e).hold q e) else none
  | op => call s p op

def stepAny (s : State) (ev : Pid × Op) : Option State :=
  match s.pc ev.1, ev.2 with
  | .idle, op => callAny s ev.1 op
  | pc, .tau => resume s ev.1 pc
  | _, _ => none

def PcLock (s : State) (p : Pid) : Pc → Prop
  | .ilock e _ | .init e | .freeing e | .freed e => (s.inode e).lock = some p
  | .dropping e => (s.inode e).lock ≠ some p
  | _ => True

def Has (s : State) (p : Pid) (e : Entry) : Prop := (s.pc p).entry = some e ∨ (p, e) ∈ s.held

def LockMove (s : State) (p : Pid) (e : Entry) (x : Inode) : Prop :=
  x.lock = (s.inode e).lock ∨ ((s.inode e).lock = none ∧ x.lock = some p ∧ Has s p e) ∨
    ((s.inode e).lock = some p ∧ x.lock = none)

/-- What a step of `p`, which takes it to `c`, does to the table. -/
inductive Change (s s' : State) (p : Pid) (op : Op) (c : Pc) : Prop where
  | still (hheld : s'.held = s.held)
      (hinode : ∀ e, (s'.inode e).dev = (s.inode e).dev ∧ (s'.inode e).inum = (s.inode e).inum ∧
        (s'.inode e).ref = (s.inode e).ref)
      (hc : ∀ e, c.entry = some e → Has s p e) (hfree : ∀ e, c = .freeing e → (p, e) ∈ s.held ∧ (s.inode e).ref = 1)
      (hlock : PcLock s p (s.pc p) → (∀ e, LockMove s p e (s'.inode e)) ∧ PcLock s' p c)
  | iget (dev inum : Nat) (e : Entry) (x : Inode) (he : igetEntry s dev inum = some (e, x))
      (hheld : s'.held = (p, e) :: s.held) (hinode : s'.inode = Function.update s.inode e x)
      (hc : c = .idle ∨ c = .fresh e)
  | idup (e : Entry) (hm : (p, e) ∈ s.held) (hs : s' = Itable.idup s p e) (hc : c = .idle)
  | drop (e : Entry) (hd : s.pc p = .dropping e ∨ op = .iput e ∧ (p, e) ∈ s.held ∧ s.pc p = .idle ∧
        ¬ ((s.inode e).ref = 1 ∧ (s.inode e).valid = true ∧ (s.inode e).copy.nlink = 0))
      (hs : s' = Itable.drop s p e) (hc : c = .idle)
  | give (q : Pid) (e : Entry) (hop : op = .give q e) (hidle : s.pc p = .idle) (hm : (p, e) ∈ s.held)
      (hs : s' = (s.unhold p e).hold q e) (hc : c = .idle)

section

variable {op : Op}

theorem Change.of_update {x : Inode} (hheld : s'.held = s.held) (hinode : s'.inode = Function.update s.inode e x)
    (hx : x.dev = (s.inode e).dev ∧ x.inum = (s.inode e).inum ∧ x.ref = (s.inode e).ref)
    (hc : ∀ e, c.entry = some e → Has s p e) (hfree : ∀ e, c = .freeing e → (p, e) ∈ s.held ∧ (s.inode e).ref = 1)
    (hlock : PcLock s p (s.pc p) → LockMove s p e x ∧ PcLock s' p c) : Change s s' p op c := by
  refine .still hheld (fun e' => ?_) hc hfree fun h => ⟨fun e' => ?_, (hlock h).2⟩
  all_goals
    rw [hinode, update_apply]
    split
  · rename_i he
    rw [he]
    exact hx
  · exact ⟨rfl, rfl, rfl⟩
  · rename_i he
    rw [he]
    exact (hlock h).1
  · exact .inl rfl

theorem Change.of_pc (hheld : s'.held = s.held) (hinode : s'.inode = s.inode) (hc : c.entry = none) :
    Change s s' p op c := by
  refine .still hheld (by simp [hinode]) (by simp [hc]) ?_ fun _ => ⟨fun e => .inl (by rw [hinode]), ?_⟩
  · rintro e rfl
    cases hc
  · cases c <;> trivial

theorem change_iget {dev inum : Nat} {k : Entry → Pc}
    (hk : ∀ e, k e = .idle ∨ k e = .fresh e) (h : iget s p dev inum k = some s') :
    ∃ c, s'.pc = Function.update s.pc p c ∧ Change s s' p op c := by
  unfold iget at h
  split at h
  · rename_i e x he
    cases h
    exact ⟨k e, rfl, .iget dev inum e x he rfl rfl (hk e)⟩
  · cases h

theorem change_ilock {create : Bool} (hm : Has s p e) (h : ilock s p e create = some s') :
    ∃ c, s'.pc = Function.update s.pc p c ∧ Change s s' p op c := by
  unfold ilock at h
  split at h
  · rename_i hl
    split at h <;> cases h
    · refine ⟨_, rfl, .of_update rfl rfl ⟨rfl, rfl, rfl⟩ ?_ ?_ fun _ => ⟨.inr (.inl ⟨hl, rfl, hm⟩), ?_⟩⟩
      · intro e' he
        cases create <;> cases he
        exact hm
      · intro e' he
        cases create <;> cases he
      · cases create <;> simp [PcLock, setPc, setInode]
    · refine ⟨_, rfl, .of_update rfl rfl ⟨rfl, rfl, rfl⟩ ?_ (by simp) fun _ => ⟨.inr (.inl ⟨hl, rfl, hm⟩), ?_⟩⟩
      · rintro e' ⟨⟩
        exact hm
      · simp [PcLock, setPc, setInode]
  · cases h

theorem change_call (hidle : s.pc p = .idle)
    (h : callAny s p op = some s') : ∃ c, s'.pc = Function.update s.pc p c ∧ Change s s' p op c := by
  have hself : s.pc = Function.update s.pc p .idle := by rw [← hidle, update_eq_self]
  cases op with
  | ialloc dev type =>
    cases h
    exact ⟨_, rfl, .of_pc rfl rfl rfl⟩
  | iget dev inum => exact change_iget (fun _ => .inl rfl) h
  | idup e =>
    simp only [callAny, call] at h
    split at h <;> cases h
    exact ⟨.idle, hself, .idup e ‹_› rfl rfl⟩
  | ilock e =>
    simp only [callAny, call] at h
    split at h
    · exact change_ilock (.inr ‹_›) h
    · cases h
  | iunlock e =>
    simp only [callAny] at h
    split at h <;> cases h
    rename_i hl
    exact ⟨.idle, hself, .of_update rfl rfl ⟨rfl, rfl, rfl⟩ (by simp [Pc.entry]) (by simp)
      fun _ => ⟨.inr (.inr ⟨hl.1, rfl⟩), trivial⟩⟩
  | setNlink e n =>
    simp only [callAny, call] at h
    split at h <;> cases h
    exact ⟨.idle, hself, .of_update rfl rfl ⟨rfl, rfl, rfl⟩ (by simp [Pc.entry]) (by simp)
      fun _ => ⟨.inl rfl, trivial⟩⟩
  | iput e =>
    simp only [callAny] at h
    split at h
    · rename_i hm
      unfold iput at h
      split at h
      · rename_i hfree
        split at h <;> cases h
        rename_i hl
        refine ⟨_, rfl, .of_update rfl rfl ⟨rfl, rfl, rfl⟩ ?_ ?_ fun _ => ⟨.inr (.inl ⟨hl, rfl, .inr hm⟩), ?_⟩⟩
        · rintro e' ⟨⟩
          exact .inr hm
        · rintro e' ⟨⟩
          exact ⟨hm, hfree.1⟩
        · simp [PcLock, setPc, setInode]
      · cases h
        exact ⟨_, rfl, .drop e (.inr ⟨rfl, hm, hidle, ‹_›⟩) rfl rfl⟩
    · cases h
  | give q e =>
    simp only [callAny] at h
    split at h <;> cases h
    exact ⟨.idle, hself, .give q e rfl hidle ‹_› rfl rfl⟩
  | tau => cases h

theorem change_resume {k : Pc} (hk : s.pc p = k) (h : resume s p k = some s') :
    ∃ c, s'.pc = Function.update s.pc p c ∧ Change s s' p op c := by
  have hhas : ∀ {e}, k.entry = some e → Has s p e := fun he => .inl (by rw [hk, he])
  cases k with
  | idle => cases h
  | ialloc dev type inum =>
    cases h
    unfold iallocTurn
    split
    · split <;> exact ⟨_, rfl, .of_pc rfl rfl rfl⟩
    · exact ⟨_, rfl, .of_pc rfl rfl rfl⟩
  | iget dev inum => exact change_iget (fun _ => .inr rfl) h
  | fresh e => exact change_ilock (hhas rfl) h
  | ilock e create =>
    simp only [resume, ilockRead] at h
    split at h <;> cases h
    refine ⟨_, rfl, .of_update rfl rfl ⟨rfl, rfl, rfl⟩ ?_ ?_ fun hl => ⟨.inl rfl, ?_⟩⟩
    · intro e' he
      cases create <;> cases he
      exact hhas rfl
    · intro e' he
      cases create <;> cases he
    · rw [hk] at hl
      cases create <;> simp [PcLock, setPc, setInode]
      exact hl
  | init e =>
    cases h
    exact ⟨_, rfl, .of_update rfl rfl ⟨rfl, rfl, rfl⟩ (by simp [Pc.entry]) (by simp)
      fun _ => ⟨.inl rfl, trivial⟩⟩
  | freeing e =>
    cases h
    refine ⟨_, rfl, .of_update rfl rfl ⟨rfl, rfl, rfl⟩ (fun _ => hhas) (by simp) fun hl => ⟨.inl rfl, ?_⟩⟩
    rw [hk] at hl
    simpa [PcLock, setPc, setInode, update, setDinode] using hl
  | freed e =>
    cases h
    refine ⟨_, rfl, .of_update rfl rfl ⟨rfl, rfl, rfl⟩ (fun _ => hhas) (by simp)
      fun hl => ⟨.inr (.inr ⟨?_, rfl⟩), ?_⟩⟩
    · rwa [hk] at hl
    · simp [PcLock, setPc, setInode]
  | dropping e =>
    cases h
    exact ⟨_, rfl, .drop e (.inl hk) rfl rfl⟩

theorem stepAny_cases (h : stepAny s (p, op) = some s') :
    ∃ c, s'.pc = Function.update s.pc p c ∧ Change s s' p op c := by
  unfold stepAny at h
  split at h
  · exact change_call ‹_› h
  · exact change_resume rfl h
  · cases h

end

/-- One entry for each inode, exact counts, and a reference for who works on an entry. -/
structure Counted (s : State) : Prop where
  uniq : ∀ e e', 0 < (s.inode e).ref → 0 < (s.inode e').ref → (s.inode e).dev = (s.inode e').dev →
    (s.inode e).inum = (s.inode e').inum → e = e'
  count : ∀ e, (s.inode e).ref = Tokens.count s.held e
  pc : ∀ p e, (s.pc p).entry = some e → (p, e) ∈ s.held

theorem counted_boot (ninodes : Nat) (disk : Nat → Nat → Dinode) : Counted (boot ninodes disk) :=
  ⟨fun _ _ h => absurd h (Nat.lt_irrefl 0), fun _ => rfl, fun _ _ h => by cases h⟩

theorem Counted.update_pc (h : Counted s)
    (hpc : s'.pc = Function.update s.pc p c) (hc : ∀ e, c.entry = some e → (p, e) ∈ s'.held)
    (hh : ∀ q e, q ≠ p → (q, e) ∈ s.held → (q, e) ∈ s'.held) (q : Pid) (e : Entry)
    (he : (s'.pc q).entry = some e) : (q, e) ∈ s'.held := by
  rw [hpc, update_apply] at he
  split at he
  · rename_i hq
    rw [hq]
    exact hc e he
  · exact hh q e ‹_› (h.pc q e he)

theorem Counted.pos (h : Counted s) (hm : (p, e) ∈ s.held) : 0 < (s.inode e).ref := by
  rw [h.count]
  exact Tokens.count_pos hm

theorem counted_change {op : Op} (h : Counted s)
    (hpc : s'.pc = Function.update s.pc p c) (hch : Change s s' p op c) : Counted s' := by
  obtain ⟨h1, h2, h3⟩ := id h
  cases hch with
  | still hheld hinode hc hfree =>
    refine ⟨?_, fun e => ?_, h.update_pc hpc ?_ ?_⟩
    · intro e e'
      rw [(hinode e).1, (hinode e).2.1, (hinode e).2.2, (hinode e').1, (hinode e').2.1, (hinode e').2.2]
      exact h1 e e'
    · rw [(hinode e).2.2, hheld, h2]
    · intro e he
      rw [hheld]
      exact (hc e he).elim (h3 p e) id
    · intro q e _ hm
      rw [hheld]
      exact hm
  | iget dev inum e x he hheld hinode hc =>
    have hcs := igetEntry_cases he
    refine ⟨?_, ?_, h.update_pc hpc ?_ ?_⟩
    · simp only [hinode, update_apply]
      grind
    · simp only [hinode, hheld, update_apply]
      grind
    · intro e' he'
      rcases hc with rfl | rfl <;> cases he'
      rw [hheld]
      exact List.mem_cons_self
    · intro q e' _ hm
      rw [hheld]
      exact List.mem_cons_of_mem _ hm
  | idup e hm hs hc =>
    subst hc hs
    have hpos := h.pos hm
    refine ⟨?_, ?_, h.update_pc hpc (by simp [Pc.entry]) fun q e' _ => List.mem_cons_of_mem _⟩ <;>
      simp only [idup, hold, setInode, update_apply] <;> grind
  | drop e hd hs hc =>
    subst hc hs
    have hm : (p, e) ∈ s.held := hd.elim (fun hd => h3 p e (by rw [hd]; rfl)) (·.2.1)
    refine ⟨?_, fun e' => ?_, h.update_pc hpc (by simp [Pc.entry]) fun q e' hq => ?_⟩
    · simp only [drop, setPc, unhold, setInode, update_apply]
      grind
    · have hcount := Tokens.count_erase hm e'
      simp only [drop, setPc, unhold, setInode, update_apply]
      grind
    · exact Tokens.mem_erase_of_ne (by simp [hq])
  | give q e hop hidle hm hs hc =>
    subst hc hs
    refine ⟨h1, fun e' => ?_, h.update_pc hpc (by simp [Pc.entry]) fun q' e' hq hm' => ?_⟩
    · simp only [hold, unhold, Tokens.count_cons, ← Tokens.count_erase hm]
      exact h2 e'
    · exact List.mem_cons_of_mem _ (Tokens.mem_erase_of_ne (by simp [hq]) hm')

theorem change_label {op : Op} (hch : Change s s' p op c) (hpos : 0 < (s.inode e).ref) :
    (s'.inode e).dev = (s.inode e).dev ∧ (s'.inode e).inum = (s.inode e).inum := by
  have hsame : ∀ {e' : Entry} {x : Inode}, s'.inode = Function.update s.inode e' x →
      (e' = e → x.dev = (s.inode e).dev ∧ x.inum = (s.inode e).inum) →
      (s'.inode e).dev = (s.inode e).dev ∧ (s'.inode e).inum = (s.inode e).inum := by
    intro e' x hinode hx
    rw [hinode, update_apply]
    split
    · exact hx (‹_› : e = e').symm
    · exact ⟨rfl, rfl⟩
  cases hch with
  | still _ hinode => exact ⟨(hinode e).1, (hinode e).2.1⟩
  | iget dev inum e' x he _ hinode =>
    refine hsame hinode ?_
    rintro rfl
    rcases igetEntry_cases he with ⟨-, -, -, rfl⟩ | ⟨h0, -⟩
    · exact ⟨rfl, rfl⟩
    · omega
  | idup e' _ hs => subst hs; exact hsame rfl (by rintro rfl; exact ⟨rfl, rfl⟩)
  | drop e' _ hs => subst hs; exact hsame rfl (by rintro rfl; exact ⟨rfl, rfl⟩)
  | give q e' _ _ _ hs => subst hs; exact ⟨rfl, rfl⟩

theorem change_freeing {q : Pid} {op : Op} (hpc : s'.pc = Function.update s.pc p c)
    (hch : Change s s' p op c) (hf : s'.pc q = .freeing e) (hn : s.pc q ≠ .freeing e) : (q, e) ∈ s.held ∧ (s.inode e).ref = 1 := by
  rw [hpc, update_apply] at hf
  split at hf
  · rename_i hq
    subst hq
    cases hch with
    | still _ _ _ hfree => exact hfree e hf
    | iget _ _ _ _ _ _ _ hc => rcases hc with rfl | rfl <;> cases hf
    | idup _ _ _ hc => subst hc; cases hf
    | drop _ _ _ hc => subst hc; cases hf
    | give _ _ _ _ _ _ hc => subst hc; cases hf
  · exact absurd hf hn

/-- In every run of the table: an inode has at most one entry in use; the count of an entry is the
number of references handed out and not given back; the next step gives no entry in use another
label; and a process that decides to free an inode has the only reference to it. -/
theorem table_exact (ninodes : Nat) (disk : Nat → Nat → Dinode) (evs : List (Pid × Op)) (s : State)
    (hrun : Trans.run stepAny (boot ninodes disk) evs = some s) :
    (∀ e e', 0 < (s.inode e).ref → 0 < (s.inode e').ref → (s.inode e).dev = (s.inode e').dev →
      (s.inode e).inum = (s.inode e').inum → e = e') ∧ (∀ e, (s.inode e).ref = Tokens.count s.held e) ∧
    (∀ ev s', stepAny s ev = some s' → ∀ e, 0 < (s.inode e).ref →
      (s'.inode e).dev = (s.inode e).dev ∧ (s'.inode e).inum = (s.inode e).inum) ∧
    (∀ ev s', stepAny s ev = some s' → ∀ p e, s'.pc p = .freeing e → s.pc p ≠ .freeing e →
      (p, e) ∈ s.held ∧ ∀ q, (q, e) ∉ s.held.erase (p, e)) := by
  have h : Counted s := by
    refine Trans.run_inv (fun s ev s' hi hs => ?_) (counted_boot ninodes disk) hrun
    obtain ⟨c, hpc, hch⟩ := stepAny_cases hs
    exact counted_change hi hpc hch
  refine ⟨h.uniq, h.count, fun ev s' hs e hpos => ?_, fun ev s' hs p e hf hn => ?_⟩
  · obtain ⟨c, -, hch⟩ := stepAny_cases hs
    exact change_label hch hpos
  · obtain ⟨c, hpc, hch⟩ := stepAny_cases hs
    obtain ⟨hm, href⟩ := change_freeing hpc hch hf hn
    exact ⟨hm, fun q => Tokens.notMem_erase_of_count_eq_one (h.count e ▸ href) hm⟩

/-- A root directory and one file. -/
def twoInodes : Nat → Nat → Dinode
  | 1, 1 => { type := 1, nlink := 1 }
  | 1, 2 => { type := 2, nlink := 1 }
  | _, _ => { type := 0, nlink := 0 }

/-- Process 1 looks up inode 2 and unlinks it. -/
def unlinkOne : List (Pid × Op) :=
  [(1, .iget 1 2), (1, .ilock 0), (1, .tau), (1, .setNlink 0 0), (1, .iunlock 0)]

/-- Its `iput` then decides to free the inode. -/
theorem table_exact_unlinkOne : ∃ s s', Trans.run stepAny (boot 3 twoInodes) unlinkOne = some s ∧
      stepAny s (1, .iput 0) = some s' ∧ s'.pc 1 = .freeing 0 ∧ (1, 0) ∈ s.held ∧
      ∀ q, (q, 0) ∉ s.held.erase (1, 0) := by
  refine ⟨_, _, rfl, rfl, rfl, ?_⟩
  exact (table_exact 3 twoInodes unlinkOne _ rfl).2.2.2 (1, .iput 0) _ rfl 1 0 rfl (by decide)

end Itable
end Xv6
