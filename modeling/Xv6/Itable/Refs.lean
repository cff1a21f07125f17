import Xv6.Itable.Table

/-!
# Xv6.Itable.Refs

The locks of the inode table, when processes unlock an inode before they drop or pass on their
reference to it, as the system calls do.

* `Refs`: counts and labels are right, and who holds a sleep-lock holds a reference.
* `step_cases`: a step is a step of `stepAny` by a process that has not locked what it gives away.
* `refs_step`: every step of every process keeps `Refs`.
-/

namespace Xv6
namespace Itable

open State Function

variable {s s' : State} {p : Pid} {op : Op} {c : Pc}

structure Refs (s : State) : Prop extends Counted s where
  lock : ∀ e p, (s.inode e).lock = some p → (p, e) ∈ s.held
  place : ∀ p, PcLock s p (s.pc p)

theorem PcLock.frame {q : Pid} (h : PcLock s q c)
    (hl : ∀ e, (s'.inode e).lock = some q ↔ (s.inode e).lock = some q) : PcLock s' q c := by
  cases c <;> simp_all [PcLock]

theorem Refs.move (hr : Refs s) (hcnt : Counted s') (hpc : s'.pc = Function.update s.pc p c)
    (hl : ∀ e, LockMove s p e (s'.inode e)) (hc : PcLock s' p c)
    (hlock : ∀ e q, (s'.inode e).lock = some q → (q, e) ∈ s'.held) : Refs s' := by
  refine ⟨hcnt, hlock, fun q => ?_⟩
  rw [hpc]
  by_cases hq : q = p
  · subst hq
    simpa using hc
  · rw [update_of_ne hq]
    refine (hr.place q).frame fun e => ?_
    rcases hl e with h | h | h <;> grind

theorem Refs.keep (hr : Refs s) (hcnt : Counted s') (hpc : s'.pc = Function.update s.pc p c)
    (hl : ∀ e, (s'.inode e).lock = (s.inode e).lock) (hc : PcLock s' p c)
    (hheld : ∀ e q, (s.inode e).lock = some q → (q, e) ∈ s.held → (q, e) ∈ s'.held) : Refs s' := by
  refine hr.move hcnt hpc (fun e => .inl (hl e)) hc fun e q hq => ?_
  rw [hl] at hq
  exact hheld e q hq (hr.lock e q hq)

theorem refs_change (hr : Refs s) (hpc : s'.pc = Function.update s.pc p c) (hch : Change s s' p op c)
    (hop : ∀ e, s.pc p = .idle → (op = .iput e ∨ ∃ q, op = .give q e) → (s.inode e).lock ≠ some p) : Refs s' := by
  have hcnt := counted_change hr.toCounted hpc hch
  have hupd : ∀ {e : Entry} {x : Inode}, x.lock = (s.inode e).lock → ∀ e',
      (Function.update s.inode e x e').lock = (s.inode e').lock := by
    intro e x hx e'
    rw [update_apply]
    split
    · rename_i he
      rw [he, hx]
    · rfl
  cases hch with
  | still hheld hinode hc hfree hlock =>
    obtain ⟨hl, hpl⟩ := hlock (hr.place p)
    refine hr.move hcnt hpc hl hpl fun e q hq => ?_
    rw [hheld]
    rcases hl e with h | ⟨-, h, hm⟩ | ⟨-, h⟩
    · exact hr.lock e q (h ▸ hq)
    · cases h.symm.trans hq
      exact hm.elim (hr.pc p e) id
    · cases h.symm.trans hq
  | iget dev inum e x he hheld hinode hc =>
    refine hr.keep hcnt hpc ?_ ?_ fun _ _ _ hm => by rw [hheld]; exact List.mem_cons_of_mem _ hm
    · rw [hinode]
      refine hupd ?_
      rcases igetEntry_cases he with ⟨-, -, -, rfl⟩ | ⟨-, -, rfl⟩ <;> rfl
    · rcases hc with rfl | rfl <;> trivial
  | idup e hm hs hc =>
    subst hc hs
    exact hr.keep hcnt hpc (hupd rfl) trivial fun _ _ _ => List.mem_cons_of_mem _
  | drop e hd hs hc =>
    subst hc hs
    have hne : (s.inode e).lock ≠ some p := by
      rcases hd with hd | ⟨ho, -, hidle, -⟩
      · have := hr.place p
        rwa [hd] at this
      · exact hop e hidle (.inl ho)
    refine hr.keep hcnt hpc (hupd rfl) trivial fun e' q hq hm => Tokens.mem_erase_of_ne ?_ hm
    rintro ⟨⟩
    exact hne hq
  | give q e ho hidle hm hs hc =>
    subst hc hs
    refine hr.keep hcnt hpc (fun _ => rfl) trivial fun e' q' hq hm =>
      List.mem_cons_of_mem _ (Tokens.mem_erase_of_ne ?_ hm)
    rintro ⟨⟩
    exact hop e hidle (.inr ⟨q, ho⟩) hq

theorem step_cases (h : step s (p, op) = some s') :
    (s.pc p = .idle ∧ call s p op = some s') ∨ (op = .tau ∧ resume s p (s.pc p) = some s') := by
  unfold step at h
  split at h
  · exact .inl ⟨‹_›, h⟩
  · exact .inr ⟨‹_›, h⟩
  · cases h

theorem callAny_of_call (hr : Refs s) (h : call s p op = some s') :
    callAny s p op = some s' ∧ ∀ e, (op = .iput e ∨ ∃ q, op = .give q e) → (s.inode e).lock ≠ some p := by
  cases op with
  | iunlock e =>
    simp only [call] at h
    split at h <;> cases h
    rename_i hl
    exact ⟨if_pos ⟨hl, hr.pos (hr.lock e p hl)⟩, by simp⟩
  | iput e =>
    simp only [call] at h
    split at h
    · rename_i hm
      refine ⟨(if_pos hm.1).trans h, ?_⟩
      rintro e' (⟨⟨⟩⟩ | ⟨q, ⟨⟩⟩)
      exact hm.2
    · cases h
  | give q e =>
    simp only [call] at h
    split at h <;> cases h
    rename_i hm
    refine ⟨if_pos hm.1, ?_⟩
    rintro e' (⟨⟨⟩⟩ | ⟨q, ⟨⟩⟩)
    exact hm.2
  | _ => exact ⟨h, by simp⟩

theorem step_change (hr : Refs s) (h : step s (p, op) = some s') :
    ∃ c, s'.pc = Function.update s.pc p c ∧ Change s s' p op c ∧
      ∀ e, s.pc p = .idle → (op = .iput e ∨ ∃ q, op = .give q e) → (s.inode e).lock ≠ some p := by
  rcases step_cases h with ⟨hpc, hcall⟩ | ⟨rfl, hres⟩
  · obtain ⟨hany, hop⟩ := callAny_of_call hr hcall
    obtain ⟨c, hc, hch⟩ := change_call hpc hany
    exact ⟨c, hc, hch, fun e _ => hop e⟩
  · obtain ⟨c, hc, hch⟩ := change_resume rfl hres
    exact ⟨c, hc, hch, by simp⟩

theorem refs_step {ev : Pid × Op} (hr : Refs s) (h : step s ev = some s') : Refs s' := by
  obtain ⟨c, hpc, hch, hop⟩ := step_change hr h
  exact refs_change hr hpc hch hop

theorem refs_boot (ninodes : Nat) (disk : Nat → Nat → Dinode) : Refs (boot ninodes disk) :=
  ⟨counted_boot ninodes disk, fun _ _ h => (nomatch h), fun _ => trivial⟩

end Itable
end Xv6
