import Xv6.Itable.Refs

/-!
# Xv6.Itable.NoLeak

When is an unlinked inode freed before the last reference to it is dropped?

* `Local`: what a process that has a reference to an entry can rely on. Its lemmas are about one
  entry, its dinode and one process; `Linked.act` and `Linked.touch` carry them to the whole table.
* `Linked`: an allocated inode without links has an entry in use, or an `ialloc` is about to take one.
* `last_ref_freed`: `Linked` is kept, and so no unlinked inode is leaked, as long as `ialloc` does not
  take an inode that an `iput` has freed on disk but still has its reference to (`NoReuse`).
* `reuse_leaks`: without that condition an inode is leaked.
-/

namespace Xv6
namespace Itable

open State Function

variable {s s' : State} {p q : Pid} {e : Entry} {x : Inode} {c : Pc} {dev inum : Nat}

def State.dinode (s : State) (e : Entry) : Dinode := s.disk (s.inode e).dev (s.inode e).inum

def Pc.owns : Pc → Option Entry
  | .fresh e | .ilock e true | .init e | .freeing e | .freed e | .dropping e => some e
  | _ => none

/-- What a process `p` at `c` that has a reference to entry `e` can rely on, where `x` is the entry
and `d` its dinode. -/
structure Local (e : Entry) (x : Inode) (d : Dinode) (p : Pid) (c : Pc) : Prop where
  data : x.valid = true → x.copy = d
  window : d.type = 0 → c = .freed e ∨ c = .dropping e
  owns : c.owns = some e → x.ref = 1 ∧ d.nlink = 0
  unread : c = .fresh e ∨ c = .ilock e false ∨ c = .ilock e true ∨ c = .dropping e → x.valid = false
  read : c = .init e ∨ c = .freeing e ∨ c = .freed e → x.valid = true
  free : c = .freed e ∨ c = .dropping e → d.type = 0
  unlinked : d.nlink = 0 → d.type ≠ 0 → x.valid = true ∨ c = .fresh e ∨ c = .ilock e true
  locked : x.lock = some p → x.valid = true ∨ c = .ilock e false ∨ c = .ilock e true

structure Linked (s : State) : Prop where
  entry : ∀ p e, (p, e) ∈ s.held → Local e (s.inode e) (s.dinode e) p (s.pc p)
  nonneg : ∀ d i, 0 ≤ (s.disk d i).nlink
  marked : ∀ p d i, s.pc p = .iget d i → (s.disk d i).type ≠ 0 ∧ (s.disk d i).nlink = 0 ∧
    ∀ e, 0 < (s.inode e).ref → ¬ ((s.inode e).dev = d ∧ (s.inode e).inum = i)
  once : ∀ p q d i, s.pc p = .iget d i → s.pc q = .iget d i → p = q
  linked : ∀ d i, (s.disk d i).type ≠ 0 → (s.disk d i).nlink = 0 → (∃ p, s.pc p = .iget d i) ∨
    ∃ e, 0 < (s.inode e).ref ∧ (s.inode e).dev = d ∧ (s.inode e).inum = i

theorem Counted.alone (h : Counted s) (h1 : (s.inode e).ref = 1) (hp : (p, e) ∈ s.held) (hq : (q, e) ∈ s.held) : q = p :=
  Tokens.eq_of_count_eq_one (h.count e ▸ h1) hp hq

theorem Local.frame {d : Dinode} {c' : Pc} (h : Local e x d p c) (hc : c.entry ≠ some e) (hc' : c'.entry ≠ some e)
    (hq : x.lock = some q → x.lock = some p) : Local e x d q c' := by
  obtain ⟨h1, h2, h3, h4, h5, h6, h7, h8⟩ := h
  refine ⟨h1, ?_, ?_, ?_, ?_, ?_, ?_, ?_⟩
  · grind [Pc.entry]
  · intro ho
    exfalso
    revert ho hc'
    cases c' with
    | ilock e' b => cases b <;> simp [Pc.entry, Pc.owns]
    | _ => simp [Pc.entry, Pc.owns]
  · grind [Pc.entry]
  · grind [Pc.entry]
  · grind [Pc.entry]
  · grind [Pc.entry]
  · grind [Pc.entry]

theorem Linked.update (hl : Linked s)
    (hentry : ∀ q e', (q, e') ∈ s'.held → Local e' (s'.inode e') (s'.dinode e') q (s'.pc q))
    (hpc : ∀ {q}, q ≠ p → s'.pc q = s.pc q) (hne : ∀ {e'}, e' ≠ e → s'.inode e' = s.inode e')
    (hdisk : ∀ {d i}, ¬ (d = (s'.inode e).dev ∧ i = (s'.inode e).inum) → s'.disk d i = s.disk d i)
    (hnonneg : 0 ≤ (s'.dinode e).nlink)
    (hmark : ∀ q d i, s'.pc q = .iget d i → q ≠ p ∧ ¬ (d = (s'.inode e).dev ∧ i = (s'.inode e).inum))
    (hold : ∀ {d i}, s.pc p = .iget d i ∨ 0 < (s.inode e).ref ∧ (s.inode e).dev = d ∧ (s.inode e).inum = i →
      d = (s'.inode e).dev ∧ i = (s'.inode e).inum)
    (hlast : (s'.inode e).ref = 0 → (s'.dinode e).type = 0 ∨ 0 < (s'.dinode e).nlink) : Linked s' := by
  have hpast : ∀ {q d i}, s'.pc q = .iget d i → s.pc q = .iget d i := fun hq => by
    rwa [hpc (hmark _ _ _ hq).1] at hq
  refine ⟨hentry, fun d i => ?_, fun q d i hq => ?_, fun q q' d i hq hq' => hl.once q q' d i (hpast hq) (hpast hq'),
    fun d i ht hn => ?_⟩
  · by_cases hk : d = (s'.inode e).dev ∧ i = (s'.inode e).inum
    · rw [hk.1, hk.2]; exact hnonneg
    · rw [hdisk hk]; exact hl.nonneg d i
  · have hk := (hmark q d i hq).2
    obtain ⟨h1, h2, h3⟩ := hl.marked q d i (hpast hq)
    rw [hdisk hk]
    refine ⟨h1, h2, fun e' he' hk' => ?_⟩
    by_cases he : e' = e
    · subst he
      exact hk ⟨hk'.1.symm, hk'.2.symm⟩
    · rw [hne he] at he' hk'
      exact h3 e' he' hk'
  · by_cases hk : d = (s'.inode e).dev ∧ i = (s'.inode e).inum
    · obtain ⟨rfl, rfl⟩ := hk
      refine .inr ⟨e, Nat.pos_of_ne_zero fun hz => ?_, rfl, rfl⟩
      rcases hlast hz with h | h
      · exact ht h
      · exact absurd hn (Int.ne_of_gt h)
    · rw [hdisk hk] at ht hn
      rcases hl.linked d i ht hn with ⟨q, hq⟩ | ⟨e', h1, h2, h3⟩
      · refine .inl ⟨q, ?_⟩
        rw [hpc, hq]
        rintro rfl
        exact hk (hold (.inl hq))
      · refine .inr ⟨e', ?_⟩
        rw [hne]
        · exact ⟨h1, h2, h3⟩
        · rintro rfl
          exact hk (hold (.inr ⟨h1, h2, h3⟩))

theorem Linked.act (hl : Linked s) (hr : Refs s) (hpos : 0 < (s.inode e).ref)
    (hpc : s'.pc = Function.update s.pc p c) (hinode : s'.inode = Function.update s.inode e x)
    (hdev : x.dev = (s.inode e).dev) (hinum : x.inum = (s.inode e).inum)
    (hdisk : ∀ d i, ¬ (d = x.dev ∧ i = x.inum) → s'.disk d i = s.disk d i)
    (hheld : ∀ q e', e' ≠ e → (q, e') ∈ s'.held → (q, e') ∈ s.held)
    (hold : (s.pc p).entry = some e ∨ s.pc p = .idle) (hnew : c.entry = some e ∨ c = .idle)
    (hself : (p, e) ∈ s'.held → Local e x (s'.disk x.dev x.inum) p c)
    (hother : ∀ q, q ≠ p → (q, e) ∈ s'.held → Local e x (s'.disk x.dev x.inum) q (s.pc q))
    (hnonneg : 0 ≤ (s'.disk x.dev x.inum).nlink)
    (hlast : x.ref = 0 → (s'.disk x.dev x.inum).type = 0 ∨ 0 < (s'.disk x.dev x.inum).nlink) : Linked s' := by
  have hget : s'.inode e = x := by rw [hinode, update_self]
  have hne : ∀ {e'}, e' ≠ e → s'.inode e' = s.inode e' := by
    intro e' he; rw [hinode, update_of_ne he]
  have hpcne : ∀ {q}, q ≠ p → s'.pc q = s.pc q := by
    intro q hq; rw [hpc, update_of_ne hq]
  have hpcp : s'.pc p = c := by rw [hpc, update_self]
  refine hl.update (p := p) (e := e) ?_ hpcne hne ?_ ?_ ?_ ?_ ?_
  · intro q e' hq
    by_cases he : e' = e
    · subst he
      rw [dinode, hget]
      by_cases hqp : q = p
      · subst hqp
        rw [hpcp]
        exact hself hq
      · rw [hpcne hqp]
        exact hother q hqp hq
    · have hold' := hl.entry q e' (hheld q e' he hq)
      have hd : s'.dinode e' = s.dinode e' := by
        rw [dinode, dinode, hne he]
        refine hdisk _ _ (fun hk => he ?_)
        exact hr.uniq e' e (hr.pos (hheld q e' he hq)) hpos (hk.1.trans hdev) (hk.2.trans hinum)
      rw [hne he, hd]
      by_cases hqp : q = p
      · subst hqp
        rw [hpcp]
        refine hold'.frame ?_ ?_ id <;> grind [Pc.entry]
      · rw [hpcne hqp]
        exact hold'
  · rw [hget]
    exact hdisk _ _
  · rw [dinode, hget]
    exact hnonneg
  · intro q d i hq
    have hqp : q ≠ p := by
      rintro rfl
      rw [hpcp] at hq
      subst hq
      simp [Pc.entry] at hnew
    rw [hpcne hqp] at hq
    rw [hget, hdev, hinum]
    exact ⟨hqp, fun hk => (hl.marked q d i hq).2.2 e hpos ⟨hk.1.symm, hk.2.symm⟩⟩
  · rw [hget, hdev, hinum]
    rintro d i (hq | ⟨-, rfl, rfl⟩)
    · rw [hq] at hold
      simp [Pc.entry] at hold
    · exact ⟨rfl, rfl⟩
  · rw [dinode, hget]
    exact hlast

theorem Counted.exists_held (h : Counted s) (hpos : 0 < (s.inode e).ref) :
    ∃ p, (p, e) ∈ s.held := Tokens.exists_of_count_pos (h.count e ▸ hpos)

def Drops (s : State) (p : Pid) (e : Entry) : Prop :=
  (p, e) ∈ s.held ∧ (s.pc p = .dropping e ∨ (s.pc p = .idle ∧
    ¬ ((s.inode e).ref = 1 ∧ (s.inode e).valid = true ∧ (s.inode e).copy.nlink = 0)))

theorem drop_last (hl : Linked s) (hd : Drops s p e) (h1 : (s.inode e).ref = 1) :
    (s.dinode e).type = 0 ∨ 0 < (s.dinode e).nlink := by
  obtain ⟨hm, hc⟩ := hd
  have hlo := hl.entry p e hm
  have hnn : 0 ≤ (s.dinode e).nlink := hl.nonneg _ _
  rcases hc with hc | ⟨hc, hn⟩
  · exact .inl (hlo.free (.inr hc))
  · by_contra hcon
    rw [not_or] at hcon
    have hz : (s.dinode e).nlink = 0 := by omega
    have hv : (s.inode e).valid = true := by
      rcases hlo.unlinked hz hcon.1 with h | h | h
      · exact h
      · rw [hc] at h; cases h
      · rw [hc] at h; cases h
    exact hn ⟨h1, hv, by rw [hlo.data hv]; exact hz⟩

theorem linked_drop (hr : Refs s) (hl : Linked s) (hd : Drops s p e) : Linked (drop s p e) := by
  obtain ⟨hm, hc⟩ := hd
  have hpos := hr.pos hm
  refine hl.act hr hpos rfl rfl rfl rfl (fun _ _ _ => rfl) (fun _ _ _ h => List.mem_of_mem_erase h)
    ?_ (.inr rfl) ?_ ?_ (hl.nonneg _ _) ?_
  · rcases hc with hc | hc
    · rw [hc]; exact .inl rfl
    · exact .inr hc.1
  · -- another reference of `p` itself: the count was not 1
    intro hm'
    have h2 : (s.inode e).ref ≠ 1 := fun h1 =>
      Tokens.notMem_erase_of_count_eq_one (hr.count e ▸ h1) hm hm'
    rcases hc with hc | hc
    · have := ((hl.entry p e hm).owns (by rw [hc]; rfl)).1
      exact absurd this h2
    · obtain ⟨g1, g2, g3, g4, g5, g6, g7, g8⟩ := hl.entry p e hm
      rw [hc.1] at g2 g3 g4 g5 g6 g7 g8
      exact ⟨g1, g2, by simp [Pc.owns], g4, g5, g6, g7, g8⟩
  · intro q hq hmq
    have hmq := List.mem_of_mem_erase hmq
    have h2 : (s.inode e).ref ≠ 1 := fun h1 => hq (hr.alone h1 hm hmq)
    obtain ⟨g1, g2, g3, g4, g5, g6, g7, g8⟩ := hl.entry q e hmq
    exact ⟨g1, g2, fun ho => absurd (g3 ho).1 h2, g4, g5, g6, g7, g8⟩
  · intro hz
    have h1 : (s.inode e).ref = 1 := by
      have : (s.inode e).ref - 1 = 0 := hz
      omega
    exact drop_last hl ⟨hm, hc⟩ h1

theorem Local.dup {d : Dinode} (h : Local e x d p c)
    (hc : c.owns ≠ some e) : Local e { x with ref := x.ref + 1 } d p c := by
  obtain ⟨g1, g2, g3, g4, g5, g6, g7, g8⟩ := h
  exact ⟨g1, g2, fun ho => absurd ho hc, g4, g5, g6, g7, g8⟩

theorem Linked.newcomer (hl : Linked s) (hr : Refs s)
    (hq : (q, e) ∈ s.held) (ho : (s.pc q).entry ≠ some e) : Local e (s.inode e) (s.dinode e) p (s.pc p) := by
  by_cases hp : (p, e) ∈ s.held
  · exact hl.entry p e hp
  · exact (hl.entry q e hq).frame ho (fun h => hp (hr.pc p e h))
      (fun h => absurd (hr.lock e p h) hp)

theorem linked_recycle (hr : Refs s) (hl : Linked s) (hz : (s.inode e).ref = 0)
    (hnone : ∀ e', 0 < (s.inode e').ref → ¬ ((s.inode e').dev = dev ∧ (s.inode e').inum = inum))
    (ht : (s.disk dev inum).type ≠ 0) (hc : (c = .idle ∧ s.pc p = .idle ∧ 0 < (s.disk dev inum).nlink) ∨
      (c = .fresh e ∧ s.pc p = .iget dev inum))
    (hs : s' = ((s.setInode e { s.inode e with dev := dev, inum := inum, ref := 1, valid := false }).hold
      p e).setPc p c) : Linked s' := by
  have hfresh : ∀ q, (q, e) ∉ s.held := fun q hq => by
    have := hr.pos hq
    omega
  have hlock : ∀ q, (s.inode e).lock ≠ some q := fun q h => hfresh q (hr.lock e q h)
  have hget : s'.inode e = { s.inode e with dev := dev, inum := inum, ref := 1, valid := false } := by
    simp [hs, setPc, hold, setInode]
  have hne : ∀ {e'}, e' ≠ e → s'.inode e' = s.inode e' := by
    intro e' he
    simp [hs, setPc, hold, setInode, he]
  have hpcp : s'.pc p = c := by simp [hs, setPc]
  have hpcne : ∀ {q}, q ≠ p → s'.pc q = s.pc q := by
    intro q hq
    simp [hs, setPc, hold, setInode, hq]
  have hdisk : s'.disk = s.disk := by rw [hs]; rfl
  refine hl.update (p := p) (e := e) ?_ hpcne hne (fun _ => by rw [hdisk]) ?_ ?_ ?_ (by rw [hget]; simp)
  · intro q e' hq
    have hq : (q, e') = (p, e) ∨ (q, e') ∈ s.held := by
      simpa [hs, setPc, hold, setInode] using hq
    rcases hq with hq | hq
    · cases hq
      rw [dinode, hget, hpcp, hdisk]
      rcases hc with ⟨rfl, -, hn⟩ | ⟨rfl, hp⟩
      · exact ⟨by simp, fun h => absurd h ht, by simp [Pc.owns], by simp, by simp, by simp,
          fun h => by simp only at h; omega, fun h => absurd h (hlock p)⟩
      · exact ⟨by simp, fun h => absurd h ht, fun _ => ⟨rfl, (hl.marked p dev inum hp).2.1⟩, by simp,
          by simp, by simp, by simp, fun h => absurd h (hlock p)⟩
    · have he : e' ≠ e := by
        rintro rfl
        exact hfresh q hq
      have hold' := hl.entry q e' hq
      rw [dinode, hne he, hdisk]
      by_cases hqp : q = p
      · subst hqp
        rw [hpcp]
        refine hold'.frame ?_ ?_ id
        · rcases hc with ⟨-, hp, -⟩ | ⟨-, hp⟩ <;> simp [hp, Pc.entry]
        · rcases hc with ⟨rfl, -⟩ | ⟨rfl, -⟩ <;> simp [Pc.entry, Ne.symm he]
      · rw [hpcne hqp]
        exact hold'
  · rw [dinode, hdisk]
    exact hl.nonneg _ _
  · intro q d i hq
    have hqp : q ≠ p := by
      rintro rfl
      rw [hpcp] at hq
      rcases hc with ⟨rfl, -⟩ | ⟨rfl, -⟩ <;> cases hq
    rw [hpcne hqp] at hq
    rw [hget]
    refine ⟨hqp, ?_⟩
    rintro ⟨rfl, rfl⟩
    rcases hc with ⟨-, -, hn⟩ | ⟨-, hp⟩
    · have := (hl.marked q _ _ hq).2.1
      omega
    · exact hqp (hl.once q p _ _ hq hp)
  · rw [hget]
    rintro d i (hq | ⟨h0, -⟩)
    · rcases hc with ⟨-, hp, -⟩ | ⟨-, hp⟩ <;> rw [hp] at hq <;> cases hq
      exact ⟨rfl, rfl⟩
    · omega

theorem linked_lookup (hr : Refs s) (hl : Linked s)
    (hpc : s.pc p = .idle) (ht : (s.disk dev inum).type ≠ 0) (hn : 0 < (s.disk dev inum).nlink)
    (h : iget s p dev inum (fun _ => .idle) = some s') : Linked s' := by
  unfold iget at h
  split at h
  · rename_i e x he
    rcases igetEntry_cases he with ⟨hpos, rfl, rfl, rfl⟩ | ⟨hz, hnone, rfl⟩
    · cases h
      have hown : ∀ q, (q, e) ∈ s.held → (s.pc q).owns ≠ some e := by
        intro q hq ho
        have h0 : (s.dinode e).nlink = 0 := ((hl.entry q e hq).owns ho).2
        have : 0 < (s.dinode e).nlink := hn
        omega
      obtain ⟨q0, hq0⟩ := hr.exists_held hpos
      have hself : Local e (s.inode e) (s.dinode e) p .idle := by
        by_cases hp : (p, e) ∈ s.held
        · exact hpc ▸ hl.entry p e hp
        · exact ⟨(hl.entry q0 e hq0).data, fun h => absurd h ht, by simp [Pc.owns], by simp, by simp,
            by simp, fun h => absurd h (Int.ne_of_gt hn), fun h => absurd (hr.lock e p h) hp⟩
      refine hl.act hr hpos rfl rfl rfl rfl (fun _ _ _ => rfl) ?_ (.inr hpc) (.inr rfl)
        (fun _ => hself.dup (by simp [Pc.owns])) ?_ (hl.nonneg _ _) (fun h => by simp at h)
      · intro q e' he hq
        simpa [setPc, hold, setInode, he] using hq
      · intro q hqp hq
        have hq : (q, e) ∈ s.held := by simpa [setPc, hold, setInode, hqp] using hq
        exact (hl.entry q e hq).dup (hown q hq)
    · cases h
      exact linked_recycle hr hl hz hnone ht (.inl ⟨rfl, hpc, hn⟩) rfl
  · cases h

theorem linked_fresh (hr : Refs s) (hl : Linked s)
    (hpc : s.pc p = .iget dev inum) (h : iget s p dev inum .fresh = some s') : Linked s' := by
  obtain ⟨ht, -, hno⟩ := hl.marked p dev inum hpc
  unfold iget at h
  split at h
  · rename_i e x he
    rcases igetEntry_cases he with ⟨hpos, h1, h2, -⟩ | ⟨hz, hnone, rfl⟩
    · exact absurd ⟨h1, h2⟩ (hno e hpos)
    · cases h
      exact linked_recycle hr hl hz hnone ht (.inr ⟨rfl, hpc⟩) rfl
  · cases h

/-- Processes look up and change link counts as the directory code does: a directory entry names an
allocated inode with a link, and a link count is not negative. -/
def Disciplined (s : State) (ev : Pid × Op) : Prop :=
  (∀ dev inum, ev.2 = .iget dev inum → (s.disk dev inum).type ≠ 0 ∧ 0 < (s.disk dev inum).nlink) ∧
  (∀ e n, ev.2 = .setNlink e n → 0 ≤ n)

/-- `ialloc` does not take an inode that an `iput` has freed but not yet dropped. -/
def NoReuse (s : State) (ev : Pid × Op) : Prop :=
  ∀ dev type inum, s.pc ev.1 = .ialloc dev type inum → (s.disk dev inum).type = 0 →
    ∀ q e, s.pc q = .freed e ∨ s.pc q = .dropping e →
      ¬ ((s.inode e).dev = dev ∧ (s.inode e).inum = inum)

theorem linked_ialloc {type : FileType} (hr : Refs s)
    (hl : Linked s) (hpc : s.pc p = .ialloc dev type inum) (hfree : (s.disk dev inum).type = 0)
    (hno : ∀ q e, s.pc q = .freed e ∨ s.pc q = .dropping e → ¬ ((s.inode e).dev = dev ∧ (s.inode e).inum = inum))
    (hs : s' = (s.setDinode dev inum { type := type.toNat, nlink := 0 }).setPc p (.iget dev inum)) :
    Linked s' := by
  have hnone : ∀ e, 0 < (s.inode e).ref → ¬ ((s.inode e).dev = dev ∧ (s.inode e).inum = inum) := by
    rintro e hpos ⟨rfl, rfl⟩
    obtain ⟨q, hq⟩ := hr.exists_held hpos
    exact hno q e ((hl.entry q e hq).window hfree) ⟨rfl, rfl⟩
  have hinode : s'.inode = s.inode := by rw [hs]; rfl
  have hpcp : s'.pc p = .iget dev inum := by simp [hs, setPc]
  have hpcne : ∀ {q}, q ≠ p → s'.pc q = s.pc q := by
    intro q hq
    simp [hs, setPc, setDinode, hq]
  have hself : s'.disk dev inum = { type := type.toNat, nlink := 0 } := by
    simp [hs, setPc, setDinode]
  have hdisk : ∀ {d i}, ¬ (d = dev ∧ i = inum) → s'.disk d i = s.disk d i := by
    intro d i hk
    simp only [hs, setPc, setDinode, update_apply]
    grind
  -- nobody else has marked this inode: it was free
  have hother : ∀ {q}, q ≠ p → ∀ {d i}, s'.pc q = .iget d i →
      s.pc q = .iget d i ∧ ¬ (d = dev ∧ i = inum) := by
    intro q hqp d i hq
    rw [hpcne hqp] at hq
    refine ⟨hq, ?_⟩
    rintro ⟨rfl, rfl⟩
    exact (hl.marked q d i hq).1 hfree
  refine ⟨?_, ?_, ?_, ?_, ?_⟩
  · intro q e hq
    have hq : (q, e) ∈ s.held := by simpa [hs, setPc, setDinode] using hq
    rw [dinode, hinode, hdisk (hnone e (hr.pos hq))]
    by_cases hqp : q = p
    · subst hqp
      exact (hl.entry q e hq).frame (by simp [hpc, Pc.entry]) (by simp [hpcp, Pc.entry]) id
    · rw [hpcne hqp]
      exact hl.entry q e hq
  · intro d i
    by_cases hk : d = dev ∧ i = inum
    · rw [hk.1, hk.2, hself]
    · rw [hdisk hk]; exact hl.nonneg d i
  · intro q d i hq
    rw [hinode]
    by_cases hqp : q = p
    · subst hqp
      rw [hpcp] at hq
      cases hq
      rw [hself]
      exact ⟨type.toNat_ne_zero, rfl, hnone⟩
    · obtain ⟨hq, hk⟩ := hother hqp hq
      rw [hdisk hk]
      exact hl.marked q d i hq
  · intro q q' d i hq hq'
    by_cases hqp : q = p <;> by_cases hqp' : q' = p
    · rw [hqp, hqp']
    · subst hqp
      rw [hpcp] at hq
      cases hq
      exact absurd ⟨rfl, rfl⟩ (hother hqp' hq').2
    · subst hqp'
      rw [hpcp] at hq'
      cases hq'
      exact absurd ⟨rfl, rfl⟩ (hother hqp hq).2
    · exact hl.once q q' d i (hother hqp hq).1 (hother hqp' hq').1
  · intro d i ht hn
    by_cases hk : d = dev ∧ i = inum
    · exact .inl ⟨p, by rw [hpcp, hk.1, hk.2]⟩
    · rw [hdisk hk] at ht hn
      rcases hl.linked d i ht hn with ⟨q, hq⟩ | he
      · refine .inl ⟨q, ?_⟩
        have hqp : q ≠ p := by
          rintro rfl
          rw [hpc] at hq
          cases hq
        rw [hpcne hqp]; exact hq
      · rw [hinode]
        exact .inr he

/-! ## The steps of a process on one entry -/

section LocalSteps

variable {e : Entry} {x : Inode} {d : Dinode} {p q : Pid} {c : Pc}

theorem Local.ilock_valid (h : Local e x d p .idle) (hv : x.valid = true) :
    Local e { x with lock := some p } d p .idle := by
  obtain ⟨g1, g2, g3, g4, g5, g6, g7, -⟩ := h
  exact ⟨g1, g2, g3, g4, g5, g6, g7, fun _ => .inl hv⟩

theorem Local.ilock (h : Local e x d p .idle) (hv : x.valid = false) :
    Local e { x with lock := some p } d p (.ilock e false) := by
  cases h
  constructor <;> grind [Pc.owns]

theorem Local.ilock_fresh (h : Local e x d p (.fresh e)) : Local e { x with lock := some p } d p (.ilock e true) := by
  cases h
  constructor <;> grind [Pc.owns]

theorem Local.ilock_other (h : Local e x d q c) (hq : q ≠ p) : Local e { x with lock := some p } d q c := by
  obtain ⟨g1, g2, g3, g4, g5, g6, g7, -⟩ := h
  exact ⟨g1, g2, g3, g4, g5, g6, g7, fun h => absurd (Option.some.inj h).symm hq⟩

theorem Local.iunlock (h : Local e x d q c) : Local e { x with lock := none } d q c := by
  obtain ⟨g1, g2, g3, g4, g5, g6, g7, -⟩ := h
  exact ⟨g1, g2, g3, g4, g5, g6, g7, by simp⟩

theorem Local.read_self {b : Bool} (h : Local e x d p (.ilock e b)) (ht : d.type ≠ 0) :
    Local e { x with copy := d, valid := true } d p (if b then .init e else .idle) := by
  cases h
  cases b <;> constructor <;> grind [Pc.owns]

theorem Local.read_other (h : Local e x d q c) (ho : c.owns ≠ some e) (hc : c ≠ .ilock e false) :
    Local e { x with copy := d, valid := true } d q c := by
  cases h
  constructor <;> grind [Pc.owns]

theorem Local.setNlink (h : Local e x d q c) (ho : c.owns ≠ some e) (hv : x.valid = true) (n : Int) :
    Local e { x with copy := { x.copy with nlink := n } } { x.copy with nlink := n } q c := by
  cases h
  constructor <;> grind [Pc.owns]

theorem Local.init (h : Local e x d p (.init e)) :
    Local e { x with copy := { x.copy with nlink := 1 } } { x.copy with nlink := 1 } p .idle := by
  cases h
  constructor <;> grind [Pc.owns]

theorem Local.iput (h : Local e x d p .idle) (h1 : x.ref = 1) (hv : x.valid = true)
    (hn : x.copy.nlink = 0) : Local e { x with lock := some p } d p (.freeing e) := by
  cases h
  constructor <;> grind [Pc.owns]

theorem Local.freeing (h : Local e x d p (.freeing e)) :
    Local e { x with copy := { x.copy with type := 0 } } { x.copy with type := 0 } p (.freed e) := by
  cases h
  constructor <;> grind [Pc.owns]

theorem Local.freed (h : Local e x d p (.freed e)) :
    Local e { x with valid := false, lock := none } d p (.dropping e) := by
  cases h
  constructor <;> grind [Pc.owns]

end LocalSteps

theorem Linked.touch (hl : Linked s) (hr : Refs s) (hm : (p, e) ∈ s.held)
    (hpc : s'.pc = Function.update s.pc p c) (hinode : s'.inode = Function.update s.inode e x)
    (hheld : s'.held = s.held) (hdev : x.dev = (s.inode e).dev) (hinum : x.inum = (s.inode e).inum)
    (href : x.ref = (s.inode e).ref) (hdisk : ∀ d i, ¬ (d = x.dev ∧ i = x.inum) → s'.disk d i = s.disk d i)
    (hold : (s.pc p).entry = some e ∨ s.pc p = .idle) (hnew : c.entry = some e ∨ c = .idle)
    (hself : Local e x (s'.disk x.dev x.inum) p c) (hother : ∀ q, q ≠ p → (q, e) ∈ s.held → (s.pc q).owns ≠ some e →
      Local e x (s'.disk x.dev x.inum) q (s.pc q)) (hnonneg : 0 ≤ (s'.disk x.dev x.inum).nlink) : Linked s' := by
  have hpos := hr.pos hm
  refine hl.act hr hpos hpc hinode hdev hinum hdisk ?_ hold hnew (fun _ => hself) ?_ hnonneg ?_
  · intro q e' _ hq
    rwa [hheld] at hq
  · intro q hqp hq
    rw [hheld] at hq
    refine hother q hqp hq (fun ho => hqp ?_)
    exact hr.alone ((hl.entry q e hq).owns ho).1 hm hq
  · intro hz
    omega

theorem Linked.take (hl : Linked s) (hr : Refs s) (hm : (p, e) ∈ s.held)
    (hold : (s.pc p).entry = some e ∨ s.pc p = .idle) (hnew : c.entry = some e ∨ c = .idle)
    (hself : Local e { s.inode e with lock := some p } (s.dinode e) p c) :
    Linked ((s.setInode e { s.inode e with lock := some p }).setPc p c) :=
  hl.touch hr hm rfl rfl rfl rfl rfl rfl (fun _ _ _ => rfl) hold hnew hself
    (fun q hqp hq _ => (hl.entry q e hq).ilock_other hqp) (hl.nonneg _ _)

theorem Linked.move (hl : Linked s) (hold : (s.pc p).entry = none)
    (hold' : ∀ d i, s.pc p ≠ .iget d i) (hnew : c.entry = none) (hnew' : ∀ d i, c ≠ .iget d i) :
    Linked (s.setPc p c) := by
  have hiff : ∀ q d i, (s.setPc p c).pc q = .iget d i ↔ s.pc q = .iget d i := by
    intro q d i
    by_cases hq : q = p
    · subst hq
      simp [setPc, hold' d i, hnew' d i]
    · simp [setPc, hq]
  refine ⟨?_, hl.nonneg, ?_, ?_, ?_⟩
  · intro q e hq
    have hlo := hl.entry q e hq
    by_cases hqp : q = p
    · subst hqp
      exact hlo.frame (by simp [hold]) (by simp [setPc, hnew]) id
    · rw [show (s.setPc p c).pc q = s.pc q by simp [setPc, hqp]]
      exact hlo
  · intro q d i hq
    exact hl.marked q d i ((hiff q d i).mp hq)
  · intro q q' d i hq hq'
    exact hl.once q q' d i ((hiff q d i).mp hq) ((hiff q' d i).mp hq')
  · intro d i ht hn
    rcases hl.linked d i ht hn with ⟨q, hq⟩ | he
    · exact .inl ⟨q, (hiff q d i).mpr hq⟩
    · exact .inr he

theorem setDinode_disk_ne {d i : Nat} {x : Dinode} (h : ¬ (d = dev ∧ i = inum)) :
    (s.setDinode dev inum x).disk d i = s.disk d i := by
  simp only [setDinode, update_apply]
  grind

theorem setDinode_disk_self (s : State) (dev inum : Nat) (x : Dinode) :
    (s.setDinode dev inum x).disk dev inum = x := by simp [setDinode]

theorem linked_call {op : Op} (hr : Refs s) (hl : Linked s)
    (hd : Disciplined s (p, op)) (hpc : s.pc p = .idle) (h : call s p op = some s') : Linked s' := by
  have hidle : s.pc = Function.update s.pc p .idle := by rw [← hpc, update_eq_self]
  have hlo : ∀ {e}, (p, e) ∈ s.held → Local e (s.inode e) (s.dinode e) p .idle :=
    fun hm => hpc ▸ hl.entry p _ hm
  cases op with
  | ialloc dev type =>
    cases h
    exact hl.move (by simp [hpc, Pc.entry]) (by simp [hpc]) rfl (by simp)
  | iget dev inum =>
    obtain ⟨ht, hn⟩ := hd.1 dev inum rfl
    exact linked_lookup hr hl hpc ht hn h
  | idup e =>
    simp only [call] at h
    split at h <;> cases h
    rename_i hm
    refine hl.act hr (hr.pos hm) hidle rfl rfl rfl (fun _ _ _ => rfl) ?_ (.inr hpc) (.inr rfl) ?_ ?_
      (hl.nonneg _ _) (fun h => by simp at h)
    · intro q e' he hq
      simpa [idup, hold, setInode, he] using hq
    · intro _
      exact (hlo hm).dup (by simp [Pc.owns])
    · intro q hqp hq
      have hq : (q, e) ∈ s.held := by simpa [idup, hold, setInode, hqp] using hq
      refine (hl.entry q e hq).dup (fun ho => hqp ?_)
      exact hr.alone ((hl.entry q e hq).owns ho).1 hm hq
  | ilock e =>
    simp only [call, ilock] at h
    split at h
    · rename_i hm
      split at h
      · split at h <;> cases h
        · exact hl.take hr hm (.inr hpc) (.inr rfl) ((hlo hm).ilock_valid ‹_›)
        · rename_i hv
          exact hl.take hr hm (.inr hpc) (.inl rfl) ((hlo hm).ilock (by simpa using hv))
      · cases h
    · cases h
  | iunlock e =>
    simp only [call, iunlock] at h
    split at h <;> cases h
    have hm := hr.lock e p ‹_›
    exact hl.touch hr hm hidle rfl rfl rfl rfl rfl (fun _ _ _ => rfl) (.inr hpc) (.inr rfl)
      (hlo hm).iunlock (fun q _ hq _ => (hl.entry q e hq).iunlock) (hl.nonneg _ _)
  | setNlink e n =>
    simp only [call, update] at h
    split at h <;> cases h
    rename_i hlock
    have hm := hr.lock e p hlock
    have hv : (s.inode e).valid = true := by simpa using (hlo hm).locked hlock
    refine hl.touch hr hm hidle rfl rfl rfl rfl rfl (fun _ _ => setDinode_disk_ne) (.inr hpc) (.inr rfl)
      ?_ ?_ ?_ <;> rw [setDinode_disk_self]
    · exact (hlo hm).setNlink (by simp [Pc.owns]) hv n
    · exact fun q _ hq ho => (hl.entry q e hq).setNlink ho hv n
    · exact hd.2 e n rfl
  | iput e =>
    simp only [call, iput] at h
    split at h
    · rename_i hm
      split at h
      · rename_i hz
        split at h <;> cases h
        exact hl.take hr hm.1 (.inr hpc) (.inl rfl) ((hlo hm.1).iput hz.1 hz.2.1 hz.2.2)
      · cases h
        exact linked_drop hr hl ⟨hm.1, .inr ⟨hpc, ‹_›⟩⟩
    · cases h
  | give q e =>
    simp only [call] at h
    split at h <;> cases h
    rename_i hm
    have hnew : ∀ q', Local e (s.inode e) (s.dinode e) q' (s.pc q') :=
      fun q' => hl.newcomer hr hm.1 (by simp [hpc, Pc.entry])
    have heq : s.inode = Function.update s.inode e (s.inode e) := (update_eq_self e _).symm
    have hpos := hr.pos hm.1
    refine hl.act hr hpos hidle heq rfl rfl (fun _ _ _ => rfl) ?_ (.inr hpc) (.inr rfl)
      (fun _ => hlo hm.1) (fun q' _ _ => hnew q') (hl.nonneg _ _) (fun hz => by omega)
    intro q' e' he hq
    simp only [hold, unhold, List.mem_cons, Prod.mk.injEq, he, and_false, false_or] at hq
    exact List.mem_of_mem_erase hq
  | tau => cases h

theorem linked_resume {k : Pc} (hr : Refs s) (hl : Linked s) (hn : NoReuse s (p, .tau))
    (hk : s.pc p = k) (h : resume s p k = some s') : Linked s' := by
  have hp := hr.place p
  have hm : ∀ {e}, k.entry = some e → (p, e) ∈ s.held := fun he => hr.pc p _ (by rw [hk, he])
  have hlo : ∀ {e}, k.entry = some e → Local e (s.inode e) (s.dinode e) p k :=
    fun he => hk ▸ hl.entry p _ (hm he)
  have hold : ∀ {e}, k.entry = some e → (s.pc p).entry = some e ∨ s.pc p = .idle :=
    fun he => .inl (by rw [hk, he])
  have halone : ∀ {e}, k.entry = some e → k.owns = some e → ∀ {q}, q ≠ p → (q, e) ∉ s.held :=
    fun he ho _ hqp hq => hqp (hr.alone ((hlo he).owns ho).1 (hm he) hq)
  rw [hk] at hp
  cases k with
  | idle => cases h
  | ialloc dev type inum =>
    cases h
    have hmove : ∀ c : Pc, c.entry = none → (∀ d i, c ≠ .iget d i) → Linked (s.setPc p c) :=
      fun c => hl.move (by simp [hk, Pc.entry]) (by simp [hk])
    unfold iallocTurn
    split
    · split
      · exact linked_ialloc hr hl hk ‹_› (hn dev type inum hk ‹_›) rfl
      · exact hmove _ rfl (by simp)
    · exact hmove _ rfl (by simp)
  | iget dev inum => exact linked_fresh hr hl hk h
  | fresh e =>
    have hlf := hlo rfl
    simp only [resume, ilock] at h
    split at h
    · split at h <;> cases h
      · rename_i hv
        rw [hlf.unread (.inl rfl)] at hv
        cases hv
      · exact hl.take hr (hm rfl) (hold rfl) (.inl rfl) hlf.ilock_fresh
    · cases h
  | ilock e create =>
    simp only [resume, ilockRead] at h
    split at h <;> cases h
    rename_i ht
    refine hl.touch hr (hm rfl) rfl rfl rfl rfl rfl rfl (fun _ _ _ => rfl) (hold rfl) ?_
      ((hlo rfl).read_self ht) (fun q hqp hq ho => (hl.entry q e hq).read_other ho ?_) (hl.nonneg _ _)
    · cases create
      · exact .inr rfl
      · exact .inl rfl
    · intro hq'
      have := hr.place q
      rw [hq'] at this
      exact hqp (Option.some.inj (this.symm.trans hp))
  | init e =>
    cases h
    refine hl.touch hr (hm rfl) rfl rfl rfl rfl rfl rfl (fun _ _ => setDinode_disk_ne) (hold rfl) (.inr rfl)
      ?_ (fun q hqp hq _ => absurd hq (halone rfl rfl hqp)) ?_ <;> simp only [update, setPc, setDinode_disk_self]
    · exact (hlo rfl).init
    · decide
  | freeing e =>
    cases h
    have hlf := hlo rfl
    refine hl.touch hr (hm rfl) rfl rfl rfl rfl rfl rfl (fun _ _ => setDinode_disk_ne) (hold rfl) (.inl rfl)
      ?_ (fun q hqp hq _ => absurd hq (halone rfl rfl hqp)) ?_ <;> simp only [update, setPc, setDinode_disk_self]
    · exact hlf.freeing
    · rw [hlf.data (hlf.read (by simp))]
      exact hl.nonneg _ _
  | freed e =>
    cases h
    exact hl.touch hr (hm rfl) rfl rfl rfl rfl rfl rfl (fun _ _ _ => rfl) (hold rfl) (.inl rfl)
      (hlo rfl).freed (fun q hqp hq _ => absurd hq (halone rfl rfl hqp)) (hl.nonneg _ _)
  | dropping e =>
    cases h
    exact linked_drop hr hl ⟨hm rfl, .inl hk⟩

/-! ## The last reference -/

theorem linked_step {ev : Pid × Op} (hr : Refs s) (hl : Linked s)
    (hd : Disciplined s ev) (hn : NoReuse s ev) (h : step s ev = some s') : Linked s' := by
  obtain ⟨p, op⟩ := ev
  rcases step_cases h with ⟨hpc, hcall⟩ | ⟨rfl, hresume⟩
  · exact linked_call hr hl hd hpc hcall
  · exact linked_resume hr hl hn rfl hresume

theorem linked_boot (ninodes : Nat) {disk : Nat → Nat → Dinode}
    (hdisk : ∀ d i, 0 ≤ (disk d i).nlink ∧ ((disk d i).type ≠ 0 → 0 < (disk d i).nlink)) :
    Linked (boot ninodes disk) := by
  refine ⟨?_, fun d i => (hdisk d i).1, ?_, ?_, ?_⟩
  · intro p e h
    cases h
  · intro p d i h
    cases h
  · intro p q d i h
    cases h
  · intro d i ht hn
    have := (hdisk d i).2 ht
    simp only [boot] at hn
    omega

/-- When the last reference to an entry is dropped, its inode is free or has links. -/
def LastRefFreed (s s' : State) : Prop :=
  ∀ e, 0 < (s.inode e).ref → (s'.inode e).ref = 0 →
    (s'.dinode e).type = 0 ∨ 0 < (s'.dinode e).nlink

/-- An unlinked inode has been freed when the last reference to it is dropped, provided that no
`ialloc` takes an inode while an `iput` is between freeing it and dropping its reference. -/
theorem last_ref_freed (ninodes : Nat) (disk : Nat → Nat → Dinode)
    (hdisk : ∀ d i, 0 ≤ (disk d i).nlink ∧ ((disk d i).type ≠ 0 → 0 < (disk d i).nlink))
    (es : List (Pid × Op)) (s s' : State) (ev : Pid × Op)
    (hes : Trans.AllSteps step (fun s ev => Disciplined s ev ∧ NoReuse s ev) (boot ninodes disk) es)
    (hrun : Trans.run step (boot ninodes disk) es = some s) (hstep : step s ev = some s') : LastRefFreed s s' := by
  obtain ⟨hr, hl⟩ : Refs s ∧ Linked s :=
    Trans.run_inv_of (I := fun s => Refs s ∧ Linked s)
      (fun _ _ _ hi hc h => ⟨refs_step hi.1 h, linked_step hi.1 hi.2 hc.1 hc.2 h⟩)
      ⟨refs_boot ninodes disk, linked_boot ninodes hdisk⟩ hes hrun
  intro e hpos hz
  obtain ⟨c, -, hch, -⟩ := step_change hr hstep
  cases hch with
  | still _ hinode =>
    have := (hinode e).2.2
    omega
  | iget dev inum e' x he _ hinode =>
    rw [hinode, update_apply] at hz
    split at hz
    · rcases igetEntry_cases he with ⟨-, -, -, rfl⟩ | ⟨-, -, rfl⟩ <;> cases hz
    · omega
  | idup e' _ hs =>
    subst hs
    simp only [idup, hold, setInode, update_apply] at hz
    split at hz
    · cases hz
    · omega
  | drop e' hd hs =>
    subst hs
    simp only [drop, setPc, unhold, setInode, update_apply] at hz
    split at hz
    · rename_i he
      subst he
      have h1 : (s.inode e).ref = 1 := by
        simp only at hz
        omega
      have hdi : (drop s ev.1 e).dinode e = s.dinode e := by
        simp [dinode, drop, setPc, unhold, setInode]
      rw [hdi]
      refine drop_last (p := ev.1) hl ?_ h1
      rcases hd with hd | ⟨-, hm, hd⟩
      · exact ⟨hr.pc _ e (by rw [hd]; rfl), .inl hd⟩
      · exact ⟨hm, .inr hd⟩
    · omega
  | give q e' _ _ _ hs =>
    subst hs
    simp only [hold, unhold] at hz
    omega

theorem twoInodes_linked (d i : Nat) :
    0 ≤ (twoInodes d i).nlink ∧ ((twoInodes d i).type ≠ 0 → 0 < (twoInodes d i).nlink) := by
  unfold twoInodes
  split <;> decide

theorem last_ref_freed_lookup : ∃ s s', Trans.run step (boot 3 twoInodes) [(1, .iget 1 2)] = some s ∧
      step s (1, .iput 0) = some s' ∧ (s.inode 0).ref = 1 ∧ (s'.inode 0).ref = 0 ∧ LastRefFreed s s' := by
  refine ⟨_, _, rfl, rfl, rfl, rfl, ?_⟩
  refine last_ref_freed 3 twoInodes twoInodes_linked [(1, .iget 1 2)] _ _ (1, .iput 0) ?_ rfl rfl
  refine ⟨⟨⟨fun dev inum h => ?_, fun e n h => ?_⟩, fun dev type inum h => ?_⟩, fun _ _ => trivial⟩
  · cases h
    decide
  · cases h
  · cases h

/-- Process 1 unlinks and puts inode 2 and is about to drop its reference, when process 2 allocates
the inode again, fails to link it, and puts it. -/
def reuse : List (Pid × Op) :=
  [(1, .iget 1 2), (1, .ilock 0), (1, .tau), (1, .setNlink 0 0), (1, .iunlock 0), (1, .iput 0),
    (1, .tau), (1, .tau),
    (2, .ialloc 1 .file), (2, .tau), (2, .tau), (2, .tau), (2, .tau), (2, .tau), (2, .tau),
    (2, .setNlink 0 0), (2, .iunlock 0), (2, .iput 0)]

/-- After `reuse` neither process frees inode 2 a second time: process 2 has seen the reference of
process 1, and process 1 is past the test. The last reference is dropped while the inode is
allocated and has no link. -/
theorem reuse_leaks : ∃ s s', Trans.run step (boot 3 twoInodes) reuse = some s ∧ step s (1, .tau) = some s' ∧
      (s.inode 0).ref = 1 ∧ (s'.inode 0).ref = 0 ∧ s'.dinode 0 = { type := 2, nlink := 0 } ∧
      ¬ LastRefFreed s s' := by
  obtain ⟨s, hs, s', hs', h1, h2, h3⟩ : ∃ s ∈ Trans.run step (boot 3 twoInodes) reuse, ∃ s' ∈ step s (1, .tau),
      (s.inode 0).ref = 1 ∧ (s'.inode 0).ref = 0 ∧ s'.dinode 0 = { type := 2, nlink := 0 } := by decide +kernel
  refine ⟨s, s', hs, hs', h1, h2, h3, fun hl => ?_⟩
  have := hl 0 (by omega) h2
  rw [h3] at this
  simp at this

end Itable
end Xv6
