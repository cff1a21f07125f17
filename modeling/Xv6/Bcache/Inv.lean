import Xv6.Bcache.Model

/-!
# Xv6.Bcache.Inv

The representation invariant of the buffer list, in every state that `bget`, `brelse`, `bpin` and
`bunpin` can reach from `binit`.

* `Inv`: the links form one ring through `bcache.head` and all buffers, no block is cached twice, and
  the reference counts are exact.
* `bget_cases`: the two loops of `bget` end, at the first buffer of the list with the block or else at
  the last one without references.
* `bcache_invariant`: the invariant holds in every run, and no step re-labels a buffer in use.
-/

namespace Xv6
namespace Bcache

open Links State Function List

/-- Following `next` from `bcache.head` visits the buffers in the order `l`. -/
def Lru (s : State) (l : List BufId) : Prop := Circular s.next s.prev .head (l.map .buf)

structure Inv (s : State) : Prop where
  ring : ∃ l, l.Perm (finRange NBUF) ∧ Lru s l
  unique : ∀ i j, s.dev i ≠ 0 → s.dev i = s.dev j → s.blockno i = s.blockno j → i = j
  refcnt : ∀ i, s.refcnt i = UInt32.ofNat (Tokens.count s.held i + s.pins i)

variable {s s' : State} {l : List BufId} {i : BufId}

theorem find?_test (f : BufId → Bool) (l : List BufId) :
    (l.map Node.buf).find? (Node.test f) = (l.find? f).map .buf := by
  rw [find?_map]
  rfl

/-- The first loop of `bget` ends at the first buffer of the list that has the block. -/
theorem findCached_eq (h : Lru s l) (hl : l.length = NBUF) (dev blockno : UInt32) : findCached s dev blockno =
      some (((l.find? fun i => s.dev i = dev ∧ s.blockno i = blockno).map .buf).getD .head) := by
  rw [findCached, scan_eq h (by simp [hl]), find?_test]

/-- The second loop ends at the last buffer of the list without references. -/
theorem findUnused_eq (h : Lru s l) (hl : l.length = NBUF) :
    findUnused s = some (((l.reverse.find? fun i => s.refcnt i = 0).map .buf).getD .head) := by
  rw [findUnused, scan_eq (Circular.symm h) (by simp [hl]), ← map_reverse, find?_test]

theorem length_lru (hp : l.Perm (finRange NBUF)) : l.length = NBUF := by
  rw [hp.length_eq, length_finRange]

/-- `bget` returns the buffer that has the block, or re-labels one without references when there is
none; otherwise it panics. -/
theorem bget_cases {dev blockno : UInt32} {r : State × BufId} (h : Inv s) (hb : bget s dev blockno = some r) :
    (s.dev r.2 = dev ∧ s.blockno r.2 = blockno ∧ r.1 = s.setRefcnt r.2 (s.refcnt r.2 + 1)) ∨
      ((∀ i, ¬ (s.dev i = dev ∧ s.blockno i = blockno)) ∧ s.refcnt r.2 = 0 ∧ r.1 = s.relabel r.2 dev blockno) := by
  obtain ⟨l, hp, hl⟩ := h.ring
  rw [bget, findCached_eq hl (length_lru hp), findUnused_eq hl (length_lru hp)] at hb
  cases hc : l.find? fun i => decide (s.dev i = dev ∧ s.blockno i = blockno) with
  | some i =>
    rw [hc] at hb
    cases hb
    have hi := find?_some hc
    simp only [decide_eq_true_eq] at hi
    exact .inl ⟨hi.1, hi.2, rfl⟩
  | none =>
    rw [hc] at hb
    cases hu : l.reverse.find? fun i => decide (s.refcnt i = 0) with
    | none =>
      rw [hu] at hb
      cases hb
    | some i =>
      rw [hu] at hb
      cases hb
      have hi := find?_some hu
      simp only [decide_eq_true_eq] at hi
      refine .inr ⟨fun j => ?_, hi, rfl⟩
      have hj := find?_eq_none.mp hc j (hp.mem_iff.mpr (mem_finRange j))
      simpa only [decide_eq_true_eq] using hj

/-! ## Each operation keeps the invariant -/

theorem Lru.insertHead (h : Lru s l) (hi : i ∉ l) : Lru (s.insertHead i) (i :: l) :=
  Circular.insert h (by simpa using hi)

theorem Lru.unlinkBuf {l1 l2 : List BufId} (h : Lru s (l1 ++ i :: l2)) : Lru (s.unlinkBuf i) (l1 ++ l2) := by
  unfold Lru at h ⊢
  rw [map_append, map_cons] at h
  rw [map_append]
  exact Circular.unlink h

theorem ring_front (h : ∃ l, l.Perm (finRange NBUF) ∧ Lru s l) (i : BufId) :
    ∃ l, l.Perm (finRange NBUF) ∧ Lru ((s.unlinkBuf i).insertHead i) l := by
  obtain ⟨l, hp, hl⟩ := h
  obtain ⟨l1, l2, rfl⟩ := append_of_mem (hp.mem_iff.mpr (mem_finRange i))
  have hnd : (l1 ++ i :: l2).Nodup := hp.nodup_iff.mpr (nodup_finRange NBUF)
  refine ⟨i :: (l1 ++ l2), perm_middle.symm.trans hp, hl.unlinkBuf.insertHead ?_⟩
  exact (nodup_cons.mp (nodup_middle.mp hnd)).1

theorem ofNat_succ (n : Nat) : UInt32.ofNat (n + 1) = UInt32.ofNat n + 1 := UInt32.ofNat_add n 1

theorem inv_bget {p : Pid} {dev blockno : UInt32} {r : State × BufId} (h : Inv s)
    (hb : bget s dev blockno = some r) : Inv { r.1 with held := (p, r.2) :: s.held } := by
  obtain ⟨t, i⟩ := r
  have hcount : Tokens.count ((p, i) :: s.held) i + s.pins i = Tokens.count s.held i + s.pins i + 1 := by
    rw [Tokens.count_cons, if_pos rfl]
    omega
  obtain ⟨-, -, ht⟩ | ⟨hnew, h0, ht⟩ := bget_cases h hb
  · dsimp only at ht
    subst ht
    refine ⟨h.ring, h.unique, fun j => ?_⟩
    by_cases hji : j = i
    · subst hji
      simp only [setRefcnt, update_self, hcount]
      rw [ofNat_succ, h.refcnt]
    · simp [setRefcnt, h.refcnt, Tokens.count_cons, hji, Ne.symm hji]
  · dsimp only at ht h0
    subst ht
    refine ⟨h.ring, fun j k hj hjk hbn => ?_, fun j => ?_⟩
    · simp only [relabel, update_apply] at hj hjk hbn
      by_cases hji : j = i <;> by_cases hki : k = i
      · rw [hji, hki]
      · simp only [hji, hki, if_true, if_false] at hjk hbn
        exact absurd ⟨hjk.symm, hbn.symm⟩ (hnew k)
      · simp only [hji, hki, if_true, if_false] at hjk hbn
        exact absurd ⟨hjk, hbn⟩ (hnew j)
      · simp only [hji, hki, if_false] at hj hjk hbn
        exact h.unique j k hj hjk hbn
    · by_cases hji : j = i
      · subst hji
        simp only [relabel, update_self, hcount]
        rw [ofNat_succ, ← h.refcnt, h0]
        rfl
      · simp [relabel, h.refcnt, Tokens.count_cons, hji, Ne.symm hji]

theorem Inv.drop (h : Inv s) {held : List (Pid × BufId)} {pins : BufId → Nat}
    (hi : Tokens.count s.held i + s.pins i = Tokens.count held i + pins i + 1)
    (hne : ∀ j, j ≠ i → Tokens.count held j + pins j = Tokens.count s.held j + s.pins j) :
    Inv { s.setRefcnt i (s.refcnt i - 1) with held := held, pins := pins } := by
  refine ⟨h.ring, h.unique, fun j => ?_⟩
  by_cases hji : j = i
  · subst hji
    simp only [setRefcnt, update_self]
    rw [h.refcnt, hi, ofNat_succ, UInt32.add_sub_cancel]
  · simp [setRefcnt, hji, h.refcnt, hne j hji]

theorem inv_brelse {p : Pid} (h : Inv s) (hm : (p, i) ∈ s.held) :
    Inv { brelse s i with held := s.held.erase (p, i) } := by
  have hd : Inv { s.setRefcnt i (s.refcnt i - 1) with held := s.held.erase (p, i), pins := s.pins } := by
    refine h.drop ?_ fun j hj => ?_
    · rw [Tokens.count_erase hm i, if_pos rfl]
      omega
    · rw [Tokens.count_erase hm j, if_neg (Ne.symm hj)]
      rfl
  unfold brelse
  dsimp only
  split
  · exact ⟨ring_front hd.ring i, hd.unique, hd.refcnt⟩
  · exact hd

theorem inv_bpin (h : Inv s) : Inv { bpin s i with pins := update s.pins i (s.pins i + 1) } := by
  refine ⟨h.ring, h.unique, fun j => ?_⟩
  by_cases hji : j = i
  · subst hji
    simp only [bpin, setRefcnt, update_self]
    rw [← Nat.add_assoc, ofNat_succ, h.refcnt]
  · simp [bpin, setRefcnt, h.refcnt, hji]

theorem inv_bunpin (h : Inv s) (hp : s.pins i ≠ 0) :
    Inv { bunpin s i with pins := update s.pins i (s.pins i - 1) } := by
  refine h.drop ?_ fun j hj => ?_
  · simp only [bunpin, setRefcnt, update_self]
    omega
  · simp only [bunpin, setRefcnt, update_of_ne hj]

theorem inv_step {ev : Pid × Op} (h : Inv s) (hs : step s ev = some s') : Inv s' := by
  obtain ⟨p, op⟩ := ev
  cases op with
  | bget dev blockno =>
    simp only [step] at hs
    split at hs
    · cases hs
    · obtain ⟨r, hr, rfl⟩ := Option.map_eq_some_iff.mp hs
      exact inv_bget h hr
  | brelse i =>
    simp only [step] at hs
    split at hs
    · rename_i hm
      cases hs
      exact inv_brelse h hm
    · cases hs
  | bpin i =>
    cases hs
    exact inv_bpin h
  | bunpin i =>
    simp only [step] at hs
    split at hs
    · cases hs
    · rename_i hp
      cases hs
      exact inv_bunpin h hp

/-! ## Runs -/

theorem lru_insertAll (bs : List BufId) : ∀ {l : List BufId} {s : State}, Lru s l → (bs.reverse ++ l).Nodup →
      Lru (bs.foldl insertHead s) (bs.reverse ++ l) := by
  induction bs with
  | nil =>
    intro l s h _
    exact h
  | cons b bs ih =>
    intro l s h hnd
    rw [reverse_cons, append_assoc] at hnd ⊢
    refine ih (h.insertHead ?_) hnd
    exact (nodup_cons.mp (nodup_append.mp hnd).2.1).1

theorem foldl_insertHead (bs : List BufId) :
    ∀ s : State, ∃ next prev, bs.foldl insertHead s = { s with next := next, prev := prev } := by
  induction bs with
  | nil =>
    intro s
    exact ⟨s.next, s.prev, rfl⟩
  | cons b bs ih =>
    intro s
    obtain ⟨next, prev, h⟩ := ih (s.insertHead b)
    exact ⟨next, prev, h⟩

theorem inv_binit : Inv binit := by
  obtain ⟨next, prev, he⟩ := foldl_insertHead (finRange NBUF) reset
  have hlru : Lru binit ((finRange NBUF).reverse ++ []) :=
    lru_insertAll (finRange NBUF) (l := []) ⟨by simp [Linked, reset], by simp⟩ (by simp [nodup_finRange])
  have hdev : binit.dev = fun _ => 0 := by
    rw [binit, he]
    rfl
  refine ⟨⟨_, by simp [reverse_perm], hlru⟩, fun i j hi => absurd (congrFun hdev i) hi, fun i => ?_⟩
  rw [binit, he]
  rfl

/-- Only `bget` changes labels, and only of a buffer without references. -/
theorem step_label {ev : Pid × Op} (h : Inv s) (hs : step s ev = some s') (hi : s.refcnt i ≠ 0) :
    s'.dev i = s.dev i ∧ s'.blockno i = s.blockno i := by
  obtain ⟨p, op⟩ := ev
  cases op with
  | bget dev blockno =>
    simp only [step] at hs
    split at hs
    · cases hs
    · obtain ⟨⟨t, j⟩, hr, rfl⟩ := Option.map_eq_some_iff.mp hs
      obtain ⟨-, -, ht⟩ | ⟨-, h0, ht⟩ := bget_cases h hr
      · dsimp only at ht
        subst ht
        exact ⟨rfl, rfl⟩
      · dsimp only at ht h0
        subst ht
        have hij : i ≠ j := fun e => hi (e ▸ h0)
        exact ⟨update_of_ne hij _ _, update_of_ne hij _ _⟩
  | brelse j =>
    simp only [step] at hs
    split at hs
    · cases hs
      unfold brelse
      dsimp only
      split <;> exact ⟨rfl, rfl⟩
    · cases hs
  | bpin j =>
    cases hs
    exact ⟨rfl, rfl⟩
  | bunpin j =>
    simp only [step] at hs
    split at hs
    · cases hs
    · cases hs
      exact ⟨rfl, rfl⟩

/-- In every run from `binit`: one ring of all buffers, no block cached twice, exact reference counts
(in the arithmetic of `uint`), and no step re-labels a buffer whose reference count is not zero. -/
theorem bcache_invariant {evs : List (Pid × Op)} (hr : Trans.run step binit evs = some s) :
    (∃ l : List BufId, l.Perm (finRange NBUF) ∧ Circular s.next s.prev .head (l.map .buf)) ∧
      (∀ i j, s.dev i ≠ 0 → s.dev i = s.dev j → s.blockno i = s.blockno j → i = j) ∧
      (∀ i, (s.refcnt i).toNat = (Tokens.count s.held i + s.pins i) % 2 ^ 32) ∧
      ∀ ev s', step s ev = some s' → ∀ i, s.refcnt i ≠ 0 → s'.dev i = s.dev i ∧ s'.blockno i = s.blockno i := by
  have h : Inv s := Trans.run_inv (fun _ _ _ h hs => inv_step h hs) inv_binit hr
  refine ⟨h.ring, h.unique, fun i => ?_, fun ev s' hs i hi => step_label h hs hi⟩
  rw [h.refcnt, UInt32.toNat_ofNat']

/-- Two processes get the same block, one of them pins it and releases it; the buffer has two
references then, and is not at the front of the list. -/
theorem bcache_invariant_shared : ∃ s, Trans.run step binit
      [(1, .bget 1 5), (2, .bget 1 5), (1, .bpin 0), (1, .brelse 0)] = some s ∧
    s.refcnt 0 = 2 ∧ ((s.refcnt 0).toNat = (Tokens.count s.held 0 + s.pins 0) % 2 ^ 32) := by
  obtain ⟨s, hr, hs⟩ : ∃ s ∈ Trans.run step binit [(1, .bget 1 5), (2, .bget 1 5), (1, .bpin 0), (1, .brelse 0)],
      s.refcnt 0 = 2 := by decide +kernel
  exact ⟨s, hr, hs, (bcache_invariant hr).2.2.1 0⟩

end Bcache
end Xv6
