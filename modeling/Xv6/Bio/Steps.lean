import Xv6.Bio.Inv

/-!
# Xv6.Bio.Steps

`Inv` is kept by the functions of `bio.c` and by `log_write`.

* `Inv.touch`: steps on one locked buffer (`acquiresleep`, the read in `bread`, `bwrite`, `brelse`).
* `Inv.recount`: steps that change a reference count (`bget`, `brelse`, `bpin`, `bunpin`).
* `inv_logWrite`: both branches, absorption and a new slot.
-/

namespace Xv6
namespace Bio

open Log (LogHeader IsHome slot_cases add_of_mem add_of_notMem)
open State Function

section Parts

variable {L : Config} {s s' : State} {p : Pid} {i : BufId} {x : Buf} {c : Pc} {A : Nat → Block}
variable {q : Pid} {j : BufId} {b : Nat} {k : Cont}

theorem Refs.refcnt_pos (h : Refs L s) (hq : (q, j) ∈ s.held) : 0 < (s.buf j).refcnt := by
  have := Tokens.count_pos hq
  rw [h.count]
  omega

theorem Refs.not_dirty (h : Refs L s) (hj : (s.buf j).lock = none) : s.dirty j = false := by
  by_contra hd
  exact (h.dirty j (by simpa using hd)).1 hj

theorem Refs.valid_of_lock (h : Refs L s) (hj : (s.buf j).lock = some q)
    (hpc : ∀ b k, s.pc q ≠ .fill j b k) : (s.buf j).valid = true := by
  rcases (h.lock j q hj).2.2 with hv | ⟨b, k, hk⟩
  · exact hv
  · exact absurd hk (hpc b k)

theorem Pinned.congr (h : Pinned L s)
    (hb : ∀ j, (s'.buf j).dev = (s.buf j).dev ∧ (s'.buf j).blockno = (s.buf j).blockno ∧
      ((s.buf j).valid = true → (s'.buf j).valid = true))
    (hpins : s'.pins = s.pins) (hs : Logged s' = Logged s) : Pinned L s' := by
  refine ⟨fun j => ?_, fun b hl => ?_⟩
  · obtain ⟨h1, h2, h3⟩ := hb j
    rw [h1, h2, hpins, hs]
    rcases h.pins j with ⟨g1, g2, g3, g4⟩ | g
    · exact .inl ⟨g1, g2, h3 g3, g4⟩
    · exact .inr g
  · rw [hs] at hl
    obtain ⟨j, g1, g2⟩ := h.cached b hl
    exact ⟨j, (hb j).1.trans g1, (hb j).2.1.trans g2⟩

theorem Pinned.pin (h : Pinned L s) (hdev : (s.buf i).dev = L.dev) (hl : Logged s (s.buf i).blockno) : s.pins i = 1 := by
  rcases h.pins i with h | ⟨-, h⟩
  · exact h.1
  · exact absurd ⟨hdev, hl⟩ h

/-- A step of `p` that changes buffer `i`, but neither its label nor its count. -/
structure Touch (s s' : State) (p : Pid) (c : Pc) (i : BufId) (x : Buf) : Prop where
  buf : s'.buf = update s.buf i x
  pc : s'.pc = update s.pc p c
  held : s'.held = s.held
  lru : s'.lru = s.lru
  pins : s'.pins = s.pins
  lh : s'.lh = s.lh
  outstanding : s'.outstanding = s.outstanding
  committing : s'.committing = s.committing
  unpinned : s'.unpinned = s.unpinned
  dev : x.dev = (s.buf i).dev
  blockno : x.blockno = (s.buf i).blockno
  refcnt : x.refcnt = (s.buf i).refcnt
  dirty : ∀ j, j ≠ i → s'.dirty j = s.dirty j

section

variable (t : Touch s s' p c i x)
include t

theorem Touch.buf_self : s'.buf i = x := by rw [t.buf, update_self]

theorem Touch.buf_ne (hj : j ≠ i) : s'.buf j = s.buf j := by
  rw [t.buf, update_of_ne hj]

theorem Touch.pc_ne (hq : q ≠ p) : s'.pc q = s.pc q := by
  rw [t.pc, update_of_ne hq]

theorem Touch.label (j : BufId) : (s'.buf j).dev = (s.buf j).dev ∧
    (s'.buf j).blockno = (s.buf j).blockno ∧ (s'.buf j).refcnt = (s.buf j).refcnt := by
  by_cases he : j = i
  · subst he; rw [t.buf_self]; exact ⟨t.dev, t.blockno, t.refcnt⟩
  · rw [t.buf_ne he]; exact ⟨rfl, rfl, rfl⟩

theorem Touch.logged : Logged s' = Logged s := by
  funext b
  simp only [Logged, t.lh, t.unpinned]

theorem Touch.owns {d : Bool} (h : Owns s q j b d) (hne : j ≠ i) : Owns s' q j b d :=
  ⟨by rw [t.buf_ne hne]; exact h.lock, by rw [t.buf_ne hne]; exact h.blockno,
    by rw [t.buf_ne hne]; exact h.valid, (t.dirty j hne).trans h.dirty⟩

theorem Touch.owns_self {d d' : Bool} (h : Owns s q i b d) (hl : x.lock = (s.buf i).lock) (hv : x.valid = (s.buf i).valid)
    (hd : s'.dirty i = d') : Owns s' q i b d' := by
  have hx := t.buf_self
  exact ⟨hx ▸ hl.trans h.lock, hx ▸ t.blockno.trans h.blockno, hx ▸ hv.trans h.valid, hd⟩

theorem Touch.refs (h : Refs L s) (hheld : (p, i) ∈ s.held)
    (hdev : (s.buf i).dev = L.dev) (hlock : x.lock = none ∨ x.lock = some p)
    (hvalid : x.lock = some p → x.valid = true ∨ ∃ b k, c = .fill i b k)
    (hdirty : s'.dirty i = true → x.lock = some p ∧ x.valid = true)
    (hfill : ∀ j b k, s.pc p = .fill j b k → j = i) : Refs L s' := by
  refine ⟨by rw [t.lru]; exact h.all, ?_, ?_, ?_, ?_⟩
  · intro j k hj hk hb
    rw [(t.label j).1] at hj
    rw [(t.label k).1] at hk
    rw [(t.label j).2.1, (t.label k).2.1] at hb
    exact h.uniq j k hj hk hb
  · intro j
    rw [(t.label j).2.2, t.held, t.pins]
    exact h.count j
  · intro j q hj
    rw [t.held]
    by_cases he : j = i
    · subst he
      rw [t.buf_self] at hj ⊢
      obtain rfl : q = p := by
        rcases hlock with hl | hl <;> rw [hl] at hj <;> cases hj
        rfl
      rw [t.dev, t.pc, update_self]
      exact ⟨hheld, hdev, hvalid hj⟩
    · rw [t.buf_ne he] at hj ⊢
      by_cases hq : q = p
      · subst hq
        obtain ⟨h1, h2, -⟩ := h.lock j q hj
        exact ⟨h1, h2, .inl (h.valid_of_lock hj fun b k hk => he (hfill j b k hk))⟩
      · rw [t.pc_ne hq]
        exact h.lock j q hj
  · intro j hj
    by_cases he : j = i
    · subst he
      rw [t.buf_self]
      exact ⟨by simp [(hdirty hj).1], (hdirty hj).2⟩
    · rw [t.buf_ne he]
      rw [t.dirty j he] at hj
      exact h.dirty j hj

theorem Touch.pinned (h : Pinned L s)
    (hv : (s.buf i).valid = true → x.valid = true) : Pinned L s' := by
  refine h.congr (fun j => ⟨(t.label j).1, (t.label j).2.1, fun g => ?_⟩) t.pins t.logged
  by_cases he : j = i
  · subst he; rw [t.buf_self]; exact hv g
  · rw [t.buf_ne he]; exact g

theorem Touch.holds {A' : Nat → Block} (hi : Inv L s A)
    (hdev : (s.buf i).dev = L.dev) (hA : ∀ b, b ≠ (s.buf i).blockno → A' b = A b)
    (hdata : x.valid = true → x.data = A' (s.buf i).blockno)
    (hdisk : ∀ b, b ≠ (s.buf i).blockno → s'.disk b = s.disk b)
    (hself : s'.disk (s.buf i).blockno = A' (s.buf i).blockno ∨ x.valid = true ∧ (s.pins i = 1 ∨ s'.dirty i = true))
    (hcop : ∀ j : Nat, j < s'.copied → (j : Int) < s.lh.n → A' (L.start + j + 1) = A' (s.lh.block j) ∨
      ∃ m, (s.buf m).dev = L.dev ∧ (s.buf m).blockno = s.lh.block j ∧ s'.dirty m = true) : Holds L s' A' := by
  refine ⟨fun j hj hv => ?_, fun b => ?_, fun j hj hn => ?_⟩
  · by_cases he : j = i
    · subst he
      rw [t.buf_self] at hv ⊢
      rw [t.blockno]
      exact hdata hv
    · rw [t.buf_ne he] at hj hv ⊢
      rw [hA _ fun hb => he (hi.refs.uniq j i hj hdev hb)]
      exact hi.holds.data j hj hv
  · by_cases hb : b = (s.buf i).blockno
    · subst hb
      rcases hself with h | ⟨h1, h2⟩
      · exact .inl h
      · refine .inr ⟨i, (t.label i).1.trans hdev, (t.label i).2.1, ?_, t.pins ▸ h2⟩
        rw [t.buf_self]; exact h1
    · rw [hdisk b hb, hA b hb, t.pins]
      rcases hi.holds.disk b with h | ⟨j, h1, h2, h3, h4⟩
      · exact .inl h
      · have he : j ≠ i := by
          rintro rfl
          exact hb h2.symm
        exact .inr ⟨j, by rw [t.buf_ne he]; exact ⟨h1, h2, h3, by rwa [t.dirty j he]⟩⟩
  · rw [t.lh] at hn ⊢
    rcases hcop j hj hn with h | ⟨m, h1, h2, h3⟩
    · exact .inl h
    · exact .inr ⟨m, (t.label m).1.trans h1, (t.label m).2.1.trans h2, h3⟩

end

/-- The step of a process on a buffer that it has locked, or takes the lock of. -/
theorem Inv.touch {A' : Nat → Block} (hi : Inv L s A) (t : Touch s s' p c i x)
    (hold : (s.buf i).lock = some p ∨ (s.buf i).lock = none ∧ (p, i) ∈ s.held ∧ (s.buf i).dev = L.dev)
    (hlock : x.lock = none ∨ x.lock = some p) (hvalid : x.lock = some p → x.valid = true ∨ ∃ b k, c = .fill i b k)
    (hdirty : s'.dirty i = true → x.lock = some p ∧ x.valid = true) (hmono : (s.buf i).valid = true → x.valid = true)
    (hfill : ∀ j b k, s.pc p = .fill j b k → j = i) (hc : c.commits = (s.pc p).commits)
    (hcop : (s.pc p).commits = false → s'.copied = s.copied)
    (hdisk : ∀ b, b ≠ (s.buf i).blockno → s'.disk b = s.disk b)
    (hholds : (s.buf i).dev = L.dev → Holds L s' A') (hp : PcOk L s' p c) : Inv L s' A' := by
  obtain ⟨hheld, hdev⟩ : (p, i) ∈ s.held ∧ (s.buf i).dev = L.dev := by
    rcases hold with h | h
    · exact ⟨(hi.refs.lock i p h).1, (hi.refs.lock i p h).2.1⟩
    · exact h.2
  have hother : ∀ q, q ≠ p → (s.buf i).lock ≠ some q := by
    intro q hq h
    rcases hold with h1 | ⟨h1, -⟩ <;> rw [h1] at h <;> cases h
    exact hq rfl
  have hother' : ∀ q, q ≠ p → x.lock ≠ some q := by
    intro q hq h
    rcases hlock with h1 | h1 <;> rw [h1] at h <;> cases h
    exact hq rfl
  exact ⟨t.refs hi.refs hheld hdev hlock hvalid hdirty hfill, t.lh ▸ hi.header, t.pinned hi.pinned hmono,
    hi.committing.step t.pc t.committing t.outstanding hc fun h => ⟨hcop h, t.unpinned⟩,
    hholds hdev,
    hi.pc_step t.pc (keeps_locked hi.refs t.buf t.dev t.blockno t.held hother hother' t.dirty
      (.inr ⟨hdev, hdisk⟩)) (fun _ h => ⟨t.lh, hcop h, t.unpinned⟩) hp⟩

theorem Touch.holds_same (t : Touch s s' p c i x) (hi : Inv L s A) (hv : x.valid = (s.buf i).valid)
    (hd : x.data = (s.buf i).data) (hdisk : s'.disk = s.disk) (hdirty : s'.dirty i = s.dirty i)
    (hcop : s'.copied = s.copied) (hdev : (s.buf i).dev = L.dev) : Holds L s' A := by
  have hdirty' : s'.dirty = s.dirty := by
    funext j
    by_cases he : j = i
    · rw [he, hdirty]
    · exact t.dirty j he
  refine t.holds hi hdev (fun _ _ => rfl) ?_ (fun _ _ => by rw [hdisk]) ?_ ?_
  · rw [hv, hd]
    exact hi.holds.data i hdev
  · rw [hdisk, hv, hdirty]
    rcases hi.holds.disk (s.buf i).blockno with h | ⟨j, h1, h2, h3, h4⟩
    · exact .inl h
    · obtain rfl := hi.refs.uniq j i h1 hdev h2
      exact .inr ⟨h3, h4⟩
  · rw [hcop, hdirty']
    exact hi.holds.copied

/-! ## Locks -/

theorem inv_acquiresleep (hi : Inv L s A) (hpc : s.pc p = .acquire i b k)
    (h : acquiresleep s p i b k = some s') : Inv L s' A := by
  have hok := hi.pc p
  rw [hpc] at hok
  obtain ⟨h1, h2, h3, h4⟩ := hok
  unfold acquiresleep at h
  split at h <;> cases h
  rename_i hl
  have hd := hi.refs.not_dirty hl
  have t : Touch s ((s.setBuf i { s.buf i with lock := some p }).setPc p (.fill i b k)) p (.fill i b k) i
      { s.buf i with lock := some p } := by constructor <;> intros <;> rfl
  refine hi.touch t (.inr ⟨hl, h1, h2⟩) (.inr rfl) (fun _ => .inr ⟨b, k, rfl⟩)
    (fun h => by cases hd.symm.trans h) id (by simp [hpc]) (by rw [hpc]; rfl) (fun _ => rfl)
    (fun _ _ => rfl) (t.holds_same hi rfl rfl rfl rfl rfl)
    ⟨by rw [t.buf_self], by rw [t.buf_self]; exact h3, hd, h4.keep (fun _ => ⟨rfl, rfl, rfl⟩) fun l tail a hk ho => t.owns ho ?_⟩
  rintro rfl
  subst hk
  rw [h4.2.2.2.lock] at hl
  cases hl

theorem touch_brelse (s : State) (p : Pid) (i : BufId) (k : Next) :
    Touch s (brelse s p i k) p (.deref i k) i { s.buf i with lock := none } := by
  constructor <;> intros <;> rfl

theorem inv_brelse {k : Next} (hi : Inv L s A) (hl : (s.buf i).lock = some p) (hd : s.dirty i = false)
    (hfill : ∀ j b k, s.pc p ≠ .fill j b k) (hk : (Pc.deref i k).commits = (s.pc p).commits)
    (hp : NextOk (brelse s p i k) p k) : Inv L (brelse s p i k) A := by
  have t := touch_brelse s p i k
  exact hi.touch t (.inl hl) (.inl rfl) (by simp) (fun h => by cases hd.symm.trans h) id
    (fun j b k h => absurd h (hfill j b k)) hk (fun _ => rfl) (fun _ _ => rfl)
    (t.holds_same hi rfl rfl rfl rfl rfl)
    ⟨(hi.refs.lock i p hl).1, by rw [t.buf_self]; simp, hp⟩

/-! ## Reading a block -/

theorem ContOk.pc (h : ContOk L s p b k) (ho : Owns s p i b false) : PcOk L s p (k.pc i) := by
  cases k with
  | user => trivial
  | log l tail => exact ⟨h.1, h.2.1, h.2.2 ▸ ho⟩
  | home l tail a => exact ⟨h.1, h.2.1, h.2.2.2, h.2.2.1 ▸ ho⟩
  | head clear => exact ⟨h.1, h.2 ▸ ho⟩

theorem Cont.pc_commits (k : Cont) (i : BufId) : (k.pc i).commits = k.commits := by
  cases k <;> rfl

theorem Inv.disk_eq (hi : Inv L s A) (hdev : (s.buf i).dev = L.dev) (hv : (s.buf i).valid = false) :
    s.disk (s.buf i).blockno = A (s.buf i).blockno := by
  rcases hi.holds.disk (s.buf i).blockno with h | ⟨j, h1, h2, h3, -⟩
  · exact h
  · rw [hi.refs.uniq j i h1 hdev h2, hv] at h3
    cases h3

theorem Inv.slot_ne (hi : Inv L s A) {tail : Nat} (ht : (tail : Int) < s.lh.n) :
    L.start + tail + 1 ≠ s.lh.block tail := by
  have h1 := hi.header.home tail ht
  have h2 := hi.header.n_size
  intro he
  rcases h1 with h1 | h1 <;> omega

theorem Inv.turn_ne (hi : Inv L s A) {tail : Nat} {a m : BufId} {d d' : Bool} (ht : (tail : Int) < s.lh.n)
    (ha : Owns s p a (L.start + tail + 1) d) (hm : Owns s p m (s.lh.block tail) d') : m ≠ a := by
  rintro rfl
  exact hi.slot_ne ht (ha.blockno.symm.trans hm.blockno)

theorem inv_fill (hi : Inv L s A) (hpc : s.pc p = .fill i b k) : Inv L (fill s p i k) A := by
  have hok := hi.pc p
  rw [hpc] at hok
  obtain ⟨hl, hb, hd, hk⟩ := hok
  obtain ⟨hheld, hdev, -⟩ := hi.refs.lock i p hl
  -- in both branches the buffer becomes valid and holds the block of the array
  obtain ⟨v, hv, hs⟩ : ∃ v, v = A (s.buf i).blockno ∧
      Touch s (fill s p i k) p (k.pc i) i { s.buf i with data := v, valid := true } ∧
      (fill s p i k).disk = s.disk ∧ (fill s p i k).dirty = s.dirty ∧
      (fill s p i k).copied = s.copied := by
    unfold fill
    split
    · rename_i hv
      refine ⟨(s.buf i).data, hi.holds.data i hdev hv, ?_, rfl, rfl, rfl⟩
      have : ({ s.buf i with data := (s.buf i).data, valid := true } : Buf) = s.buf i := by rw [← hv]
      rw [this]
      constructor <;> intros <;> first | rfl | exact (update_eq_self i s.buf).symm
    · rename_i hv
      exact ⟨_, hi.disk_eq hdev (by simpa using hv), by constructor <;> intros <;> rfl, rfl, rfl, rfl⟩
  obtain ⟨t, hdisk, hdirty, hcop⟩ := hs
  refine hi.touch t (.inl hl) (.inr hl) (fun _ => .inl rfl) (fun h => by rw [hdirty, hd] at h; cases h)
    (fun _ => rfl) ?_ (by rw [hpc, Cont.pc_commits]; rfl) (fun _ => hcop) (fun _ _ => by rw [hdisk])
    (fun _ => ?_) ?_
  · intro j b' k' h
    rw [hpc] at h
    cases h
    rfl
  · refine t.holds hi hdev (fun _ _ => rfl) (fun _ => hv) (fun _ _ => by rw [hdisk]) ?_ ?_
    · rw [hdisk]
      rcases hi.holds.disk (s.buf i).blockno with h | ⟨j, h1, h2, h3, h4⟩
      · exact .inl h
      · obtain rfl := hi.refs.uniq j i h1 hdev h2
        exact .inr ⟨rfl, hdirty ▸ h4⟩
    · rw [hcop, hdirty]
      exact hi.holds.copied
  · have ho : Owns (fill s p i k) p i b false :=
      ⟨by rw [t.buf_self]; exact hl, by rw [t.buf_self]; exact hb, by rw [t.buf_self], by rw [hdirty, hd]⟩
    refine ContOk.pc (hk.keep (fun _ => ⟨t.lh, hcop, t.unpinned⟩) fun l tail a he hown => t.owns hown ?_) ho
    rintro rfl
    subst he
    exact hi.slot_ne hk.1 (by rw [← hk.2.2.2.blockno, hb, hk.2.2.1])

/-! ## Writing a buffer -/

/-- A process that has a valid buffer locked changes its data. -/
theorem Inv.dirtied {v : Block} {n : Nat} (hi : Inv L s A)
    (hs : s' = { (s.setData i v).setDirty i true with copied := n }.setPc p c)
    (hl : (s.buf i).lock = some p) (hfill : ∀ j b k, s.pc p ≠ .fill j b k)
    (hc : c.commits = (s.pc p).commits) (hcop : (s.pc p).commits = false → n = s.copied)
    (hslots : ∀ j : Nat, j < n → (j : Int) < s.lh.n →
      update A (s.buf i).blockno v (L.start + j + 1) =
        update A (s.buf i).blockno v (s.lh.block j) ∨
      ∃ m, (s.buf m).dev = L.dev ∧ (s.buf m).blockno = s.lh.block j ∧
        (m = i ∨ s.dirty m = true))
    (hp : Touch s s' p c i { s.buf i with data := v } → PcOk L s' p c) :
    Inv L s' (update A (s.buf i).blockno v) := by
  have hv := hi.refs.valid_of_lock hl (hfill i)
  have t : Touch s s' p c i { s.buf i with data := v } := by
    subst hs
    constructor <;> intros <;> first | rfl | (simp only [setPc, setDirty]; rw [update_of_ne ‹_›]; rfl)
  have hdi : s'.dirty i = true := by simp [hs, setPc, setDirty]
  have hdisk : s'.disk = s.disk := by rw [hs]; rfl
  have hcop' : s'.copied = n := by rw [hs]; rfl
  refine hi.touch t (.inl hl) (.inr hl) (fun _ => .inl hv) (fun _ => ⟨hl, hv⟩) id
    (fun j b k h => absurd h (hfill j b k)) hc (fun h => hcop'.trans (hcop h)) (fun _ _ => by rw [hdisk])
    (fun hdev => ?_) (hp t)
  refine t.holds hi hdev (fun b hb => update_of_ne hb _ _) (fun _ => by simp)
    (fun _ _ => by rw [hdisk]) (.inr ⟨hv, .inr hdi⟩) (fun j hj hn => ?_)
  rw [hcop'] at hj
  rcases hslots j hj hn with h | ⟨m, h1, h2, h3⟩
  · exact .inl h
  · refine .inr ⟨m, h1, h2, ?_⟩
    by_cases he : m = i
    · rw [he, hdi]
    · rw [t.dirty m he]
      exact h3.resolve_left he

/-- `bwrite` of a locked buffer whose block is outside the home blocks, or that is not dirty. -/
theorem Inv.written (hi : Inv L s A) (hs : s' = (bwrite s i).setPc p c)
    (hl : (s.buf i).lock = some p) (hfill : ∀ j b k, s.pc p ≠ .fill j b k) (hc : c.commits = (s.pc p).commits)
    (hhome : s.dirty i = false ∨ ¬ IsHome L.toConfig (s.buf i).blockno)
    (hp : Touch s s' p c i (s.buf i) → PcOk L s' p c) : Inv L s' A := by
  have hv := hi.refs.valid_of_lock hl (hfill i)
  have t : Touch s s' p c i (s.buf i) := by
    subst hs
    constructor <;> intros <;> first
      | rfl
      | exact (update_eq_self i s.buf).symm
      | (simp only [setPc, bwrite, setDirty]; rw [update_of_ne ‹_›])
  have hdi : s'.dirty i = false := by simp [hs, setPc, bwrite, setDirty]
  have hdisk : ∀ b, b ≠ (s.buf i).blockno → s'.disk b = s.disk b := by
    intro b hb
    rw [hs]
    exact update_of_ne hb _ _
  have hself : s'.disk (s.buf i).blockno = (s.buf i).data := by rw [hs]; exact update_self ..
  have hcop' : s'.copied = s.copied := by rw [hs]; rfl
  refine hi.touch t (.inl hl) (.inr hl) (fun _ => .inl hv) (fun h => by rw [hdi] at h; cases h) id
    (fun j b k h => absurd h (hfill j b k)) hc (fun _ => hcop') hdisk (fun hdev => ?_) (hp t)
  refine t.holds hi hdev (fun _ _ => rfl) (hi.holds.data i hdev) hdisk
    (.inl (hself.trans (hi.holds.data i hdev hv))) (fun j hj hn => ?_)
  rw [hcop'] at hj
  rcases hi.holds.copied j hj hn with h | ⟨m, h1, h2, h3⟩
  · exact .inl h
  · have he : m ≠ i := by
      rintro rfl
      rcases hhome with h | h
      · rw [h] at h3; cases h3
      · exact h (h2 ▸ hi.header.home j hn)
    exact .inr ⟨m, h1, h2, by rw [t.dirty m he]; exact h3⟩

/-! ## References and pins -/

def SameBufs (s s' : State) : Prop := ∀ j, (s'.buf j).dev = (s.buf j).dev ∧ (s'.buf j).blockno = (s.buf j).blockno ∧
  (s'.buf j).valid = (s.buf j).valid ∧ (s'.buf j).lock = (s.buf j).lock ∧ (s'.buf j).data = (s.buf j).data

theorem sameBufs_update {n : Nat} (hbuf : s'.buf = update s.buf i { s.buf i with refcnt := n }) : SameBufs s s' := by
  intro j
  rw [hbuf]
  by_cases he : j = i
  · subst he
    rw [update_self]
    exact ⟨rfl, rfl, rfl, rfl, rfl⟩
  · rw [update_of_ne he]
    exact ⟨rfl, rfl, rfl, rfl, rfl⟩

section

variable (hb : SameBufs s s')
include hb

theorem SameBufs.uniq (hr : Refs L s) (j m : BufId) : (s'.buf j).dev = L.dev → (s'.buf m).dev = L.dev →
    (s'.buf j).blockno = (s'.buf m).blockno → j = m := by
  rw [(hb j).1, (hb m).1, (hb j).2.1, (hb m).2.1]
  exact hr.uniq j m

/-- The block of buffer `i` comes into the log, and is pinned, or leaves it. -/
theorem SameBufs.pinned (hi : Inv L s A) (hdev : (s.buf i).dev = L.dev) (hne : ∀ j, j ≠ i → s'.pins j = s.pins j)
    (hlog : ∀ b, b ≠ (s.buf i).blockno → (Logged s' b ↔ Logged s b))
    (hself : s'.pins i = 1 ∧ (s.buf i).valid = true ∧ Logged s' (s.buf i).blockno ∨
      s'.pins i = 0 ∧ ¬ Logged s' (s.buf i).blockno) : Pinned L s' := by
  refine ⟨fun j => ?_, fun b hl => ?_⟩
  · rw [(hb j).1, (hb j).2.1, (hb j).2.2.1]
    by_cases he : j = i
    · rw [he]
      exact hself.imp (fun h => ⟨h.1, hdev, h.2⟩) fun h => ⟨h.1, fun hl => h.2 hl.2⟩
    · rw [hne j he]
      rcases hi.pinned.pins j with ⟨h1, h2, h3, h4⟩ | ⟨h1, h2⟩
      · exact .inl ⟨h1, h2, h3, (hlog _ fun hb => he (hi.refs.uniq j i h2 hdev hb)).mpr h4⟩
      · exact .inr ⟨h1, fun hl => h2 ⟨hl.1, (hlog _ fun hb => he (hi.refs.uniq j i hl.1 hdev hb)).mp hl.2⟩⟩
  · by_cases he : b = (s.buf i).blockno
    · exact ⟨i, (hb i).1.trans hdev, (hb i).2.1.trans he.symm⟩
    · obtain ⟨j, h1, h2⟩ := hi.pinned.cached b ((hlog b he).mp hl)
      exact ⟨j, (hb j).1.trans h1, (hb j).2.1.trans h2⟩

/-- The block of buffer `i` is on the disk, or the buffer is pinned now. -/
theorem SameBufs.holds (h : Holds L s A) (hdisk : s'.disk = s.disk) (hdev : (s.buf i).dev = L.dev)
    (hne : ∀ j, j ≠ i → s'.pins j = s.pins j ∧ s'.dirty j = s.dirty j)
    (hself : s.disk (s.buf i).blockno = A (s.buf i).blockno ∨ (s.buf i).valid = true ∧ s'.pins i = 1)
    (hcop : ∀ j : Nat, j < s'.copied → (j : Int) < s'.lh.n → A (L.start + j + 1) = A (s'.lh.block j) ∨
      ∃ m, (s.buf m).dev = L.dev ∧ (s.buf m).blockno = s'.lh.block j ∧ s'.dirty m = true) : Holds L s' A := by
  refine ⟨fun j => ?_, fun b => ?_, fun j hj hn => ?_⟩
  · obtain ⟨h1, h2, h3, -, h5⟩ := hb j
    rw [h1, h2, h3, h5]
    exact h.data j
  · rw [hdisk]
    by_cases hi : b = (s.buf i).blockno
    · rw [hi]
      exact hself.imp id fun h => ⟨i, (hb i).1.trans hdev, (hb i).2.1, (hb i).2.2.1.trans h.1, .inl h.2⟩
    · rcases h.disk b with h | ⟨j, h1, h2, h3, h4⟩
      · exact .inl h
      · obtain ⟨g1, g2, g3, -⟩ := hb j
        obtain ⟨g4, g5⟩ := hne j fun he => hi (he ▸ h2.symm)
        exact .inr ⟨j, g1.trans h1, g2.trans h2, g3.trans h3, by rwa [g4, g5]⟩
  · rcases hcop j hj hn with h | ⟨m, h1, h2, h3⟩
    · exact .inl h
    · exact .inr ⟨m, (hb m).1.trans h1, (hb m).2.1.trans h2, h3⟩

end

theorem bgetBuf_cases (hr : Refs L s) (h : bgetBuf L s b = some (i, x)) :
    ((s.buf i).dev = L.dev ∧ (s.buf i).blockno = b ∧ x = { s.buf i with refcnt := (s.buf i).refcnt + 1 }) ∨
    ((s.buf i).refcnt = 0 ∧ (∀ j, ¬ ((s.buf j).dev = L.dev ∧ (s.buf j).blockno = b)) ∧
      x = { s.buf i with dev := L.dev, blockno := b, valid := false, refcnt := 1 }) := by
  unfold bgetBuf at h
  split at h
  · rename_i j hj
    cases h
    have := List.find?_some hj
    simp only [decide_eq_true_eq] at this
    exact .inl ⟨this.1, this.2, rfl⟩
  · rename_i hnone
    split at h
    · rename_i j hj
      cases h
      refine .inr ⟨by simpa using List.find?_some hj, fun k hk => ?_, rfl⟩
      have := List.find?_eq_none.mp hnone k (hr.all k)
      simp only [decide_eq_true_eq] at this
      exact this hk
    · cases h

/-- A step that leaves every buffer in use alone but for its count. -/
structure Recount (s s' : State) (p : Pid) (c : Pc) : Prop where
  pc : s'.pc = update s.pc p c
  disk : s'.disk = s.disk
  dirty : s'.dirty = s.dirty
  lh : s'.lh = s.lh
  outstanding : s'.outstanding = s.outstanding
  committing : s'.committing = s.committing
  copied : s'.copied = s.copied
  buf : ∀ j, 0 < (s.buf j).refcnt → (s'.buf j).dev = (s.buf j).dev ∧
    (s'.buf j).blockno = (s.buf j).blockno ∧ (s'.buf j).valid = (s.buf j).valid ∧
    (s'.buf j).lock = (s.buf j).lock ∧ (s'.buf j).data = (s.buf j).data
  unlocked : ∀ j q, (s'.buf j).lock = some q → (s.buf j).lock = some q
  held : ∀ q j, q ≠ p → (q, j) ∈ s.held → (q, j) ∈ s'.held

theorem Recount.keeps (t : Recount s s' p c) (hr : Refs L s) (q : Pid) (hq : q ≠ p) : Keeps s s' q := by
  refine ⟨fun j hj => ?_, fun j hj => ?_, fun j => t.unlocked j q⟩
  · obtain ⟨h1, h2, -⟩ := t.buf j (hr.refcnt_pos hj)
    exact ⟨t.held q j hq hj, h1, h2⟩
  · obtain ⟨-, h2, h3, h4, h5⟩ := t.buf j (hr.refcnt_pos (hr.lock j q hj).1)
    exact ⟨h4.trans hj, h2, h3, h5, by rw [t.dirty], by rw [t.disk]⟩

theorem Recount.owns (t : Recount s s' p c) (hr : Refs L s) {d : Bool} (h : Owns s q j b d) : Owns s' q j b d := by
  obtain ⟨-, h2, h3, h4, -⟩ := t.buf j (hr.refcnt_pos (hr.lock j q h.lock).1)
  exact ⟨h4.trans h.lock, h2.trans h.blockno, h3.trans h.valid, by rw [t.dirty]; exact h.dirty⟩

theorem Inv.recount (hi : Inv L s A) (t : Recount s s' p c) (hc : c.commits = (s.pc p).commits)
    (hfill : ∀ j b k, s.pc p ≠ .fill j b k)
    (hun : (s.pc p).commits = false → s'.unpinned = s.unpinned) (hall : ∀ j, j ∈ s'.lru)
    (huniq : ∀ i j, (s'.buf i).dev = L.dev → (s'.buf j).dev = L.dev → (s'.buf i).blockno = (s'.buf j).blockno → i = j)
    (hcount : ∀ i, (s'.buf i).refcnt = Tokens.count s'.held i + s'.pins i)
    (hlock : ∀ j, (s.buf j).lock = some p → (p, j) ∈ s'.held)
    (hpin : Pinned L s') (hholds : Holds L s' A) (hp : PcOk L s' p c) : Inv L s' A := by
  refine ⟨⟨hall, huniq, hcount, ?_, ?_⟩, t.lh ▸ hi.header, hpin, ?_, hholds, ?_⟩
  · intro j q hj
    have hj' := t.unlocked j q hj
    obtain ⟨h1, h2, h3⟩ := hi.refs.lock j q hj'
    obtain ⟨g1, -, g3, -⟩ := t.buf j (hi.refs.refcnt_pos h1)
    rw [g1, g3]
    by_cases hq : q = p
    · subst hq
      exact ⟨hlock j hj', h2, .inl (hi.refs.valid_of_lock hj' (hfill j))⟩
    · refine ⟨t.held q j hq h1, h2, ?_⟩
      rwa [t.pc, update_of_ne hq]
  · intro j hj
    rw [t.dirty] at hj
    obtain ⟨h1, h2⟩ := hi.refs.dirty j hj
    obtain ⟨q, hq⟩ := Option.ne_none_iff_exists'.mp h1
    obtain ⟨-, -, g3, g4, -⟩ := t.buf j (hi.refs.refcnt_pos (hi.refs.lock j q hq).1)
    rw [g3, g4]
    exact ⟨h1, h2⟩
  · exact hi.committing.step t.pc t.committing t.outstanding hc fun h => ⟨t.copied, hun h⟩
  · exact hi.pc_step t.pc (t.keeps hi.refs) (fun _ h => ⟨t.lh, t.copied, hun h⟩) hp

theorem Recount.holds (t : Recount s s' p c) (hi : Inv L s A) (hpins : s'.pins = s.pins)
    (hnew : ∀ j, (s'.buf j).valid = false ∨ (s'.buf j).dev = (s.buf j).dev ∧
      (s'.buf j).blockno = (s.buf j).blockno ∧ (s'.buf j).valid = (s.buf j).valid ∧
      (s'.buf j).lock = (s.buf j).lock ∧ (s'.buf j).data = (s.buf j).data) : Holds L s' A := by
  have hused : ∀ j, s.pins j = 1 ∨ s.dirty j = true → 0 < (s.buf j).refcnt := by
    rintro j (h | h)
    · rw [hi.refs.count, h]; omega
    · obtain ⟨q, hq⟩ := Option.ne_none_iff_exists'.mp (hi.refs.dirty j h).1
      exact hi.refs.refcnt_pos (hi.refs.lock j q hq).1
  refine ⟨fun j hj hv => ?_, fun b => ?_, fun j hj hn => ?_⟩
  · rcases hnew j with h | ⟨h1, h2, h3, -, h5⟩
    · rw [h] at hv; cases hv
    · rw [h1] at hj
      rw [h3] at hv
      rw [h2, h5]
      exact hi.holds.data j hj hv
  · rw [t.disk, hpins, t.dirty]
    rcases hi.holds.disk b with h | ⟨j, h1, h2, h3, h4⟩
    · exact .inl h
    · obtain ⟨g1, g2, g3, -⟩ := t.buf j (hused j h4)
      exact .inr ⟨j, g1.trans h1, g2.trans h2, g3.trans h3, h4⟩
  · rw [t.copied] at hj
    rw [t.lh] at hn ⊢
    rcases hi.holds.copied j hj hn with h | ⟨m, h1, h2, h3⟩
    · exact .inl h
    · obtain ⟨g1, g2, -⟩ := t.buf m (hused m (.inr h3))
      exact .inr ⟨m, g1.trans h1, g2.trans h2, by rw [t.dirty]; exact h3⟩

section

variable (hi : Inv L s A)
include hi

theorem inv_bread (h : bread L s p b k = some s')
    (hfill : ∀ j b k, s.pc p ≠ .fill j b k) (hc : k.commits = (s.pc p).commits)
    (hk : ContOk L s p b k) : Inv L s' A := by
  unfold bread at h
  split at h
  · rename_i i x hget
    have hcases := bgetBuf_cases hi.refs hget
    clear hget
    have hx : x.dev = L.dev ∧ x.blockno = b ∧ x.lock = (s.buf i).lock ∧
        x.refcnt = (s.buf i).refcnt + 1 ∧ x.data = (s.buf i).data := by
      rcases hcases with ⟨h1, h2, rfl⟩ | ⟨h1, -, rfl⟩
      · exact ⟨h1, h2, rfl, rfl, rfl⟩
      · exact ⟨rfl, rfl, rfl, by simp [h1], rfl⟩
    obtain ⟨hbuf, hheld, hlru, hpins, hun⟩ : s'.buf = update s.buf i x ∧ s'.held = (p, i) :: s.held ∧
        s'.lru = s.lru ∧ s'.pins = s.pins ∧ s'.unpinned = s.unpinned := by
      cases h
      exact ⟨rfl, rfl, rfl, rfl, rfl⟩
    have hne : ∀ {j}, j ≠ i → s'.buf j = s.buf j := by
      intro j hj
      rw [hbuf, update_of_ne hj]
    have hself : s'.buf i = x := by rw [hbuf, update_self]
    have t : Recount s s' p (.acquire i b k) := by
      refine ⟨by cases h; rfl, by cases h; rfl, by cases h; rfl, by cases h; rfl, by cases h; rfl,
        by cases h; rfl, by cases h; rfl, ?_, ?_, ?_⟩
      · intro j hj
        by_cases he : j = i
        · subst he
          rw [hself]
          rcases hcases with ⟨-, -, rfl⟩ | ⟨h1, -⟩
          · exact ⟨rfl, rfl, rfl, rfl, rfl⟩
          · omega
        · rw [hne he]; exact ⟨rfl, rfl, rfl, rfl, rfl⟩
      · intro j q hj
        by_cases he : j = i
        · subst he; rw [hself, hx.2.2.1] at hj; exact hj
        · rwa [hne he] at hj
      · intro q j _ hj
        rw [hheld]
        exact List.mem_cons_of_mem _ hj
    -- a recycled buffer was neither pinned nor did another buffer hold the block
    have hlogged : Logged s' = Logged s := by
      funext b
      simp only [Logged, t.lh, hun]
    refine hi.recount t hc hfill (fun _ => hun) (by rw [hlru]; exact hi.refs.all) ?_ ?_ ?_ ?_ ?_ ?_
    · intro j m hj hm hb
      rcases hcases with ⟨h1, h2, rfl⟩ | ⟨-, h2, rfl⟩
      · exact (sameBufs_update hbuf).uniq hi.refs j m hj hm hb
      · by_cases hji : j = i <;> by_cases hmi : m = i
        · rw [hji, hmi]
        · subst hji
          rw [hself] at hb
          rw [hne hmi] at hm hb
          exact absurd ⟨hm, hb.symm⟩ (h2 m)
        · subst hmi
          rw [hself] at hb
          rw [hne hji] at hj hb
          exact absurd ⟨hj, hb⟩ (h2 j)
        · rw [hne hji] at hj hb
          rw [hne hmi] at hm hb
          exact hi.refs.uniq j m hj hm hb
    · intro j
      rw [hheld, hpins, Tokens.count_cons]
      by_cases he : j = i
      · subst he
        rw [hself, hx.2.2.2.1, hi.refs.count, if_pos rfl]
        omega
      · rw [hne he, hi.refs.count, if_neg (Ne.symm he)]
        rfl
    · intro j hj
      rw [hheld]
      exact List.mem_cons_of_mem _ (hi.refs.lock j p hj).1
    · refine ⟨fun j => ?_, fun b' hl => ?_⟩
      · rw [hpins, hlogged]
        by_cases he : j = i
        · subst he
          rw [hself]
          rcases hcases with ⟨-, -, rfl⟩ | ⟨h1, h2, rfl⟩
          · exact hi.pinned.pins j
          · refine .inr ⟨?_, fun hl => ?_⟩
            · have := hi.refs.count j
              omega
            · obtain ⟨m, h3, h4⟩ := hi.pinned.cached b hl.2
              exact h2 m ⟨h3, h4⟩
        · rw [hne he]
          exact hi.pinned.pins j
      · rw [hlogged] at hl
        obtain ⟨m, h3, h4⟩ := hi.pinned.cached b' hl
        have hpos : 0 < (s.buf m).refcnt := by
          rw [hi.refs.count, hi.pinned.pin h3 (h4 ▸ hl)]
          omega
        exact ⟨m, (t.buf m hpos).1.trans h3, (t.buf m hpos).2.1.trans h4⟩
    · refine t.holds hi hpins fun j => ?_
      by_cases he : j = i
      · subst he
        rw [hself]
        rcases hcases with ⟨h1, h2, rfl⟩ | ⟨-, -, rfl⟩
        · exact .inr ⟨rfl, rfl, rfl, rfl, rfl⟩
        · exact .inl rfl
      · rw [hne he]
        exact .inr ⟨rfl, rfl, rfl, rfl, rfl⟩
    · refine ⟨by rw [hheld]; exact List.mem_cons_self .., by rw [hself]; exact hx.1,
        by rw [hself]; exact hx.2.1, hk.keep (fun _ => ⟨t.lh, t.copied, hun⟩) fun _ _ _ _ => t.owns hi.refs⟩
  · cases h

theorem inv_deref {k : Next} (hpc : s.pc p = .deref i k) : Inv L (deref s p i k) A := by
  have hok := hi.pc p
  rw [hpc] at hok
  obtain ⟨hm, hl, hk⟩ := hok
  have hb : SameBufs s (deref s p i k) := sameBufs_update rfl
  have hmem : ∀ q j, (q, j) ≠ (p, i) → (q, j) ∈ s.held → (q, j) ∈ (deref s p i k).held :=
    fun q j => Tokens.mem_erase_of_ne
  have t : Recount s (deref s p i k) p k.pc := by
    refine ⟨rfl, rfl, rfl, rfl, rfl, rfl, rfl, fun j _ => hb j, fun j q hj => ?_, fun q j hq => ?_⟩
    · rwa [(hb j).2.2.2.1] at hj
    · exact hmem q j (by simp [hq])
  refine hi.recount t (by rw [hpc]; exact k.pc_commits i) (by simp [hpc]) (fun _ => rfl) ?_ (hb.uniq hi.refs)
    ?_ ?_ ?_ ?_ ?_
  · intro j
    simp only [deref]
    split
    · by_cases he : j = i
      · simp [he]
      · exact List.mem_cons_of_mem _ ((List.mem_erase_of_ne he).mpr (hi.refs.all j))
    · exact hi.refs.all j
  · intro j
    have hc := Tokens.count_erase hm j
    have hcount := hi.refs.count j
    simp only [deref, setPc, setBuf, update_apply]
    by_cases he : j = i
    · subst he
      rw [if_pos rfl] at hc ⊢
      simp only
      omega
    · rw [if_neg (Ne.symm he)] at hc
      rw [if_neg he]
      omega
  · intro j hj
    refine hmem p j ?_ (hi.refs.lock j p hj).1
    rintro ⟨⟩
    exact hl hj
  · exact hi.pinned.congr (fun j => ⟨(hb j).1, (hb j).2.1, fun h => (hb j).2.2.1.trans h⟩) rfl rfl
  · exact t.holds hi rfl fun j => .inr (hb j)
  · refine NextOk.pc (hk.frame (fun j hj => ⟨(hb j).2.2.2.1.trans hj, rfl⟩) fun _ => ⟨rfl, rfl, rfl⟩)

theorem inv_unpin {tail : Nat} {a m : BufId} (hpc : s.pc p = .unpin tail a m)
    (hs : s' = { bunpin s m with unpinned := tail + 1 }.setPc p (.relse .installTrans tail a m)) :
    Inv L s' A := by
  have hok := hi.pc p
  rw [hpc] at hok
  obtain ⟨ht, hprog, ha, hm, hdisk⟩ := hok
  obtain ⟨-, hdev, -⟩ := hi.refs.lock m p hm.lock
  have hun : s.unpinned = tail := hprog.2
  have hlog : ∀ b, Logged s' b ↔ Logged s b ∧ b ≠ s.lh.block tail := by
    intro b
    constructor
    · rintro ⟨j, h1, h2, h3⟩
      rw [hs] at h1 h2 h3
      have h1 : tail + 1 ≤ j := h1
      refine ⟨⟨j, by omega, h2, h3⟩, fun hb => ?_⟩
      have := hi.header.nodup j tail h2 ht (h3.trans hb)
      omega
    · rintro ⟨⟨j, h1, h2, h3⟩, hne⟩
      refine ⟨j, ?_, by rw [hs]; exact h2, by rw [hs]; exact h3⟩
      have : j ≠ tail := by
        rintro rfl
        exact hne h3.symm
      rw [hs]
      show tail + 1 ≤ j
      omega
  have hpin : s.pins m = 1 := hi.pinned.pin hdev ⟨tail, by omega, ht, hm.blockno.symm⟩
  have hb : SameBufs s s' := sameBufs_update (i := m) (by rw [hs]; rfl)
  have hpm : s'.pins m = 0 := by simp [hs, bunpin, setPc, hpin]
  have hpne : ∀ {j}, j ≠ m → s'.pins j = s.pins j := by
    intro j hj
    simp [hs, bunpin, setPc, hj]
  have hheld : s'.held = s.held := by rw [hs]; rfl
  have t : Recount s s' p (.relse .installTrans tail a m) := by
    refine ⟨by rw [hs]; rfl, by rw [hs]; rfl, by rw [hs]; rfl, by rw [hs]; rfl, by rw [hs]; rfl,
      by rw [hs]; rfl, by rw [hs]; rfl, fun j _ => hb j, fun j q hj => ?_, fun q j _ hj => ?_⟩
    · rwa [(hb j).2.2.2.1] at hj
    · rwa [hheld]
  refine hi.recount t (by rw [hpc]; rfl) (by simp [hpc]) (by simp [hpc, Pc.commits]) ?_ (hb.uniq hi.refs) ?_ ?_ ?_ ?_ ?_
  · rw [hs]
    exact hi.refs.all
  · intro j
    have hcount := hi.refs.count j
    rw [hheld]
    by_cases he : j = m
    · subst he
      rw [hpm]
      simp only [hs, bunpin, setPc, setBuf, update_self]
      omega
    · rw [hpne he, ← hcount]
      simp [hs, bunpin, setPc, setBuf, he]
  · intro j hj
    rw [hheld]
    exact (hi.refs.lock j p hj).1
  · refine hb.pinned hi hdev (fun _ => hpne) (fun b hne => ?_) (.inr ⟨hpm, fun h => ((hlog _).mp h).2 hm.blockno⟩)
    rw [hlog, and_iff_left (hm.blockno ▸ hne)]
  · refine hb.holds hi.holds t.disk hdev (fun j he => ⟨hpne he, by rw [t.dirty]⟩) (.inl ?_) ?_
    · rw [hm.blockno, hdisk, hi.holds.data m hdev hm.valid, hm.blockno]
    · rw [t.copied, t.lh, t.dirty]
      exact hi.holds.copied
  · exact ⟨t.lh ▸ ht, ⟨by rw [t.copied, t.lh]; exact hprog.1, by rw [hs]; rfl⟩, t.owns hi.refs ha,
      t.lh ▸ t.owns hi.refs hm⟩

/-! ## `log_write` -/

theorem inv_absorb (hpc : s.pc p = .user) (hl : (s.buf i).lock = some p)
    (hcom : s.committing = false) (hlog : Logged s (s.buf i).blockno) (hs : s' = s.setDirty i false) :
    Inv L s' A := by
  have hv := hi.refs.valid_of_lock hl (by simp [hpc])
  obtain ⟨-, hdev, -⟩ := hi.refs.lock i p hl
  have t : Touch s s' p .user i (s.buf i) := by
    subst hs
    constructor <;> intros <;> first
      | rfl
      | exact (update_eq_self i s.buf).symm
      | (rw [← hpc]; exact (update_eq_self p s.pc).symm)
      | (simp only [setDirty]; rw [update_of_ne ‹_›])
  have hdi : s'.dirty i = false := by simp [hs, setDirty]
  have hcop : s'.copied = 0 := by
    rw [hs]
    exact (hi.committing.quiet hcom).1
  have hdisk : s'.disk = s.disk := by rw [hs]; rfl
  refine hi.touch t (.inl hl) (.inr hl) (fun _ => .inl hv) (fun h => by rw [hdi] at h; cases h) id
    (by simp [hpc]) (by rw [hpc]) (fun _ => by rw [hs]; rfl) (fun _ _ => by rw [hdisk])
    (fun _ => t.holds hi hdev (fun _ _ => rfl) (hi.holds.data i hdev) (fun _ _ => by rw [hdisk])
      (.inr ⟨hv, .inl (hi.pinned.pin hdev hlog)⟩) fun j hj => by omega) trivial

theorem inv_append (hpc : s.pc p = .user) (hl : (s.buf i).lock = some p)
    (hcom : s.committing = false) (hhome : IsHome L.toConfig (s.buf i).blockno)
    (hsize : s.lh.n < L.size - 1) (hnew : ∀ j : Nat, (j : Int) < s.lh.n → s.lh.block j ≠ (s.buf i).blockno)
    (hs : s' = { (bpin s i).setDirty i false with
      lh := { n := s.lh.n + 1, block := update s.lh.block s.lh.n.toNat (s.buf i).blockno } }) :
    Inv L s' A := by
  have hv := hi.refs.valid_of_lock hl (by simp [hpc])
  obtain ⟨hheld, hdev, -⟩ := hi.refs.lock i p hl
  obtain ⟨hcop, hun⟩ := hi.committing.quiet hcom
  have hn := hi.header.n_nonneg
  have hlh : s'.lh.n = s.lh.n + 1 := by rw [hs]
  have hblk : ∀ j : Nat, (j : Int) < s.lh.n → s'.lh.block j = s.lh.block j := by
    intro j hj
    rw [hs]
    exact update_of_ne (by omega) _ _
  have hlast : s'.lh.block s.lh.n.toNat = (s.buf i).blockno := by
    rw [hs]
    exact update_self ..
  have hun' : s'.unpinned = 0 := by rw [hs]; exact hun
  have hlog : ∀ b, Logged s' b ↔ Logged s b ∨ b = (s.buf i).blockno := by
    intro b
    constructor
    · rintro ⟨j, -, h2, h3⟩
      rcases Int.lt_or_eq_of_le (Int.lt_add_one_iff.mp (hlh ▸ h2)) with hj | hj
      · exact .inl ⟨j, by omega, hj, hblk j hj ▸ h3⟩
      · obtain rfl : j = s.lh.n.toNat := by omega
        exact .inr (h3.symm.trans hlast)
    · rintro (⟨j, -, h2, h3⟩ | rfl)
      · exact ⟨j, by omega, by omega, by rw [hblk j h2]; exact h3⟩
      · exact ⟨s.lh.n.toNat, by omega, by omega, hlast⟩
  have hnot : ¬ Logged s (s.buf i).blockno := fun ⟨j, _, h2, h3⟩ => hnew j h2 h3
  have hpin0 : s.pins i = 0 := by
    rcases hi.pinned.pins i with h | h
    · exact absurd h.2.2.2 hnot
    · exact h.1
  have hb : SameBufs s s' := sameBufs_update (i := i) (by rw [hs]; rfl)
  have hlock : ∀ j, (s'.buf j).lock = (s.buf j).lock := fun j => (hb j).2.2.2.1
  have hpi : s'.pins i = 1 := by simp [hs, bpin, setDirty, hpin0]
  have hpne : ∀ {j}, j ≠ i → s'.pins j = s.pins j := by
    intro j hj
    simp [hs, bpin, setDirty, hj]
  have hdi : s'.dirty i = false := by simp [hs, setDirty]
  have hdne : ∀ {j}, j ≠ i → s'.dirty j = s.dirty j := by
    intro j hj
    simp [hs, bpin, setDirty, setBuf, hj]
  have hheld' : s'.held = s.held := by rw [hs]; rfl
  have hpcs : s'.pc = s.pc := by rw [hs]; rfl
  have hdisk : s'.disk = s.disk := by rw [hs]; rfl
  have hcop' : s'.copied = 0 := by rw [hs]; exact hcop
  have hpcs' : s'.pc = update s.pc p .user := by
    rw [hpcs, ← hpc, update_eq_self]
  refine ⟨⟨?_, hb.uniq hi.refs, ?_, ?_, ?_⟩, ⟨?_, ?_, ?_, ?_⟩, ?_, ?_, ?_, ?_⟩
  · rw [hs]
    exact hi.refs.all
  · intro j
    have hcount := hi.refs.count j
    rw [hheld']
    by_cases he : j = i
    · subst he
      rw [hpi]
      simp only [hs, bpin, setDirty, setBuf, update_self]
      omega
    · rw [hpne he, ← hcount]
      simp [hs, bpin, setDirty, setBuf, he]
  · intro j q hj
    rw [hlock] at hj
    rw [hheld', (hb j).1, (hb j).2.2.1, hpcs]
    exact hi.refs.lock j q hj
  · intro j hj
    have he : j ≠ i := by
      rintro rfl
      rw [hdi] at hj
      cases hj
    rw [hdne he] at hj
    rw [hlock, (hb j).2.2.1]
    exact hi.refs.dirty j hj
  · omega
  · omega
  · intro j k hj hk hjk
    have hj' := Int.lt_or_eq_of_le (Int.lt_add_one_iff.mp (hlh ▸ hj))
    have hk' := Int.lt_or_eq_of_le (Int.lt_add_one_iff.mp (hlh ▸ hk))
    rcases hj' with hj' | hj' <;> rcases hk' with hk' | hk'
    · rw [hblk j hj', hblk k hk'] at hjk
      exact hi.header.nodup j k hj' hk' hjk
    · obtain rfl : k = s.lh.n.toNat := by omega
      rw [hblk j hj', hlast] at hjk
      exact absurd hjk (hnew j hj')
    · obtain rfl : j = s.lh.n.toNat := by omega
      rw [hblk k hk', hlast] at hjk
      exact absurd hjk.symm (hnew k hk')
    · omega
  · intro j hj
    rcases Int.lt_or_eq_of_le (Int.lt_add_one_iff.mp (hlh ▸ hj)) with hj' | hj'
    · rw [hblk j hj']
      exact hi.header.home j hj'
    · obtain rfl : j = s.lh.n.toNat := by omega
      rw [hlast]
      exact hhome
  · refine hb.pinned hi hdev (fun _ => hpne) (fun b hne => ?_) (.inl ⟨hpi, hv, (hlog _).mpr (.inr rfl)⟩)
    rw [hlog, or_iff_left hne]
  · exact hi.committing.step hpcs' (by rw [hs]; rfl) (by rw [hs]; rfl) (by rw [hpc])
      fun _ => ⟨hcop'.trans hcop.symm, hun'.trans hun.symm⟩
  · refine hb.holds hi.holds hdisk hdev (fun j he => ⟨hpne he, hdne he⟩) (.inr ⟨hv, hpi⟩) fun j hj => ?_
    omega
  · refine hi.pc_step hpcs' ?_ (fun h => by rw [hcom] at h; cases h) trivial
    refine keeps_locked (x := s'.buf i) hi.refs ?_ (hb i).1 (hb i).2.1 hheld' ?_ ?_ (fun j => hdne)
      (.inl hdisk)
    · rw [hs]
      simp [bpin, setDirty, setBuf]
    · intro q hq h
      rw [hl] at h
      cases h
      exact hq rfl
    · intro q hq h
      rw [hlock, hl] at h
      cases h
      exact hq rfl

theorem inv_logWrite (hpc : s.pc p = .user) (hl : (s.buf i).lock = some p)
    (hhome : IsHome L.toConfig (s.buf i).blockno) (h : logWrite L s i = some s') : Inv L s' A := by
  unfold logWrite at h
  split at h
  · cases h
  · rename_i hpanic
    simp only [not_or, Int.not_le, Int.not_lt] at hpanic
    dsimp only at h
    have hcom : s.committing = false := by
      by_contra hc
      have := hi.committing.busy (by simpa using hc)
      omega
    rcases slot_cases hi.header.n_nonneg (s.buf i).blockno with ⟨hslot, hnew⟩ | ⟨hslot, hblock⟩
    · rw [add_of_notMem hslot, if_pos hslot] at h
      cases h
      exact inv_append hi hpc hl hcom hhome hpanic.2.1 hnew rfl
    · rw [add_of_mem hslot hblock, if_neg (by omega)] at h
      cases h
      refine inv_absorb hi hpc hl hcom ⟨_, ?_, hslot, hblock⟩ rfl
      rw [(hi.committing.quiet hcom).2]
      exact Nat.zero_le _

end

end Parts

end Bio
end Xv6
