import Xv6.Bio.Steps

/-!
# Xv6.Bio.Refine

The buffer cache and the log together are a plain array of blocks.

* `mods`: the modifications of the array in a step. The copies that `install_trans` makes are not
  among them: that they change nothing is part of the result.
* `inv_step`: every step of every process keeps `Inv` for the array with these modifications made.
* `bread_last_modification`: what `bread` returns is the last modification of the block.
* `unreferenced_on_disk`: a buffer without references holds nothing that the disk does not.
-/

namespace Xv6
namespace Bio

open Log (LogHeader IsHome)
open State Function

/-- The modifications of locked buffers in a step: by a process outside the log, of the log blocks
by `write_log`, and of the header block by `write_head`. -/
def mods (s : State) : Pid × Op → List (Nat × Block)
  | (_, .modify i v) => [((s.buf i).blockno, v)]
  | (p, .tau) =>
    match s.pc p with
    | .move .writeLog _ a c => [((s.buf a).blockno, (s.buf c).data)]
    | .headMove _ i => [((s.buf i).blockno, s.lh.encode (s.buf i).data)]
    | _ => []
  | _ => []

section Control

variable {L : Config} {s s' : State} {p : Pid} {c : Pc} {A : Nat → Block} {tail : Nat} {a m : BufId}

structure SameCache (s s' : State) : Prop where
  buf : s'.buf = s.buf
  lru : s'.lru = s.lru
  disk : s'.disk = s.disk
  held : s'.held = s.held
  pins : s'.pins = s.pins
  dirty : s'.dirty = s.dirty

theorem SameCache.keeps (h : SameCache s s') (q : Pid) : Keeps s s' q :=
  ⟨fun j hj => by rw [h.held, h.buf]; exact ⟨hj, rfl, rfl⟩,
    fun j hj => by rw [h.buf, h.dirty, h.disk]; exact ⟨hj, rfl, rfl, rfl, rfl, rfl⟩,
    fun j hj => by rwa [h.buf] at hj⟩

theorem SameCache.refs (h : SameCache s s') (hi : Refs L s) (hpc : s'.pc = update s.pc p c)
    (hfill : ∀ j b k, s.pc p ≠ .fill j b k) : Refs L s' := by
  refine ⟨by rw [h.lru]; exact hi.all, by rw [h.buf]; exact hi.uniq,
    by rw [h.buf, h.held, h.pins]; exact hi.count, ?_, by rw [h.buf, h.dirty]; exact hi.dirty⟩
  intro j q hj
  rw [h.buf] at hj ⊢
  rw [h.held, hpc]
  obtain ⟨h1, h2, h3⟩ := hi.lock j q hj
  refine ⟨h1, h2, ?_⟩
  by_cases hq : q = p
  · subst hq
    exact .inl (hi.valid_of_lock hj (hfill j))
  · rwa [update_of_ne hq]

section

variable (hi : Inv L s A)
include hi

theorem Inv.control (h : SameCache s s') (hs : SameLog s s')
    (hpc : s'.pc = update s.pc p c) (hfill : ∀ j b k, s.pc p ≠ .fill j b k)
    (hcom : Committing s') (hp : PcOk L s p c) : Inv L s' A := by
  have hlog : Logged s' = Logged s := by
    funext b
    simp only [Logged, hs.lh, hs.unpinned]
  refine ⟨h.refs hi.refs hpc hfill, hs.lh ▸ hi.header, ⟨?_, ?_⟩, hcom, ⟨?_, ?_, ?_⟩, ?_⟩
  · rw [h.buf, h.pins, hlog]; exact hi.pinned.pins
  · rw [h.buf, hlog]; exact hi.pinned.cached
  · rw [h.buf]; exact hi.holds.data
  · rw [h.buf, h.disk, h.pins, h.dirty]; exact hi.holds.disk
  · rw [h.buf, h.dirty, hs.lh, hs.copied]; exact hi.holds.copied
  · exact hi.pc_step hpc (fun q _ => h.keeps q) (fun _ _ => hs) (hp.frame (h.keeps p) fun _ => hs)

theorem Inv.moved (hfill : ∀ j b k, s.pc p ≠ .fill j b k)
    (hc : c.commits = (s.pc p).commits) (hp : PcOk L s p c) : Inv L (s.setPc p c) A :=
  hi.control ⟨rfl, rfl, rfl, rfl, rfl, rfl⟩ ⟨rfl, rfl, rfl⟩ rfl hfill
    (hi.committing.step rfl rfl rfl hc fun _ => ⟨rfl, rfl⟩) hp

theorem inv_beginOp (hpc : s.pc p = .user) (h : beginOp s = some s') : Inv L s' A := by
  unfold beginOp at h
  split at h <;> cases h
  rename_i hc
  simp only [not_or, Bool.not_eq_true] at hc
  refine hi.control (p := p) (c := .user) ⟨rfl, rfl, rfl, rfl, rfl, rfl⟩ ⟨rfl, rfl, rfl⟩ ?_ (by simp [hpc])
    ⟨hi.committing.quiet, fun h => ?_, hi.committing.committer, hi.committing.alone⟩ trivial
  · rw [← hpc, update_eq_self]
  · cases hc.1.symm.trans h

theorem inv_endOp (hpc : s.pc p = .user) (h : endOp s p = some s') : Inv L s' A := by
  unfold endOp at h
  split at h
  · cases h
  · rename_i hc
    have hc : s.committing = false := by simpa using hc
    have hnone : ∀ q, (s.pc q).commits ≠ true := fun q hq => by
      cases hc.symm.trans (hi.committing.committer q hq)
    split at h <;> cases h
    · refine hi.control ⟨rfl, rfl, rfl, rfl, rfl, rfl⟩ ⟨rfl, rfl, rfl⟩ rfl (by simp [hpc])
        ⟨nofun, fun _ => rfl, fun _ _ => rfl, ?_⟩ (hi.committing.quiet hc)
      have honly : ∀ q, ((s.setPc p .commit).pc q).commits = true → q = p := by
        intro q hq
        by_contra hne
        rw [show (s.setPc p .commit).pc q = s.pc q by simp [setPc, hne]] at hq
        exact hnone q hq
      exact fun q q' hq hq' => (honly q hq).trans (honly q' hq').symm
    · refine hi.control (p := p) (c := .user) ⟨rfl, rfl, rfl, rfl, rfl, rfl⟩ ⟨rfl, rfl, rfl⟩ ?_ (by simp [hpc])
        ⟨hi.committing.quiet, fun h => ?_, hi.committing.committer, hi.committing.alone⟩ trivial
      · rw [← hpc, update_eq_self]
      · cases hc.symm.trans h

theorem inv_finish (hpc : s.pc p = .finish) :
    Inv L ({ s with committing := false }.setPc p .user) A := by
  have hok := hi.pc p
  rw [hpc] at hok
  have hcom : ∀ q, (({ s with committing := false }.setPc p .user).pc q).commits ≠ true := by
    intro q hq
    by_cases hqp : q = p
    · subst hqp
      simp [setPc, Pc.commits] at hq
    · simp only [setPc, update_of_ne hqp] at hq
      exact hqp (hi.committing.alone q p hq (by rw [hpc]; rfl))
  exact hi.control ⟨rfl, rfl, rfl, rfl, rfl, rfl⟩ ⟨rfl, rfl, rfl⟩ rfl (by simp [hpc])
    ⟨fun _ => hok, fun h => absurd h Bool.false_ne_true, fun q hq => absurd hq (hcom q), fun q _ hq => absurd hq (hcom q)⟩
    trivial

theorem inv_clearN (hpc : s.pc p = .clearN)
    (hs : s' = { s with lh := { s.lh with n := 0 }, copied := 0, unpinned := 0 }.setPc p (.writeHead true)) :
    Inv L s' A := by
  have hok := hi.pc p
  rw [hpc] at hok
  have hun : (s.unpinned : Int) = s.lh.n := hok
  have hnone : ∀ b, ¬ Logged s b := fun b ⟨j, h1, h2, _⟩ => by omega
  have hnone' : ∀ b, ¬ Logged s' b := fun b ⟨j, _, h2, _⟩ => by
    rw [hs] at h2
    have h2 : (j : Int) < 0 := h2
    omega
  have h : SameCache s s' := by subst hs; exact ⟨rfl, rfl, rfl, rfl, rfl, rfl⟩
  have hpc' : s'.pc = update s.pc p (.writeHead true) := by rw [hs]; rfl
  have hlh : s'.lh.n = 0 := by rw [hs]; rfl
  have hcop : s'.copied = 0 := by rw [hs]; rfl
  refine ⟨h.refs hi.refs hpc' (by simp [hpc]), ⟨by omega, ?_, ?_, ?_⟩, ⟨?_, ?_⟩, ?_, ⟨?_, ?_, ?_⟩, ?_⟩
  · have := L.size_pos
    omega
  · intro j k hj
    omega
  · intro j hj
    omega
  · intro j
    rw [h.buf, h.pins]
    rcases hi.pinned.pins j with ⟨-, -, -, h4⟩ | ⟨h1, -⟩
    · exact absurd h4 (hnone _)
    · exact .inr ⟨h1, fun h => hnone' _ h.2⟩
  · exact fun b hl => absurd hl (hnone' b)
  · exact hi.committing.step hpc' (by rw [hs]; rfl) (by rw [hs]; rfl) (by rw [hpc]; rfl)
      (by simp [hpc, Pc.commits])
  · rw [h.buf]; exact hi.holds.data
  · rw [h.buf, h.disk, h.pins, h.dirty]; exact hi.holds.disk
  · intro j hj
    omega
  · refine hi.pc_step hpc' (fun q _ => h.keeps q) (by simp [hpc, Pc.commits]) ⟨⟨?_, ?_⟩, fun _ => hlh⟩
    · rw [hcop, hlh]; rfl
    · rw [hs]; rfl

/-! ## The turns of `commit` -/

theorem inv_install (hpc : s.pc p = .move .installTrans tail a m) :
    Inv L ((s.setData m (s.buf a).data).setPc p (.write .installTrans tail a m)) A := by
  have hok := hi.pc p
  rw [hpc] at hok
  obtain ⟨ht, hprog, ha, hm⟩ := hok
  have hdeva := (hi.refs.lock a p ha.lock).2.1
  have hdevm := (hi.refs.lock m p hm.lock).2.1
  have hsame : (s.buf a).data = (s.buf m).data := by
    rw [hi.holds.data a hdeva ha.valid, hi.holds.data m hdevm hm.valid, ha.blockno, hm.blockno]
    have hcop := hprog.1
    rcases hi.holds.copied tail (by omega) ht with h | ⟨j, h1, h2, h3⟩
    · exact h
    · -- the home block is not dirty: this process has it locked
      rw [hi.refs.uniq j m h1 hdevm (h2.trans hm.blockno.symm), hm.dirty] at h3
      cases h3
  have hs : s.setData m (s.buf a).data = s := by
    rw [hsame, setData, setBuf, update_eq_self]
  rw [hs]
  exact hi.moved (by simp [hpc]) (by rw [hpc]; rfl) ⟨ht, hprog, ha, hm⟩

end

theorem notHome_log (L : Config) {j : Nat} (h : (j : Int) < L.size - 1) : ¬ IsHome L.toConfig (L.start + j + 1) := by
  rintro (h1 | h1) <;> omega

theorem notHome_start (L : Config) : ¬ IsHome L.toConfig L.start := by
  have := L.size_pos
  rintro (h1 | h1) <;> omega

section

variable (hi : Inv L s A)
include hi

/-- `write_log` copies the home block of slot `tail` to its log block. -/
theorem inv_writeLog (hpc : s.pc p = .move .writeLog tail a m)
    (hs : s' = { (s.setData a (s.buf m).data).setDirty a true with copied := tail + 1 }.setPc p
      (.write .writeLog tail a m)) :
    Inv L s' (update A (s.buf a).blockno (s.buf m).data) := by
  have hok := hi.pc p
  rw [hpc] at hok
  obtain ⟨ht, hprog, ha, hm⟩ := hok
  have hsize := hi.header.n_size
  have hdevm := (hi.refs.lock m p hm.lock).2.1
  have hne : ∀ {b}, IsHome L.toConfig b → b ≠ (s.buf a).blockno := by
    rintro b hb rfl
    rw [ha.blockno] at hb
    exact notHome_log L (by omega) hb
  refine hi.dirtied hs ha.lock (by simp [hpc]) (by rw [hpc]; rfl) (by simp [hpc, Pc.commits]) ?_ ?_
  · intro j hj hn
    rw [update_of_ne (hne (hi.header.home j hn))]
    by_cases he : j = tail
    · subst he
      left
      rw [← ha.blockno, update_self, hi.holds.data m hdevm hm.valid, hm.blockno]
    · rw [update_of_ne (by rw [ha.blockno]; omega)]
      refine (hi.holds.copied j (by have := hprog.1; omega) hn).imp id ?_
      rintro ⟨i, h1, h2, h3⟩
      exact ⟨i, h1, h2, .inr h3⟩
  · intro t
    have hcop : s'.copied = tail + 1 := by rw [hs]; rfl
    exact ⟨t.lh ▸ ht, ⟨hcop, t.unpinned.trans hprog.2⟩, t.owns_self ha rfl rfl (by simp [hs, setPc, setDirty]),
      t.lh ▸ t.owns hm (hi.turn_ne ht ha hm)⟩

theorem inv_headMove {clear : Bool} {i : BufId} {v : Block} (hpc : s.pc p = .headMove clear i)
    (hs : s' = ((s.setData i v).setDirty i true).setPc p (.headWrite clear i)) :
    Inv L s' (update A (s.buf i).blockno v) := by
  have hok := hi.pc p
  rw [hpc] at hok
  obtain ⟨hprog, ho⟩ := hok
  have hne : ∀ {b}, IsHome L.toConfig b → b ≠ (s.buf i).blockno := by
    rintro b hb rfl
    rw [ho.blockno] at hb
    exact notHome_start L hb
  refine hi.dirtied (n := s.copied) hs ho.lock (by simp [hpc]) (by rw [hpc]; rfl) (fun _ => rfl) ?_ ?_
  · intro j hj hn
    rw [update_of_ne (hne (hi.header.home j hn)),
      update_of_ne (by rw [ho.blockno]; omega)]
    refine (hi.holds.copied j hj hn).imp id ?_
    rintro ⟨m, h1, h2, h3⟩
    exact ⟨m, h1, h2, .inr h3⟩
  · intro t
    have hsl : SameLog s s' := ⟨t.lh, by rw [hs]; rfl, t.unpinned⟩
    exact ⟨hprog.frame hsl, t.owns_self ho rfl rfl (by simp [hs, setPc, setDirty])⟩

/-- A process outside the log changes a block that it has locked. -/
theorem inv_modify {i : BufId} {v : Block} (hpc : s.pc p = .user)
    (hl : (s.buf i).lock = some p) (hhome : IsHome L.toConfig (s.buf i).blockno)
    (hs : s' = (s.setData i v).setDirty i true) : Inv L s' (update A (s.buf i).blockno v) := by
  have hdev := (hi.refs.lock i p hl).2.1
  refine hi.dirtied (n := s.copied) (c := .user) ?_ hl (by simp [hpc]) (by rw [hpc]) (fun _ => rfl) ?_
    (fun _ => trivial)
  · rw [hs, setPc, ← hpc]
    simp only [setDirty, setData, setBuf, update_eq_self]
  · intro j hj hn
    have hsize := hi.header.n_size
    rw [update_of_ne (a := L.start + j + 1) (by rintro he; exact notHome_log L (by omega) (he ▸ hhome))]
    by_cases he : s.lh.block j = (s.buf i).blockno
    · exact .inr ⟨i, hdev, he.symm, .inl rfl⟩
    · rw [update_of_ne he]
      refine (hi.holds.copied j hj hn).imp id ?_
      rintro ⟨m, h1, h2, h3⟩
      exact ⟨m, h1, h2, .inr h3⟩

theorem inv_call {op : Op} (hpc : s.pc p = .user) (h : call L s p op = some s') :
    Inv L s' (Writes.apply (mods s (p, op)) A) := by
  cases op with
  | bread b => exact inv_bread hi h (by simp [hpc]) (by rw [hpc]; rfl) trivial
  | modify i v =>
    simp only [call] at h
    split at h <;> cases h
    rename_i hl
    exact inv_modify hi hpc hl.1 hl.2 rfl
  | logWrite i =>
    simp only [call] at h
    split at h
    · rename_i hl
      exact inv_logWrite hi hpc hl.1 hl.2 h
    · cases h
  | brelse i =>
    simp only [call] at h
    split at h <;> cases h
    rename_i hl
    exact inv_brelse hi hl.1 hl.2 (by simp [hpc]) (by rw [hpc]; rfl) trivial
  | beginOp => exact inv_beginOp hi hpc h
  | endOp => exact inv_endOp hi hpc h
  | tau => cases h

theorem inv_relse {l : Loop} {b b' : Nat}
    (hc : (s.pc p).commits = true) (hfill : ∀ j b k, s.pc p ≠ .fill j b k) (ht : (tail : Int) < s.lh.n)
    (hprog : Progress s l (tail + 1)) (ha : Owns s p a b false) (hm : Owns s p m b' false) (hne : m ≠ a) :
    Inv L (brelse s p a (.relse2 l tail m)) A := by
  have t := touch_brelse s p a (.relse2 l tail m)
  have hm' := t.owns hm hne
  exact inv_brelse hi ha.lock ha.dirty hfill (by rw [hc]; rfl)
    ⟨ht, hprog.frame ⟨rfl, rfl, rfl⟩, hm'.lock, hm'.dirty⟩

theorem inv_resumeLoop (hc : s.pc p = c) (h : resumeLoop L s p c = some s') :
    Inv L s' (Writes.apply (mods s (p, .tau)) A) := by
  have hok := hi.pc p
  rw [hc] at hok
  simp only [mods, hc]
  cases c with
  | loop l tail =>
    simp only [resumeLoop] at h
    split at h
    · exact inv_bread hi h (by simp [hc]) (by rw [hc]; rfl) ⟨‹_›, hok.2, rfl⟩
    · rename_i hlt
      have hle := hok.1
      have hprog := hok.2
      have htail : (tail : Int) = s.lh.n := by omega
      cases l with
      | writeLog =>
        cases h
        refine hi.moved (by simp [hc]) (by rw [hc]; rfl) ⟨⟨?_, hprog.2⟩, by simp⟩
        rw [hprog.1, htail]
      | installTrans =>
        cases h
        refine hi.moved (by simp [hc]) (by rw [hc]; rfl) ?_
        show (s.unpinned : Int) = s.lh.n
        rw [hprog.2, htail]
  | second l tail a => exact inv_bread hi h (by simp [hc]) (by rw [hc]; rfl) ⟨hok.1, hok.2.1, rfl, hok.2.2⟩
  | move l tail a m =>
    cases l <;> cases h
    · exact inv_writeLog hi hc rfl
    · exact inv_install hi hc
  | write l tail a m =>
    cases l with
    | writeLog =>
      cases h
      obtain ⟨ht, hprog, ha, hm⟩ := hok
      have hsize := hi.header.n_size
      refine hi.written rfl ha.lock (by simp [hc]) (by rw [hc]; rfl) (.inr ?_) fun t => ?_
      · rw [ha.blockno]
        exact notHome_log L (by omega)
      · exact ⟨ht, ⟨hprog.1, hprog.2⟩, t.owns_self ha rfl rfl (by simp [setPc, bwrite, setDirty]),
          t.owns hm (hi.turn_ne ht ha hm)⟩
    | installTrans =>
      cases h
      obtain ⟨ht, hprog, ha, hm⟩ := hok
      refine hi.written rfl hm.lock (by simp [hc]) (by rw [hc]; rfl) (.inl hm.dirty) fun t => ?_
      refine ⟨ht, ⟨hprog.1, hprog.2⟩, t.owns ha (hi.turn_ne ht ha hm).symm,
        t.owns_self hm rfl rfl (by simp [setPc, bwrite, setDirty]), ?_⟩
      rw [t.buf_self, t.lh, ← hm.blockno]
      exact update_self ..
  | unpin tail a m =>
    cases h
    exact inv_unpin hi hc rfl
  | relse l tail a m =>
    obtain ⟨ht, hprog, ha, hm⟩ := hok
    have hne := hi.turn_ne ht ha hm
    cases l <;> cases h
    · exact inv_relse hi (by rw [hc]; rfl) (by simp [hc]) ht hprog hm ha hne.symm
    · exact inv_relse hi (by rw [hc]; rfl) (by simp [hc]) ht hprog ha hm hne
  | relse2 l tail i =>
    cases h
    obtain ⟨ht, hprog, hl, hd⟩ := hok
    exact inv_brelse hi hl hd (by simp [hc]) (by rw [hc]; rfl)
      ⟨by show ((tail + 1 : Nat) : Int) ≤ s.lh.n; omega, hprog.frame ⟨rfl, rfl, rfl⟩⟩
  | _ => cases h

theorem inv_resume (hc : s.pc p = c) (h : resume L s p c = some s') : Inv L s' (Writes.apply (mods s (p, .tau)) A) := by
  have hok := hi.pc p
  rw [hc] at hok
  by_cases hloop : resumeLoop L s p c = some s'
  · exact inv_resumeLoop hi hc hloop
  simp only [mods, hc]
  cases c with
  | user => cases h
  | acquire i b k =>
    exact inv_acquiresleep hi hc h
  | fill i b k =>
    cases h
    exact inv_fill hi hc
  | deref i k =>
    cases h
    exact inv_deref hi hc
  | commit =>
    cases h
    split
    · exact hi.moved (by simp [hc]) (by rw [hc]; rfl) ⟨hi.header.n_nonneg, hok⟩
    · exact hi.moved (by simp [hc]) (by rw [hc]; rfl) hok
  | writeHead clear =>
    exact inv_bread hi h (by simp [hc]) (by rw [hc]; rfl) ⟨hok, rfl⟩
  | headMove clear i =>
    cases h
    exact inv_headMove hi hc rfl
  | headWrite clear i =>
    cases h
    obtain ⟨hprog, ho⟩ := hok
    refine hi.written rfl ho.lock (by simp [hc]) (by rw [hc]; rfl) (.inr ?_) fun t => ?_
    · rw [ho.blockno]
      exact notHome_start L
    · exact ⟨hprog.frame ⟨rfl, rfl, rfl⟩, t.owns_self ho rfl rfl (by simp [setPc, bwrite, setDirty])⟩
  | headRelse clear i =>
    cases h
    obtain ⟨⟨hprog, hclear⟩, ho⟩ := hok
    cases clear with
    | true =>
      refine inv_brelse hi ho.lock ho.dirty (by simp [hc]) (by rw [hc]; rfl) ⟨?_, hprog.2⟩
      have h1 := hprog.1
      have h2 := hclear rfl
      show s.copied = 0
      omega
    | false =>
      exact inv_brelse hi ho.lock ho.dirty (by simp [hc]) (by rw [hc]; rfl)
        ⟨hi.header.n_nonneg, hprog.1, hprog.2⟩
  | clearN =>
    cases h
    exact inv_clearN hi hc rfl
  | finish =>
    cases h
    exact inv_finish hi hc
  | _ => exact absurd h hloop

end

theorem step_cases {op : Op} (h : step L s (p, op) = some s') :
    (s.pc p = .user ∧ call L s p op = some s') ∨ (op = .tau ∧ resume L s p (s.pc p) = some s') := by
  unfold step at h
  split at h
  · exact .inl ⟨‹_›, h⟩
  · exact .inr ⟨‹_›, h⟩
  · cases h

/-- Every step keeps the array, with its modifications made. -/
theorem inv_step {ev : Pid × Op} (hi : Inv L s A) (h : step L s ev = some s') :
    Inv L s' (Writes.apply (mods s ev) A) := by
  obtain ⟨p, op⟩ := ev
  rcases step_cases h with ⟨hpc, hcall⟩ | ⟨rfl, hresume⟩
  · exact inv_call hi hpc hcall
  · exact inv_resume hi rfl hresume

end Control

/-! ## Runs -/

/-- Nothing is in progress: the log is empty, no buffer is in use, and the cached blocks are those
on the disk. -/
structure Start (L : Config) (s : State) : Prop where
  all : ∀ i, i ∈ s.lru
  uniq : ∀ i j, (s.buf i).dev = L.dev → (s.buf j).dev = L.dev →
    (s.buf i).blockno = (s.buf j).blockno → i = j
  refcnt : ∀ i, (s.buf i).refcnt = 0
  lock : ∀ i, (s.buf i).lock = none
  data : ∀ i, (s.buf i).dev = L.dev → (s.buf i).valid = true →
    (s.buf i).data = s.disk (s.buf i).blockno
  n : s.lh.n = 0
  committing : s.committing = false
  pc : ∀ p, s.pc p = .user
  held : s.held = []
  pins : ∀ i, s.pins i = 0
  dirty : ∀ i, s.dirty i = false
  copied : s.copied = 0
  unpinned : s.unpinned = 0

theorem Start.inv {L : Config} {s : State} (h : Start L s) : Inv L s s.disk := by
  have hn := h.n
  have hsize := L.size_pos
  have hnone : ∀ b, ¬ Logged s b := fun b ⟨j, _, h2, _⟩ => by omega
  refine ⟨⟨h.all, h.uniq, ?_, ?_, ?_⟩, ⟨by omega, by omega, ?_, ?_⟩, ⟨?_, ?_⟩, ⟨?_, ?_, ?_, ?_⟩,
    ⟨h.data, fun b => .inl rfl, ?_⟩, ?_⟩
  · intro i
    rw [h.refcnt, h.held, h.pins]
    rfl
  · intro i p hi
    rw [h.lock] at hi
    cases hi
  · intro i hi
    rw [h.dirty] at hi
    cases hi
  · intro j k hj
    omega
  · intro j hj
    omega
  · exact fun i => .inr ⟨h.pins i, fun hl => hnone _ hl.2⟩
  · exact fun b hl => absurd hl (hnone b)
  · exact fun _ => ⟨h.copied, h.unpinned⟩
  · intro hc
    rw [h.committing] at hc
    cases hc
  · intro p hp
    rw [h.pc] at hp
    cases hp
  · intro p q hp
    rw [h.pc] at hp
    cases hp
  · intro j hj
    have := h.copied
    omega
  · intro p
    rw [h.pc]
    trivial

def history (L : Config) : State → List (Pid × Op) → List (Nat × Block)
  | _, [] => []
  | s, ev :: es =>
    mods s ev ++
      match step L s ev with
      | some s' => history L s' es
      | none => []

theorem inv_run {L : Config} {es : List (Pid × Op)} : ∀ {s s' : State} {A : Nat → Block},
    Inv L s A → Trans.run (step L) s es = some s' → Inv L s' (Writes.apply (history L s es) A) := by
  induction es with
  | nil =>
    intro s s' A hi h
    cases h
    exact hi
  | cons ev es ih =>
    intro s s' A hi h
    obtain ⟨s1, h1, h2⟩ := Trans.run_cons h
    simp only [history, h1, Writes.apply_append]
    exact ih (inv_step hi h1) h2

/-- A `bread` call for block `b` returns a locked buffer that holds the last modification of `b`
in the run, or the block as it was on the disk at the start. -/
theorem bread_last_modification (L : Config) (s0 : State) (h0 : Start L s0) (es : List (Pid × Op))
    (s s' : State) (p : Pid) (i : BufId) (b : Nat) (hrun : Trans.run (step L) s0 es = some s)
    (hpc : s.pc p = .fill i b .user) (hstep : step L s (p, .tau) = some s') :
    s'.pc p = .user ∧ (s'.buf i).lock = some p ∧ (s'.buf i).dev = L.dev ∧ (s'.buf i).blockno = b ∧
      (s'.buf i).data = Writes.apply (history L s0 es) s0.disk b := by
  have hi := inv_run h0.inv hrun
  have hi' := inv_step hi hstep
  rw [show mods s (p, .tau) = [] by simp [mods, hpc], Writes.apply_nil] at hi'
  have hok := hi.pc p
  rw [hpc] at hok
  obtain ⟨hl, hb, -, -⟩ := hok
  have hs : s' = fill s p i .user := by
    simp only [step, hpc, resume] at hstep
    exact (Option.some.inj hstep).symm
  have hfill : s'.pc p = .user ∧ (s'.buf i).lock = some p ∧ (s'.buf i).blockno = b := by
    rw [hs, fill]
    split
    · exact ⟨by simp [setPc, Cont.pc], hl, hb⟩
    · refine ⟨by simp [setPc, Cont.pc], ?_, ?_⟩
      · simpa [setPc, setBuf] using hl
      · simpa [setPc, setBuf] using hb
  obtain ⟨h1, h2, h3⟩ := hfill
  have hdev := (hi'.refs.lock i p h2).2.1
  have hv := hi'.refs.valid_of_lock h2 (by simp [h1])
  exact ⟨h1, h2, hdev, h3, by rw [hi'.holds.data i hdev hv, h3]⟩

/-- A block that is in no referenced buffer is on the disk with its last modification: `bget` may recycle. -/
theorem unreferenced_on_disk (L : Config) (s0 : State) (h0 : Start L s0) (es : List (Pid × Op)) (s : State) (b : Nat)
    (hrun : Trans.run (step L) s0 es = some s)
    (hfree : ∀ i, (s.buf i).dev = L.dev → (s.buf i).blockno = b → (s.buf i).refcnt = 0) :
    s.disk b = Writes.apply (history L s0 es) s0.disk b := by
  have hi := inv_run h0.inv hrun
  refine (hi.holds.disk b).resolve_right ?_
  rintro ⟨i, hdev, hb, -, hp⟩
  have hc := hi.refs.count i
  rw [hfree i hdev hb] at hc
  rcases hp with hp | hd
  · omega
  · obtain ⟨p, hl⟩ := Option.ne_none_iff_exists'.mp (hi.refs.dirty i hd).1
    have := Tokens.count_pos (hi.refs.lock i p hl).1
    omega

def binit (disk : Nat → Block) : State :=
  { buf := fun _ =>
      { dev := 0, blockno := 0, refcnt := 0, valid := false, lock := none, data := fun _ => 0 }
    lru := (List.finRange NBUF).reverse
    disk := disk
    lh := { n := 0, block := fun _ => 0 }
    outstanding := 0, committing := false, pc := fun _ => .user
    held := [], pins := fun _ => 0, dirty := fun _ => false, copied := 0, unpinned := 0 }

theorem start_binit (L : Config) (disk : Nat → Block) : Start L (binit disk) where
  all i := by simp [binit]
  uniq i j h := absurd h.symm L.dev_ne
  refcnt _ := rfl
  lock _ := rfl
  data _ _ h := by cases h
  n := rfl
  committing := rfl
  pc _ := rfl
  held := rfl
  pins _ := rfl
  dirty _ := rfl
  copied := rfl
  unpinned := rfl

def rootLog : Config :=
  { start := 2, size := 30, size_pos := by decide, fits := by decide, dev := 1, dev_ne := by decide }

/-- Process 1 changes block 100 in an operation that is still open; process 2 reads it. -/
def writeThenRead (v : Block) : List (Pid × Op) :=
  [(1, .beginOp), (1, .bread 100), (1, .tau), (1, .tau), (1, .modify 0 v), (1, .logWrite 0),
    (1, .brelse 0), (1, .tau), (2, .bread 100), (2, .tau)]

theorem bread_last_modification_read :
    ∃ s s', Trans.run (step rootLog) (binit fun _ _ => 0) (writeThenRead fun _ => 7) = some s ∧
      step rootLog s (2, .tau) = some s' ∧ (s'.buf 0).data = fun _ => 7 := by
  refine ⟨_, _, rfl, rfl, ?_⟩
  have h := bread_last_modification rootLog (binit fun _ _ => 0) (start_binit _ _)
    (writeThenRead fun _ => 7) _ _ 2 0 100 rfl rfl rfl
  rw [h.2.2.2.2]
  rfl

/-- Process 1 changes block 100 in an operation, ends it and commits. -/
def writeThenCommit (v : Block) : List (Pid × Op) :=
  (writeThenRead v).take 8 ++ (1, .endOp) :: List.replicate 44 (1, .tau)

theorem unreferenced_on_disk_commit :
    ∃ s ∈ Trans.run (step rootLog) (binit fun _ _ => 0) (writeThenCommit fun _ => 7), s.disk 100 = fun _ => 7 := by
  obtain ⟨s, hrun, hfree⟩ : ∃ s ∈ Trans.run (step rootLog) (binit fun _ _ => 0) (writeThenCommit fun _ => 7),
      ∀ i, (s.buf i).refcnt = 0 := by decide +kernel
  refine ⟨s, hrun, ?_⟩
  rw [unreferenced_on_disk rootLog _ (start_binit _ _) _ s 100 hrun fun i _ _ => hfree i]
  rfl

end Bio
end Xv6
