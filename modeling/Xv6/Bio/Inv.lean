import Xv6.Bio.Model

/-!
# Xv6.Bio.Inv

The invariant of the buffer cache and the log, with every process at any place of its calls.

* `PcOk`: what a process has locked at its place, and how far `commit` is there.
* `Inv L s A`: the cache, the log and the disk together hold the array of blocks `A`.
* `Keeps`, `SameLog`: what a step of one process has to leave alone for the others.
-/

namespace Xv6
namespace Bio

open Log (LogHeader IsHome)
open State Function

def Cont.commits : Cont → Bool
  | .user => false
  | _ => true

def Pc.commits : Pc → Bool
  | .user | .deref _ .user => false
  | .acquire _ _ k | .fill _ _ k => k.commits
  | _ => true

section Places

variable (L : Config) (s : State) (p : Pid)

/-- `p` has locked buffer `i`, which holds block `b`. -/
structure Owns (i : BufId) (b : Nat) (d : Bool) : Prop where
  lock : (s.buf i).lock = some p
  blockno : (s.buf i).blockno = b
  valid : (s.buf i).valid = true
  dirty : s.dirty i = d

/-- How far a loop of `commit` is before turn `tail`. -/
def Progress : Loop → Nat → Prop
  | .writeLog, tail => s.copied = tail ∧ s.unpinned = 0
  | .installTrans, tail => (s.copied : Int) = s.lh.n ∧ s.unpinned = tail

def HeadProgress (clear : Bool) : Prop :=
  Progress s .installTrans 0 ∧ (clear = true → s.lh.n = 0)

def ContOk (b : Nat) : Cont → Prop
  | .user => True
  | .log l tail => (tail : Int) < s.lh.n ∧ Progress s l tail ∧ b = L.start + tail + 1
  | .home l tail a =>
    (tail : Int) < s.lh.n ∧ Progress s l tail ∧ b = s.lh.block tail ∧
      Owns s p a (L.start + tail + 1) false
  | .head clear => HeadProgress s clear ∧ b = L.start

def NextOk : Next → Prop
  | .user => True
  | .relse2 l tail i =>
    (tail : Int) < s.lh.n ∧ Progress s l (tail + 1) ∧ (s.buf i).lock = some p ∧ s.dirty i = false
  | .loop l tail => (tail : Int) ≤ s.lh.n ∧ Progress s l tail
  | .finish => s.copied = 0 ∧ s.unpinned = 0

/-- What a process at each place has locked, and how far `commit` is there. -/
def PcOk : Pc → Prop
  | .user => True
  | .acquire i b k => (p, i) ∈ s.held ∧ (s.buf i).dev = L.dev ∧ (s.buf i).blockno = b ∧ ContOk L s p b k
  | .fill i b k =>
    (s.buf i).lock = some p ∧ (s.buf i).blockno = b ∧ s.dirty i = false ∧ ContOk L s p b k
  | .deref i k => (p, i) ∈ s.held ∧ (s.buf i).lock ≠ some p ∧ NextOk s p k
  | .commit => Progress s .writeLog 0
  | .loop l tail => NextOk s p (.loop l tail)
  | .second l tail a =>
    (tail : Int) < s.lh.n ∧ Progress s l tail ∧ Owns s p a (L.start + tail + 1) false
  | .move l tail a c =>
    (tail : Int) < s.lh.n ∧ Progress s l tail ∧ Owns s p a (L.start + tail + 1) false ∧
      Owns s p c (s.lh.block tail) false
  | .write .writeLog tail a c =>
    (tail : Int) < s.lh.n ∧ Progress s .writeLog (tail + 1) ∧ Owns s p a (L.start + tail + 1) true ∧
      Owns s p c (s.lh.block tail) false
  | .write .installTrans tail a c =>
    (tail : Int) < s.lh.n ∧ Progress s .installTrans tail ∧ Owns s p a (L.start + tail + 1) false ∧
      Owns s p c (s.lh.block tail) false
  | .unpin tail a c =>
    (tail : Int) < s.lh.n ∧ Progress s .installTrans tail ∧ Owns s p a (L.start + tail + 1) false ∧
      Owns s p c (s.lh.block tail) false ∧ s.disk (s.lh.block tail) = (s.buf c).data
  | .relse l tail a c =>
    (tail : Int) < s.lh.n ∧ Progress s l (tail + 1) ∧ Owns s p a (L.start + tail + 1) false ∧
      Owns s p c (s.lh.block tail) false
  | .relse2 l tail i => NextOk s p (.relse2 l tail i)
  | .writeHead clear => HeadProgress s clear
  | .headMove clear i => HeadProgress s clear ∧ Owns s p i L.start false
  | .headWrite clear i => HeadProgress s clear ∧ Owns s p i L.start true
  | .headRelse clear i => HeadProgress s clear ∧ Owns s p i L.start false
  | .clearN => (s.unpinned : Int) = s.lh.n
  | .finish => NextOk s p .finish

end Places

structure Refs (L : Config) (s : State) : Prop where
  all : ∀ i, i ∈ s.lru
  uniq : ∀ i j, (s.buf i).dev = L.dev → (s.buf j).dev = L.dev →
    (s.buf i).blockno = (s.buf j).blockno → i = j
  count : ∀ i, (s.buf i).refcnt = Tokens.count s.held i + s.pins i
  lock : ∀ i p, (s.buf i).lock = some p → (p, i) ∈ s.held ∧ (s.buf i).dev = L.dev ∧
    ((s.buf i).valid = true ∨ ∃ b k, s.pc p = .fill i b k)
  dirty : ∀ i, s.dirty i = true → (s.buf i).lock ≠ none ∧ (s.buf i).valid = true

/-- The in-memory header names distinct blocks outside the log region, and fits the log. -/
structure HeaderOk (L : Config) (lh : LogHeader) : Prop where
  n_nonneg : 0 ≤ lh.n
  n_size : lh.n ≤ L.size - 1
  nodup : ∀ j k : Nat, (j : Int) < lh.n → (k : Int) < lh.n → lh.block j = lh.block k → j = k
  home : ∀ j : Nat, (j : Int) < lh.n → IsHome L.toConfig (lh.block j)

def Logged (s : State) (b : Nat) : Prop :=
  ∃ j : Nat, s.unpinned ≤ j ∧ (j : Int) < s.lh.n ∧ s.lh.block j = b

/-- The buffers of the logged blocks, and no others, are pinned, once. -/
structure Pinned (L : Config) (s : State) : Prop where
  pins : ∀ i, s.pins i = 1 ∧ (s.buf i).dev = L.dev ∧ (s.buf i).valid = true ∧ Logged s (s.buf i).blockno ∨
    s.pins i = 0 ∧ ¬ ((s.buf i).dev = L.dev ∧ Logged s (s.buf i).blockno)
  cached : ∀ b, Logged s b → ∃ i, (s.buf i).dev = L.dev ∧ (s.buf i).blockno = b

/-- At most one process commits, and no operation is in progress then. -/
structure Committing (s : State) : Prop where
  quiet : s.committing = false → s.copied = 0 ∧ s.unpinned = 0
  busy : s.committing = true → s.outstanding = 0
  committer : ∀ p, (s.pc p).commits = true → s.committing = true
  alone : ∀ p q, (s.pc p).commits = true → (s.pc q).commits = true → p = q

/-- Where the contents of the block array `A` are. -/
structure Holds (L : Config) (s : State) (A : Nat → Block) : Prop where
  data : ∀ i, (s.buf i).dev = L.dev → (s.buf i).valid = true → (s.buf i).data = A (s.buf i).blockno
  disk : ∀ b, s.disk b = A b ∨ ∃ i, (s.buf i).dev = L.dev ∧ (s.buf i).blockno = b ∧
    (s.buf i).valid = true ∧ (s.pins i = 1 ∨ s.dirty i = true)
  copied : ∀ j : Nat, j < s.copied → (j : Int) < s.lh.n → A (L.start + j + 1) = A (s.lh.block j) ∨
    ∃ i, (s.buf i).dev = L.dev ∧ (s.buf i).blockno = s.lh.block j ∧ s.dirty i = true

/-- The cache and the log keep the block array `A`. -/
structure Inv (L : Config) (s : State) (A : Nat → Block) : Prop where
  refs : Refs L s
  header : HeaderOk L s.lh
  pinned : Pinned L s
  committing : Committing s
  holds : Holds L s A
  pc : ∀ p, PcOk L s p (s.pc p)

/-- What the steps of other processes leave alone for `q`. -/
structure Keeps (s s' : State) (q : Pid) : Prop where
  held : ∀ i, (q, i) ∈ s.held → (q, i) ∈ s'.held ∧ (s'.buf i).dev = (s.buf i).dev ∧
    (s'.buf i).blockno = (s.buf i).blockno
  locked : ∀ i, (s.buf i).lock = some q → (s'.buf i).lock = some q ∧
    (s'.buf i).blockno = (s.buf i).blockno ∧ (s'.buf i).valid = (s.buf i).valid ∧
    (s'.buf i).data = (s.buf i).data ∧ s'.dirty i = s.dirty i ∧
    s'.disk (s.buf i).blockno = s.disk (s.buf i).blockno
  unlocked : ∀ i, (s'.buf i).lock = some q → (s.buf i).lock = some q

structure SameLog (s s' : State) : Prop where
  lh : s'.lh = s.lh
  copied : s'.copied = s.copied
  unpinned : s'.unpinned = s.unpinned

section Frame

variable {L : Config} {s s' : State} {q : Pid}

theorem Owns.frame {i : BufId} {b : Nat} {d : Bool} (h : Owns s q i b d) (hk : Keeps s s' q) : Owns s' q i b d := by
  obtain ⟨h1, h2, h3, -, h5, -⟩ := hk.locked i h.lock
  exact ⟨h1, h2.trans h.blockno, h3.trans h.valid, h5.trans h.dirty⟩

theorem Progress.frame {l : Loop} {tail : Nat} (h : Progress s l tail) (hs : SameLog s s') : Progress s' l tail := by
  cases l <;> simpa [Progress, hs.lh, hs.copied, hs.unpinned] using h

theorem HeadProgress.frame {clear : Bool} (h : HeadProgress s clear) (hs : SameLog s s') : HeadProgress s' clear :=
  ⟨h.1.frame hs, hs.lh ▸ h.2⟩

theorem ContOk.keep {b : Nat} {k : Cont} (h : ContOk L s q b k) (hs : k.commits = true → SameLog s s')
    (ho : ∀ l tail a, k = .home l tail a → Owns s q a (L.start + tail + 1) false → Owns s' q a (L.start + tail + 1) false) :
    ContOk L s' q b k := by
  cases k with
  | user => trivial
  | log l tail => exact ⟨(hs rfl).lh ▸ h.1, h.2.1.frame (hs rfl), h.2.2⟩
  | home l tail a =>
    have hlh := (hs rfl).lh
    exact ⟨hlh ▸ h.1, h.2.1.frame (hs rfl), hlh ▸ h.2.2.1, ho l tail a rfl h.2.2.2⟩
  | head clear => exact ⟨h.1.frame (hs rfl), h.2⟩

theorem NextOk.frame {k : Next} (h : NextOk s q k)
    (hk : ∀ i, (s.buf i).lock = some q → (s'.buf i).lock = some q ∧ s'.dirty i = s.dirty i)
    (hs : k.pc.commits = true → SameLog s s') : NextOk s' q k := by
  cases k with
  | user => trivial
  | relse2 l tail i =>
    obtain ⟨h1, h2, h3, h4⟩ := h
    obtain ⟨g1, g2⟩ := hk i h3
    exact ⟨(hs rfl).lh ▸ h1, h2.frame (hs rfl), g1, g2.trans h4⟩
  | loop l tail => exact ⟨(hs rfl).lh ▸ h.1, h.2.frame (hs rfl)⟩
  | finish => simpa [NextOk, (hs rfl).copied, (hs rfl).unpinned] using h

theorem Next.pc_commits (k : Next) (i : BufId) : k.pc.commits = (Pc.deref i k).commits := by
  cases k <;> rfl

theorem NextOk.pc {k : Next} (h : NextOk s q k) : PcOk L s q k.pc := by
  cases k <;> exact h

theorem PcOk.frame {c : Pc} (h : PcOk L s q c) (hk : Keeps s s' q)
    (hs : c.commits = true → SameLog s s') : PcOk L s' q c := by
  have hlock : ∀ i, (s.buf i).lock = some q → (s'.buf i).lock = some q ∧ s'.dirty i = s.dirty i :=
    fun i hi => ⟨(hk.locked i hi).1, (hk.locked i hi).2.2.2.2.1⟩
  cases c with
  | user => trivial
  | acquire i b k =>
    obtain ⟨h1, h2, h3, h4⟩ := h
    obtain ⟨g1, g2, g3⟩ := hk.held i h1
    exact ⟨g1, g2.trans h2, g3.trans h3, h4.keep hs fun _ _ _ _ ho => ho.frame hk⟩
  | fill i b k =>
    obtain ⟨h1, h2, h3, h4⟩ := h
    obtain ⟨g1, g2, -, -, g5, -⟩ := hk.locked i h1
    exact ⟨g1, g2.trans h2, g5.trans h3, h4.keep hs fun _ _ _ _ ho => ho.frame hk⟩
  | deref i k =>
    refine ⟨(hk.held i h.1).1, fun hl => h.2.1 (hk.unlocked i hl), h.2.2.frame hlock fun hc => hs ?_⟩
    rw [← k.pc_commits i, hc]
  | commit =>
    have h : Progress s .writeLog 0 := h
    exact h.frame (hs rfl)
  | loop l tail => exact NextOk.frame (k := .loop l tail) h hlock hs
  | second l tail a => exact ⟨(hs rfl).lh ▸ h.1, h.2.1.frame (hs rfl), h.2.2.frame hk⟩
  | move l tail a c =>
    have hlh := (hs rfl).lh
    exact ⟨hlh ▸ h.1, h.2.1.frame (hs rfl), h.2.2.1.frame hk, hlh ▸ h.2.2.2.frame hk⟩
  | write l tail a c =>
    have hlh := (hs rfl).lh
    cases l <;>
      exact ⟨hlh ▸ h.1, h.2.1.frame (hs rfl), h.2.2.1.frame hk, hlh ▸ h.2.2.2.frame hk⟩
  | unpin tail a c =>
    have hlh := (hs rfl).lh
    obtain ⟨h1, h2, h3, h4, h5⟩ := h
    obtain ⟨-, -, -, g4, -, g6⟩ := hk.locked c h4.lock
    rw [h4.blockno] at g6
    exact ⟨hlh ▸ h1, h2.frame (hs rfl), h3.frame hk, hlh ▸ h4.frame hk, by rw [hlh, g6, g4, h5]⟩
  | relse l tail a c =>
    have hlh := (hs rfl).lh
    exact ⟨hlh ▸ h.1, h.2.1.frame (hs rfl), h.2.2.1.frame hk, hlh ▸ h.2.2.2.frame hk⟩
  | relse2 l tail i => exact NextOk.frame (k := .relse2 l tail i) h hlock hs
  | writeHead clear =>
    have h : HeadProgress s clear := h
    exact h.frame (hs rfl)
  | headMove clear i => exact ⟨h.1.frame (hs rfl), h.2.frame hk⟩
  | headWrite clear i => exact ⟨h.1.frame (hs rfl), h.2.frame hk⟩
  | headRelse clear i => exact ⟨h.1.frame (hs rfl), h.2.frame hk⟩
  | clearN => simpa [PcOk, (hs rfl).lh, (hs rfl).unpinned] using h
  | finish => exact NextOk.frame (k := .finish) h hlock hs

end Frame

/-! ## Gluing -/

section Glue

variable {L : Config} {s s' : State} {p : Pid} {i : BufId} {x : Buf} {A : Nat → Block}

theorem Inv.pc_step {c : Pc} (hi : Inv L s A) (hpc : s'.pc = update s.pc p c)
    (hk : ∀ q, q ≠ p → Keeps s s' q)
    (hs : s.committing = true → (s.pc p).commits = false → SameLog s s') (hp : PcOk L s' p c) :
    ∀ q, PcOk L s' q (s'.pc q) := by
  intro q
  rw [hpc]
  by_cases hq : q = p
  · subst hq
    simpa using hp
  · rw [update_of_ne hq]
    refine (hi.pc q).frame (hk q hq) (fun hc => ?_)
    refine hs (hi.committing.committer q hc) ?_
    by_contra hp
    exact hq (hi.committing.alone q p hc (by simpa using hp))

theorem Committing.step {c : Pc} (h : Committing s) (hpc : s'.pc = update s.pc p c)
    (hcom : s'.committing = s.committing) (hout : s'.outstanding = s.outstanding) (hc : c.commits = (s.pc p).commits)
    (hq : (s.pc p).commits = false → s'.copied = s.copied ∧ s'.unpinned = s.unpinned) : Committing s' := by
  have hpcs : ∀ q, (s'.pc q).commits = (s.pc q).commits := by
    intro q
    rw [hpc]
    by_cases hq : q = p
    · subst hq; simpa using hc
    · rw [update_of_ne hq]
  refine ⟨?_, ?_, ?_, ?_⟩
  · intro h0
    rw [hcom] at h0
    have hp : (s.pc p).commits = false := by
      by_contra hp
      rw [h.committer p (by simpa using hp)] at h0
      cases h0
    rw [(hq hp).1, (hq hp).2]
    exact h.quiet h0
  · rw [hcom, hout]; exact h.busy
  · intro q; rw [hpcs, hcom]; exact h.committer q
  · intro q q'; rw [hpcs, hpcs]; exact h.alone q q'

theorem keeps_locked (hr : Refs L s) (hbuf : s'.buf = update s.buf i x)
    (hdev : x.dev = (s.buf i).dev) (hblk : x.blockno = (s.buf i).blockno) (hheld : s'.held = s.held)
    (hlock : ∀ q, q ≠ p → (s.buf i).lock ≠ some q) (hx : ∀ q, q ≠ p → x.lock ≠ some q)
    (hdirty : ∀ j, j ≠ i → s'.dirty j = s.dirty j) (hdisk : s'.disk = s.disk ∨ (s.buf i).dev = L.dev ∧
      ∀ b, b ≠ (s.buf i).blockno → s'.disk b = s.disk b) : ∀ q, q ≠ p → Keeps s s' q := by
  intro q hq
  have hne : ∀ {j}, j ≠ i → s'.buf j = s.buf j := by
    intro j hj
    rw [hbuf, update_of_ne hj]
  have hself : s'.buf i = x := by rw [hbuf, update_self]
  refine ⟨?_, ?_, ?_⟩
  · intro j hj
    rw [hheld]
    by_cases he : j = i
    · subst he; rw [hself]; exact ⟨hj, hdev, hblk⟩
    · rw [hne he]; exact ⟨hj, rfl, rfl⟩
  · intro j hj
    have he : j ≠ i := by
      rintro rfl
      exact hlock q hq hj
    rw [hne he]
    refine ⟨hj, rfl, rfl, rfl, hdirty j he, ?_⟩
    rcases hdisk with hd | ⟨hd, hd'⟩
    · rw [hd]
    · exact hd' _ fun hb => he (hr.uniq j i (hr.lock j q hj).2.1 hd hb)
  · intro j hj
    by_cases he : j = i
    · subst he; rw [hself] at hj; exact absurd hj (hx q hq)
    · rwa [hne he] at hj

end Glue

end Bio
end Xv6
