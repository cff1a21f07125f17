import Xv6.Fs.Path
import Xv6.Fs.Format
import Mathlib.Algebra.BigOperators.Pi

/-!
# Xv6.Fs.Resolve

Path resolution: what `namei` and `nameiparent` return, and that they return.

* `Abs.walk_eq_none`, `Abs.walkParent_eq_some`: where a path leads, and where it stops.
* `Tree`: the names in the directories are those of inodes in use.
* `State.refs`, `refs_get`: the references that the inode table counts.
* `path_resolution`: the call returns the inode that the path leads to with one more reference, and
  no lock. It can stop only when fewer than two entries of the inode table are free.
-/

namespace Xv6
namespace Fs

open Bytes Prog

/-! ## Paths -/

namespace Abs

variable {a : Abs} {i : Nat}

theorem walk_append (i : Nat) (ws ws' : List (List UInt8)) :
    a.walk i (ws ++ ws') = (a.walk i ws).bind fun j => a.walk j ws' := by
  induction ws generalizing i with
  | nil => rfl
  | cons w ws ih =>
    rw [List.cons_append, walk, walk, Option.bind_assoc]
    congr 1
    funext j
    exact ih j

def Missing (a : Abs) (i : Nat) (w : List UInt8) : Prop :=
  ∀ x, a.ino i = some x → ∀ k < x.count, ¬ x.Binds (w.take DIRSIZ) k

theorem lookup_eq_none {w : List UInt8} : a.lookup i w = none ↔ ¬ a.IsDir i ∨ a.Missing i w := by
  unfold lookup IsDir Missing
  cases hx : a.ino i with
  | none => simp
  | some x =>
    by_cases hd : x.type = T_DIR
    · simp [hd, Ino.find_eq_none]
    · simp [hd]

/-- A path leads nowhere when an inode on the way is not a directory, or has no entry for the next element. -/
theorem walk_eq_none {ws : List (List UInt8)} : a.walk i ws = none ↔
    ∃ ws1 w ws2 j, ws = ws1 ++ w :: ws2 ∧ a.walk i ws1 = some j ∧ (¬ a.IsDir j ∨ a.Missing j w) := by
  constructor
  · intro h
    induction ws generalizing i with
    | nil => cases h
    | cons w ws ih =>
      rw [walk] at h
      cases hl : a.lookup i w with
      | none => exact ⟨[], w, ws, i, rfl, rfl, lookup_eq_none.mp hl⟩
      | some j =>
        rw [hl, Option.bind_some] at h
        obtain ⟨ws1, w', ws2, j', rfl, hj', hw'⟩ := ih h
        refine ⟨w :: ws1, w', ws2, j', rfl, ?_, hw'⟩
        rw [walk, hl]
        exact hj'
  · rintro ⟨ws1, w, ws2, j, rfl, hj, hw⟩
    rw [walk_append, hj, Option.bind_some, walk, lookup_eq_none.mpr hw]
    rfl

theorem walkParent_append (i : Nat) (ws : List (List UInt8)) (w : List UInt8) {d : Nat} {n : List UInt8} :
    a.walkParent i (ws ++ [w]) = some (d, n) ↔ a.walk i ws = some d ∧ a.IsDir d ∧ n = w.take DIRSIZ := by
  induction ws generalizing i with
  | nil =>
    rw [List.nil_append, walkParent, walk, Option.some.injEq]
    by_cases hi : a.IsDir i
    · rw [if_pos hi, Option.some.injEq, Prod.mk.injEq]
      constructor
      · rintro ⟨rfl, rfl⟩
        exact ⟨rfl, hi, rfl⟩
      · rintro ⟨rfl, -, rfl⟩
        exact ⟨rfl, rfl⟩
    · rw [if_neg hi]
      constructor
      · rintro ⟨⟩
      · rintro ⟨rfl, hd, -⟩
        exact absurd hd hi
  | cons w' ws ih =>
    obtain ⟨w2, ws2, hws⟩ := List.exists_cons_of_ne_nil (show ws ++ [w] ≠ [] by simp)
    rw [List.cons_append, hws, walkParent, walk, ← hws]
    cases a.lookup i w' with
    | none => simp
    | some j => exact ih j

theorem walkParent_eq_some {ws : List (List UInt8)} {d : Nat} {n : List UInt8} : a.walkParent i ws = some (d, n) ↔
    ∃ ws' w, ws = ws' ++ [w] ∧ a.walk i ws' = some d ∧ a.IsDir d ∧ n = w.take DIRSIZ := by
  rcases List.eq_nil_or_concat ws with rfl | ⟨ws', w, rfl⟩
  · simp [walkParent]
  · rw [List.concat_eq_append, walkParent_append]
    constructor
    · exact fun h => ⟨ws', w, rfl, h⟩
    · rintro ⟨ws1, w1, h1, h⟩
      obtain ⟨hws, hw⟩ := List.append_inj' h1 rfl
      rw [hws, (List.cons.inj hw).1]
      exact h

end Abs

/-! ## References -/

def State.refs (s : State) : Nat := ∑ e, (s.inode e).ref

variable {sb : Superblock} {S : Set Nat} {s s' : State} {a : Abs} {e : Entry} {i : Nat} {p : ProcId}

theorem Rep.ref_eq (h : Rep sb S s a) (e : Entry) : (s.inode e).ref = ((a.slot e).map Slot.ref).getD 0 := by
  cases ht : a.slot e with
  | none => exact h.slot_none.mp ht
  | some t => exact (h.live ht).2.2

theorem refs_eq (h : Rep sb S s a) (h' : Rep sb S s' a) : s'.refs = s.refs :=
  Finset.sum_congr rfl fun e _ => by rw [h'.ref_eq, h.ref_eq]

theorem refs_get (h : Rep sb S s a) (h' : Rep sb S s' (a.get e i)) : s'.refs = s.refs + 1 := by
  have hone : ∀ e', (s'.inode e').ref = (s.inode e').ref + if e' = e then 1 else 0 := by
    intro e'
    rw [h'.ref_eq, h.ref_eq]
    by_cases he : e' = e
    · subst he
      rw [if_pos rfl]
      cases ht : a.slot e' with
      | none => rw [Abs.slot_get_none ht]; rfl
      | some t => rw [Abs.slot_get_some ht]; rfl
    · rw [if_neg he, Abs.slot_get_ne he]
      rfl
  rw [State.refs, Finset.sum_congr rfl fun e' _ => hone e', Finset.sum_add_distrib, Finset.sum_ite_eq', State.refs]
  simp

/-! ## Resolution -/

/-- The directories of a well-formed tree name inodes in use, and so does the current directory of `p`. -/
structure Tree (p : ProcId) (a : Abs) : Prop where
  root : a.IsDir ROOTINO
  cwd : ∃ e t, (a.proc p).cwd = some e ∧ a.slot e = some t ∧ a.IsDir t.inum
  entries : ∀ i x, a.ino i = some x → x.type = T_DIR → ∀ k < x.count, (x.entry k).inum ≠ 0 → a.ino (x.target k) ≠ none

theorem Tree.start (h : Tree p a) (path : List UInt8) : a.IsDir (a.start p path) := by
  unfold Abs.start
  split
  · exact h.root
  · obtain ⟨e, t, hc, ht, hd⟩ := h.cwd
    rw [hc, Option.bind_some, ht]
    exact hd

theorem Tree.lookup (h : Tree p a) {w : List UInt8} {j : Nat} (hl : a.lookup i w = some j) : a.ino j ≠ none := by
  unfold Abs.lookup at hl
  split at hl
  · rename_i x hx
    split at hl
    · rename_i hd
      rw [Option.map_eq_some_iff] at hl
      obtain ⟨k, hk, rfl⟩ := hl
      obtain ⟨hk, hb⟩ := Ino.find_eq_some hk
      exact h.entries i x hx hd k hk hb.1
    · cases hl
  · cases hl

theorem Tree.stops (h : Tree p a) : Stops (fun e => e = .panic "iget: no inodes" ∧ ¬ a.Room) p a where
  full hr := ⟨rfl, hr⟩
  start path h0 := by
    obtain ⟨x, hx, -⟩ := h.start path
    rw [hx] at h0
    cases h0
  entry _ _ _ hl h0 := absurd h0 (h.lookup hl)

/-- The abstract state with the reference that a lookup has returned. -/
def Abs.taken (a : Abs) (s' : State) : Option Entry → Abs
  | none => a
  | some e => a.get e (s'.inode e).inum

/-- What a lookup leaves behind: one reference if it has returned one, no lock, and everything else as it was. -/
structure Balanced (sb : Superblock) (S : Set Nat) (a : Abs) (s : State) (r : Option Entry) (s' : State) : Prop where
  refs : s'.refs = s.refs + if r.isSome then 1 else 0
  unlocked : ∀ e, (s'.inode e).lock = none
  rep : Rep sb S s' (a.taken s' r)

theorem Balanced.none (h : Rep sb S s a) (hr : Ready sb p a) (h' : Rep sb S s' a) : Balanced sb S a s .none s' :=
  ⟨by simp [refs_eq h h'], fun e => (h'.lock_eq e).symm.trans (hr.unlocked e), h'⟩

theorem Balanced.some (h : Rep sb S s a) (hr : Ready sb p a) (hat : a.At e i) (h' : Rep sb S s' (a.get e i)) :
    (s'.inode e).inum = i ∧ Balanced sb S a s (.some e) s' := by
  obtain ⟨t, ht, rfl⟩ := Abs.slot_get_at hat
  have hi := (h'.live ht).2.1
  refine ⟨hi, by simp [refs_get h h'], fun e' => (h'.lock_eq e').symm.trans (hr.unlocked e'), ?_⟩
  rw [Abs.taken, hi]
  exact h'

def Resolved (a : Abs) (i : Nat) (ws : List (List UInt8)) (r : Option Entry) (s' : State) : Prop :=
  match r with
  | .some e => a.walk i ws = .some (s'.inode e).inum
  | .none => ∃ ws₁ w ws₂ j, ws = ws₁ ++ w :: ws₂ ∧ a.walk i ws₁ = .some j ∧ (¬ a.IsDir j ∨ a.Missing j w)

def ResolvedParent (a : Abs) (i : Nat) (ws : List (List UInt8)) (r : Option (Entry × Name)) (s' : State) : Prop :=
  match r with
  | .some (e, name) => ∃ ws' w, ws = ws' ++ [w] ∧ a.walk i ws' = .some (s'.inode e).inum ∧
      a.IsDir (s'.inode e).inum ∧ cstr (byte name) = w.take DIRSIZ
  | .none => ∀ ws' w d, ws = ws' ++ [w] → a.walk i ws' = .some d → ¬ a.IsDir d

/-- Path resolution, for a process in a transaction that holds no lock. -/
theorem path_resolution (hg : sb.Geom) (h : Rep sb S s a) (hr : Ready sb p a) (ht : Tree p a) (path : List UInt8)
    (h0 : 0 ∉ path) : wpe (fun e => e = .panic "iget: no inodes" ∧ ¬ a.Room) (namei sb p path) (fun r s' =>
      Resolved a (a.start p path) (elems path) r s' ∧ Balanced sb S a s r s') s ∧
    wpe (fun e => e = .panic "iget: no inodes" ∧ ¬ a.Room) (nameiparent sb p path) (fun r s' =>
      ResolvedParent a (a.start p path) (elems path) r s' ∧ Balanced sb S a s (r.map Prod.fst) s') s := by
  constructor
  · refine wpe_mono (wpe_namei_stops ht.stops hg hr h h0) fun r s' hgot => ?_
    cases hw : a.walk (a.start p path) (elems path) with
    | none =>
      rw [hw] at hgot
      obtain ⟨rfl, h'⟩ := hgot
      exact ⟨Abs.walk_eq_none.mp hw, .none h hr h'⟩
    | some j =>
      rw [hw] at hgot
      obtain ⟨e, rfl, hat, h'⟩ := hgot
      obtain ⟨hj, hb⟩ := Balanced.some h hr hat h'
      exact ⟨hw.trans (congrArg _ hj.symm), hb⟩
  · refine wpe_mono (wpe_nameiparent_stops ht.stops hg hr h h0) fun r s' hgot => ?_
    cases hw : a.walkParent (a.start p path) (elems path) with
    | none =>
      rw [hw] at hgot
      obtain ⟨rfl, h'⟩ := hgot
      refine ⟨fun ws' w d hws hd hdir => ?_, .none h hr h'⟩
      rw [Abs.walkParent_eq_some.mpr ⟨ws', w, hws, hd, hdir, rfl⟩] at hw
      cases hw
    | some q =>
      obtain ⟨d, n⟩ := q
      rw [hw] at hgot
      obtain ⟨e, name, rfl, hn, hdir, hat, h'⟩ := hgot
      obtain ⟨hj, hb⟩ := Balanced.some h hr hat h'
      obtain ⟨ws', w, hws, hd, -, rfl⟩ := Abs.walkParent_eq_some.mp hw
      exact ⟨⟨ws', w, hws, hd.trans (congrArg _ hj.symm), hj.symm ▸ hdir, hn⟩, hb⟩

/-! ## A full table -/

def oneByteName (c : UInt8) (j : Nat) : UInt8 := if j = 0 then c else 0

/-- The entries of a root directory with 50 empty files. The first of them is the last inode. -/
def crowdedDirent (k : Nat) : Dirent :=
  if k = 0 then newDirent (dots 1) 1
  else if k = 1 then newDirent (dots 2) 1
  else newDirent (oneByteName (.ofNat (k + 46))) (53 - k)

def crowded : Volume where
  dinode i := if i = 1 then ⟨T_DIR, 0, 0, 1, 832, fun k => if k = 0 then 46 else 0⟩
    else if 2 ≤ i ∧ i ≤ 51 then ⟨T_FILE, 0, 0, 1, 0, fun _ => 0⟩ else .zero
  data b := if b = 46 then dirBlock crowdedDirent 0 else zeroBlock
  blocks := 47

/-- The first `m` inodes are in the table; the root is the current directory. -/
def crowdedState (m : Nat) : State where
  disk := crowded.disk
  log := []
  outstanding := 1
  logged := []
  ballocs := 0
  inode := fun e => if e.val < m then ⟨e + 1, 1, none, true, crowded.dinode (e + 1)⟩ else ⟨0, 0, none, false, .zero⟩
  file := fun _ => ⟨.none, 0, false, false, 0, 0, 0, 0⟩
  pipe := fun _ => ⟨false, false, 0, 0⟩
  proc := fun _ => ⟨.runnable, none, fun _ => none, some 0⟩

namespace Crowded

variable {i m : Nat}

theorem dinode_root : crowded.view.dinode 1 = ⟨T_DIR, 0, 0, 1, 832, fun k => if k = 0 then 46 else 0⟩ := rfl

theorem dinode_file (h : 2 ≤ i ∧ i ≤ 51) : crowded.view.dinode i = ⟨T_FILE, 0, 0, 1, 0, fun _ => 0⟩ := by
  have hi : 0 < i ∧ i < 200 := by omega
  have h1 : i ≠ 1 := by omega
  show (if 0 < i ∧ i < 200 then crowded.dinode i else .zero) = _
  rw [if_pos hi]
  exact (if_neg h1).trans (if_pos h)

theorem dinode_free (h : ¬ (1 ≤ i ∧ i ≤ 51)) : crowded.view.dinode i = .zero := by
  have h1 : i ≠ 1 := by omega
  have h2 : ¬ (2 ≤ i ∧ i ≤ 51) := by omega
  show (if 0 < i ∧ i < 200 then crowded.dinode i else .zero) = _
  split
  · exact (if_neg h1).trans (if_neg h2)
  · rfl

theorem cases (h : (crowded.view.dinode i).type ≠ 0) : i = 1 ∨ 2 ≤ i ∧ i ≤ 51 := by
  by_contra hn
  rw [dinode_free (by omega)] at h
  exact h rfl

theorem addr_root (k : Nat) : crowded.view.addr 1 k = if k = 0 then 46 else 0 := by
  have ht : (crowded.view.dinode 1).type ≠ 0 := show T_DIR ≠ 0 by decide
  rcases Nat.lt_or_ge NDIRECT k with hk | hk
  · rw [View.addr_no_indirect (Nat.le_of_lt hk) (by rw [View.addr_direct ht le_rfl]; rfl), if_neg (by omega)]
  · rw [View.addr_direct ht hk, dinode_root, Dinode.addr, dif_pos (Nat.lt_succ_of_le hk)]
    by_cases h0 : k = 0
    · subst h0
      rfl
    · have hk0 : (⟨k, Nat.lt_succ_of_le hk⟩ : Fin (NDIRECT + 1)) ≠ 0 := fun h => h0 (congrArg Fin.val h)
      simp only [if_neg h0, if_neg hk0]
      rfl

theorem addr_other (h : i ≠ 1) (k : Nat) : crowded.view.addr i k = 0 := by
  by_cases hf : 2 ≤ i ∧ i ≤ 51
  · have hz : ∀ l, (crowded.view.dinode i).addr l = 0 := fun l => by
      rw [dinode_file hf, Dinode.addr]
      split <;> rfl
    exact View.addr_empty fun l _ => hz l
  · exact View.addr_free (by rw [dinode_free (by omega)]; rfl)

theorem owned : Places.Owned mkfsSuper.nmeta mkfsSuper.size crowded.view.places ∅ crowded.view.used := by
  refine Places.Owned.of_owner (n := 47) (fun _ => (1, 0)) (by decide) (by decide) (by decide) ?_ ?_ ?_
  · rintro ⟨i, k⟩ hx
    have hx : crowded.view.addr i k ≠ 0 := hx
    by_cases hi : i = 1
    · subst hi
      rw [addr_root] at hx
      by_cases hk : k = 0
      · subst hk
        decide
      · exact absurd (if_neg hk) hx
    · exact absurd (addr_other hi k) hx
  · intro b h1 h2
    have h1 : 46 ≤ b := h1
    show crowded.view.addr 1 0 = b
    rw [addr_root, if_pos rfl]
    omega
  · intro b hb
    show (decide (b < mkfsSuper.size) && decide (b < 47)) = _
    rw [decide_eq_true hb, Bool.true_and]

theorem ok : crowded.Ok := by
  refine ⟨owned, fun i hi => ?_, fun i hi => ?_⟩
  · rcases cases hi with rfl | hf
    · refine ⟨by decide, fun bn hbn => ?_⟩
      have h0 : bn = 0 := by
        have : bn * BSIZE < 832 := hbn
        simp only [BSIZE] at this
        omega
      subst h0
      rw [show place 0 = 0 from rfl, addr_root]
      decide
    · rw [dinode_file hf] at hi
      refine ⟨by rw [dinode_file hf]; decide, fun bn hbn => ?_⟩
      rw [dinode_file hf] at hbn
      exact absurd hbn (Nat.not_lt_zero _)
  · rcases cases hi with rfl | hf
    · decide
    · rw [dinode_file hf]
      decide

theorem entry_ok (hm : m ≤ 50) (e : Entry) : crowded.Entry ((crowdedState m).inode e) := by
  by_cases he : e.val < m
  · have hy : (crowdedState m).inode e = ⟨e + 1, 1, none, true, crowded.dinode (e + 1)⟩ := if_pos he
    have ht : ∀ i < 50, (crowded.dinode (i + 1)).type ≠ 0 := by decide
    rw [hy]
    exact .inr ⟨Nat.one_pos, Nat.succ_pos _, show e.val + 1 < 200 by omega, rfl, rfl, ht e e.isLt⟩
  · have hy : (crowdedState m).inode e = ⟨0, 0, none, false, .zero⟩ := if_neg he
    rw [hy]
    exact .inl ⟨rfl, rfl⟩

theorem uniq : Uniq (crowdedState m).inode := by
  have hin : ∀ e, 0 < ((crowdedState m).inode e).ref → ((crowdedState m).inode e).inum = e + 1 := fun e he => by
    by_cases h : e.val < m
    · exact congrArg Inode.inum (if_pos h)
    · rw [show (crowdedState m).inode e = ⟨0, 0, none, false, .zero⟩ from if_neg h] at he
      exact absurd he (by decide)
  intro e e' h h' heq
  rw [hin e h, hin e' h'] at heq
  exact Fin.ext (by omega)

theorem rep (hm : m ≤ 50) : Rep mkfsSuper ∅ (crowdedState m) (abs mkfsSuper (crowdedState m)) :=
  Volume.rep rfl (entry_ok hm) ok uniq rfl

theorem isDirOf : crowded.IsDirOf 1 52 crowdedDirent := by
  intro bn hbn
  have h0 : bn = 0 := by
    simp only [EPB, BSIZE, DIRENT] at hbn
    omega
  subst h0
  rw [show place 0 = 0 from rfl, addr_root]
  exact ⟨by decide, rfl⟩

theorem dir {x : Ino} (hm : m ≤ 50) (hx : (abs mkfsSuper (crowdedState m)).ino i = some x) (hd : x.type = T_DIR) :
    i = 1 ∧ x.size = 832 ∧ x.count = 52 ∧ ∀ k < 52, x.entry k = crowdedDirent k := by
  rw [Volume.ino_eq rfl (entry_ok hm)] at hx
  obtain ⟨ht, hx'⟩ := View.ino_eq_some.mp hx
  obtain rfl : i = 1 := by
    rcases cases ht with rfl | hf
    · rfl
    · rw [hx', dinode_file hf] at hd
      exact absurd hd (show T_FILE ≠ T_DIR by decide)
  have hs : x.size = 832 := by
    rw [hx']
    rfl
  exact ⟨rfl, hs, by rw [Ino.count, hs]; rfl, fun k hk => Volume.entry_eq isDirOf hx hk⟩

theorem isDir_root (hm : m ≤ 50) : (abs mkfsSuper (crowdedState m)).IsDir 1 := by
  have ht : (crowded.view.dinode 1).type ≠ 0 := show T_DIR ≠ 0 by decide
  have hino := View.ino_eq_some.mpr ⟨ht, rfl⟩
  rw [← Volume.ino_eq rfl (entry_ok hm)] at hino
  exact ⟨_, hino, rfl⟩

theorem target : ∀ k < 52, 1 ≤ (crowdedDirent k).inum.toNat ∧ (crowdedDirent k).inum.toNat ≤ 51 := by decide

theorem slot_root (h1 : 1 ≤ m) : (abs mkfsSuper (crowdedState m)).slot 0 = some ⟨1, 1, Nat.one_pos⟩ := by
  have hy : (crowdedState m).inode 0 = ⟨1, 1, none, true, crowded.dinode 1⟩ := if_pos h1
  show ((crowdedState m).inode 0).slot = _
  rw [hy]
  rfl

theorem ready (hm : m ≤ 50) (h1 : 1 ≤ m) (p : ProcId) : Ready mkfsSuper p (abs mkfsSuper (crowdedState m)) where
  unlocked e := by
    by_cases he : e.val < m
    · exact congrArg Inode.lock (if_pos he)
    · exact congrArg Inode.lock (if_neg he)
  orphans := (rep hm).orphans
  dirs i x hx hd := by
    obtain ⟨-, hs, hc, he⟩ := dir hm hx hd
    refine ⟨by rw [hs]; rfl, fun k hk _ => ?_⟩
    rw [hc] at hk
    rw [Ino.target, he k hk]
    exact lt_of_le_of_lt (target k hk).2 (by decide)
  op := le_rfl
  cwd := ⟨0, _, rfl, slot_root h1⟩

theorem tree (hm : m ≤ 50) (h1 : 1 ≤ m) (p : ProcId) : Tree p (abs mkfsSuper (crowdedState m)) where
  root := isDir_root hm
  cwd := ⟨0, _, rfl, slot_root h1, isDir_root hm⟩
  entries i x hx hd k hk _ := by
    obtain ⟨-, -, hc, he⟩ := dir hm hx hd
    rw [hc] at hk
    rw [Ino.target, he k hk, Volume.ino_ne_none rfl (entry_ok hm)]
    rcases Nat.lt_or_ge (crowdedDirent k).inum.toNat 2 with hlt | hge
    · rw [show (crowdedDirent k).inum.toNat = 1 by have := (target k hk).1; omega]
      exact show T_DIR ≠ 0 by decide
    · rw [dinode_file ⟨hge, (target k hk).2⟩]
      exact show T_FILE ≠ 0 by decide

end Crowded

/-- The tree is in order, but no entry of the inode table is free for the file. -/
theorem full_table_panics : Rep mkfsSuper ∅ (crowdedState 50) (abs mkfsSuper (crowdedState 50)) ∧
    Ready mkfsSuper 0 (abs mkfsSuper (crowdedState 50)) ∧ Tree 0 (abs mkfsSuper (crowdedState 50)) ∧
    (namei mkfsSuper 0 [48]).run (crowdedState 50) = .error (.panic "iget: no inodes") :=
  ⟨Crowded.rep le_rfl, Crowded.ready le_rfl (by decide) 0, Crowded.tree le_rfl (by decide) 0,
    by decide +kernel⟩

theorem path_resolution_crowded : (abs mkfsSuper (crowdedState 1)).Room ∧ ∃ r s',
    (namei mkfsSuper 0 [48]).run (crowdedState 1) = .ok (r, s') ∧
      Resolved (abs mkfsSuper (crowdedState 1)) ((abs mkfsSuper (crowdedState 1)).start 0 [48]) (elems [48]) r s' ∧
      Balanced mkfsSuper ∅ (abs mkfsSuper (crowdedState 1)) (crowdedState 1) r s' := by
  have hroom : (abs mkfsSuper (crowdedState 1)).Room := ⟨1, 2, by decide, rfl, rfl⟩
  have h := path_resolution geom_mkfsSuper (Crowded.rep (by decide)) (Crowded.ready (by decide) le_rfl 0)
    (Crowded.tree (by decide) le_rfl 0) [48] (by decide)
  exact ⟨hroom, exists_of_wpe (wpe_weaken h.1 fun _ he => he.2 hroom)⟩

end Fs
end Xv6
