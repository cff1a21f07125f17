import Xv6.Fs.Dir

/-!
# Xv6.Fs.Path

Path lookup: `namex` walks through the directories and leaves one reference.

* `Abs.walk`, `Abs.walkParent`: the inode that a path names, and the directory of its last element.
* `wpe_namei_stops`, `wpe_nameiparent_stops`: they return a reference to that inode. Nothing else changes: the
  references that were taken on the way have been given back.
-/

namespace Xv6
namespace Fs

open Bytes Prog

namespace Abs

def IsDir (a : Abs) (i : Nat) : Prop := ∃ x, a.ino i = some x ∧ x.type = T_DIR

def lookup (a : Abs) (i : Nat) (w : List UInt8) : Option Nat :=
  match a.ino i with
  | some x => if x.type = T_DIR then (x.find (w.take DIRSIZ)).map x.target else none
  | none => none

def walk (a : Abs) (i : Nat) : List (List UInt8) → Option Nat
  | [] => some i
  | w :: ws => (a.lookup i w).bind fun j => a.walk j ws

open Classical in
/-- The directory of the last element of a path, and the name of that element. -/
noncomputable def walkParent (a : Abs) (i : Nat) : List (List UInt8) → Option (Nat × List UInt8)
  | [] => none
  | [w] => if a.IsDir i then some (i, w.take DIRSIZ) else none
  | w :: w' :: ws => (a.lookup i w).bind fun j => a.walkParent j (w' :: ws)

def start (a : Abs) (p : ProcId) (path : List UInt8) : Nat :=
  if path.head? = some SLASH then ROOTINO else (((a.proc p).cwd.bind a.slot).map Slot.inum).getD 0

def Dirs (sb : Superblock) (a : Abs) : Prop := ∀ i x, a.ino i = some x → x.type = T_DIR → x.DirOk sb

variable {a b : Abs}

end Abs

/-- The state in which process `p` may look up a path: it is in a transaction and holds no lock. -/
structure Ready (sb : Superblock) (p : ProcId) (a : Abs) : Prop where
  unlocked : ∀ e, a.lock e = none
  orphans : ∀ i, ¬ a.Dead i
  dirs : a.Dirs sb
  op : 1 ≤ a.outstanding
  cwd : ∃ e t, (a.proc p).cwd = some e ∧ a.slot e = some t

def Abs.Room (a : Abs) : Prop := ∃ e e', e ≠ e' ∧ a.slot e = none ∧ a.slot e' = none

/-- Where a lookup can stop: the inode table is full, or a free inode is found under a name. -/
structure Stops (E : Stop → Prop) (p : ProcId) (a : Abs) : Prop where
  full : ¬ a.Room → E (.panic "iget: no inodes")
  start : ∀ path, a.ino (a.start p path) = none → E (.panic "ilock: no type")
  entry : ∀ i w j, a.lookup i w = some j → a.ino j = none → E (.panic "ilock: no type")

theorem stops_of_allows (F : Stop → Prop) [Allows F] (p : ProcId) (a : Abs) : Stops F p a :=
  ⟨fun _ => Allows.full, fun _ _ => Allows.noType, fun _ _ _ _ _ => Allows.noType⟩

variable {sb : Superblock} {S : Set Nat} {s s' : State} {a : Abs} {e : Entry} {i : Nat} {t : Slot} {x : Ino} {p : ProcId}
  {F : Stop → Prop} [Allows F] {E : Stop → Prop}

theorem Stops.full_get (h : Stops E p a) (e : Entry) (i : Nat)
    (hall : ∀ e', (a.get e i).slot e' ≠ none) : E (.panic "iget: no inodes") := by
  refine h.full ?_
  rintro ⟨e1, e2, hne, h1, h2⟩
  by_cases he : e1 = e
  · exact hall e2 ((Abs.slot_get_ne (he ▸ hne.symm)).trans h2)
  · exact hall e1 ((Abs.slot_get_ne he).trans h1)

theorem Stops.full_slot (h : Stops E p a) (hall : ∀ e, a.slot e ≠ none) : E (.panic "iget: no inodes") := by
  refine h.full ?_
  rintro ⟨e1, -, -, h1, -⟩
  exact hall e1 h1

theorem Rep.proc_eq (h : Rep sb S s a) : a.proc = s.proc := by
  rw [← h.abs]
  rfl

/-! ## Locking an inode -/

structure Locked (sb : Superblock) (S : Set Nat) (p : ProcId) (e : Entry) (i : Nat) (x : Ino) (a : Abs) (s : State) :
    Prop where
  rep : Rep sb S s ((a.get e i).setLock e (some p))
  at_ : a.At e i
  ino : a.ino i = some x
  free : a.lock e = none

theorem wpe_ilock_get_stops (h : Rep sb S s (a.get e i)) (hat : a.At e i)
    (hsleep : a.lock e ≠ none → E .sleep) (hnone : a.ino i = none → E (.panic "ilock: no type")) :
    wpe E (ilock sb p e) (fun _ s' => ∃ x, Locked sb S p e i x a s') s := by
  obtain ⟨v, hv, rfl⟩ := Abs.slot_get_at hat
  refine wpe_mono (wpe_ilock_stops h hv hsleep hnone) ?_
  rintro _ s' ⟨h', hl, ⟨x, hx⟩, -⟩
  exact ⟨x, h', hat, hx, hl⟩

theorem wpe_ilock_get (h : Rep sb S s (a.get e i)) (hat : a.At e i) :
    wpe F (ilock sb p e) (fun _ s' => ∃ x, Locked sb S p e i x a s') s :=
  wpe_ilock_get_stops h hat (fun _ => Allows.sleep) fun _ => Allows.noType

namespace Locked

theorem slot (h : Locked sb S p e i x a s) : ∃ v, ((a.get e i).setLock e (some p)).slot e = some v ∧ v.inum = i :=
  Abs.slot_get_at h.at_

theorem wpe_copyOf {E : Stop → Prop} {Q : Dinode → State → Prop} (h : Locked sb S p e i x a s)
    (hQ : ∀ d : Dinode, d.type = x.type → d.major = x.major → d.minor = x.minor → d.nlink = x.nlink →
      d.size.toNat = x.size → Q d s) : wpe E (atomic (copyOf e)) Q s := by
  obtain ⟨v, hv, hvi⟩ := h.slot
  have hxc := h.rep.copy hv (by simp)
  rw [hvi, Abs.ino_setLock, Abs.ino_get, h.ino, Option.some.injEq] at hxc
  refine Fs.wpe_copyOf (hQ _ ?_ ?_ ?_ ?_ ?_)
  all_goals rw [hxc]

theorem atDir (h : Locked sb S p e i x a s) (hx : x.DirOk sb) :
    ∃ v, v.inum = i ∧ AtDir sb S e v x ((a.get e i).setLock e (some p)) s := by
  obtain ⟨v, hv, hvi⟩ := h.slot
  exact ⟨v, hvi, h.rep, hv, by simp, by rw [hvi]; exact h.ino, hx⟩

end Locked

/-! ## namex -/

/-- What a lookup leaves: a reference to the inode, or nothing. -/
def Got (sb : Superblock) (S : Set Nat) (a : Abs) (o : Option Nat) (r : Option Entry) (s' : State) : Prop :=
  match o with
  | none => r = none ∧ Rep sb S s' a
  | some j => ∃ e, r = some e ∧ a.At e j ∧ Rep sb S s' (a.get e j)

def GotParent (sb : Superblock) (S : Set Nat) (a : Abs) (o : Option (Nat × List UInt8)) (r : Option (Entry × Name))
    (s' : State) : Prop :=
  match o with
  | none => r = none ∧ Rep sb S s' a
  | some (j, w) => ∃ e name, r = some (e, name) ∧ cstr (byte name) = w ∧ a.IsDir j ∧ a.At e j ∧ Rep sb S s' (a.get e j)

section Namex

variable {E : Stop → Prop} (hE : Stops E p a) {path : List UInt8}
include hE

theorem wpe_namexElem {α : Type} {name : Name} {w : List UInt8} {k : Option (Entry × Nat) → Code α} {Q : α → State → Prop}
    (hr : Ready sb p a) (h : Locked sb S p e i x a s) (hd : x.type = T_DIR) (hw : cstr (byte name) = w.take DIRSIZ)
    (hnone : a.lookup i w = none → ∀ s', Locked sb S p e i x a s' → wpe E (k none) Q s')
    (hsome : ∀ j, a.lookup i w = some j → ∀ e' off s', a.At e' j → Locked sb S p e i x (a.get e' j) s' →
      wpe E (k (some (e', off))) Q s') : wpe E (dirlookup sb e (byte name) >>= k) Q s := by
  obtain ⟨v, hvi, hat⟩ := h.atDir (hr.dirs i x h.ino hd)
  have hl : a.lookup i w = (x.find (cstr (byte name))).map x.target := by
    rw [Abs.lookup, h.ino, hw]
    exact if_pos hd
  refine wpe_seq (wpe_dirlookup hat hd (hE.full_get e i)) fun r s1 hf => ?_
  cases hfind : x.find (cstr (byte name)) with
  | none =>
    rw [hfind] at hf hl
    obtain ⟨rfl, rfl⟩ := hf
    exact hnone hl s1 h
  | some k =>
    rw [hfind] at hf hl
    obtain ⟨e', rfl, hat', h1, -⟩ := hf
    rw [Abs.get_setLock] at h1
    obtain ⟨hat1, hat2, hcomm⟩ := Abs.get_comm h.at_ hat'
    rw [hcomm] at h1
    exact hsome _ hl e' _ s1 hat1 ⟨h1, hat2, h.ino, h.free⟩

omit hE in
theorem Locked.wpe_put {α : Type} {k : Unit → Code α} {Q : α → State → Prop} (h : Locked sb S p e i x a s)
    (hd : ¬ a.Dead i) (hk : ∀ s', Rep sb S s' a → wpe E (k ()) Q s') : wpe E (iunlockput sb p e >>= k) Q s :=
  wpe_seq (wpe_iunlockput_keep h.rep h.at_ h.free hd) fun _ s' h' => hk s' h'

theorem wpe_namexLoop (hr : Ready sb p a) : ∀ n {e i s path name}, path.length < n → 0 ∉ path → a.At e i →
      (a.ino i = none → E (.panic "ilock: no type")) → Rep sb S s (a.get e i) →
      wpe E (namexLoop sb p false n e path name) (fun r =>
        Got sb S a (a.walk i (elems path)) (r.map Prod.fst)) s := by
  intro n
  induction n with
  | zero => exact fun hn => absurd hn (Nat.not_lt_zero _)
  | succ n ih =>
    intro e i s path name hn h0 hat hi h
    rw [namexLoop]
    cases hskip : skipelem path name with
    | none =>
      rw [skipelem_none hskip]
      exact wpe_pure.mpr ⟨e, rfl, hat, h⟩
    | some q =>
      obtain ⟨rest, name⟩ := q
      obtain ⟨w, hel, hw, -, h0', hlen⟩ := skipelem_eq h0 hskip
      dsimp only
      rw [hel]
      refine wpe_seq (wpe_ilock_get_stops h hat (fun hc => absurd (hr.unlocked e) hc) hi) ?_
      rintro _ s1 ⟨x, h1⟩
      rw [wpe_bind]
      refine h1.wpe_copyOf fun d hdt _ _ _ _ => ?_
      rw [hdt]
      by_cases hd : x.type = T_DIR
      swap
      · have hl : a.lookup i w = none := by
          rw [Abs.lookup, h1.ino]
          exact if_neg hd
        rw [if_pos hd, Abs.walk, hl]
        exact h1.wpe_put (hr.orphans i) fun s' h' => wpe_pure.mpr ⟨rfl, h'⟩
      rw [if_neg (not_not.mpr hd), if_neg (by simp), Abs.walk]
      refine wpe_namexElem hE hr h1 hd hw (fun hl s2 h2 => ?_) fun j hl e' off s2 hat' h2 => ?_
      · rw [hl]
        exact h2.wpe_put (hr.orphans i) fun s' h' => wpe_pure.mpr ⟨rfl, h'⟩
      · rw [hl]
        exact h2.wpe_put (Abs.not_dead_get hat' (hr.orphans i)) fun s' h' =>
          ih (by omega) h0' hat' (hE.entry i w j hl) h'

theorem wpe_namexLoop_parent (hr : Ready sb p a) : ∀ n {e i s path name}, path.length < n → 0 ∉ path → a.At e i →
      (a.ino i = none → E (.panic "ilock: no type")) → Rep sb S s (a.get e i) →
      wpe E (namexLoop sb p true n e path name) (GotParent sb S a (a.walkParent i (elems path))) s := by
  intro n
  induction n with
  | zero => exact fun hn => absurd hn (Nat.not_lt_zero _)
  | succ n ih =>
    intro e i s path name hn h0 hat hi h
    rw [namexLoop]
    cases hskip : skipelem path name with
    | none =>
      rw [skipelem_none hskip, Abs.walkParent]
      refine wpe_seq (wpe_iput_keep h hat (fun _ => hr.unlocked e) (hr.orphans i)) fun _ s1 h1 => ?_
      exact wpe_pure.mpr ⟨rfl, h1⟩
    | some q =>
      obtain ⟨rest, name⟩ := q
      obtain ⟨w, hel, hw, hrest, h0', hlen⟩ := skipelem_eq h0 hskip
      dsimp only
      rw [hel]
      refine wpe_seq (wpe_ilock_get_stops h hat (fun hc => absurd (hr.unlocked e) hc) hi) ?_
      rintro _ s1 ⟨x, h1⟩
      rw [wpe_bind]
      refine h1.wpe_copyOf fun d hdt _ _ _ _ => ?_
      rw [hdt]
      by_cases hd : x.type = T_DIR
      swap
      · have hnd : ¬ a.IsDir i := by
          rintro ⟨y, hy, hyd⟩
          rw [h1.ino] at hy
          cases hy
          exact hd hyd
        have hl : a.lookup i w = none := by
          rw [Abs.lookup, h1.ino]
          exact if_neg hd
        have hpar : a.walkParent i (w :: elems rest) = none := by
          cases elems rest with
          | nil => rw [Abs.walkParent, if_neg hnd]
          | cons w' ws => rw [Abs.walkParent, hl]; rfl
        rw [if_pos hd, hpar]
        exact h1.wpe_put (hr.orphans i) fun s' h' => wpe_pure.mpr ⟨rfl, h'⟩
      rw [if_neg (not_not.mpr hd)]
      have hisdir : a.IsDir i := ⟨x, h1.ino, hd⟩
      by_cases hlast : rest = []
      · rw [if_pos ⟨rfl, hlast⟩, hrest.mp hlast, Abs.walkParent, if_pos hisdir]
        refine wpe_seq (wpe_iunlock_get h1.rep hat h1.free) fun _ s2 h2 => ?_
        exact wpe_pure.mpr ⟨e, name, rfl, hw, hisdir, hat, h2⟩
      · rw [if_neg fun hc => hlast hc.2]
        obtain ⟨w', ws, hws⟩ := List.exists_cons_of_ne_nil fun hc => hlast (hrest.mpr hc)
        rw [hws, Abs.walkParent, ← hws]
        refine wpe_namexElem hE hr h1 hd hw (fun hl s2 h2 => ?_) fun j hl e' off s2 hat' h2 => ?_
        · rw [hl]
          exact h2.wpe_put (hr.orphans i) fun s' h' => wpe_pure.mpr ⟨rfl, h'⟩
        · rw [hl]
          exact h2.wpe_put (Abs.not_dead_get hat' (hr.orphans i)) fun s' h' =>
            ih (by omega) h0' hat' (hE.entry i w j hl) h'

section

variable (hg : sb.Geom) (hr : Ready sb p a) (h : Rep sb S s a)
include hg hr h

theorem wpe_namexStart :
    wpe E (atomic (namexStart p path)) (fun e s' => a.At e (a.start p path) ∧ Rep sb S s' (a.get e (a.start p path)))
      s := by
  rw [namexStart, Abs.start]
  split
  · refine wpe_mono (wpe_iget h ⟨by decide, hg.root⟩ hE.full_slot) ?_
    rintro e s' ⟨hat, h', -⟩
    exact ⟨hat, h'⟩
  · obtain ⟨e, t, hcwd, ht⟩ := hr.cwd
    rw [hcwd]
    rw [h.proc_eq] at hcwd
    rw [wpe_atomic, idupCwd, Wp.wpe_bind, Wp.wpe_get, hcwd, Wp.wpe_bind]
    refine Wp.wpe_mono (wpe_idup h ht) ?_
    rintro _ s' ⟨h', -⟩
    have hi : (((some e).bind a.slot).map Slot.inum).getD 0 = t.inum := by
      rw [Option.bind_some, ht]
      rfl
    rw [hi, Wp.wpe_pure]
    exact ⟨.inl ⟨t, ht, rfl⟩, h'⟩

theorem wpe_namei_stops (h0 : 0 ∉ path) :
    wpe E (namei sb p path) (Got sb S a (a.walk (a.start p path) (elems path))) s := by
  rw [namei, namex, wpe_bind]
  refine wpe_seq (wpe_namexStart hE hg hr h) ?_
  rintro e s1 ⟨hat, h1⟩
  exact wpe_mono (wpe_namexLoop hE hr _ (Nat.lt_succ_self _) h0 hat (hE.start path) h1) fun r s2 hr => wpe_pure.mpr hr

theorem wpe_nameiparent_stops (h0 : 0 ∉ path) :
    wpe E (nameiparent sb p path) (GotParent sb S a (a.walkParent (a.start p path) (elems path))) s := by
  rw [nameiparent, namex]
  refine wpe_seq (wpe_namexStart hE hg hr h) ?_
  rintro e s1 ⟨hat, h1⟩
  exact wpe_namexLoop_parent hE hr _ (Nat.lt_succ_self _) h0 hat (hE.start path) h1

end

end Namex

theorem wpe_namei {path : List UInt8} (hg : sb.Geom) (hr : Ready sb p a) (h : Rep sb S s a) (h0 : 0 ∉ path) :
    wpe F (namei sb p path) (Got sb S a (a.walk (a.start p path) (elems path))) s :=
  wpe_namei_stops (stops_of_allows F p a) hg hr h h0

/-! ## Transactions -/

theorem wpe_endOp (h : Rep sb S s a) : wpe E (atomic endOp) (fun _ s' => Rep sb S s' a.endOp) s := by
  have habs : ∀ s' : State, s'.disk = s.disk → s'.inode = s.inode → s'.logged = s.logged → s'.file = s.file →
      s'.pipe = s.pipe → s'.proc = s.proc → s'.outstanding = s.outstanding - 1 → Rep sb S s' a.endOp := by
    intro s' h1 h2 h3 h4 h5 h6 h7
    have hview : s'.view sb = s.view sb := by rw [State.view, h1, h2]
    refine ⟨?_, by rw [h2]; exact h.uniq, by rw [h1, h2]; exact h.sound, by rw [hview]; exact h.owned,
      by rw [hview]; exact h.whole, h.orphans, by rw [h3]; exact h.logged⟩
    rw [← h.abs]
    simp only [abs, hview, h2, h4, h5, h6, h7, Abs.endOp]
  rw [wpe_atomic, endOp, Wp.wpe_bind, Wp.wpe_get, Wp.wpe_ite]
  refine ⟨fun h0 => ?_, fun _ => ?_⟩
  · exact Wp.wpe_set.mpr (habs _ rfl rfl rfl rfl rfl rfl h0.symm)
  · exact Wp.wpe_set.mpr (habs _ rfl rfl rfl rfl rfl rfl rfl)

theorem wpe_beginOp (h : Rep sb S s a) : wpe F (atomic beginOp) (fun _ s' => Rep sb S s' a.beginOp) s := by
  rw [wpe_atomic, beginOp, Wp.wpe_bind, Wp.wpe_get, Wp.wpe_ite]
  refine ⟨fun _ => Wp.wpe_throw.mpr Allows.sleep, fun _ => Wp.wpe_set.mpr ?_⟩
  refine ⟨?_, h.uniq, h.sound, h.owned, h.whole, h.orphans, fun c hc => ?_⟩
  · rw [← h.abs]
    rfl
  · dsimp only at hc
    split at hc
    · simp at hc
    · exact h.logged c hc

end Fs
end Xv6
