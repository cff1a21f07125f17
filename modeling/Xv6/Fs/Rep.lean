import Xv6.Fs.Blocks
import Xv6.Fs.Slots

/-!
# Xv6.Fs.Rep

The files and directories that a state of the kernel stands for.

`Rep` says that a state stands for an abstract state, with files as arrays of bytes: no call is in the middle of a change to an inode,
the copies in the table agree with the disk, every data block is in one place or free, and files have
no holes.
-/

namespace Xv6
namespace Fs

open Bytes Prog Function

def View.ino (V : View) (i : Nat) : Option Ino :=
  let d := V.dinode i
  if d.type = 0 then none else some ⟨d.type, d.major, d.minor, d.nlink, d.size.toNat, V.byteAt i⟩

def Inode.slot (x : Inode) : Option Slot :=
  if h : x.ref = 0 then none else some ⟨x.inum, x.ref, Nat.pos_of_ne_zero h⟩

def abs (sb : Superblock) (s : State) : Abs where
  ino := (s.view sb).ino
  slot e := (s.inode e).slot
  lock e := (s.inode e).lock
  outstanding := s.outstanding
  file := s.file
  pipe := s.pipe
  proc := s.proc

def Superblock.Bitmap (sb : Superblock) (c : Nat) : Prop := ∃ b < sb.size, c = sb.bblock b

/-- An entry of the inode table agrees with the disk and the inodes. A locked entry is valid, and one
that is not valid is for an inode with links, so that `iput` need not look at the disk. -/
structure Sound (sb : Superblock) (disk : Nat → Block) (ino : Nat → Option Ino) (y : Inode) : Prop where
  range : 0 < y.ref → 0 < y.inum ∧ y.inum < sb.ninodes
  unlocked : y.ref = 0 → y.lock = none
  locked : y.lock ≠ none → y.valid = true
  typed : 0 < y.ref → y.valid = true → y.copy.type ≠ 0
  clean : 0 < y.ref → y.valid = true → y.copy = diskDinode sb disk y.inum
  linked : 0 < y.ref → y.valid = false → ∀ x, ino y.inum = some x → x.nlink ≠ 0

/-- The state stands for `a`. Besides blocks of the bit map, only blocks in `S` have been passed to
`log_write` in this transaction. -/
structure Rep (sb : Superblock) (S : Set Nat) (s : State) (a : Abs) : Prop where
  abs : abs sb s = a
  uniq : Uniq s.inode
  sound : ∀ e, Sound sb s.disk a.ino (s.inode e)
  owned : Places.Owned sb.nmeta sb.size (s.view sb).places ∅ (s.view sb).used
  whole : ∀ i, ((s.view sb).dinode i).type ≠ 0 → (s.view sb).Whole i
  orphans : ∀ i, ¬ a.Dead i
  logged : ∀ c ∈ s.logged, c ∈ S ∨ sb.Bitmap c

variable {sb : Superblock} {S : Set Nat} {s s' : State} {a : Abs} {e : Entry} {i : Nat} {t : Slot} {x : Ino} {p : ProcId}
  {F : Stop → Prop} [Allows F] {V : View} {d : Dinode}

theorem View.ino_eq_some : V.ino i = some x ↔ (V.dinode i).type ≠ 0 ∧
    x = ⟨(V.dinode i).type, (V.dinode i).major, (V.dinode i).minor, (V.dinode i).nlink,
      (V.dinode i).size.toNat, V.byteAt i⟩ := by
  unfold View.ino
  dsimp only
  split
  · rename_i h
    simp [h]
  · rename_i h
    simp [h, eq_comm]

theorem View.ino_eq_none : V.ino i = none ↔ (V.dinode i).type = 0 := by
  unfold View.ino
  dsimp only
  split <;> simp [*]

theorem View.ino_congr {V' : View} (hh : (V'.dinode i).head = (V.dinode i).head)
    (hb : ∀ pos, V'.byteAt i pos = V.byteAt i pos) : V'.ino i = V.ino i := by
  have hb : V'.byteAt i = V.byteAt i := funext hb
  obtain ⟨h1, h2, h3, h4, h5⟩ := Dinode.fields_of_head hh
  simp only [View.ino, h1, h2, h3, h4, h5, hb]

namespace Rep

section

variable (h : Rep sb S s a)
include h

theorem slot_eq (e : Entry) : a.slot e = (s.inode e).slot := by
  rw [← h.abs]
  rfl

theorem ino_eq (i : Nat) : a.ino i = (s.view sb).ino i := by
  rw [← h.abs]
  rfl

theorem slot_none : a.slot e = none ↔ (s.inode e).ref = 0 := by
  rw [h.slot_eq, Inode.slot]
  split <;> simp [*]

theorem slot_some : a.slot e = some t ↔
    0 < (s.inode e).ref ∧ t.inum = (s.inode e).inum ∧ t.ref = (s.inode e).ref := by
  rw [h.slot_eq, Inode.slot]
  split
  · rename_i h0
    simp [h0]
  · rename_i h0
    rw [Option.some.injEq, Slot.ext_iff]
    exact ⟨fun hs => ⟨Nat.pos_of_ne_zero h0, hs.1.symm, hs.2.symm⟩, fun hs => ⟨hs.2.1.symm, hs.2.2.symm⟩⟩

theorem lock_eq (e : Entry) : a.lock e = (s.inode e).lock := by
  rw [← h.abs]
  rfl

theorem outstanding_eq : a.outstanding = s.outstanding := by
  rw [← h.abs]
  rfl

theorem live (ht : a.slot e = some t) :
    0 < (s.inode e).ref ∧ (s.inode e).inum = t.inum ∧ (s.inode e).ref = t.ref := by
  obtain ⟨h0, h1, h2⟩ := h.slot_some.mp ht
  exact ⟨h0, h1.symm, h2.symm⟩

theorem held (ht : a.slot e = some t) (hl : a.lock e ≠ none) : Held sb e t.inum s := by
  obtain ⟨h0, h1, -⟩ := h.live ht
  have hv := (h.sound e).locked (by rw [← h.lock_eq]; exact hl)
  exact ⟨h.uniq, ⟨h0, h1, hv⟩, h1 ▸ (h.sound e).range h0, (h.sound e).typed h0 hv, h.owned⟩

theorem copy (ht : a.slot e = some t) (hl : a.lock e ≠ none) :
    a.ino t.inum = some ⟨(s.inode e).copy.type, (s.inode e).copy.major, (s.inode e).copy.minor,
      (s.inode e).copy.nlink, (s.inode e).copy.size.toNat, (s.view sb).byteAt t.inum⟩ := by
  have hh := h.held ht hl
  rw [h.ino_eq, View.ino_eq_some, hh.dinode]
  exact ⟨hh.typed, rfl⟩

theorem whole_held (hh : Held sb e i s) : (s.view sb).Whole i := h.whole i hh.typed_view

theorem cur_eq (i : Nat) : cur sb s.disk s.inode i = diskDinode sb s.disk i :=
  cur_of_clean fun e he => by rw [(h.sound e).clean he.1 he.2.2, he.2.1]

theorem of_frame (ht : a.slot e = some t) (hl : a.lock e ≠ none) (hf : Frame e s s')
    (htype : (s'.inode e).copy.type ≠ 0) (hclean : (s'.inode e).copy = diskDinode sb s'.disk t.inum)
    (hdisk : ∀ j, j < sb.ninodes → j ≠ t.inum → diskDinode sb s'.disk j = diskDinode sb s.disk j)
    (howned : Places.Owned sb.nmeta sb.size (s'.view sb).places ∅ (s'.view sb).used)
    (hwhole : ∀ i, ((s'.view sb).dinode i).type ≠ 0 → (s'.view sb).Whole i)
    (hother : ∀ j, j ≠ t.inum → (s'.view sb).ino j = (s.view sb).ino j) {S' : Set Nat}
    (hlog : ∀ c ∈ s'.logged, c ∈ S' ∨ sb.Bitmap c) : Rep sb S' s' (a.setIno t.inum ((s'.view sb).ino t.inum)) := by
  obtain ⟨h0, h1, -⟩ := h.live ht
  have hv := (h.sound e).locked (by rw [← h.lock_eq]; exact hl)
  have hino : update a.ino t.inum ((s'.view sb).ino t.inum) = (s'.view sb).ino := by
    funext j
    by_cases hj : j = t.inum
    · rw [hj, update_self]
    · rw [update_of_ne hj, hother j hj, h.ino_eq]
  refine ⟨?_, hf.uniq h.uniq, fun e' => ?_, howned, hwhole, fun j => ?_, hlog⟩
  · refine Abs.ext hino.symm (funext fun e' => ?_) (funext fun e' => ?_) (hf.outstanding.trans ?_)
      (hf.file.trans ?_) (hf.pipe.trans ?_) (hf.proc.trans ?_)
    · obtain ⟨k1, k2, -, -⟩ := hf.fields e'
      show (s'.inode e').slot = a.slot e'
      simp only [h.slot_eq, Inode.slot, k1, k2]
    · exact (hf.fields e').2.2.1.trans (h.lock_eq e').symm
    all_goals
      rw [← h.abs]
      rfl
  · have hs := h.sound e'
    by_cases he : e' = e
    · subst he
      obtain ⟨k1, k2, k3, k4⟩ := hf.fields e'
      refine ⟨by rw [k1, k2]; exact hs.range, by rw [k2, k3]; exact hs.unlocked, by rw [k3, k4]; exact hs.locked,
        fun _ _ => htype, fun _ _ => by rw [hclean, k1, h1], fun _ hv' => ?_⟩
      rw [k4, hv] at hv'
      exact absurd hv' (by decide)
    · rw [hf.inode e' he]
      have hne : 0 < (s.inode e').ref → (s.inode e').inum ≠ t.inum := fun k hi =>
        he (h.uniq e' e k h0 (hi.trans h1.symm))
      refine ⟨hs.range, hs.unlocked, hs.locked, hs.typed, fun k1 k2 => ?_, fun k1 k2 x hx => ?_⟩
      · rw [hdisk _ (hs.range k1).2 (hne k1)]
        exact hs.clean k1 k2
      · refine hs.linked k1 k2 x ?_
        rwa [Abs.ino_setIno_ne (hne k1)] at hx
  · rintro ⟨⟨x, hx, hn⟩, hdead⟩
    by_cases hj : j = t.inum
    · exact hdead ⟨e, t, ht, hj.symm⟩
    · rw [Abs.ino_setIno_ne hj] at hx
      exact h.orphans j ⟨⟨x, hx, hn⟩, hdead⟩

theorem of_entry {y : Inode} (hu : Uniq (update s.inode e y))
    (hy : Sound sb s.disk a.ino y) (hd : ∀ i, ¬ (a.setSlot e y.slot).Dead i) :
    Rep sb S { s with inode := update s.inode e y } ((a.setSlot e y.slot).setLock e y.lock) := by
  have hsound : ∀ e', Sound sb s.disk a.ino (update s.inode e y e') := fun e' => by
    by_cases he : e' = e
    · rw [he, update_self]
      exact hy
    · rw [update_of_ne he]
      exact h.sound e'
  have hview : view sb s.disk (update s.inode e y) = s.view sb := by
    refine view_congr_tab fun i _ _ => ?_
    rw [h.cur_eq]
    refine cur_of_clean fun e' he' => ?_
    rw [(hsound e').clean he'.1 he'.2.2, he'.2.1]
  refine ⟨?_, hu, hsound, ?_, ?_, hd, h.logged⟩
  · rw [← h.abs]
    refine Abs.ext (congrArg View.ino hview) (funext fun e' => ?_) (funext fun e' => ?_) rfl rfl rfl rfl
    · exact apply_update (fun _ => Inode.slot) s.inode e y e'
    · exact apply_update (fun _ => Inode.lock) s.inode e y e'
  · show Places.Owned _ _ (view sb _ _).places _ (view sb _ _).used
    rw [hview]
    exact h.owned
  · show ∀ i, ((view sb _ _).dinode i).type ≠ 0 → (view sb _ _).Whole i
    rw [hview]
    exact h.whole

end

end Rep

/-! ## iupdate -/

/-- The copy in entry `e` is now `d`, and it has been written to disk. -/
structure Updated (sb : Superblock) (e : Entry) (i : Nat) (d : Dinode) (s s' : State) : Prop where
  frame : Frame e s s'
  copy : (s'.inode e).copy = d
  clean : diskDinode sb s'.disk i = d
  dinodes : ∀ j, j ≠ i → diskDinode sb s'.disk j = diskDinode sb s.disk j
  view : s'.view sb = (s.view sb).setDinode i d
  logged : s'.logged = s.logged ++ [sb.iblock i]

theorem wpe_iupdate (hg : sb.Geom) (hu : Uniq s.inode) (hc : Caches s.inode e i)
    (hi : 0 < i ∧ i < sb.ninodes) (ho : 1 ≤ s.outstanding) :
    wpe F (atomic (iupdate sb e)) (fun _ s' => Updated sb e i d s s')
      { s with inode := update s.inode e ((s.inode e).withCopy d) } := by
  set tab := update s.inode e ((s.inode e).withCopy d) with htab
  have hx : tab e = (s.inode e).withCopy d := update_self _ _ _
  have hinum : (tab e).inum = i := by
    rw [hx]
    exact hc.2.1
  have hcopy : (tab e).copy = d := by
    rw [hx]
    rfl
  have hu' : Uniq tab := uniq_update hu fun _ e' h1 h2 => hu e' e h1 hc.1 h2
  have hc' : Caches tab e i := caches_update_self.mpr hc
  rw [wpe_atomic, iupdate, Wp.wpe_bind, Wp.wpe_get]
  dsimp only
  rw [Wp.wpe_bind, hinum, hcopy]
  refine wpe_bread (wpe_writeBlock ho fun log => ?_)
  refine ⟨⟨fun e' he => update_of_ne he _ _, ⟨d, hx⟩, rfl, rfl, rfl, rfl⟩, hcopy, diskDinode_put_same,
    fun j hj => diskDinode_put_ne hj, ?_, rfl⟩
  have hv : view sb (update s.disk (sb.iblock i) (putDinode (s.disk (sb.iblock i)) (i % IPB) (tab e).copy)) tab =
      view sb s.disk tab := view_iupdate hg hu' hc' hi
  rw [hcopy] at hv
  exact hv.trans (view_withCopy hu hc hi)

theorem Updated.addr (hu : Updated sb e i d s s') (hh : Held sb e i s) (htype : d.type ≠ 0)
    (haddrs : d.addrs = (s.inode e).copy.addrs) (j k : Nat) : (s'.view sb).addr j k = (s.view sb).addr j k := by
  rw [hu.view]
  exact View.addr_setFields hh.typed_view htype (haddrs.trans (by rw [hh.dinode]))

theorem Rep.of_updated {s1 : State} (h : Rep sb S s a) (ht : a.slot e = some t) (hl : a.lock e ≠ none)
    {K : Set Nat} (hw : Work sb e t.inum K s s1) (hu : Updated sb e t.inum d s1 s') (htype : d.type ≠ 0)
    (haddrs : d.addrs = (s1.inode e).copy.addrs) (hsize : d.size.toNat ≤ MAXFILE * BSIZE)
    (hblocks : ∀ bn, bn * BSIZE < d.size.toNat → (s1.view sb).addr t.inum (place bn) ≠ 0)
    (hbytes : ∀ j pos, j ≠ t.inum → (s1.view sb).byteAt j pos = (s.view sb).byteAt j pos) :
    Rep sb (insert (sb.iblock t.inum) (S ∪ (s'.view sb).addr t.inum '' K)) s' (a.setIno t.inum
      (some ⟨d.type, d.major, d.minor, d.nlink, d.size.toNat, (s1.view sb).byteAt t.inum⟩)) := by
  have hh := (h.held ht hl).work hw
  have haddr := hu.addr hh htype haddrs
  have hpl : (s'.view sb).places = (s1.view sb).places := funext fun x => haddr x.1 x.2
  have hblock : (s'.view sb).block = (s1.view sb).block := by
    rw [hu.view]
    rfl
  have hbyte : ∀ j pos, (s'.view sb).byteAt j pos = (s1.view sb).byteAt j pos := fun j pos =>
    View.byteAt_congr (haddr j _) fun _ => by rw [hblock]
  have hd : (s'.view sb).dinode t.inum = d := by
    rw [hu.view]
    exact View.dinode_setDinode_same
  have hne : ∀ j, j ≠ t.inum → (s'.view sb).dinode j = (s1.view sb).dinode j := fun j hj => by
    rw [hu.view]
    exact View.dinode_setDinode_ne hj
  have hino : (s'.view sb).ino t.inum =
      some ⟨d.type, d.major, d.minor, d.nlink, d.size.toNat, (s1.view sb).byteAt t.inum⟩ := by
    rw [View.ino_eq_some, hd]
    exact ⟨htype, by rw [funext (hbyte t.inum)]⟩
  rw [← hino]
  refine h.of_frame ht hl (hw.frame.trans hu.frame) ?_ ?_ (fun j hj hjt => ?_) ?_ (fun j hj => ?_)
    (fun j hj => ?_) fun c hc => ?_
  · rw [hu.copy]
    exact htype
  · rw [hu.copy, hu.clean]
  · rw [hu.dinodes j hjt, hw.dinodes j hj]
  · rw [hpl, show (s'.view sb).used = (s1.view sb).used by rw [hu.view]; rfl]
    exact hw.owned
  · by_cases hjt : j = t.inum
    · subst hjt
      refine ⟨by rw [hd]; exact hsize, fun bn hbn => ?_⟩
      rw [haddr]
      exact hblocks bn (by rwa [hd] at hbn)
    · rw [hne j hjt] at hj
      have hold := h.whole j (by rwa [Dinode.type_of_head (hw.head j)] at hj)
      have hs := Dinode.size_of_head (hw.head j)
      refine ⟨by rw [hne j hjt, hs]; exact hold.size, fun bn hbn => ?_⟩
      rw [hne j hjt, hs] at hbn
      have hk := hw.kept (j, place bn) (hold.blocks bn hbn)
      rw [haddr]
      exact fun hz => hold.blocks bn hbn (hk.symm.trans hz)
  · refine View.ino_congr (by rw [hne j hj, hw.head j]) fun pos => ?_
    rw [hbyte, hbytes j pos hj]
  · rw [hu.logged, List.mem_append, List.mem_singleton] at hc
    rcases hc with hc | hc
    · rcases hw.logged c hc with hc | ⟨k, hk, hne, hc | ⟨-, hc⟩⟩
      · exact (h.logged c hc).imp_left fun hc => .inr (.inl hc)
      · exact .inl (.inr (.inr ⟨k, hk, (haddr _ k).trans hc.symm⟩))
      · exact .inr ⟨_, (hw.owned.range (x := (t.inum, k)) hne).2, hc⟩
    · exact .inl (.inl hc)

end Fs
end Xv6
