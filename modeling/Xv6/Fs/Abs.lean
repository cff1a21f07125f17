import Xv6.Fs.View
import Xv6.Fs.Calls

/-!
# Xv6.Fs.Abs

What a state of the kernel says about the files.

The current dinode of an inode is the copy in the inode table if there is a valid one, otherwise the
dinode on disk (`cur`). `view` is the disk under these dinodes; each kind of write is one change of
the view.
-/

namespace Xv6
namespace Fs

open Bytes Function

abbrev Table := Entry → Inode

variable {sb : Superblock} {disk : Nat → Block} {tab tab' : Table} {e e' : Entry} {i j b : Nat} {d : Dinode}
variable {x : Inode}

/-! ## The current dinodes -/

def diskDinode (sb : Superblock) (disk : Nat → Block) (i : Nat) : Dinode := getDinode (disk (sb.iblock i)) (i % IPB)

def Caches (tab : Table) (e : Entry) (i : Nat) : Prop :=
  0 < (tab e).ref ∧ (tab e).inum = i ∧ (tab e).valid = true

instance : Decidable (Caches tab e i) := inferInstanceAs (Decidable (_ ∧ _ ∧ _))

def cached (tab : Table) (i : Nat) : Option Entry := (List.finRange NINODE).find? fun e => decide (Caches tab e i)

def cur (sb : Superblock) (disk : Nat → Block) (tab : Table) (i : Nat) : Dinode :=
  match cached tab i with
  | some e => (tab e).copy
  | none => diskDinode sb disk i

def Inode.withCopy (x : Inode) (d : Dinode) : Inode := { x with copy := d }

def Uniq (tab : Table) : Prop :=
  ∀ e e', 0 < (tab e).ref → 0 < (tab e').ref → (tab e).inum = (tab e').inum → e = e'

theorem cached_eq_some (hu : Uniq tab) (h : Caches tab e i) : cached tab i = some e := by
  unfold cached
  cases hc : (List.finRange NINODE).find? fun e => decide (Caches tab e i) with
  | none => exact absurd h (by simpa using List.find?_eq_none.mp hc e (List.mem_finRange e))
  | some e' =>
    have h' : Caches tab e' i := by simpa using List.find?_some hc
    rw [hu e' e h'.1 h.1 (h'.2.1.trans h.2.1.symm)]

theorem cur_of_caches (hu : Uniq tab) (h : Caches tab e i) : cur sb disk tab i = (tab e).copy := by
  rw [cur, cached_eq_some hu h]

theorem cur_of_clean (h : ∀ e, Caches tab e i → (tab e).copy = diskDinode sb disk i) :
    cur sb disk tab i = diskDinode sb disk i := by
  unfold cur
  cases hc : cached tab i with
  | none => rfl
  | some e =>
    have he : Caches tab e i := by simpa using List.find?_some hc
    exact h e he

/-! ## The view -/

def view (sb : Superblock) (disk : Nat → Block) (tab : Table) : View where
  dinode i := if 0 < i ∧ i < sb.ninodes then cur sb disk tab i else .zero
  used b := decide (b < sb.size) && bit (disk (sb.bblock b)) (b % BPB)
  block b := if sb.nmeta ≤ b then disk b else zeroBlock

theorem view_dinode (hi : 0 < i ∧ i < sb.ninodes) : (view sb disk tab).dinode i = cur sb disk tab i := if_pos hi

theorem view_range (h : ((view sb disk tab).dinode i).type ≠ 0) : 0 < i ∧ i < sb.ninodes := by
  by_contra hn
  simp only [view, if_neg hn] at h
  exact h rfl

theorem view_dinode_congr {disk' : Nat → Block}
    (h : 0 < i → i < sb.ninodes → cur sb disk' tab' i = cur sb disk tab i) :
    (view sb disk' tab').dinode i = (view sb disk tab).dinode i := by
  simp only [view]
  split
  · rename_i hi
    exact h hi.1 hi.2
  · rfl

theorem view_congr_tab (h : ∀ i, 0 < i → i < sb.ninodes → cur sb disk tab' i = cur sb disk tab i) :
    view sb disk tab' = view sb disk tab :=
  View.ext (funext fun i => view_dinode_congr (h i)) rfl rfl

theorem cur_congr (h : ∀ e, (Caches tab' e i ↔ Caches tab e i) ∧ (Caches tab e i → (tab' e).copy = (tab e).copy)) :
    cur sb disk tab' i = cur sb disk tab i := by
  have hc : cached tab' i = cached tab i := by
    unfold cached
    congr 1
    funext e
    exact decide_eq_decide.mpr (h e).1
  unfold cur
  rw [hc]
  cases he : cached tab i with
  | none => rfl
  | some e =>
    have he : Caches tab e i := by simpa using List.find?_some he
    exact (h e).2 he

theorem caches_update_self : Caches (update tab e x) e i ↔ 0 < x.ref ∧ x.inum = i ∧ x.valid = true := by
  simp [Caches]

theorem uniq_update (hu : Uniq tab) (h : 0 < x.ref → ∀ e', 0 < (tab e').ref → (tab e').inum = x.inum → e' = e) :
    Uniq (update tab e x) := by
  intro a c ha hc hac
  by_cases hae : a = e
  · by_cases hce : c = e
    · rw [hae, hce]
    · subst hae
      rw [update_of_ne hce] at hc hac
      rw [update_self] at ha hac
      exact (h ha c hc hac.symm).symm
  · rw [update_of_ne hae] at ha hac
    by_cases hce : c = e
    · subst hce
      rw [update_self] at hc hac
      exact h hc a ha hac
    · rw [update_of_ne hce] at hc hac
      exact hu a c ha hc hac

theorem view_setCopy (hu : Uniq tab) (hc : Caches tab e i) (hi : 0 < i ∧ i < sb.ninodes)
    (hx : 0 < x.ref ∧ x.inum = i ∧ x.valid = true) :
    view sb disk (update tab e x) = (view sb disk tab).setDinode i x.copy := by
  have hu' : Uniq (update tab e x) :=
    uniq_update hu fun _ e' h1 h2 => hu e' e h1 hc.1 (h2.trans (hx.2.1.trans hc.2.1.symm))
  refine View.ext (funext fun j => ?_) rfl rfl
  by_cases hj : j = i
  · subst hj
    rw [view_dinode hi, cur_of_caches hu' (caches_update_self.mpr hx), update_self,
      View.dinode_setDinode_same]
  · rw [View.dinode_setDinode_ne hj]
    refine view_dinode_congr fun _ _ => cur_congr fun e' => ?_
    by_cases he : e' = e
    · subst he
      have hn : ¬ Caches tab e' j := fun h => hj (h.2.1.symm.trans hc.2.1)
      have hn' : ¬ Caches (update tab e' x) e' j := fun h =>
        hj ((caches_update_self.mp h).2.1.symm.trans hx.2.1)
      exact ⟨iff_of_false hn' hn, fun h => absurd h hn⟩
    · simp [Caches, update_of_ne he]

theorem view_withCopy (hu : Uniq tab) (hc : Caches tab e i) (hi : 0 < i ∧ i < sb.ninodes) :
    view sb disk (update tab e ((tab e).withCopy d)) = (view sb disk tab).setDinode i d :=
  view_setCopy hu hc hi hc

theorem cur_congr_disk {disk' : Nat → Block} (h : disk' (sb.iblock i) = disk (sb.iblock i)) :
    cur sb disk' tab i = cur sb disk tab i := by
  unfold cur diskDinode
  rw [h]

section Writes

variable (hg : sb.Geom) {data : Block}
include hg

theorem view_data (hb : sb.nmeta ≤ b) :
    view sb (update disk b data) tab = (view sb disk tab).setBlock b data := by
  have h1 : ∀ i, i < sb.ninodes → update disk b data (sb.iblock i) = disk (sb.iblock i) := fun i hi =>
    update_of_ne (Nat.ne_of_lt (lt_of_lt_of_le (hg.iblock_lt_nmeta hi) hb)) _ _
  refine View.ext (funext fun i => view_dinode_congr fun _ hi => cur_congr_disk (h1 i hi)) (funext fun c => ?_)
    (funext fun c => ?_)
  · simp only [view, View.setBlock]
    by_cases hc : c < sb.size
    · rw [update_of_ne (Nat.ne_of_lt (lt_of_lt_of_le (hg.bblock_lt hc) hb))]
    · simp [hc]
  · simp only [view, View.setBlock]
    by_cases hc : c = b
    · subst hc
      rw [update_self, update_self, if_pos hb]
    · rw [update_of_ne hc, update_of_ne hc]

theorem view_bitmap {v : Bool} (hb : b < sb.size)
    (hbit : ∀ bi, bit data bi = if bi = b % BPB then v else bit (disk (sb.bblock b)) bi) :
    view sb (update disk (sb.bblock b) data) tab = (view sb disk tab).setUsed b v := by
  refine View.ext (funext fun i => view_dinode_congr fun _ hi => ?_) (funext fun c => ?_) (funext fun c => ?_)
  · refine cur_congr_disk (update_of_ne (Nat.ne_of_lt ?_) _ _)
    exact lt_of_lt_of_le (hg.iblock_lt hi) (Superblock.bmapstart_le_bblock b)
  · simp only [view, View.setUsed]
    by_cases hc : c = b
    · subst hc
      rw [update_self, update_self, hbit, if_pos rfl, decide_eq_true hb, Bool.true_and]
    · rw [update_of_ne hc]
      by_cases he : sb.bblock c = sb.bblock b
      · rw [he, update_self, hbit, if_neg fun h => hc (Superblock.bblock_inj he h)]
      · rw [update_of_ne he]
  · simp only [view, View.setUsed]
    split
    · rename_i hc
      exact update_of_ne (Nat.ne_of_gt (lt_of_lt_of_le (hg.bblock_lt hb) hc)) _ _
    · rfl

omit hg in
theorem diskDinode_put_same : diskDinode sb (update disk (sb.iblock i)
    (putDinode (disk (sb.iblock i)) (i % IPB) d)) i = d := by
  rw [diskDinode, update_self, getDinode_putDinode_same (Nat.mod_lt _ (by decide))]

omit hg in
theorem diskDinode_put_ne (h : j ≠ i) : diskDinode sb (update disk (sb.iblock i)
    (putDinode (disk (sb.iblock i)) (i % IPB) d)) j = diskDinode sb disk j := by
  unfold diskDinode
  by_cases he : sb.iblock j = sb.iblock i
  · rw [he, update_self, getDinode_putDinode_ne fun hs => h (Superblock.iblock_inj he hs)]
  · rw [update_of_ne he]

theorem diskDinode_data (hb : sb.nmeta ≤ b) (hi : i < sb.ninodes) :
    diskDinode sb (update disk b data) i = diskDinode sb disk i := by
  unfold diskDinode
  rw [update_of_ne (Nat.ne_of_lt (lt_of_lt_of_le (hg.iblock_lt_nmeta hi) hb))]

theorem diskDinode_bitmap (hi : i < sb.ninodes) :
    diskDinode sb (update disk (sb.bblock b) data) i = diskDinode sb disk i := by
  unfold diskDinode
  rw [update_of_ne (Nat.ne_of_lt (lt_of_lt_of_le (hg.iblock_lt hi) (Superblock.bmapstart_le_bblock b)))]

theorem view_putDinode (hi : 0 < i ∧ i < sb.ninodes)
    (hcur : cur sb (update disk (sb.iblock i) (putDinode (disk (sb.iblock i)) (i % IPB) d)) tab i = d) :
    view sb (update disk (sb.iblock i) (putDinode (disk (sb.iblock i)) (i % IPB) d)) tab =
      (view sb disk tab).setDinode i d := by
  refine View.ext (funext fun j => ?_) (funext fun c => ?_) (funext fun c => ?_)
  · by_cases hj : j = i
    · subst hj
      rw [view_dinode hi, hcur, View.dinode_setDinode_same]
    · rw [View.dinode_setDinode_ne hj]
      refine view_dinode_congr fun _ _ => ?_
      unfold cur
      split
      · rfl
      · exact diskDinode_put_ne hj
  · have hne : sb.bblock c ≠ sb.iblock i :=
      Nat.ne_of_gt (lt_of_lt_of_le (hg.iblock_lt hi.2) (Superblock.bmapstart_le_bblock c))
    simp only [view, View.setDinode, update_of_ne hne]
  · simp only [view, View.setDinode]
    split
    · rename_i hc
      exact update_of_ne (Nat.ne_of_gt (lt_of_lt_of_le (hg.iblock_lt_nmeta hi.2) hc)) _ _
    · rfl

theorem view_iupdate (hu : Uniq tab) (hc : Caches tab e i) (hi : 0 < i ∧ i < sb.ninodes) :
    view sb (update disk (sb.iblock i) (putDinode (disk (sb.iblock i)) (i % IPB) (tab e).copy)) tab =
      view sb disk tab := by
  have hcur : cur sb disk tab i = (tab e).copy := cur_of_caches hu hc
  have hd : (view sb disk tab).dinode i = cur sb disk tab i := view_dinode hi
  rw [view_putDinode hg hi (cur_of_caches hu hc), View.setDinode, ← hcur, ← hd, update_eq_self]

end Writes

end Fs
end Xv6
