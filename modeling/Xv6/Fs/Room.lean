import Xv6.Fs.Blocks
import Mathlib.Data.Finset.Card
import Mathlib.Data.Finset.Image

/-!
# Xv6.Fs.Room

The part of a transaction that `writei` needs.

`log_write` panics when the header of the log is full, before it looks whether the block is there
already. Here the blocks in the header are in a set that is known in advance, but for the blocks that
`balloc` finds: one for each block of the range, and the indirect block (`Room`).

* `wpe_writei_returns`: with room for the blocks of the range, for the bit map and for two more, `writei`
  returns.
-/

namespace Xv6
namespace Fs

open Bytes Prog Finset

def Superblock.capacity (sb : Superblock) : Nat := min LOGSIZE (sb.nlog - 1)

def Superblock.bitmaps (sb : Superblock) : Finset Nat := (range (sb.size / BPB + 1)).image (· + sb.bmapstart)

theorem Superblock.bblock_mem_bitmaps {sb : Superblock} (h : b < sb.size) : sb.bblock b ∈ sb.bitmaps := by
  have hb : b / BPB ≤ sb.size / BPB := Nat.div_le_div_right (Nat.le_of_lt h)
  exact mem_image.mpr ⟨b / BPB, mem_range.mpr (by omega), rfl⟩

theorem Superblock.card_bitmaps (sb : Superblock) : sb.bitmaps.card ≤ sb.size / BPB + 1 :=
  card_image_le.trans (card_range _).le

variable {sb : Superblock} {s s' : State} {E : Stop → Prop} {e : Entry} {l : List Nat} {F G : Finset Nat} {m : Nat}
variable {b : Nat}

/-- A transaction has begun, and only blocks of `F` have come into the header of the log after those
of `l`. -/
structure Within (sb : Superblock) (l : List Nat) (F : Finset Nat) (s : State) : Prop where
  begun : 1 ≤ s.outstanding
  log : ∃ new, s.log = l ++ new ∧ new.Nodup ∧ ∀ b ∈ new, b ∈ F
  bitmaps : sb.bitmaps ⊆ F

namespace Within

theorem mono (h : Within sb l F s) (hFG : F ⊆ G) : Within sb l G s := by
  obtain ⟨new, h1, h2, h3⟩ := h.log
  exact ⟨h.begun, ⟨new, h1, h2, fun b hb => hFG (h3 b hb)⟩, h.bitmaps.trans hFG⟩

theorem length_le (h : Within sb l F s) : s.log.length ≤ l.length + F.card := by
  obtain ⟨new, h1, h2, h3⟩ := h.log
  have hcard : new.toFinset.card ≤ F.card := card_le_card fun b hb => h3 b (List.mem_toFinset.mp hb)
  rw [List.toFinset_card_of_nodup h2] at hcard
  rw [h1, List.length_append]
  exact Nat.add_le_add_left hcard _

theorem congr (h : Within sb l F s) (ho : s'.outstanding = s.outstanding) (hl : s'.log = s.log) : Within sb l F s' :=
  ⟨ho ▸ h.begun, hl ▸ h.log, h.bitmaps⟩

end Within

theorem wpe_logWrite_within {Q : Unit → State → Prop} (h : Within sb l F s) (hb : b ∈ F)
    (hc : l.length + F.card < sb.capacity)
    (hQ : ∀ log, Within sb l F { s with log := log, logged := s.logged ++ [b] } →
      Q () { s with log := log, logged := s.logged ++ [b] }) : Wp.wpe E (logWrite sb b) Q s := by
  have hlen := h.length_le
  have hbegun := h.begun
  rw [Superblock.capacity] at hc
  rw [logWrite, Wp.wpe_bind, Wp.wpe_modify, Wp.wpe_bind, Wp.wpe_get,
    if_neg (show ¬ (_ ≤ s.log.length ∨ _ ≤ s.log.length) by omega), if_neg (show ¬ s.outstanding < 1 by omega)]
  split
  · exact Wp.wpe_pure.mpr (hQ s.log (h.congr rfl rfl))
  · rename_i hn
    obtain ⟨new, h1, h2, h3⟩ := h.log
    refine Wp.wpe_set.mpr (hQ (s.log ++ [b]) ⟨h.begun, ⟨new ++ [b], ?_, ?_, fun c hc => ?_⟩, h.bitmaps⟩)
    · rw [h1, List.append_assoc]
    · have hnew : b ∉ new := fun hc => hn (h1 ▸ List.mem_append_right l hc)
      exact List.nodup_append.mpr ⟨h2, List.nodup_singleton b, fun c hc d hd => by
        rw [List.mem_singleton.mp hd]
        rintro rfl
        exact hnew hc⟩
    · rcases List.mem_append.mp hc with hc | hc
      · exact h3 c hc
      · rwa [List.mem_singleton.mp hc]

theorem wpe_writeBlock_within {data : Block} {Q : Unit → State → Prop} (h : Within sb l F s) (hb : b ∈ F)
    (hc : l.length + F.card < sb.capacity)
    (hQ : ∀ s', Within sb l F s' → s'.inode = s.inode → Q () s') : Wp.wpe E (writeBlock sb b data) Q s := by
  rw [writeBlock, Wp.wpe_bind]
  exact Wp.wpe_modify.mpr (wpe_logWrite_within (h.congr rfl rfl) hb hc fun log hw => hQ _ hw rfl)

/-! ## balloc and bmap -/

section Geom

variable (hg : sb.Geom)
include hg

theorem wpe_ballocLoop_within : ∀ n b {s : State}, b % BPB = 0 → Within sb l F s → l.length + F.card + 1 < sb.capacity →
    wpe E (ballocLoop sb n b) (fun r s' => Within sb l (insert r.toNat F) s' ∧ s'.inode = s.inode) s := by
  intro n
  induction n with
  | zero => exact fun b s _ h _ => wpe_pure.mpr ⟨h.mono (subset_insert _ _), rfl⟩
  | succ n ih =>
    intro b s hb h hc
    rw [ballocLoop, wpe_ite]
    refine ⟨fun _ => ?_, fun _ => wpe_pure.mpr ⟨h.mono (subset_insert _ _), rfl⟩⟩
    rw [wpe_bind, wpe_atomic, ballocIn, Wp.wpe_bind]
    refine wpe_bread ?_
    split
    · rename_i bi hbi
      obtain ⟨hp, hmem, -⟩ := List.find?_range'_eq_some.mp hbi
      rw [Bool.and_eq_true, decide_eq_true_eq] at hp
      have hlt : bi < BPB := by simpa using hmem
      have hblk : sb.bblock b = sb.bblock (b + bi) := by
        simp only [Superblock.bblock, BPB, BSIZE] at *
        omega
      have hin : sb.bblock b ∈ F := h.bitmaps (hblk ▸ Superblock.bblock_mem_bitmaps hp.1)
      have hn : (UInt32.ofNat (b + bi)).toNat = b + bi := by
        have := hg.size
        exact UInt32.toNat_ofNat_of_lt' (by simp only [UInt32.size]; omega)
      rw [Wp.wpe_bind]
      refine wpe_writeBlock_within h hin (by omega) fun s1 h1 hi1 => Wp.wpe_pure.mpr ?_
      dsimp only
      rw [wpe_bind, wpe_atomic]
      refine wpe_writeBlock_within (h1.mono (subset_insert (b + bi) F)) (mem_insert_self _ _)
        (by have := card_insert_le (b + bi) F; omega) fun s2 h2 hi2 => wpe_pure.mpr ?_
      rw [hn]
      exact ⟨h2, hi2.trans hi1⟩
    · exact Wp.wpe_pure.mpr (ih _ (by rw [Nat.add_mod_right, hb]) h hc)

theorem wpe_balloc_within (h : Within sb l F s) (hc : l.length + F.card + 1 < sb.capacity) :
    wpe E (balloc sb) (fun r s' => Within sb l (insert r.toNat F) s' ∧ s'.inode = s.inode) s := by
  rw [balloc, wpe_bind, wpe_atomic, Wp.wpe_modify]
  exact wpe_ballocLoop_within hg _ 0 (s := { s with ballocs := s.ballocs + 1 }) rfl (h.congr rfl rfl) hc

theorem wpe_bmapAddr_within {k : Nat} (hk : k ≤ NDIRECT) (h : Within sb l F s) (hc : (s.inode e).copy.addr k = 0 → l.length + F.card + 1 < sb.capacity) :
    wpe E (bmapAddr sb e k) (fun r s' => ((s.inode e).copy.addr k ≠ 0 ∧ r = (s.inode e).copy.addr k ∧ s' = s) ∨
      ((s.inode e).copy.addr k = 0 ∧ Within sb l (insert r.toNat F) s' ∧ (s'.inode e).copy.addr k = r ∧
        (∀ l, l ≠ k → (s'.inode e).copy.addr l = (s.inode e).copy.addr l) ∧
        (s'.inode e).inum = (s.inode e).inum)) s := by
  rw [bmapAddr, wpe_bind]
  refine wpe_copyOf (wpe_ite.mpr ⟨fun h0 => ?_, fun h0 => wpe_pure.mpr (.inl ⟨h0, rfl, rfl⟩)⟩)
  refine wpe_seq (wpe_balloc_within hg h (hc h0)) ?_
  rintro r s1 ⟨h1, hi1⟩
  rw [wpe_ite]
  refine ⟨fun hr => wpe_pure.mpr (.inr ⟨h0, hr ▸ h1, ?_, fun l _ => by rw [hi1], by rw [hi1]⟩), fun _ => ?_⟩
  · rw [hi1]
    exact h0
  · rw [wpe_bind, wpe_setCopy, wpe_pure]
    dsimp only
    rw [Function.update_self]
    refine .inr ⟨h0, h1.congr rfl rfl, Dinode.addr_setAddr_same hk, fun l hl => ?_, by rw [hi1]; rfl⟩
    exact (Dinode.addr_setAddr_ne hl).trans (by rw [hi1])

theorem wpe_bmapEntry_within {n : Nat} {ind : UInt32} (h : Within sb l F s) (hind : ind.toNat ∈ F)
    (hc : l.length + F.card + 1 < sb.capacity) :
    wpe E (bmapEntry sb ind n) (fun r s' => Within sb l (insert r.toNat F) s' ∧ s'.inode = s.inode) s := by
  rw [bmapEntry, wpe_bind, wpe_atomic]
  refine wpe_bread (wpe_ite.mpr ⟨fun _ => ?_, fun _ => wpe_pure.mpr ⟨h.mono (subset_insert _ _), rfl⟩⟩)
  refine wpe_seq (wpe_balloc_within hg h hc) ?_
  rintro r s1 ⟨h1, hi1⟩
  refine wpe_ite.mpr ⟨fun _ => ?_, fun _ => wpe_pure.mpr ⟨h1, hi1⟩⟩
  rw [wpe_bind, wpe_atomic, Wp.wpe_bind]
  refine wpe_bread (wpe_writeBlock_within h1 (mem_insert_of_mem hind)
    (by have := card_insert_le r.toNat F; omega) fun s2 h2 hi2 => wpe_pure.mpr ⟨h2, hi2.trans hi1⟩)

end Geom

def indirectNeed (e : Entry) (s : State) : Nat := if (s.inode e).copy.addr NDIRECT = 0 then 1 else 0

/-- The transaction has room for `m` blocks of the file in entry `e`, and for its indirect block. -/
structure Room (sb : Superblock) (e : Entry) (l : List Nat) (m : Nat) (F : Finset Nat) (s : State) : Prop extends Within sb l F s where
  inode : sb.iblock (s.inode e).inum ∈ F
  indirect : (s.inode e).copy.addr NDIRECT ≠ 0 → ((s.inode e).copy.addr NDIRECT).toNat ∈ F
  card : l.length + F.card + indirectNeed e s + m < sb.capacity

theorem Room.weaken (h : Room sb e l m F s) : Room sb e l 0 F s :=
  ⟨h.toWithin, h.inode, h.indirect, by have := h.card; omega⟩

theorem Room.spend (h : Room sb e l (m + 1) F s) (hw : Within sb l (insert b F) s')
    (hind : (s'.inode e).copy.addr NDIRECT = (s.inode e).copy.addr NDIRECT)
    (hinum : (s'.inode e).inum = (s.inode e).inum) : Room sb e l m (insert b F) s' := by
  refine ⟨hw, ?_, ?_, ?_⟩
  · rw [hinum]
    exact mem_insert_of_mem h.inode
  · rw [hind]
    exact fun h0 => mem_insert_of_mem (h.indirect h0)
  · have h1 := h.card
    have h2 := card_insert_le b F
    simp only [indirectNeed, hind] at *
    omega

def RoomAfter (sb : Superblock) (e : Entry) (l : List Nat) (m : Nat) (r : UInt32) (s' : State) : Prop :=
  ∃ G, Room sb e l m G s' ∧ r.toNat ∈ G

theorem wpe_bmap_room {bn : Nat} (hg : sb.Geom) (h : Room sb e l (m + 1) F s) (hbn : bn < MAXFILE) :
    wpe E (bmap sb e bn) (RoomAfter sb e l m) s := by
  have hcard := h.card
  rw [bmap]
  by_cases hd : bn < NDIRECT
  · rw [if_pos hd]
    refine wpe_mono (wpe_bmapAddr_within hg (Nat.le_of_lt hd) h.toWithin fun _ => by omega) ?_
    rintro r s' (⟨-, -, rfl⟩ | ⟨-, hw, -, hrest, hinum⟩)
    · exact ⟨_, h.spend (h.toWithin.mono (subset_insert r.toNat F)) rfl rfl, mem_insert_self _ _⟩
    · exact ⟨_, h.spend hw (hrest _ (Nat.ne_of_gt hd)) hinum, mem_insert_self _ _⟩
  have hn : bn - NDIRECT < NINDIRECT := by
    simp only [MAXFILE] at hbn
    omega
  rw [if_neg hd, if_pos hn]
  refine wpe_seq (wpe_bmapAddr_within hg le_rfl h.toWithin fun _ => by omega) ?_
  rintro ind s1 (⟨h0, rfl, rfl⟩ | ⟨h0, hw, hind, -, hinum⟩)
  · rw [if_neg h0]
    refine wpe_mono (wpe_bmapEntry_within hg h.toWithin (h.indirect h0) (by omega)) ?_
    rintro r s' ⟨hw, hi⟩
    exact ⟨_, h.spend hw (by rw [hi]) (by rw [hi]), mem_insert_self _ _⟩
  · have hneed : indirectNeed e s = 1 := if_pos h0
    rw [wpe_ite]
    refine ⟨fun hz => wpe_pure.mpr ?_, fun hnz => ?_⟩
    · rw [hz] at hw hind
      exact ⟨_, h.spend hw (hind.trans h0.symm) hinum, mem_insert_self _ _⟩
    · have hc := card_insert_le ind.toNat F
      refine wpe_mono (wpe_bmapEntry_within hg hw (mem_insert_self _ _) (by omega)) ?_
      rintro r s' ⟨hw', hi⟩
      refine ⟨_, ⟨hw', ?_, fun _ => ?_, ?_⟩, mem_insert_self _ _⟩
      · rw [hi, hinum]
        exact mem_insert_of_mem (mem_insert_of_mem h.inode)
      · rw [hi, hind]
        exact mem_insert_of_mem (mem_insert_self _ _)
      · have hneed' : indirectNeed e s' = 0 := if_neg (by rw [hi, hind]; exact hnz)
        have hc' := card_insert_le r.toNat (insert ind.toNat F)
        omega

/-! ## writei -/

theorem wpe_writeiLoop_room {src : Nat → Option UInt8} {n : Nat} (hg : sb.Geom) :
    ∀ fuel m off tot {F : Finset Nat} {s : State}, Room sb e l m F s →
      (tot < n → off + (n - tot) ≤ (off / BSIZE + m) * BSIZE) → off + (n - tot) ≤ MAXFILE * BSIZE →
      wpe E (writeiLoop sb e src n fuel off tot) (fun _ s' => ∃ G, Room sb e l 0 G s') s := by
  intro fuel
  induction fuel with
  | zero => exact fun m off tot F s h _ _ => wpe_pure.mpr ⟨F, h.weaken⟩
  | succ fuel ih =>
    intro m off tot F s h hm hmax
    rw [writeiLoop]
    by_cases hlt : tot < n
    swap
    · rw [if_neg hlt]
      exact wpe_pure.mpr ⟨F, h.weaken⟩
    have hbn : off / BSIZE < MAXFILE := by
      simp only [MAXFILE, BSIZE] at *
      omega
    cases m with
    | zero =>
      have := hm hlt
      simp only [BSIZE] at this
      omega
    | succ m =>
      rw [if_pos hlt]
      refine wpe_seq (wpe_bmap_room hg h hbn) ?_
      rintro r s1 ⟨G, h1, hr⟩
      have hcard := h1.card
      rw [wpe_ite]
      refine ⟨fun _ => wpe_pure.mpr ⟨G, h1.weaken⟩, fun _ => ?_⟩
      dsimp only
      rw [wpe_bind, wpe_atomic, copyinBlock, Wp.wpe_bind]
      refine wpe_bread ?_
      rw [Wp.wpe_bind, setBlock, Wp.wpe_modify, Wp.wpe_ite]
      refine ⟨fun _ => Wp.wpe_pure.mpr (wpe_pure.mpr ⟨G, h1.toWithin.congr rfl rfl, h1.inode, h1.indirect,
        h1.weaken.card⟩), fun _ => ?_⟩
      rw [Wp.wpe_bind]
      refine wpe_logWrite_within (h1.toWithin.congr rfl rfl) hr (by omega) fun log hw => Wp.wpe_pure.mpr ?_
      rw [if_pos rfl]
      refine ih m _ _ ⟨hw, h1.inode, h1.indirect, hcard⟩ ?_ ?_
      · intro hlt'
        have hm := hm hlt
        have hmin : min (n - tot) (BSIZE - off % BSIZE) = BSIZE - off % BSIZE := by omega
        have hnext : (off + (BSIZE - off % BSIZE)) / BSIZE = off / BSIZE + 1 := by
          simp only [BSIZE]
          omega
        rw [hmin, hnext, show off / BSIZE + 1 + m = off / BSIZE + (m + 1) by omega]
        omega
      · simp only [MAXFILE, BSIZE] at *
        omega

/-- How many blocks a range of a file has part in, at most. -/
def blocksFor (off n : Nat) : Nat := (off % BSIZE + n + (BSIZE - 1)) / BSIZE

/-- The header of the log has room for a write of `n` bytes at `off`: for the blocks of the range, the
bit map, the inode block and the indirect block. -/
def HasRoom (sb : Superblock) (s : State) (off n : Nat) : Prop :=
  s.log.length + blocksFor off n + (sb.size / BPB + 1) + 2 < sb.capacity

instance (off n : Nat) : Decidable (HasRoom sb s off n) := inferInstanceAs (Decidable (_ < _))

theorem Room.of_hasRoom {off n : Nat} (h : HasRoom sb s off n) (ho : 1 ≤ s.outstanding) (e : Entry) :
    ∃ F, Room sb e s.log (blocksFor off n) F s := by
  have hb := sb.card_bitmaps
  have hi := card_insert_le (sb.iblock (s.inode e).inum) sb.bitmaps
  set F := insert (sb.iblock (s.inode e).inum) sb.bitmaps with hF
  have hw : Within sb s.log F s := ⟨ho, ⟨[], (List.append_nil _).symm, List.nodup_nil, nofun⟩, subset_insert _ _⟩
  rw [HasRoom] at h
  by_cases h0 : (s.inode e).copy.addr NDIRECT = 0
  · refine ⟨F, hw, mem_insert_self _ _, fun hne => absurd h0 hne, ?_⟩
    rw [indirectNeed, if_pos h0]
    omega
  · have hi' := card_insert_le ((s.inode e).copy.addr NDIRECT).toNat F
    refine ⟨_, hw.mono (subset_insert ((s.inode e).copy.addr NDIRECT).toNat F),
      mem_insert_of_mem (mem_insert_self _ _), fun _ => mem_insert_self _ _, ?_⟩
    rw [indirectNeed, if_neg h0]
    omega

theorem wpe_writei_returns {src : Nat → Option UInt8} {off n : UInt32} (hg : sb.Geom) (ho : 1 ≤ s.outstanding)
    (h : HasRoom sb s off.toNat n.toNat) : wpe E (writei sb e src off n) (fun _ _ => True) s := by
  rw [writei, wpe_bind]
  refine wpe_copyOf (wpe_ite.mpr ⟨fun _ => wpe_pure.mpr trivial, fun hacc => wpe_ite.mpr
    ⟨fun _ => wpe_pure.mpr trivial, fun hmax => ?_⟩⟩)
  have hwrap : (off + n).toNat = off.toNat + n.toNat := by
    have h1 := off.toNat_lt
    have h2 := n.toNat_lt
    rw [not_or, UInt32.lt_iff_toNat_lt, UInt32.lt_iff_toNat_lt] at hacc
    rw [UInt32.toNat_add] at *
    omega
  rw [hwrap] at hmax
  obtain ⟨F, hF⟩ := Room.of_hasRoom h ho e
  refine wpe_seq (wpe_writeiLoop_room hg n.toNat _ off.toNat 0 hF (fun _ => ?_) (by omega)) ?_
  · simp only [blocksFor, BSIZE]
    omega
  · rintro r s1 ⟨G, h₁⟩
    have hcard := h₁.card
    rw [wpe_bind, wpe_setCopy]
    refine wpe_seq (P := fun _ _ => True) ?_ fun _ _ _ => wpe_pure.mpr trivial
    rw [wpe_atomic, iupdate, Wp.wpe_bind, Wp.wpe_get]
    dsimp only
    rw [Wp.wpe_bind, Function.update_self]
    exact wpe_bread (wpe_writeBlock_within (F := G) (h₁.toWithin.congr rfl rfl) h₁.inode (by omega) fun _ _ _ => trivial)

end Fs
end Xv6
