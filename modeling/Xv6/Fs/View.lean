import Xv6.Lib.Places
import Xv6.Fs.Layout
import Mathlib.Tactic.NormNum

/-!
# Xv6.Fs.View

Files as blocks of a disk: what inodes, the bit map and the data blocks mean.

A `View` is what the kernel knows of the disk: the dinode of each inode, which blocks are in use, and
the contents of the data blocks. An inode has 269 places for block numbers: the 13 of `addrs[]` and
the entries of its indirect block (`addr`). `byteAt` is the file that the inode stands for.

* `take`, `Stored`: a free block is zeroed and comes into an empty place. No file changes, and every
  block stays in one place (`owned_take`, `Stored.owned`).
* `byteAt_write`: a write to a block of a file changes that file only.
* `Whole`: a file has all its blocks.
-/

namespace Xv6
namespace Fs

open Bytes Function

@[ext] structure View where
  dinode : Nat → Dinode
  used : Nat → Bool
  block : Nat → Block

/-- The place of file block `bn`: place `NDIRECT` is for the indirect block. -/
def place (bn : Nat) : Nat := if bn < NDIRECT then bn else bn + 1

theorem place_ne (bn : Nat) : place bn ≠ NDIRECT := by
  unfold place
  split <;> omega

theorem place_inj {bn bn' : Nat} (h : place bn = place bn') : bn = bn' := by
  unfold place at h
  split at h <;> split at h <;> omega

namespace View

/-- The number in place `k` of inode `i`, 0 if there is none. A free inode has no block. -/
def addr (V : View) (i k : Nat) : Nat :=
  if (V.dinode i).type = 0 then 0
  else if k ≤ NDIRECT then ((V.dinode i).addr k).toNat
  else if (V.dinode i).addr NDIRECT = 0 then 0
  else (getAddr (V.block ((V.dinode i).addr NDIRECT).toNat) (k - (NDIRECT + 1))).toNat

def places (V : View) (x : Nat × Nat) : Nat := V.addr x.1 x.2

def byteAt (V : View) (i pos : Nat) : UInt8 :=
  if V.addr i (place (pos / BSIZE)) = 0 then 0
  else byte (V.block (V.addr i (place (pos / BSIZE)))) (pos % BSIZE)

def setDinode (V : View) (i : Nat) (d : Dinode) : View := { V with dinode := update V.dinode i d }

def setUsed (V : View) (b : Nat) (v : Bool) : View := { V with used := update V.used b v }

def setBlock (V : View) (b : Nat) (data : Block) : View := { V with block := update V.block b data }

def take (V : View) (b : Nat) : View := (V.setUsed b true).setBlock b zeroBlock

section Addr

variable {V : View} {i j k l b : Nat} {d : Dinode} {a : UInt32} {data : Block}

theorem addr_free (h : (V.dinode i).type = 0) : V.addr i k = 0 := by
  rw [addr, if_pos h]

theorem addr_direct (h : (V.dinode i).type ≠ 0) (hk : k ≤ NDIRECT) : V.addr i k = ((V.dinode i).addr k).toNat := by
  rw [addr, if_neg h, if_pos hk]

theorem addr_entry (hk : NDIRECT < k) (hi : V.addr i NDIRECT ≠ 0) :
    V.addr i k = (getAddr (V.block (V.addr i NDIRECT)) (k - (NDIRECT + 1))).toNat := by
  have ht : (V.dinode i).type ≠ 0 := fun ht => hi (addr_free ht)
  rw [addr_direct ht le_rfl] at hi
  have h0 : (V.dinode i).addr NDIRECT ≠ 0 := fun h0 => hi (by rw [h0]; rfl)
  rw [addr, if_neg ht, if_neg (Nat.not_le.mpr hk), if_neg h0, addr_direct ht le_rfl]

theorem addr_no_indirect (hk : NDIRECT ≤ k) (hi : V.addr i NDIRECT = 0) : V.addr i k = 0 := by
  by_cases ht : (V.dinode i).type = 0
  · exact addr_free ht
  rcases Nat.eq_or_lt_of_le hk with rfl | hk
  · exact hi
  rw [addr_direct ht le_rfl] at hi
  have h0 : (V.dinode i).addr NDIRECT = 0 := UInt32.toNat_inj.mp hi
  rw [addr, if_neg ht, if_neg (Nat.not_le.mpr hk), if_pos h0]

theorem addr_congr {V' : View} (hd : V'.dinode i = V.dinode i)
    (hb : V.addr i NDIRECT ≠ 0 → V'.block (V.addr i NDIRECT) = V.block (V.addr i NDIRECT)) :
    V'.addr i k = V.addr i k := by
  by_cases ht : (V.dinode i).type = 0
  · rw [addr_free ht, addr_free (hd ▸ ht)]
  have ht' : (V'.dinode i).type ≠ 0 := by rwa [hd]
  have h12 : V'.addr i NDIRECT = V.addr i NDIRECT := by
    rw [addr_direct ht le_rfl, addr_direct ht' le_rfl, hd]
  rcases Nat.lt_or_ge NDIRECT k with hk | hk
  · by_cases h0 : V.addr i NDIRECT = 0
    · rw [addr_no_indirect (Nat.le_of_lt hk) h0, addr_no_indirect (Nat.le_of_lt hk) (h12.trans h0)]
    · rw [addr_entry hk h0, addr_entry hk (h12 ▸ h0), h12, hb h0]
  · rw [addr_direct ht hk, addr_direct ht' hk, hd]

theorem addr_setBlock (h : V.addr i NDIRECT ≠ b) : (V.setBlock b data).addr i k = V.addr i k :=
  addr_congr rfl fun _ => update_of_ne h _ _

theorem addr_setDinode_ne (h : j ≠ i) : (V.setDinode i d).addr j k = V.addr j k :=
  addr_congr (update_of_ne h _ _) fun _ => rfl

theorem dinode_setDinode_same : (V.setDinode i d).dinode i = d := update_self _ _ _

theorem dinode_setDinode_ne (h : j ≠ i) : (V.setDinode i d).dinode j = V.dinode j := update_of_ne h _ _

theorem addr_setFields (ht : (V.dinode i).type ≠ 0) (ht' : d.type ≠ 0) (hd : d.addrs = (V.dinode i).addrs) :
    (V.setDinode i d).addr j k = V.addr j k := by
  by_cases hj : j = i
  · subst hj
    have ha : ∀ l, d.addr l = (V.dinode j).addr l := fun l => by rw [Dinode.addr, Dinode.addr, hd]
    simp only [addr, dinode_setDinode_same, if_neg ht, if_neg ht', ha]
    rfl
  · exact addr_setDinode_ne hj

theorem addr_setAddr (ht : (V.dinode i).type ≠ 0) (hk : k ≤ NDIRECT)
    (h12 : k = NDIRECT → V.addr i NDIRECT = 0 ∧ ∀ n, getAddr (V.block a.toNat) n = 0) :
    (V.setDinode i ((V.dinode i).setAddr k a)).addr j l = if (j, l) = (i, k) then a.toNat else V.addr j l := by
  by_cases hj : j = i
  swap
  · rw [addr_setDinode_ne hj, if_neg (by rw [Prod.mk.injEq]; exact fun h => hj h.1)]
  subst hj
  set V' := V.setDinode j ((V.dinode j).setAddr k a) with hV'
  have hd : V'.dinode j = (V.dinode j).setAddr k a := dinode_setDinode_same
  have ht' : (V'.dinode j).type ≠ 0 := by rw [hd]; exact ht
  by_cases hl : l = k
  · subst hl
    rw [if_pos rfl, addr_direct ht' hk, hd, Dinode.addr_setAddr_same hk]
  rw [if_neg (by rw [Prod.mk.injEq]; exact fun h => hl h.2)]
  rcases Nat.lt_or_ge NDIRECT l with hl' | hl'
  · by_cases he : k = NDIRECT
    · subst he
      have h0 := addr_no_indirect (Nat.le_of_lt hl') (h12 rfl).1
      rw [h0]
      have ha : V'.addr j NDIRECT = a.toNat := by
        rw [addr_direct ht' hk, hd, Dinode.addr_setAddr_same hk]
      by_cases hz : a.toNat = 0
      · exact addr_no_indirect (Nat.le_of_lt hl') (ha.trans hz)
      · rw [addr_entry hl' (by rw [ha]; exact hz), ha]
        have : V'.block = V.block := rfl
        rw [this, (h12 rfl).2]
        rfl
    · have h12' : V'.addr j NDIRECT = V.addr j NDIRECT := by
        rw [addr_direct ht' le_rfl, addr_direct ht le_rfl, hd, Dinode.addr_setAddr_ne (Ne.symm he)]
      by_cases h0 : V.addr j NDIRECT = 0
      · rw [addr_no_indirect (Nat.le_of_lt hl') h0, addr_no_indirect (Nat.le_of_lt hl') (h12'.trans h0)]
      · rw [addr_entry hl' h0, addr_entry hl' (h12' ▸ h0), h12']
        rfl
  · rw [addr_direct ht' hl', addr_direct ht hl', hd, Dinode.addr_setAddr_ne hl]

theorem addr_putAddr {n : Nat} (hn : n < NINDIRECT) (h12 : V.addr i NDIRECT ≠ 0)
    (hinj : ∀ j, V.addr j NDIRECT = V.addr i NDIRECT → j = i) :
    (V.setBlock (V.addr i NDIRECT) (putAddr (V.block (V.addr i NDIRECT)) n a)).addr j l =
      if (j, l) = (i, n + (NDIRECT + 1)) then a.toNat else V.addr j l := by
  by_cases hj : j = i
  swap
  · rw [addr_setBlock fun h => hj (hinj j h), if_neg (by rw [Prod.mk.injEq]; exact fun h => hj h.1)]
  subst hj
  set V' := V.setBlock (V.addr j NDIRECT) (putAddr (V.block (V.addr j NDIRECT)) n a) with hV'
  have ht : (V.dinode j).type ≠ 0 := fun ht => h12 (addr_free ht)
  have h12' : V'.addr j NDIRECT = V.addr j NDIRECT := by
    rw [addr_direct (V := V') ht le_rfl, addr_direct ht le_rfl]
    rfl
  have hb : V'.block (V.addr j NDIRECT) = putAddr (V.block (V.addr j NDIRECT)) n a := update_self _ _ _
  rcases Nat.lt_or_ge NDIRECT l with hl | hl
  · rw [addr_entry hl (h12' ▸ h12), h12', hb, addr_entry hl h12]
    by_cases hln : l = n + (NDIRECT + 1)
    · subst hln
      rw [if_pos rfl, Nat.add_sub_cancel, getAddr_putAddr_same hn]
    · rw [if_neg (by rw [Prod.mk.injEq]; exact fun h => hln h.2), getAddr_putAddr_ne (by omega)]
  · rw [if_neg (by rw [Prod.mk.injEq]; omega), addr_direct ht hl, addr_direct (V := V') ht hl]
    rfl

theorem byteAt_congr {V' : View} {pos : Nat} (ha : V'.addr i (place (pos / BSIZE)) = V.addr i (place (pos / BSIZE)))
    (hb : V.addr i (place (pos / BSIZE)) ≠ 0 → V'.block (V.addr i (place (pos / BSIZE))) =
      V.block (V.addr i (place (pos / BSIZE)))) : V'.byteAt i pos = V.byteAt i pos := by
  unfold byteAt
  rw [ha]
  split
  · rfl
  · rename_i h
    rw [hb h]

end Addr

/-! ## Ownership -/

section Owned

variable {V : View} {lo hi i j k l b bn pos : Nat} {X : Set Nat} {data : Block} {V' : View}

section

variable (h : Places.Owned lo hi V.places X V.used)
include h

theorem addr_indirect_inj (hi : V.addr i NDIRECT ≠ 0)
    (hj : V.addr j NDIRECT = V.addr i NDIRECT) : j = i := by
  have := h.inj (x := (i, NDIRECT)) (y := (j, NDIRECT)) hi hj.symm
  exact (Prod.mk.inj this).1.symm

theorem addr_setBlock_transit (hb : b ∈ X) :
    (V.setBlock b data).addr i k = V.addr i k :=
  addr_setBlock ((h.transit hb).2.2 (i, NDIRECT))

theorem byteAt_setBlock_transit (hb : b ∈ X) :
    (V.setBlock b data).byteAt i pos = V.byteAt i pos :=
  byteAt_congr (addr_setBlock_transit h hb) fun _ =>
    update_of_ne ((h.transit hb).2.2 (i, place (pos / BSIZE))) _ _

theorem places_take (hb : b < hi) (hf : V.used b = false) :
    (V.take b).places = V.places :=
  funext fun _ => addr_setBlock_transit (V := V.setUsed b true) (h.take hb hf) (Set.mem_insert b X)

theorem owned_take (hb : b < hi) (hf : V.used b = false) :
    Places.Owned lo hi (V.take b).places (insert b X) (V.take b).used := by
  rw [places_take h hb hf]
  exact h.take hb hf

theorem byteAt_take (hb : b < hi) (hf : V.used b = false) :
    (V.take b).byteAt i pos = V.byteAt i pos :=
  byteAt_setBlock_transit (V := V.setUsed b true) (h.take hb hf) (Set.mem_insert b X)

end

theorem block_take : (V.take b).block b = zeroBlock := update_self _ _ _

theorem toNat_ofNat_transit (h : Places.Owned lo hi V.places X V.used) (hhi : hi < 2 ^ 31) (hb : b ∈ X) :
    (UInt32.ofNat b).toNat = b := by
  have := (h.transit hb).2.1
  exact UInt32.toNat_ofNat_of_lt' (by simp only [UInt32.size]; omega)

theorem places_eq_update (h : ∀ j l, V'.addr j l = if (j, l) = (i, k) then b else V.addr j l) :
    V'.places = update V.places (i, k) b := by
  funext ⟨j, l⟩
  rw [update_apply]
  exact h j l

/-- The number `b` comes into place `k` of inode `i`, where there was none. The files keep their bytes. -/
structure Stored (V V' : View) (i k b : Nat) : Prop where
  places : V'.places = update V.places (i, k) b
  used : V'.used = V.used
  head : ∀ j, (V'.dinode j).head = (V.dinode j).head
  byteAt : ∀ j pos, V'.byteAt j pos = V.byteAt j pos

theorem Stored.owned (hs : Stored V V' i k b) (h : Places.Owned lo hi V.places (insert b X) V.used)
    (hb : b ∉ X) (h0 : V.addr i k = 0) (hlo : 0 < lo) : Places.Owned lo hi V'.places X V'.used := by
  have h' := h.store (Set.mem_insert b X) (x := (i, k)) h0 hlo
  rwa [← hs.places, ← hs.used, Set.insert_sdiff_self_of_notMem hb] at h'

theorem Stored.kept (hs : Stored V V' i k b) (h0 : V.addr i k = 0) {x : Nat × Nat}
    (hx : V.places x ≠ 0) : V'.places x = V.places x := by
  rw [hs.places, update_of_ne]
  rintro rfl
  exact hx h0

theorem byteAt_store (hp : V'.places = update V.places (i, k) b) (hk : V.addr i k = 0)
    (hz : V'.block b = zeroBlock)
    (hsame : ∀ j bn, V.addr j (place bn) ≠ 0 → V'.block (V.addr j (place bn)) = V.block (V.addr j (place bn))) :
    V'.byteAt j pos = V.byteAt j pos := by
  have ha := congrFun hp (j, place (pos / BSIZE))
  rw [update_apply] at ha
  by_cases hx : (j, place (pos / BSIZE)) = (i, k)
  · rw [if_pos hx] at ha
    obtain ⟨rfl, rfl⟩ := Prod.mk.inj hx
    have ha : V'.addr j (place (pos / BSIZE)) = b := ha
    rw [View.byteAt, View.byteAt, if_pos hk, ha, hz, byte_zeroBlock, ite_self]
  · rw [if_neg hx] at ha
    exact byteAt_congr ha (hsame j _)

section

variable (h : Places.Owned lo hi V.places X V.used)
include h

theorem stored_setAddr (hhi : hi < 2 ^ 31) (hb : b ∈ X)
    (ht : (V.dinode i).type ≠ 0) (hk : k ≤ NDIRECT) (h0 : V.addr i k = 0) (hz : V.block b = zeroBlock) :
    Stored V (V.setDinode i ((V.dinode i).setAddr k (UInt32.ofNat b))) i k b := by
  have hn := toNat_ofNat_transit h hhi hb
  have hp := places_eq_update fun j l => addr_setAddr (j := j) (l := l) ht hk fun he =>
    ⟨he ▸ h0, fun n => by rw [hn, hz, getAddr_zeroBlock]⟩
  rw [hn] at hp
  refine ⟨hp, rfl, fun j => ?_, fun j pos => byteAt_store hp h0 hz fun _ _ _ => rfl⟩
  by_cases hj : j = i
  · subst hj
    rw [dinode_setDinode_same, Dinode.head_setAddr]
  · exact congrArg _ (update_of_ne hj _ _)

theorem stored_putAddr {n : Nat} (hhi : hi < 2 ^ 31) (hb : b ∈ X)
    (hn : n < NINDIRECT) (h12 : V.addr i NDIRECT ≠ 0) (h0 : V.addr i (n + (NDIRECT + 1)) = 0)
    (hz : V.block b = zeroBlock) :
    Stored V (V.setBlock (V.addr i NDIRECT) (putAddr (V.block (V.addr i NDIRECT)) n (UInt32.ofNat b)))
      i (n + (NDIRECT + 1)) b := by
  have hp := places_eq_update fun j l => addr_putAddr (j := j) (l := l) (a := UInt32.ofNat b) hn h12
    fun j => addr_indirect_inj h h12
  rw [toNat_ofNat_transit h hhi hb] at hp
  have hne : V.addr i NDIRECT ≠ b := (h.transit hb).2.2 (i, NDIRECT)
  refine ⟨hp, rfl, fun j => rfl, fun j pos => byteAt_store hp h0 ?_ fun j bn ha => ?_⟩
  · rw [← hz]
    exact update_of_ne (Ne.symm hne) _ _
  · refine update_of_ne (fun he => ?_) _ _
    have := h.inj (x := (j, place bn)) (y := (i, NDIRECT)) ha he
    exact place_ne bn (Prod.mk.inj this).2

theorem addr_write (hb : V.addr i (place bn) ≠ 0) :
    (V.setBlock (V.addr i (place bn)) data).addr j k = V.addr j k := by
  refine addr_setBlock fun he => ?_
  have := h.inj (x := (i, place bn)) (y := (j, NDIRECT)) hb he.symm
  exact place_ne bn (Prod.mk.inj this).2

theorem byteAt_write (hb : V.addr i (place bn) ≠ 0) :
    (V.setBlock (V.addr i (place bn)) data).byteAt j pos =
      if j = i ∧ pos / BSIZE = bn then byte data (pos % BSIZE) else V.byteAt j pos := by
  split
  · rename_i hx
    obtain ⟨rfl, rfl⟩ := hx
    rw [View.byteAt, addr_write h hb, if_neg hb]
    exact congrArg (byte · (pos % BSIZE)) (update_self _ _ _)
  · rename_i hx
    refine byteAt_congr (addr_write h hb) fun ha => update_of_ne (fun he => hx ?_) _ _
    have hxy := h.inj (x := (j, place (pos / BSIZE))) (y := (i, place bn)) ha he
    exact ⟨(Prod.mk.inj hxy).1, place_inj (Prod.mk.inj hxy).2⟩

end

theorem addr_empty (h : ∀ l ≤ NDIRECT, (V.dinode i).addr l = 0) : V.addr i k = 0 := by
  by_cases ht : (V.dinode i).type = 0
  · exact addr_free ht
  rcases Nat.lt_or_ge NDIRECT k with hk | hk
  · refine addr_no_indirect (Nat.le_of_lt hk) ?_
    rw [addr_direct ht le_rfl, h _ le_rfl]
    rfl
  · rw [addr_direct ht hk, h k hk]
    rfl

end Owned

/-! ## What a file has -/

/-- A file has all the blocks up to its size, and the size is one that `bmap` can reach. -/
structure Whole (V : View) (i : Nat) : Prop where
  size : (V.dinode i).size.toNat ≤ MAXFILE * BSIZE
  blocks : ∀ bn, bn * BSIZE < (V.dinode i).size.toNat → V.addr i (place bn) ≠ 0

end View

end Fs
end Xv6
