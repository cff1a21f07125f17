import Xv6.Param
import Mathlib.Data.Fintype.Pi
import Mathlib.Data.Nat.Bitwise

/-!
# Xv6.Fs.Layout

The on-disk format of `kernel/fs.h`, as bytes of blocks.

* `Dinode.enc`, `Dinode.dec`: `struct dinode`; `getDinode` and `putDinode` at a slot of a block.
* `bit`, `setBit`, `clearBit`: the free bit map.
* `getAddr`, `putAddr`: the entries of an indirect block.
* `Dirent.enc`, `Dirent.dec`: `struct dirent`.
* `Superblock`, `Superblock.Geom`: where the parts of the disk are.
-/

namespace Xv6
namespace Fs

open Bytes List

variable {b : Block}

abbrev ROOTINO : Nat := 1

abbrev NDIRECT : Nat := 12
abbrev NINDIRECT : Nat := BSIZE / 4
abbrev MAXFILE : Nat := NDIRECT + NINDIRECT

instance (priority := 2000) : NeZero (NDIRECT + 1) := ⟨by decide⟩

abbrev IPB : Nat := BSIZE / 64

abbrev BPB : Nat := BSIZE * 8

abbrev DIRSIZ : Nat := 14

/-- `sizeof(struct dirent)`. -/
abbrev DIRENT : Nat := 16

abbrev T_DIR : Int16 := 1
abbrev T_FILE : Int16 := 2
abbrev T_DEVICE : Int16 := 3

theorem toNat_mod16 (x : UInt16) : x.toNat % 256 ^ 2 = x.toNat := Nat.mod_eq_of_lt x.toNat_lt

theorem toNat_mod32 (x : UInt32) : x.toNat % 256 ^ 4 = x.toNat := Nat.mod_eq_of_lt x.toNat_lt

/-! ## Inodes -/

structure Dinode where
  type : Int16
  major : Int16
  minor : Int16
  nlink : Int16
  size : UInt32
  addrs : Fin (NDIRECT + 1) → UInt32
  deriving DecidableEq

namespace Dinode

variable {d d' : Dinode} {i : Nat} {a : UInt32}

def zero : Dinode where
  type := 0
  major := 0
  minor := 0
  nlink := 0
  size := 0
  addrs := fun _ => 0

def ofType (type : Int16) : Dinode := { zero with type := type }

def addr (d : Dinode) (i : Nat) : UInt32 := if h : i < NDIRECT + 1 then d.addrs ⟨i, h⟩ else 0

def setAddr (d : Dinode) (i : Nat) (a : UInt32) : Dinode :=
  { d with addrs := fun j => if j.val = i then a else d.addrs j }

theorem addr_setAddr_same (h : i ≤ NDIRECT) : (d.setAddr i a).addr i = a := by
  simp [addr, setAddr, Nat.lt_succ_of_le h]

theorem addr_setAddr_ne {j : Nat} (h : j ≠ i) : (d.setAddr i a).addr j = d.addr j := by
  simp [addr, setAddr, h]

def head (d : Dinode) : Dinode := { d with addrs := fun _ => 0 }

@[simp] theorem head_setAddr : (d.setAddr i a).head = d.head := rfl

theorem fields_of_head (h : d'.head = d.head) : d'.type = d.type ∧ d'.major = d.major ∧
    d'.minor = d.minor ∧ d'.nlink = d.nlink ∧ d'.size = d.size := by
  simp only [head, Dinode.mk.injEq] at h
  exact ⟨h.1, h.2.1, h.2.2.1, h.2.2.2.1, h.2.2.2.2.1⟩

theorem type_of_head (h : d'.head = d.head) : d'.type = d.type := (fields_of_head h).1

theorem size_of_head (h : d'.head = d.head) : d'.size = d.size := (fields_of_head h).2.2.2.2

def encShort (x : Int16) : List UInt8 := encLE 2 x.toUInt16.toNat

def decShort (l : List UInt8) (off : Nat) : Int16 := .ofUInt16 (.ofNat (field l off 2))

def enc (d : Dinode) : List UInt8 :=
  encShort d.type ++ (encShort d.major ++ (encShort d.minor ++ (encShort d.nlink ++
    (encLE 4 d.size.toNat ++ (finRange (NDIRECT + 1)).flatMap fun i => encLE 4 (d.addrs i).toNat))))

def dec (l : List UInt8) : Dinode where
  type := decShort l 0
  major := decShort l 2
  minor := decShort l 4
  nlink := decShort l 6
  size := .ofNat (field l 8 4)
  addrs := fun i => .ofNat (field l (12 + 4 * i) 4)

@[simp] theorem length_encShort (x : Int16) : (encShort x).length = 2 := length_encLE _ _

theorem length_enc (d : Dinode) : d.enc.length = 64 := by
  simp [enc, length_flatMap, NDIRECT]

theorem decShort_encShort (x : Int16) (l : List UInt8) : decShort (encShort x ++ l) 0 = x := by
  rw [decShort, encShort, field_encLE, toNat_mod16, UInt16.ofNat_toNat]

theorem decShort_append {l l' : List UInt8} {off : Nat} (h : l.length ≤ off) :
    decShort (l ++ l') off = decShort l' (off - l.length) := by
  rw [decShort, field_append_right h, decShort]

theorem dec_enc (d : Dinode) : dec d.enc = d := by
  have haddr : ∀ i : Fin (NDIRECT + 1), UInt32.ofNat (field d.enc (12 + 4 * i) 4) = d.addrs i := by
    intro i
    have ht := take_drop_flatMap (f := fun i => encLE 4 (d.addrs i).toNat) (fun _ => length_encLE 4 _)
      (finRange (NDIRECT + 1)) i (by rw [length_finRange]; exact i.isLt)
    have hoff : 12 + 4 * i.val - 2 - 2 - 2 - 2 - 4 = 4 * i.val := by omega
    simp only [enc]
    rw [field_append_right (by simp; omega), field_append_right (by simp; omega),
      field_append_right (by simp; omega), field_append_right (by simp; omega),
      field_append_right (by simp; omega), field]
    simp only [length_encShort, length_encLE, hoff, ht, getElem_finRange, Fin.cast_mk, Fin.eta]
    rw [decLE_encLE, toNat_mod32, UInt32.ofNat_toNat]
  simp only [dec, haddr]
  simp [enc, decShort_append, decShort_encShort, field_append_right, field_encLE]

end Dinode

/-- `(struct dinode*)bp->data + k`. -/
def getDinode (b : Block) (k : Nat) : Dinode := .dec (slice b (64 * k) 64)

def putDinode (b : Block) (k : Nat) (d : Dinode) : Block := putBytes b (64 * k) d.enc

theorem getDinode_putDinode_same {k : Nat} {d : Dinode} (h : k < IPB) : getDinode (putDinode b k d) k = d := by
  have hs : slice (putBytes b (64 * k) d.enc) (64 * k) d.enc.length = d.enc :=
    slice_putBytes_same (by rw [d.length_enc]; simp only [IPB, BSIZE] at *; omega)
  rw [d.length_enc] at hs
  rw [getDinode, putDinode, hs, d.dec_enc]

theorem getDinode_putDinode_ne {k k' : Nat} {d : Dinode} (h : k' ≠ k) :
    getDinode (putDinode b k d) k' = getDinode b k' := by
  rw [getDinode, putDinode, slice_putBytes_disj (by rw [d.length_enc]; omega), getDinode]

/-! ## The free bit map -/

/-- `1 << (bi % 8)`. -/
def mask (bi : Nat) : UInt8 := 1 <<< UInt8.ofNat (bi % 8)

/-- `(bp->data[bi/8] & m) != 0`. -/
def bit (b : Block) (bi : Nat) : Bool := byte b (bi / 8) &&& mask bi ≠ 0

def setBit (b : Block) (bi : Nat) : Block := putBytes b (bi / 8) [byte b (bi / 8) ||| mask bi]

def clearBit (b : Block) (bi : Nat) : Block := putBytes b (bi / 8) [byte b (bi / 8) &&& ~~~mask bi]

theorem toNat_mask (bi : Nat) : (mask bi).toNat = 2 ^ (bi % 8) := by
  have h : ∀ j < 8, (1 <<< UInt8.ofNat j : UInt8).toNat = 2 ^ j := by decide
  exact h _ (Nat.mod_lt _ (by decide))

theorem and_mask (x : UInt8) (bi : Nat) : x &&& mask bi ≠ 0 ↔ x.toNat.testBit (bi % 8) = true := by
  rw [Ne, ← UInt8.toNat_inj, UInt8.toNat_and, toNat_mask, Nat.and_two_pow]
  cases x.toNat.testBit (bi % 8) <;> simp

theorem bit_eq (b : Block) (bi : Nat) : bit b bi = (byte b (bi / 8)).toNat.testBit (bi % 8) := by
  rw [bit, Bool.eq_iff_iff, decide_eq_true_eq, and_mask]

theorem bit_setBit {bi bj : Nat} (h : bi < BPB) : bit (setBit b bi) bj = if bj = bi then true else bit b bj := by
  have hi : bi / 8 + 0 < BSIZE := by simp only [BPB, BSIZE] at *; omega
  rw [bit_eq, setBit]
  by_cases hd : bj / 8 = bi / 8
  · have hb := @byte_putBytes_in _ b _ _ [byte b (bi / 8) ||| mask bi] hi (by simp)
    rw [Nat.add_zero] at hb
    rw [hd, hb, getElem_singleton, UInt8.toNat_or, Nat.testBit_or, toNat_mask, Nat.testBit_two_pow, bit_eq, hd]
    by_cases he : bj = bi
    · simp [he]
    · have hm : bi % 8 ≠ bj % 8 := by omega
      simp [he, hm]
  · rw [byte_putBytes_out (by simp; omega), if_neg (by rintro rfl; exact hd rfl), bit_eq]

/-! ## Indirect blocks -/

/-- `a[j]`, where `a = (uint*)bp->data`. -/
def getAddr (b : Block) (j : Nat) : UInt32 := .ofNat (getLE b (4 * j) 4)

def putAddr (b : Block) (j : Nat) (a : UInt32) : Block := putLE b (4 * j) 4 a.toNat

theorem getAddr_putAddr_same {j : Nat} {a : UInt32} (h : j < NINDIRECT) : getAddr (putAddr b j a) j = a := by
  rw [getAddr, putAddr, getLE_putLE_same (by simp only [NINDIRECT, BSIZE] at *; omega),
    toNat_mod32, UInt32.ofNat_toNat]

theorem getAddr_putAddr_ne {j j' : Nat} {a : UInt32} (h : j' ≠ j) : getAddr (putAddr b j a) j' = getAddr b j' := by
  rw [getAddr, putAddr, getLE_putLE_disj (by omega), getAddr]

def zeroBlock : Block := fun _ => 0

@[simp] theorem byte_zeroBlock (i : Nat) : byte zeroBlock i = 0 := by
  unfold byte zeroBlock
  split <;> rfl

@[simp] theorem getAddr_zeroBlock (j : Nat) : getAddr zeroBlock j = 0 := by
  have h : slice zeroBlock (4 * j) 4 = [0, 0, 0, 0] := by simp [slice, ofFn_succ]
  rw [getAddr, getLE, h]
  rfl

/-! ## Directory entries -/

abbrev Name := Buf DIRSIZ

structure Dirent where
  inum : UInt16
  name : Name
  deriving DecidableEq

def Dirent.enc (de : Dirent) : List UInt8 := encLE 2 de.inum.toNat ++ ofFn de.name

def Dirent.dec (l : List UInt8) : Dirent where
  inum := .ofNat (field l 0 2)
  name := fun j => (l.drop 2).getD j 0

@[simp] theorem Dirent.length_enc (de : Dirent) : de.enc.length = DIRENT := by
  simp [Dirent.enc]

theorem Dirent.dec_enc (de : Dirent) : dec de.enc = de := by
  have hn : (de.enc.drop 2) = ofFn de.name := by
    rw [enc, drop_append]
    simp
  have hi : field de.enc 0 2 = de.inum.toNat := by
    rw [enc, field_encLE, toNat_mod16]
  simp only [dec, hn, hi, UInt16.ofNat_toNat]
  cases de with
  | mk inum name =>
    congr 1
    funext j
    rw [getD_eq_getElem?_getD, List.getElem?_ofFn]
    simp

/-! ## The parts of the disk -/

/-- `struct superblock`, without the magic number. -/
structure Superblock where
  size : Nat
  nblocks : Nat
  ninodes : Nat
  nlog : Nat
  logstart : Nat
  inodestart : Nat
  bmapstart : Nat
  deriving DecidableEq, Repr

namespace Superblock

variable (sb : Superblock)

def iblock (i : Nat) : Nat := i / IPB + sb.inodestart

def bblock (b : Nat) : Nat := b / BPB + sb.bmapstart

/-- The blocks before the data blocks. -/
def nmeta : Nat := sb.size - sb.nblocks

/-- The inode blocks come before the bitmap, the bitmap before the data blocks. Block numbers are
`int` in the kernel, and an i-number has to fit the `ushort` of a directory entry. -/
structure Geom : Prop where
  root : ROOTINO < sb.ninodes
  ninodes : sb.ninodes ≤ 2 ^ 16
  inodes : sb.iblock (sb.ninodes - 1) < sb.bmapstart
  bitmap : sb.bblock (sb.size - 1) < sb.nmeta
  data : sb.nmeta ≤ sb.size
  size : sb.size < 2 ^ 31

instance : Decidable sb.Geom :=
  decidable_of_iff (ROOTINO < sb.ninodes ∧ sb.ninodes ≤ 2 ^ 16 ∧ sb.iblock (sb.ninodes - 1) < sb.bmapstart ∧
      sb.bblock (sb.size - 1) < sb.nmeta ∧ sb.nmeta ≤ sb.size ∧ sb.size < 2 ^ 31)
    ⟨fun ⟨h1, h2, h3, h4, h5, h6⟩ => ⟨h1, h2, h3, h4, h5, h6⟩,
      fun h => ⟨h.root, h.ninodes, h.inodes, h.bitmap, h.data, h.size⟩⟩

variable {sb} {i : Nat}

theorem Geom.iblock_lt (h : sb.Geom) (hi : i < sb.ninodes) : sb.iblock i < sb.bmapstart := by
  refine lt_of_le_of_lt ?_ h.inodes
  exact Nat.add_le_add_right (Nat.div_le_div_right (Nat.le_sub_one_of_lt hi)) _

theorem Geom.bblock_lt (h : sb.Geom) {b : Nat} (hb : b < sb.size) : sb.bblock b < sb.nmeta := by
  refine lt_of_le_of_lt ?_ h.bitmap
  exact Nat.add_le_add_right (Nat.div_le_div_right (Nat.le_sub_one_of_lt hb)) _

theorem bmapstart_le_bblock (b : Nat) : sb.bmapstart ≤ sb.bblock b := Nat.le_add_left _ _

theorem Geom.iblock_lt_nmeta (h : sb.Geom) (hi : i < sb.ninodes) : sb.iblock i < sb.nmeta := by
  have h1 := h.iblock_lt hi
  have h2 := h.bitmap
  have h3 : sb.bmapstart ≤ sb.bblock (sb.size - 1) := bmapstart_le_bblock _
  omega

theorem Geom.nmeta_pos (h : sb.Geom) : 0 < sb.nmeta := Nat.lt_of_le_of_lt (Nat.zero_le _) h.bitmap

theorem iblock_inj {j : Nat} (hb : sb.iblock i = sb.iblock j) (hs : i % IPB = j % IPB) : i = j := by
  simp only [iblock, IPB, BSIZE] at *
  omega

theorem bblock_inj {b c : Nat} (hb : sb.bblock b = sb.bblock c) (hs : b % BPB = c % BPB) : b = c := by
  simp only [bblock, BPB, BSIZE] at *
  omega

end Superblock

end Fs
end Xv6
