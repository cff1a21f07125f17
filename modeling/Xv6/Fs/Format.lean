import Xv6.Fs.Image
import Xv6.Fs.Dir

/-!
# Xv6.Fs.Format

Disks given by their inodes and data blocks, with the layout of `mkfsSuper`.

* `Volume`: the dinodes, the data blocks and the number of blocks in use; `Volume.disk` is the disk.
* `Volume.rep`: a kernel that runs on the disk of a volume in order stands for an abstract state.
* `Volume.entry_eq`: the entries of a directory whose blocks are `dirBlock`s.
-/

namespace Xv6
namespace Fs

open Bytes

/-! ## Blocks of records -/

def newDirent (name : Nat → UInt8) (inum : Nat) : Dirent :=
  { inum := UInt16.ofNat inum, name := fun j => (strncpy name DIRSIZ 0).getD j 0 }

def records (enc : Nat → List UInt8) (m : Nat) : Block := fun k => (enc (k / m)).getD (k % m) 0

theorem byte_records {enc : Nat → List UInt8} {m k j : Nat} (hj : j < m) (hk : m * k + j < BSIZE) :
    byte (records enc m) (m * k + j) = (enc k).getD j 0 := by
  have hdiv : (m * k + j) / m = k := by
    rw [Nat.mul_add_div (by omega), Nat.div_eq_of_lt hj, Nat.add_zero]
  rw [byte, dif_pos hk, records]
  dsimp only
  rw [hdiv, Nat.mul_add_mod, Nat.mod_eq_of_lt hj]

theorem slice_records {enc : Nat → List UInt8} {m k : Nat} (hl : (enc k).length = m) (hk : m * k + m ≤ BSIZE) :
    slice (records enc m) (m * k) m = enc k := by
  refine List.ext_getElem (by simp [hl]) fun j h1 h2 => ?_
  have hj : j < m := hl ▸ h2
  simp only [slice, List.getElem_ofFn]
  rw [byte_records hj (by omega), List.getD_eq_getElem?_getD, List.getElem?_eq_getElem h2]
  rfl

def inodeBlock (dinode : Nat → Dinode) (b : Nat) : Block := records (fun k => (dinode (b * IPB + k)).enc) 64

theorem getDinode_inodeBlock {dinode : Nat → Dinode} {b k : Nat} (hk : k < IPB) :
    getDinode (inodeBlock dinode b) k = dinode (b * IPB + k) := by
  rw [getDinode, inodeBlock, slice_records (Dinode.length_enc _) (by simp only [IPB, BSIZE] at *; omega),
    Dinode.dec_enc]

abbrev EPB : Nat := BSIZE / DIRENT

def dirBlock (de : Nat → Dirent) (b : Nat) : Block := records (fun k => (de (b * EPB + k)).enc) DIRENT

/-! ## Volumes -/

/-- What is on a disk: the data blocks below `blocks` are in use. -/
structure Volume where
  dinode : Nat → Dinode
  data : Nat → Block
  blocks : Nat

namespace Volume

def disk (v : Volume) : Nat → Block := fun b =>
  if 32 ≤ b ∧ b < 45 then inodeBlock v.dinode (b - 32) else if b = 45 then bitmapUpTo v.blocks else v.data b

def view (v : Volume) : View where
  dinode i := if 0 < i ∧ i < mkfsSuper.ninodes then v.dinode i else .zero
  used b := decide (b < mkfsSuper.size) && decide (b < v.blocks)
  block b := if mkfsSuper.nmeta ≤ b then v.data b else zeroBlock

variable {v : Volume} {i : Nat}

theorem diskDinode_eq (hi : i < mkfsSuper.ninodes) : diskDinode mkfsSuper v.disk i = v.dinode i := by
  have hblk : mkfsSuper.iblock i = i / IPB + 32 := rfl
  have hi : i < 200 := hi
  have hmod : i % IPB < IPB := Nat.mod_lt _ (by decide)
  have hdiv : i / IPB * IPB + i % IPB = i := Nat.div_add_mod' i IPB
  rw [diskDinode, hblk, disk, if_pos (by simp only [IPB, BSIZE] at *; omega), Nat.add_sub_cancel,
    getDinode_inodeBlock hmod, hdiv]

theorem view_eq {tab : Table} (h : ∀ e i, Caches tab e i → i < mkfsSuper.ninodes → (tab e).copy = v.dinode i) :
    Fs.view mkfsSuper v.disk tab = v.view := by
  refine View.ext (funext fun i => ?_) (funext fun b => ?_) (funext fun b => ?_)
  · simp only [Fs.view, view]
    by_cases hi : 0 < i ∧ i < mkfsSuper.ninodes
    · rw [if_pos hi, if_pos hi, cur_of_clean fun e he => (h e i he hi.2).trans (diskDinode_eq hi.2).symm, diskDinode_eq hi.2]
    · rw [if_neg hi, if_neg hi]
  · simp only [Fs.view, view]
    by_cases hb : b < mkfsSuper.size
    · have hb' : b < 2000 := hb
      have hmod : b % BPB = b := Nat.mod_eq_of_lt (by simp only [BPB, BSIZE]; omega)
      have hblk : mkfsSuper.bblock b = 45 := by
        show b / BPB + 45 = 45
        rw [Nat.div_eq_of_lt (by simp only [BPB, BSIZE]; omega)]
      rw [hblk, hmod, disk, if_neg (by omega), if_pos rfl, bit_bitmapUpTo _ (by simp only [BPB, BSIZE]; omega)]
    · simp [hb]
  · simp only [Fs.view, view]
    split
    · rename_i hb
      have hb : 46 ≤ b := hb
      rw [disk, if_neg (by omega), if_neg (by omega)]
    · rfl

structure Ok (v : Volume) : Prop where
  owned : Places.Owned mkfsSuper.nmeta mkfsSuper.size v.view.places ∅ v.view.used
  whole : ∀ i, (v.view.dinode i).type ≠ 0 → v.view.Whole i
  linked : ∀ i, (v.view.dinode i).type ≠ 0 → (v.view.dinode i).nlink ≠ 0

/-- An entry of the inode table is free, or it has a copy of a dinode. -/
def Entry (v : Volume) (y : Inode) : Prop :=
  y.ref = 0 ∧ y.lock = none ∨
    0 < y.ref ∧ 0 < y.inum ∧ y.inum < mkfsSuper.ninodes ∧ y.valid = true ∧ y.copy = v.dinode y.inum ∧ y.copy.type ≠ 0

instance {y : Inode} : Decidable (v.Entry y) := inferInstanceAs (Decidable (_ ∨ _))

section Rep

variable {s : State} (hd : s.disk = v.disk) (ht : ∀ e, v.Entry (s.inode e))
include hd ht

theorem view_state : s.view mkfsSuper = v.view := by
  rw [State.view, hd]
  refine view_eq fun e i he hi => ?_
  rcases ht e with ⟨h0, -⟩ | ⟨-, -, -, -, hc, -⟩
  · exact absurd he.1 (by omega)
  · rw [hc, he.2.1]

theorem rep (hv : v.Ok) (hu : Uniq s.inode) (hl : s.logged = []) : Rep mkfsSuper ∅ s (abs mkfsSuper s) := by
  have hV := view_state hd ht
  refine ⟨rfl, hu, fun e => ?_, ?_, ?_, ?_, ?_⟩
  · rcases ht e with ⟨h0, hlock⟩ | ⟨h0, h1, h2, h3, hc, hty⟩
    · exact ⟨fun h => absurd h (by omega), fun _ => hlock, fun h => absurd hlock h, fun h => absurd h (by omega),
        fun h => absurd h (by omega), fun h => absurd h (by omega)⟩
    · exact ⟨fun _ => ⟨h1, h2⟩, fun h => absurd h (by omega), fun _ => h3, fun _ _ => hty,
        fun _ _ => by rw [hc, hd, diskDinode_eq h2], fun _ h => absurd h (by rw [h3]; decide)⟩
  · rw [hV]
    exact hv.owned
  · rw [hV]
    exact hv.whole
  · rintro i ⟨⟨x, hx, hn⟩, -⟩
    have hx : (s.view mkfsSuper).ino i = some x := hx
    rw [hV] at hx
    obtain ⟨hty, rfl⟩ := View.ino_eq_some.mp hx
    exact hv.linked i hty hn
  · rw [hl]
    exact fun c hc => nomatch hc

theorem ino_eq : (abs mkfsSuper s).ino = v.view.ino := congrArg View.ino (view_state hd ht)

theorem ino_ne_none : (abs mkfsSuper s).ino i ≠ none ↔ (v.view.dinode i).type ≠ 0 := by
  rw [ino_eq hd ht]
  exact not_congr View.ino_eq_none

end Rep

def IsDirOf (v : Volume) (i n : Nat) (de : Nat → Dirent) : Prop :=
  ∀ bn, bn * EPB < n → v.view.addr i (place bn) ≠ 0 ∧ v.view.block (v.view.addr i (place bn)) = dirBlock de bn

theorem entry_eq {n k : Nat} {de : Nat → Dirent} {x : Ino} (h : v.IsDirOf i n de) (hx : v.view.ino i = some x)
    (hk : k < n) : x.entry k = de k := by
  obtain ⟨-, rfl⟩ := View.ino_eq_some.mp hx
  have hdiv : k / EPB * EPB ≤ k := Nat.div_mul_le_self k EPB
  obtain ⟨h1, h2⟩ := h (k / EPB) (by omega)
  have hbytes : bytes (v.view.byteAt i) (k * DIRENT) DIRENT = (de k).enc := by
    refine List.ext_getElem (by simp [bytes]) fun j hj1 hj2 => ?_
    have hj : j < DIRENT := by simpa [bytes] using hj1
    have hbn : (k * DIRENT + j) / BSIZE = k / EPB := by
      simp only [DIRENT, EPB, BSIZE] at *
      omega
    have hoff : (k * DIRENT + j) % BSIZE = DIRENT * (k % EPB) + j := by
      simp only [DIRENT, EPB, BSIZE] at *
      omega
    have hsum : k / EPB * EPB + k % EPB = k := Nat.div_add_mod' k EPB
    simp only [bytes, List.getElem_map, List.getElem_range, View.byteAt]
    rw [hbn, if_neg h1, h2, hoff, dirBlock, byte_records hj (by simp only [DIRENT, EPB, BSIZE] at *; omega), hsum,
      List.getD_eq_getElem?_getD, List.getElem?_eq_getElem hj2]
    rfl
  show Dirent.dec (bytes (v.view.byteAt i) (k * DIRENT) DIRENT) = de k
  rw [hbytes, Dirent.dec_enc]

end Volume

end Fs
end Xv6
