import Xv6.Fs.Rep

/-!
# Xv6.Fs.Image

A disk with one small file, as `mkfs` would lay it out.

* `rep_oneFile`: the state of the kernel in which the file is in the inode table stands for an abstract state.
-/

namespace Xv6
namespace Fs

open Bytes Prog

/-- The superblock that `mkfs` writes. -/
def mkfsSuper : Superblock := ⟨2000, 1954, 200, 30, 2, 32, 45⟩

theorem geom_mkfsSuper : mkfsSuper.Geom := by decide

def bitmapUpTo (n : Nat) : Block := fun k => UInt8.ofNat (2 ^ min 8 (n - 8 * k) - 1)

theorem bit_bitmapUpTo (n : Nat) {bi : Nat} (h : bi < BPB) : bit (bitmapUpTo n) bi = decide (bi < n) := by
  have hk : bi / 8 < BSIZE := by
    simp only [BPB, BSIZE] at *
    omega
  have hpow : 2 ^ min 8 (n - 8 * (bi / 8)) ≤ 2 ^ 8 := Nat.pow_le_pow_right (by decide) (Nat.min_le_left _ _)
  have hbyte : (byte (bitmapUpTo n) (bi / 8)).toNat = 2 ^ min 8 (n - 8 * (bi / 8)) - 1 := by
    rw [byte, dif_pos hk]
    exact UInt8.toNat_ofNat_of_lt' (by simp only [UInt8.size]; omega)
  rw [bit_eq, hbyte, Nat.testBit_two_pow_sub_one, decide_eq_decide]
  omega

def theFile (size : UInt32) : Dinode := ⟨T_FILE, 0, 0, 1, size, fun i => if i = 0 then 46 else 0⟩

/-- Inode 1 is the file, block 46 its block. -/
def oneFileDisk (size : UInt32) (data : Block) : Nat → Block := fun b =>
  if b = 32 then putDinode zeroBlock 1 (theFile size) else if b = 45 then bitmapUpTo 47
  else if b = 46 then data else zeroBlock

/-- A transaction has begun. `lock` is the process that has locked the file. -/
def oneFile (size : UInt32) (data : Block) (lock : Option ProcId) : State where
  disk := oneFileDisk size data
  log := []
  outstanding := 1
  logged := []
  ballocs := 0
  inode := fun e => if e = 0 then ⟨1, 1, lock, true, theFile size⟩ else ⟨0, 0, none, false, .zero⟩
  file := fun _ => ⟨.none, 0, false, false, 0, 0, 0, 0⟩
  pipe := fun _ => ⟨false, false, 0, 0⟩
  proc := fun _ => ⟨.unused, none, fun _ => none, none⟩

section

variable {size : UInt32} {data : Block} {lock : Option ProcId}

theorem getDinode_zeroBlock (k : Nat) : getDinode zeroBlock k = .zero := by
  have hs : slice zeroBlock (64 * k) 64 = List.replicate 64 0 := by
    refine List.ext_getElem (by simp) fun j h1 h2 => ?_
    simp [slice]
  rw [getDinode, hs]
  have haddr : ∀ i : Fin (NDIRECT + 1), (Dinode.dec (List.replicate 64 0)).addrs i = 0 := by decide +kernel
  rw [Dinode.zero, ← funext haddr]
  rfl

theorem diskDinode_oneFile {i : Nat} (h : i < 200) :
    diskDinode mkfsSuper (oneFileDisk size data) i = if i = 1 then theFile size else .zero := by
  have hblk : mkfsSuper.iblock i = i / IPB + 32 := rfl
  rw [diskDinode, hblk, oneFileDisk]
  by_cases h32 : i / IPB + 32 = 32
  · rw [if_pos h32]
    by_cases h1 : i = 1
    · subst h1
      exact getDinode_putDinode_same (by decide)
    · have hk : i % IPB ≠ 1 := by
        simp only [IPB, BSIZE] at *
        omega
      rw [if_neg h1, getDinode_putDinode_ne hk, getDinode_zeroBlock]
  · have h1 : i ≠ 1 := by
      rintro rfl
      exact h32 rfl
    have h45 : i / IPB + 32 ≠ 45 ∧ i / IPB + 32 ≠ 46 := by
      simp only [IPB, BSIZE] at *
      omega
    rw [if_neg h32, if_neg h45.1, if_neg h45.2, if_neg h1, getDinode_zeroBlock]

theorem dinode_oneFile (i : Nat) :
    ((oneFile size data lock).view mkfsSuper).dinode i = if i = 1 then theFile size else .zero := by
  have hclean : cur mkfsSuper (oneFile size data lock).disk (oneFile size data lock).inode i =
      diskDinode mkfsSuper (oneFile size data lock).disk i := by
    refine cur_of_clean fun e he => ?_
    by_cases h0 : e = 0
    · subst h0
      have hi : 1 = i := he.2.1
      subst hi
      exact (diskDinode_oneFile (show 1 < 200 by decide)).symm
    · have := he.1
      simp [oneFile, h0] at this
  show (if 0 < i ∧ i < 200 then cur mkfsSuper (oneFile size data lock).disk (oneFile size data lock).inode i else .zero) = _
  rw [hclean]
  by_cases hi : 0 < i ∧ i < 200
  · rw [if_pos hi]
    exact diskDinode_oneFile hi.2
  · rw [if_neg hi, if_neg (by omega)]

theorem addr_theFile (k : Nat) : (theFile size).addr k = if k = 0 then 46 else 0 := by
  unfold Dinode.addr
  by_cases hk : k = 0
  · subst hk
    rfl
  · rw [if_neg hk]
    split
    · exact if_neg fun h0 => hk (congrArg Fin.val h0)
    · rfl

theorem addr_oneFile (i k : Nat) :
    ((oneFile size data lock).view mkfsSuper).addr i k = if (i, k) = (1, 0) then 46 else 0 := by
  by_cases hi : i = 1
  · subst hi
    have hd := @dinode_oneFile size data lock 1
    rw [if_pos rfl] at hd
    have ht : (((oneFile size data lock).view mkfsSuper).dinode 1).type ≠ 0 := by
      rw [hd]
      exact show T_FILE ≠ 0 by decide
    have hdir : ∀ k ≤ NDIRECT, ((oneFile size data lock).view mkfsSuper).addr 1 k = if k = 0 then 46 else 0 := fun k hk => by
      rw [View.addr_direct ht hk, hd, addr_theFile]
      split <;> rfl
    rcases Nat.lt_or_ge NDIRECT k with hk | hk
    · rw [View.addr_no_indirect (Nat.le_of_lt hk) (hdir NDIRECT le_rfl), if_neg (by simp; omega)]
    · rw [hdir k hk]
      simp
  · rw [View.addr_free (by rw [dinode_oneFile, if_neg hi]; rfl), if_neg (by simp [hi])]

theorem owned_oneFile : Places.Owned mkfsSuper.nmeta mkfsSuper.size ((oneFile size data lock).view mkfsSuper).places ∅
    ((oneFile size data lock).view mkfsSuper).used := by
  have hA : ∀ x, ((oneFile size data lock).view mkfsSuper).places x = if x = (1, 0) then 46 else 0 := fun x =>
    addr_oneFile x.1 x.2
  have hne : ∀ {x}, ((oneFile size data lock).view mkfsSuper).places x ≠ 0 → x = (1, 0) := by
    intro x hx
    by_contra h
    rw [hA, if_neg h] at hx
    exact hx rfl
  refine ⟨fun {x y} hx hxy => ?_, fun {x} hx => ?_, fun hb => absurd hb (Set.notMem_empty _), fun {b} hb => ?_⟩
  · exact (hne hx).trans (hne (hxy ▸ hx)).symm
  · rw [hne hx, hA, if_pos rfl]
    decide
  · have hb : b < 2000 := hb
    have hmod : b % BPB = b := Nat.mod_eq_of_lt (by simp only [BPB, BSIZE]; omega)
    have hblk : mkfsSuper.bblock b = 45 := by
      show b / BPB + 45 = 45
      rw [Nat.div_eq_of_lt (by simp only [BPB, BSIZE]; omega)]
    have hused : ((oneFile size data lock).view mkfsSuper).used b = decide (b < 47) := by
      show (decide (b < 2000) && bit (oneFileDisk size data (mkfsSuper.bblock b)) (b % BPB)) = _
      rw [hblk, hmod, decide_eq_true hb, Bool.true_and]
      exact bit_bitmapUpTo 47 (by simp only [BPB, BSIZE]; omega)
    rw [hused, decide_eq_true_eq]
    show b < 47 ↔ b < 46 ∨ _
    constructor
    · intro h
      rcases Nat.lt_or_ge b 46 with h' | h'
      · exact .inl h'
      · exact .inr (.inl ⟨(1, 0), by rw [hA, if_pos rfl]; omega⟩)
    · rintro (h | ⟨x, hx⟩ | h)
      · omega
      · rw [hA] at hx
        split at hx <;> omega
      · exact absurd h (Set.notMem_empty _)

theorem rep_oneFile (hsize : size.toNat ≤ BSIZE) :
    Rep mkfsSuper ∅ (oneFile size data lock) (abs mkfsSuper (oneFile size data lock)) := by
  have htyped : ∀ i, (((oneFile size data lock).view mkfsSuper).dinode i).type ≠ 0 → i = 1 := by
    intro i hi
    by_contra h
    rw [dinode_oneFile, if_neg h] at hi
    exact hi rfl
  refine ⟨rfl, fun e e' h1 h2 _ => ?_, fun e => ?_, owned_oneFile, fun i hi => ?_, ?_, fun c hc => nomatch hc⟩
  · have hzero : ∀ e, 0 < ((oneFile size data lock).inode e).ref → e = 0 := fun e he => by
      by_contra h
      simp [oneFile, h] at he
    rw [hzero e h1, hzero e' h2]
  · by_cases he : e = 0
    · subst he
      refine ⟨fun _ => show 0 < 1 ∧ 1 < 200 by decide, fun h => absurd h (show 1 ≠ 0 by decide), fun _ => rfl,
        fun _ _ => show T_FILE ≠ 0 by decide, fun _ _ => (diskDinode_oneFile (show 1 < 200 by decide)).symm, fun _ h => ?_⟩
      exact absurd h (show true ≠ false by decide)
    · have hy : (oneFile size data lock).inode e = ⟨0, 0, none, false, .zero⟩ := if_neg he
      rw [hy]
      exact ⟨fun h => absurd h (by decide), fun _ => rfl, fun h => absurd rfl h, fun h => absurd h (by decide),
        fun h => absurd h (by decide), fun h => absurd h (by decide)⟩
  · obtain rfl := htyped i hi
    have hd := @dinode_oneFile size data lock 1
    rw [if_pos rfl] at hd
    refine ⟨?_, fun bn hbn => ?_⟩
    · rw [hd]
      exact hsize.trans (by decide)
    · rw [hd] at hbn
      have h0 : bn = 0 := by
        have : bn * BSIZE < size.toNat := hbn
        simp only [BSIZE] at *
        omega
      subst h0
      rw [addr_oneFile]
      decide
  · rintro i ⟨⟨x, hx, hn⟩, -⟩
    obtain ⟨ht, hx⟩ := View.ino_eq_some.mp hx
    obtain rfl := htyped i ht
    rw [hx, dinode_oneFile, if_pos rfl] at hn
    exact absurd hn (show (1 : Int16) ≠ 0 by decide)

theorem slot_oneFile : (abs mkfsSuper (oneFile size data lock)).slot 0 = some ⟨1, 1, Nat.one_pos⟩ := rfl

end

end Fs
end Xv6
