import Xv6.Fs.Names
import Xv6.Fs.Data
import Xv6.Fs.Refs

/-!
# Xv6.Fs.Dir

Directories: an inode as a list of entries.

* `Ino.entry`, `Ino.find`: the entries, and the first one in use with a given name.
* `wpe_dirlookup`: `dirlookup` returns that entry.
-/

namespace Xv6
namespace Fs

open Bytes Prog

namespace Ino

def entry (x : Ino) (k : Nat) : Dirent := direntAt x.byte (k * DIRENT)

def count (x : Ino) : Nat := x.size / DIRENT

/-- Entry `k` is in use and has name `n`. -/
def Binds (x : Ino) (n : List UInt8) (k : Nat) : Prop := (x.entry k).inum ≠ 0 ∧ cstr (Bytes.byte (x.entry k).name) = n

instance {x : Ino} {n : List UInt8} {k : Nat} : Decidable (x.Binds n k) := inferInstanceAs (Decidable (_ ∧ _))

def target (x : Ino) (k : Nat) : Nat := (x.entry k).inum.toNat

def findFrom (x : Ino) (n : List UInt8) (k m : Nat) : Option Nat := (List.range' k m).find? fun k => decide (x.Binds n k)

def find (x : Ino) (n : List UInt8) : Option Nat := x.findFrom n 0 x.count

/-- What the file system needs of a directory. -/
structure DirOk (sb : Superblock) (x : Ino) : Prop where
  size : x.size % DIRENT = 0
  range : ∀ k < x.count, (x.entry k).inum ≠ 0 → x.target k < sb.ninodes

variable {x : Ino} {k k' : Nat} {de : Dirent} {n : List UInt8}

theorem size_eq (h : x.size % DIRENT = 0) : x.size = x.count * DIRENT := by
  rw [count, Nat.div_mul_cancel (Nat.dvd_of_mod_eq_zero h)]

theorem findFrom_succ (x : Ino) (n : List UInt8) (k m : Nat) :
    x.findFrom n k (m + 1) = if x.Binds n k then some k else x.findFrom n (k + 1) m := by
  rw [findFrom, List.range'_succ, List.find?_cons]
  by_cases h : x.Binds n k <;> simp [h, findFrom]

theorem find_eq_some (h : x.find n = some k) : k < x.count ∧ x.Binds n k := by
  have h1 : x.Binds n k := by simpa using List.find?_some h
  have h2 := List.mem_of_find?_eq_some h
  rw [List.mem_range'_1] at h2
  exact ⟨by omega, h1⟩

theorem find_eq_none : x.find n = none ↔ ∀ k < x.count, ¬ x.Binds n k := by
  rw [find, findFrom, List.find?_eq_none]
  simp [List.mem_range'_1]

end Ino

variable {sb : Superblock} {S : Set Nat} {s s' : State} {a : Abs} {e : Entry} {t : Slot} {x : Ino} {p : ProcId}
  {F : Stop → Prop} [Allows F]
  {name : Nat → UInt8} {n : List UInt8}

/-- A process holds the lock of directory `x`. -/
structure AtDir (sb : Superblock) (S : Set Nat) (e : Entry) (t : Slot) (x : Ino) (a : Abs) (s : State) : Prop where
  rep : Rep sb S s a
  slot : a.slot e = some t
  lock : a.lock e ≠ none
  ino : a.ino t.inum = some x
  ok : x.DirOk sb

namespace AtDir

theorem fields (h : AtDir sb S e t x a s) : (s.inode e).copy.type = x.type ∧ (s.inode e).copy.size.toNat = x.size ∧
    (s.view sb).byteAt t.inum = x.byte := by
  have hxc := h.rep.copy h.slot h.lock
  rw [h.ino, Option.some.injEq] at hxc
  rw [hxc]
  exact ⟨rfl, rfl, rfl⟩

theorem wpe_readDirent {E : Stop → Prop} {k : Nat} {msg : String} {Q : Dirent → State → Prop}
    (h : AtDir sb S e t x a s) (hk : k < x.count) (hQ : Q (x.entry k) s) :
    wpe E (readDirent sb e (k * DIRENT) msg) Q s := by
  obtain ⟨-, h2, h3⟩ := h.fields
  have hh := h.rep.held h.slot h.lock
  have hs := Ino.size_eq h.ok.size
  refine Fs.wpe_readDirent hh (h.rep.whole_held hh) ?_ (by rw [h3]; exact hQ)
  rw [h2, hs]
  simp only [DIRENT]
  omega

end AtDir

/-- What `dirlookup` does: entry `k` gives a reference to its inode. -/
def Found (sb : Superblock) (S : Set Nat) (x : Ino) (a : Abs) (s : State) (o : Option Nat)
    (r : Option (Entry × Nat)) (s' : State) : Prop :=
  match o with
  | none => r = none ∧ s' = s
  | some k => ∃ e', r = some (e', k * DIRENT) ∧ a.At e' (x.target k) ∧ Rep sb S s' (a.get e' (x.target k)) ∧ TabOnly s s'

theorem wpe_dirlookupLoop {E : Stop → Prop} (h : AtDir sb S e t x a s)
    (hfull : (∀ e, a.slot e ≠ none) → E (.panic "iget: no inodes")) : ∀ fuel k m, m < fuel → k + m = x.count →
      wpe E (dirlookupLoop sb e name fuel (k * DIRENT)) (Found sb S x a s (x.findFrom (cstr name) k m)) s := by
  intro fuel
  induction fuel with
  | zero => exact fun k m hm => absurd hm (Nat.not_lt_zero m)
  | succ fuel ih =>
    intro k m hm hk
    obtain ⟨-, h2, -⟩ := h.fields
    have hsz := Ino.size_eq h.ok.size
    rw [dirlookupLoop, wpe_bind]
    refine wpe_copyOf ?_
    rw [h2, hsz, wpe_ite]
    refine ⟨fun hlt => ?_, fun hlt => ?_⟩
    · have hkc : k < x.count := Nat.lt_of_mul_lt_mul_right hlt
      obtain ⟨m, rfl⟩ : ∃ m', m = m' + 1 := ⟨m - 1, by omega⟩
      rw [wpe_bind]
      refine h.wpe_readDirent hkc ?_
      rw [Ino.findFrom_succ, wpe_ite]
      refine ⟨fun hb => ?_, fun hb => ?_⟩
      · rw [if_pos (show x.Binds (cstr name) k from ⟨hb.1, ((namecmp_eq_zero _ _).mp hb.2).symm⟩)]
        have hpos : 0 < x.target k := Nat.pos_of_ne_zero fun h0 => hb.1 (UInt16.toNat_inj.mp h0)
        refine wpe_seq (wpe_iget h.rep ⟨hpos, h.ok.range k hkc hb.1⟩ hfull) ?_
        rintro e' s1 ⟨hat, h1, htab⟩
        exact wpe_pure.mpr ⟨e', rfl, hat, h1, htab⟩
      · rw [if_neg (show ¬ x.Binds (cstr name) k from fun hc => hb ⟨hc.1, (namecmp_eq_zero _ _).mpr hc.2.symm⟩)]
        have := ih (k + 1) m (by omega) (by omega)
        rwa [Nat.add_mul, Nat.one_mul] at this
    · obtain rfl : m = 0 := by
        by_contra h0
        exact hlt (Nat.mul_lt_mul_of_pos_right (by omega) (by decide))
      exact wpe_pure.mpr ⟨rfl, rfl⟩

theorem wpe_dirlookup {E : Stop → Prop} (h : AtDir sb S e t x a s) (hd : x.type = T_DIR)
    (hfull : (∀ e, a.slot e ≠ none) → E (.panic "iget: no inodes")) :
    wpe E (dirlookup sb e name) (Found sb S x a s (x.find (cstr name))) s := by
  obtain ⟨h1, h2, -⟩ := h.fields
  rw [dirlookup, wpe_bind]
  refine wpe_copyOf ?_
  rw [if_neg (by rw [h1]; exact not_not.mpr hd), h2]
  have : wpe E (dirlookupLoop sb e name (x.size / DIRENT + 1) (0 * DIRENT))
      (Found sb S x a s (x.findFrom (cstr name) 0 x.count)) s :=
    wpe_dirlookupLoop h hfull _ 0 x.count (Nat.lt_succ_self _) (Nat.zero_add _)
  rwa [Nat.zero_mul] at this

end Fs
end Xv6
