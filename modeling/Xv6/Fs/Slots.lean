import Xv6.Fs.Model

/-!
# Xv6.Fs.Slots

Files as arrays of bytes, and references to them.

`Abs` is what the file system is for: inodes with their bytes, the entries of the inode table that are
in use, and the open files. A call takes references with `get`.

* `get_comm`: two references may be taken in either order.
-/

namespace Xv6
namespace Fs

open Function

/-- A file, a directory or a device. The bytes from `size` on are not part of it, but they are there. -/
@[ext] structure Ino where
  type : Int16
  major : Int16
  minor : Int16
  nlink : Int16
  size : Nat
  byte : Nat → UInt8

@[ext] structure Slot where
  inum : Nat
  ref : Nat
  pos : 0 < ref

@[ext] structure Abs where
  ino : Nat → Option Ino
  slot : Entry → Option Slot
  lock : Entry → Option ProcId
  outstanding : Nat
  file : FileId → File
  pipe : Nat → Pipe
  proc : ProcId → Proc

def Slot.up (t : Slot) : Slot := ⟨t.inum, t.ref + 1, Nat.succ_pos _⟩

namespace Abs

def setIno (a : Abs) (i : Nat) (x : Option Ino) : Abs := { a with ino := update a.ino i x }

def setSlot (a : Abs) (e : Entry) (t : Option Slot) : Abs := { a with slot := update a.slot e t }

def setLock (a : Abs) (e : Entry) (l : Option ProcId) : Abs := { a with lock := update a.lock e l }

def Live (a : Abs) (i : Nat) : Prop := ∃ e t, a.slot e = some t ∧ t.inum = i

def Dead (a : Abs) (i : Nat) : Prop := (∃ x, a.ino i = some x ∧ x.nlink = 0) ∧ ¬ a.Live i

/-- Entry `e` is where a reference to inode `i` is counted. -/
def At (a : Abs) (e : Entry) (i : Nat) : Prop :=
  (∃ t, a.slot e = some t ∧ t.inum = i) ∨ a.slot e = none ∧ ¬ a.Live i

def get (a : Abs) (e : Entry) (i : Nat) : Abs :=
  a.setSlot e (some (match a.slot e with
    | some t => t.up
    | none => ⟨i, 1, Nat.one_pos⟩))

variable {a : Abs} {i j : Nat} {x y : Option Ino} {e e' : Entry} {t : Option Slot} {u : Slot} {l : Option ProcId}

def beginOp (a : Abs) : Abs := { a with outstanding := a.outstanding + 1 }

def endOp (a : Abs) : Abs := { a with outstanding := a.outstanding - 1 }

/-! ## Fields -/

@[simp] theorem ino_setIno_same : (a.setIno i x).ino i = x := update_self _ _ _

theorem ino_setIno_ne (h : j ≠ i) : (a.setIno i x).ino j = a.ino j := update_of_ne h _ _

@[simp] theorem ino_setLock : (a.setLock e l).ino = a.ino := rfl

@[simp] theorem lock_setLock_same : (a.setLock e l).lock e = l := update_self _ _ _

@[simp] theorem ino_get : (a.get e i).ino = a.ino := rfl

theorem slot_get_ne (h : e' ≠ e) : (a.get e i).slot e' = a.slot e' := update_of_ne h _ _

theorem slot_get_some (h : a.slot e = some u) : (a.get e i).slot e = some u.up := by
  rw [get, h]
  exact update_self _ _ _

theorem slot_get_none (h : a.slot e = none) : (a.get e i).slot e = some ⟨i, 1, Nat.one_pos⟩ := by
  rw [get, h]
  exact update_self _ _ _

theorem get_setLock : (a.setLock e' l).get e i = (a.get e i).setLock e' l := rfl

theorem setLock_setLock (h : a.lock e = none) : (a.setLock e l).setLock e none = a := by
  rw [setLock, setLock, update_idem, ← h, update_eq_self]

/-! ## References -/

theorem slot_get_at (h : a.At e i) : ∃ v, (a.get e i).slot e = some v ∧ v.inum = i := by
  rcases h with ⟨u, hu, hi⟩ | ⟨hn, -⟩
  · exact ⟨u.up, slot_get_some hu, hi⟩
  · exact ⟨_, slot_get_none hn, rfl⟩

theorem live_get (h : a.At e i) : (a.get e i).Live j ↔ a.Live j ∨ j = i := by
  constructor
  · rintro ⟨e', v, hv, rfl⟩
    by_cases he : e' = e
    · obtain ⟨w, hw, hi⟩ := slot_get_at h
      rw [he, hw] at hv
      cases hv
      exact .inr hi
    · rw [slot_get_ne he] at hv
      exact .inl ⟨e', v, hv, rfl⟩
  · rintro (⟨e', v, hv, rfl⟩ | rfl)
    · by_cases he : e' = e
      · subst he
        exact ⟨e', v.up, slot_get_some hv, rfl⟩
      · exact ⟨e', v, by rw [slot_get_ne he, hv], rfl⟩
    · obtain ⟨w, hw, hi⟩ := slot_get_at h
      exact ⟨e, w, hw, hi⟩

theorem get_comm (h : a.At e i) (h' : (a.get e i).At e' j) :
    a.At e' j ∧ (a.get e' j).At e i ∧ (a.get e i).get e' j = (a.get e' j).get e i := by
  by_cases he : e' = e
  · subst he
    obtain ⟨w, hw, hi⟩ := slot_get_at h
    have hij : j = i := by
      rcases h' with ⟨v, hv, rfl⟩ | ⟨hn, -⟩
      · rw [hw] at hv
        cases hv
        exact hi
      · rw [hw] at hn
        cases hn
    subst hij
    exact ⟨h, h', rfl⟩
  have hcomm : (a.get e i).get e' j = (a.get e' j).get e i := by
    rw [get, slot_get_ne he, get.eq_1 (a.get e' j), slot_get_ne (Ne.symm he)]
    simp only [get, setSlot]
    rw [update_comm he]
  have hlive := fun k => live_get (j := k) h
  rw [At, slot_get_ne he, hlive] at h'
  have hat : a.At e' j := h'.imp id fun hn => ⟨hn.1, fun hl => hn.2 (.inl hl)⟩
  refine ⟨hat, ?_, hcomm⟩
  rw [At, slot_get_ne (Ne.symm he), live_get hat]
  refine h.imp id fun hn => ⟨hn.1, ?_⟩
  rintro (hl | rfl)
  · exact hn.2 hl
  · rcases h' with ⟨v, hv, hvi⟩ | ⟨-, hn'⟩
    · exact hn.2 ⟨e', v, hv, hvi⟩
    · exact hn' (.inr rfl)

end Abs

end Fs
end Xv6
