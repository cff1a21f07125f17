import Xv6.Lib.Trans
import Xv6.Fs.Room
import Xv6.Fs.Path
import Xv6.Fs.Image

/-!
# Xv6.Fs.File

An inode is an array of bytes, for the process that has locked it.

`readBytes` and `writeBytes` are reading and writing of a list of bytes. The calls of `readi` and `writei`
by a process that holds the lock of an inode, in one transaction after the other, read and write the
list that the inode stands for.

* `file_calls`: in every state of such a run, the next call does to the list what it should. A call that
  the log has room for returns.
* `bigWrite_panics`: without room, `writei` panics.
-/

namespace Xv6
namespace Fs

open Bytes Prog

/-! ## Arrays of bytes -/

def readBytes (f : List UInt8) (off n : Nat) : List UInt8 :=
  if f.length < off ∨ 2 ^ 32 ≤ off + n then [] else (f.drop off).take n

def writeBytes (f : List UInt8) (off k : Nat) (src : Nat → UInt8) : List UInt8 :=
  f.take off ++ (List.range k).map src ++ f.drop (off + k)

def Rejects (f : List UInt8) (off n : Nat) : Prop := f.length < off ∨ 2 ^ 32 ≤ off + n ∨ MAXFILE * BSIZE < off + n

instance (f : List UInt8) (off n : Nat) : Decidable (Rejects f off n) := inferInstanceAs (Decidable (_ ∨ _))

@[simp] theorem length_bytes (f : Nat → UInt8) (off n : Nat) : (bytes f off n).length = n := by
  simp [bytes]

theorem bytes_congr {f g : Nat → UInt8} {off n : Nat} (h : ∀ j < n, f (off + j) = g (off + j)) :
    bytes f off n = bytes g off n :=
  List.map_congr_left fun j hj => h j (List.mem_range.mp hj)

theorem drop_bytes (f : Nat → UInt8) (off n k : Nat) : (bytes f off n).drop k = bytes f (off + k) (n - k) := by
  refine List.ext_getElem (by simp) fun j h1 h2 => ?_
  simp [bytes, Nat.add_assoc]

theorem take_bytes (f : Nat → UInt8) (off n k : Nat) : (bytes f off n).take k = bytes f off (min k n) := by
  refine List.ext_getElem (by simp) fun j h1 h2 => ?_
  simp [bytes]

def Ino.content (x : Ino) : List UInt8 := bytes x.byte 0 x.size

def contentOf (sb : Superblock) (s : State) (i : Nat) : Option (List UInt8) := ((s.view sb).ino i).map Ino.content

variable {sb : Superblock} {S : Set Nat} {s s' : State} {a : Abs} {e : Entry} {i : Nat} {t : Slot} {x : Ino} {p : ProcId}
variable {off n : UInt32}

theorem Ino.length_content (x : Ino) : x.content.length = x.size := length_bytes _ _ _

theorem Ino.content_written {off k : Nat} (h : off ≤ x.size) (src : Nat → UInt8) :
    (x.written off k k fun j => some (src j)).content = writeBytes x.content off k src := by
  have hsize : max x.size (off + k) = off + k + (x.size - (off + k)) := by omega
  have hover : ∀ pos, (x.written off k k fun j => some (src j)).byte pos =
      if off ≤ pos ∧ pos < off + k then src (pos - off) else x.byte pos := fun pos => rfl
  rw [Ino.content, show (x.written off k k fun j => some (src j)).size = _ from hsize, bytes_add, bytes_add, writeBytes,
    Ino.content, take_bytes, drop_bytes, Nat.min_eq_left h]
  refine congrArg₂ _ (congrArg₂ _ (bytes_congr fun j hj => ?_) (List.map_congr_left fun j hj => ?_)) (bytes_congr fun j _ => ?_)
  · rw [hover, if_neg (by omega)]
  · rw [List.mem_range] at hj
    rw [hover, if_pos (by omega)]
    congr 1
    omega
  · rw [hover, if_neg (by omega)]

theorem readLen_eq (x : Ino) (off n : Nat) : bytes x.byte off (readLen x.size off n) = readBytes x.content off n := by
  rw [readBytes, readLen, x.length_content]
  split
  · rfl
  · rw [Ino.content, drop_bytes, take_bytes, Nat.zero_add]

theorem length_readBytes (x : Ino) (off n : Nat) : (readBytes x.content off n).length = readLen x.size off n := by
  rw [← readLen_eq, length_bytes]

theorem accepts_iff : Accepts x off n ↔ ¬ Rejects x.content off.toNat n.toNat := by
  rw [Accepts, Rejects, x.length_content]
  simp only [MAXFILE, NDIRECT, NINDIRECT, BSIZE]
  omega

theorem Rep.contentOf (h : Rep sb S s a) (i : Nat) : contentOf sb s i = (a.ino i).map Ino.content := by
  rw [Fs.contentOf, h.ino_eq]

/-! ## Calls -/

/-- What a process does with an inode that it has locked. Between two transactions it gives up the lock,
as `filewrite` does. -/
inductive FileCall where
  | read (off n : UInt32)
  | write (off n : UInt32) (src : Nat → UInt8)
  | again

def nextTransaction (sb : Superblock) (p : ProcId) (ip : Entry) : Code Unit := do
  atomic (iunlock p ip)
  atomic endOp
  atomic beginOp
  ilock sb p ip

def after {α : Type} (x : Code α) (s : State) : Option State :=
  match x.run s with
  | .ok (_, s') => some s'
  | .error _ => none

def FileCall.step (sb : Superblock) (p : ProcId) (ip : Entry) (s : State) : FileCall → Option State
  | .read off n => after (readi sb ip (fun _ => true) off n) s
  | .write off n src => after (writei sb ip (fun j => some (src j)) off n) s
  | .again => after (nextTransaction sb p ip) s

/-- A call reads or writes the contents of inode `i`. -/
def AsBytes (sb : Superblock) (ip : Entry) (i : Nat) (s : State) : FileCall → Prop
  | .read off n => ∃ f, contentOf sb s i = some f ∧
      (readi sb ip (fun _ => true) off n).run s =
        .ok (((readBytes f off.toNat n.toNat).length, readBytes f off.toNat n.toNat), s)
  | .write off n src => ∃ f, contentOf sb s i = some f ∧
      let call := (writei sb ip (fun j => some (src j)) off n).run s
      (Rejects f off.toNat n.toNat → call = .ok (-1, s)) ∧
      (¬ Rejects f off.toNat n.toNat →
        (HasRoom sb s off.toNat n.toNat → ∃ r s', call = .ok (r, s')) ∧
        ∀ r s', call = .ok (r, s') → ∃ k : Nat, r = k ∧ k ≤ n.toNat ∧
          (k = n.toNat ∨ NoBlock sb i (place ((off.toNat + k) / BSIZE)) s') ∧
          contentOf sb s' i = some (writeBytes f off.toNat k src) ∧
          ∀ j, j ≠ i → contentOf sb s' j = contentOf sb s j)
  | .again => True

def Locks (sb : Superblock) (p : ProcId) (e : Entry) (i : Nat) (s : State) : Prop :=
  ∃ S a t, Rep sb S s a ∧ a.slot e = some t ∧ t.inum = i ∧ a.lock e = some p

/-- Process `p` has locked inode `i` in entry `e`, in a transaction. -/
def Holds (sb : Superblock) (p : ProcId) (e : Entry) (i : Nat) (s : State) : Prop :=
  Locks sb p e i s ∧ 1 ≤ s.outstanding

theorem not_missing (src : Nat → UInt8) (n : Nat) : ¬ Missing (fun j => some (src j)) n := fun ⟨_, _, h⟩ => nomatch h

theorem after_eq_some {α : Type} {y : Code α} (h : after y s = some s') : ∃ r, y.run s = .ok (r, s') := by
  unfold after at h
  split at h
  · cases h
    exact ⟨_, ‹_›⟩
  · cases h

theorem wpe_readi_bytes {E : Stop → Prop} (h : Locks sb p e i s) :
    wpe E (readi sb e (fun _ => true) off n) (fun r s' => s' = s ∧ ∃ g, contentOf sb s i = some g ∧
      g.length ≤ MAXFILE * BSIZE ∧ r = (((readBytes g off.toNat n.toNat).length : Int), readBytes g off.toNat n.toNat)) s := by
  obtain ⟨S, a, t, hr, ht, rfl, hl⟩ := h
  have hlock : a.lock e ≠ none := by simp [hl]
  have hh := hr.held ht hlock
  have hw := hr.whole_held hh
  have hsize := hw.size
  rw [hh.dinode] at hsize
  have hx := hr.copy ht hlock
  set x : Ino := ⟨(s.inode e).copy.type, (s.inode e).copy.major, (s.inode e).copy.minor,
    (s.inode e).copy.nlink, (s.inode e).copy.size.toNat, (s.view sb).byteAt t.inum⟩
  refine wpe_mono (wpe_readi hh hw) ?_
  rintro r s' ⟨rfl, rfl | ⟨-, j, -, hj⟩⟩
  · refine ⟨rfl, x.content, by rw [hr.contentOf, hx]; rfl, by rw [x.length_content]; exact hsize, ?_⟩
    rw [← readLen_eq x off.toNat n.toNat, length_bytes]
  · exact absurd hj (by decide)

def WritesBytes (sb : Superblock) (i : Nat) (off n : Nat) (src : Nat → UInt8) (s : State) (r : Int) (s' : State) : Prop :=
  ∃ g, contentOf sb s i = some g ∧ ((Rejects g off n ∧ r = -1 ∧ s' = s) ∨
    (¬ Rejects g off n ∧ ∃ k : Nat, r = k ∧ k ≤ n ∧ (k = n ∨ NoBlock sb i (place ((off + k) / BSIZE)) s') ∧
      contentOf sb s' i = some (writeBytes g off k src) ∧ ∀ j, j ≠ i → contentOf sb s' j = contentOf sb s j))

theorem wpe_writei_bytes {src : Nat → UInt8} (hg : sb.Geom) (h : Holds sb p e i s) :
    wpe MayStop (writei sb e (fun j => some (src j)) off n) (fun r s' => Holds sb p e i s' ∧ s'.file = s.file ∧
      s'.outstanding = s.outstanding ∧ WritesBytes sb i off.toNat n.toNat src s r s') s := by
  have hH := h
  obtain ⟨⟨S, a, t, hr, ht, rfl, hl⟩, ho⟩ := h
  have hlock : a.lock e ≠ none := by simp [hl]
  obtain ⟨x, hx⟩ : ∃ x, a.ino t.inum = some x := ⟨_, hr.copy ht hlock⟩
  have hcont : contentOf sb s t.inum = some x.content := by
    rw [hr.contentOf, hx]
    rfl
  refine wpe_mono (wpe_writei hg hr ht hlock hx ho) ?_
  rintro r s' (⟨hrej, rfl, rfl⟩ | ⟨hacc, tot, rfl, hw⟩)
  · exact ⟨hH, rfl, rfl, x.content, hcont, .inl ⟨not_not.mp (accepts_iff.not.mp hrej), rfl, rfl⟩⟩
  obtain ⟨w, hw1, -, -, hw4, hw5, hrep⟩ := hw.rep
  have hwt : w = tot := by
    by_contra hne
    exact not_missing src _ (hw4 (by omega))
  subst hwt
  have hout : s'.outstanding = s.outstanding := hrep.outstanding_eq.symm.trans hr.outstanding_eq
  refine ⟨⟨⟨_, _, t, hrep, ht, rfl, hl⟩, by rw [hout]; exact ho⟩, ?_, hout, x.content, hcont, .inr ⟨accepts_iff.mp hacc, w, rfl, hw.le,
    hw5.imp_right (Or.resolve_right · fun h => nomatch h.2.1), ?_, fun j hj => ?_⟩⟩
  · have h1 : s'.file = (a.setIno t.inum _).file := congrArg Abs.file hrep.abs
    have h2 : s.file = a.file := congrArg Abs.file hr.abs
    exact h1.trans h2.symm
  · rw [hrep.contentOf, Abs.ino_setIno_same, Option.map_some, Ino.content_written hacc.1]
  · rw [hrep.contentOf, hr.contentOf, Abs.ino_setIno_ne hj]

theorem asBytes_read (h : Locks sb p e i s) (off n : UInt32) : AsBytes sb e i s (.read off n) := by
  have hspec : wpe (fun _ => False) (readi sb e (fun _ => true) off n) _ s := wpe_readi_bytes h
  obtain ⟨r, s', hrun, rfl, g, hg, -, rfl⟩ := exists_of_wpe hspec
  exact ⟨g, hg, hrun⟩

theorem writei_rejected {src : Nat → Option UInt8} {g : List UInt8} (h : Locks sb p e i s)
    (hcont : contentOf sb s i = some g) (hrej : Rejects g off.toNat n.toNat) :
    (writei sb e src off n).run s = .ok (-1, s) := by
  obtain ⟨S, a, t, hr, ht, rfl, hl⟩ := h
  have hlock : a.lock e ≠ none := by simp [hl]
  have hx := hr.copy ht hlock
  obtain ⟨x, hx, hsz⟩ : ∃ x, a.ino t.inum = some x ∧ x.size = (s.inode e).copy.size.toNat := ⟨_, hx, rfl⟩
  rw [hr.contentOf, hx] at hcont
  cases hcont
  have hspec : wpe (fun _ => False) (writei sb e src off n) _ s := wpe_writei_rejected hsz (accepts_iff.not.mpr (not_not.mpr hrej))
  obtain ⟨r, s', hrun, rfl, rfl⟩ := exists_of_wpe hspec
  exact hrun

theorem asBytes_write (hg : sb.Geom) (h : Holds sb p e i s) (off n : UInt32) (src : Nat → UInt8) :
    AsBytes sb e i s (.write off n src) := by
  obtain ⟨S, a, t, hr, ht, hi, hl⟩ := h.1
  obtain ⟨g, hcont⟩ : ∃ g, contentOf sb s i = some g := by
    rw [hr.contentOf, ← hi, hr.copy ht (by simp [hl])]
    exact ⟨_, rfl⟩
  refine ⟨g, hcont, writei_rejected h.1 hcont, fun hacc => ⟨fun hroom => ?_, fun r s' hrun => ?_⟩⟩
  · have hret : wpe (fun _ => False) (writei sb e (fun j => some (src j)) off n) _ s := wpe_writei_returns hg h.2 hroom
    obtain ⟨r, s', hrun, -⟩ := exists_of_wpe hret
    exact ⟨r, s', hrun⟩
  · obtain ⟨-, -, -, _, hg', hw⟩ := wpe_ok (wpe_writei_bytes hg h) hrun
    cases hcont.symm.trans hg'
    exact (hw.resolve_left fun hrej => hacc hrej.1).2

theorem Rep.of_beginOp (h : Rep sb S s a) : wpe MayStop (atomic beginOp) (fun _ s' => Rep sb S s' a.beginOp) s := by
  rw [wpe_atomic, beginOp, Wp.wpe_bind, Wp.wpe_get, Wp.wpe_ite]
  refine ⟨fun _ => Wp.wpe_throw.mpr (.inl rfl), fun _ => Wp.wpe_set.mpr ?_⟩
  refine ⟨?_, h.uniq, h.sound, h.owned, h.whole, h.orphans, fun c hc => ?_⟩
  · rw [← h.abs]
    rfl
  · dsimp only at hc
    split at hc
    · cases hc
    · exact h.logged c hc

theorem wpe_nextTransaction (h : Holds sb p e i s) : wpe MayStop (nextTransaction sb p e) (fun _ => Holds sb p e i) s := by
  obtain ⟨⟨S, a, t, hr, ht, hi, hl⟩, -⟩ := h
  refine wpe_seq (wpe_iunlock hr ht hl) ?_
  rintro _ s1 ⟨h1, -⟩
  refine wpe_seq (wpe_endOp h1) fun _ s2 h2 => ?_
  refine wpe_seq h2.of_beginOp fun _ s3 h3 => ?_
  refine wpe_mono (wpe_ilock h3 (t := t) ht) ?_
  rintro _ s4 ⟨h4, -⟩
  refine ⟨⟨S, _, t, h4, ht, hi, Function.update_self _ _ _⟩, ?_⟩
  rw [← h4.outstanding_eq]
  exact Nat.succ_le_succ (Nat.zero_le _)

theorem holds_step (hg : sb.Geom) {c : FileCall} (h : Holds sb p e i s) (hs : c.step sb p e s = some s') :
    Holds sb p e i s' := by
  cases c with
  | read off n =>
    obtain ⟨r, hrun⟩ := after_eq_some hs
    obtain ⟨f, -, hok⟩ := asBytes_read h.1 off n
    rw [hok] at hrun
    cases hrun
    exact h
  | write off n src =>
    obtain ⟨r, hrun⟩ := after_eq_some hs
    exact (wpe_ok (wpe_writei_bytes hg h) hrun).1
  | again =>
    obtain ⟨r, hrun⟩ := after_eq_some hs
    exact wpe_ok (Q := fun _ => Holds sb p e i) (wpe_nextTransaction h) hrun

theorem asBytes (hg : sb.Geom) (h : Holds sb p e i s) (c : FileCall) : AsBytes sb e i s c := by
  cases c with
  | read off n => exact asBytes_read h.1 off n
  | write off n src => exact asBytes_write hg h off n src
  | again => trivial

/-- A process reads and writes an inode that it has locked as an array of bytes, for as long as its
transactions have room in the log. -/
theorem file_calls (hg : sb.Geom) (h : Holds sb p e i s) (cs : List FileCall) :
    Trans.AllSteps (FileCall.step sb p e) (AsBytes sb e i) s cs :=
  Trans.allSteps_of_inv (fun _ c hs => asBytes hg hs c) (fun _ _ _ hs => holds_step hg hs) cs h

theorem holds_oneFile {size : UInt32} {data : Block} (hsize : size.toNat ≤ BSIZE) :
    Holds mkfsSuper p 0 1 (oneFile size data (some p)) :=
  ⟨⟨∅, _, ⟨1, 1, Nat.one_pos⟩, rep_oneFile hsize, slot_oneFile, rfl, rfl⟩, le_rfl⟩

theorem file_calls_oneFile :
    Trans.AllSteps (FileCall.step mkfsSuper 0 0) (AsBytes mkfsSuper 0 1) (oneFile 2 (fun _ => 97) (some 0))
      [.write 1 3000 fun _ => 98, .again, .read 0 10] :=
  file_calls geom_mkfsSuper (holds_oneFile (by decide)) _

/-- In a new transaction, `writei` of 28 blocks to a file of two bytes. -/
theorem bigWrite_panics :
    contentOf mkfsSuper (oneFile 2 (fun _ => 97) (some 0)) 1 = some [97, 97] ∧ ¬ Rejects [97, 97] 0 28672 ∧
    (writei mkfsSuper 0 (fun _ => some 98) 0 28672).run (oneFile 2 (fun _ => 97) (some 0)) =
      .error (.panic "too big a transaction") :=
  ⟨by decide +kernel, by decide, by decide +kernel⟩

end Fs
end Xv6
