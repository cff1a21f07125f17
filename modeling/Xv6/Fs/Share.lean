import Xv6.Fs.File
import Mathlib.Data.Finset.Card
import Mathlib.Data.Fintype.Basic

/-!
# Xv6.Fs.Share

Processes that share one `struct file` on an inode.

A `fileread` transfers in one section under the lock of the inode; a `filewrite` in a section for each of
its chunks, after `begin_op` and before `end_op`. Between these the other processes run. `done` records
the transfers in the order in which the lock was taken.

* `readSection`, `writeSection`: the parts of `Fs.fileread` and `Fs.filewriteChunk` under the lock.
* `shared_transfers`: in every run, the transfers are of consecutive ranges from the initial offset on, the
  offset is at their end, and the file has all bytes that were transferred.
-/

namespace Xv6
namespace Fs

open Bytes Prog Function List

/-! ## Sections -/

section

variable (sb : Superblock)

/-- The section of `fileread` under the lock of the inode. -/
def readSection (p : ProcId) (f : FileId) (ip : Entry) (dst : Nat → Bool) (n : UInt32) : Code (Int × List UInt8) := do
  ilock sb p ip
  let y ← atomic (fileOf f)
  let r ← readi sb ip dst y.off n
  atomic (advance f r.1)
  atomic (iunlock p ip)
  pure r

/-- The section of `filewrite` under the lock of the inode, for one chunk. -/
def writeSection (p : ProcId) (f : FileId) (ip : Entry) (src : Nat → Option UInt8) (n1 : Nat) : Code Int := do
  ilock sb p ip
  let y ← atomic (fileOf f)
  let r ← writei sb ip src y.off (UInt32.ofNat n1)
  atomic (advance f r)
  atomic (iunlock p ip)
  pure r

/-! ## Processes -/

inductive Pc where
  | start
  | begun
  | wrote (r : Int)
  deriving DecidableEq, Repr

structure WriteCall where
  src : Nat → UInt8
  n : Nat
  i : Nat
  pc : Pc

def WriteCall.n1 (c : WriteCall) : Nat := min (c.n - c.i) CHUNK

def WriteCall.chunk (c : WriteCall) : List UInt8 := bytes c.src c.i c.n1

/-- A transfer: where it began, the bytes that were transferred, and for a write those of the chunk. -/
structure Transfer where
  start : Nat
  data : List UInt8
  chunk : Option (List UInt8)

structure Shared where
  fs : State
  call : ProcId → Option WriteCall
  done : List Transfer

inductive ShareEvent where
  | read (p : ProcId) (n : Int32)
  | write (p : ProcId) (src : Nat → UInt8) (n : Int32)
  | go (p : ProcId)

def Shared.setCall (s : Shared) (p : ProcId) (c : Option WriteCall) : Shared :=
  { s with call := update s.call p c }

def goOn (f : FileId) (s : Shared) (p : ProcId) (c : WriteCall) : Option Shared :=
  match c.pc with
  | .start =>
    if c.i < c.n then (after (atomic beginOp) s.fs).map fun fs => { s with fs := fs }.setCall p (some { c with pc := .begun })
    else some (s.setCall p none)
  | .begun =>
    match (writeSection sb p f (s.fs.file f).ip (fun j => some (c.src (c.i + j))) c.n1).run s.fs with
    | .ok (r, fs) => some {
        fs := fs
        call := update s.call p (some { c with pc := .wrote r })
        done := if 0 ≤ r then s.done ++ [⟨(s.fs.file f).off.toNat, c.chunk.take r.toNat, some c.chunk⟩] else s.done }
    | .error _ => none
  | .wrote r => (after (atomic endOp) s.fs).map fun fs =>
    { s with fs := fs }.setCall p (if r ≠ c.n1 then none else some { c with i := c.i + r.toNat, pc := .start })

/-- A step of the processes that share file `f`. A process that is in a call makes no other. -/
def shareStep (f : FileId) (s : Shared) : ShareEvent → Option Shared
  | .read p n =>
    if (s.call p).isSome then none
    else if (s.fs.file f).readable = false then some s
    else
      match (readSection sb p f (s.fs.file f).ip (fun _ => true) n.toUInt32).run s.fs with
      | .ok (r, fs) => some { s with fs := fs, done := s.done ++ [⟨(s.fs.file f).off.toNat, r.2, none⟩] }
      | .error _ => none
  | .write p src n =>
    if (s.call p).isSome then none
    else if (s.fs.file f).writable = false then some s
    else some (s.setCall p (some ⟨src, n.toInt.toNat, 0, .start⟩))
  | .go p =>
    match s.call p with
    | none => none
    | some c => goOn sb f s p c

end

/-! ## Ranges -/

def total (ws : List Transfer) : Nat := (ws.map fun w => w.data.length).sum

/-- The transfers are of ranges that follow each other, from `off` on. -/
def Consecutive : Nat → List Transfer → Prop
  | _, [] => True
  | off, w :: ws => w.start = off ∧ Consecutive (off + w.data.length) ws

def Present (g : List UInt8) (w : Transfer) : Prop := (g.drop w.start).take w.data.length = w.data

@[simp] theorem total_append (ws : List Transfer) (w : Transfer) : total (ws ++ [w]) = total ws + w.data.length := by
  simp [total]

theorem Consecutive.append {off : Nat} {ws : List Transfer} (h : Consecutive off ws)
    (hw : w.start = off + total ws) : Consecutive off (ws ++ [w]) := by
  induction ws generalizing off with
  | nil => exact ⟨by simpa [total] using hw, trivial⟩
  | cons v ws ih =>
    refine ⟨h.1, ih h.2 ?_⟩
    rw [hw]
    simp [total, Nat.add_assoc]

theorem Consecutive.le {off : Nat} {ws : List Transfer} (h : Consecutive off ws) (hw : w ∈ ws) :
    w.start + w.data.length ≤ off + total ws := by
  induction ws generalizing off with
  | nil => cases hw
  | cons v ws ih =>
    have hsum : total (v :: ws) = v.data.length + total ws := by simp [total]
    rcases mem_cons.mp hw with rfl | hw
    · rw [h.1, hsum]
      omega
    · have := ih h.2 hw
      omega

theorem Present.write {off : Nat} (h : Present g w)
    (hoff : off ≤ g.length) (hw : w.start + w.data.length ≤ off) : Present (writeBytes g off k src) w := by
  have hlen : (g.take off).length = off := length_take_of_le hoff
  rw [Present, writeBytes, append_assoc, drop_append_of_le_length (by omega),
    take_append_of_le_length (by rw [length_drop]; omega), drop_take, take_take,
    Nat.min_eq_left (by omega)]
  exact h

theorem present_new {off : Nat} (hoff : off ≤ g.length) :
    ((writeBytes g off k src).drop off).take k = (range k).map src := by
  have hlen : (g.take off).length = off := length_take_of_le hoff
  rw [writeBytes, append_assoc, drop_left' hlen, take_left' (by simp)]

theorem present_read (g : List UInt8) (off n : Nat) : Present g ⟨off, readBytes g off n, none⟩ := by
  show (g.drop off).take (readBytes g off n).length = readBytes g off n
  rw [readBytes]
  split
  · rfl
  · rw [length_take, take_eq_take_iff]
    omega

/-! ## What a section does -/

variable {sb : Superblock} {s s' : State} {e : Entry} {i : Nat} {p : ProcId} {f : FileId}

def Free (sb : Superblock) (e : Entry) (i : Nat) (s : State) : Prop :=
  ∃ S a t, Rep sb S s a ∧ a.slot e = some t ∧ t.inum = i ∧ a.lock e = none

structure SameFile (f : FileId) (s s' : State) : Prop where
  outstanding : s'.outstanding = s.outstanding
  ip : (s'.file f).ip = (s.file f).ip

theorem TabOnly.file (h : TabOnly s s') : s'.file = s.file ∧ s'.outstanding = s.outstanding ∧ s'.disk = s.disk := by
  rw [TabOnly] at h
  rw [h]
  exact ⟨rfl, rfl, rfl⟩

theorem Rep.view_eq {S S' : Set Nat} {a a' : Abs} (h : Rep sb S s a) (h' : Rep sb S' s' a') (hd : s'.disk = s.disk) :
    s'.view sb = s.view sb := by
  rw [State.view, hd]
  refine view_congr_tab fun j _ _ => ?_
  rw [h.cur_eq, ← hd, h'.cur_eq]

theorem wpe_ilock_free (h : Free sb e i s) :
    wpe MayStop (ilock sb p e) (fun _ s' => Locks sb p e i s' ∧ TabOnly s s' ∧ s'.view sb = s.view sb) s := by
  obtain ⟨S, a, t, hr, ht, hi, hl⟩ := h
  refine wpe_mono (wpe_ilock hr ht) ?_
  rintro _ s' ⟨h', -, -, htab⟩
  exact ⟨⟨S, _, t, h', ht, hi, update_self _ _ _⟩, htab, hr.view_eq h' htab.file.2.2⟩

theorem wpe_ilock_ready (h : Free sb e i s) (hc : contentOf sb s i ≠ none) :
    wpe E (ilock sb p e) (fun _ s' => Locks sb p e i s' ∧ TabOnly s s' ∧ s'.view sb = s.view sb) s := by
  obtain ⟨S, a, t, hr, ht, rfl, hl⟩ := h
  refine wpe_mono (wpe_ilock_stops hr ht (fun hne => absurd hl hne) fun hn => absurd ?_ hc) ?_
  · rw [hr.contentOf, hn]
    rfl
  · rintro _ s' ⟨h', -, -, htab⟩
    exact ⟨⟨S, _, t, h', ht, rfl, update_self _ _ _⟩, htab, hr.view_eq h' htab.file.2.2⟩

theorem wpe_iunlock_free (h : Locks sb p e i s) :
    wpe E (atomic (iunlock p e)) (fun _ s' => Free sb e i s' ∧ TabOnly s s' ∧ s'.view sb = s.view sb) s := by
  obtain ⟨S, a, t, hr, ht, hi, hl⟩ := h
  refine wpe_mono (wpe_iunlock hr ht hl) ?_
  rintro _ s' ⟨h', htab⟩
  exact ⟨⟨S, _, t, h', ht, hi, update_self _ _ _⟩, htab, hr.view_eq h' htab.file.2.2⟩

theorem Locks.setFile (h : Locks sb p e i s) (g : FileId → File) : Locks sb p e i { s with file := g } := by
  obtain ⟨S, a, t, hr, ht, hi, hl⟩ := h
  refine ⟨S, { a with file := g }, t, ⟨?_, hr.uniq, hr.sound, hr.owned, hr.whole, hr.orphans, hr.logged⟩, ht, hi, hl⟩
  rw [← hr.abs]
  rfl

theorem wpe_advance (hk : (s.file f).off.toNat + k < 2 ^ 32) {Q : Unit → State → Prop}
    (hQ : ∀ g, (g f).off.toNat = (s.file f).off.toNat + k → (g f).ip = (s.file f).ip → Q () { s with file := g }) :
    wpe E (atomic (advance f (k : Int))) Q s := by
  rw [wpe_atomic, advance, Wp.wpe_ite]
  refine ⟨fun _ => ?_, fun h0 => ?_⟩
  · rw [setFile, Wp.wpe_modify]
    refine hQ _ ?_ (by rw [update_self])
    rw [update_self, UInt32.toNat_add, Int.toNat_natCast, UInt32.toNat_ofNat', Nat.mod_eq_of_lt (by omega : k < 2 ^ 32),
      Nat.mod_eq_of_lt hk]
  · have hk0 : k = 0 := by omega
    exact Wp.wpe_pure.mpr (hQ s.file (by rw [hk0]; rfl) rfl)

theorem contentOf_congr (h : s'.view sb = s.view sb) (j : Nat) : contentOf sb s' j = contentOf sb s j := by
  rw [contentOf, contentOf, h]

theorem fileOf_wpe {Q : File → State → Prop} (h : Q (s.file f) s) : wpe E (atomic (fileOf f)) Q s := by
  rw [wpe_atomic, fileOf, Wp.wpe_bind, Wp.wpe_get]
  exact Wp.wpe_pure.mpr h

theorem wpe_finishSection {α : Type} {r : α} (h : Locks sb p e i s)
    (hk : (s.file f).off.toNat + k < 2 ^ 32) {Q : α → State → Prop}
    (hQ : ∀ s', Free sb e i s' → s'.view sb = s.view sb → SameFile f s s' →
      (s'.file f).off.toNat = (s.file f).off.toNat + k → Q r s') :
    wpe E (do
      atomic (advance f (k : Int))
      atomic (iunlock p e)
      pure r) Q s := by
  rw [wpe_bind]
  refine wpe_advance hk fun g hoff hip => ?_
  refine wpe_seq (wpe_iunlock_free (h.setFile g)) ?_
  rintro _ s' ⟨hfree, htab, hview⟩
  obtain ⟨hfile, hout, -⟩ := htab.file
  refine wpe_pure.mpr (hQ s' hfree hview ⟨hout, ?_⟩ ?_)
  · rw [hfile]
    exact hip
  · rw [hfile]
    exact hoff

theorem length_readBytes_le (g : List UInt8) (off n : Nat) :
    readBytes g off n = [] ∨ off + (readBytes g off n).length ≤ g.length := by
  rw [readBytes]
  split
  · exact .inl rfl
  · right
    rw [length_take, length_drop]
    omega

theorem wpe_readSection {n : UInt32} (h : Free sb e i s) :
    wpe MayStop (readSection sb p f e (fun _ => true) n) (fun r s' => Free sb e i s' ∧ SameFile f s s' ∧
      ∃ g, contentOf sb s i = some g ∧ contentOf sb s' i = some g ∧ r.2 = readBytes g (s.file f).off.toNat n.toNat ∧
        (s'.file f).off.toNat = (s.file f).off.toNat + r.2.length) s := by
  refine wpe_seq (wpe_ilock_free h) ?_
  rintro _ s1 ⟨hl, htab, hview⟩
  obtain ⟨hfile, hout, -⟩ := htab.file
  have hf : s1.file f = s.file f := congrFun hfile f
  have hoff := (s.file f).off.toNat_lt
  rw [wpe_bind]
  refine fileOf_wpe ?_
  rw [hf]
  refine wpe_seq (wpe_readi_bytes hl) ?_
  rintro r s2 ⟨rfl, g, hg, hmax, rfl⟩
  refine wpe_finishSection hl ?_ fun s' hfree hview' hsame hoff' => ⟨hfree, ?_, g, ?_, ?_, rfl, ?_⟩
  · rw [hf]
    rcases length_readBytes_le g (s.file f).off.toNat n.toNat with h0 | hle
    · rw [h0]
      exact hoff
    · simp only [MAXFILE, NDIRECT, NINDIRECT, BSIZE] at hmax
      omega
  · exact ⟨hsame.outstanding.trans hout, by rw [hsame.ip, hf]⟩
  · rw [← hg, contentOf_congr hview]
  · rw [← hg, contentOf_congr hview']
  · rw [hoff', hf]

theorem wpe_writeSection {n1 : Nat} (hg : sb.Geom) (h : Free sb e i s) (ho : 1 ≤ s.outstanding) (hn : n1 < 2 ^ 32) :
    wpe MayStop (writeSection sb p f e (fun j => some (src j)) n1) (fun r s' => Free sb e i s' ∧ SameFile f s s' ∧
      ∃ g, contentOf sb s i = some g ∧ ((r = -1 ∧ contentOf sb s' i = some g ∧ (s'.file f).off = (s.file f).off) ∨
        ∃ k : Nat, r = k ∧ k ≤ n1 ∧ (k = n1 ∨ NoBlock sb i (place (((s.file f).off.toNat + k) / BSIZE)) s') ∧
          (s.file f).off.toNat ≤ g.length ∧ contentOf sb s' i = some (writeBytes g (s.file f).off.toNat k src) ∧
          (s'.file f).off.toNat = (s.file f).off.toNat + k)) s := by
  refine wpe_seq (wpe_ilock_free h) ?_
  rintro _ s1 ⟨hl, htab, hview⟩
  obtain ⟨hfile, hout, -⟩ := htab.file
  have hf : s1.file f = s.file f := congrFun hfile f
  have hoff := (s.file f).off.toNat_lt
  have hn1 : (UInt32.ofNat n1).toNat = n1 := UInt32.toNat_ofNat_of_lt' hn
  rw [wpe_bind]
  refine fileOf_wpe ?_
  rw [hf]
  refine wpe_seq (wpe_writei_bytes hg ⟨hl, by rw [hout]; exact ho⟩) ?_
  rintro r s2 ⟨hh2, hfile2, hout2, g, hcont, hres⟩
  have hf2 : s2.file f = s.file f := (congrFun hfile2 f).trans hf
  rw [contentOf_congr hview] at hcont
  rw [hn1] at hres
  rcases hres with ⟨-, rfl, rfl⟩ | ⟨hacc, k, rfl, hk, hstop, hcont', -⟩
  · rw [wpe_bind, wpe_atomic, advance, if_neg (by decide), Wp.wpe_pure]
    refine wpe_seq (wpe_iunlock_free hl) ?_
    rintro _ s' ⟨hfree, htab', hview'⟩
    obtain ⟨hfile', hout', -⟩ := htab'.file
    have hf' : s'.file f = s.file f := (congrFun hfile' f).trans hf
    refine wpe_pure.mpr ⟨hfree, ⟨hout'.trans hout, by rw [hf']⟩, g, hcont, .inl ⟨rfl, ?_, by rw [hf']⟩⟩
    rw [contentOf_congr hview', contentOf_congr hview, hcont]
  · simp only [Rejects, not_or, not_lt] at hacc
    refine wpe_finishSection hh2.1 ?_ fun s' hfree hview' hsame hoff' => ⟨hfree, ?_, g, hcont, .inr ⟨k, rfl, hk, hstop.imp_right ?_, ?_, ?_, ?_⟩⟩
    · rw [hf2]
      omega
    · exact ⟨hsame.outstanding.trans (hout2.trans hout), by rw [hsame.ip, hf2]⟩
    · rintro ⟨hfull, hnone⟩
      rw [← hview'] at hfull hnone
      exact ⟨hfull, hnone⟩
    · exact hacc.1
    · rw [contentOf_congr hview', hcont']
    · rw [hoff', hf2]

theorem wpe_beginOp_free (h : Free sb e i s) :
    wpe MayStop (atomic beginOp) (fun _ s' => Free sb e i s' ∧ s'.file = s.file ∧ s'.view sb = s.view sb ∧
      s'.outstanding = s.outstanding + 1) s := by
  obtain ⟨S, a, t, hr, ht, hi, hl⟩ := h
  have hkeep : wpe MayStop (atomic beginOp) (fun _ s' => s'.file = s.file ∧ s'.view sb = s.view sb ∧
      s'.outstanding = s.outstanding + 1) s := by
    rw [wpe_atomic, beginOp, Wp.wpe_bind, Wp.wpe_get, Wp.wpe_ite]
    exact ⟨fun _ => Wp.wpe_throw.mpr (.inl rfl), fun _ => Wp.wpe_set.mpr ⟨rfl, rfl, rfl⟩⟩
  refine wpe_mono (wpe_and hr.of_beginOp hkeep) ?_
  rintro _ s' ⟨h', hrest⟩
  exact ⟨⟨S, _, t, h', ht, hi, hl⟩, hrest⟩

theorem wpe_endOp_free (h : Free sb e i s) :
    wpe MayStop (atomic endOp) (fun _ s' => Free sb e i s' ∧ s'.file = s.file ∧ s'.view sb = s.view sb ∧
      s'.outstanding = s.outstanding - 1) s := by
  obtain ⟨S, a, t, hr, ht, hi, hl⟩ := h
  have hkeep : wpe MayStop (atomic endOp) (fun _ s' => s'.file = s.file ∧ s'.view sb = s.view sb ∧
      s'.outstanding = s.outstanding - 1) s := by
    rw [wpe_atomic, endOp, Wp.wpe_bind, Wp.wpe_get, Wp.wpe_ite]
    exact ⟨fun h0 => Wp.wpe_set.mpr ⟨rfl, rfl, h0.symm⟩, fun _ => Wp.wpe_set.mpr ⟨rfl, rfl, rfl⟩⟩
  refine wpe_mono (wpe_and (wpe_endOp hr) hkeep) ?_
  rintro _ s' ⟨h', hrest⟩
  exact ⟨⟨S, _, t, h', ht, hi, hl⟩, hrest⟩

/-! ## Runs -/

def inOp : Option WriteCall → Bool
  | some c => decide (c.pc ≠ .start)
  | none => false

def users (call : ProcId → Option WriteCall) : Finset ProcId := Finset.univ.filter fun p => inOp (call p) = true

theorem users_update_in {c : Option WriteCall} (h : inOp c = true) :
    users (update call p c) = insert p (users call) := by
  ext q
  by_cases hq : q = p
  · simp [users, hq, h]
  · simp [users, hq]

theorem users_update_out {c : Option WriteCall} (h : inOp c = false) :
    users (update call p c) = (users call).erase p := by
  ext q
  by_cases hq : q = p
  · simp [users, hq, h]
  · simp [users, hq]

structure ShareInv (sb : Superblock) (f : FileId) (e : Entry) (i off : Nat) (s : Shared) : Prop where
  free : Free sb e i s.fs
  ip : (s.fs.file f).ip = e
  begun : (users s.call).card ≤ s.fs.outstanding
  off_eq : (s.fs.file f).off.toNat = off + total s.done
  consecutive : Consecutive off s.done
  present : ∃ g, contentOf sb s.fs i = some g ∧ ∀ w ∈ s.done, Present g w
  full : ∀ w ∈ s.done, ∀ c, w.chunk = some c → w.data = c

variable {s s' : Shared} {off : Nat}
variable {w : Transfer} {g : List UInt8} {k : Nat} {src : Nat → UInt8} {E : Stop → Prop} {call : ProcId → Option WriteCall}

theorem ShareInv.quiet {fs : State} (h : ShareInv sb f e i off s) (hfree : Free sb e i fs)
    (hfile : fs.file = s.fs.file) (hview : fs.view sb = s.fs.view sb) (hcard : (users call).card ≤ fs.outstanding) :
    ShareInv sb f e i off ⟨fs, call, s.done⟩ := by
  obtain ⟨g, hg, hp⟩ := h.present
  exact ⟨hfree, by rw [hfile]; exact h.ip, hcard, by rw [hfile]; exact h.off_eq, h.consecutive,
    ⟨g, by rw [contentOf_congr hview, hg], hp⟩, h.full⟩

theorem ShareInv.transfer {fs : State}
    (h : ShareInv sb f e i off s) (hfree : Free sb e i fs) (hsame : SameFile f s.fs fs) (hcard : (users call).card ≤ s.fs.outstanding)
    (hstart : w.start = (s.fs.file f).off.toNat) (hoff : (fs.file f).off.toNat = (s.fs.file f).off.toNat + w.data.length)
    (hg : contentOf sb fs i = some g) (hold : ∀ v ∈ s.done, Present g v) (hnew : Present g w)
    (hfull : ∀ c, w.chunk = some c → w.data = c) : ShareInv sb f e i off ⟨fs, call, s.done ++ [w]⟩ := by
  refine ⟨hfree, by rw [hsame.ip]; exact h.ip, by rw [hsame.outstanding]; exact hcard, ?_, h.consecutive.append ?_,
    ⟨g, hg, fun v hv => ?_⟩, fun v hv => ?_⟩
  · rw [hoff, h.off_eq, total_append, Nat.add_assoc]
  · rw [hstart, h.off_eq]
  · rcases mem_append.mp hv with hv | hv
    · exact hold v hv
    · rw [mem_singleton.mp hv]
      exact hnew
  · rcases mem_append.mp hv with hv | hv
    · exact h.full v hv
    · rw [mem_singleton.mp hv]
      exact hfull

/-- No section stops short because there is no block for the next byte. -/
def NoAllocFails (sb : Superblock) (f : FileId) (i : Nat) (s : Shared) (ev : ShareEvent) : Prop :=
  ∀ s', shareStep sb f s ev = some s' → ∀ w c, s'.done = s.done ++ [w] → w.chunk = some c → w.data.length < c.length →
    ¬ NoBlock sb i (place ((w.start + w.data.length) / BSIZE)) s'.fs

theorem shareInv_read {n : Int32} (h : ShareInv sb f e i off s) (hs : shareStep sb f s (.read p n) = some s') :
    ShareInv sb f e i off s' := by
  simp only [shareStep] at hs
  split at hs
  · cases hs
  split at hs
  · cases hs
    exact h
  split at hs
  · rename_i r fs hrun
    cases hs
    rw [h.ip] at hrun
    obtain ⟨hfree, hsame, g, hg, hg', hr, hoff⟩ := wpe_ok (wpe_readSection h.free) hrun
    obtain ⟨g', hg'', hold⟩ := h.present
    cases hg.symm.trans hg''
    refine h.transfer hfree hsame h.begun rfl hoff hg' hold ?_ nofun
    rw [hr]
    exact present_read _ _ _
  · cases hs

section Write

variable {c : WriteCall}

theorem mem_users (hc : s.call p = some c) (hpc : c.pc ≠ .start) : p ∈ users s.call := by
  simp [users, hc, inOp, hpc]

theorem shareInv_begin {fs : State} (h : ShareInv sb f e i off s) (hrun : after (atomic beginOp) s.fs = some fs) :
    ShareInv sb f e i off ⟨fs, update s.call p (some { c with pc := .begun }), s.done⟩ := by
  obtain ⟨r, hrun⟩ := after_eq_some hrun
  obtain ⟨hfree, hfile, hview, hout⟩ := wpe_ok (wpe_beginOp_free h.free) hrun
  refine h.quiet hfree hfile hview ?_
  rw [users_update_in rfl, hout]
  exact (Finset.card_insert_le _ _).trans (Nat.succ_le_succ h.begun)

theorem shareInv_end {fs : State} {c' : Option WriteCall} (h : ShareInv sb f e i off s) (hc : s.call p = some c)
    (hpc : c.pc ≠ .start) (hc' : inOp c' = false) (hrun : after (atomic endOp) s.fs = some fs) :
    ShareInv sb f e i off ⟨fs, update s.call p c', s.done⟩ := by
  obtain ⟨r, hrun⟩ := after_eq_some hrun
  obtain ⟨hfree, hfile, hview, hout⟩ := wpe_ok (wpe_endOp_free h.free) hrun
  refine h.quiet hfree hfile hview ?_
  rw [users_update_out hc', Finset.card_erase_of_mem (mem_users hc hpc), hout]
  exact Nat.sub_le_sub_right h.begun 1

theorem shareInv_chunk (hg : sb.Geom) (h : ShareInv sb f e i off s) (hok : NoAllocFails sb f i s (.go p))
    (hc : s.call p = some c) (hpc : c.pc = .begun) (hs : shareStep sb f s (.go p) = some s') : ShareInv sb f e i off s' := by
  have hmem := mem_users hc (by rw [hpc]; decide)
  have ho : 1 ≤ s.fs.outstanding := (Finset.card_pos.mpr ⟨p, hmem⟩).trans_le h.begun
  have hn : c.n1 < 2 ^ 32 := lt_of_le_of_lt (Nat.min_le_right _ _) (by decide)
  have hall := hok s' hs
  simp only [shareStep, hc, goOn, hpc, h.ip] at hs
  split at hs
  swap
  · cases hs
  rename_i r fs hrun
  cases hs
  have hcard : ∀ r, (users (update s.call p (some { c with pc := .wrote r }))).card ≤ s.fs.outstanding := fun r => by
    rw [users_update_in rfl, Finset.insert_eq_of_mem hmem]
    exact h.begun
  obtain ⟨g', hg', hold⟩ := h.present
  obtain ⟨hfree, hsame, g, hcont, hres⟩ := wpe_ok (wpe_writeSection hg h.free ho hn) hrun
  cases hcont.symm.trans hg'
  rcases hres with ⟨rfl, hcont', hoff⟩ | ⟨k, rfl, hk, hstop, hle, hcont', hoff⟩
  · rw [if_neg (by decide)]
    exact ⟨hfree, by rw [hsame.ip]; exact h.ip, by rw [hsame.outstanding]; exact hcard _, by rw [hoff]; exact h.off_eq,
      h.consecutive, ⟨_, hcont', hold⟩, h.full⟩
  · have hpos : (0 : Int) ≤ k := Int.natCast_nonneg k
    rw [if_pos hpos] at hall ⊢
    have hdata : c.chunk.take (k : Int).toNat = bytes c.src c.i k := by
      rw [Int.toNat_natCast, WriteCall.chunk, take_bytes, Nat.min_eq_left hk]
    have hlen : (c.chunk.take (k : Int).toNat).length = k := by rw [hdata, length_bytes]
    have hkn : k = c.n1 := by
      by_contra hne
      have hno := hall _ c.chunk rfl rfl (by rw [hlen, WriteCall.chunk, length_bytes]; omega)
      rw [hlen] at hno
      exact hno (hstop.resolve_left hne)
    refine h.transfer hfree hsame (hcard _) rfl (by rw [hlen]; exact hoff) hcont' (fun v hv => ?_) ?_ fun c' hc' => ?_
    · have := h.consecutive.le hv
      exact (hold v hv).write hle (by rw [h.off_eq]; exact this)
    · rw [Present, hlen, hdata]
      exact present_new hle
    · cases hc'
      rw [hdata, hkn]
      rfl

end Write

theorem shareInv_step (hg : sb.Geom) {ev : ShareEvent} (h : ShareInv sb f e i off s) (hok : NoAllocFails sb f i s ev)
    (hs : shareStep sb f s ev = some s') : ShareInv sb f e i off s' := by
  cases ev with
  | read p n => exact shareInv_read h hs
  | write p src n =>
    simp only [shareStep] at hs
    split at hs
    · cases hs
    split at hs
    · cases hs
      exact h
    · cases hs
      refine h.quiet h.free rfl rfl ?_
      rw [users_update_out rfl]
      exact (Finset.card_erase_le).trans h.begun
  | go p =>
    cases hc : s.call p with
    | none => simp [shareStep, hc] at hs
    | some c =>
      cases hpc : c.pc with
      | start =>
        simp only [shareStep, hc, goOn, hpc] at hs
        split at hs
        · obtain ⟨fs, hrun, rfl⟩ := Option.map_eq_some_iff.mp hs
          exact shareInv_begin (s := s) h hrun
        · cases hs
          refine h.quiet h.free rfl rfl ?_
          rw [users_update_out rfl]
          exact (Finset.card_erase_le).trans h.begun
      | begun => exact shareInv_chunk hg h hok hc hpc hs
      | wrote r =>
        simp only [shareStep, hc, goOn, hpc] at hs
        obtain ⟨fs, hrun, rfl⟩ := Option.map_eq_some_iff.mp hs
        refine shareInv_end (s := s) h hc (by rw [hpc]; nofun) ?_ hrun
        split <;> rfl

/-- Nobody is in a call, and the shared file is open on inode `i`. -/
structure Opened (sb : Superblock) (f : FileId) (e : Entry) (i : Nat) (s : Shared) : Prop where
  free : Free sb e i s.fs
  ip : (s.fs.file f).ip = e
  inUse : contentOf sb s.fs i ≠ none
  idle : ∀ p, s.call p = none
  fresh : s.done = []

/-- Shared descriptors neither lose nor overlap writes. -/
theorem shared_transfers (hg : sb.Geom) (h : Opened sb f e i s) {es : List ShareEvent}
    (hrun : Trans.run (shareStep sb f) s es = some s')
    (hok : Trans.AllSteps (shareStep sb f) (NoAllocFails sb f i) s es) :
    (s'.fs.file f).off.toNat = (s.fs.file f).off.toNat + total s'.done ∧ Consecutive (s.fs.file f).off.toNat s'.done ∧
    ∃ g, contentOf sb s'.fs i = some g ∧ ∀ w ∈ s'.done, Present g w ∧ ∀ c, w.chunk = some c → w.data = c := by
  have hinit : ShareInv sb f e i (s.fs.file f).off.toNat s := by
    obtain ⟨g, hcont⟩ := Option.ne_none_iff_exists'.mp h.inUse
    have husers : users s.call = ∅ := by
      ext q
      simp [users, h.idle q, inOp]
    refine ⟨h.free, h.ip, by rw [husers]; exact Nat.zero_le _, ?_, ?_, ⟨g, hcont, ?_⟩, ?_⟩
    all_goals
      rw [h.fresh]
    · rfl
    · trivial
    · nofun
    · nofun
  have hinv := Trans.run_inv_of (fun _ _ _ hs hc => shareInv_step hg hs hc) hinit hok hrun
  obtain ⟨g, hcont, hp⟩ := hinv.present
  exact ⟨hinv.off_eq, hinv.consecutive, g, hcont, fun w hw => ⟨hp w hw, hinv.full w hw⟩⟩

def fullSoFar (s : Shared) : Bool := s.done.all fun w => w.chunk.all fun c => decide (c.length ≤ w.data.length)

theorem noAllocFails_of_full {ev : ShareEvent} (h : ∀ s', shareStep sb f s ev = some s' → fullSoFar s' = true) :
    NoAllocFails sb f i s ev := by
  intro s' hs w c hw hc hlt
  have hall := all_eq_true.mp (h s' hs) w (by rw [hw]; simp)
  rw [hc] at hall
  exact absurd (of_decide_eq_true hall) (Nat.not_le.mpr hlt)

/-- File 0 is open on the file `aa`, and shared. -/
def sharedFile : Shared where
  fs := { oneFile 2 (fun _ => 97) none with file := fun _ => ⟨.inode, 2, true, true, 0, 0, 0, 0⟩ }
  call := fun _ => none
  done := []

theorem opened_sharedFile : Opened mkfsSuper 0 0 1 sharedFile := by
  have hr : Rep mkfsSuper ∅ (oneFile 2 (fun _ => 97) none) _ := rep_oneFile (by decide)
  refine ⟨⟨∅, _, ⟨1, 1, Nat.one_pos⟩, ⟨rfl, hr.uniq, hr.sound, hr.owned, hr.whole, hr.orphans, hr.logged⟩, rfl, rfl, rfl⟩, rfl, ?_,
    fun _ => rfl, rfl⟩
  have hsome : (contentOf mkfsSuper sharedFile.fs 1).isSome = true := by decide +kernel
  exact Option.isSome_iff_ne_none.mp hsome

/-- Processes 0 and 1 write, process 2 reads. -/
def sharedEvents : List ShareEvent :=
  [.write 0 (fun _ => 98) 3, .write 1 (fun _ => 99) 2, .go 0, .go 1, .go 1, .read 2 1, .go 0, .go 1, .go 0]

theorem shared_transfers_run : ∃ s', Trans.run (shareStep mkfsSuper 0) sharedFile sharedEvents = some s' ∧
    (s'.fs.file 0).off.toNat = 0 + total s'.done ∧ Consecutive 0 s'.done ∧
    ∃ g, contentOf mkfsSuper s'.fs 1 = some g ∧ ∀ w ∈ s'.done, Present g w ∧ ∀ c, w.chunk = some c → w.data = c := by
  have hsome : (Trans.run (shareStep mkfsSuper 0) sharedFile sharedEvents).isSome = true := by decide +kernel
  have hfull : Trans.AllSteps (shareStep mkfsSuper 0)
      (fun s ev => (shareStep mkfsSuper 0 s ev).all fullSoFar = true) sharedFile sharedEvents := by decide +kernel
  obtain ⟨s', hrun⟩ := Option.isSome_iff_exists.mp hsome
  refine ⟨s', hrun, shared_transfers geom_mkfsSuper opened_sharedFile hrun (hfull.mono fun s ev h => ?_)⟩
  refine noAllocFails_of_full fun s' hs => ?_
  rw [hs] at h
  exact h

end Fs
end Xv6
