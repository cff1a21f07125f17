import Xv6.Fs.Rep

/-!
# Xv6.Fs.Data

Reading and writing a locked inode.

* `wpe_readi`: `readi` returns the bytes of the file up to its size, and changes nothing.
* `wpe_writei`: `writei` overwrites the file from `off` on with the bytes of the source, as far as the
  source can be read and the disk has blocks, and extends the size. No other file changes.
-/

namespace Xv6
namespace Fs

open Bytes Prog Function List

variable {sb : Superblock} {s s' : State} {E : Stop → Prop} {e : Entry} {i : Nat}
  {F : Stop → Prop} [Allows F] {off : Nat} {n : UInt32}

/-! ## Reading -/

def bytes (f : Nat → UInt8) (off n : Nat) : List UInt8 := (range n).map fun j => f (off + j)

theorem bytes_add (f : Nat → UInt8) (off m n : Nat) : bytes f off (m + n) = bytes f off m ++ bytes f (off + m) n := by
  simp [bytes, range_add, Nat.add_assoc]

theorem slice_eq_bytes {n : Nat} (b : Buf n) (off k : Nat) : slice b off k = bytes (byte b) off k := by
  refine ext_getElem (by simp [bytes]) fun j h1 h2 => ?_
  simp [slice, bytes]

theorem Held.byteAt_block (h : Held sb e i s) {j : Nat} (hj : off % BSIZE + j < BSIZE)
    (hne : (s.view sb).addr i (place (off / BSIZE)) ≠ 0) :
    (s.view sb).byteAt i (off + j) = byte (s.disk ((s.view sb).addr i (place (off / BSIZE)))) (off % BSIZE + j) := by
  have hdiv : (off + j) / BSIZE = off / BSIZE := by
    simp only [BSIZE] at *
    omega
  have hmod : (off + j) % BSIZE = off % BSIZE + j := by
    simp only [BSIZE] at *
    omega
  rw [View.byteAt, hdiv, if_neg hne, hmod]
  exact congrArg (byte · _) (h.block (x := (i, place (off / BSIZE))) hne)

theorem Held.slice_block (h : Held sb e i s) {m : Nat} (hm : off % BSIZE + m ≤ BSIZE)
    (hne : (s.view sb).addr i (place (off / BSIZE)) ≠ 0) :
    slice (s.disk ((s.view sb).addr i (place (off / BSIZE)))) (off % BSIZE) m =
      bytes ((s.view sb).byteAt i) off m := by
  rw [slice_eq_bytes]
  refine map_congr_left fun j hj => ?_
  rw [mem_range] at hj
  exact (h.byteAt_block (by omega) hne).symm

theorem wpe_readiLoop {dst : Nat → Bool} {n : Nat} (h : Held sb e i s) (hw : (s.view sb).Whole i) :
    ∀ fuel off tot out, tot ≤ n → n - tot ≤ fuel → off + (n - tot) ≤ (s.inode e).copy.size.toNat →
      wpe E (readiLoop sb e dst n fuel off tot out) (fun r s' => s' = s ∧
        (r = ((n : Int), out ++ bytes ((s.view sb).byteAt i) off (n - tot)) ∨ r.1 = -1 ∧ ∃ j < n, dst j = false)) s := by
  have hsize := hw.size
  rw [h.dinode] at hsize
  intro fuel
  induction fuel with
  | zero =>
    intro off tot out hle hfuel _
    have hn : n - tot = 0 := Nat.le_zero.mp hfuel
    have ht : tot = n := by omega
    refine wpe_pure.mpr ⟨rfl, .inl ?_⟩
    rw [hn, ht]
    simp [bytes]
  | succ fuel ih =>
    intro off tot out hle hfuel hoff
    rw [readiLoop]
    by_cases hlt : tot < n
    swap
    · have hn : n - tot = 0 := by omega
      have ht : tot = n := by omega
      rw [if_neg hlt, wpe_pure, hn, ht]
      exact ⟨rfl, .inl (by simp [bytes])⟩
    have hpos : off / BSIZE * BSIZE < (s.inode e).copy.size.toNat := by
      simp only [BSIZE] at *
      omega
    have hbn : off / BSIZE < MAXFILE := by
      simp only [MAXFILE, BSIZE] at *
      omega
    have hne := hw.blocks (off / BSIZE) (by rw [h.dinode]; exact hpos)
    rw [if_pos hlt, wpe_bind]
    refine wpe_bmap_mapped h hbn hne fun r hr0 hr => ?_
    rw [if_neg hr0, wpe_bind, wpe_atomic]
    refine wpe_bread ?_
    set m := min (n - tot) (BSIZE - off % BSIZE) with hm
    have hm1 : m ≤ n - tot := Nat.min_le_left _ _
    have hm2 : off % BSIZE + m ≤ BSIZE := by
      have h1 : m ≤ BSIZE - off % BSIZE := Nat.min_le_right _ _
      have h2 := Nat.mod_lt off (show 0 < BSIZE by decide)
      omega
    have hm0 : 0 < m := by
      have h2 := Nat.mod_lt off (show 0 < BSIZE by decide)
      omega
    rw [wpe_ite]
    constructor
    · intro _
      refine wpe_mono (ih (off + m) (tot + m) _ (by omega) (by omega) (by omega)) ?_
      rintro r' s' ⟨rfl, rfl | hfail⟩
      · refine ⟨rfl, .inl ?_⟩
        have hsplit : n - tot = m + (n - (tot + m)) := by omega
        rw [hr, h.slice_block hm2 hne, hsplit, bytes_add, append_assoc]
      · exact ⟨rfl, .inr hfail⟩
    · intro hdst
      refine wpe_pure.mpr ⟨rfl, .inr ⟨rfl, ?_⟩⟩
      rw [all_eq_true] at hdst
      push Not at hdst
      obtain ⟨j, hj, hd⟩ := hdst
      rw [mem_range'_1] at hj
      exact ⟨j, by omega, by simpa using hd⟩

def readLen (size off n : Nat) : Nat := if size < off ∨ 2 ^ 32 ≤ off + n then 0 else min n (size - off)

theorem wrap_iff (off n : UInt32) : off + n < off ↔ 2 ^ 32 ≤ off.toNat + n.toNat := by
  rw [UInt32.lt_iff_toNat_lt, UInt32.toNat_add]
  have h1 := off.toNat_lt
  have h2 := n.toNat_lt
  omega

theorem toNat_add_of_not_wrap {off : UInt32} (h : ¬ off + n < off) : (off + n).toNat = off.toNat + n.toNat := by
  rw [wrap_iff] at h
  rw [UInt32.toNat_add, Nat.mod_eq_of_lt (by omega)]

theorem readLen_rejected {size off : UInt32} (h : size < off ∨ off + n < off) :
    readLen size.toNat off.toNat n.toNat = 0 := by
  rw [wrap_iff, UInt32.lt_iff_toNat_lt] at h
  rw [readLen, if_pos h]

theorem toNat_clipped {size off : UInt32} (h : ¬ (size < off ∨ off + n < off)) :
    (if size < off + n then size - off else n).toNat = readLen size.toNat off.toNat n.toNat ∧
      off.toNat + readLen size.toNat off.toNat n.toNat ≤ size.toNat := by
  obtain ⟨h1, h2⟩ := not_or.mp h
  have hadd := toNat_add_of_not_wrap h2
  rw [wrap_iff] at h2
  rw [UInt32.lt_iff_toNat_lt] at h1
  have hle : off ≤ size := UInt32.le_iff_toNat_le.mpr (Nat.le_of_not_lt h1)
  rw [readLen, if_neg (not_or.mpr ⟨h1, h2⟩)]
  refine ⟨?_, by omega⟩
  split
  · rename_i hlt
    rw [UInt32.lt_iff_toNat_lt, hadd] at hlt
    rw [UInt32.toNat_sub_of_le _ _ hle]
    omega
  · rename_i hlt
    rw [UInt32.lt_iff_toNat_lt, hadd] at hlt
    omega

/-- `readi` returns the bytes of the file, or -1 when they cannot be stored. It changes nothing. -/
theorem wpe_readi {dst : Nat → Bool} {off : UInt32} (h : Held sb e i s) (hw : (s.view sb).Whole i) :
    wpe E (readi sb e dst off n) (fun r s' => s' = s ∧ let k := readLen (s.inode e).copy.size.toNat off.toNat n.toNat
      (r = ((k : Int), bytes ((s.view sb).byteAt i) off.toNat k) ∨ r.1 = -1 ∧ ∃ j < k, dst j = false)) s := by
  rw [readi, wpe_bind]
  refine wpe_copyOf (wpe_ite.mpr ⟨fun hc => ?_, fun hc => ?_⟩)
  · refine wpe_pure.mpr ⟨rfl, .inl ?_⟩
    rw [readLen_rejected hc]
    simp [bytes]
  · obtain ⟨hk, hfit⟩ := toNat_clipped hc
    dsimp only
    rw [hk]
    refine wpe_mono (wpe_readiLoop h hw _ off.toNat 0 [] (Nat.zero_le _) (by omega) (by omega)) ?_
    rintro r s' ⟨rfl, hr⟩
    refine ⟨rfl, ?_⟩
    simpa using hr

def direntAt (f : Nat → UInt8) (off : Nat) : Dirent := Dirent.dec (bytes f off DIRENT)

theorem wpe_readDirent {msg : String} {Q : Dirent → State → Prop} (h : Held sb e i s)
    (hw : (s.view sb).Whole i) (hoff : off + DIRENT ≤ (s.inode e).copy.size.toNat)
    (hQ : Q (direntAt ((s.view sb).byteAt i) off) s) : wpe E (readDirent sb e off msg) Q s := by
  have hsize := (s.inode e).copy.size.toNat_lt
  have ho : (UInt32.ofNat off).toNat = off := UInt32.toNat_ofNat_of_lt' (by simp only [UInt32.size]; omega)
  have hk : readLen (s.inode e).copy.size.toNat (UInt32.ofNat off).toNat (UInt32.ofNat DIRENT).toNat = DIRENT := by
    have hd : (UInt32.ofNat DIRENT).toNat = DIRENT := rfl
    rw [readLen, ho, hd, if_neg (by omega)]
    omega
  rw [readDirent]
  refine wpe_seq (wpe_readi h hw) ?_
  rintro r s' ⟨rfl, hr | hr⟩
  · rw [hk, ho] at hr
    subst hr
    rw [if_neg (by simp)]
    exact wpe_pure.mpr hQ
  · obtain ⟨-, j, -, hj⟩ := hr
    exact absurd hj (by simp)

/-! ## Writing -/

section Fetch

variable {src : Nat → Option UInt8}

theorem length_fetch_le (m j : Nat) : (fetch src m j).length ≤ m := by
  induction m generalizing j with
  | zero => exact le_rfl
  | succ m ih =>
    rw [fetch]
    split
    · exact Nat.succ_le_succ (ih (j + 1))
    · exact Nat.zero_le _

theorem fetch_get (m j q : Nat) (h : q < (fetch src m j).length) : src (j + q) = some (fetch src m j)[q] := by
  induction m generalizing j q with
  | zero => exact absurd h (Nat.not_lt_zero q)
  | succ m ih =>
    cases hc : src j with
    | none => simp [fetch, hc] at h
    | some c =>
      simp only [fetch, hc, length_cons] at h ⊢
      cases q with
      | zero => simpa using hc
      | succ q =>
        have := ih (j + 1) q (Nat.lt_of_succ_lt_succ h)
        rw [getElem_cons_succ, ← this]
        congr 1
        omega

theorem fetch_short (m j : Nat) (h : (fetch src m j).length < m) : src (j + (fetch src m j).length) = none := by
  induction m generalizing j with
  | zero => exact absurd h (Nat.not_lt_zero _)
  | succ m ih =>
    cases hc : src j with
    | none => simp [fetch, hc]
    | some c =>
      simp only [fetch, hc, length_cons] at h ⊢
      have := ih (j + 1) (Nat.lt_of_succ_lt_succ h)
      rw [← this]
      congr 1
      omega

end Fetch

/-- `w` bytes of `f` from `off` on replaced by those of `src`. -/
def overwrite (f : Nat → UInt8) (off w : Nat) (src : Nat → Option UInt8) : Nat → UInt8 :=
  fun pos => if off ≤ pos ∧ pos < off + w then (src (pos - off)).getD 0 else f pos

def Missing (src : Nat → Option UInt8) (n : Nat) : Prop := ∃ q < n, src q = none

/-- Inode `i` has been overwritten, the other files have their bytes. -/
def Overwritten (sb : Superblock) (i off w : Nat) (src : Nat → Option UInt8) (s s' : State) : Prop :=
  ∀ j pos, (s'.view sb).byteAt j pos =
    if j = i then overwrite ((s.view sb).byteAt i) off w src pos else (s.view sb).byteAt j pos

theorem overwrite_zero (f : Nat → UInt8) (off : Nat) (src : Nat → Option UInt8) : overwrite f off 0 src = f := by
  funext pos
  rw [overwrite, if_neg (by omega)]

theorem overwrite_overwrite (f : Nat → UInt8) (off m w : Nat) (src : Nat → Option UInt8) :
    overwrite (overwrite f off m src) (off + m) w (fun q => src (m + q)) = overwrite f off (m + w) src := by
  funext pos
  simp only [overwrite]
  by_cases h1 : off + m ≤ pos ∧ pos < off + m + w
  · rw [if_pos h1, if_pos (by omega)]
    congr 2
    omega
  · rw [if_neg h1]
    by_cases h2 : off ≤ pos ∧ pos < off + m
    · rw [if_pos h2, if_pos (by omega)]
    · rw [if_neg h2, if_neg (by omega)]

theorem Overwritten.trans {m w : Nat} {src : Nat → Option UInt8} {s'' : State}
    (h : Overwritten sb i off m src s s') (h' : Overwritten sb i (off + m) w (fun q => src (m + q)) s' s'') :
    Overwritten sb i off (m + w) src s s'' := by
  intro j pos
  rw [h' j pos]
  by_cases hj : j = i
  · subst hj
    have hf : (s'.view sb).byteAt j = overwrite ((s.view sb).byteAt j) off m src := funext fun pos => by
      rw [h j pos, if_pos rfl]
    rw [if_pos rfl, if_pos rfl, hf, overwrite_overwrite]
  · rw [if_neg hj, if_neg hj, h j pos, if_neg hj]

section Write

variable (hg : sb.Geom) {off n : Nat} {src : Nat → Option UInt8}
include hg

theorem Held.write {L : Nat} {data : List UInt8} {l g : List Nat} {f : Nat → Option UInt8} (h : Held sb e i s)
    (hne : (s.view sb).addr i (place (off / BSIZE)) ≠ 0) (hL : data.length = L) (hfit : off % BSIZE + L ≤ BSIZE)
    (hsrc : ∀ q, (hq : q < data.length) → f q = some data[q]) (hs' : s' = { s with
      disk := update s.disk ((s.view sb).addr i (place (off / BSIZE)))
        (putBytes (s.disk ((s.view sb).addr i (place (off / BSIZE)))) (off % BSIZE) data)
      log := l
      logged := g })
    (hmono : ∀ c ∈ s.logged, c ∈ g) (hlog : ∀ c ∈ g, c ∈ s.logged ∨ c = (s.view sb).addr i (place (off / BSIZE))) :
    Work sb e i {place (off / BSIZE)} s s' ∧ Overwritten sb i off L f s s' := by
  subst hs'
  set b := (s.view sb).addr i (place (off / BSIZE)) with hb
  have hdata : sb.nmeta ≤ b := (h.owned.range (x := (i, place (off / BSIZE))) hne).1
  have hview : view sb (update s.disk b (putBytes (s.disk b) (off % BSIZE) data)) s.inode =
      (view sb s.disk s.inode).setBlock b (putBytes (s.disk b) (off % BSIZE) data) := view_data hg hdata
  have haddr : ∀ j k, (view sb (update s.disk b (putBytes (s.disk b) (off % BSIZE) data)) s.inode).addr j k =
      (s.view sb).addr j k := fun j k => by rw [hview]; exact View.addr_write h.owned hne
  have hpl : (view sb (update s.disk b (putBytes (s.disk b) (off % BSIZE) data)) s.inode).places =
      (s.view sb).places := funext fun x => haddr x.1 x.2
  refine ⟨⟨⟨fun _ _ => rfl, ⟨_, rfl⟩, rfl, rfl, rfl, rfl⟩, fun j hj => diskDinode_data hg hdata hj, ?_, fun j => ?_,
    fun x _ => congrFun hpl x, hmono, fun k h0 hne => absurd ((haddr i k).trans h0) hne, fun c hc => ?_⟩, fun j pos => ?_⟩
  · show Places.Owned sb.nmeta sb.size (view sb _ s.inode).places ∅ (view sb _ s.inode).used
    rw [hpl, hview]
    exact h.owned
  · show ((view sb _ s.inode).dinode j).head = _
    rw [hview]
    rfl
  · refine (hlog c hc).imp_right fun hc => ⟨_, rfl, ?_, .inl (hc.trans (haddr i _).symm)⟩
    rw [State.view, haddr]
    exact hne
  · show (view sb _ s.inode).byteAt j pos = _
    rw [hview, View.byteAt_write h.owned hne]
    by_cases hj : j = i
    swap
    · rw [if_neg fun hc => hj hc.1, if_neg hj]
    subst hj
    have hlt := Nat.mod_lt off (show 0 < BSIZE by decide)
    rw [if_pos rfl, overwrite]
    by_cases hbn : pos / BSIZE = off / BSIZE
    · rw [if_pos ⟨rfl, hbn⟩]
      have hpos : pos % BSIZE < BSIZE := Nat.mod_lt _ (by decide)
      by_cases hin : off ≤ pos ∧ pos < off + L
      · have hq : pos % BSIZE = off % BSIZE + (pos - off) := by
          simp only [BSIZE] at *
          omega
        have hql : pos - off < data.length := by omega
        rw [if_pos hin, hq, byte_putBytes_in (by omega) hql, hsrc _ hql]
        rfl
      · have hout : pos % BSIZE < off % BSIZE ∨ off % BSIZE + data.length ≤ pos % BSIZE := by
          simp only [BSIZE] at *
          omega
        rw [if_neg hin, byte_putBytes_out hout, View.byteAt, hbn, if_neg hne]
        exact congrArg (byte · _) (h.block (x := (j, place (off / BSIZE))) hne).symm
    · rw [if_neg fun hc => hbn hc.2, if_neg]
      intro hin
      apply hbn
      simp only [BSIZE] at *
      omega

def span (off n : Nat) : Set Nat := {NDIRECT} ∪ place '' {bn | off / BSIZE ≤ bn ∧ bn * BSIZE < off + n}

/-- What the loop of `writei` leaves. `w` bytes have been overwritten: those that count, and those of a
copy that failed in the middle of a block. -/
structure Wrote (sb : Superblock) (e : Entry) (i : Nat) (src : Nat → Option UInt8) (n off tot : Nat) (s : State)
    (r : Nat × Nat) (s' : State) : Prop where
  work : Work sb e i (span off (n - tot)) s s'
  le : tot ≤ r.2 ∧ r.2 ≤ n
  off_eq : r.1 = off + (r.2 - tot)
  stops : r.2 = tot ∨ r.2 = n ∨ r.1 % BSIZE = 0
  blocks : off < r.1 → ∀ bn, off / BSIZE ≤ bn → bn * BSIZE < r.1 → (s'.view sb).addr i (place bn) ≠ 0
  bytes : ∃ w, r.2 - tot ≤ w ∧ tot + w ≤ n ∧ (∀ q < w, src (tot + q) ≠ none) ∧ (r.2 - tot < w → Missing src n) ∧
    (r.2 = n ∨ NoBlock sb i (place (r.1 / BSIZE)) s' ∨
      tot + w < n ∧ src (tot + w) = none ∧ (off + w) / BSIZE = r.1 / BSIZE) ∧ Overwritten sb i off w (fun q => src (tot + q)) s s'

omit hg in
theorem Wrote.stop {tot : Nat} (hw : Work sb e i (span off (n - tot)) s s') (hb : SameBytes sb s s') (ht : tot ≤ n)
    (hshort : tot = n ∨ NoBlock sb i (place (off / BSIZE)) s') : Wrote sb e i src n off tot s (off, tot) s' := by
  refine ⟨hw, ⟨le_rfl, ht⟩, by simp, .inl rfl, fun hlt => absurd hlt (lt_irrefl off), 0, by simp, by simpa using ht,
    fun q hq => absurd hq (Nat.not_lt_zero q), fun hlt => absurd hlt (by simp), hshort.imp_right .inl, fun j pos => ?_⟩
  rw [overwrite_zero, hb j pos]
  split
  · rename_i hj
    rw [hj]
  · rfl

omit hg in
theorem first_lt (off : Nat) (h : 0 < n) : off / BSIZE * BSIZE < off + n :=
  lt_of_le_of_lt (Nat.div_mul_le_self off BSIZE) (Nat.lt_add_of_pos_right h)

theorem wpe_writeiLoop : ∀ fuel off tot {s : State}, Held sb e i s → 1 ≤ s.outstanding → tot ≤ n → n - tot ≤ fuel →
      off + (n - tot) ≤ MAXFILE * BSIZE →
      wpe F (writeiLoop sb e src n fuel off tot) (Wrote sb e i src n off tot s) s := by
  intro fuel
  induction fuel with
  | zero =>
    intro off tot s h _ hle hfuel _
    exact wpe_pure.mpr (.stop (.refl h) (fun _ _ => rfl) hle (.inl (by omega)))
  | succ fuel ih =>
    intro off tot s h ho hle hfuel hmax
    rw [writeiLoop]
    by_cases hlt : tot < n
    swap
    · rw [if_neg hlt]
      exact wpe_pure.mpr (.stop (.refl h) (fun _ _ => rfl) hle (.inl (by omega)))
    have hbn : off / BSIZE < MAXFILE := by
      simp only [MAXFILE, BSIZE] at *
      omega
    rw [if_pos hlt]
    refine wpe_seq (wpe_bmap hg h ho hbn) ?_
    rintro r s1 ⟨hw1, hb1, hr, hno⟩
    have hmem : place (off / BSIZE) ∈ span off (n - tot) :=
      .inr ⟨off / BSIZE, ⟨le_rfl, first_lt off (Nat.sub_pos_of_lt hlt)⟩, rfl⟩
    have hspan : {NDIRECT, place (off / BSIZE)} ⊆ span off (n - tot) := by
      rintro k (rfl | rfl)
      · exact .inl rfl
      · exact hmem
    by_cases hr0 : r = 0
    · rw [if_pos hr0]
      exact wpe_pure.mpr (.stop (hw1.mono hspan) hb1 hle (.inr (hno hr0)))
    have hr := hr hr0
    have hne : (s1.view sb).addr i (place (off / BSIZE)) ≠ 0 := by
      rw [← hr]
      exact fun hz => hr0 (UInt32.toNat_inj.mp hz)
    have h1 := h.work hw1
    have ho1 : 1 ≤ s1.outstanding := by
      rw [hw1.frame.outstanding]
      exact ho
    have hmod := Nat.mod_lt off (show 0 < BSIZE by decide)
    replace hw1 := hw1.mono hspan
    have hself : span off (n - tot) ∪ {place (off / BSIZE)} ⊆ span off (n - tot) :=
      Set.union_subset subset_rfl (Set.singleton_subset_iff.mpr hmem)
    rw [if_neg hr0]
    dsimp only
    generalize hm : min (n - tot) (BSIZE - off % BSIZE) = m
    have hlen : (fetch src m tot).length ≤ m := length_fetch_le m tot
    have hget : ∀ q, (h : q < (fetch src m tot).length) → src (tot + q) = some (fetch src m tot)[q] := fetch_get m tot
    rw [wpe_bind, wpe_atomic, copyinBlock, Wp.wpe_bind, hr]
    refine wpe_bread ?_
    rw [Wp.wpe_bind, setBlock, Wp.wpe_modify, Wp.wpe_ite]
    constructor
    · -- the copy failed: the bytes before the failure are in the buffer
      intro hshort
      obtain ⟨hw2, hb2⟩ := h1.write hg (l := s1.log) (f := fun q => src (tot + q)) hne rfl (by omega)
        (fun q hq => hget q hq) rfl (fun _ hc => hc) fun c hc => .inl hc
      have hnone := fetch_short m tot hshort
      refine Wp.wpe_pure.mpr (wpe_pure.mpr ⟨(hw1.trans hw2).mono hself, ⟨le_rfl, hle⟩, by simp, .inl rfl,
        fun hlt => absurd hlt (lt_irrefl off), (fetch src m tot).length, by simp,
        by omega, fun q hq => ?_, fun _ => ⟨_, by omega, hnone⟩, .inr (.inr ⟨by omega, hnone, ?_⟩), fun j pos => ?_⟩)
      · rw [hget q hq]
        exact Option.some_ne_none _
      · simp only [BSIZE] at *
        omega
      · rw [hb2 j pos, hb1 j pos, show (s1.view sb).byteAt i = (s.view sb).byteAt i from funext (hb1 i)]
    · intro hfull
      have hL : (fetch src m tot).length = m := by omega
      rw [Wp.wpe_bind]
      refine wpe_logWrite ho1 fun log => Wp.wpe_pure.mpr ?_
      rw [if_pos rfl]
      obtain ⟨hw2, hb2⟩ := h1.write hg (l := log) (g := s1.logged ++ [(s1.view sb).addr i (place (off / BSIZE))])
        (f := fun q => src (tot + q)) hne hL (by omega) (fun q hq => hget q hq) rfl
        (fun c hc => mem_append_left _ hc) fun c hc => by simpa using hc
      refine wpe_mono (ih (off + m) (tot + m) (h1.work hw2) (by rw [hw2.frame.outstanding]; exact ho1) (by omega)
        (by omega) (by omega)) ?_
      rintro r' s3 ⟨hw3, hle3, hoff3, hstop3, hblk3, w, k1, k2, k3, k4, k5, k6⟩
      have hnext : span (off + m) (n - (tot + m)) ⊆ span off (n - tot) := by
        refine Set.union_subset_union subset_rfl (Set.image_mono ?_)
        rintro bn ⟨c1, c2⟩
        exact ⟨(Nat.div_le_div_right (Nat.le_add_right off m)).trans c1, by omega⟩
      have hstop : r'.2 = n ∨ r'.1 % BSIZE = 0 := by
        rcases hstop3 with hs | hs
        · simp only [BSIZE] at *
          omega
        · exact hs
      refine ⟨((hw1.trans hw2).trans hw3).mono (Set.union_subset hself hnext), ⟨by omega, hle3.2⟩,
        by omega, .inr hstop, fun _ bn c1 c2 => ?_, m + w, by omega, by omega, fun q hq => ?_, fun hq => k4 (by omega),
        by rwa [Nat.add_assoc, Nat.add_assoc] at k5, ?_⟩
      · by_cases hbn' : bn = off / BSIZE
        · subst hbn'
          have hkept := (hw2.trans hw3).kept (i, place (off / BSIZE)) hne
          exact fun hz => hne (hkept.symm.trans hz)
        · have hnext : off + m ≤ bn * BSIZE := by
            simp only [BSIZE] at *
            omega
          exact hblk3 (by omega) bn (Nat.div_le_of_le_mul (by rwa [Nat.mul_comm])) c2
      · by_cases hqm : q < m
        · rw [hget q (by omega)]
          exact Option.some_ne_none _
        · have := k3 (q - m) (by omega)
          rwa [show tot + m + (q - m) = tot + q by omega] at this
      · have hb2' : Overwritten sb i off m (fun q => src (tot + q)) s _ := fun j pos => by
          rw [hb2 j pos, hb1 j pos, show (s1.view sb).byteAt i = (s.view sb).byteAt i from funext (hb1 i)]
        refine hb2'.trans ?_
        have : (fun q => src (tot + (m + q))) = fun q => src (tot + m + q) := by
          funext q
          rw [Nat.add_assoc]
        rw [this]
        exact k6

omit hg in
theorem Dinode.size_grow {d : Dinode} (h : off < 2 ^ 32) : (d.grow off).size.toNat = max d.size.toNat off := by
  rw [Dinode.grow]
  split
  · rename_i hlt
    exact (UInt32.toNat_ofNat_of_lt' h).trans (Nat.max_eq_right (Nat.le_of_lt hlt)).symm
  · omega

omit hg in
theorem Dinode.grow_rest (d : Dinode) (off : Nat) : (d.grow off).type = d.type ∧ (d.grow off).major = d.major ∧
    (d.grow off).minor = d.minor ∧ (d.grow off).nlink = d.nlink ∧ (d.grow off).addrs = d.addrs := by
  rw [Dinode.grow]
  split <;> exact ⟨rfl, rfl, rfl, rfl, rfl⟩

def Accepts (x : Ino) (off n : UInt32) : Prop :=
  off.toNat ≤ x.size ∧ off.toNat + n.toNat ≤ MAXFILE * BSIZE

omit hg in
theorem accepts_iff_tests {off n : UInt32} {d : Dinode} (hsz : x.size = d.size.toNat) :
    Accepts x off n ↔ ¬ (d.size < off ∨ off + n < off) ∧ ¬ MAXFILE * BSIZE < (off + n).toNat := by
  rw [Accepts, hsz, not_or, UInt32.not_lt, UInt32.le_iff_toNat_le, wrap_iff]
  constructor
  · rintro ⟨h1, h2⟩
    have hwrap : ¬ 2 ^ 32 ≤ off.toNat + n.toNat := by
      simp only [MAXFILE, NDIRECT, NINDIRECT, BSIZE] at h2
      omega
    rw [toNat_add_of_not_wrap ((wrap_iff off n).not.mpr hwrap)]
    exact ⟨⟨h1, hwrap⟩, Nat.not_lt.mpr h2⟩
  · rintro ⟨⟨h1, hwrap⟩, h2⟩
    rw [toNat_add_of_not_wrap ((wrap_iff off n).not.mpr hwrap)] at h2
    exact ⟨h1, Nat.le_of_not_lt h2⟩

omit hg in
theorem wpe_writei_rejected {off n : UInt32} (hsz : x.size = (s.inode e).copy.size.toNat)
    (h : ¬ Accepts x off n) : wpe E (writei sb e src off n) (fun r s' => r = -1 ∧ s' = s) s := by
  rw [writei, wpe_bind]
  refine wpe_copyOf (wpe_ite.mpr ⟨fun _ => wpe_pure.mpr ⟨rfl, rfl⟩, fun h1 => wpe_ite.mpr
    ⟨fun _ => wpe_pure.mpr ⟨rfl, rfl⟩, fun h2 => absurd ((accepts_iff_tests hsz).mpr ⟨h1, h2⟩) h⟩⟩)

/-- The file after `w` bytes have been written at `off`, `tot` of which count. -/
def Ino.written (x : Ino) (off tot w : Nat) (src : Nat → Option UInt8) : Ino :=
  { x with size := max x.size (off + tot), byte := overwrite x.byte off w src }

/-- What `writei` does with a request that it accepts. -/
structure Writes (sb : Superblock) (S : Set Nat) (a : Abs) (i : Nat) (x : Ino) (src : Nat → Option UInt8) (off n tot : Nat)
    (s' : State) : Prop where
  le : tot ≤ n
  stops : tot = 0 ∨ tot = n ∨ (off + tot) % BSIZE = 0
  full : off + n ≤ x.size → ¬ Missing src n → tot = n
  rep : ∃ w, tot ≤ w ∧ w ≤ n ∧ (∀ q < w, src q ≠ none) ∧ (tot < w → Missing src n) ∧
    (tot = n ∨ NoBlock sb i (place ((off + tot) / BSIZE)) s' ∨
      w < n ∧ src w = none ∧ (off + w) / BSIZE = (off + tot) / BSIZE) ∧
    Rep sb (insert (sb.iblock i) (S ∪ (s'.view sb).addr i '' span off n)) s' (a.setIno i (some (x.written off tot w src)))

theorem wpe_writei {off n : UInt32} (h : Rep sb S s a) (ht : a.slot e = some t)
    (hl : a.lock e ≠ none) (hx : a.ino t.inum = some x) (ho : 1 ≤ s.outstanding) :
    wpe F (writei sb e src off n) (fun r s' => (¬ Accepts x off n ∧ r = -1 ∧ s' = s) ∨
      (Accepts x off n ∧ ∃ tot : Nat, r = tot ∧ Writes sb S a t.inum x src off.toNat n.toNat tot s')) s := by
  have hh := h.held ht hl
  have hw := h.whole_held hh
  have hxc := h.copy ht hl
  rw [hx, Option.some.injEq] at hxc
  have hsz : x.size = (s.inode e).copy.size.toNat := by rw [hxc]
  have hbyte : x.byte = (s.view sb).byteAt t.inum := by rw [hxc]
  have hsize := hw.size
  rw [hh.dinode, ← hsz] at hsize
  by_cases hAcc : Accepts x off n
  swap
  · exact wpe_mono (wpe_writei_rejected hsz hAcc) fun r s' hr => .inl ⟨hAcc, hr⟩
  obtain ⟨htest, hmax⟩ := (accepts_iff_tests hsz).mp hAcc
  rw [writei, wpe_bind]
  refine wpe_copyOf ?_
  rw [if_neg htest, if_neg hmax]
  have hacc := hAcc.1
  have hmax := hAcc.2
  refine wpe_seq (wpe_writeiLoop hg n.toNat off.toNat 0 hh ho (Nat.zero_le _) (by omega) (by omega)) ?_
  rintro ⟨off', tot⟩ s1 ⟨hw1, hle, hoff, hstop, hblk, w, k1, k2, k3, k4, k5, k6⟩
  dsimp only at hle hoff hstop hblk k1 k4 k5 ⊢
  simp only [Nat.zero_add] at k2 k3 k5 k6
  rw [Nat.sub_zero] at hoff
  have hh1 := hh.work hw1
  obtain ⟨c1, c2, c3, c4, hcopy⟩ := Dinode.fields_of_head (hw1.head t.inum)
  rw [hh1.dinode, hh.dinode] at c1 c2 c3 c4 hcopy
  rw [wpe_bind, wpe_setCopy]
  refine wpe_seq (wpe_iupdate hg hh1.uniq hh1.caches hh1.range (by rw [hw1.frame.outstanding]; exact ho)) ?_
  intro _ s2 hu
  have haddr := hu.addr hh1 (by rw [((s1.inode e).copy.grow_rest off').1]; exact hh1.typed)
    ((s1.inode e).copy.grow_rest off').2.2.2.2
  refine wpe_pure.mpr (.inr ⟨hAcc, tot, rfl, hle.2, by simpa [hoff] using hstop, fun hin hsrc => ?_, w,
    by simpa using k1, k2, k3, fun hlt => k4 (by simpa using hlt), k5.imp_right (.imp (fun hno => ?_) fun hnone => ?_), ?_⟩)
  · -- the block at `off'` was there
    rcases k5 with hn | hno | ⟨hlt, hnone, -⟩
    · exact hn
    · by_contra hne
      have hthere := hw.blocks (off' / BSIZE) (by
        rw [hh.dinode, ← hsz]
        exact lt_of_le_of_lt (Nat.div_mul_le_self off' BSIZE) (by omega))
      exact hthere ((hw1.kept (t.inum, place (off' / BSIZE)) hthere).symm.trans hno.2)
    · exact absurd ⟨w, hlt, hnone⟩ hsrc
  · rw [hoff] at hno
    exact ⟨by rw [hu.view]; exact hno.1, (haddr _ _).trans hno.2⟩
  · rwa [hoff] at hnone
  have hdsize : ((s1.inode e).copy.grow off').size.toNat = max x.size (off.toNat + tot) := by
    rw [Dinode.size_grow (by simp only [MAXFILE, NDIRECT, NINDIRECT, BSIZE] at *; omega), hcopy, ← hsz, hoff]
  obtain ⟨d1, d2, d3, d4, d5⟩ := (s1.inode e).copy.grow_rest off'
  rw [c1, show (s.inode e).copy.type = x.type by rw [hxc]] at d1
  rw [c2, show (s.inode e).copy.major = x.major by rw [hxc]] at d2
  rw [c3, show (s.inode e).copy.minor = x.minor by rw [hxc]] at d3
  rw [c4, show (s.inode e).copy.nlink = x.nlink by rw [hxc]] at d4
  have hrep := h.of_updated ht hl hw1 hu (by rw [d1, hxc]; exact hh.typed) d5 (by omega)
    (fun bn hbn => ?_) fun j pos hj => by rw [k6 j pos, if_neg hj]
  · have hov : (s1.view sb).byteAt t.inum = overwrite x.byte off.toNat w src := funext fun pos => by
      rw [k6, if_pos rfl, hbyte]
    rw [hdsize, d1, d2, d3, d4, hov] at hrep
    exact hrep
  · by_cases hold : bn * BSIZE < x.size
    · have hne := hw.blocks bn (by rw [hh.dinode, ← hsz]; exact hold)
      have hk := hw1.kept (t.inum, place bn) hne
      exact fun hz => hne (hk.symm.trans hz)
    · have := hAcc.1
      refine hblk (by omega) bn (Nat.div_le_of_le_mul ?_) (by omega)
      rw [Nat.mul_comm]
      omega

end Write

end Fs
end Xv6
