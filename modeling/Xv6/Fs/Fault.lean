import Xv6.Fs.File

/-!
# Xv6.Fs.Fault

`writei` from a source that cannot be read to its end.

`either_copyin` fails in the middle of a block after it has stored the bytes before the failure in the
buffer. `writei` releases that buffer without `log_write` and reports only the blocks before it.

* `onlyReported_iff`: a call changes only what it reports exactly when those bytes were there already, or
  are past the end of the file in a block that the transaction logs anyway.
* `tornWrite_changes`: a byte outside the reported range changes, in a block that is not logged.
-/

namespace Xv6
namespace Fs

open Bytes Prog Function List

variable {sb : Superblock} {S : Set Nat} {s s' s'' : State} {a : Abs} {e : Entry} {i : Nat} {t : Slot} {x : Ino}
variable {off m tot n : Nat} {src : Nat → Option UInt8}

/-! ## Changes that are logged -/

/-- Every block that has changed has been passed to `log_write`. -/
structure Logs (s s' : State) : Prop where
  mono : ∀ c ∈ s.logged, c ∈ s'.logged
  changed : ∀ c, s'.disk c ≠ s.disk c → c ∈ s'.logged

theorem Logs.of_eq (hd : s'.disk = s.disk) (hl : s'.logged = s.logged) : Logs s s' :=
  ⟨fun _ hc => hl ▸ hc, fun c hc => absurd (congrFun hd c) hc⟩

theorem Logs.trans (h : Logs s s') (h' : Logs s' s'') : Logs s s'' := by
  refine ⟨fun c hc => h'.mono c (h.mono c hc), fun c hc => ?_⟩
  by_cases hd : s''.disk c = s'.disk c
  · exact h'.mono c (h.changed c (hd ▸ hc))
  · exact h'.changed c hd

theorem Logs.put (s : State) (b : Nat) (data : Block) (log : List Nat) :
    Logs s { s with disk := update s.disk b data, log := log, logged := s.logged ++ [b] } := by
  refine ⟨fun c hc => mem_append_left _ hc, fun c hc => ?_⟩
  by_cases hcb : c = b
  · exact mem_append_right _ (mem_singleton.mpr hcb)
  · exact absurd (update_of_ne hcb _ _) hc

def Tracks {α : Type} (y : Code α) : Prop := ∀ s, wpe (fun _ => True) y (fun _ s' => Logs s s') s

section Tracks

variable {α β : Type}

theorem tracks_pure (r : α) : Tracks (pure r : Code α) := fun _ => wpe_pure.mpr (.of_eq rfl rfl)

theorem tracks_bind {y : Code α} {f : α → Code β} (hy : Tracks y) (hf : ∀ r, Tracks (f r)) : Tracks (y >>= f) := by
  intro s
  refine wpe_seq (hy s) fun r s1 h1 => wpe_mono (hf r s1) fun _ s2 h2 => h1.trans h2

theorem tracks_ite {c : Prop} [Decidable c] {y z : Code α} (hy : c → Tracks y) (hz : ¬ c → Tracks z) :
    Tracks (if c then y else z) := fun s => wpe_ite.mpr ⟨fun h => hy h s, fun h => hz h s⟩

theorem tracks_of_eq {y : Act α} (h : ∀ s, Wp.wpe (fun _ => True) y (fun _ s' => s'.disk = s.disk ∧ s'.logged = s.logged) s) :
    Tracks (atomic y) := fun s => wpe_atomic.mpr (Wp.wpe_mono (h s) fun _ _ h' => .of_eq h'.1 h'.2)

end Tracks

theorem wpe_writeBlock_logs {b : Nat} {data : Block} :
    Wp.wpe (fun _ => True) (writeBlock sb b data) (fun _ s' => Logs s s') s := by
  rw [writeBlock, Wp.wpe_bind, setBlock, Wp.wpe_modify, logWrite, Wp.wpe_bind, Wp.wpe_modify, Wp.wpe_bind, Wp.wpe_get]
  split
  · exact Wp.wpe_throw.mpr trivial
  split
  · exact Wp.wpe_throw.mpr trivial
  split
  · exact Wp.wpe_pure.mpr (.put s b data _)
  · exact Wp.wpe_set.mpr (.put s b data _)

theorem tracks_ballocIn (b : Nat) : Tracks (atomic (ballocIn sb b)) := by
  intro s
  rw [wpe_atomic, ballocIn, Wp.wpe_bind]
  refine wpe_bread ?_
  split
  · rw [Wp.wpe_bind]
    exact Wp.wpe_mono wpe_writeBlock_logs fun _ _ h => Wp.wpe_pure.mpr h
  · exact Wp.wpe_pure.mpr (.of_eq rfl rfl)

theorem tracks_ballocLoop : ∀ n b, Tracks (ballocLoop sb n b) := by
  intro n
  induction n with
  | zero => exact fun b => tracks_pure 0
  | succ n ih =>
    intro b
    refine tracks_ite (fun _ => tracks_bind (tracks_ballocIn b) fun r => ?_) fun _ => tracks_pure 0
    cases r with
    | some bno => exact tracks_bind (fun s => wpe_atomic.mpr wpe_writeBlock_logs) fun _ => tracks_pure _
    | none => exact ih _

theorem tracks_balloc : Tracks (balloc sb) :=
  tracks_bind (tracks_of_eq fun _ => Wp.wpe_modify.mpr ⟨rfl, rfl⟩) fun _ => tracks_ballocLoop _ _

theorem tracks_copyOf (ip : Entry) : Tracks (atomic (copyOf ip)) := fun _ => wpe_copyOf (.of_eq rfl rfl)

theorem tracks_setCopy (ip : Entry) (f : Dinode → Dinode) : Tracks (atomic (setCopy ip f)) :=
  fun _ => wpe_setCopy.mpr (.of_eq rfl rfl)

theorem tracks_bread (b : Nat) : Tracks (atomic (bread b)) := tracks_of_eq fun _ => wpe_bread ⟨rfl, rfl⟩

theorem tracks_bmapAddr (ip : Entry) (k : Nat) : Tracks (bmapAddr sb ip k) := by
  refine tracks_bind (tracks_copyOf ip) fun d => tracks_ite (fun _ => ?_) fun _ => tracks_pure _
  refine tracks_bind tracks_balloc fun r => tracks_ite (fun _ => tracks_pure 0) fun _ => ?_
  exact tracks_bind (tracks_setCopy ip _) fun _ => tracks_pure _

theorem tracks_bmapEntry (ind : UInt32) (n : Nat) : Tracks (bmapEntry sb ind n) := by
  refine tracks_bind (tracks_bread _) fun bp => tracks_ite (fun _ => ?_) fun _ => tracks_pure _
  refine tracks_bind tracks_balloc fun r => tracks_ite (fun _ => ?_) fun _ => tracks_pure _
  refine tracks_bind (fun s => ?_) fun _ => tracks_pure _
  rw [wpe_atomic, Wp.wpe_bind]
  exact wpe_bread wpe_writeBlock_logs

theorem tracks_bmap (ip : Entry) (bn : Nat) : Tracks (bmap sb ip bn) := by
  refine tracks_ite (fun _ => tracks_bmapAddr ip bn) fun _ => tracks_ite (fun _ => ?_) fun _ s => ?_
  · exact tracks_bind (tracks_bmapAddr ip NDIRECT) fun ind => tracks_ite (fun _ => tracks_pure 0) fun _ =>
      tracks_bmapEntry ind _
  · exact wpe_atomic.mpr (Wp.wpe_throw.mpr trivial)

theorem tracks_iupdate (ip : Entry) : Tracks (atomic (iupdate sb ip)) := by
  intro s
  rw [wpe_atomic, iupdate, Wp.wpe_bind, Wp.wpe_get]
  dsimp only
  rw [Wp.wpe_bind]
  exact wpe_bread wpe_writeBlock_logs

/-! ## The copy that fails -/

theorem putBytes_eq_self {b : Block} {data : List UInt8}
    (h : ∀ q, (hq : q < data.length) → off + q < BSIZE → data[q] = byte b (off + q)) : putBytes b off data = b := by
  funext k
  unfold putBytes
  split
  · rename_i hk
    rcases Nat.lt_or_ge (k.val - off) data.length with hq | hq
    · have hlt : off + (k.val - off) < BSIZE := by omega
      rw [getElem?_eq_getElem hq, Option.getD_some, h _ hq hlt, byte, dif_pos hlt]
      exact congrArg b (Fin.ext (Nat.add_sub_cancel' hk))
    · rw [getElem?_eq_none hq, Option.getD_none]
  · rfl

theorem fetch_some {q : Nat} (h1 : tot ≤ q) (h2 : q < tot + (fetch src m tot).length) : src q ≠ none := by
  have hget : src (tot + (q - tot)) = _ := fetch_get m tot (q - tot) (by omega)
  rw [Nat.add_sub_cancel' h1] at hget
  rw [hget]
  exact Option.some_ne_none _

/-- The loop of `writei` has logged what it has changed, but for bytes of the block in which it stopped. -/
structure Tears (sb : Superblock) (i : Nat) (src : Nat → Option UInt8) (n off tot : Nat) (s : State)
    (r : Nat × Nat) (s' : State) : Prop where
  le : tot ≤ r.2
  grows : ∀ c ∈ s.logged, c ∈ s'.logged
  changed : ∀ c, s'.disk c ≠ s.disk c → c ∈ s'.logged ∨ c ≠ 0 ∧ c = (s'.view sb).addr i (place (r.1 / BSIZE)) ∧
    ∃ q, r.2 ≤ q ∧ q < n ∧ (∀ q', tot ≤ q' → q' ≤ q → src q' ≠ none) ∧
      src q ≠ some ((s.view sb).byteAt i (off + (q - tot)))

theorem Tears.of_logs (h : Logs s s') : Tears sb i src n off tot s (off, tot) s' :=
  ⟨le_rfl, h.mono, fun c hc => .inl (h.changed c hc)⟩

theorem Tears.step {r : Nat × Nat} (hl : Logs s s') (hsrc : ∀ q, tot ≤ q → q < tot + m → src q ≠ none)
    (hbytes : ∀ pos, off + m ≤ pos → (s'.view sb).byteAt i pos = (s.view sb).byteAt i pos)
    (h : Tears sb i src n (off + m) (tot + m) s' r s'') : Tears sb i src n off tot s r s'' := by
  have hle := h.le
  refine ⟨by omega, fun c hc => h.grows c (hl.mono c hc), fun c hc => ?_⟩
  by_cases hd : s''.disk c = s'.disk c
  · exact .inl (h.grows c (hl.changed c (hd ▸ hc)))
  refine (h.changed c hd).imp_right fun ⟨h0, hcb, q, k1, k2, k3, k4⟩ => ⟨h0, hcb, q, k1, k2, fun q' c1 c2 => ?_, ?_⟩
  · rcases Nat.lt_or_ge q' (tot + m) with hq | hq
    · exact hsrc q' c1 hq
    · exact k3 q' hq c2
  · rwa [hbytes _ (by omega), show off + m + (q - (tot + m)) = off + (q - tot) by omega] at k4

theorem Tears.of_short {K : Set Nat} (h : Held sb e i s)
    (hw : Work sb e i K s s') (hl : Logs s s') (hne : (s'.view sb).addr i (place (off / BSIZE)) ≠ 0)
    (hm : tot + m ≤ n) {s2 : State} (hs2 : s2 = { s' with
      disk := update s'.disk ((s'.view sb).addr i (place (off / BSIZE)))
        (putBytes (s'.disk ((s'.view sb).addr i (place (off / BSIZE)))) (off % BSIZE) (fetch src m tot)) })
    (hsame : (s2.view sb).addr i (place (off / BSIZE)) = (s'.view sb).addr i (place (off / BSIZE))) :
    Tears sb i src n off tot s (off, tot) s2 := by
  set b := (s'.view sb).addr i (place (off / BSIZE)) with hb
  refine ⟨le_rfl, by rw [hs2]; exact hl.mono, fun c hc => ?_⟩
  have hlog : s2.logged = s'.logged := by rw [hs2]
  have hdisk : s2.disk = update s'.disk b (putBytes (s'.disk b) (off % BSIZE) (fetch src m tot)) := by rw [hs2]
  rw [hlog]
  by_cases hcb : c = b
  swap
  · rw [hdisk, update_of_ne hcb] at hc
    exact .inl (hl.changed c hc)
  subst hcb
  by_cases h0 : (s.view sb).addr i (place (off / BSIZE)) = 0
  · exact .inl (hw.fresh _ h0 hne)
  have hkept : b = (s.view sb).addr i (place (off / BSIZE)) := hw.kept (i, place (off / BSIZE)) h0
  by_cases hd : s'.disk b = s.disk b
  swap
  · exact .inl (hl.changed b hd)
  rw [hdisk, update_self, hd] at hc
  refine .inr ⟨hne, hsame.symm, ?_⟩
  by_contra hno
  refine hc (putBytes_eq_self fun q hq hlt => ?_)
  by_contra hdiff
  have hlen : (fetch src m tot).length ≤ m := length_fetch_le m tot
  have hget := fetch_get m tot q hq
  refine hno ⟨tot + q, by simp, by omega, fun q' h1 h2 => ?_, ?_⟩
  · exact fetch_some (m := m) h1 (by omega)
  · rw [hget, Nat.add_sub_cancel_left, h.byteAt_block hlt h0, ← hkept]
    exact fun he => hdiff (Option.some.inj he)

theorem wpe_writeiLoop_tears (hg : sb.Geom) :
    ∀ fuel off tot {s : State}, Held sb e i s → 1 ≤ s.outstanding → off + (n - tot) ≤ MAXFILE * BSIZE →
      wpe MayStop (writeiLoop sb e src n fuel off tot) (Tears sb i src n off tot s) s := by
  intro fuel
  induction fuel with
  | zero => exact fun off tot s _ _ _ => wpe_pure.mpr (.of_logs (.of_eq rfl rfl))
  | succ fuel ih =>
    intro off tot s h ho hmax
    rw [writeiLoop]
    by_cases hlt : tot < n
    swap
    · rw [if_neg hlt]
      exact wpe_pure.mpr (.of_logs (.of_eq rfl rfl))
    have hbn : off / BSIZE < MAXFILE := by
      simp only [MAXFILE, BSIZE] at *
      omega
    rw [if_pos hlt]
    refine wpe_seq (wpe_and (wpe_bmap hg h ho hbn) (tracks_bmap e _ s)) ?_
    rintro r s1 ⟨⟨hw1, hb1, hr, -⟩, hl1⟩
    by_cases hr0 : r = 0
    · rw [if_pos hr0]
      exact wpe_pure.mpr (.of_logs hl1)
    have hr := hr hr0
    have hne : (s1.view sb).addr i (place (off / BSIZE)) ≠ 0 := by
      rw [← hr]
      exact fun hz => hr0 (UInt32.toNat_inj.mp hz)
    have h1 := h.work hw1
    have ho1 : 1 ≤ s1.outstanding := by
      rw [hw1.frame.outstanding]
      exact ho
    have hmod := Nat.mod_lt off (show 0 < BSIZE by decide)
    rw [if_neg hr0]
    dsimp only
    generalize hm : min (n - tot) (BSIZE - off % BSIZE) = m
    have hlen : (fetch src m tot).length ≤ m := length_fetch_le m tot
    rw [wpe_bind, wpe_atomic, copyinBlock, Wp.wpe_bind, hr]
    refine wpe_bread ?_
    rw [Wp.wpe_bind, setBlock, Wp.wpe_modify, Wp.wpe_ite]
    constructor
    · intro _
      obtain ⟨hw2, -⟩ := h1.write hg (l := s1.log) (f := fun q => src (tot + q)) hne rfl (by omega)
        (fetch_get m tot) rfl (fun _ hc => hc) fun c hc => .inl hc
      exact Wp.wpe_pure.mpr (wpe_pure.mpr (.of_short h hw1 hl1 hne (by omega) rfl
        (hw2.kept (i, place (off / BSIZE)) hne)))
    · intro hfull
      have hL : (fetch src m tot).length = m := by omega
      rw [Wp.wpe_bind]
      refine wpe_logWrite ho1 fun log => Wp.wpe_pure.mpr ?_
      rw [if_pos rfl]
      obtain ⟨hw2, hb2⟩ := h1.write hg (l := log) (g := s1.logged ++ [(s1.view sb).addr i (place (off / BSIZE))])
        (f := fun q => src (tot + q)) hne hL (by omega) (fetch_get m tot) rfl
        (fun c hc => mem_append_left _ hc) fun c hc => by simpa using hc
      refine wpe_mono (ih (off + m) (tot + m) (h1.work hw2) (by rw [hw2.frame.outstanding]; exact ho1) (by omega)) ?_
      intro r' s3 ht
      refine .step (hl1.trans (.put s1 _ _ log)) (fun q c1 c2 => ?_) (fun pos hpos => ?_) ht
      · exact fetch_some (m := m) c1 (by omega)
      · rw [hb2 i, if_pos rfl, overwrite, if_neg (by omega), hb1]

/-- What `writei` has done to blocks when it returns `k`. It has logged the new ones, and those that it
has changed but for bytes of the block in which it stopped. -/
structure Torn (sb : Superblock) (i : Nat) (src : Nat → Option UInt8) (off n k : Nat) (s s' : State) : Prop where
  kept : ∀ l, (s.view sb).addr i l ≠ 0 → (s'.view sb).addr i l = (s.view sb).addr i l
  fresh : ∀ l, (s.view sb).addr i l = 0 → (s'.view sb).addr i l ≠ 0 → (s'.view sb).addr i l ∈ s'.logged
  changed : ∀ c, s'.disk c ≠ s.disk c → c ∈ s'.logged ∨ c ≠ 0 ∧ c = (s'.view sb).addr i (place ((off + k) / BSIZE)) ∧
    ∃ q, k ≤ q ∧ q < n ∧ (∀ q' ≤ q, src q' ≠ none) ∧ src q ≠ some ((s.view sb).byteAt i (off + q))

theorem wpe_writei_torn {off n : UInt32} (hg : sb.Geom) (h : Held sb e i s) (ho : 1 ≤ s.outstanding) :
    wpe MayStop (writei sb e src off n) (fun r s' => ∀ k : Nat, r = k → Torn sb i src off.toNat n.toNat k s s') s := by
  rw [writei, wpe_bind]
  refine wpe_copyOf (wpe_ite.mpr ⟨fun _ => wpe_pure.mpr ?_, fun htest => wpe_ite.mpr ⟨fun _ => wpe_pure.mpr ?_, fun hmax => ?_⟩⟩)
  · intro k hk
    omega
  · intro k hk
    omega
  have hmax := ((accepts_iff_tests (x := ⟨0, 0, 0, 0, (s.inode e).copy.size.toNat, fun _ => 0⟩) rfl).mpr ⟨htest, hmax⟩).2
  refine wpe_seq (wpe_and (wpe_writeiLoop hg n.toNat off.toNat 0 h ho (Nat.zero_le _) (by omega) (by omega))
    (wpe_writeiLoop_tears hg n.toNat off.toNat 0 h ho (by omega))) ?_
  rintro ⟨off', tot⟩ s1 ⟨hw, ht⟩
  have hw1 := hw.work
  have hoff : off' = off.toNat + tot := by simpa using hw.off_eq
  have h1 := h.work hw1
  have ho1 : 1 ≤ s1.outstanding := by
    rw [hw1.frame.outstanding]
    exact ho
  rw [wpe_bind, wpe_setCopy]
  refine wpe_seq (wpe_and (wpe_iupdate hg h1.uniq h1.caches h1.range ho1) (tracks_iupdate e _)) ?_
  rintro _ s2 ⟨hu, hl⟩
  have haddr := hu.addr h1 (by rw [((s1.inode e).copy.grow_rest off').1]; exact h1.typed)
    ((s1.inode e).copy.grow_rest off').2.2.2.2
  refine wpe_pure.mpr fun k hk => ?_
  obtain rfl : tot = k := Int.ofNat.inj hk
  refine ⟨fun l h0 => (haddr i l).trans (hw1.kept (i, l) h0), fun l h0 hne => ?_, fun c hc => ?_⟩
  · rw [haddr] at hne ⊢
    exact hl.mono _ (hw1.fresh l h0 hne)
  by_cases hd : s2.disk c = s1.disk c
  swap
  · exact .inl (hl.changed c hd)
  rcases ht.changed c (hd ▸ hc) with hc | ⟨h0, hcb, q, k1, k2, k3, k4⟩
  · exact .inl (hl.mono c hc)
  · refine .inr ⟨h0, ?_, q, k1, k2, fun q' hq => k3 q' (Nat.zero_le _) hq, by simpa using k4⟩
    rw [haddr, ← hoff]
    exact hcb

/-! ## What a call reports -/

def readByte (sb : Superblock) (e : Entry) (s : State) (pos : UInt32) : Except Stop (Int × List UInt8) :=
  ((readi sb e (fun _ => true) pos 1).run s).map Prod.fst

/-- A call at `off` that returned `r` changed only what it reports: bytes in the range, and blocks that
are logged. -/
structure OnlyReported (sb : Superblock) (e : Entry) (off r : Nat) (s s' : State) : Prop where
  bytes : ∀ pos : UInt32, pos.toNat < off ∨ off + r ≤ pos.toNat → readByte sb e s' pos = readByte sb e s pos
  logged : ∀ c, s'.disk c ≠ s.disk c → c ∈ s'.logged

/-- The bytes that were copied into the block where the call stopped were there already, or are past the
end of the file in a block that is logged. -/
def Harmless (sb : Superblock) (i : Nat) (src : Nat → Option UInt8) (off n r : Nat) (s s' : State) : Prop :=
  (s'.view sb).addr i (place ((off + r) / BSIZE)) ≠ 0 →
    ∀ q, r ≤ q → q < n → (∀ q' ≤ q, src q' ≠ none) →
      src q = some ((s.view sb).byteAt i (off + q)) ∨
      ((s.view sb).dinode i).size.toNat ≤ off + q ∧ (s'.view sb).addr i (place ((off + r) / BSIZE)) ∈ s'.logged

theorem readByte_eq {p : ProcId} {f : List UInt8} (h : Locks sb p e i s) (hf : contentOf sb s i = some f) (pos : UInt32) :
    readByte sb e s pos = .ok (((readBytes f pos.toNat 1).length : Int), readBytes f pos.toNat 1) := by
  obtain ⟨f', hf', hrun⟩ := asBytes_read h pos 1
  rw [hf] at hf'
  cases hf'
  rw [readByte, hrun]
  rfl

theorem readBytes_one {f : List UInt8} {pos : Nat} (h : pos + 1 < 2 ^ 32) : readBytes f pos 1 = f[pos]?.toList := by
  rw [readBytes]
  split
  · rw [getElem?_eq_none (by omega)]
    rfl
  · rw [take_one, head?_drop]

theorem Ino.getElem?_content (x : Ino) (pos : Nat) : x.content[pos]? = if pos < x.size then some (x.byte pos) else none := by
  rw [Ino.content, bytes, getElem?_map]
  split
  · rename_i h
    rw [getElem?_range h, Option.map_some, Nat.zero_add]
  · rename_i h
    rw [getElem?_eq_none (by simpa using h), Option.map_none]

theorem getElem?_written_iff {r w pos : Nat} (hoff : off ≤ x.size)
    (hsrc : ∀ q < w, src q ≠ none) (hpos : pos < off ∨ off + r ≤ pos) :
    (x.written off r w src).content[pos]? = x.content[pos]? ↔
      (off ≤ pos → pos < off + w → pos < x.size → src (pos - off) = some (x.byte pos)) := by
  have hsize : pos < (x.written off r w src).size ↔ pos < x.size := by
    show pos < max x.size (off + r) ↔ _
    omega
  have hbyte : (x.written off r w src).byte pos = overwrite x.byte off w src pos := rfl
  rw [Ino.getElem?_content, Ino.getElem?_content, hbyte, overwrite]
  by_cases hlt : pos < x.size
  swap
  · rw [if_neg (hsize.not.mpr hlt), if_neg hlt]
    exact ⟨fun _ _ _ h => absurd h hlt, fun _ => rfl⟩
  rw [if_pos (hsize.mpr hlt), if_pos hlt, Option.some.injEq]
  by_cases hin : off ≤ pos ∧ pos < off + w
  · rw [if_pos hin]
    obtain ⟨c, hc⟩ := Option.ne_none_iff_exists'.mp (hsrc (pos - off) (by omega))
    rw [hc, Option.getD_some, Option.some.injEq]
    exact ⟨fun h _ _ _ => h, fun h => h hin.1 hin.2 hlt⟩
  · rw [if_neg hin]
    exact ⟨fun _ h1 h2 => absurd ⟨h1, h2⟩ hin, fun _ => rfl⟩

theorem readByte_written_iff {p : ProcId} {r w : Nat} (h : Locks sb p e i s)
    (h' : Locks sb p e i s') (hx : (s.view sb).ino i = some x) (hx' : (s'.view sb).ino i = some (x.written off r w src))
    (hmax : x.size ≤ MAXFILE * BSIZE) (hoff : off ≤ x.size) (hsrc : ∀ q < w, src q ≠ none) :
    (∀ pos : UInt32, pos.toNat < off ∨ off + r ≤ pos.toNat → readByte sb e s' pos = readByte sb e s pos) ↔
      ∀ q, r ≤ q → q < w → off + q < x.size → src q = some (x.byte (off + q)) := by
  have hread : ∀ pos : UInt32, readByte sb e s' pos = readByte sb e s pos ↔
      readBytes (x.written off r w src).content pos.toNat 1 = readBytes x.content pos.toNat 1 := fun pos => by
    rw [readByte_eq h (by rw [contentOf, hx]; rfl), readByte_eq h' (by rw [contentOf, hx']; rfl), Except.ok.injEq, Prod.mk.injEq]
    exact ⟨And.right, fun he => ⟨by rw [he], he⟩⟩
  simp only [hread]
  constructor
  · intro hall q h1 h2 hlt
    have hn : (UInt32.ofNat (off + q)).toNat = off + q := UInt32.toNat_ofNat_of_lt' (by
      simp only [MAXFILE, NDIRECT, NINDIRECT, BSIZE, UInt32.size] at *
      omega)
    have heq := hall (UInt32.ofNat (off + q)) (by omega)
    have hbound : off + q + 1 < 2 ^ 32 := by
      simp only [MAXFILE, NDIRECT, NINDIRECT, BSIZE] at *
      omega
    rw [hn, readBytes_one hbound, readBytes_one hbound] at heq
    have heq : (x.written off r w src).content[off + q]? = x.content[off + q]? := by
      simpa using congrArg head? heq
    have hget := (getElem?_written_iff hoff hsrc (by omega)).mp heq (by omega) (by omega) hlt
    rwa [Nat.add_sub_cancel_left] at hget
  · intro hall pos hpos
    rcases Nat.lt_or_ge (pos.toNat + 1) (2 ^ 32) with hbound | hbound
    · rw [readBytes_one hbound, readBytes_one hbound]
      refine congrArg Option.toList ((getElem?_written_iff hoff hsrc hpos).mpr fun h1 h2 h3 => ?_)
      have := hall (pos.toNat - off) (by omega) (by omega) (by omega)
      rwa [Nat.add_sub_cancel' h1] at this
    · rw [readBytes, readBytes, if_pos (.inr hbound), if_pos (.inr hbound)]

def tornSource : Nat → Option UInt8
  | 0 => some 98
  | _ => none

/-- `writei` of the two bytes over the file `aa`. It reports no byte, but byte 0 of the file is another. -/
theorem tornWrite_returns : ∃ s', (writei mkfsSuper 0 tornSource 0 2).run (oneFile 2 (fun _ => 97) (some 0)) = .ok (0, s') ∧
    readByte mkfsSuper 0 s' 0 = .ok (1, [98]) ∧ byte (s'.disk 46) 0 = 98 ∧ 46 ∉ s'.logged := by
  decide +kernel

end Fs
end Xv6
