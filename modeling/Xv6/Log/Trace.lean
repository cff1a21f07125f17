import Xv6.Log.Model

/-!
# Xv6.Log.Trace

Which blocks the functions of the log write, in which order and with which contents.

The loops of `write_log` and `install_trans` read a block and write another one in each turn.
`foldl_bwrite` turns such a loop into a list of writes known in advance, once each read is known
not to see the writes of the earlier turns. From there on a loop is a list of writes (`bwrites`),
and `Xv6.Lib.Writes` says what it leaves on the disk.
-/

namespace Xv6
namespace Log

open Bytes Machine Function List

variable {m : Machine} {lh : LogHeader} {us vs : List (Nat × Block)} {L : Config} {b : Nat}

/-! ## Lists of writes -/

def Machine.bwrites (m : Machine) (ws : List (Nat × Block)) : Machine :=
  ws.foldl (fun m' w => m'.bwrite w.1 w.2) m

@[simp] theorem bwrites_nil (m : Machine) : m.bwrites [] = m := rfl

@[simp] theorem bwrites_cons (m : Machine) (w : Nat × Block) (ws : List (Nat × Block)) :
    m.bwrites (w :: ws) = (m.bwrite w.1 w.2).bwrites ws := rfl

@[simp] theorem bwrite_lh (m : Machine) (b : Nat) (v : Block) : (m.bwrite b v).lh = m.lh := rfl

@[simp] theorem bwrite_disk (m : Machine) (b : Nat) (v : Block) :
    (m.bwrite b v).disk = update m.disk b v := rfl

@[simp] theorem bwrite_writes (m : Machine) (b : Nat) (v : Block) :
    (m.bwrite b v).writes = m.writes ++ [(b, v)] := rfl

@[simp] theorem bwrite_bread (m : Machine) (b : Nat) (v : Block) :
    (m.bwrite b v).bread = update m.bread b v := by
  funext x
  by_cases h : x = b
  · subst h; simp [bread, bwrite]
  · simp [bread, bwrite, h]

theorem bwrites_snoc (m : Machine) (ws : List (Nat × Block)) (w : Nat × Block) :
    m.bwrites (ws ++ [w]) = (m.bwrites ws).bwrite w.1 w.2 := by
  simp [bwrites]

@[simp] theorem bwrites_lh (m : Machine) (ws : List (Nat × Block)) : (m.bwrites ws).lh = m.lh := by
  induction ws generalizing m with
  | nil => rfl
  | cons w ws ih => simp [ih]

@[simp] theorem bwrites_disk (m : Machine) (ws : List (Nat × Block)) :
    (m.bwrites ws).disk = Writes.apply ws m.disk := by
  induction ws generalizing m with
  | nil => rfl
  | cons w ws ih => simp [ih]

@[simp] theorem bwrites_bread (m : Machine) (ws : List (Nat × Block)) :
    (m.bwrites ws).bread = Writes.apply ws m.bread := by
  induction ws generalizing m with
  | nil => rfl
  | cons w ws ih => simp [ih]

@[simp] theorem bwrites_writes (m : Machine) (ws : List (Nat × Block)) : (m.bwrites ws).writes = m.writes ++ ws := by
  induction ws generalizing m with
  | nil => simp
  | cons w ws ih => simp [ih]

/-- A loop whose turn `i`, run after the writes of the turns before it, issues the write `ws[i]`. -/
theorem foldl_bwrite {f : Machine → Nat → Nat × Block} {ws : List (Nat × Block)}
    (h : ∀ i (hi : i < ws.length), f (m.bwrites (ws.take i)) i = ws[i]) :
    (range ws.length).foldl (fun m' i => m'.bwrite (f m' i).1 (f m' i).2) m = m.bwrites ws := by
  have key : ∀ k, k ≤ ws.length →
      (range k).foldl (fun m' i => m'.bwrite (f m' i).1 (f m' i).2) m =
        m.bwrites (ws.take k) := by
    intro k
    induction k with
    | zero => intro _; simp
    | succ k ih =>
      intro hk
      rw [range_succ, foldl_append, ih (by omega), foldl_cons, foldl_nil,
        h k (by omega), ← bwrites_snoc, take_succ_eq_append_getElem (by omega)]
  simpa using key ws.length (Nat.le_refl _)

/-! ## The header block -/

structure LogHeader.Names (lh : LogHeader) (us : List (Nat × Block)) : Prop where
  n_eq : lh.n = us.length
  block_eq : ∀ i (hi : i < us.length), lh.block i = us[i].1

structure HeadNames (buf : Block) (us : List (Nat × Block)) : Prop where
  n_eq : headN buf = us.length
  block_eq : ∀ i (hi : i < us.length), getLE buf (4 + 4 * i) 4 = us[i].1

theorem encode_entries (block : Nat → Nat) (b0 : Block) : ∀ k, k ≤ LOGSIZE →
      getLE ((range k).foldl (fun hb i => putLE hb (4 + 4 * i) 4 (block i)) b0) 0 4 = getLE b0 0 4 ∧ ∀ i, i < k →
        getLE ((range k).foldl (fun hb i => putLE hb (4 + 4 * i) 4 (block i)) b0) (4 + 4 * i) 4 =
          block i % 2 ^ 32 := by
  intro k
  induction k with
  | zero => intro _; exact ⟨rfl, fun i hi => absurd hi (by omega)⟩
  | succ k ih =>
    intro hk
    obtain ⟨hn, he⟩ := ih (by omega)
    simp only [range_succ, foldl_append, foldl_cons, foldl_nil]
    refine ⟨?_, fun i hi => ?_⟩
    · rw [getLE_putLE_disj (by omega), hn]
    · by_cases hik : i = k
      · subst hik
        rw [getLE_putLE_same (by simp only [BSIZE, LOGSIZE, MAXOPBLOCKS] at *; omega)]
        norm_num
      · rw [getLE_putLE_disj (by omega), he i (by omega)]

theorem headN_encode (lh : LogHeader) (buf : Block) (h0 : 0 ≤ lh.n) (h : lh.n ≤ LOGSIZE) :
    headN (lh.encode buf) = lh.n := by
  simp only [LOGSIZE, MAXOPBLOCKS] at h
  rw [headN, LogHeader.encode, (encode_entries lh.block _ lh.n.toNat (by simp; omega)).1,
    getLE_putLE_same (by simp [BSIZE])]
  have h32 : (BitVec.ofInt 32 lh.n).toNat % 256 ^ 4 = (BitVec.ofInt 32 lh.n).toNat :=
    Nat.mod_eq_of_lt (by have := (BitVec.ofInt 32 lh.n).isLt; norm_num; omega)
  rw [h32, BitVec.ofNat_toNat, BitVec.setWidth_eq, BitVec.toInt_ofInt]
  simp only [Int.bmod]
  omega

theorem headNames_encode (hl : lh.Names us)
    (hlen : us.length ≤ LOGSIZE) (hlt : ∀ u ∈ us, u.1 < 2 ^ 32) (buf : Block) : HeadNames (lh.encode buf) us := by
  have hn := hl.n_eq
  refine ⟨?_, fun i hi => ?_⟩
  · rw [headN_encode lh buf (by omega) (by omega), hn]
  · have he := (encode_entries lh.block (putLE buf 0 4 (BitVec.ofInt 32 lh.n).toNat) lh.n.toNat
      (by omega)).2 i (by omega)
    rw [LogHeader.encode, he, hl.block_eq i hi]
    exact Nat.mod_eq_of_lt (hlt _ (getElem_mem hi))

/-! ## The loops as lists of writes -/

def IsHome (L : Config) (b : Nat) : Prop := b < L.start ∨ L.start + L.size ≤ b

instance (L : Config) (b : Nat) : Decidable (IsHome L b) := inferInstanceAs (Decidable (_ ∨ _))

/-- The updates `us` are a transaction that fits the log: distinct home blocks, at most
`min(LOGSIZE, log.size - 1)` of them. -/
structure Fits (L : Config) (us : List (Nat × Block)) : Prop where
  nodup : (us.map Prod.fst).Nodup
  len_logsize : us.length ≤ LOGSIZE
  len_size : us.length ≤ L.size - 1
  home : ∀ u ∈ us, IsHome L u.1
  lt : ∀ u ∈ us, u.1 < 2 ^ 32

theorem Fits.nil (L : Config) : Fits L [] :=
  ⟨by simp, by simp, by simp, by simp, by simp⟩

def logArea (L : Config) (us : List (Nat × Block)) : List (Nat × Block) :=
  us.mapIdx fun i u => (L.start + i + 1, u.2)

@[simp] theorem length_logArea (L : Config) (us : List (Nat × Block)) :
    (logArea L us).length = us.length := by simp [logArea]

theorem logArea_map_fst (L : Config) (us : List (Nat × Block)) :
    (logArea L us).map Prod.fst = (range us.length).map fun i => L.start + i + 1 := by
  apply ext_getElem (by simp)
  intro i h1 h2
  simp [logArea]

theorem logArea_keys (h : b ∈ (logArea L us).map Prod.fst) : L.start < b ∧ b ≤ L.start + us.length := by
  rw [logArea_map_fst, mem_map] at h
  obtain ⟨i, hi, rfl⟩ := h
  rw [mem_range] at hi
  constructor <;> omega

theorem home_notMem_logArea (hf : Fits L us)
    (hb : IsHome L b) (hv : vs.Sublist (logArea L us)) : b ∉ vs.map Prod.fst := by
  intro h
  have := logArea_keys ((hv.map Prod.fst).subset h)
  have := hf.len_size
  have := L.size_pos
  rcases hb with hb | hb <;> omega

theorem logArea_notMem_home (hf : Fits L us) {i : Nat}
    (hi : i < us.length) (hv : vs.Sublist us) : L.start + i + 1 ∉ vs.map Prod.fst := by
  intro h
  obtain ⟨u, hu, he⟩ := mem_map.mp ((hv.map Prod.fst).subset h)
  have := hf.len_size
  rcases hf.home u hu with hb | hb <;> omega

theorem start_notMem_home (hf : Fits L us) (hv : vs.Sublist us) : L.start ∉ vs.map Prod.fst := by
  intro h
  obtain ⟨u, hu, he⟩ := mem_map.mp ((hv.map Prod.fst).subset h)
  have := L.size_pos
  rcases hf.home u hu with hb | hb <;> omega

theorem start_notMem_logArea (hv : vs.Sublist (logArea L us)) : L.start ∉ vs.map Prod.fst := by
  intro h
  have := logArea_keys ((hv.map Prod.fst).subset h)
  omega

theorem writeLog_eq (hf : Fits L us) (hl : m.lh.Names us) (hc : ∀ u ∈ us, m.bread u.1 = u.2) :
    writeLog L m = m.bwrites (logArea L us) := by
  have hn : m.lh.n.toNat = (logArea L us).length := by rw [hl.n_eq]; simp
  rw [writeLog, hn]
  apply foldl_bwrite (f := fun m' i => (L.start + i + 1, m'.bread (m.lh.block i)))
  intro i hi
  have hi' : i < us.length := by simpa using hi
  have hmem := getElem_mem hi'
  have hread : (m.bwrites ((logArea L us).take i)).bread us[i].1 = us[i].2 := by
    rw [bwrites_bread, Writes.apply_of_notMem, hc _ hmem]
    exact home_notMem_logArea hf (hf.home _ hmem) (take_sublist _ _)
  simp [logArea, hl.block_eq i hi'] at hread ⊢
  exact hread

theorem installTrans_eq (hf : Fits L us)
    (hl : m.lh.Names us) (ha : ∀ i (hi : i < us.length), m.bread (L.start + i + 1) = us[i].2) :
    installTrans L m = m.bwrites us := by
  have hn : m.lh.n.toNat = us.length := by rw [hl.n_eq]; simp
  rw [installTrans, hn]
  apply foldl_bwrite (f := fun m' i => (m.lh.block i, m'.bread (L.start + i + 1)))
  intro i hi
  have hread : (m.bwrites (us.take i)).bread (L.start + i + 1) = us[i].2 := by
    rw [bwrites_bread, Writes.apply_of_notMem, ha i hi]
    exact logArea_notMem_home hf hi (take_sublist _ _)
  simp only [hread, hl.block_eq i hi, Prod.eta]

theorem apply_logArea (d : Nat → Block) {i : Nat}
    (hi : i < us.length) : Writes.apply (logArea L us) d (L.start + i + 1) = us[i].2 := by
  apply Writes.apply_of_mem
  · rw [logArea_map_fst]
    exact nodup_range.map fun a b hab => by simpa using hab
  · simp only [logArea, mem_mapIdx]
    exact ⟨i, hi, rfl⟩

/-! ## Recording a block in the header -/

theorem slot_cases (h : 0 ≤ lh.n) (b : Nat) :
    ((lh.slot b : Int) = lh.n ∧ ∀ j : Nat, (j : Int) < lh.n → lh.block j ≠ b) ∨
      ((lh.slot b : Int) < lh.n ∧ lh.block (lh.slot b) = b) := by
  unfold LogHeader.slot
  cases hf : (range lh.n.toNat).find? fun i => lh.block i == b with
  | none =>
    left
    rw [find?_eq_none] at hf
    refine ⟨by simp [h], fun j hj hb => ?_⟩
    exact hf j (mem_range.mpr (by omega)) (by simpa using hb)
  | some j =>
    right
    have h1 := find?_some hf
    have h2 := mem_range.mp (mem_of_find?_eq_some hf)
    simp only [beq_iff_eq] at h1
    simp only [Option.getD_some]
    exact ⟨by omega, h1⟩

theorem add_of_mem (h : (lh.slot b : Int) < lh.n) (hb : lh.block (lh.slot b) = b) : lh.add b = lh := by
  have hsame : update lh.block (lh.slot b) b = lh.block := by
    funext j
    by_cases hj : j = lh.slot b
    · rw [hj, update_self, hb]
    · rw [update_of_ne hj]
  simp only [LogHeader.add, if_neg (show ¬ (lh.slot b : Int) = lh.n by omega), hsame]

theorem add_of_notMem (h : (lh.slot b : Int) = lh.n) :
    lh.add b = { n := lh.n + 1, block := update lh.block lh.n.toNat b } := by
  unfold LogHeader.add
  simp only [h, if_true]
  congr 2
  omega

end Log
end Xv6
