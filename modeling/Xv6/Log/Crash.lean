import Xv6.Log.Trace
import Xv6.Lib.Trans

/-!
# Xv6.Log.Crash

Crash atomicity of the log.

A run is any sequence of transactions and crashes: a transaction that commits in full, a crash
after any number of the block writes that `commit` issues, then any number of recoveries that crash
after any number of their own writes, and a recovery that completes. `committed` collects the
transactions whose first `write_head` reached the disk.

`Recoverable d S` is the invariant of the disk while the machine is down: the header names some
updates (none, when the log is clean), the log area holds their contents, and writing them home
gives `S`. It holds at every crash point of `commit` (`commit_crash`) and of recovery
(`recover_crash`), since neither the header nor the log area is written while a committed
transaction is installed. `crash_atomicity` is the result.
-/

namespace Xv6
namespace Log

open Bytes Machine Function Writes List

variable {L : Config} {m : Machine} {d S d0 : Nat → Block} {us : List (Nat × Block)}

/-- A transaction that fits the log. -/
structure Txn (L : Config) where
  updates : List (Nat × Block)
  fits : Fits L updates

/-- The machine, whether it is up, and the transactions committed so far. -/
structure Sys (L : Config) where
  m : Machine
  up : Bool
  committed : List (Txn L)

def powerOn (d : Nat → Block) : Machine :=
  { disk := d, cache := fun _ => none, lh := { n := 0, block := fun _ => 0 }, writes := [] }

def Sys.boot (d : Nat → Block) : Sys L := { m := powerOn d, up := false, committed := [] }

inductive Event (L : Config) where
  /-- A transaction commits in full. -/
  | commit (t : Txn L)
  /-- The machine stops after `k` of the writes of the transaction's `commit`. -/
  | crashCommit (t : Txn L) (k : Nat)
  /-- Recovery completes. -/
  | recover
  /-- The machine stops after `k` of the writes of recovery. -/
  | crashRecover (k : Nat)

def headReached (L : Config) (ws : List (Nat × Block)) : Bool := ws.any fun w => w.1 == L.start

/-- The transaction counts as committed once its header is among the writes `ws` done. -/
def record (cs : List (Txn L)) (t : Txn L) (ws : List (Nat × Block)) : List (Txn L) :=
  if headReached L ws then cs ++ [t] else cs

def step (s : Sys L) : Event L → Option (Sys L)
  | .commit t =>
    if s.up then
      (logUpdates L t.updates { s.m with writes := [] }).map fun m =>
        let m' := commit L m
        { m := m', up := true, committed := record s.committed t m'.writes }
    else none
  | .crashCommit t k =>
    if s.up then
      (logUpdates L t.updates { s.m with writes := [] }).map fun m =>
        let ws := (commit L m).writes.take k
        { m := powerOn (apply ws s.m.disk), up := false,
          committed := record s.committed t ws }
    else none
  | .recover =>
    if s.up then none
    else some { s with m := recoverFromLog L s.m, up := true }
  | .crashRecover k =>
    if s.up then none
    else
      let ws := (recoverFromLog L s.m).writes.take k
      some { s with m := powerOn (apply ws s.m.disk) }

def afterTxns : List (Txn L) → (Nat → Block) → Nat → Block
  | [], d => d
  | t :: ts, d => afterTxns ts (apply t.updates d)

theorem afterTxns_snoc (ts : List (Txn L)) (t : Txn L) (d : Nat → Block) :
    afterTxns (ts ++ [t]) d = apply t.updates (afterTxns ts d) := by
  induction ts generalizing d with
  | nil => rfl
  | cons u ts ih => simp [afterTxns, ih]

/-! ## Logging the updates -/

theorem slot_of_notMem {lh : LogHeader} {ps : List (Nat × Block)} (hl : lh.Names ps) {b : Nat}
    (hb : b ∉ ps.map Prod.fst) : lh.slot b = ps.length := by
  have hn : lh.n.toNat = ps.length := by rw [hl.n_eq]; simp
  have hnone : (range lh.n.toNat).find? (fun i => lh.block i == b) = none := by
    rw [find?_eq_none]
    intro i hi
    rw [hn, mem_range] at hi
    simp only [beq_iff_eq, hl.block_eq i hi]
    rintro rfl
    exact hb (mem_map_of_mem (getElem_mem hi))
  rw [LogHeader.slot, hnone, Option.getD_none, hn]

@[simp] theorem modify_bread (m : Machine) (b : Nat) (v : Block) :
    (m.modify b v).bread = update m.bread b v := by
  funext x
  by_cases h : x = b
  · subst h; simp [bread, Machine.modify]
  · simp [bread, Machine.modify, h]

theorem logWrite_new {ps : List (Nat × Block)} (hl : m.lh.Names ps) {u : Nat × Block}
    (hu : u.1 ∉ ps.map Prod.fst) (h1 : ps.length < LOGSIZE) (h2 : ps.length < L.size - 1) :
    ∃ m', logWrite L m u.1 = some m' ∧ m'.lh.Names (ps ++ [u]) ∧ m'.bread = m.bread ∧
      m'.disk = m.disk ∧ m'.writes = m.writes := by
  have hn := hl.n_eq
  have hs := slot_of_notMem hl hu
  let lh' : LogHeader := { n := m.lh.n + 1, block := update m.lh.block ps.length u.1 }
  refine ⟨{ m with lh := lh' }, ?_, ⟨?_, fun i hi => ?_⟩, rfl, rfl, rfl⟩
  · rw [logWrite, if_neg (by omega)]
    simp [LogHeader.add, hs, hn, lh']
  · simp [lh', hn]
  · by_cases hi' : i < ps.length
    · show update m.lh.block ps.length u.1 i = _
      rw [update_of_ne (by omega), hl.block_eq i hi', getElem_append_left hi']
    · have hi'' : i = ps.length := by simp at hi; omega
      subst hi''
      simp [lh']

/-- Logging distinct blocks never panics; the header then names them in order, and the cache
holds their new contents. The induction carries the updates `ps` logged before. -/
theorem logUpdates_spec : ∀ (us ps : List (Nat × Block)) (m : Machine), m.lh.Names ps → Fits L (ps ++ us) →
      ∃ m', logUpdates L us m = some m' ∧ m'.lh.Names (ps ++ us) ∧
        m'.bread = apply us m.bread ∧ m'.disk = m.disk ∧ m'.writes = m.writes := by
  intro us
  induction us with
  | nil => intro ps m hl _; exact ⟨m, rfl, by simpa using hl, rfl, rfl, rfl⟩
  | cons u us ih =>
    intro ps m hl hf
    have hnd := hf.nodup
    have h1 := hf.len_logsize
    have h2 := hf.len_size
    simp only [length_append, length_cons] at h1 h2
    have hu : u.1 ∉ ps.map Prod.fst := by
      intro hu
      simp only [map_append, map_cons] at hnd
      exact (nodup_append.mp hnd).2.2 _ hu _ (by simp) rfl
    obtain ⟨m1, hw, hl1, hb1, hd1, hws1⟩ :=
      logWrite_new (L := L) (m := m.modify u.1 u.2) hl hu (by omega) (by omega)
    obtain ⟨m2, hw2, hl2, hb2, hd2, hws2⟩ := ih (ps ++ [u]) m1 hl1 (by simpa using hf)
    refine ⟨m2, ?_, by simpa using hl2, ?_, by rw [hd2, hd1]; rfl, by rw [hws2, hws1]; rfl⟩
    · rw [logUpdates, hw]; exact hw2
    · rw [hb2, hb1, modify_bread]; rfl

/-! ## The writes of `commit` and of recovery -/

/-- The machine is up between transactions: the cache agrees with the disk, the log is empty on
disk and in memory, and the home blocks are `S`. -/
structure Clean (L : Config) (m : Machine) (S : Nat → Block) : Prop where
  coherent : m.bread = m.disk
  head : headN (m.disk L.start) = 0
  lh_n : m.lh.n = 0
  home : ∀ b, IsHome L b → m.disk b = S b

/-- While the machine is down: the header names updates `us` whose contents are in the log area,
and writing them home gives `S`. -/
def Recoverable (L : Config) (d S : Nat → Block) : Prop :=
  ∃ us, Fits L us ∧ HeadNames (d L.start) us ∧
    (∀ i (hi : i < us.length), d (L.start + i + 1) = us[i].2) ∧
    ∀ b, IsHome L b → apply us d b = S b

theorem headNames_nil {buf : Block} (h : headN buf = 0) : HeadNames buf [] :=
  ⟨by simpa using h, fun i hi => absurd hi (by simp)⟩

theorem recoverable_of_clean (hh : headN (d L.start) = 0) (hs : ∀ b, IsHome L b → d b = S b) : Recoverable L d S :=
  ⟨[], .nil L, headNames_nil hh, fun i hi => absurd hi (by simp), by simpa using hs⟩

theorem start_not_home : ¬ IsHome L L.start := by
  have := L.size_pos
  rintro (h | h) <;> omega

theorem update_start_home (d : Nat → Block) (v : Block) {b : Nat} (hb : IsHome L b) :
    update d L.start v b = d b := by
  apply update_of_ne
  rintro rfl
  exact start_not_home hb

theorem headN_clear (lh : LogHeader) (buf : Block) : headN (({ lh with n := 0 } : LogHeader).encode buf) = 0 :=
  headN_encode { lh with n := 0 } buf (Int.le_refl 0) (by simp)

theorem recover_writes (hf : Fits L us) (hh : HeadNames (d L.start) us)
    (ha : ∀ i (hi : i < us.length), d (L.start + i + 1) = us[i].2) : ∃ h0 : Block, headN h0 = 0 ∧
      recoverFromLog L (powerOn d) = clearN ((readHead L (powerOn d)).bwrites (us ++ [(L.start, h0)])) := by
  have hl : (readHead L (powerOn d)).lh.Names us := by
    refine ⟨hh.n_eq, fun i hi => ?_⟩
    have hlt : i < (headN (d L.start)).toNat := by rw [hh.n_eq]; simpa using hi
    simp only [readHead, powerOn, bread, Option.getD_none, hlt, if_true]
    exact hh.block_eq i hi
  have hi := installTrans_eq (m := readHead L (powerOn d)) hf hl ha
  refine ⟨_, ?_, by rw [recoverFromLog, hi, bwrites_snoc]; rfl⟩
  exact headN_clear _ _

theorem recover_clean (h : Recoverable L d S) : Clean L (recoverFromLog L (powerOn d)) S := by
  obtain ⟨us, hf, hh, ha, hs⟩ := h
  obtain ⟨h0, hz, he⟩ := recover_writes hf hh ha
  have hr : (readHead L (powerOn d)).bread = (readHead L (powerOn d)).disk := rfl
  refine ⟨?_, ?_, ?_, fun b hb => ?_⟩
  · rw [he]
    show (Machine.bwrites _ _).bread = (Machine.bwrites _ _).disk
    rw [bwrites_bread, bwrites_disk, hr]
  · rw [he]
    show headN ((Machine.bwrites _ _).disk L.start) = 0
    simpa [apply_append] using hz
  · rw [he]; rfl
  · rw [he]
    show (Machine.bwrites _ _).disk b = S b
    rw [bwrites_disk, apply_append, apply_cons, apply_nil,
      update_start_home _ _ hb]
    exact hs b hb

/-- A crash at any point of recovery leaves a recoverable disk. -/
theorem recover_crash (h : Recoverable L d S) (k : Nat) :
    Recoverable L (apply ((recoverFromLog L (powerOn d)).writes.take k) d) S := by
  obtain ⟨us, hf, hh, ha, hs⟩ := h
  obtain ⟨h0, hz, he⟩ := recover_writes hf hh ha
  have hw : (recoverFromLog L (powerOn d)).writes = us ++ [(L.start, h0)] := by
    rw [he]
    show (Machine.bwrites _ _).writes = _
    rw [bwrites_writes]; rfl
  rw [hw]
  by_cases hk : k ≤ us.length
  · -- some of the updates are installed; header and log area are as before
    rw [take_append_of_le_length hk]
    refine ⟨us, hf, ?_, fun i hi => ?_, fun b hb => ?_⟩
    · rw [apply_of_notMem (start_notMem_home hf (take_sublist _ _))]; exact hh
    · rw [apply_of_notMem (logArea_notMem_home hf hi (take_sublist _ _))]; exact ha i hi
    · rw [apply_apply_take]; exact hs b hb
  · -- the header is cleared
    rw [take_of_length_le (by simp; omega)]
    apply recoverable_of_clean
    · simpa [apply_append] using hz
    · intro b hb
      rw [apply_append, apply_cons, apply_nil, update_start_home _ _ hb]
      exact hs b hb

/-- `commit` of logged updates: the log area, the header, the home blocks, the cleared header. -/
theorem commit_writes (hf : Fits L us) (hne : us ≠ []) (hl : m.lh.Names us) (hc : ∀ u ∈ us, m.bread u.1 = u.2) :
    ∃ h1 h0 : Block, HeadNames h1 us ∧ headN h0 = 0 ∧ commit L m =
        clearN (m.bwrites (logArea L us ++ (L.start, h1) :: (us ++ [(L.start, h0)]))) := by
  have hpos : 0 < m.lh.n := by
    rw [hl.n_eq]
    have := length_pos_iff.mpr hne
    omega
  have hwl := writeLog_eq hf hl hc
  have hwh : ∀ h1, (m.bwrites (logArea L us)).bwrite L.start h1 =
      m.bwrites (logArea L us ++ [(L.start, h1)]) := fun h1 => by rw [bwrites_snoc]
  obtain ⟨h1, hh1, hm1⟩ : ∃ h1, HeadNames h1 us ∧
      writeHead L (writeLog L m) = m.bwrites (logArea L us ++ [(L.start, h1)]) := by
    refine ⟨_, ?_, by rw [hwl, writeHead, hwh]⟩
    exact headNames_encode (by simpa using hl) hf.len_logsize hf.lt _
  have hin : installTrans L (writeHead L (writeLog L m)) =
      m.bwrites (logArea L us ++ (L.start, h1) :: us) := by
    rw [hm1, installTrans_eq hf (by simpa using hl) fun i hi => ?_]
    · simp [Machine.bwrites, foldl_append]
    · rw [bwrites_bread, apply_append, apply_cons, apply_nil,
        update_of_ne (by simp; omega), apply_logArea _ hi]
  let m2 := m.bwrites (logArea L us ++ (L.start, h1) :: us)
  let h0 : Block := ({ m.lh with n := 0 } : LogHeader).encode (m2.bread L.start)
  refine ⟨h1, h0, hh1, headN_clear _ _, ?_⟩
  have hall : logArea L us ++ (L.start, h1) :: (us ++ [(L.start, h0)]) =
      (logArea L us ++ (L.start, h1) :: us) ++ [(L.start, h0)] := by simp
  rw [commit, if_pos hpos, hin, hall, bwrites_snoc]
  show (clearN m2).bwrite L.start ((clearN m2).lh.encode (m2.bread L.start)) =
    clearN (m2.bwrite L.start h0)
  have hlh : (clearN m2).lh = { m.lh with n := 0 } := by simp [clearN, m2]
  rw [hlh]
  rfl

theorem headReached_append (ws vs : List (Nat × Block)) :
    headReached L (ws ++ vs) = (headReached L ws || headReached L vs) := by
  simp [headReached]

theorem headReached_logArea {vs : List (Nat × Block)} (hv : vs.Sublist (logArea L us)) :
    headReached L vs = false := by
  have := start_notMem_logArea hv
  simp only [headReached, any_eq_false, beq_iff_eq]
  rintro w hw he
  exact this (mem_map.mpr ⟨w, hw, he⟩)

/-- A crash at any point of `commit` leaves a disk that recovers to the contents with the
transaction if its header was written, and to the contents without it otherwise. -/
theorem commit_crash (hf : Fits L us)
    (hne : us ≠ []) (hl : m.lh.Names us) (hc : ∀ u ∈ us, m.bread u.1 = u.2) (hws : m.writes = [])
    (hh : headN (m.disk L.start) = 0) (hs : ∀ b, IsHome L b → m.disk b = S b) (k : Nat) :
    Recoverable L (apply ((commit L m).writes.take k) m.disk)
      (if headReached L ((commit L m).writes.take k) then apply us S else S) := by
  obtain ⟨h1, h0, hn1, hz, he⟩ := commit_writes hf hne hl hc
  have hw : (commit L m).writes = logArea L us ++ (L.start, h1) :: (us ++ [(L.start, h0)]) := by
    rw [he]
    show (Machine.bwrites _ _).writes = _
    rw [bwrites_writes, hws, nil_append]
  have happ : ∀ b, IsHome L b → ∀ d : Nat → Block, (∀ b, IsHome L b → d b = m.disk b) →
      apply us d b = apply us S b := fun b hb d hd =>
    apply_congr (.inr (by rw [hd b hb, hs b hb]))
  rw [hw]
  by_cases hk : k ≤ us.length
  · -- only log blocks are written: the header is still clear
    rw [take_append_of_le_length (by simpa using hk),
      headReached_logArea (take_sublist _ _), if_neg (by simp)]
    apply recoverable_of_clean
    · rw [apply_of_notMem (start_notMem_logArea (take_sublist _ _))]; exact hh
    · intro b hb
      rw [apply_of_notMem (home_notMem_logArea hf hb (take_sublist _ _))]
      exact hs b hb
  · -- the header is written; `j` more writes follow it
    obtain ⟨j, rfl⟩ : ∃ j, k = (logArea L us).length + (j + 1) := ⟨k - us.length - 1, by simp; omega⟩
    rw [take_length_add_append, take_succ_cons]
    have hr : headReached L (logArea L us ++ (L.start, h1) :: (us ++ [(L.start, h0)]).take j) = true := by
      rw [headReached_append]
      simp [headReached]
    rw [hr, if_pos rfl, apply_append, apply_cons]
    generalize hd1 : update (apply (logArea L us) m.disk) L.start h1 = d1
    have hd1s : d1 L.start = h1 := by rw [← hd1, update_self]
    have hd1a : ∀ i (hi : i < us.length), d1 (L.start + i + 1) = us[i].2 := fun i hi => by
      rw [← hd1, update_of_ne (by omega), apply_logArea _ hi]
    have hd1h : ∀ b, IsHome L b → d1 b = m.disk b := fun b hb => by
      rw [← hd1, update_start_home _ _ hb,
        apply_of_notMem (home_notMem_logArea hf hb (List.Sublist.refl _))]
    by_cases hj : j ≤ us.length
    · -- `j` of the updates are installed
      rw [take_append_of_le_length hj]
      refine ⟨us, hf, ?_, fun i hi => ?_, fun b hb => ?_⟩
      · rw [apply_of_notMem (start_notMem_home hf (take_sublist _ _)), hd1s]; exact hn1
      · rw [apply_of_notMem (logArea_notMem_home hf hi (take_sublist _ _))]
        exact hd1a i hi
      · rw [apply_apply_take]; exact happ b hb d1 hd1h
    · -- all are, and the header is cleared
      rw [take_of_length_le (by simp; omega)]
      apply recoverable_of_clean
      · simpa [apply_append] using hz
      · intro b hb
        rw [apply_append, apply_cons, apply_nil, update_start_home _ _ hb]
        exact happ b hb d1 hd1h

theorem commit_clean (hf : Fits L us)
    (hne : us ≠ []) (hl : m.lh.Names us) (hb : m.bread = apply us m.disk) (hws : m.writes = [])
    (hs : ∀ b, IsHome L b → m.disk b = S b) :
    Clean L (commit L m) (apply us S) ∧ headReached L (commit L m).writes = true := by
  have hc : ∀ u ∈ us, m.bread u.1 = u.2 := fun u hu => by
    rw [hb]; exact apply_of_mem hf.nodup hu _
  obtain ⟨h1, h0, hn1, hz, he⟩ := commit_writes hf hne hl hc
  generalize hW : logArea L us ++ (L.start, h1) :: (us ++ [(L.start, h0)]) = W at he
  have hdisk : (commit L m).disk = apply W m.disk := by
    rw [he]; exact bwrites_disk ..
  have hwr : (commit L m).writes = W := by
    rw [he]
    show (Machine.bwrites _ _).writes = _
    rw [bwrites_writes, hws, nil_append]
  have hhome : ∀ b, IsHome L b → apply W m.disk b = apply us S b := by
    intro b hbh
    rw [← hW, apply_append, apply_cons, apply_append, apply_cons,
      apply_nil, update_start_home _ _ hbh]
    refine apply_congr (.inr ?_)
    rw [update_start_home _ _ hbh,
      apply_of_notMem (home_notMem_logArea hf hbh (List.Sublist.refl _)), hs b hbh]
  refine ⟨⟨?_, ?_, by rw [he]; rfl, fun b hbh => by rw [hdisk]; exact hhome b hbh⟩, ?_⟩
  · rw [hdisk, he]
    show (Machine.bwrites _ _).bread = _
    rw [bwrites_bread, hb]
    -- the cache differs from the disk on the updates only, and these are written
    funext x
    apply apply_congr
    by_cases hx : x ∈ us.map Prod.fst
    · left; rw [← hW]; simp only [map_append, map_cons, mem_append, mem_cons]
      exact .inr (.inr (.inl hx))
    · right; exact apply_of_notMem hx _
  · rw [hdisk, ← hW]
    simpa [apply_append] using hz
  · rw [hwr, ← hW, headReached_append]
    simp [headReached]

/-! ## Runs -/

/-- What holds between events: the log is clean while the machine is up, and recoverable while it
is down, in both cases for the transactions committed so far. -/
def Inv (d0 : Nat → Block) (s : Sys L) : Prop :=
  if s.up then Clean L s.m (afterTxns s.committed d0)
  else ∃ d, s.m = powerOn d ∧ Recoverable L d (afterTxns s.committed d0)

theorem logUpdates_clean (h : Clean L m S) (t : Txn L) :
    ∃ m', logUpdates L t.updates { m with writes := [] } = some m' ∧ m'.lh.Names t.updates ∧
      m'.bread = apply t.updates m.disk ∧ m'.disk = m.disk ∧ m'.writes = [] := by
  have hl : ({ m with writes := [] } : Machine).lh.Names [] :=
    ⟨by simpa using h.lh_n, fun i hi => absurd hi (by simp)⟩
  obtain ⟨m', h1, h2, h3, h4, h5⟩ :=
    logUpdates_spec t.updates [] { m with writes := [] } hl (by simpa using t.fits)
  refine ⟨m', h1, by simpa using h2, ?_, h4, h5⟩
  have hco : ({ m with writes := [] } : Machine).bread = m.disk := h.coherent
  rw [h3, hco]

theorem commit_nil (hl : m.lh.Names []) : commit L m = m := by
  have := hl.n_eq
  rw [commit, if_neg (by rw [this]; simp)]

theorem record_afterTxns (cs : List (Txn L)) (t : Txn L) (ws : List (Nat × Block)) (d : Nat → Block) :
    afterTxns (record cs t ws) d =
      if headReached L ws then apply t.updates (afterTxns cs d) else afterTxns cs d := by
  unfold record
  split
  · rw [afterTxns_snoc]
  · rfl

theorem inv_step {s s' : Sys L} {e : Event L} (hi : Inv d0 s) (h : step s e = some s') : Inv d0 s' := by
  cases e with
  | commit t =>
    simp only [step] at h
    split at h
    · rename_i hup
      simp only [Inv, hup, if_true] at hi
      obtain ⟨m', h1, h2, h3, h4, h5⟩ := logUpdates_clean hi t
      rw [h1] at h
      cases h
      simp only [Inv, if_true, record_afterTxns]
      by_cases hne : t.updates = []
      · rw [hne] at h2 h3
        rw [commit_nil h2, h5, hne]
        exact ⟨by rw [h3, h4]; rfl, by rw [h4]; exact hi.head, h2.n_eq, by rw [h4]; exact hi.home⟩
      · obtain ⟨hcl, hr⟩ := commit_clean t.fits hne h2 (by rw [h3, h4]) h5 (by rw [h4]; exact hi.home)
        rw [hr, if_pos rfl]
        exact hcl
    · cases h
  | crashCommit t k =>
    simp only [step] at h
    split at h
    · rename_i hup
      simp only [Inv, hup, if_true] at hi
      obtain ⟨m', h1, h2, h3, h4, h5⟩ := logUpdates_clean hi t
      rw [h1] at h
      cases h
      simp only [Inv, Bool.false_eq_true, if_false, record_afterTxns]
      refine ⟨_, rfl, ?_⟩
      by_cases hne : t.updates = []
      · rw [hne] at h2
        rw [commit_nil h2, h5, take_nil]
        exact recoverable_of_clean hi.head hi.home
      · rw [← h4]
        refine commit_crash t.fits hne h2 ?_ h5 (by rw [h4]; exact hi.head) (by rw [h4]; exact hi.home) k
        intro u hu
        rw [h3]
        exact apply_of_mem t.fits.nodup hu _
    · cases h
  | recover =>
    simp only [step] at h
    split at h
    · cases h
    · rename_i hup
      cases h
      simp only [Inv, hup, Bool.false_eq_true, if_false] at hi
      obtain ⟨d, hd, hr⟩ := hi
      simp only [Inv, if_true, hd]
      exact recover_clean hr
  | crashRecover k =>
    simp only [step] at h
    split at h
    · cases h
    · rename_i hup
      cases h
      simp only [Inv, hup, Bool.false_eq_true, if_false] at hi
      obtain ⟨d, hd, hr⟩ := hi
      simp only [Inv, hup, Bool.false_eq_true, if_false, hd]
      exact ⟨_, rfl, recover_crash hr k⟩

theorem inv_boot (h : headN (d0 L.start) = 0) : Inv d0 (Sys.boot (L := L) d0) := by
  simp only [Inv, Sys.boot, Bool.false_eq_true, if_false]
  exact ⟨d0, rfl, recoverable_of_clean h fun _ _ => rfl⟩

/-- An event is refused only for the mode the machine is in: logging a transaction that fits never
panics. -/
theorem step_isSome {s : Sys L} (hi : Inv d0 s) (e : Event L) :
    (step s e).isSome = match e with
      | .commit _ | .crashCommit _ _ => s.up
      | .recover | .crashRecover _ => !s.up := by
  cases hup : s.up with
  | false => cases e <;> simp [step, hup]
  | true =>
    simp only [Inv, hup, if_true] at hi
    cases e with
    | commit t => obtain ⟨m', h1, _⟩ := logUpdates_clean hi t; simp [step, hup, h1]
    | crashCommit t k => obtain ⟨m', h1, _⟩ := logUpdates_clean hi t; simp [step, hup, h1]
    | recover => simp [step, hup]
    | crashRecover k => simp [step, hup]

/-- **Crash atomicity.** Start from a disk with an empty log and let transactions commit, or crash
after any write of `commit` or of recovery, any number of times. In every state in which the
machine is down, running recovery to completion leaves each home block with its contents after
exactly the transactions whose header reached the disk, and the on-disk header with `n = 0`; and
in every state in which it is up, the same holds of the disk as it is. Every transaction that fits
the log can be run from each of these states. -/
theorem crash_atomicity (d0 : Nat → Block) (h0 : headN (d0 L.start) = 0) (es : List (Event L))
    (s : Sys L) (hrun : Trans.run step (Sys.boot d0) es = some s) : (s.up = false →
      (∀ b, IsHome L b → (recoverFromLog L s.m).disk b = afterTxns s.committed d0 b) ∧
        headN ((recoverFromLog L s.m).disk L.start) = 0 ∧
        (step s .recover).isSome ∧ ∀ k, (step s (.crashRecover k)).isSome) ∧ (s.up = true →
      (∀ b, IsHome L b → s.m.disk b = afterTxns s.committed d0 b) ∧ headN (s.m.disk L.start) = 0 ∧
        ∀ t, (step s (.commit t)).isSome ∧ ∀ k, (step s (.crashCommit t k)).isSome) := by
  have hi : Inv d0 s := Trans.run_inv (fun _ _ _ h h' => inv_step h h') (inv_boot h0) hrun
  refine ⟨fun hup => ?_, fun hup => ?_⟩
  · have hs := step_isSome hi
    simp only [Inv, hup, Bool.false_eq_true, if_false] at hi
    obtain ⟨d, hd, hr⟩ := hi
    have hc := recover_clean hr
    rw [← hd] at hc
    exact ⟨hc.home, hc.head, by rw [hs]; simp [hup], fun k => by rw [hs]; simp [hup]⟩
  · have hs := step_isSome hi
    simp only [Inv, hup, if_true] at hi
    exact ⟨hi.home, hi.head, fun t => ⟨by rw [hs]; exact hup, fun k => by rw [hs]; exact hup⟩⟩

def mkfsLog : Config := { start := 2, size := LOGSIZE, size_pos := by decide, fits := by decide }

def oneBlock : Txn mkfsLog where
  updates := [(50, fun _ => 1)]
  fits := ⟨by decide, by decide, by decide, by decide, by decide⟩

theorem crash_atomicity_oneBlock : ∃ s : Sys mkfsLog,
      Trans.run step (Sys.boot fun _ _ => 0) [.recover, .crashCommit oneBlock 2, .crashRecover 1] =
        some s ∧ s.up = false ∧ (recoverFromLog mkfsLog s.m).disk 50 = fun _ => 1 := by
  refine ⟨_, rfl, rfl, ?_⟩
  have h := crash_atomicity (L := mkfsLog) (fun _ _ => 0) (by decide)
    [.recover, .crashCommit oneBlock 2, .crashRecover 1] _ rfl
  rw [(h.1 rfl).1 50 (by decide)]
  rfl

end Log
end Xv6
