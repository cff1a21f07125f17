import Xv6.Fs.Abs

/-!
# Xv6.Fs.Blocks

Allocation of blocks: `balloc`, `bfree` and `bmap` against the view of the disk.

* `wpe_balloc`: a free block is marked in use and zeroed, or the disk is full and nothing changes.
* `Work`: what may happen to the disk while a process works on an inode that it has locked.
* `wpe_bmap`: the block is there after `bmap`, or the disk is full; no file changes.
* `wpe_bmap_mapped`: `bmap` of a block that is there changes nothing at all.
-/

namespace Xv6
namespace Fs

open Bytes Prog Function

/-- The ways in which a system call may stop. -/
def MayStop (e : Stop) : Prop :=
  e = .sleep ∨ e = .panic "too big a transaction" ∨ e = .panic "iget: no inodes" ∨
    e = .panic "ilock: no type" ∨ e = .panic "unlink: nlink < 1" ∨ e = .panic "init exiting"

instance : DecidablePred MayStop := fun _ => inferInstanceAs (Decidable (_ ∨ _))

class Allows (F : Stop → Prop) : Prop where
  sleep : F .sleep
  big : F (.panic "too big a transaction")
  full : F (.panic "iget: no inodes")
  noType : F (.panic "ilock: no type")

instance : Allows MayStop := ⟨.inl rfl, .inr (.inl rfl), .inr (.inr (.inl rfl)), .inr (.inr (.inr (.inl rfl)))⟩

variable {sb : Superblock} {s s' s'' : State} {E F : Stop → Prop} [Allows F]

/-! ## Actions -/

section Actions

variable {Q : Unit → State → Prop} {b : Nat} {ip : Entry}

theorem wpe_logWrite (ho : 1 ≤ s.outstanding)
    (hQ : ∀ log, Q () { s with log := log, logged := s.logged ++ [b] }) : Wp.wpe F (logWrite sb b) Q s := by
  rw [logWrite, Wp.wpe_bind, Wp.wpe_modify, Wp.wpe_bind, Wp.wpe_get]
  split
  · exact Wp.wpe_throw.mpr Allows.big
  split
  · rename_i hlt
    exact absurd ho (Nat.not_le.mpr hlt)
  split
  · exact Wp.wpe_pure.mpr (hQ s.log)
  · exact Wp.wpe_set.mpr (hQ _)

theorem wpe_writeBlock {data : Block} (ho : 1 ≤ s.outstanding) (hQ : ∀ log, Q () { s with
      disk := update s.disk b data, log := log, logged := s.logged ++ [b] }) :
    Wp.wpe F (writeBlock sb b data) Q s := by
  rw [writeBlock, Wp.wpe_bind]
  exact Wp.wpe_modify.mpr (wpe_logWrite ho hQ)

theorem wpe_bread {R : Block → State → Prop} (h : R (s.disk b) s) : Wp.wpe E (bread b) R s := by
  rw [bread, Wp.wpe_bind, Wp.wpe_get]
  exact Wp.wpe_pure.mpr h

theorem wpe_copyOf {R : Dinode → State → Prop} (h : R (s.inode ip).copy s) : wpe E (atomic (copyOf ip)) R s := by
  rw [wpe_atomic, copyOf, Wp.wpe_bind, Wp.wpe_get]
  exact Wp.wpe_pure.mpr h

theorem wpe_setInode {f : Inode → Inode} :
    wpe E (atomic (setInode ip f)) Q s ↔ Q () { s with inode := update s.inode ip (f (s.inode ip)) } := by
  rw [wpe_atomic, setInode, Wp.wpe_modify]

theorem wpe_setCopy {f : Dinode → Dinode} : wpe E (atomic (setCopy ip f)) Q s ↔ Q () { s with
      inode := update s.inode ip ((s.inode ip).withCopy (f (s.inode ip).copy)) } := wpe_setInode

end Actions

/-! ## balloc and bfree -/

abbrev State.view (s : State) (sb : Superblock) : View := Fs.view sb s.disk s.inode

/-- Only the disk and the log have changed, and no dinode on disk. -/
structure DiskOnly (sb : Superblock) (s s' : State) : Prop where
  inode : s'.inode = s.inode
  outstanding : s'.outstanding = s.outstanding
  file : s'.file = s.file
  pipe : s'.pipe = s.pipe
  proc : s'.proc = s.proc
  dinodes : ∀ j, j < sb.ninodes → diskDinode sb s'.disk j = diskDinode sb s.disk j

structure Taken (sb : Superblock) (s s' : State) (b : Nat) : Prop extends DiskOnly sb s s' where
  size : b < sb.size
  free : (s.view sb).used b = false
  view : s'.view sb = (s.view sb).take b
  logged : s'.logged = s.logged ++ [sb.bblock b, b]

def View.Full (V : View) (sb : Superblock) : Prop := ∀ b < sb.size, V.used b = true

theorem wpe_ballocIn (hb : b % BPB = 0) (ho : 1 ≤ s.outstanding) {Q : Option Nat → State → Prop}
    (hnone : (∀ c, b ≤ c → c < b + BPB → c < sb.size → (s.view sb).used c = true) → Q none s)
    (hsome : ∀ b' log, b' < sb.size → (s.view sb).used b' = false → Q (some b') { s with
        disk := update s.disk (sb.bblock b') (setBit (s.disk (sb.bblock b')) (b' % BPB))
        log := log
        logged := s.logged ++ [sb.bblock b'] }) :
    Wp.wpe F (ballocIn sb b) Q s := by
  rw [ballocIn, Wp.wpe_bind]
  refine wpe_bread ?_
  split
  · rename_i bi hbi
    obtain ⟨hp, hmem, -⟩ := List.find?_range'_eq_some.mp hbi
    rw [Bool.and_eq_true, decide_eq_true_eq, Bool.not_eq_true'] at hp
    have hlt : bi < BPB := by simpa using hmem
    have hblk : sb.bblock (b + bi) = sb.bblock b := by
      simp only [Superblock.bblock, BPB, BSIZE] at *
      omega
    have hmod : (b + bi) % BPB = bi := by
      simp only [BPB, BSIZE] at *
      omega
    rw [Wp.wpe_bind]
    refine wpe_writeBlock ho fun log => Wp.wpe_pure.mpr ?_
    have := hsome (b + bi) log hp.1 (by simp only [State.view, Fs.view, hblk, hmod, hp.2, Bool.and_false])
    rwa [hblk, hmod] at this
  · rename_i hno
    refine Wp.wpe_pure.mpr (hnone fun c h1 h2 h3 => ?_)
    have hc := List.find?_eq_none.mp hno (c - b) (List.mem_range'_1.mpr ⟨Nat.zero_le _, by omega⟩)
    have hblk : sb.bblock c = sb.bblock b := by
      simp only [Superblock.bblock, BPB, BSIZE] at *
      omega
    have hmod : c % BPB = c - b := by
      simp only [BPB, BSIZE] at *
      omega
    rw [Nat.add_sub_cancel' h1] at hc
    simp only [State.view, Fs.view, hblk, hmod]
    simpa [h3] using hc

section Geom

variable (hg : sb.Geom)
include hg

theorem wpe_ballocLoop (ho : 1 ≤ s.outstanding) (hmeta : ∀ b < sb.nmeta, (s.view sb).used b = true) :
    ∀ n b, b % BPB = 0 → sb.size ≤ b + n * BPB → (∀ c < b, c < sb.size → (s.view sb).used c = true) →
      wpe F (ballocLoop sb n b) (fun r s' =>
        (r = 0 ∧ s' = s ∧ (s.view sb).Full sb) ∨ ∃ b, r = UInt32.ofNat b ∧ Taken sb s s' b) s := by
  intro n
  induction n with
  | zero => exact fun b _ hn hall => wpe_pure.mpr (.inl ⟨rfl, rfl, fun c hc => hall c (by omega) hc⟩)
  | succ n ih =>
    intro b hb hn hall
    rw [ballocLoop, wpe_ite]
    refine ⟨fun hlt => ?_, fun hge => wpe_pure.mpr (.inl ⟨rfl, rfl, fun c hc => hall c (by omega) hc⟩)⟩
    rw [wpe_bind, wpe_atomic]
    refine wpe_ballocIn hb ho (fun hblk => ih _ (by rw [Nat.add_mod_right, hb]) ?_ fun c hc hsize => ?_)
      fun b' log hsize hfree => ?_
    · rw [Nat.succ_mul] at hn
      omega
    · rcases Nat.lt_or_ge c b with hcb | hcb
      · exact hall c hcb hsize
      · exact hblk c hcb hc hsize
    have hdata : sb.nmeta ≤ b' := by
      by_contra hlt
      rw [hmeta b' (Nat.lt_of_not_le hlt)] at hfree
      exact absurd hfree (by decide)
    rw [wpe_bind, wpe_atomic]
    refine wpe_writeBlock ho fun log' => wpe_pure.mpr (.inr ⟨b', rfl, ⟨rfl, rfl, rfl, rfl, rfl, ?_⟩, hsize, hfree, ?_,
      List.append_assoc _ _ _⟩)
    · intro j hj
      rw [diskDinode_data hg hdata hj, diskDinode_bitmap hg hj]
    · rw [State.view, view_data hg hdata, view_bitmap hg hsize fun bi => bit_setBit (Nat.mod_lt _ (by decide))]
      rfl

theorem wpe_balloc (ho : 1 ≤ s.outstanding) (hmeta : ∀ b < sb.nmeta, (s.view sb).used b = true) :
    wpe F (balloc sb) (fun r s' => (r = 0 ∧ s' = { s with ballocs := s.ballocs + 1 } ∧ (s.view sb).Full sb) ∨
        ∃ b, r = UInt32.ofNat b ∧ Taken sb s s' b) s := by
  have hfuel : sb.size ≤ 0 + (sb.size / BPB + 1) * BPB := by
    simp only [BPB, BSIZE]
    omega
  rw [balloc, wpe_bind, wpe_atomic, Wp.wpe_modify]
  refine wpe_mono (wpe_ballocLoop hg (s := { s with ballocs := s.ballocs + 1 }) ho hmeta _ 0 rfl hfuel
    fun c hc => absurd hc (Nat.not_lt_zero c)) ?_
  rintro r s' (⟨rfl, rfl, hfull⟩ | ⟨b, rfl, ht⟩)
  · exact .inl ⟨rfl, rfl, hfull⟩
  · exact .inr ⟨b, rfl, ⟨ht.inode, ht.outstanding, ht.file, ht.pipe, ht.proc, ht.dinodes⟩, ht.size, ht.free, ht.view,
      ht.logged⟩

end Geom

/-! ## Work on a locked inode -/

/-- Nothing has changed but the disk, the log and the copy of one inode. -/
structure Frame (e : Entry) (s s' : State) : Prop where
  inode : ∀ e', e' ≠ e → s'.inode e' = s.inode e'
  entry : ∃ d, s'.inode e = (s.inode e).withCopy d
  outstanding : s'.outstanding = s.outstanding
  file : s'.file = s.file
  pipe : s'.pipe = s.pipe
  proc : s'.proc = s.proc

variable {e : Entry} {i : Nat}

theorem Frame.refl (e : Entry) (s : State) : Frame e s s := ⟨fun _ _ => rfl, ⟨_, rfl⟩, rfl, rfl, rfl, rfl⟩

theorem Frame.trans (h : Frame e s s') (h' : Frame e s' s'') : Frame e s s'' := by
  obtain ⟨d, hd⟩ := h.entry
  obtain ⟨d', hd'⟩ := h'.entry
  exact ⟨fun e' he => (h'.inode e' he).trans (h.inode e' he), ⟨d', by rw [hd', hd]; rfl⟩, h'.outstanding.trans h.outstanding,
    h'.file.trans h.file, h'.pipe.trans h.pipe, h'.proc.trans h.proc⟩

theorem DiskOnly.frame (h : DiskOnly sb s s') (e : Entry) : Frame e s s' :=
  ⟨fun e' _ => by rw [h.inode], ⟨(s.inode e).copy, by rw [h.inode]; rfl⟩, h.outstanding, h.file, h.pipe, h.proc⟩

theorem Frame.fields (h : Frame e s s') (e' : Entry) :
    (s'.inode e').inum = (s.inode e').inum ∧ (s'.inode e').ref = (s.inode e').ref ∧
      (s'.inode e').lock = (s.inode e').lock ∧ (s'.inode e').valid = (s.inode e').valid := by
  by_cases he : e' = e
  · subst he
    obtain ⟨d, hd⟩ := h.entry
    rw [hd]
    exact ⟨rfl, rfl, rfl, rfl⟩
  · rw [h.inode e' he]
    exact ⟨rfl, rfl, rfl, rfl⟩

theorem Frame.uniq (h : Frame e s s') (hu : Uniq s.inode) : Uniq s'.inode := by
  intro a b ha hb hab
  rw [(h.fields a).2.1] at ha
  rw [(h.fields b).2.1] at hb
  rw [(h.fields a).1, (h.fields b).1] at hab
  exact hu a b ha hb hab

theorem Frame.caches (h : Frame e s s') {e' : Entry} : Caches s'.inode e' i ↔ Caches s.inode e' i := by
  obtain ⟨h1, h2, -, h4⟩ := h.fields e'
  rw [Caches, Caches, h1, h2, h4]

/-- Inode `i` is in entry `e`, and the blocks are in order. -/
structure Held (sb : Superblock) (e : Entry) (i : Nat) (s : State) : Prop where
  uniq : Uniq s.inode
  caches : Caches s.inode e i
  range : 0 < i ∧ i < sb.ninodes
  typed : (s.inode e).copy.type ≠ 0
  owned : Places.Owned sb.nmeta sb.size (s.view sb).places ∅ (s.view sb).used

theorem Held.dinode (h : Held sb e i s) : (s.view sb).dinode i = (s.inode e).copy := by
  rw [State.view, view_dinode h.range, cur_of_caches h.uniq h.caches]

theorem Held.typed_view (h : Held sb e i s) : ((s.view sb).dinode i).type ≠ 0 := by
  rw [h.dinode]
  exact h.typed

/-- What a process does to the disk while it works on inode `i` in entry `e`. `K` has the places that
it uses: it writes the blocks there, and marks those that are new in the bit map. New blocks are logged. -/
structure Work (sb : Superblock) (e : Entry) (i : Nat) (K : Set Nat) (s s' : State) : Prop where
  frame : Frame e s s'
  dinodes : ∀ j, j < sb.ninodes → diskDinode sb s'.disk j = diskDinode sb s.disk j
  owned : Places.Owned sb.nmeta sb.size (s'.view sb).places ∅ (s'.view sb).used
  head : ∀ j, ((s'.view sb).dinode j).head = ((s.view sb).dinode j).head
  kept : ∀ x, (s.view sb).places x ≠ 0 → (s'.view sb).places x = (s.view sb).places x
  grows : ∀ c ∈ s.logged, c ∈ s'.logged
  fresh : ∀ k, (s.view sb).addr i k = 0 → (s'.view sb).addr i k ≠ 0 → (s'.view sb).addr i k ∈ s'.logged
  logged : ∀ c ∈ s'.logged, c ∈ s.logged ∨ ∃ k ∈ K, (s'.view sb).addr i k ≠ 0 ∧
    (c = (s'.view sb).addr i k ∨ (s.view sb).addr i k = 0 ∧ c = sb.bblock ((s'.view sb).addr i k))

variable {K : Set Nat} {b k : Nat}

theorem Work.refl (h : Held sb e i s) : Work sb e i K s s :=
  ⟨.refl e s, fun _ _ => rfl, h.owned, fun _ => rfl, fun _ _ => rfl, fun _ hc => hc, fun _ h0 hne => absurd h0 hne,
    fun _ hc => .inl hc⟩

theorem Work.trans {K' : Set Nat} (h : Work sb e i K s s') (h' : Work sb e i K' s' s'') :
    Work sb e i (K ∪ K') s s'' := by
  have hkept : ∀ x, (s.view sb).places x ≠ 0 → (s''.view sb).places x = (s.view sb).places x := fun x hx => by
    have h1 := h.kept x hx
    rw [h'.kept x (by rw [h1]; exact hx), h1]
  refine ⟨h.frame.trans h'.frame, fun j hj => (h'.dinodes j hj).trans (h.dinodes j hj), h'.owned,
    fun j => (h'.head j).trans (h.head j), hkept, fun c hc => h'.grows c (h.grows c hc), fun k h0 hne => ?_, fun c hc => ?_⟩
  · by_cases h1 : (s'.view sb).addr i k = 0
    · exact h'.fresh k h1 hne
    · have hk : (s''.view sb).addr i k = (s'.view sb).addr i k := h'.kept (i, k) h1
      rw [hk]
      exact h'.grows _ (h.fresh k h0 h1)
  rcases h'.logged c hc with hc | ⟨k, hk, hne, hc⟩
  · rcases h.logged c hc with hc | ⟨k, hk, hne, hc⟩
    · exact .inl hc
    · have hk' : (s''.view sb).addr i k = (s'.view sb).addr i k := h'.kept (i, k) hne
      rw [← hk'] at hne hc
      exact .inr ⟨k, .inl hk, hne, hc⟩
  · refine .inr ⟨k, .inr hk, hne, hc.imp_right fun hnew => ⟨?_, hnew.2⟩⟩
    by_contra h0
    have hk' : (s'.view sb).addr i k = (s.view sb).addr i k := h.kept (i, k) h0
    exact h0 (hk'.symm.trans hnew.1)

theorem Work.mono {K' : Set Nat} (h : Work sb e i K s s') (hK : K ⊆ K') : Work sb e i K' s s' :=
  ⟨h.frame, h.dinodes, h.owned, h.head, h.kept, h.grows, h.fresh, fun c hc => (h.logged c hc).imp_right fun ⟨k, hk, hr⟩ =>
    ⟨k, hK hk, hr⟩⟩

theorem Held.work (h : Held sb e i s) (w : Work sb e i K s s') : Held sb e i s' := by
  have hu := w.frame.uniq h.uniq
  have hc := w.frame.caches.mpr h.caches
  refine ⟨hu, hc, h.range, ?_, w.owned⟩
  have hd : (s'.view sb).dinode i = (s'.inode e).copy := by
    rw [State.view, view_dinode h.range, cur_of_caches hu hc]
  rw [← hd, Dinode.type_of_head (w.head i)]
  exact h.typed_view

def SameBytes (sb : Superblock) (s s' : State) : Prop :=
  ∀ j pos, (s'.view sb).byteAt j pos = (s.view sb).byteAt j pos

theorem Held.used_meta (h : Held sb e i s) (hg : sb.Geom) (hb : b < sb.nmeta) : (s.view sb).used b = true :=
  (h.owned.used_iff (lt_of_lt_of_le hb hg.data)).mpr (.inl hb)

/-! ## bmap -/

def NoBlock (sb : Superblock) (i k : Nat) (s : State) : Prop := (s.view sb).Full sb ∧ (s.view sb).addr i k = 0

/-- What `bmap` and its parts return: 0 when the disk is full, otherwise the number in place `k`. -/
def Mapped (sb : Superblock) (e : Entry) (i : Nat) (K : Set Nat) (k : Nat) (s : State) (r : UInt32)
    (s' : State) : Prop :=
  Work sb e i K s s' ∧ SameBytes sb s s' ∧ (r ≠ 0 → r.toNat = (s'.view sb).addr i k) ∧
    (r = 0 → NoBlock sb i k s')

section

variable (h : Held sb e i s)
include h

theorem Held.addr_direct (hk : k ≤ NDIRECT) :
    (s.view sb).addr i k = ((s.inode e).copy.addr k).toNat := by
  rw [View.addr_direct h.typed_view hk, h.dinode]

theorem Mapped.refl {r : UInt32} (hr0 : r ≠ 0) (hr : r.toNat = (s.view sb).addr i k) :
    Mapped sb e i K k s r s := ⟨.refl h, fun _ _ => rfl, fun _ => hr, fun h0 => absurd h0 hr0⟩

theorem Mapped.full (hfull : (s.view sb).Full sb) (h0 : (s.view sb).addr i k = 0) :
    Mapped sb e i K k s 0 { s with ballocs := s.ballocs + 1 } :=
  ⟨⟨⟨fun _ _ => rfl, ⟨_, rfl⟩, rfl, rfl, rfl, rfl⟩, fun _ _ => rfl, h.owned, fun _ => rfl, fun _ _ => rfl,
    fun _ hc => hc, fun _ h0 hne => absurd h0 hne, fun _ hc => .inl hc⟩, fun _ _ => rfl, fun hne => absurd rfl hne, fun _ => ⟨hfull, h0⟩⟩

theorem Held.block {x : Nat × Nat} (hx : (s.view sb).places x ≠ 0) :
    (s.view sb).block ((s.view sb).places x) = s.disk ((s.view sb).places x) := if_pos (h.owned.range hx).1

theorem Held.addr_entry {n : Nat} (h12 : (s.view sb).addr i NDIRECT ≠ 0) :
    (s.view sb).addr i (n + (NDIRECT + 1)) = (getAddr (s.disk ((s.view sb).addr i NDIRECT)) n).toNat := by
  rw [View.addr_entry (by omega) h12, Nat.add_sub_cancel]
  exact congrArg (fun b => (getAddr b n).toNat) (h.block (x := (i, NDIRECT)) h12)

end

theorem Taken.ne_zero {s1 : State} (hg : sb.Geom) (h : Held sb e i s) (ht : Taken sb s s1 b) :
    UInt32.ofNat b ≠ 0 ∧ (UInt32.ofNat b).toNat = b := by
  have hlo := (h.owned.free ht.size ht.free).1
  have hpos := hg.nmeta_pos
  have hsize := hg.size
  have hlt := ht.size
  have hn : (UInt32.ofNat b).toNat = b := UInt32.toNat_ofNat_of_lt' (by simp only [UInt32.size]; omega)
  refine ⟨fun h0 => ?_, hn⟩
  rw [h0] at hn
  simp at hn
  omega

theorem Taken.mapped {s1 : State} (hg : sb.Geom) (h : Held sb e i s) (ht : Taken sb s s1 b)
    (h0 : (s.view sb).addr i k = 0) (hf : Frame e s1 s')
    (hd : ∀ j, j < sb.ninodes → diskDinode sb s'.disk j = diskDinode sb s1.disk j)
    (hs : View.Stored (s1.view sb) (s'.view sb) i k b) (hk : k ∈ K) (hmono : ∀ c ∈ s1.logged, c ∈ s'.logged)
    (hlog : ∀ c ∈ s'.logged, c ∈ s1.logged ∨ ∃ l ∈ K, (s'.view sb).addr i l ≠ 0 ∧ c = (s'.view sb).addr i l) :
    Mapped sb e i K k s (UInt32.ofNat b) s' := by
  have hown := View.owned_take h.owned ht.size ht.free
  have hpl := View.places_take h.owned ht.size ht.free
  rw [← ht.view] at hown hpl
  have h0' : (s1.view sb).addr i k = 0 := (congrFun hpl (i, k)).trans h0
  have hb : (s'.view sb).addr i k = b := by
    have := congrFun hs.places (i, k)
    rwa [update_self] at this
  have hb0 : b ≠ 0 := by
    obtain ⟨hne, hn⟩ := ht.ne_zero hg h
    rintro rfl
    exact hne rfl
  refine ⟨⟨(ht.frame e).trans hf, fun j hj => (hd j hj).trans (ht.dinodes j hj),
    hs.owned hown (Set.notMem_empty b) h0' hg.nmeta_pos, fun j => ?_, fun x hx => ?_, fun c hc => ?_, fun l h1 hne => ?_,
    fun c hc => ?_⟩,
    fun j pos => ?_, fun _ => ?_, fun hz => absurd hz (ht.ne_zero hg h).1⟩
  · rw [hs.head, ht.view]
    rfl
  · rw [← hpl] at hx ⊢
    exact hs.kept h0' hx
  · refine hmono c ?_
    rw [ht.logged]
    exact List.mem_append_left _ hc
  · have hl : l = k := by
      by_contra hlk
      have hsame := congrFun hs.places (i, l)
      rw [update_of_ne (by rw [ne_eq, Prod.mk.injEq]; exact fun h => hlk h.2), hpl] at hsame
      exact hne (hsame.trans h1)
    rw [hl, hb]
    refine hmono b ?_
    rw [ht.logged]
    simp
  · rcases hlog c hc with hc | ⟨l, hl, hne, hc⟩
    · rw [ht.logged, List.mem_append] at hc
      rcases hc with hc | hc
      · exact .inl hc
      · refine .inr ⟨k, hk, by rw [hb]; exact hb0, ?_⟩
        rw [hb]
        simp only [List.mem_cons, List.not_mem_nil, or_false] at hc
        exact hc.symm.imp_right fun hc => ⟨h0, hc⟩
    · exact .inr ⟨l, hl, hne, .inl hc⟩
  · rw [hs.byteAt, ht.view, View.byteAt_take h.owned ht.size ht.free]
  · rw [(ht.ne_zero hg h).2, hb]

section Bmap

variable (hg : sb.Geom)
include hg

section

variable (h : Held sb e i s) (ho : 1 ≤ s.outstanding)
include h ho

theorem wpe_bmapAddr {k : Nat} (hk : k ≤ NDIRECT) :
    wpe F (bmapAddr sb e k) (Mapped sb e i {k} k s) s := by
  rw [bmapAddr, wpe_bind]
  refine wpe_copyOf (wpe_ite.mpr ⟨fun h0 => ?_, fun h0 => wpe_pure.mpr (.refl h h0 (h.addr_direct hk).symm)⟩)
  have h0 : (s.view sb).addr i k = 0 := by
    rw [h.addr_direct hk, h0]
    rfl
  refine wpe_seq (wpe_balloc hg ho fun b => h.used_meta hg) ?_
  rintro r s1 (⟨rfl, rfl, hfull⟩ | ⟨b, rfl, ht⟩)
  · exact wpe_pure.mpr (.full h hfull h0)
  rw [if_neg (ht.ne_zero hg h).1, wpe_bind, wpe_setCopy, wpe_pure]
  have hu : Uniq s1.inode := ht.inode ▸ h.uniq
  have hc : Caches s1.inode e i := ht.inode ▸ h.caches
  have hd : (s1.view sb).dinode i = (s1.inode e).copy := by
    rw [State.view, view_dinode h.range, cur_of_caches hu hc]
  have hpl := View.places_take h.owned ht.size ht.free
  rw [← ht.view] at hpl
  have hs := View.stored_setAddr (V := s1.view sb) (i := i) (k := k)
    (by rw [ht.view]; exact View.owned_take h.owned ht.size ht.free) hg.size (Set.mem_insert b ∅)
    (by rw [hd, ht.inode]; exact h.typed) hk ((congrFun hpl (i, k)).trans h0) (by rw [ht.view]; exact View.block_take)
  rw [hd, State.view, ← view_withCopy hu hc h.range] at hs
  exact ht.mapped hg h h0 ⟨fun e' he => update_of_ne he _ _, ⟨_, update_self _ _ _⟩,
    rfl, rfl, rfl, rfl⟩ (fun _ _ => rfl) hs rfl (fun _ hc => hc) fun _ hc => .inl hc

theorem wpe_bmapEntry {n : Nat} {ind : UInt32} (hn : n < NINDIRECT)
    (h12 : (s.view sb).addr i NDIRECT ≠ 0) (hind : ind.toNat = (s.view sb).addr i NDIRECT) :
    wpe F (bmapEntry sb ind n) (Mapped sb e i {NDIRECT, n + (NDIRECT + 1)} (n + (NDIRECT + 1)) s) s := by
  rw [bmapEntry, wpe_bind, wpe_atomic]
  refine wpe_bread (wpe_ite.mpr ⟨fun h0 => ?_, fun h0 => ?_⟩)
  swap
  · rw [hind] at h0 ⊢
    exact wpe_pure.mpr (.refl h h0 (h.addr_entry h12).symm)
  have h0 : (s.view sb).addr i (n + (NDIRECT + 1)) = 0 := by
    rw [h.addr_entry h12, ← hind, h0]
    rfl
  refine wpe_seq (wpe_balloc hg ho fun b => h.used_meta hg) ?_
  rintro r s1 (⟨rfl, rfl, hfull⟩ | ⟨b, rfl, ht⟩)
  · exact wpe_pure.mpr (.full h hfull h0)
  rw [if_pos (ht.ne_zero hg h).1, wpe_bind, wpe_atomic, Wp.wpe_bind]
  refine wpe_bread (wpe_writeBlock (by rw [ht.outstanding]; exact ho) fun log => wpe_pure.mpr ?_)
  have hpl := View.places_take h.owned ht.size ht.free
  have hown := View.owned_take h.owned ht.size ht.free
  rw [← ht.view] at hpl hown
  have h12' : (s1.view sb).addr i NDIRECT = ind.toNat := (congrFun hpl (i, NDIRECT)).trans hind.symm
  have hdata : sb.nmeta ≤ ind.toNat := by
    rw [hind]
    exact (h.owned.range (x := (i, NDIRECT)) h12).1
  have hblk : (s1.view sb).block ind.toNat = s1.disk ind.toNat := if_pos hdata
  have hs := View.stored_putAddr (V := s1.view sb) hown hg.size (Set.mem_insert b ∅) hn
    (by rw [h12', hind]; exact h12) ((congrFun hpl (i, n + (NDIRECT + 1))).trans h0)
    (by rw [ht.view]; exact View.block_take)
  rw [h12', hblk, ← view_data hg hdata] at hs
  refine ht.mapped hg h h0 ⟨fun _ _ => rfl, ⟨_, rfl⟩, rfl, rfl, rfl, rfl⟩
    (fun j hj => diskDinode_data hg hdata hj) hs (.inr rfl) (fun c hc => List.mem_append_left _ hc) fun c hc => ?_
  rw [List.mem_append, List.mem_singleton] at hc
  have hkept := congrFun hs.places (i, NDIRECT)
  rw [update_of_ne (by rw [ne_eq, Prod.mk.injEq]; omega)] at hkept
  have hkept : _ = ind.toNat := hkept.trans h12'
  refine hc.imp_right fun hc => ⟨NDIRECT, .inl rfl, fun hz => h12 ?_, hc.trans hkept.symm⟩
  exact hind.symm.trans (hkept.symm.trans hz)

/-- After `bmap` the block is there, unless the disk is full. No file changes. -/
theorem wpe_bmap {bn : Nat} (hbn : bn < MAXFILE) :
    wpe F (bmap sb e bn) (Mapped sb e i {NDIRECT, place bn} (place bn) s) s := by
  rw [bmap]
  by_cases hd : bn < NDIRECT
  · rw [if_pos hd, place, if_pos hd]
    exact wpe_mono (wpe_bmapAddr hg h ho (Nat.le_of_lt hd)) fun r s' hm =>
      ⟨hm.1.mono (Set.singleton_subset_iff.mpr (.inr rfl)), hm.2⟩
  have hn : bn - NDIRECT < NINDIRECT := by
    simp only [MAXFILE] at hbn
    omega
  have hpl : place bn = bn - NDIRECT + (NDIRECT + 1) := by
    rw [place, if_neg hd]
    omega
  rw [if_neg hd, if_pos hn, hpl]
  refine wpe_seq (wpe_bmapAddr hg h ho le_rfl) fun ind s1 hm => ?_
  rw [wpe_ite]
  refine ⟨fun h0 => wpe_pure.mpr ⟨hm.1.mono (by simp), hm.2.1, fun hne => absurd rfl hne, fun _ => ?_⟩, fun h0 => ?_⟩
  · exact ⟨(hm.2.2.2 h0).1, View.addr_no_indirect (by omega) (hm.2.2.2 h0).2⟩
  have h12 := hm.2.2.1 h0
  have hne : (s1.view sb).addr i NDIRECT ≠ 0 := by
    rw [← h12]
    exact fun hz => h0 (UInt32.toNat_inj.mp hz)
  refine wpe_mono (wpe_bmapEntry hg (h.work hm.1) (hm.1.frame.outstanding ▸ ho) hn hne h12) fun r s2 hm' => ?_
  exact ⟨(hm.1.trans hm'.1).mono (Set.union_subset (by simp) subset_rfl), fun j pos => (hm'.2.1 j pos).trans (hm.2.1 j pos), hm'.2.2⟩

end

omit hg in
theorem wpe_bmap_mapped {bn : Nat} (h : Held sb e i s) (hbn : bn < MAXFILE) (hne : (s.view sb).addr i (place bn) ≠ 0)
    {Q : UInt32 → State → Prop} (hQ : ∀ r, r ≠ 0 → r.toNat = (s.view sb).addr i (place bn) → Q r s) :
    wpe E (bmap sb e bn) Q s := by
  have hdir : ∀ {k}, k ≤ NDIRECT → (s.view sb).addr i k ≠ 0 → ∀ {R : UInt32 → State → Prop},
      R ((s.inode e).copy.addr k) s → wpe E (bmapAddr sb e k) R s := by
    intro k hk hk0 R hR
    rw [bmapAddr, wpe_bind]
    refine wpe_copyOf (wpe_ite.mpr ⟨fun h0 => absurd ?_ hk0, fun _ => wpe_pure.mpr hR⟩)
    rw [h.addr_direct hk, h0]
    rfl
  have hzero : ∀ {r : UInt32} {n : Nat}, n ≠ 0 → r.toNat = n → r ≠ 0 := by
    rintro r n hn rfl h0
    exact hn (by rw [h0]; rfl)
  rw [bmap]
  by_cases hd : bn < NDIRECT
  · rw [place, if_pos hd] at hne hQ
    rw [if_pos hd]
    have ha := h.addr_direct (Nat.le_of_lt hd)
    exact hdir (Nat.le_of_lt hd) hne (hQ _ (hzero hne ha.symm) ha.symm)
  have hn : bn - NDIRECT < NINDIRECT := by
    simp only [MAXFILE] at hbn
    omega
  have hpl : place bn = bn - NDIRECT + (NDIRECT + 1) := by
    rw [place, if_neg hd]
    omega
  rw [hpl] at hne hQ
  have h12 : (s.view sb).addr i NDIRECT ≠ 0 := fun h0 => hne (View.addr_no_indirect (by omega) h0)
  have ha := h.addr_direct (le_refl NDIRECT)
  rw [if_neg hd, if_pos hn, wpe_bind]
  refine hdir le_rfl h12 ?_
  rw [if_neg (hzero h12 ha.symm), bmapEntry, wpe_bind, wpe_atomic]
  have he := h.addr_entry (n := bn - NDIRECT) h12
  rw [ha] at he
  refine wpe_bread (wpe_ite.mpr ⟨fun h0 => absurd ?_ hne, fun _ => wpe_pure.mpr (hQ _ (hzero hne he.symm) he.symm)⟩)
  rw [he, h0]
  rfl

end Bmap

end Fs
end Xv6
