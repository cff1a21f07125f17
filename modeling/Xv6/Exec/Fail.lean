import Xv6.Exec.Model
import Xv6.Sys.Conserve
import Xv6.Fs.Resolve

/-!
# Xv6.Exec.Fail

A failing `exec` changes nothing.

* `wpe_exec`: `exec` does to processes and memory what `Sys.exec` does with the contents of the file, and
  leaves the file system as it was, with the reference, the lock and the transaction given back.
* `exec_unchanged`: when `exec` or `sys_exec` returns -1, the process is as it was and all pages are back.
-/

namespace Xv6
namespace Exec

open Bytes Wp Vm
open Sys (ProcId Image field ELF_MAGIC ELF_PROG_LOAD)

section Lift

variable {α : Type} {E : Stop → Prop} {Q : α → Kernel → Prop} {k : Kernel}

def Kernel.withMem (k : Kernel) (m : Kmem) : Kernel := { k with sys := { k.sys with kmem := m } }

theorem wpe_sys {x : Sys.Kern α} : wpe E (sys x) Q k ↔ wpe E x (fun a t => Q a { k with sys := t }) k.sys := wpe_zoom

theorem wpe_vm {x : K α} : wpe E (vm x) Q k ↔ wpe E x (fun a m => Q a (k.withMem m)) k.sys.kmem := by
  rw [vm, wpe_sys, Sys.vm, wpe_zoom]
  rfl

theorem wpe_ret {r : α} {m : Kmem} (h : wpe E (pure r : K α) (fun r m' => Q r (k.withMem m')) m) :
    wpe E (pure r : Kern α) Q (k.withMem m) := by
  rw [wpe_pure] at h ⊢
  exact h

theorem wpe_fs {x : Fs.Code α} : wpe E (fs x) Q k ↔ Prog.wpe E x (fun a t => Q a { k with fs := t }) k.fs := wpe_zoom

end Lift

/-! ## Reading the program -/

variable {L : Layout} {sb : Fs.Superblock} {S : Set Nat} {a : Fs.Abs} {e : Fs.Entry} {p : ProcId} {file : List UInt8}
  {E : Stop → Prop} {k : Kernel} {m : Kmem}

/-- The inode `e` has the bytes `file`, and reading them changes nothing. -/
def Reads (sb : Fs.Superblock) (e : Fs.Entry) (file : List UInt8) (t : Fs.State) : Prop :=
  ∀ off n : UInt32, Prog.wpe (fun _ => False) (Fs.readi sb e (fun _ => true) off n) (fun r t' => t' = t ∧
    r = (((Sys.readi file off.toNat n.toNat).length : Int), Sys.readi file off.toNat n.toNat)) t

theorem readi_bytes (f : Nat → UInt8) (size : Nat) {off n : Nat} (hoff : off < 2 ^ 32) (hn : n < 2 ^ 32) :
    Sys.readi (Fs.bytes f 0 size) off n = Fs.bytes f off (Fs.readLen size off n) := by
  have hlen : (Fs.bytes f 0 size).length = size := by simp [Fs.bytes]
  have hwrap : (off + n) % 2 ^ 32 < off ↔ 2 ^ 32 ≤ off + n := by omega
  simp only [Sys.readi, Fs.readLen, hlen, hwrap]
  split
  · rfl
  · refine List.ext_getElem (by simp [Fs.bytes]) fun j _ _ => ?_
    simp [Fs.bytes]

theorem reads_of_locked {i : Nat} {x : Fs.Ino} {t : Fs.State} (h : Fs.Locked sb S p e i x a t) :
    ∃ file, Reads sb e file t := by
  obtain ⟨v, hv, -⟩ := h.slot
  have hh := h.rep.held hv (by simp)
  refine ⟨Fs.bytes ((t.view sb).byteAt v.inum) 0 (t.inode e).copy.size.toNat, fun off n => ?_⟩
  refine Prog.wpe_mono (Fs.wpe_readi hh (h.rep.whole_held hh)) ?_
  rintro r t' ⟨rfl, rfl | ⟨-, j, -, hj⟩⟩
  · rw [readi_bytes _ _ off.toNat_lt n.toNat_lt]
    simp [Fs.bytes]
  · cases hj

theorem wpe_readi {Q : Int × List UInt8 → Kernel → Prop} (h : Reads sb e file k.fs) {off n : Nat} (hn : n < 2 ^ 32)
    (hQ : Q (((Sys.readi file (off % 2 ^ 32) n).length : Int), Sys.readi file (off % 2 ^ 32) n) k) :
    wpe E (readi sb e off n) Q k := by
  rw [readi, wpe_fs]
  refine Prog.wpe_mono (Prog.wpe_weaken (h _ _) nofun) ?_
  rintro r t ⟨rfl, rfl⟩
  rwa [UInt32.toNat_ofNat', UInt32.toNat_ofNat', Nat.mod_eq_of_lt hn]

theorem wpe_loadLoop {Q : Int → Kernel → Prop} (h : Reads sb e file k.fs) {pagetable va offset sz c : Nat} :
    ∀ {i m}, wpe E (Sys.loadLoop file pagetable va offset sz c i) (fun r m' => Q r (k.withMem m')) m →
      wpe E (loadLoop sb e pagetable va offset sz c i) Q (k.withMem m) := by
  induction c with
  | zero => exact wpe_ret
  | succ c ih =>
    intro i m hw
    rw [Sys.loadLoop, wpe_bind] at hw
    rw [loadLoop, wpe_bind, wpe_vm]
    refine wpe_mono hw fun pa m1 h1 => ?_
    rw [wpe_ite] at h1 ⊢
    refine ⟨fun h0 => wpe_throw.mpr (wpe_throw.mp (h1.1 h0)), fun h0 => ?_⟩
    replace h1 := h1.2 h0
    dsimp only at h1 ⊢
    rw [wpe_bind] at h1 ⊢
    refine wpe_readi (k := k.withMem m1) h ?_ ?_
    · split <;> simp only [PGSIZE] at * <;> omega
    rw [wpe_bind, wpe_vm]
    refine wpe_mono h1 fun _ m2 h2 => ?_
    simp only [wpe_ite, ne_eq, Nat.cast_inj] at h2 ⊢
    exact ⟨fun hne => wpe_ret (h2.1 hne), fun he => ih (h2.2 he)⟩

theorem wpe_loadProgram {Q : Bool × Nat → Kernel → Prop} (h : Reads sb e file k.fs) {pagetable c : Nat} :
    ∀ {off sz m}, off < 2 ^ 32 →
      wpe E (Sys.loadProgram L file pagetable c off sz) (fun r m' => Q r (k.withMem m')) m →
      wpe E (loadProgram L sb e pagetable c off sz) Q (k.withMem m) := by
  induction c with
  | zero => exact fun _ => wpe_ret
  | succ c ih =>
    intro off sz m hoff hw
    have hnext : (off + 56) % 2 ^ 32 < 2 ^ 32 := Nat.mod_lt _ (by decide)
    rw [loadProgram, wpe_bind]
    refine wpe_readi (k := k.withMem m) (n := 56) h (by decide) ?_
    rw [Nat.mod_eq_of_lt hoff]
    simp only [Sys.loadProgram, wpe_ite] at hw
    have hlen : ∀ n : Nat, ((n : Int) = 56) ↔ n = 56 := fun n => by omega
    simp only [wpe_ite, ne_eq, hlen]
    refine ⟨fun h1 => wpe_ret (hw.1 h1), fun h1 => ⟨fun h2 => ih hnext ((hw.2 h1).1 h2), fun h2 => ?_⟩⟩
    replace hw := (hw.2 h1).2 h2
    refine ⟨fun h3 => wpe_ret (hw.1 h3), fun h3 => ⟨fun h4 => wpe_ret ((hw.2 h3).1 h4), fun h4 =>
      ⟨fun h5 => wpe_ret (((hw.2 h3).2 h4).1 h5), fun h5 => ?_⟩⟩⟩
    replace hw := ((hw.2 h3).2 h4).2 h5
    rw [wpe_bind] at hw
    rw [wpe_bind, wpe_vm]
    refine wpe_mono hw fun sz1 m1 h₁ => ?_
    rw [wpe_ite] at h₁ ⊢
    refine ⟨fun h0 => wpe_ret (h₁.1 h0), fun h0 => ?_⟩
    replace h₁ := h₁.2 h0
    rw [wpe_bind] at h₁ ⊢
    refine wpe_loadLoop h (wpe_mono h₁ fun r m2 h₂ => ?_)
    rw [wpe_ite] at h₂ ⊢
    exact ⟨fun hr => wpe_ret (h₂.1 hr), fun hr => ih hnext (h₂.2 hr)⟩

/-- What `Sys.buildImage` has still to do for `B` when the program is loaded: the stack. -/
def Rest (L : Layout) (E : Stop → Prop) (argv : List Nat) (B : Option Image → Kmem → Prop) (m : Kmem) :
    Option (Nat × Nat × Nat) → Prop
  | none => B none m
  | some (pagetable, sz, entry) => wpe E (Sys.buildStack L pagetable (pgRoundUp sz) entry argv) B m

theorem wpe_load {tf : Nat} {argv : List Nat} {B : Option Image → Kmem → Prop} (h : Reads sb e file k.fs)
    (hb : wpe E (Sys.buildImage L tf file argv) B m) :
    wpe E (load L sb tf e) (fun r k' => ∃ m', k' = k.withMem m' ∧ Rest L E argv B m' r) (k.withMem m) := by
  have hbad : ∀ {m'}, wpe E (pure none : K (Option Image)) B m' →
      wpe E (pure none : Kern _) (fun r k' => ∃ m', k' = k.withMem m' ∧ Rest L E argv B m' r) (k.withMem m') := by
    intro m' h'
    rw [wpe_pure] at h' ⊢
    exact ⟨m', rfl, h'⟩
  rw [load, wpe_bind]
  refine wpe_readi (k := k.withMem m) (n := 64) h (by decide) ?_
  rw [Nat.zero_mod]
  simp only [Sys.buildImage, wpe_ite] at hb
  have hlen : ∀ n : Nat, ((n : Int) = 64) ↔ n = 64 := fun n => by omega
  simp only [wpe_ite, ne_eq, hlen]
  refine ⟨fun h1 => hbad (hb.1 h1), fun h1 => ⟨fun h2 => hbad ((hb.2 h1).1 h2), fun h2 => ?_⟩⟩
  replace hb := (hb.2 h1).2 h2
  rw [wpe_bind] at hb
  rw [wpe_bind, wpe_vm]
  refine wpe_mono hb ?_
  rintro (_ | pagetable) m1 h₁
  · exact hbad h₁
  · rw [wpe_bind] at h₁ ⊢
    refine wpe_loadProgram h (Nat.mod_lt _ (by decide)) (wpe_mono h₁ ?_)
    rintro ⟨ok, sz⟩ m2 h₂
    cases ok with
    | true => exact wpe_pure.mpr ⟨m2, rfl, h₂⟩
    | false =>
      have h3 : wpe E (Sys.bad L pagetable sz) B m2 := h₂
      rw [Sys.bad, wpe_bind] at h3
      show wpe E (vm (procFreepagetable L pagetable sz) >>= fun _ => pure none) _ _
      rw [wpe_bind, wpe_vm]
      exact wpe_mono h3 fun _ m3 h4 => hbad h4

/-! ## exec -/

/-- `exec` does what `Sys.exec` does, and leaves the file system as it was. -/
theorem wpe_exec [Fs.Allows E] {path : List UInt8} {argv : List Nat} {Q : Int → Kernel → Prop} (hg : sb.Geom)
    (hrep : Fs.Rep sb S k.fs a) (hr : Fs.Ready sb p a.beginOp) (h0 : 0 ∉ path)
    (hQ : ∀ file, wpe E (Sys.exec L p path file argv) (fun r t => ∀ f, Fs.Rep sb S f a → Q r ⟨t, f⟩) k.sys) :
    wpe E (exec L sb p path argv) Q k := by
  rw [exec, wpe_bind, wpe_fs]
  refine Prog.wpe_mono (Fs.wpe_beginOp hrep) fun _ t1 h1 => ?_
  rw [wpe_bind, wpe_fs]
  refine Prog.wpe_mono (Fs.wpe_namei hg hr h1 h0) fun r t2 hgot => ?_
  cases hw : a.beginOp.walk (a.beginOp.start p path) (Fs.elems path) with
  | none =>
    rw [hw] at hgot
    obtain ⟨rfl, h2⟩ := hgot
    rw [wpe_bind, wpe_fs]
    refine Prog.wpe_mono (Fs.wpe_endOp h2) fun _ t3 h3 => wpe_pure.mpr ?_
    exact wpe_ok (hQ none) rfl t3 h3
  | some i =>
    rw [hw] at hgot
    obtain ⟨ip, rfl, hat, h2⟩ := hgot
    rw [wpe_bind, wpe_fs]
    refine Prog.wpe_mono (Fs.wpe_ilock_get h2 hat) ?_
    rintro _ t3 ⟨x, h3⟩
    obtain ⟨file, hfile⟩ := reads_of_locked h3
    have hsys := hQ (some file)
    rw [Sys.exec, wpe_bind, wpe_get] at hsys
    dsimp only at hsys
    rw [wpe_bind, Sys.vm, wpe_zoom] at hsys
    rw [wpe_bind, wpe_get, wpe_bind]
    refine wpe_mono (wpe_load (k := { k with fs := t3 }) hfile hsys) ?_
    rintro r _ ⟨m', rfl, hB⟩
    -- the file is closed, whatever has become of the program
    rw [wpe_bind, wpe_fs]
    refine Prog.wpe_mono (Fs.wpe_iunlockput_keep h3.rep h3.at_ h3.free (hr.orphans i)) fun _ t4 h4 => ?_
    rw [wpe_bind, wpe_fs]
    refine Prog.wpe_mono (Fs.wpe_endOp h4) fun _ t5 h5 => ?_
    rcases r with _ | ⟨pagetable, sz, entry⟩
    · exact wpe_pure.mpr (wpe_pure.mp hB t5 h5)
    · rw [wpe_bind, wpe_vm]
      refine wpe_mono hB ?_
      rintro (_ | im) m'' hB'
      · exact wpe_pure.mpr (wpe_pure.mp hB' t5 h5)
      · rw [wpe_sys, commit, wpe_bind, wpe_get]
        exact wpe_mono hB' fun r t ht => ht t5 h5

/-! ## Failure -/

section Fail

variable {X : Multiset Nat} {R : Multiset Sys.FileId} {path : List UInt8} {argv : List Nat} {s : Sys.State}

/-- The pages that were free are free again, and no other page has changed. -/
def Restored (m m' : Kmem) : Prop :=
  (↑m'.freelist : Multiset Nat) = ↑m.freelist ∧ Frame ↑m.freelist m.mem m'.mem

theorem wp_exec_fails {file : Option (List UInt8)} (h : Sys.Inv L s X R) (hst : (s.proc p).state ≠ .unused) :
    wp (Sys.exec L p path file argv) (fun r s' => r = -1 → ∃ m', s' = { s with kmem := m' } ∧ Restored s.kmem m') s := by
  obtain ⟨root, tf, ha⟩ := h.space hst
  cases file with
  | none =>
    rw [Sys.exec, wp_bind, wp_get]
    exact wp_pure.mpr fun _ => ⟨s.kmem, rfl, rfl, Frame.refl⟩
  | some file =>
    obtain ⟨hP, hc, htf⟩ := h.ready ha
    refine Sys.wp_exec_of h hst ha (Sys.wp_buildImage hP hc rfl htf) (fun m' hm' _ => ⟨m', rfl, hm'⟩) fun im m' hm' => ?_
    obtain ⟨v, hn, hv⟩ := Sys.Building.holds hm'
    exact ⟨v, hn, hv, fun s' _ _ hr => by omega⟩

/-- Nothing that the process or another one can see has changed. -/
structure Unchanged (p : ProcId) (k k' : Kernel) : Prop where
  proc : k'.sys.proc = k.sys.proc
  own : ∀ x ∈ Sys.procPages k.sys.kmem.mem (k.sys.proc p), k'.sys.kmem.mem x = k.sys.kmem.mem x
  others : ∀ x, x ∉ k.sys.kmem.freelist → k'.sys.kmem.mem x = k.sys.kmem.mem x
  free : k'.sys.kmem.freelist.Perm k.sys.kmem.freelist
  refs : ∀ e, (k'.fs.inode e).ref = (k.fs.inode e).ref ∧
    ((k.fs.inode e).ref ≠ 0 → (k'.fs.inode e).inum = (k.fs.inode e).inum)
  unlocked : ∀ e, (k'.fs.inode e).lock = none
  transactions : k'.fs.outstanding = k.fs.outstanding

theorem Unchanged.of {m' : Kmem} {k' : Kernel} (h : Sys.Inv L k.sys X R) (hm : Restored k.sys.kmem m')
    (hs : k'.sys = { k.sys with kmem := m' }) (hrep : Fs.Rep sb S k.fs a) (hrep' : Fs.Rep sb S k'.fs a)
    (hr : Fs.Ready sb p a.beginOp) : Unchanged p k k' := by
  have hframe : Frame ↑k.sys.kmem.freelist k.sys.kmem.mem k'.sys.kmem.mem := hs ▸ hm.2
  refine ⟨by rw [hs], fun x hx => hframe x ?_, hframe, by rw [hs]; exact Multiset.coe_eq_coe.mp hm.1, fun e => ?_,
    fun e => (hrep'.lock_eq e).symm.trans (hr.unlocked e), hrep'.outstanding_eq.symm.trans hrep.outstanding_eq⟩
  · have hd := (h.arena p).nodup
    rw [add_assoc] at hd
    exact notMem_of_nodup_add hd (Multiset.mem_add.mpr (.inl hx))
  · cases ht : a.slot e with
    | none => rw [hrep.slot_none.mp ht, hrep'.slot_none.mp ht]; exact ⟨rfl, fun h0 => absurd rfl h0⟩
    | some t => exact ⟨(hrep'.live ht).2.2.trans (hrep.live ht).2.2.symm, fun _ => (hrep'.live ht).2.1.trans (hrep.live ht).2.1.symm⟩

instance : Fs.Allows (fun _ => True) := ⟨trivial, trivial, trivial, trivial⟩

section

variable (h : Sys.Inv L k.sys X R) (hst : (k.sys.proc p).state ≠ .unused) (hg : sb.Geom) (hrep : Fs.Rep sb S k.fs a)
include h hst hg hrep

theorem wpe_exec_fails (hr : Fs.Ready sb p a.beginOp) (h0 : 0 ∉ path) :
    wpe (fun _ => True) (exec L sb p path argv) (fun r k' => Fs.Rep sb S k'.fs a ∧
      (r = -1 → ∃ m', k'.sys = { k.sys with kmem := m' } ∧ Restored k.sys.kmem m')) k := by
  refine wpe_exec hg hrep hr h0 fun file => wpe_mono (wpe_of_wp (wp_exec_fails h hst)) ?_
  exact fun r t ht f hf => ⟨hf, ht⟩

theorem wpe_sysExec_fails {path uargv : Nat}
    (hr : Fs.Ready sb p a.beginOp) :
    wpe (fun _ => True) (sysExec L sb p path uargv) (fun r k' => r = -1 → Fs.Rep sb S k'.fs a ∧
      ∃ m', k'.sys = { k.sys with kmem := m' } ∧ Restored k.sys.kmem m') k := by
  obtain ⟨root, tf, ha⟩ := h.space hst
  obtain ⟨hP, -, -⟩ := h.ready ha
  simp only [sysExec, copyinstr, wpe_bind, wpe_get, wpe_vm, ha.pagetable, Option.getD_some]
  refine wpe_mono (wpe_of_wp (wp_copyinstrLoop ha.space topPtes_user)) ?_
  rintro ⟨r, str⟩ m0 hm0
  rw [hm0, wpe_ite]
  refine ⟨fun _ => wpe_pure.mpr fun _ => ⟨hrep, k.sys.kmem, rfl, rfl, Frame.refl⟩, fun _ => ?_⟩
  have hout : ∀ x ∈ Radix.nodes child (word k.sys.kmem.mem) 2 root, x ∉ (↑k.sys.kmem.freelist : Multiset Nat) := by
    have hd := Multiset.nodup_of_le (Sys.pool_le (X := X) ha) (h.arena p).nodup
    exact fun x hx => notMem_of_nodup_add (Multiset.nodup_add.mp hd).1 hx
  rw [wpe_bind, wpe_vm]
  refine wpe_mono (wpe_of_wp (Sys.wp_fetchArgs topPtes_user hout ha.space
    (add_zero (↑k.sys.kmem.freelist : Multiset Nat)))) ?_
  rintro ⟨ok, argv⟩ m1 ⟨hsum1, hfr1⟩
  -- the pages of the arguments are freed when exec has failed
  have hback : ∀ {k2 : Kernel} {m2 : Kmem}, Fs.Rep sb S k2.fs a → k2.sys = { k.sys with kmem := m2 } → Restored m1 m2 →
      wpe (fun _ => True) (vm (Sys.freeArgs L argv)) (fun _ k' => Fs.Rep sb S k'.fs a ∧
        ∃ m', k'.sys = { k.sys with kmem := m' } ∧ Restored k.sys.kmem m') k2 := by
    intro k2 m2 hrep2 hk2 hm2
    rw [wpe_vm, hk2]
    refine wpe_mono (wpe_of_wp (Sys.wp_freeArgs (k := m2) hP (by rw [hm2.1]; exact hsum1))) ?_
    rintro _ m' ⟨hfree, hfr⟩
    refine ⟨hrep2, m', by rw [Kernel.withMem, hk2], hfree, (hfr1.trans (hm2.2.mono ?_)).trans hfr⟩
    rw [← hsum1]
    exact Multiset.le_add_right _ _
  have hend : ∀ {k2 : Kernel} {ret : Int}, Fs.Rep sb S k2.fs a →
      (ret = -1 → ∃ m2, k2.sys = { k.sys with kmem := m2 } ∧ Restored m1 m2) →
      wpe (fun _ => True) (do
        vm (Sys.freeArgs L argv)
        pure ret) (fun r k' => r = -1 → Fs.Rep sb S k'.fs a ∧
          ∃ m', k'.sys = { k.sys with kmem := m' } ∧ Restored k.sys.kmem m') k2 := by
    intro k2 ret hrep2 hret
    rw [wpe_bind]
    by_cases hne : ret = -1
    · obtain ⟨m2, hk2, hm2⟩ := hret hne
      exact wpe_mono (hback hrep2 hk2 hm2) fun _ k' hk' => wpe_pure.mpr fun _ => hk'
    · exact wpe_mono wpe_trivial fun _ k' _ => wpe_pure.mpr fun h => absurd h hne
  rw [wpe_ite, wpe_bind, wpe_bind]
  refine ⟨fun _ => ?_, fun _ => wpe_pure.mpr (hend hrep fun _ => ⟨m1, rfl, rfl, Frame.refl⟩)⟩
  have h1 : Sys.Inv L { k.sys with kmem := m1 } (↑argv + X) R := by
    refine h.pool ?_ (hfr1.mono (Multiset.le_add_right _ _))
    rw [← add_assoc, hsum1]
  have h0 : (0 : UInt8) ∉ str.takeWhile (· ≠ 0) := fun hmem => by simpa using List.mem_takeWhile_imp hmem
  refine wpe_mono (wpe_exec_fails (k := k.withMem m1) h1 hst hg hrep hr h0) ?_
  exact fun ret k2 hk2 => hend hk2.1 hk2.2

end

theorem exec_unchanged (L : Layout) (sb : Fs.Superblock) (S : Set Nat) (a : Fs.Abs) (X : Multiset Nat)
    (R : Multiset Sys.FileId) (p : ProcId) (k k' : Kernel) (h : Sys.Inv L k.sys X R)
    (hst : (k.sys.proc p).state ≠ .unused) (hg : sb.Geom) (hrep : Fs.Rep sb S k.fs a) (hr : Fs.Ready sb p a.beginOp) :
    (∀ path argv, 0 ∉ path → exec L sb p path argv k = .ok (-1, k') → Unchanged p k k' ∧ Fs.Rep sb S k'.fs a) ∧
    (∀ path uargv, sysExec L sb p path uargv k = .ok (-1, k') → Unchanged p k k' ∧ Fs.Rep sb S k'.fs a) := by
  constructor
  · intro path argv h0 hrun
    obtain ⟨hrep', hk'⟩ := wpe_ok (wpe_exec_fails h hst hg hrep hr h0) hrun
    obtain ⟨m', hs, hm⟩ := hk' rfl
    exact ⟨.of h hm hs hrep hrep' hr, hrep'⟩
  · intro path uargv hrun
    obtain ⟨hrep', m', hs, hm⟩ := wpe_ok (wpe_sysExec_fails h hst hg hrep hr) hrun rfl
    exact ⟨.of h hm hs hrep hrep' hr, hrep'⟩

theorem exec_empty : ∃ s0 k', Sys.main smallLayout 1 (Sys.reset fun _ _ => 0) = .ok ((), s0) ∧ (s0.proc 0).state = .runnable ∧
    exec smallLayout Fs.mkfsSuper 0 [48] [] ⟨s0, Fs.crowdedState 1⟩ = .ok (-1, k') := by
  obtain ⟨s0, hmain, hst, k', hrun, -⟩ : ∃ s0, Sys.main smallLayout 1 (Sys.reset fun _ _ => 0) = .ok ((), s0) ∧
      (s0.proc 0).state = .runnable ∧
      ∃ k', exec smallLayout Fs.mkfsSuper 0 [48] [] ⟨s0, Fs.crowdedState 1⟩ = .ok (-1, k') ∧ True := by decide +kernel
  exact ⟨s0, k', hmain, hst, hrun⟩

theorem exec_unchanged_empty : ∃ k k', exec smallLayout Fs.mkfsSuper 0 [48] [] k = .ok (-1, k') ∧ Unchanged 0 k k' := by
  obtain ⟨s0, k', hmain, hst, hrun⟩ := exec_empty
  have h : Sys.Inv smallLayout s0 0 0 := Sys.inv_boot_run (L := smallLayout) (n := 1) (by decide) hmain (Trans.run_nil s0)
  have hr := Fs.Crowded.ready (m := 1) (by decide) le_rfl 0
  have hun := exec_unchanged smallLayout Fs.mkfsSuper ∅ _ 0 0 0 ⟨s0, Fs.crowdedState 1⟩ k' h (by rw [hst]; nofun)
    Fs.geom_mkfsSuper (Fs.Crowded.rep (by decide)) ⟨hr.unlocked, hr.orphans, hr.dirs, Nat.le_add_left _ _, hr.cwd⟩
  exact ⟨_, k', hrun, (hun.1 [48] [] (by decide) hrun).1⟩

end Fail

end Exec
end Xv6
