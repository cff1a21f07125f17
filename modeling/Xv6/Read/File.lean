import Xv6.Read.Pipe
import Xv6.Fs.Share

/-!
# Xv6.Read.File

How many bytes `fileread` stores.

A pipe and the console take the count as a signed number. `readi` takes it as an unsigned one: a negative
count is a large one there, and only the test for a sum that wraps stops it. That test fails when the
offset is small.

* `Bounded`: the bound that `read` promises.
* `wpe_piperead_bounded`, `wpe_consoleread_bounded`: pipes and the console keep it.
* `wpe_readi_stored`: what `readi` stores.
* `fileread_bounded_iff`: when `fileread` keeps it.
* `wholeFile_read`: a `read` of -1 bytes that returns a whole file.
-/

namespace Xv6
namespace Read

open Bytes Wp Vm List

variable {root pi addr : Nat} {n : Int} {T : Multiset Nat} {f : Nat → Nat} {s s' : State} {E : Stop → Prop} {env : List Wake}

theorem wpe_vm {α : Type} {x : K α} {Q : α → State → Prop} :
    wpe E (vm x) Q s ↔ wpe E x (fun a k => Q a { s with k := k }) s.k := wpe_zoom

theorem wpe_fsys {α : Type} {x : Fs.Code α} {Q : α → State → Prop} :
    wpe E (fsys x) Q s ↔ Prog.wpe E x (fun a t => Q a { s with fs := t }) s.fs := wpe_zoom

/-- The call has stored at most `max n 0` bytes, all of them from `addr` on, and returns -1 or a number
from 0 to `max n 0`. -/
def Bounded (f : Nat → Nat) (addr : Nat) (n : Int) (s : State) (r : Int) (s' : State) : Prop :=
  (r = -1 ∨ 0 ≤ r ∧ r ≤ max n 0) ∧ ∃ l : List UInt8, (l.length : Int) ≤ max n 0 ∧ Stored f addr l s.k.mem s'.k.mem

theorem Bounded.nothing {r : Int} (hr : r = -1 ∨ r = 0) (hk : s'.k = s.k) : Bounded f addr n s r s' := by
  refine ⟨hr.imp id fun h0 => by omega, [], by simp, ?_⟩
  rw [hk]
  exact Stored.nil

/-! ## Pipes -/

theorem wpe_pipeWait : wpe (· = .sleep) (pipeWait pi env) (fun _ s' => s'.k = s.k) s := by
  induction env generalizing s with
  | nil =>
    rw [pipeWait, wpe_bind, wpe_get, wpe_ite]
    exact ⟨fun _ => wpe_throw.mpr rfl, fun _ => wpe_pure.mpr rfl⟩
  | cons w env ih =>
    rw [pipeWait, wpe_bind, wpe_get, wpe_ite, wpe_ite]
    refine ⟨fun _ => ⟨fun _ => wpe_pure.mpr rfl, fun _ => ?_⟩, fun _ => wpe_pure.mpr rfl⟩
    rw [wpe_bind, setPipe, wpe_modify]
    exact wpe_mono ih fun _ _ hk => hk

theorem wpe_piperead_bounded (h : UserTable s.k.mem root T f) (haddr : addr < 2 ^ 64) :
    wpe (· = .sleep) (piperead root pi addr n env) (Bounded f addr n s) s := by
  rw [piperead, wpe_bind]
  refine wpe_mono wpe_pipeWait fun ok s1 hk => ?_
  rw [wpe_ite]
  refine ⟨fun _ => ?_, fun _ => wpe_pure.mpr (.nothing (.inl rfl) hk)⟩
  rw [wpe_bind]
  refine wpe_of_wp (wp_mono (wp_pipeCopy pi n.toNat (i := 0) (by rw [hk]; exact h) haddr) ?_)
  rintro r s2 ⟨res, m, rfl, hext, hst, -⟩
  have hle := hext.le
  rw [hk] at hst
  refine wpe_pure.mpr ⟨.inr ⟨by omega, by omega⟩, _, ?_, hst⟩
  rw [length_take]
  omega

/-! ## The console -/

theorem wpe_consWait : wpe (· = .sleep) (consWait env) (fun _ s' => s'.k = s.k) s := by
  induction env generalizing s with
  | nil =>
    rw [consWait, wpe_bind, wpe_get, wpe_ite]
    exact ⟨fun _ => wpe_throw.mpr rfl, fun _ => wpe_pure.mpr rfl⟩
  | cons w env ih =>
    rw [consWait, wpe_bind, wpe_get, wpe_ite, wpe_ite]
    refine ⟨fun _ => ⟨fun _ => wpe_pure.mpr rfl, fun _ => ?_⟩, fun _ => wpe_pure.mpr rfl⟩
    rw [wpe_bind, setCons, wpe_modify]
    exact wpe_mono ih fun _ _ hk => hk

theorem wpe_consTake : wpe E consTake (fun _ s' => s'.k = s.k) s := by
  rw [consTake, wpe_bind, wpe_get, wpe_bind, setCons, wpe_modify]
  exact wpe_pure.mpr rfl

theorem wpe_consEof {target : Int} : wpe E (consEof n target) (fun _ s' => s'.k = s.k) s := by
  rw [consEof, wpe_bind, wpe_get, wpe_ite]
  exact ⟨fun _ => wpe_modify.mpr rfl, fun _ => wpe_pure.mpr rfl⟩

def ConsRead (f : Nat → Nat) (target n : Int) (dst : Nat) (s : State) (r : Int) (s' : State) : Prop :=
  (r = -1 ∨ target - n ≤ r ∧ r ≤ target) ∧ ∃ l : List UInt8, (l.length : Int) ≤ n ∧ Stored f dst l s.k.mem s'.k.mem

theorem wpe_consLoop {target : Int} {fuel : Nat} : ∀ {n : Int} {dst : Nat} {env : List Wake} {s : State}, 0 ≤ n →
    dst < 2 ^ 64 → UserTable s.k.mem root T f →
    wpe (· = .sleep) (consLoop root target fuel n dst env) (ConsRead f target n dst s) s := by
  have hstop : ∀ {n dst} {s s' : State}, 0 ≤ n → s'.k = s.k → ConsRead f target n dst s (target - n) s' := by
    intro n dst s s' hn hk
    refine ⟨.inr ⟨le_rfl, by omega⟩, [], hn, ?_⟩
    rw [hk]
    exact Stored.nil
  induction fuel with
  | zero =>
    intro n dst env s hn _ _
    exact wpe_pure.mpr (hstop hn rfl)
  | succ fuel ih =>
    intro n dst env s hn hdst h
    rw [consLoop, wpe_ite]
    refine ⟨fun hpos => ?_, fun _ => wpe_pure.mpr (hstop hn rfl)⟩
    rw [wpe_bind]
    refine wpe_mono wpe_consWait fun env' s1 hk1 => ?_
    cases env' with
    | none =>
      refine wpe_pure.mpr ⟨.inl rfl, [], hn, ?_⟩
      rw [hk1]
      exact Stored.nil
    | some env =>
      dsimp only
      rw [wpe_bind]
      refine wpe_mono wpe_consTake fun c s2 hk2 => ?_
      have hk2 : s2.k = s.k := hk2.trans hk1
      rw [wpe_ite]
      constructor
      · intro _
        rw [wpe_bind]
        exact wpe_mono wpe_consEof fun _ s3 hk3 => wpe_pure.mpr (hstop hn (hk3.trans hk2))
      intro _
      rw [wpe_bind, wpe_vm]
      refine wpe_of_wp (wp_mono (wp_copyout_stored dst [c] (by rw [hk2]; exact h)) ?_)
      rintro r k3 ⟨m, hext, hst, htab, -⟩
      rw [hk2] at hst
      rw [wpe_ite, wpe_ite]
      refine ⟨fun hr => wpe_pure.mpr ?_, fun hr => ?_⟩
      · have hm := hext.stop
        rw [hr] at hm
        obtain rfl : m = 0 := by
          rcases hm with ⟨h0, -⟩ | ⟨-, hlt, -⟩
          · cases h0
          · exact Nat.lt_one_iff.mp hlt
        exact ⟨.inr ⟨le_rfl, by omega⟩, [], hn, hst⟩
      · obtain rfl : r = 0 := hext.result.resolve_right hr
        obtain rfl := hext.of_result_zero
        have hmap := hext.mapped 0 Nat.one_pos
        refine ⟨fun _ => wpe_pure.mpr ⟨.inr ⟨by omega, by omega⟩, [c], hpos, hst⟩, fun _ => ?_⟩
        have hlt : dst + 1 < 2 ^ 64 := by
          have := (valid_of_addrOf hmap).1
          simp only [PGSIZE] at this
          omega
        rw [Nat.mod_eq_of_lt hlt]
        refine wpe_mono (ih (by omega) hlt htab) ?_
        rintro r s' ⟨hr, l, hl, hst'⟩
        refine ⟨hr.imp id fun hr => ⟨by omega, hr.2⟩, [c] ++ l, ?_, hst.append h hst' fun q hq => hext.mapped q hq⟩
        simp only [length_append, length_cons, length_nil]
        omega

theorem wpe_consoleread_bounded (h : UserTable s.k.mem root T f) (haddr : addr < 2 ^ 64) :
    wpe (· = .sleep) (consoleread root addr n env) (Bounded f addr n s) s := by
  rw [consoleread]
  by_cases hn : 0 ≤ n
  · refine wpe_mono (wpe_consLoop hn haddr h) ?_
    rintro r s' ⟨hr, l, hl, hst⟩
    exact ⟨hr.imp id fun hr => ⟨by omega, by omega⟩, l, by omega, hst⟩
  · rw [Int.toNat_of_nonpos (by omega)]
    exact wpe_pure.mpr (.nothing (.inr (by omega)) rfl)

/-! ## Inodes -/

section Inode

variable {sb : Fs.Superblock} {e : Fs.Entry} {i : Nat}

def readResult (len : Nat) (res : Int) : Int := if res = 0 then len else -1

theorem wpe_readiLoop_stored {len : Nat} {t : Fs.State} (hh : Fs.Held sb e i t) (hw : (t.view sb).Whole i) (fuel : Nat) :
    ∀ {off tot dst : Nat} {s : State}, s.fs = t → tot ≤ len → len - tot ≤ fuel → off + (len - tot) ≤ (t.inode e).copy.size.toNat →
      dst < 2 ^ 64 → UserTable s.k.mem root T f →
      wpe E (readiLoop sb root e len fuel off tot dst) (fun r s' => s'.fs = t ∧ ∃ res m, r = readResult len res ∧
        Extent f dst (len - tot) res m ∧
        Stored f dst ((Fs.bytes ((t.view sb).byteAt i) off (len - tot)).take m) s.k.mem s'.k.mem) s := by
  have hsize := hw.size
  rw [hh.dinode] at hsize
  have hdone : ∀ {off tot dst : Nat} {s : State}, s.fs = t → tot ≤ len → ¬ tot < len →
      wpe E (pure (tot : Int) : Kern Int) (fun r s' => s'.fs = t ∧ ∃ res m, r = readResult len res ∧
        Extent f dst (len - tot) res m ∧
        Stored f dst ((Fs.bytes ((t.view sb).byteAt i) off (len - tot)).take m) s.k.mem s'.k.mem) s := by
    intro off tot dst s hs hle hlt
    obtain rfl : tot = len := by omega
    rw [Nat.sub_self]
    exact wpe_pure.mpr ⟨hs, 0, 0, rfl, Extent.zero, Stored.nil⟩
  induction fuel with
  | zero =>
    intro off tot dst s hs hle hfuel _ _ _
    exact hdone hs hle (by omega)
  | succ fuel ih =>
    intro off tot dst s hs hle hfuel hoff hdst htab
    rw [readiLoop, wpe_ite]
    refine ⟨fun hlt => ?_, hdone hs hle⟩
    have hpos : off / BSIZE * BSIZE < (t.inode e).copy.size.toNat := by
      simp only [BSIZE]
      omega
    have hbn : off / BSIZE < Fs.MAXFILE := by
      simp only [Fs.MAXFILE, BSIZE] at *
      omega
    have hne := hw.blocks (off / BSIZE) (by rw [hh.dinode]; exact hpos)
    rw [wpe_bind, wpe_fsys, hs]
    refine Fs.wpe_bmap_mapped hh hbn hne fun a ha0 ha => ?_
    rw [if_neg ha0, wpe_bind, wpe_fsys, Prog.wpe_atomic]
    refine Fs.wpe_bread ?_
    set m := min (len - tot) (BSIZE - off % BSIZE) with hm
    have hmod := Nat.mod_lt off (show 0 < BSIZE by decide)
    have hslice := hh.slice_block (m := m) (by omega) hne
    dsimp only
    rw [ha, hslice, wpe_bind, wpe_vm]
    refine wpe_of_wp (wp_mono (wp_copyout_stored dst _ htab) ?_)
    rintro r k1 ⟨m1, hext, hst, htab1, -⟩
    have hlen : (Fs.bytes ((t.view sb).byteAt i) off m).length = m := Fs.length_bytes _ _ _
    have hsplit : len - tot = m + (len - (tot + m)) := by omega
    rw [hlen] at hext
    rw [wpe_ite]
    refine ⟨fun hr => wpe_pure.mpr ⟨rfl, -1, m1, rfl, ?_, ?_⟩, fun hr => ?_⟩
    · rw [hsplit]
      exact (hr ▸ hext).more
    · rw [hsplit, Fs.bytes_add, take_append_of_le_length (by rw [hlen]; exact hext.le)]
      exact hst
    · obtain rfl : r = 0 := hext.result.resolve_right hr
      obtain rfl := hext.of_result_zero
      have hmap := hext.mapped (m - 1) (by omega)
      have hlt' : dst + m < 2 ^ 64 := by
        have := (valid_of_addrOf hmap).1
        simp only [PGSIZE, BSIZE] at this hm
        omega
      rw [Nat.mod_eq_of_lt hlt']
      refine wpe_mono (ih rfl (by omega) (by omega) (by omega) hlt' htab1) ?_
      rintro r s' ⟨hs', res, m', hr', hext', hst'⟩
      refine ⟨hs', res, m + m', hr', ?_, ?_⟩
      · rw [hsplit]
        exact hext.append hext'
      · rw [hsplit, Fs.bytes_add, take_append, hlen, Nat.add_sub_cancel_left]
        rw [take_of_length_le (by omega)] at hst ⊢
        exact hst.append htab (by rw [hlen]; exact hst') fun q hq => hext.mapped q (by rwa [hlen] at hq)

variable {p : Fs.ProcId} {off cnt : UInt32} {g : List UInt8}

/-- `readi` stores the bytes of the file up to the first page that the process does not have. -/
theorem wpe_readi_stored (h : Fs.Locks sb p e i s.fs) (hg : Fs.contentOf sb s.fs i = some g) (haddr : addr < 2 ^ 64)
    (htab : UserTable s.k.mem root T f) : wpe E (readi sb root e addr off cnt) (fun r s' => s'.fs = s.fs ∧ ∃ res m,
      r = readResult (Fs.readBytes g off.toNat cnt.toNat).length res ∧
      Extent f addr (Fs.readBytes g off.toNat cnt.toNat).length res m ∧
      Stored f addr ((Fs.readBytes g off.toNat cnt.toNat).take m) s.k.mem s'.k.mem) s := by
  obtain ⟨S, a, t, hr, ht, rfl, hl⟩ := h
  have hlock : a.lock e ≠ none := by simp [hl]
  have hh := hr.held ht hlock
  have hx := hr.copy ht hlock
  rw [hr.contentOf, hx] at hg
  obtain rfl := Option.some.inj hg
  rw [Fs.length_readBytes, ← Fs.readLen_eq, readi, wpe_bind, wpe_fsys]
  refine Fs.wpe_copyOf (wpe_ite.mpr ⟨fun hc => ?_, fun hc => ?_⟩)
  · refine wpe_pure.mpr ⟨rfl, 0, 0, ?_⟩
    rw [Fs.readLen_rejected hc]
    exact ⟨rfl, Extent.zero, Stored.nil⟩
  · obtain ⟨hk, hfit⟩ := Fs.toNat_clipped hc
    dsimp only
    rw [hk]
    exact wpe_readiLoop_stored hh (hr.whole_held hh) _ rfl (Nat.zero_le _) le_rfl hfit haddr htab

end Inode

/-! ## fileread -/

section

variable {sb : Fs.Superblock} {p : Fs.ProcId} {fd : Fs.FileId} {i : Nat} {g : List UInt8} {cnt : Int32}

theorem wpe_advance {r : Int} {t : Fs.State} {Q : Unit → Fs.State → Prop} (hQ : ∀ file, Q () { t with file := file }) :
    Prog.wpe E (.atomic (Fs.advance fd r)) Q t := by
  rw [Prog.wpe_atomic, Fs.advance, wpe_ite]
  refine ⟨fun _ => ?_, fun _ => wpe_pure.mpr (hQ t.file)⟩
  rw [Fs.setFile, wpe_modify]
  exact hQ _

theorem wpe_fileread_inode (hread : (s.fs.file fd).readable = true) (htype : (s.fs.file fd).type = .inode)
    (h : Fs.Free sb (s.fs.file fd).ip i s.fs) (hg : Fs.contentOf sb s.fs i = some g) (haddr : addr < 2 ^ 64)
    (htab : UserTable s.k.mem root T f) : wpe E (fileread sb p root fd addr cnt env) (fun r s' => ∃ res m,
      r = readResult (Fs.readBytes g (s.fs.file fd).off.toNat cnt.toUInt32.toNat).length res ∧
      Extent f addr (Fs.readBytes g (s.fs.file fd).off.toNat cnt.toUInt32.toNat).length res m ∧
      Stored f addr ((Fs.readBytes g (s.fs.file fd).off.toNat cnt.toUInt32.toNat).take m) s.k.mem s'.k.mem) s := by
  rw [fileread, wpe_bind, wpe_fsys]
  refine Fs.fileOf_wpe ?_
  rw [if_neg (by rw [hread]; decide), htype]
  dsimp only
  rw [wpe_bind, wpe_fsys]
  refine Prog.wpe_mono (Fs.wpe_ilock_ready h (by rw [hg]; exact Option.some_ne_none g)) ?_
  rintro _ t1 ⟨hl, htabs, hview⟩
  obtain ⟨hfile, -, -⟩ := htabs.file
  rw [wpe_bind, wpe_fsys]
  refine Fs.fileOf_wpe ?_
  rw [hfile, wpe_bind]
  refine wpe_mono (wpe_readi_stored hl ((Fs.contentOf_congr hview i).trans hg) haddr htab) ?_
  rintro r s2 ⟨hfs, res, m, hr, hext, hst⟩
  have hl2 : Fs.Locks sb p (s.fs.file fd).ip i s2.fs := by rwa [hfs]
  rw [wpe_bind, wpe_fsys]
  refine wpe_advance fun file => ?_
  rw [wpe_bind, wpe_fsys]
  refine Prog.wpe_mono (Fs.wpe_iunlock_free (hl2.setFile file)) ?_
  rintro _ t3 -
  exact wpe_pure.mpr ⟨res, m, hr, hext, hst⟩

theorem toNat_count (n : Int32) : (n.toUInt32.toNat : Int) = if n.toInt < 0 then n.toInt + 2 ^ 32 else n.toInt := by
  have hcond := BitVec.toInt_eq_toNat_cond n.toBitVec
  have hlt := n.toBitVec.isLt
  have hnat : n.toUInt32.toNat = n.toBitVec.toNat := rfl
  have hint : n.toInt = n.toBitVec.toInt := rfl
  rw [hnat, hint, hcond]
  split <;> split <;> omega

/-- Bytes of a file are delivered though a negative number of them was asked for. -/
def Overread (g : List UInt8) (off : Nat) (n : Int) : Prop := n < 0 ∧ (off : Int) < -n ∧ off < g.length

theorem overread_iff {off : Nat} :
    max cnt.toInt 0 < (Fs.readBytes g off cnt.toUInt32.toNat).length ↔ Overread g off cnt.toInt := by
  have hcnt := toNat_count cnt
  have hmin := cnt.le_toInt
  rw [Fs.readBytes, Overread]
  split at hcnt <;> split <;> simp only [length_nil, length_take, length_drop] <;> omega

theorem Bounded.of_stored {l : List UInt8} {res : Int} {m : Nat} (hl : (l.length : Int) ≤ max n 0)
    (hst : Stored f addr (l.take m) s.k.mem s'.k.mem) : Bounded f addr n s (readResult l.length res) s' := by
  refine ⟨?_, l.take m, ?_, hst⟩
  · rw [readResult]
    split
    · exact .inr ⟨by omega, hl⟩
    · exact .inl rfl
  · rw [length_take]
    omega

theorem wpe_fileread_bounded (haddr : addr < 2 ^ 64) (htab : ProcTable s.k.mem root T f)
    (hread : (s.fs.file fd).readable = true) (htype : (s.fs.file fd).type ≠ .none)
    (hino : (s.fs.file fd).type = .inode → ∃ i g, Fs.Free sb (s.fs.file fd).ip i s.fs ∧ Fs.contentOf sb s.fs i = some g ∧
      (Overread g (s.fs.file fd).off.toNat cnt.toInt → ¬ UserPage f (addr / PGSIZE))) :
    wpe (· = .sleep) (fileread sb p root fd addr cnt env) (Bounded f addr cnt.toInt s) s := by
  by_cases hty : (s.fs.file fd).type = .inode
  · obtain ⟨i, g, hfree, hg, hpage⟩ := hino hty
    refine wpe_mono (wpe_fileread_inode hread hty hfree hg haddr htab.toUserTable) ?_
    rintro r s' ⟨res, m, rfl, hext, hst⟩
    by_cases hover : Overread g (s.fs.file fd).off.toNat cnt.toInt
    · have hlong := overread_iff.mpr hover
      have hz := htab.addrOf_eq_zero.mpr (hpage hover)
      obtain rfl : m = 0 := by
        by_contra hm
        exact (hext.pos_iff (by omega)).mp (Nat.pos_of_ne_zero hm) hz
      refine ⟨.inl ?_, [], le_max_right _ _, hst⟩
      rcases hext.stop with ⟨-, h0⟩ | ⟨hres, -, -⟩
      · omega
      · rw [readResult, hres]
        rfl
    · exact .of_stored (not_lt.mp (mt overread_iff.mp hover)) hst
  · rw [fileread, wpe_bind, wpe_fsys]
    refine Fs.fileOf_wpe ?_
    rw [if_neg (by rw [hread]; decide)]
    cases h : (s.fs.file fd).type with
    | none => exact absurd h htype
    | inode => exact absurd h hty
    | pipe => exact wpe_piperead_bounded htab.toUserTable haddr
    | device =>
      dsimp only
      rw [wpe_ite]
      exact ⟨fun _ => wpe_pure.mpr (.nothing (.inl rfl) rfl), fun _ => wpe_consoleread_bounded htab.toUserTable haddr⟩

theorem exists_other_byte {u : Nat → Nat} {k : Kmem} (h : ProcTable k.mem root T u) (hpage : UserPage u (addr / PGSIZE)) (c : UInt8) :
    ∃ k' : Kmem, ProcTable k'.mem root T u ∧ seen u k'.mem addr ≠ c := by
  have hne := h.addrOf_ne_zero.mpr hpage
  set pa := addrOf u (addr / PGSIZE) with hpa
  refine ⟨{ k with mem := Function.update k.mem pa (putBytes (k.mem pa) (addr % PGSIZE) [c + 1]) },
    ⟨h.toUserTable.memmove hpa.symm hne _, h.ram⟩, ?_⟩
  rw [seen, ← hpa]
  dsimp only
  rw [Function.update_self]
  have hbyte : byte (putBytes (k.mem pa) (addr % PGSIZE) [c + 1]) (addr % PGSIZE) = c + 1 :=
    byte_putBytes_in (i := 0) (Nat.mod_lt addr (by decide)) (show 0 < [c + 1].length from Nat.one_pos)
  rw [hbyte]
  simp

/-- For a readable file of any kind, every offset, size and count, and all memories of a process with
page table `root`: the call stores no more than was asked for and returns no other number, unless an inode
is read from a small offset with a negative count. -/
theorem fileread_bounded_iff (sb : Fs.Superblock) (p : Fs.ProcId) (root : Nat) (fd : Fs.FileId) (addr : Nat) (n : Int32)
    (env : List Wake) (fs : Fs.State) (pipe : Nat → PipeBuf) (cons : Cons) (T : Multiset Nat) (u : Nat → Nat) (i : Nat)
    (g : List UInt8) (haddr : addr < 2 ^ 64) (hproc : ∃ k : Kmem, ProcTable k.mem root T u)
    (hread : (fs.file fd).readable = true) (htype : (fs.file fd).type ≠ .none)
    (hino : (fs.file fd).type = .inode → Fs.Free sb (fs.file fd).ip i fs ∧ Fs.contentOf sb fs i = some g) :
    (∀ k : Kmem, ProcTable k.mem root T u →
      wpe (· = .sleep) (fileread sb p root fd addr n env) (Bounded u addr n.toInt ⟨k, fs, pipe, cons⟩) ⟨k, fs, pipe, cons⟩) ↔
    ¬ ((fs.file fd).type = .inode ∧ Overread g (fs.file fd).off.toNat n.toInt ∧ UserPage u (addr / PGSIZE)) := by
  constructor
  · -- the bytes stored differ from what was there
    rintro hall ⟨hty, hover, hpage⟩
    obtain ⟨k0, hk0⟩ := hproc
    obtain ⟨hfree, hg⟩ := hino hty
    have hlong := overread_iff.mpr hover
    set l := Fs.readBytes g (fs.file fd).off.toNat n.toUInt32.toNat with hl
    have hmax : max n.toInt 0 = 0 := max_eq_right (le_of_lt hover.1)
    have hpos : 0 < l.length := by omega
    obtain ⟨k, hk, hbyte⟩ := exists_other_byte hk0 hpage l[0]
    have hwp : wpe (fun _ => False) (fileread sb p root fd addr n env) _ ⟨k, fs, pipe, cons⟩ :=
      wpe_fileread_inode hread hty hfree hg haddr hk.toUserTable
    obtain ⟨r, s', hrun, res, m, -, hext, hst⟩ := wp_iff.mp (wp_of_wpe hwp fun _ => id)
    have hm : 0 < m := (hext.pos_iff hpos).mpr (hk.addrOf_ne_zero.mpr hpage)
    obtain ⟨-, l', hl', hst'⟩ := wpe_ok (hall k hk) hrun
    obtain rfl : l' = [] := by
      rw [hmax] at hl'
      exact eq_nil_of_length_eq_zero (by omega)
    have hsame := hst'.seen_eq hk.toUserTable (hk.addrOf_ne_zero.mpr hpage) (.inr le_rfl)
    have hnew := hst.bytes 0 (by rw [length_take]; exact lt_min hm hpos)
    rw [Nat.add_zero, getElem_take] at hnew
    exact hbyte (hsame.symm.trans hnew)
  · intro hno k hk
    refine wpe_fileread_bounded haddr hk hread htype fun hty => ⟨i, g, (hino hty).1, (hino hty).2, ?_⟩
    exact not_and.mp fun hc => hno ⟨hty, hc⟩

def twoBytes (k : Kmem) : State where
  k := k
  fs := Fs.sharedFile.fs
  pipe := fun _ => ⟨fun _ => 0, 0, 0, true⟩
  cons := ⟨fun _ => 0, 0, 0⟩

/-- The whole file is returned to a process that asks for -1 bytes. -/
theorem wholeFile_read : ∃ k s', fileread Fs.mkfsSuper 0 (KERNBASE + 0x10000) 0 0 (-1) [] (twoBytes k) = .ok (2, s') ∧
    chars (onePte (PTE_R ||| PTE_W ||| PTE_U)) s'.k.mem 0 2 = [97, 97] := by
  obtain ⟨-, k, T, -, -, h⟩ := procTable_onePage
  have hfree := Fs.opened_sharedFile.free
  have hg : Fs.contentOf Fs.mkfsSuper Fs.sharedFile.fs 1 = some [97, 97] := by decide +kernel
  have hwp : wpe (fun _ => False) (fileread Fs.mkfsSuper 0 (KERNBASE + 0x10000) 0 0 (-1) []) _ (twoBytes k) :=
    wpe_fileread_inode rfl rfl hfree hg (by decide) h.toUserTable
  obtain ⟨r, s', hrun, res, m, hr, hext, hst⟩ := wp_iff.mp (wp_of_wpe hwp fun _ => id)
  have hl : Fs.readBytes [97, 97] (((twoBytes k).fs.file 0).off.toNat) (-1 : Int32).toUInt32.toNat = [97, 97] := by
    show Fs.readBytes [97, 97] 0 4294967295 = [97, 97]
    decide +kernel
  rw [hl] at hr hext hst
  obtain rfl : res = 0 := hext.eq_zero_iff.mpr fun j hj => by
    obtain rfl : j = 0 := by
      simp only [Covers, PGSIZE, length_cons, length_nil] at hj
      omega
    exact h.addrOf_ne_zero.mpr userPage_onePte
  obtain rfl := hext.of_result_zero
  rw [show r = 2 from hr] at hrun
  exact ⟨k, s', hrun, hst.chars⟩

theorem fileread_bounded_twoBytes :
    ∃ k T, ProcTable k.mem (KERNBASE + 0x10000) T (onePte (PTE_R ||| PTE_W ||| PTE_U)) ∧
      wpe (· = .sleep) (fileread Fs.mkfsSuper 0 (KERNBASE + 0x10000) 0 0 5 [])
        (Bounded (onePte (PTE_R ||| PTE_W ||| PTE_U)) 0 5 (twoBytes k)) (twoBytes k) := by
  obtain ⟨-, k, T, -, -, h⟩ := procTable_onePage
  have hg : Fs.contentOf Fs.mkfsSuper Fs.sharedFile.fs 1 = some [97, 97] := by decide +kernel
  refine ⟨k, T, h, (fileread_bounded_iff Fs.mkfsSuper 0 _ 0 0 5 [] Fs.sharedFile.fs (twoBytes k).pipe (twoBytes k).cons T _ 1
    [97, 97] (by decide) ⟨k, h⟩ rfl (by decide) fun _ => ⟨Fs.opened_sharedFile.free, hg⟩).mpr ?_ k h⟩
  rintro ⟨-, hover, -⟩
  exact absurd hover.1 (by decide)

end

end Read
end Xv6
