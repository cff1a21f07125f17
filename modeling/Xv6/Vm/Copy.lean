import Xv6.Vm.Map

/-!
# Xv6.Vm.Copy

What `copyout`, `copyin` and `copyinstr` do, byte by byte, for any page table of a process.

* `Extent`: how far a copy gets. It stops at the first page that the process may not use.
* `Stored`: the bytes of a list are at an address of the process, and nothing else has changed.
* `wp_copyout_stored`, `wp_copyin_chars`, `wp_copyinstr_str`: the three copies.
* `copy_exact`, `copyinstr_exact`: they transfer exactly what was asked for, or fail.
-/

namespace Xv6
namespace Vm

open Bytes Wp Function List

/-! ## The pages of a process -/

/-- `walkaddr`: the physical page that the process may use under page number `j`, 0 if there is none. -/
def addrOf (f : Nat → Nat) (j : Nat) : Nat :=
  if j < 2 ^ 26 ∧ f j &&& PTE_V ≠ 0 ∧ f j &&& PTE_U ≠ 0 then pte2pa (f j) else 0

/-- A page table of a process: its user pages are distinct, and none of them is part of the table. -/
structure UserTable (mem : Nat → Page) (root : Nat) (T : Multiset Nat) (f : Nat → Nat) : Prop where
  table : Table mem root T f
  apart : ∀ j, addrOf f j ≠ 0 → addrOf f j ∉ T
  inj : ∀ i j, addrOf f i ≠ 0 → addrOf f i = addrOf f j → i = j

def Covers (dstva len j : Nat) : Prop := dstva < (j + 1) * PGSIZE ∧ j * PGSIZE < dstva + len ∧ 0 < len

def seen (f : Nat → Nat) (mem : Nat → Page) (a : Nat) : UInt8 := byte (mem (addrOf f (a / PGSIZE))) (a % PGSIZE)

def chars (f : Nat → Nat) (mem : Nat → Page) (a n : Nat) : List UInt8 := (range n).map fun q => seen f mem (a + q)

variable {root va len n m j : Nat} {T : Multiset Nat} {f : Nat → Nat} {k : Kmem} {src l l' : List UInt8}
  {mem mem' mem₁ : Nat → Page} {res : Int} {fuel max fuel' : Nat} {dst : List UInt8}

theorem valid_of_addrOf (h : addrOf f j ≠ 0) : j < 2 ^ 26 ∧ f j &&& PTE_V ≠ 0 ∧ f j &&& PTE_U ≠ 0 := by
  by_contra hc
  exact h (if_neg hc)

theorem covers_iff : Covers va len j ↔ ∃ q < len, (va + q) / PGSIZE = j := by
  constructor
  · intro h
    refine ⟨max va (j * PGSIZE) - va, ?_⟩
    simp only [Covers, PGSIZE] at h ⊢
    omega
  · rintro ⟨q, hq, rfl⟩
    simp only [Covers, PGSIZE]
    omega

@[simp] theorem length_chars : (chars f mem va n).length = n := by simp [chars]

theorem getElem_chars {q : Nat} (h : q < (chars f mem va n).length) : (chars f mem va n)[q] = seen f mem (va + q) := by
  simp [chars]

theorem chars_add : chars f mem va (n + m) = chars f mem va n ++ chars f mem (va + n) m := by
  simp only [chars, range_add, map_append, map_map]
  congr 1
  refine map_congr_left fun q _ => ?_
  simp only [comp_apply, Nat.add_assoc]

theorem same_page {q : Nat} (hn : n ≤ PGSIZE - va % PGSIZE) (hq : q < n) :
    (va + q) / PGSIZE = va / PGSIZE ∧ (va + q) % PGSIZE = va % PGSIZE + q := by
  simp only [PGSIZE] at *
  omega

theorem slice_eq_chars (hn : n ≤ PGSIZE - va % PGSIZE) :
    slice (mem (addrOf f (va / PGSIZE))) (va % PGSIZE) n = chars f mem va n := by
  refine ext_getElem (by simp) fun q h1 h2 => ?_
  obtain ⟨hd, hm⟩ := same_page hn (by simpa using h1)
  rw [getElem_chars, seen, hd, hm]
  simp [slice]

theorem UserTable.memmove {pa off : Nat} (h : UserTable k.mem root T f) (hpa : addrOf f j = pa) (hne : pa ≠ 0)
    (l : List UInt8) : UserTable (update k.mem pa (putBytes (k.mem pa) off l)) root T f := by
  subst hpa
  refine ⟨h.table.congr fun x hx => update_of_ne ?_ _ _, h.apart, h.inj⟩
  rintro rfl
  exact h.apart j hne hx

theorem wp_walkaddr_eq {Q : Nat → Kmem → Prop} (h : Table k.mem root T f) (hQ : Q (addrOf f j) k) :
    wp (walkaddr root (j * PGSIZE)) Q k := by
  rw [walkaddr, wp_ite]
  constructor
  · intro hj
    rw [addrOf, if_neg (by simp only [MAXVA, PGSIZE] at hj; omega)] at hQ
    exact wp_pure.mpr hQ
  · intro hj
    have hlt : j < 2 ^ 26 := by simp only [MAXVA, PGSIZE] at hj; omega
    rw [wp_bind]
    refine wp_walk_false h hlt (fun h0 => ?_) fun ref href => ?_
    · rw [addrOf, h0, if_neg (by simp)] at hQ
      exact wp_pure.mpr hQ
    · simp only [wp_bind, wp_readPte, h.slot_read (by omega) href, wp_ite, wp_pure]
      refine ⟨fun hv => ?_, fun hv => ⟨fun hu => ?_, fun hu => ?_⟩⟩
      · rwa [addrOf, if_neg fun hc => hc.2.1 hv] at hQ
      · rwa [addrOf, if_neg fun hc => hc.2.2 hu] at hQ
      · rwa [addrOf, if_pos ⟨hlt, hv, hu⟩] at hQ

/-! ## How far a copy gets -/

/-- A copy of `len` bytes at `va` has transferred `m` bytes, and returns `res`. -/
structure Extent (f : Nat → Nat) (va len : Nat) (res : Int) (m : Nat) : Prop where
  le : m ≤ len
  mapped : ∀ q < m, addrOf f ((va + q) / PGSIZE) ≠ 0
  stop : res = 0 ∧ m = len ∨ res = -1 ∧ m < len ∧ addrOf f ((va + m) / PGSIZE) = 0

theorem Extent.zero : Extent f va 0 0 0 := ⟨le_rfl, fun q hq => absurd hq (Nat.not_lt_zero q), .inl ⟨rfl, rfl⟩⟩

theorem Extent.unmapped (hlen : 0 < len) (hz : addrOf f (va / PGSIZE) = 0) : Extent f va len (-1) 0 :=
  ⟨Nat.zero_le _, fun q hq => absurd hq (Nat.not_lt_zero q), .inr ⟨rfl, hlen, hz⟩⟩

theorem Extent.page (hn : n = min (PGSIZE - va % PGSIZE) len) (hpa : addrOf f (va / PGSIZE) ≠ 0)
    (h : Extent f ((va / PGSIZE + 1) * PGSIZE) (len - n) res m) : Extent f va len res (n + m) := by
  have hnext : 0 < len - n → (va / PGSIZE + 1) * PGSIZE = va + n := by
    simp only [PGSIZE] at *
    omega
  have hle := h.le
  refine ⟨by omega, fun q hq => ?_, ?_⟩
  · by_cases hqn : q < n
    · rw [(same_page (by omega) hqn).1]
      exact hpa
    · have := h.mapped (q - n) (by omega)
      rwa [hnext (by omega), Nat.add_assoc, Nat.add_sub_cancel' (by omega)] at this
  · rcases h.stop with ⟨hr, hm⟩ | ⟨hr, hm, hz⟩
    · exact .inl ⟨hr, by omega⟩
    · rw [hnext (by omega), Nat.add_assoc] at hz
      exact .inr ⟨hr, by omega, hz⟩

theorem Extent.result (h : Extent f va len res m) : res = 0 ∨ res = -1 := h.stop.imp And.left And.left

theorem Extent.eq_zero_iff (h : Extent f va len res m) : res = 0 ↔ ∀ j, Covers va len j → addrOf f j ≠ 0 := by
  rcases h.stop with ⟨hr, hm⟩ | ⟨hr, hm, hz⟩
  · refine iff_of_true hr fun j hj => ?_
    obtain ⟨q, hq, rfl⟩ := covers_iff.mp hj
    exact h.mapped q (hm ▸ hq)
  · refine iff_of_false (by rw [hr]; decide) fun hall => ?_
    exact hall _ (covers_iff.mpr ⟨m, hm, rfl⟩) hz

theorem Extent.of_result_zero (h : Extent f va len 0 m) : m = len := by
  rcases h.stop with ⟨-, hm⟩ | ⟨hr, -⟩
  · exact hm
  · cases hr

theorem Extent.pos_iff (h : Extent f va len res m) (hlen : 0 < len) : 0 < m ↔ addrOf f (va / PGSIZE) ≠ 0 := by
  refine ⟨fun hm => h.mapped 0 hm, fun hne => Nat.pos_of_ne_zero ?_⟩
  rintro rfl
  rcases h.stop with ⟨-, h0⟩ | ⟨-, -, hz⟩
  · exact absurd h0 (Nat.ne_of_lt hlen)
  · exact hne hz

theorem Extent.append {len' : Nat} (h : Extent f va len 0 m) (h' : Extent f (va + len) len' res n) :
    Extent f va (len + len') res (len + n) := by
  obtain rfl := h.of_result_zero
  have hle := h'.le
  refine ⟨by omega, fun q hq => ?_, ?_⟩
  · by_cases hqm : q < m
    · exact h.mapped q hqm
    · have := h'.mapped (q - m) (by omega)
      rwa [Nat.add_assoc, Nat.add_sub_cancel' (by omega)] at this
  · rcases h'.stop with ⟨hr, hn⟩ | ⟨hr, hn, hz⟩
    · exact .inl ⟨hr, by omega⟩
    · exact .inr ⟨hr, by omega, by rwa [← Nat.add_assoc]⟩

theorem Extent.more {len' : Nat} (h : Extent f va len (-1) m) : Extent f va (len + len') (-1) m := by
  have hle := h.le
  refine ⟨by omega, h.mapped, ?_⟩
  rcases h.stop with ⟨hr, -⟩ | ⟨hr, hm, hz⟩
  · cases hr
  · exact .inr ⟨hr, by omega, hz⟩

/-! ## copyout -/

/-- The bytes `l` are at address `va`, and no other byte has changed. -/
structure Stored (f : Nat → Nat) (va : Nat) (l : List UInt8) (mem mem' : Nat → Page) : Prop where
  bytes : ∀ q, (hq : q < l.length) → seen f mem' (va + q) = l[q]
  other : ∀ pa off, (∀ q < l.length, addrOf f ((va + q) / PGSIZE) = pa → (va + q) % PGSIZE ≠ off) →
    byte (mem' pa) off = byte (mem pa) off

theorem Stored.nil : Stored f va [] mem mem := ⟨fun q hq => absurd hq (Nat.not_lt_zero q), fun _ _ _ => rfl⟩

theorem Stored.chars (h : Stored f va l mem mem') : chars f mem' va l.length = l := by
  refine ext_getElem length_chars fun q h1 h2 => ?_
  rw [getElem_chars, h.bytes q h2]

theorem Stored.seen_eq {a : Nat} (hu : UserTable mem₁ root T f) (h : Stored f va l mem mem')
    (ha : addrOf f (a / PGSIZE) ≠ 0) (hne : a < va ∨ va + l.length ≤ a) : seen f mem' a = seen f mem a := by
  refine h.other _ _ fun q hq hpage hoff => ?_
  have hj := hu.inj _ _ ha hpage.symm
  have h1 := Nat.div_add_mod a PGSIZE
  have h2 := Nat.div_add_mod (va + q) PGSIZE
  rw [← hj, hoff] at h2
  omega

theorem Stored.append (hu : UserTable mem root T f) (h : Stored f va l mem mem₁)
    (h' : Stored f (va + l.length) l' mem₁ mem') (hmap : ∀ q < l.length, addrOf f ((va + q) / PGSIZE) ≠ 0) :
    Stored f va (l ++ l') mem mem' := by
  refine ⟨fun q hq => ?_, fun pa off hout => ?_⟩
  · by_cases hql : q < l.length
    · rw [getElem_append_left hql, ← h.bytes q hql]
      exact h'.seen_eq hu (hmap q hql) (.inl (by omega))
    · have hq' : q - l.length < l'.length := by
        rw [length_append] at hq
        omega
      rw [getElem_append_right (by omega), ← h'.bytes _ hq']
      congr 1
      omega
  · simp only [length_append] at hout
    rw [h'.other pa off, h.other pa off]
    · exact fun q hq => hout q (by omega)
    · intro q hq
      rw [Nat.add_assoc]
      exact hout _ (by omega)

theorem stored_memmove (hl : l.length ≤ PGSIZE - va % PGSIZE) :
    Stored f va l mem (update mem (addrOf f (va / PGSIZE))
      (putBytes (mem (addrOf f (va / PGSIZE))) (va % PGSIZE) l)) := by
  refine ⟨fun q hq => ?_, fun pa off hout => ?_⟩
  · obtain ⟨hd, hm⟩ := same_page hl hq
    have hlt : va % PGSIZE + q < PGSIZE := by
      have := Nat.mod_lt (va + q) (show 0 < PGSIZE by decide)
      omega
    rw [seen, hd, hm, update_self, byte_putBytes_in hlt hq]
  · by_cases hpa : pa = addrOf f (va / PGSIZE)
    · subst hpa
      rw [update_self]
      refine byte_putBytes_out ?_
      by_contra hc
      obtain ⟨hd, hm⟩ := same_page (q := off - va % PGSIZE) hl (by omega)
      exact hout (off - va % PGSIZE) (by omega) (by rw [hd]) (by omega)
    · rw [update_of_ne hpa]

theorem wp_copyoutLoop_stored : ∀ {va : Nat} {src : List UInt8} {k : Kmem}, UserTable k.mem root T f →
    src.length ≤ fuel → wp (copyoutLoop root fuel va src) (fun res k' => ∃ m, Extent f va src.length res m ∧
      Stored f va (src.take m) k.mem k'.mem ∧ UserTable k'.mem root T f ∧ k' = { k with mem := k'.mem }) k := by
  induction fuel with
  | zero =>
    intro va src k h hlen
    obtain rfl : src = [] := length_eq_zero_iff.mp (by omega)
    exact wp_pure.mpr ⟨0, Extent.zero, Stored.nil, h, rfl⟩
  | succ fuel ih =>
    intro va src k h hlen
    rw [copyoutLoop, wp_ite]
    refine ⟨fun h0 => ?_, fun h0 => ?_⟩
    · obtain rfl : src = [] := length_eq_zero_iff.mp h0
      exact wp_pure.mpr ⟨0, Extent.zero, Stored.nil, h, rfl⟩
    rw [wp_bind, pgRoundDown]
    refine wp_walkaddr_eq h.table ?_
    rw [wp_ite]
    refine ⟨fun hz => wp_pure.mpr ⟨0, Extent.unmapped (Nat.pos_of_ne_zero h0) hz, Stored.nil, h, rfl⟩, fun hne => ?_⟩
    set n := min (PGSIZE - va % PGSIZE) src.length with hn
    rw [wp_bind, wp_memmove, next_page (valid_of_addrOf hne).1]
    have hn0 : 0 < n := by
      have := Nat.mod_lt va (show 0 < PGSIZE by decide)
      omega
    have htake : (src.take n).length = n := length_take_of_le (by omega)
    have hfirst : Stored f va (src.take n) k.mem _ := stored_memmove (by omega)
    refine wp_mono (ih (h.memmove rfl hne (src.take n)) (by rw [length_drop]; omega)) ?_
    rintro res k' ⟨m, hext, hst, htab, hk⟩
    rw [length_drop] at hext
    have hext' := hext.page hn hne
    refine ⟨n + m, hext', ?_, htab, hk⟩
    rw [take_add]
    refine hfirst.append h ?_ fun q hq => hext'.mapped q (by omega)
    -- the next page begins behind the bytes of this one, unless these were the last
    by_cases hlast : src.length ≤ n
    · rw [drop_eq_nil_of_le hlast, take_nil] at hst ⊢
      exact ⟨fun q hq => absurd hq (Nat.not_lt_zero q), fun pa off _ =>
        hst.other pa off fun q hq => absurd hq (Nat.not_lt_zero q)⟩
    · have hnext : (va / PGSIZE + 1) * PGSIZE = va + (src.take n).length := by
        rw [htake]
        simp only [PGSIZE] at *
        omega
      rwa [hnext] at hst

theorem wp_copyout_stored (va : Nat) (src : List UInt8) (h : UserTable k.mem root T f) :
    wp (copyout root va src) (fun res k' => ∃ m, Extent f va src.length res m ∧
      Stored f va (src.take m) k.mem k'.mem ∧ UserTable k'.mem root T f ∧ k' = { k with mem := k'.mem }) k :=
  wp_copyoutLoop_stored h le_rfl

/-! ## copyin -/

theorem wp_copyinLoop_chars (h : Table k.mem root T f) : ∀ {va len : Nat} {dst : List UInt8}, len ≤ fuel →
    wp (copyinLoop root fuel va len dst) (fun r k' => k' = k ∧ ∃ m, Extent f va len r.1 m ∧
      r.2 = dst ++ chars f k.mem va m) k := by
  induction fuel with
  | zero =>
    intro va len dst hlen
    obtain rfl : len = 0 := by omega
    exact wp_pure.mpr ⟨rfl, 0, Extent.zero, (append_nil dst).symm⟩
  | succ fuel ih =>
    intro va len dst hlen
    rw [copyinLoop, wp_ite]
    refine ⟨fun h0 => ?_, fun h0 => ?_⟩
    · subst h0
      exact wp_pure.mpr ⟨rfl, 0, Extent.zero, (append_nil dst).symm⟩
    rw [wp_bind, pgRoundDown]
    refine wp_walkaddr_eq h ?_
    rw [wp_ite]
    refine ⟨fun hz => wp_pure.mpr ⟨rfl, 0, Extent.unmapped (Nat.pos_of_ne_zero h0) hz, (append_nil dst).symm⟩,
      fun hne => ?_⟩
    set n := min (PGSIZE - va % PGSIZE) len with hn
    rw [wp_bind, wp_get, next_page (valid_of_addrOf hne).1]
    have hn0 : 0 < n := by
      have := Nat.mod_lt va (show 0 < PGSIZE by decide)
      omega
    refine wp_mono (ih (by omega)) ?_
    rintro ⟨r, bytes⟩ k' ⟨rfl, m, hext, hbytes⟩
    refine ⟨rfl, n + m, hext.page hn hne, hbytes.trans ?_⟩
    rw [slice_eq_chars (by omega), chars_add, append_assoc]
    congr 2
    by_cases hlast : len ≤ n
    · have hm : m = 0 := by
        have := hext.le
        omega
      rw [hm]
      rfl
    · congr 1
      simp only [PGSIZE] at *
      omega

theorem wp_copyin_chars (va len : Nat) (h : Table k.mem root T f) :
    wp (copyin root va len) (fun r k' => k' = k ∧ ∃ m, Extent f va len r.1 m ∧ r.2 = chars f k.mem va m) k :=
  wp_copyinLoop_chars h le_rfl

/-! ## copyinstr -/

/-- A string at `va` of less than `max` bytes, with its NUL, or the bytes without a NUL that come before
an unusable page or before the end of the buffer. -/
def Str (f : Nat → Nat) (mem : Nat → Page) (va max : Nat) (res : Int) (l : List UInt8) : Prop :=
  (res = 0 ∧ ∃ i < max, (∀ q ≤ i, addrOf f ((va + q) / PGSIZE) ≠ 0) ∧ (∀ q < i, seen f mem (va + q) ≠ 0) ∧
    seen f mem (va + i) = 0 ∧ l = chars f mem va (i + 1)) ∨
  (res = -1 ∧ ∃ m ≤ max, (∀ q < m, seen f mem (va + q) ≠ 0) ∧ l = chars f mem va m ∧
    (m < max → addrOf f ((va + m) / PGSIZE) = 0))

theorem copyinstrPage_none {p : List UInt8} (h : 0 ∉ p) :
    copyinstrPage p max dst = (false, max - p.length, dst ++ p) := by
  induction p generalizing max dst with
  | nil => simp [copyinstrPage]
  | cons c p ih =>
    rw [mem_cons, not_or] at h
    rw [copyinstrPage, if_neg (Ne.symm h.1), ih h.2, append_assoc, length_cons, Nat.sub_sub, Nat.add_comm 1]
    rfl

theorem copyinstrPage_some {a b : List UInt8} (h : 0 ∉ a) :
    copyinstrPage (a ++ 0 :: b) max dst = (true, max - a.length, dst ++ (a ++ [0])) := by
  induction a generalizing max dst with
  | nil => simp [copyinstrPage]
  | cons c a ih =>
    rw [mem_cons, not_or] at h
    rw [cons_append, copyinstrPage, if_neg (Ne.symm h.1), ih h.2, append_assoc, length_cons, Nat.sub_sub,
      Nat.add_comm 1]
    rfl

theorem zero_notMem_chars (h : ∀ q < n, seen f mem (va + q) ≠ 0) : 0 ∉ chars f mem va n := by
  intro hc
  obtain ⟨q, hq, hz⟩ := mem_map.mp hc
  exact h q (mem_range.mp hq) hz

theorem chars_one : chars f mem va 1 = [seen f mem va] := rfl

theorem wp_copyinstrLoop_str (h : Table k.mem root T f) : ∀ {va max : Nat} {dst : List UInt8}, max ≤ fuel →
    wp (copyinstrLoop root fuel va max dst) (fun r k' => k' = k ∧ ∃ l, r.2 = dst ++ l ∧ Str f k.mem va max r.1 l) k := by
  have hstop : ∀ {va max : Nat} {dst : List UInt8}, (0 < max → addrOf f (va / PGSIZE) = 0) →
      wp (pure (-1, dst) : K (Int × List UInt8)) (fun r k' => k' = k ∧ ∃ l, r.2 = dst ++ l ∧ Str f k.mem va max r.1 l) k := by
    intro va max dst hz
    exact wp_pure.mpr ⟨rfl, [], (append_nil dst).symm, .inr ⟨rfl, 0, Nat.zero_le _,
      fun q hq => absurd hq (Nat.not_lt_zero q), rfl, hz⟩⟩
  induction fuel with
  | zero =>
    intro va max dst hmax
    exact hstop fun h0 => absurd h0 (by omega)
  | succ fuel ih =>
    intro va max dst hmax
    rw [copyinstrLoop, wp_ite]
    refine ⟨fun h0 => hstop fun h1 => absurd h1 (by omega), fun h0 => ?_⟩
    rw [wp_bind, pgRoundDown]
    refine wp_walkaddr_eq h ?_
    rw [wp_ite]
    refine ⟨fun hz => hstop fun _ => hz, fun hne => ?_⟩
    dsimp only
    set n := min (PGSIZE - va % PGSIZE) max with hn
    rw [wp_bind, wp_get, next_page (valid_of_addrOf hne).1, slice_eq_chars (by omega)]
    have hn0 : 0 < n := by
      have := Nat.mod_lt va (show 0 < PGSIZE by decide)
      omega
    have hpage : ∀ q < n, addrOf f ((va + q) / PGSIZE) ≠ 0 := fun q hq => by
      rw [(same_page (by omega) hq).1]
      exact hne
    by_cases hnul : ∃ i, i < n ∧ seen f k.mem (va + i) = 0
    · -- the string ends in this page
      obtain ⟨i, ⟨hi, hz⟩, hmin⟩ := Nat.findX hnul
      have hbefore : ∀ q < i, seen f k.mem (va + q) ≠ 0 := fun q hq hc => hmin q hq ⟨by omega, hc⟩
      have hsplit : chars f k.mem va n = chars f k.mem va i ++ 0 :: chars f k.mem (va + (i + 1)) (n - (i + 1)) := by
        rw [show n = i + 1 + (n - (i + 1)) by omega, chars_add, chars_add, chars_one, hz, append_assoc,
          Nat.add_sub_cancel_left]
        rfl
      rw [hsplit, copyinstrPage_some (zero_notMem_chars hbefore)]
      refine wp_pure.mpr ⟨rfl, chars f k.mem va (i + 1), ?_, .inl ⟨rfl, i, by omega, fun q hq => hpage q (by omega),
        hbefore, hz, rfl⟩⟩
      rw [chars_add, chars_one, hz]
    · have hall : ∀ q < n, seen f k.mem (va + q) ≠ 0 := fun q hq hc => hnul ⟨q, hq, hc⟩
      rw [copyinstrPage_none (zero_notMem_chars hall), length_chars]
      refine wp_mono (ih (by omega)) ?_
      rintro ⟨r, bytes⟩ k' ⟨hk, l, hl, hstr⟩
      refine ⟨hk, chars f k.mem va n ++ l, hl.trans (append_assoc _ _ _), ?_⟩
      have hnext : 0 < max - n → (va / PGSIZE + 1) * PGSIZE = va + n := by
        simp only [PGSIZE] at *
        omega
      have hold : ∀ i, (∀ q < i, seen f k.mem (va + n + q) ≠ 0) → ∀ q < n + i, seen f k.mem (va + q) ≠ 0 := by
        intro i hi q hq
        by_cases hqn : q < n
        · exact hall q hqn
        · have := hi (q - n) (by omega)
          rwa [Nat.add_assoc, Nat.add_sub_cancel' (by omega)] at this
      rcases hstr with ⟨hr, i, hi, hmap, hbefore, hz, rfl⟩ | ⟨hr, m, hm, hbefore, rfl, hmap⟩
      · rw [hnext (by omega)] at hmap hbefore hz ⊢
        refine .inl ⟨hr, n + i, by omega, fun q hq => ?_, hold i hbefore, by rwa [← Nat.add_assoc], ?_⟩
        · by_cases hqn : q < n
          · exact hpage q hqn
          · have := hmap (q - n) (by omega)
            rwa [Nat.add_assoc, Nat.add_sub_cancel' (by omega)] at this
        · rw [← chars_add, Nat.add_assoc]
      · by_cases hlast : max - n = 0
        · obtain rfl : m = 0 := by omega
          exact .inr ⟨hr, n, by omega, hall, append_nil _, fun hc => absurd hc (by omega)⟩
        · rw [hnext (by omega)] at hmap hbefore ⊢
          refine .inr ⟨hr, n + m, by omega, hold m hbefore, chars_add.symm, fun hc => ?_⟩
          rw [← Nat.add_assoc]
          exact hmap (by omega)

theorem wp_copyinstr_str (va max : Nat) (h : Table k.mem root T f) :
    wp (copyinstr root va max) (fun r k' => k' = k ∧ Str f k.mem va max r.1 r.2) k := by
  refine wp_mono (wp_copyinstrLoop_str h le_rfl) ?_
  rintro ⟨r, bytes⟩ k' ⟨hk, l, hl, hstr⟩
  have hl : bytes = l := hl
  exact ⟨hk, hl ▸ hstr⟩

/-! ## Termination -/

/-- Every turn of the loop takes a byte, so more fuel than there are bytes does not matter. -/
theorem copyoutLoop_fuel (h : src.length ≤ fuel) (h' : src.length ≤ fuel') :
    copyoutLoop root fuel va src = copyoutLoop root fuel' va src := by
  have hnil : ∀ fuel va, copyoutLoop root fuel va [] = pure 0 := by
    rintro (_ | fuel) va
    · rfl
    · rw [copyoutLoop]
      exact if_pos rfl
  induction fuel generalizing fuel' va src with
  | zero =>
    obtain rfl : src = [] := length_eq_zero_iff.mp (by omega)
    rw [hnil, hnil]
  | succ fuel ih =>
    cases fuel' with
    | zero =>
      obtain rfl : src = [] := length_eq_zero_iff.mp (by omega)
      rw [hnil, hnil]
    | succ fuel' =>
      rw [copyoutLoop, copyoutLoop]
      by_cases h0 : src.length = 0
      · rw [if_pos h0, if_pos h0]
      rw [if_neg h0, if_neg h0]
      refine congrArg (bind _) (funext fun pa0 => ?_)
      have hn0 : 0 < min (PGSIZE - va % PGSIZE) src.length := by
        have := Nat.mod_lt va (show 0 < PGSIZE by decide)
        omega
      split
      · rfl
      refine congrArg (bind _) (funext fun _ => ?_)
      exact ih (by rw [length_drop]; omega) (by rw [length_drop]; omega)

theorem copyinLoop_fuel (h : len ≤ fuel) (h' : len ≤ fuel') :
    copyinLoop root fuel va len dst = copyinLoop root fuel' va len dst := by
  have hnil : ∀ fuel va dst, copyinLoop root fuel va 0 dst = pure (0, dst) := by
    rintro (_ | fuel) va dst
    · rfl
    · rw [copyinLoop, if_pos rfl]
  induction fuel generalizing fuel' va len dst with
  | zero =>
    obtain rfl : len = 0 := by omega
    rw [hnil, hnil]
  | succ fuel ih =>
    cases fuel' with
    | zero =>
      obtain rfl : len = 0 := by omega
      rw [hnil, hnil]
    | succ fuel' =>
      rw [copyinLoop, copyinLoop]
      by_cases h0 : len = 0
      · rw [if_pos h0, if_pos h0]
      rw [if_neg h0, if_neg h0]
      refine congrArg (bind _) (funext fun pa0 => ?_)
      have hn0 : 0 < min (PGSIZE - va % PGSIZE) len := by
        have := Nat.mod_lt va (show 0 < PGSIZE by decide)
        omega
      split
      · rfl
      refine congrArg (bind _) (funext fun k => ?_)
      exact ih (by omega) (by omega)

theorem le_length_copyinstrPage {p : List UInt8} {max' : Nat} {dst' : List UInt8}
    (h : copyinstrPage p max dst = (false, max', dst')) : max' = max - p.length := by
  induction p generalizing max dst with
  | nil =>
    rw [copyinstrPage, Prod.mk.injEq, Prod.mk.injEq] at h
    exact h.2.1.symm
  | cons c p ih =>
    rw [copyinstrPage] at h
    split at h
    · cases h
    · rw [ih h, length_cons, Nat.sub_sub, Nat.add_comm 1]

theorem copyinstrLoop_fuel (h : max ≤ fuel) (h' : max ≤ fuel') :
    copyinstrLoop root fuel va max dst = copyinstrLoop root fuel' va max dst := by
  have hnil : ∀ fuel va dst, copyinstrLoop root fuel va 0 dst = pure (-1, dst) := by
    rintro (_ | fuel) va dst
    · rfl
    · rw [copyinstrLoop, if_pos rfl]
  induction fuel generalizing fuel' va max dst with
  | zero =>
    obtain rfl : max = 0 := by omega
    rw [hnil, hnil]
  | succ fuel ih =>
    cases fuel' with
    | zero =>
      obtain rfl : max = 0 := by omega
      rw [hnil, hnil]
    | succ fuel' =>
      rw [copyinstrLoop, copyinstrLoop]
      by_cases h0 : max = 0
      · rw [if_pos h0, if_pos h0]
      rw [if_neg h0, if_neg h0]
      refine congrArg (bind _) (funext fun pa0 => ?_)
      have hn0 : 0 < min (PGSIZE - va % PGSIZE) max := by
        have := Nat.mod_lt va (show 0 < PGSIZE by decide)
        omega
      split
      · rfl
      refine congrArg (bind _) (funext fun k => ?_)
      split
      · rfl
      · rename_i max' dst' hp
        have hmax := le_length_copyinstrPage hp
        rw [length_slice] at hmax
        exact ih (by omega) (by omega)

/-! ## Exactness -/

/-- The process has page `j`: it is mapped with `PTE_U`, below `MAXVA`. -/
def UserPage (f : Nat → Nat) (j : Nat) : Prop := j < 2 ^ 26 ∧ f j &&& PTE_V ≠ 0 ∧ f j &&& PTE_U ≠ 0

/-- A page table of a process whose pages are in memory, which does not begin at address 0. -/
structure ProcTable (mem : Nat → Page) (root : Nat) (T : Multiset Nat) (f : Nat → Nat) : Prop
    extends UserTable mem root T f where
  ram : ∀ j, UserPage f j → pte2pa (f j) ≠ 0

theorem ProcTable.addrOf_ne_zero (h : ProcTable mem root T f) : addrOf f j ≠ 0 ↔ UserPage f j := by
  refine ⟨valid_of_addrOf, fun hj => ?_⟩
  rw [addrOf, if_pos (show _ ∧ _ from hj)]
  exact h.ram j hj

theorem ProcTable.addrOf_eq_zero (h : ProcTable mem root T f) : addrOf f j = 0 ↔ ¬ UserPage f j := by
  rw [← h.addrOf_ne_zero, not_not]

/-- For any page table of a process, address and length, the copies succeed exactly when the process has
all the pages of the range, and transfer the bytes of the range and no others; when they fail, they have
transferred the bytes below the first page that the process does not have. -/
theorem copy_exact (k : Kmem) (root : Nat) (T : Multiset Nat) (f : Nat → Nat) (va : Nat) (src : List UInt8)
    (h : ProcTable k.mem root T f) : (∃ res k', copyout root va src k = .ok (res, k') ∧ (res = 0 ∨ res = -1) ∧
      (res = 0 ↔ ∀ j, Covers va src.length j → UserPage f j) ∧
      (res = 0 → Stored f va src k.mem k'.mem ∧ copyin root va src.length k' = .ok ((0, src), k')) ∧
      (res = -1 → ∃ m < src.length, (∀ q < m, UserPage f ((va + q) / PGSIZE)) ∧ ¬ UserPage f ((va + m) / PGSIZE) ∧
        Stored f va (src.take m) k.mem k'.mem) ∧ ProcTable k'.mem root T f ∧ k' = { k with mem := k'.mem }) ∧
    (∀ len, ∃ res dst, copyin root va len k = .ok ((res, dst), k) ∧ (res = 0 ∨ res = -1) ∧
      (res = 0 ↔ ∀ j, Covers va len j → UserPage f j) ∧ (res = 0 → dst = chars f k.mem va len) ∧
      (res = -1 → ∃ m < len, (∀ q < m, UserPage f ((va + q) / PGSIZE)) ∧ ¬ UserPage f ((va + m) / PGSIZE) ∧
        dst = chars f k.mem va m)) ∧
    (∀ fuel, src.length ≤ fuel → copyoutLoop root fuel va src = copyout root va src) ∧
    ∀ fuel len, len ≤ fuel → copyinLoop root fuel va len [] = copyin root va len := by
  have hiff : ∀ {len : Nat} {res : Int} {m : Nat}, Extent f va len res m →
      (res = 0 ↔ ∀ j, Covers va len j → UserPage f j) := fun hext => by
    simp only [hext.eq_zero_iff, h.addrOf_ne_zero]
  have hfail : ∀ {len m : Nat}, Extent f va len (-1) m →
      m < len ∧ (∀ q < m, UserPage f ((va + q) / PGSIZE)) ∧ ¬ UserPage f ((va + m) / PGSIZE) := by
    intro len m hext
    rcases hext.stop with ⟨hr, -⟩ | ⟨-, hm, hz⟩
    · cases hr
    · exact ⟨hm, fun q hq => h.addrOf_ne_zero.mp (hext.mapped q hq), h.addrOf_eq_zero.mp hz⟩
  refine ⟨?_, fun len => ?_, fun fuel hf => copyoutLoop_fuel hf le_rfl, fun fuel len hf => copyinLoop_fuel hf le_rfl⟩
  · obtain ⟨res, k', he, m, hext, hst, htab, hk⟩ := wp_iff.mp (wp_copyout_stored va src h.toUserTable)
    refine ⟨res, k', he, hext.result, hiff hext, ?_, ?_, ⟨htab, h.ram⟩, hk⟩
    · rintro rfl
      obtain rfl := hext.of_result_zero
      rw [take_length] at hst
      obtain ⟨⟨r, dst⟩, k'', he', rfl, m, hext', hdst⟩ :=
        wp_iff.mp (wp_copyin_chars va src.length htab.table)
      obtain rfl : r = 0 := hext'.eq_zero_iff.mpr (hext.eq_zero_iff.mp rfl)
      obtain rfl := hext'.of_result_zero
      rw [show dst = src from hdst.trans hst.chars] at he'
      exact ⟨hst, he'⟩
    · rintro rfl
      obtain ⟨hm, hpages, hbad⟩ := hfail hext
      exact ⟨m, hm, hpages, hbad, hst⟩
  · obtain ⟨⟨res, dst⟩, k', he, rfl, m, hext, hdst⟩ := wp_iff.mp (wp_copyin_chars va len h.table)
    refine ⟨res, dst, he, hext.result, hiff hext, ?_, ?_⟩
    · rintro rfl
      exact hext.of_result_zero ▸ hdst
    · rintro rfl
      obtain ⟨hm, hpages, hbad⟩ := hfail hext
      exact ⟨m, hm, hpages, hbad, hdst⟩

/-- For any page table of a process, address and size of the buffer, `copyinstr` succeeds exactly when
there is a NUL among the first `max` bytes and the process has the pages up to the one that holds it, and
copies the bytes up to the first NUL; it never stores more than `max` bytes. -/
theorem copyinstr_exact (k : Kmem) (root : Nat) (T : Multiset Nat) (f : Nat → Nat) (va max : Nat)
    (h : ProcTable k.mem root T f) :
    (∃ res dst, copyinstr root va max k = .ok ((res, dst), k) ∧ (res = 0 ∨ res = -1) ∧
      (res = 0 ↔ ∃ i < max, seen f k.mem (va + i) = 0 ∧ ∀ j, Covers va (i + 1) j → UserPage f j) ∧
      (res = 0 → ∃ i < max, seen f k.mem (va + i) = 0 ∧ (∀ q < i, seen f k.mem (va + q) ≠ 0) ∧
        dst = chars f k.mem va (i + 1)) ∧ dst.length ≤ max) ∧
    ∀ fuel, max ≤ fuel → copyinstrLoop root fuel va max [] = copyinstr root va max := by
  refine ⟨?_, fun fuel hf => copyinstrLoop_fuel hf le_rfl⟩
  obtain ⟨⟨res, dst⟩, k', he, rfl, hstr⟩ := wp_iff.mp (wp_copyinstr_str va max h.table)
  rcases hstr with ⟨hr, i, hi, hmap, hbefore, hz, hdst⟩ | ⟨hr, m, hm, hbefore, hdst, hmap⟩
  · refine ⟨res, dst, he, .inl hr, iff_of_true hr ⟨i, hi, hz, fun j hj => ?_⟩, fun _ => ⟨i, hi, hz, hbefore, hdst⟩, ?_⟩
    · obtain ⟨q, hq, rfl⟩ := covers_iff.mp hj
      exact h.addrOf_ne_zero.mp (hmap q (Nat.lt_succ_iff.mp hq))
    · rw [show dst = _ from hdst, length_chars]
      exact hi
  · have hno : ¬ res = 0 := by
      rw [show res = -1 from hr]
      decide
    refine ⟨res, dst, he, .inr hr, iff_of_false hno ?_, fun h0 => absurd h0 hno, ?_⟩
    · rintro ⟨i, hi, hz, hpages⟩
      -- a NUL would lie behind the bytes that were copied, and so behind the page that stopped the copy
      by_cases him : i < m
      · exact hbefore i him hz
      · exact h.addrOf_eq_zero.mp (hmap (by omega)) (hpages _ (covers_iff.mpr ⟨m, by omega, rfl⟩))
    · rw [show dst = _ from hdst, length_chars]
      exact hm

/-! ## A table with one page -/

/-- The entries of a table with one page at address 0, mapped with `perm`. -/
def onePte (perm : Nat) : Nat → Nat := update (fun _ => 0) 0 (pa2pte KERNBASE ||| perm ||| PTE_V)

theorem onePte_zero (perm : Nat) : onePte perm 0 = pa2pte KERNBASE ||| perm ||| PTE_V := update_self _ _ _

theorem eq_zero_of_onePte {perm : Nat} (h : UserPage (onePte perm) j) : j = 0 := by
  by_contra hne
  have hv := h.2.1
  rw [onePte, update_of_ne hne] at hv
  exact hv rfl

theorem procTable_onePage : ∃ k1 k2 T, uvmcreate smallMem = .ok (some (KERNBASE + 0x10000), k1) ∧
    mappages (KERNBASE + 0x10000) (0 * PGSIZE) PGSIZE KERNBASE (PTE_R ||| PTE_W ||| PTE_U) k1 = .ok (0, k2) ∧
    ProcTable k2.mem (KERNBASE + 0x10000) T (onePte (PTE_R ||| PTE_W ||| PTE_U)) := by
  obtain ⟨k1, hcreate, k2, hmap, -⟩ : ∃ k, uvmcreate smallMem = .ok (some (KERNBASE + 0x10000), k) ∧
      ∃ k', mappages (KERNBASE + 0x10000) (0 * PGSIZE) PGSIZE KERNBASE (PTE_R ||| PTE_W ||| PTE_U) k = .ok (0, k') ∧ True := by
    decide +kernel
  obtain ⟨-, hsum, ht⟩ := wp_ok (wp_uvmcreate rfl) hcreate
  have hres := wp_ok (wp_mappages_page arena_fivePages ht (by decide) hsum rfl (by decide) (by decide)) hmap
  obtain ⟨T, hsum2, ht2, -⟩ : Mapped _ _ k2 _ _ := by
    rcases hres with ⟨-, h⟩ | ⟨h, -⟩
    · exact h
    · cases h
  have hzero : addrOf (onePte (PTE_R ||| PTE_W ||| PTE_U)) 0 = KERNBASE := by
    rw [addrOf, onePte_zero]
    decide +kernel
  refine ⟨k1, k2, T, hcreate, hmap, ⟨ht2, fun j hj hT => ?_, fun i j hi he => ?_⟩, fun j hj => ?_⟩
  · obtain rfl := eq_zero_of_onePte (valid_of_addrOf hj)
    rw [hzero] at hT
    have hP : KERNBASE ∈ (↑fivePages : Multiset Nat) := hsum2 ▸ Multiset.mem_add.mpr (.inr hT)
    exact absurd hP (by decide)
  · exact (eq_zero_of_onePte (valid_of_addrOf hi)).trans (eq_zero_of_onePte (valid_of_addrOf (he ▸ hi))).symm
  · obtain rfl := eq_zero_of_onePte hj
    rw [onePte_zero]
    decide +kernel

theorem userPage_onePte : UserPage (onePte (PTE_R ||| PTE_W ||| PTE_U)) 0 := by
  rw [UserPage, onePte_zero]
  decide +kernel

/-- Three bytes at address 100, read back. -/
theorem copy_exact_onePage : ∃ k k', copyout (KERNBASE + 0x10000) 100 [1, 2, 3] k = .ok (0, k') ∧
      copyin (KERNBASE + 0x10000) 100 3 k' = .ok ((0, [1, 2, 3]), k') := by
  obtain ⟨-, k, T, -, -, h⟩ := procTable_onePage
  obtain ⟨⟨res, k', he, -, hiff, hback, -⟩, -⟩ := copy_exact k _ T _ 100 [1, 2, 3] h
  obtain rfl : res = 0 := hiff.mpr fun j hj => by
    obtain rfl : j = 0 := by
      simp only [Covers, PGSIZE, length_cons, length_nil] at hj
      omega
    exact userPage_onePte
  exact ⟨k, k', he, (hback rfl).2⟩

/-- A string that may not be longer than ten bytes, of which the page behind address 4090 has six. -/
theorem copyinstr_exact_onePage :
    ∃ k res dst, copyinstr (KERNBASE + 0x10000) 4090 10 k = .ok ((res, dst), k) ∧ dst.length ≤ 10 := by
  obtain ⟨-, k, T, -, -, h⟩ := procTable_onePage
  obtain ⟨⟨res, dst, he, -, -, -, hlen⟩, -⟩ := copyinstr_exact k _ T _ 4090 10 h
  exact ⟨k, res, dst, he, hlen⟩

end Vm
end Xv6
