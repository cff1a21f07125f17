import Xv6.Sys.Exec
import Xv6.Vm.User
import Xv6.Vm.Copy

/-!
# Xv6.Sys.Contents

What is in the address space that `exec` builds: the bytes that the process will see and the flags of
its pages (`UserMem`). The functions of `vm.c` and `loadseg` are operations on it.

* `Contents`: a page table has this user memory.
* `wp_uvmalloc_holds`, `wp_uvmclear_holds`, `Contents.wp_copyout`: `grow`, `guard` and `put`.
* `wp_loadseg_holds`: a segment of the file is `put` at its address, or the file is too short.
-/

namespace Xv6
namespace Sys

open Bytes Wp Vm Function Multiset

/-- The first `n` pages of a process. -/
@[ext] structure UserMem where
  n : Nat
  byte : Nat → UInt8
  flags : Nat → Nat

namespace UserMem

variable {v : UserMem} {va a : Nat} {l l' : List UInt8}

def put (v : UserMem) (va : Nat) (l : List UInt8) : UserMem :=
  { v with byte := fun a => if va ≤ a then (l[a - va]?).getD (v.byte a) else v.byte a }

def grow (v : UserMem) (n flags : Nat) : UserMem where
  n := n
  byte := fun a => if a < v.n * PGSIZE then v.byte a else 0
  flags := fun j => if j < v.n then v.flags j else flags

def guard (v : UserMem) (j : Nat) : UserMem := { v with flags := update v.flags j (clearUser (v.flags j)) }

@[simp] theorem put_flags : (v.put va l).flags = v.flags := rfl

@[simp] theorem grow_n {n flags : Nat} : (v.grow n flags).n = n := rfl

theorem put_in {q : Nat} (hq : q < l.length) : (v.put va l).byte (va + q) = l[q] := by
  simp [put, hq]

theorem put_out (h : a < va ∨ va + l.length ≤ a) : (v.put va l).byte a = v.byte a := by
  rw [put]
  dsimp only
  split
  · rw [List.getElem?_eq_none (by omega), Option.getD_none]
  · rfl

theorem put_nil : v.put va [] = v :=
  UserMem.ext rfl (funext fun a => put_out (by simp; omega)) rfl

theorem put_append (v : UserMem) (va : Nat) (l l' : List UInt8) : (v.put va l).put (va + l.length) l' = v.put va (l ++ l') := by
  rw [put, put, put]
  congr 1
  funext a
  dsimp only
  by_cases h1 : va + l.length ≤ a
  · rw [if_pos h1, if_pos (by omega), if_pos (by omega), List.getElem?_append_right (by omega),
      List.getElem?_eq_none (l := l) (by omega), Option.getD_none]
    congr 2
    omega
  · rw [if_neg h1]
    by_cases h2 : va ≤ a
    · rw [if_pos h2, if_pos h2, List.getElem?_append_left (by omega)]
    · rw [if_neg h2, if_neg h2]

end UserMem

/-- The address space at `root` that `exec` builds from the pages `P` has user memory `v`. -/
structure Contents (L : Layout) (P : Multiset Nat) (m : Nat → Page) (tf root : Nat) (k : Kmem) (v : UserMem)
    (T : Multiset Nat) (u : Nat → Nat) : Prop where
  sum : ↑k.freelist + T + pages u 0 v.n = P
  frame : Frame P m k.mem
  space : Space k.mem root T u v.n (topPtes L tf)
  flags : ∀ j < v.n, pteFlags (u j) = v.flags j
  byte : ∀ a < v.n * PGSIZE, userByte k.mem u a = v.byte a

def Holds (L : Layout) (P : Multiset Nat) (m : Nat → Page) (tf root : Nat) (k : Kmem) (v : UserMem) : Prop :=
  ∃ T u, Contents L P m tf root k v T u

variable {L : Layout} {P T : Multiset Nat} {m : Nat → Page} {tf root : Nat} {k k' : Kmem} {v : UserMem} {u : Nat → Nat}

namespace Contents

variable {j : Nat}

theorem nodup (hP : Arena L P) (h : Contents L P m tf root k v T u) : (T + pages u 0 v.n).Nodup := by
  refine nodup_of_le ?_ hP.nodup
  rw [← h.sum, add_assoc]
  exact le_add_left _ _

theorem pages_le (h : Contents L P m tf root k v T u) : pages u 0 v.n ≤ P := by
  rw [← h.sum]
  exact le_add_left _ _

section

variable (hP : Arena L P) (h : Contents L P m tf root k v T u)
include hP h

theorem page_ne_zero (hj : j < v.n) : pte2pa (u j) ≠ 0 := by
  have hmem : pte2pa (u j) ∈ pages u 0 v.n := mem_pages.mpr ⟨j, Nat.zero_le j, by omega, rfl⟩
  have hpage := (hP.page _ (mem_of_le h.pages_le hmem)).2.1
  have hbase := L.base_le
  simp only [KERNBASE] at hbase
  omega

theorem byte_of_frame {a : Nat}
    (hfr : Frame (↑k.freelist + T) k.mem k'.mem) (ha : a < v.n * PGSIZE) : userByte k'.mem u a = v.byte a := by
  have hj : a / PGSIZE < v.n := Nat.div_lt_of_lt_mul (by rw [Nat.mul_comm]; exact ha)
  have hmem : pte2pa (u (a / PGSIZE)) ∈ pages u 0 v.n := mem_pages.mpr ⟨_, Nat.zero_le _, by omega, rfl⟩
  have hd : (↑k.freelist + T + pages u 0 v.n).Nodup := h.sum ▸ hP.nodup
  rw [← h.byte a ha, userByte, hfr _ (notMem_of_nodup_add hd hmem), userByte]

theorem written {S : Nat → Prop} (hw : Written k k' u v.n S) :
    Contents L P m tf root k' { v with byte := userByte k'.mem u } T u := by
  refine ⟨?_, h.frame.trans (hw.frame.mono h.pages_le), hw.space h.space (h.nodup hP), h.flags, fun _ _ => rfl⟩
  rw [hw.free]
  exact h.sum

end

theorem congr {v' : UserMem} (h : Contents L P m tf root k v T u) (hn : v'.n = v.n) (hf : ∀ j < v.n, v'.flags j = v.flags j)
    (hb : ∀ a < v.n * PGSIZE, v'.byte a = v.byte a) : Contents L P m tf root k v' T u := by
  refine ⟨?_, h.frame, ?_, fun j hj => ?_, fun a ha => ?_⟩
  · rw [hn]
    exact h.sum
  · rw [hn]
    exact h.space
  · rw [hn] at hj
    rw [h.flags j hj, hf j hj]
  · rw [hn] at ha
    rw [h.byte a ha, hb a ha]

theorem memmove (off : Nat) (l : List UInt8) (hP : Arena L P) (h : Contents L P m tf root k v T u) (hj : j < v.n)
    (hl : off + l.length ≤ PGSIZE) :
    Contents L P m tf root { k with mem := update k.mem (pte2pa (u j)) (putBytes (k.mem (pte2pa (u j))) off l) }
      (v.put (j * PGSIZE + off) l) T u := by
  have hw := written_memmove (k := k) off l hj (nodup_add.mp (h.nodup hP)).2.1
  refine (h.written hP hw).congr rfl (fun _ _ => rfl) fun a ha => ?_
  by_cases hin : j * PGSIZE + off ≤ a ∧ a < j * PGSIZE + off + l.length
  · obtain ⟨q, rfl⟩ := Nat.exists_eq_add_of_le hin.1
    have hq : q < l.length := by omega
    have hdiv : (j * PGSIZE + off + q) / PGSIZE = j := by
      simp only [PGSIZE] at *
      omega
    have hmod : (j * PGSIZE + off + q) % PGSIZE = off + q := by
      simp only [PGSIZE] at *
      omega
    rw [UserMem.put_in hq]
    dsimp only
    rw [userByte, hdiv, hmod, update_self, byte_putBytes_in (by omega) hq]
  · rw [UserMem.put_out (by omega)]
    exact ((hw.byte a ha hin).trans (h.byte a ha)).symm

/-! ## Copying to the process -/

theorem userTable (hP : Arena L P) (h : Contents L P m tf root k v T u) :
    UserTable k.mem root T (splice u v.n (topPtes L tf)) := by
  have hd := h.nodup hP
  have hmem : ∀ j, addrOf (splice u v.n (topPtes L tf)) j ≠ 0 →
      j < v.n ∧ addrOf (splice u v.n (topPtes L tf)) j = pte2pa (u j) := by
    intro j hj
    have hval := valid_of_addrOf hj
    have hlt : j < v.n := by
      by_contra hge
      rw [splice, if_neg hge] at hval
      exact hval.2.2 (topPtes_user j)
    refine ⟨hlt, ?_⟩
    rw [addrOf, if_pos hval, splice, if_pos hlt]
  refine ⟨h.space.table, fun j hj => ?_, fun i j hi he => ?_⟩
  · obtain ⟨hlt, hpa⟩ := hmem j hj
    rw [hpa]
    exact notMem_of_nodup_add hd (mem_pages.mpr ⟨j, Nat.zero_le j, by omega, rfl⟩)
  · obtain ⟨hlt, hpa⟩ := hmem i hi
    obtain ⟨hlt', hpa'⟩ := hmem j (he ▸ hi)
    have hinj := List.inj_on_of_nodup_map (l := List.range' 0 v.n) (f := fun j => pte2pa (u j)) (nodup_add.mp hd).2.1
    refine hinj ?_ ?_ (hpa.symm.trans (he.trans hpa'))
    · rw [List.mem_range'_1]
      omega
    · rw [List.mem_range'_1]
      omega

theorem addrOf_eq (h : Contents L P m tf root k v T u) (hj : j < v.n) (hu : v.flags j &&& PTE_U ≠ 0) :
    addrOf (splice u v.n (topPtes L tf)) j = pte2pa (u j) := by
  have hle := h.space.le
  have hval : splice u v.n (topPtes L tf) j = u j := if_pos hj
  rw [addrOf, hval, if_pos]
  refine ⟨by omega, (h.space.user j hj).valid, ?_⟩
  rwa [← h.flags j hj, pteFlags_and (by decide)] at hu

theorem seen_eq {a : Nat} (h : Contents L P m tf root k v T u) (ha : a < v.n * PGSIZE)
    (hu : v.flags (a / PGSIZE) &&& PTE_U ≠ 0) : seen (splice u v.n (topPtes L tf)) k.mem a = v.byte a := by
  have hj : a / PGSIZE < v.n := Nat.div_lt_of_lt_mul (by rw [Nat.mul_comm]; exact ha)
  rw [seen, h.addrOf_eq hj hu]
  exact h.byte a ha

theorem wp_copyout {va : Nat} {l : List UInt8} (hP : Arena L P) (h : Contents L P m tf root k v T u)
    (hu : ∀ j, Covers va l.length j → j < v.n ∧ v.flags j &&& PTE_U ≠ 0) :
    wp (copyout root va l) (fun r k' => r = 0 ∧ Contents L P m tf root k' (v.put va l) T u) k := by
  have hpa : ∀ j, Covers va l.length j → addrOf (splice u v.n (topPtes L tf)) j ≠ 0 := by
    intro j hj
    rw [h.addrOf_eq (hu j hj).1 (hu j hj).2]
    exact h.page_ne_zero hP (hu j hj).1
  refine wp_mono (wp_and_wpe (E := fun _ => False) (Vm.wp_copyout topPtes_user (h.nodup hP) h.space)
    (wpe_of_wp (wp_copyout_stored va l (h.userTable hP)))) ?_
  rintro r k' ⟨⟨-, hw⟩, q, hext, hst, -, -⟩
  obtain rfl : r = 0 := hext.eq_zero_iff.mpr hpa
  obtain rfl := hext.of_result_zero
  rw [List.take_length] at hst
  have h' := h.written hP hw
  refine ⟨rfl, h'.congr rfl (fun _ _ => rfl) fun a ha => ?_⟩
  by_cases hin : va ≤ a ∧ a < va + l.length
  · obtain ⟨q, rfl⟩ := Nat.exists_eq_add_of_le hin.1
    have hq : q < l.length := by omega
    rw [UserMem.put_in hq, ← hst.bytes q hq]
    exact h'.seen_eq ha (hu _ (covers_iff.mpr ⟨q, hq, rfl⟩)).2
  · rw [UserMem.put_out (by omega)]
    exact ((hw.byte a ha hin).trans (h.byte a ha)).symm

end Contents

/-! ## uvmalloc and uvmclear -/

def userFlags (xperm : Nat) : Nat := PTE_R ||| PTE_U ||| xperm ||| PTE_V

theorem wp_uvmalloc_holds {sz newsz xperm : Nat} (hP : Arena L P) (hc : P.card ≤ 2 ^ 15) (h : Holds L P m tf root k v)
    (hn : v.n = npages sz) (hle : sz ≤ newsz) (hx : xperm < 2 ^ 10) :
    wp (uvmalloc L root sz newsz xperm) (fun r k' => (r = 0 ∧ Holds L P m tf root k' v) ∨
      (r = newsz ∧ Holds L P m tf root k' (v.grow (npages newsz) (userFlags xperm)))) k := by
  obtain ⟨T, u, h⟩ := h
  have hpool : ↑k.freelist + T ≤ P := by
    rw [← h.sum]
    exact le_add_right _ _
  have hcard : v.n + (↑k.freelist + T).card = P.card := by
    rw [← h.sum, card_add _ (pages u 0 v.n), card_pages, Nat.add_comm]
  have hs := h.space
  rw [hn] at hs
  refine wp_mono (wp_uvmalloc (hP.mono hpool) hs rfl (by omega) hx hle) ?_
  rw [← hn]
  rintro r k' ⟨hfr, ⟨rfl, T', hsum', hs'⟩ | ⟨rfl, T', u', hsum', hs', hsame, hfresh⟩⟩
  · refine .inl ⟨rfl, T', u, ?_, h.frame.trans (hfr.mono hpool), hs', h.flags, fun a ha => h.byte_of_frame hP hfr ha⟩
    rw [hsum', h.sum]
  · have hmono : v.n ≤ npages r := hn ▸ npages_mono hle
    refine .inr ⟨rfl, T', u', ?_, h.frame.trans (hfr.mono hpool), hs', fun j hj => ?_, fun a ha => ?_⟩
    · have hpages : pages u' 0 (npages r) = pages u 0 v.n + pages u' v.n (npages r - v.n) := by
        rw [show npages r = v.n + (npages r - v.n) by omega, pages_append, Nat.add_sub_cancel_left, Nat.zero_add,
          pages_congr fun j _ hj => hsame j (by omega)]
      rw [UserMem.grow, hpages, ← h.sum, ← hsum']
      abel
    · rw [UserMem.grow]
      dsimp only
      split
      · rw [hsame j ‹_›]
        exact h.flags j ‹_›
      · exact (hfresh j (by omega) hj).2
    · have hj : a / PGSIZE < npages r := Nat.div_lt_of_lt_mul (by rw [Nat.mul_comm]; exact ha)
      rw [UserMem.grow]
      dsimp only
      split
      · rw [← h.byte_of_frame hP hfr ‹_›, userByte, userByte,
          hsame _ (Nat.div_lt_of_lt_mul (by rw [Nat.mul_comm]; assumption))]
      · have hge : v.n ≤ a / PGSIZE := by
          simp only [PGSIZE] at *
          omega
        rw [userByte, (hfresh _ hge hj).1]
        simp [Bytes.byte]

theorem wp_uvmclear_holds {j : Nat} (hP : Arena L P) (h : Holds L P m tf root k v) (hj : j < v.n) :
    wp (uvmclear root (j * PGSIZE)) (fun _ k' => Holds L P m tf root k' (v.guard j)) k := by
  obtain ⟨T, u, h⟩ := h
  refine wp_mono (wp_uvmclear h.space hj) ?_
  rintro _ k' ⟨hfree, hs, hfr⟩
  have hT : T ≤ P := by
    rw [← h.sum, add_right_comm]
    exact le_add_left _ _
  have hpool : Frame (↑k.freelist + T) k.mem k'.mem := hfr.mono (le_add_left _ _)
  refine ⟨T, _, ?_, h.frame.trans (hfr.mono hT), hs, fun i hi => ?_, fun a ha => ?_⟩
  · rw [hfree]
    exact (congrArg _ (pages_clearUser h.space hj)).trans h.sum
  · have hclear : ∀ pte, pteFlags (clearUser pte) = clearUser (pteFlags pte) := fun pte => by
      rw [pteFlags, clearUser, clearUser, pteFlags, Nat.and_assoc, Nat.and_assoc, Nat.and_comm 0x3FF]
    rw [UserMem.guard]
    dsimp only
    by_cases hij : i = j
    · rw [hij, update_self, update_self, hclear, h.flags j hj]
    · rw [update_of_ne hij, update_of_ne hij]
      exact h.flags i hi
  · have hb : userByte k'.mem u a = v.byte a := h.byte_of_frame hP hpool ha
    refine Eq.trans ?_ hb
    rw [userByte, userByte]
    by_cases hij : a / PGSIZE = j
    · rw [hij, update_self, pte2pa_clearUser (h.space.pte_lt hj)]
    · rw [update_of_ne hij]

/-! ## Segments of the file -/

section Load

variable {file : List UInt8} {off n : Nat}

theorem length_readi_le : (readi file off n).length ≤ n := by
  rw [readi]
  split
  · exact Nat.zero_le _
  · exact List.length_take_le _ _

theorem readi_full (hn : 0 < n) (h : (readi file off n).length = n) :
    off + n ≤ file.length ∧ readi file off n = (file.drop off).take n := by
  rw [readi] at h ⊢
  split at h
  · exact absurd h (Nat.ne_of_lt hn)
  · rename_i hc
    rw [List.length_take, List.length_drop] at h
    exact ⟨by omega, if_neg hc⟩

def UserMem.Usable (v : UserMem) : Prop := ∀ j < v.n, v.flags j &&& PTE_U ≠ 0

theorem wp_loadLoop_contents {va offset size : Nat} (hP : Arena L P) (hva : va % PGSIZE = 0) {c : Nat} :
    ∀ {i : Nat} {v : UserMem} {k : Kmem}, i % PGSIZE = 0 → npages (size - i) = c → va + size ≤ v.n * PGSIZE → v.Usable →
    Contents L P m tf root k v T u →
    wp (loadLoop file root va offset size c i) (fun r k' => (r = 0 ∨ r = -1) ∧ ∃ v', v'.n = v.n ∧ v'.flags = v.flags ∧
      Contents L P m tf root k' v' T u ∧ (r = 0 → file.length < 2 ^ 32 → (0 < size - i → offset + i < 2 ^ 32) →
        (0 < size - i → offset + size ≤ file.length) ∧ v' = v.put (va + i) ((file.drop (offset + i)).take (size - i)))) k := by
  induction c with
  | zero =>
    intro i v k _ hc _ _ h
    have h0 : size - i = 0 := by
      simp only [npages, PGSIZE] at hc
      omega
    refine wp_pure.mpr ⟨.inl rfl, v, rfl, rfl, h, fun _ _ _ => ⟨fun hpos => absurd hpos (by omega), ?_⟩⟩
    rw [h0, List.take_zero, UserMem.put_nil]
  | succ c ih =>
    intro i v k hi hc hend hu h
    obtain ⟨n, hn⟩ : ∃ n, n = if size - i < PGSIZE then size - i else PGSIZE := ⟨_, rfl⟩
    have hmin : n = min (size - i) PGSIZE := by
      rw [hn]
      split <;> omega
    have hcount : 0 < size - i ∧ npages (size - (i + PGSIZE)) = c := by
      simp only [npages, PGSIZE] at hc ⊢
      omega
    have hj : (va + i) / PGSIZE < v.n := by
      simp only [PGSIZE] at hend ⊢
      omega
    have hmul : va + i = (va + i) / PGSIZE * PGSIZE := by
      simp only [PGSIZE] at hva hi ⊢
      omega
    rw [loadLoop, wp_bind, hmul]
    refine wp_walkaddr_user h.space hj ?_ ?_
    · have := hu _ hj
      rwa [← h.flags _ hj, pteFlags_and (by decide)] at this
    rw [if_neg (h.page_ne_zero hP hj), wp_bind, wp_memmove, wp_ite, ← hmul, ← hn]
    generalize hb : readi file ((offset + i) % 2 ^ 32) n = bytes
    have hlen : bytes.length ≤ n := hb ▸ length_readi_le
    have h' := h.memmove 0 bytes hP hj (by omega)
    rw [Nat.add_zero, ← hmul] at h'
    refine ⟨fun _ => wp_pure.mpr ⟨.inr rfl, v.put (va + i) bytes, rfl, rfl, h', by simp⟩, fun hfull => ?_⟩
    refine wp_mono (ih (v := v.put (va + i) bytes) ?_ hcount.2 hend hu h') ?_
    · rw [Nat.add_mod_right]
      exact hi
    rintro r k' ⟨hr, v', hn', hf', h'', hexact⟩
    refine ⟨hr, v', hn', hf', h'', fun hr0 hfile hoff => ?_⟩
    rw [Nat.mod_eq_of_lt (hoff hcount.1)] at hb
    obtain ⟨hin, hbytes⟩ := readi_full (lt_of_lt_of_eq (lt_min hcount.1 (by decide)) hmin.symm)
      (by rw [hb]; exact not_not.mp hfull)
    obtain ⟨hsize, rfl⟩ := hexact hr0 hfile (by omega)
    by_cases hlast : size - (i + PGSIZE) = 0
    · obtain rfl : n = size - i := by omega
      refine ⟨fun _ => by omega, ?_⟩
      rw [hlast, List.take_zero, UserMem.put_nil, ← hb, hbytes]
    · obtain rfl : n = PGSIZE := by omega
      refine ⟨fun _ => hsize (by omega), ?_⟩
      have hnext := v.put_append (va + i) bytes ((file.drop (offset + (i + PGSIZE))).take (size - (i + PGSIZE)))
      rw [not_not.mp hfull, Nat.add_assoc] at hnext
      rw [hnext, ← hb, hbytes, show size - i = PGSIZE + (size - (i + PGSIZE)) by omega, List.take_add, List.drop_drop, Nat.add_assoc]

theorem wp_loadseg_holds (file : List UInt8) {va offset size : Nat} (hP : Arena L P) (h : Holds L P m tf root k v) (hu : v.Usable)
    (hva : va % PGSIZE = 0) (hend : va + size ≤ v.n * PGSIZE) :
    wp (loadseg root va file offset size) (fun r k' => (r = 0 ∨ r = -1) ∧ ∃ v', v'.n = v.n ∧ v'.flags = v.flags ∧
      Holds L P m tf root k' v' ∧ (r = 0 → file.length < 2 ^ 32 → offset < 2 ^ 32 →
        (0 < size → offset + size ≤ file.length) ∧ v' = v.put va ((file.drop offset).take size))) k := by
  obtain ⟨T, u, h⟩ := h
  refine wp_mono (wp_loadLoop_contents hP hva rfl rfl hend hu h) ?_
  rintro r k' ⟨hr, v', hn, hf, h', hexact⟩
  exact ⟨hr, v', hn, hf, ⟨T, u, h'⟩, fun hr0 hfile hoff => hexact hr0 hfile fun _ => hoff⟩

/-! ## The program -/

/-- A program header of type `ELF_PROG_LOAD`. -/
structure Seg where
  flags : Nat
  offset : Nat
  vaddr : Nat
  filesz : Nat
  memsz : Nat
  deriving DecidableEq

def Seg.ofHeader (ph : List UInt8) : Seg where
  flags := field ph 4 4
  offset := field ph 8 8
  vaddr := field ph 16 8
  filesz := field ph 32 8
  memsz := field ph 40 8

def segsFrom (file : List UInt8) : Nat → Nat → List Seg
  | 0, _ => []
  | i + 1, off =>
    let ph := (file.drop off).take 56
    if ph.length = 56 ∧ field ph 0 4 = ELF_PROG_LOAD then Seg.ofHeader ph :: segsFrom file i (off + 56)
    else segsFrom file i (off + 56)

/-- What `exec` does for a segment. It takes the offset as a 32-bit number. -/
def UserMem.load (file : List UInt8) (v : UserMem) (g : Seg) : UserMem :=
  (v.grow (max v.n (npages (g.vaddr + g.memsz))) (userFlags (flags2perm g.flags))).put g.vaddr
    ((file.drop (g.offset % 2 ^ 32)).take g.filesz)

structure Seg.Passed (file : List UInt8) (g : Seg) : Prop where
  filesz_le : g.filesz ≤ g.memsz
  aligned : g.vaddr % PGSIZE = 0
  inFile : 0 < g.filesz → g.offset % 2 ^ 32 + g.filesz ≤ file.length

theorem Holds.n_le (h : Holds L P m tf root k v) : v.n ≤ P.card := by
  obtain ⟨T, u, h⟩ := h
  have := card_le_card h.pages_le
  rwa [card_pages] at this

theorem Holds.congr {v' : UserMem} (h : Holds L P m tf root k v) (hn : v'.n = v.n) (hf : ∀ j < v.n, v'.flags j = v.flags j)
    (hb : ∀ a < v.n * PGSIZE, v'.byte a = v.byte a) : Holds L P m tf root k v' := by
  obtain ⟨T, u, h⟩ := h
  exact ⟨T, u, h.congr hn hf hb⟩

theorem field_lt (l : List UInt8) (off n : Nat) : field l off n < 256 ^ n := by
  refine Nat.lt_of_lt_of_le (decLE_lt _) (Nat.pow_le_pow_right (by decide) ?_)
  exact List.length_take_le _ _

theorem flags2perm_lt (flags : Nat) : flags2perm flags < 2 ^ 10 := by
  refine Nat.or_lt_two_pow ?_ ?_ <;> split <;> decide

theorem userFlags_user (xperm : Nat) : userFlags xperm &&& PTE_U ≠ 0 := by
  rw [userFlags]
  simp only [Nat.and_or_distrib_right]
  exact Nat.ne_of_gt (Nat.lt_of_lt_of_le (show 0 < 16 by decide) (Nat.le_trans Nat.left_le_or Nat.left_le_or))

theorem UserMem.Usable.grow {xperm : Nat} (h : v.Usable) : (v.grow n (userFlags xperm)).Usable := by
  intro j _
  rw [UserMem.grow]
  dsimp only
  split
  · exact h j ‹_›
  · exact userFlags_user xperm

section

variable (hP : Arena L P) (hc : P.card ≤ 2 ^ 15)
include hP hc

theorem wp_uvmalloc_max {sz newsz xperm : Nat} (h : Holds L P m tf root k v)
    (hn : v.n = npages sz) (hx : xperm < 2 ^ 10) :
    wp (uvmalloc L root sz newsz xperm) (fun r k' => (r = 0 ∧ Holds L P m tf root k' v) ∨
      (r ≠ 0 ∧ r = max newsz sz ∧ Holds L P m tf root k' (v.grow (max v.n (npages newsz)) (userFlags xperm)))) k := by
  have hsame : ∀ {k : Kmem} {n flags : Nat}, n = v.n → Holds L P m tf root k v → Holds L P m tf root k (v.grow n flags) :=
    fun hn h => h.congr hn (fun _ hj => if_pos hj) fun _ ha => if_pos ha
  by_cases hlt : newsz < sz
  · rw [uvmalloc, if_pos hlt]
    have hle : npages newsz ≤ npages sz := npages_mono (Nat.le_of_lt hlt)
    exact wp_pure.mpr (.inr ⟨by omega, by omega, hsame (by omega) h⟩)
  · have hle : npages sz ≤ npages newsz := npages_mono (Nat.le_of_not_lt hlt)
    refine wp_mono (wp_uvmalloc_holds hP hc h hn (Nat.le_of_not_lt hlt) hx) ?_
    rintro r k' (⟨rfl, h'⟩ | ⟨rfl, h'⟩)
    · exact .inl ⟨rfl, h'⟩
    · by_cases h0 : r = 0
      · have hgrown : npages r = 0 := by
          rw [h0]
          rfl
        refine .inl ⟨h0, h'.congr (by rw [UserMem.grow_n]; omega) (fun j hj => ?_) fun a ha => ?_⟩
        · rw [UserMem.grow_n] at hj
          omega
        · rw [UserMem.grow_n, hgrown] at ha
          omega
      · refine .inr ⟨h0, by omega, ?_⟩
        rw [hn, max_eq_right hle]
        exact h'

theorem wp_segment {sz : Nat} {g : Seg} {x : Nat → K (Bool × Nat)} {Q : Bool × Nat → Kmem → Prop}
    (h : Holds L P m tf root k v) (hn : v.n = npages sz) (hu : v.Usable) (hv : g.vaddr < 2 ^ 64)
    (hm : g.memsz < 2 ^ 64) (hle : g.filesz ≤ g.memsz) (hover : g.vaddr ≤ (g.vaddr + g.memsz) % 2 ^ 64)
    (hal : g.vaddr % PGSIZE = 0)
    (hstop : ∀ v' k' sz', v'.n = npages sz' → v'.Usable → Holds L P m tf root k' v' → Q (false, sz') k')
    (hnext : ∀ v' k' sz', v'.n = npages sz' → v'.Usable → Holds L P m tf root k' v' →
      (file.length < 2 ^ 32 → g.Passed file ∧ v' = v.load file g) → wp (x sz') Q k') :
    wp (do
      let sz1 ← uvmalloc L root sz ((g.vaddr + g.memsz) % 2 ^ 64) (flags2perm g.flags)
      if sz1 = 0 then pure (false, sz)
      else do
        let r ← loadseg root g.vaddr file (g.offset % 2 ^ 32) (g.filesz % 2 ^ 32)
        if r < 0 then pure (false, sz1) else x sz1) Q k := by
  have hend : (g.vaddr + g.memsz) % 2 ^ 64 = g.vaddr + g.memsz := by omega
  rw [hend, wp_bind]
  refine wp_mono (wp_uvmalloc_max hP hc h hn (flags2perm_lt _)) ?_
  rintro r k1 (⟨rfl, h1⟩ | ⟨hr, hmax, h1⟩)
  · exact wp_pure.mpr (hstop v k1 sz hn hu h1)
  set v1 := v.grow (max v.n (npages (g.vaddr + g.memsz))) (userFlags (flags2perm g.flags)) with hv1
  have hn1 : v1.n = npages r := by
    rw [hv1, UserMem.grow_n, hmax, hn]
    simp only [npages, PGSIZE]
    omega
  have hbound := h1.n_le
  have hpages : r ≤ v1.n * PGSIZE := hn1 ▸ le_npages_mul
  have hsmall : g.filesz % 2 ^ 32 = g.filesz := by
    simp only [PGSIZE] at hpages
    omega
  rw [if_neg hr, wp_bind, hsmall]
  refine wp_mono (wp_loadseg_holds file hP h1 hu.grow hal (by omega)) ?_
  rintro res k2 ⟨hres, v2, hn2, hf2, h2, hexact⟩
  have hu2 : v2.Usable := by
    intro j hj
    rw [hf2]
    exact hu.grow j (hn2 ▸ hj)
  rw [wp_ite]
  refine ⟨fun _ => wp_pure.mpr (hstop v2 k2 r (hn2.trans hn1) hu2 h2), fun hneg => ?_⟩
  refine hnext v2 k2 r (hn2.trans hn1) hu2 h2 fun hfile => ?_
  obtain ⟨hin, hput⟩ := hexact (by omega) hfile (Nat.mod_lt _ (by decide))
  exact ⟨⟨hle, hal, hin⟩, hput⟩

theorem wp_loadProgram_holds {i : Nat} :
    ∀ {off sz : Nat} {v : UserMem} {k : Kmem}, Holds L P m tf root k v → v.n = npages sz → v.Usable →
    wp (loadProgram L file root i off sz) (fun r k' => ∃ v', v'.n = npages r.2 ∧ v'.Usable ∧ Holds L P m tf root k' v' ∧
      (r.1 = true → file.length < 2 ^ 32 → off < 2 ^ 32 →
        (∀ g ∈ segsFrom file i off, g.Passed file) ∧ v' = (segsFrom file i off).foldl (UserMem.load file) v)) k := by
  induction i with
  | zero =>
    intro off sz v k h hn hu
    exact wp_pure.mpr ⟨v, hn, hu, h, fun _ _ _ => ⟨fun g hg => absurd hg List.not_mem_nil, rfl⟩⟩
  | succ i ih =>
    intro off sz v k h hn hu
    have hstop : wp (pure (false, sz) : K (Bool × Nat)) (fun r k' => ∃ v', v'.n = npages r.2 ∧ v'.Usable ∧
        Holds L P m tf root k' v' ∧ (r.1 = true → file.length < 2 ^ 32 → off < 2 ^ 32 →
          (∀ g ∈ segsFrom file (i + 1) off, g.Passed file) ∧
            v' = (segsFrom file (i + 1) off).foldl (UserMem.load file) v)) k :=
      wp_pure.mpr ⟨v, hn, hu, h, nofun⟩
    rw [loadProgram]
    generalize hph : readi file off 56 = ph
    have hread : ph.length = 56 → off + 56 ≤ file.length ∧ (file.drop off).take 56 = ph := fun hlen => by
      obtain ⟨h1, h2⟩ := readi_full (by decide) (hph ▸ hlen)
      exact ⟨h1, h2.symm.trans hph⟩
    simp only [wp_ite]
    refine ⟨fun _ => hstop, fun hlen => ?_⟩
    obtain ⟨hin, hbytes⟩ := hread (not_not.mp hlen)
    have hoff : file.length < 2 ^ 32 → (off + 56) % 2 ^ 32 = off + 56 := fun hfile => Nat.mod_eq_of_lt (by omega)
    refine ⟨fun htype => ?_, fun htype => ⟨fun _ => hstop, fun hsz => ⟨fun _ => hstop, fun hover => ⟨fun _ => hstop, fun hal => ?_⟩⟩⟩⟩
    · refine wp_mono (ih h hn hu) ?_
      rintro r k' ⟨v', hn', hu', h', hexact⟩
      refine ⟨v', hn', hu', h', fun hr hfile hlt => ?_⟩
      have := hexact hr hfile (Nat.mod_lt _ (by decide))
      rw [hoff hfile] at this
      rwa [segsFrom, hbytes, if_neg fun hc => htype hc.2]
    · refine wp_segment (g := Seg.ofHeader ph) hP hc h hn hu (field_lt ph 16 8) (field_lt ph 40 8) (Nat.le_of_not_lt hsz)
        (Nat.le_of_not_lt hover) (not_not.mp hal) (fun v' k' sz' hn' hu' h' => ⟨v', hn', hu', h', nofun⟩) ?_
      intro v1 k1 sz1 hn1 hu1 h₁ hexact1
      refine wp_mono (ih h₁ hn1 hu1) ?_
      rintro r k' ⟨v', hn', hu', h', hexact⟩
      refine ⟨v', hn', hu', h', fun hr hfile hlt => ?_⟩
      obtain ⟨hpassed, rfl⟩ := hexact1 hfile
      have := hexact hr hfile (Nat.mod_lt _ (by decide))
      rw [hoff hfile] at this
      rw [segsFrom, hbytes, if_pos ⟨not_not.mp hlen, not_not.mp htype⟩, List.foldl_cons]
      exact ⟨List.forall_mem_cons.mpr ⟨hpassed, this.1⟩, this.2⟩

end

end Load

end Sys
end Xv6
