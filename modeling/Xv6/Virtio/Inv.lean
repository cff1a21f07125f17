import Mathlib.Data.List.Perm.Subperm
import Mathlib.Data.List.Nodup
import Xv6.Virtio.Model

/-!
# Xv6.Virtio.Inv

The invariant of the disk driver. A request owns three descriptors from `alloc3_desc` to `free_chain`
(`Chains`); once formatted, its descriptors stay what the device has to find (`Formatted`); once
published, its head is in exactly one of the avail ring, the hands of the device and the used ring, until
`virtio_disk_intr` has cleared `b->disk` (`Flow`).

* `wp_alloc3Desc`, `wp_freeChain`: what allocating and freeing do.
* `Flow.*`: how a head moves on.
-/

namespace Xv6
namespace Virtio

open Wp Function List

section

variable {P B : Type}

def Pc.formatted : Pc B → Option (Req B)
  | .ring r | .publish r | .test r | .waiting r | .rewait r | .finish r => some r
  | _ => none

def Pc.published : Pc B → Option (Req B)
  | .test r | .waiting r | .rewait r | .finish r => some r
  | _ => none

theorem Pc.req_of_formatted {x : Pc B} {r : Req B} (h : x.formatted = some r) : x.req = some r := by
  cases x <;> simp_all [Pc.formatted, Pc.req]

theorem Pc.formatted_of_published {x : Pc B} {r : Req B} (h : x.published = some r) : x.formatted = some r := by
  cases x <;> simp_all [Pc.formatted, Pc.published]

theorem Pc.buf_of_req {x : Pc B} {r : Req B} (h : x.req = some r) : x.buf = some r.b := by
  cases x <;> simp_all [Pc.buf, Pc.req]

/-! ## Waking -/

@[simp] theorem Pc.locked_woken (x : Pc B) : x.woken.locked = x.locked := by cases x <;> rfl

@[simp] theorem Pc.buf_woken (x : Pc B) : x.woken.buf = x.buf := by cases x <;> rfl

@[simp] theorem Pc.req_woken (x : Pc B) : x.woken.req = x.req := by cases x <;> rfl

@[simp] theorem Pc.formatted_woken (x : Pc B) : x.woken.formatted = x.formatted := by cases x <;> rfl

@[simp] theorem Pc.published_woken (x : Pc B) : x.woken.published = x.published := by cases x <;> rfl

/-- `y` is `x`, or a process at `x` that has been woken. -/
def Pc.Like (x y : Pc B) : Prop := y = x ∨ y = x.woken ∧ x.chan ≠ none

theorem Pc.Like.views {x y : Pc B} (h : x.Like y) : y.locked = x.locked ∧ y.buf = x.buf ∧ y.req = x.req ∧
    y.formatted = x.formatted ∧ y.published = x.published := by
  obtain rfl | ⟨rfl, _⟩ := h <;> simp

variable [DecidableEq B]

theorem like_wake (c : Chan B) (pc : P → Pc B) (p : P) : (pc p).Like (wake c pc p) := by
  unfold wake
  split
  · rename_i h
    exact .inr ⟨rfl, by rw [h]; simp⟩
  · exact .inl rfl

theorem chan_wake (c : Chan B) (pc : P → Pc B) (p : P) : (wake c pc p).chan ≠ some c := by
  unfold wake
  split
  · cases hx : pc p <;> simp [Pc.woken, Pc.chan]
  · assumption

theorem wake_wake (c : Chan B) (pc : P → Pc B) : wake c (wake c pc) = wake c pc :=
  funext fun p => if_neg (chan_wake c pc p)

end

/-! ## Owning descriptors -/

section Chains

variable {P B : Type} [DecidableEq P] {free : Nat → Bool} {req : P → Option (Req B)} {p : P} {r : Req B}

/-- A descriptor is free or in one of the three places of one request. -/
structure Chains (free : Nat → Bool) (req : P → Option (Req B)) : Prop where
  ids : ∀ p r, req p = some r → r.ids.Nodup ∧ ∀ d ∈ r.ids, d < NUM ∧ free d = false
  disj : ∀ p q r r' d, req p = some r → req q = some r' → d ∈ r.ids → d ∈ r'.ids → p = q
  owned : ∀ d < NUM, free d = false → ∃ p r, req p = some r ∧ d ∈ r.ids

theorem Chains.alloc (hc : Chains free req) (hp : req p = none) (hn : r.ids.Nodup)
    (hf : ∀ d ∈ r.ids, d < NUM ∧ free d = true) :
    Chains (fun d => if d ∈ r.ids then false else free d) (update req p (some r)) := by
  have hold : ∀ q r' d, req q = some r' → d ∈ r'.ids → d ∉ r.ids := by
    intro q r' d hq hd hdr
    have h1 := ((hc.ids q r' hq).2 d hd).2
    rw [(hf d hdr).2] at h1
    cases h1
  have hne : ∀ q r', req q = some r' → q ≠ p := by
    rintro q r' hq rfl
    rw [hp] at hq
    cases hq
  refine ⟨fun q r' hq => ?_, fun q q' r1 r2 d hq hq' hd hd' => ?_, fun d hd hfd => ?_⟩
  · by_cases h : q = p
    · subst h
      rw [update_self] at hq
      cases hq
      exact ⟨hn, fun d hd => ⟨(hf d hd).1, by simp [hd]⟩⟩
    · rw [update_of_ne h] at hq
      exact ⟨(hc.ids q r' hq).1, fun d hd => ⟨((hc.ids q r' hq).2 d hd).1,
        by simp [hold q r' d hq hd, ((hc.ids q r' hq).2 d hd).2]⟩⟩
  · by_cases h : q = p
    · by_cases h' : q' = p
      · rw [h, h']
      · subst h
        rw [update_self] at hq
        rw [update_of_ne h'] at hq'
        cases hq
        exact absurd hd (hold q' r2 d hq' hd')
    · rw [update_of_ne h] at hq
      by_cases h' : q' = p
      · subst h'
        rw [update_self] at hq'
        cases hq'
        exact absurd hd' (hold q r1 d hq hd)
      · rw [update_of_ne h'] at hq'
        exact hc.disj q q' r1 r2 d hq hq' hd hd'
  · by_cases hdr : d ∈ r.ids
    · exact ⟨p, r, update_self .., hdr⟩
    · rw [if_neg hdr] at hfd
      obtain ⟨q, r', hq, hdq⟩ := hc.owned d hd hfd
      exact ⟨q, r', by rw [update_of_ne (hne q r' hq), hq], hdq⟩

theorem Chains.release (hc : Chains free req) (hp : req p = some r) :
    Chains (fun d => if d ∈ r.ids then true else free d) (update req p none) := by
  have hold : ∀ q r', update req p none q = some r' → q ≠ p ∧ req q = some r' := by
    intro q r' hq
    by_cases h : q = p
    · rw [h, update_self] at hq
      cases hq
    · rw [update_of_ne h] at hq
      exact ⟨h, hq⟩
  refine ⟨fun q r' hq => ?_, fun q q' r1 r2 d hq hq' => ?_, fun d hd hfd => ?_⟩
  · obtain ⟨hne, hq⟩ := hold q r' hq
    refine ⟨(hc.ids q r' hq).1, fun d hd => ⟨((hc.ids q r' hq).2 d hd).1, ?_⟩⟩
    have hdr : d ∉ r.ids := fun h => hne (hc.disj q p r' r d hq hp hd h)
    rw [if_neg hdr]
    exact ((hc.ids q r' hq).2 d hd).2
  · exact hc.disj q q' r1 r2 d (hold q r1 hq).2 (hold q' r2 hq').2
  · by_cases hdr : d ∈ r.ids
    · rw [if_pos hdr] at hfd
      cases hfd
    · rw [if_neg hdr] at hfd
      obtain ⟨q, r', hq, hdq⟩ := hc.owned d hd hfd
      have hne : q ≠ p := by
        rintro rfl
        rw [hp] at hq
        cases hq
        exact hdr hdq
      exact ⟨q, r', by rw [update_of_ne hne, hq], hdq⟩

omit [DecidableEq P]

theorem mem_ids (r : Req B) : r.i0 ∈ r.ids := by simp [Req.ids]

theorem Chains.head_inj (hc : Chains free req) {q : P} {r' : Req B} (hp : req p = some r) (hq : req q = some r')
    (h : r.i0 = r'.i0) : p = q :=
  hc.disj p q r r' r.i0 hp hq (mem_ids r) (h ▸ mem_ids r')

end Chains

/-! ## The heads on their way -/

section Flow

variable {P B : Type} {heads heads' : List Nat} {pub : P → Option (Req B)} {disk : B → Bool} {p : P} {r : Req B}

/-- The heads on their way are those of the published requests whose buffer has not been cleared. -/
structure Flow (heads : List Nat) (pub : P → Option (Req B)) (disk : B → Bool) : Prop where
  nodup : heads.Nodup
  mem : ∀ h, h ∈ heads ↔ ∃ p r, pub p = some r ∧ r.i0 = h ∧ disk r.b = true

theorem Flow.perm (hf : Flow heads pub disk) (h : heads'.Perm heads) : Flow heads' pub disk :=
  ⟨h.nodup_iff.mpr hf.nodup, fun x => by rw [h.mem_iff, hf.mem]⟩

section

variable [DecidableEq P]

theorem Flow.publish (hf : Flow heads pub disk) (hp : pub p = none) (hr : r.i0 ∉ heads) (hd : disk r.b = true) :
    Flow (r.i0 :: heads) (update pub p (some r)) disk := by
  refine ⟨nodup_cons.mpr ⟨hr, hf.nodup⟩, fun h => ?_⟩
  rw [mem_cons, hf.mem]
  constructor
  · rintro (rfl | ⟨q, r', hq, hh, hd'⟩)
    · exact ⟨p, r, update_self .., rfl, hd⟩
    · have hne : q ≠ p := by
        rintro rfl
        rw [hp] at hq
        cases hq
      exact ⟨q, r', by rw [update_of_ne hne, hq], hh, hd'⟩
  · rintro ⟨q, r', hq, hh, hd'⟩
    by_cases hqp : q = p
    · rw [hqp, update_self] at hq
      cases hq
      exact .inl hh.symm
    · rw [update_of_ne hqp] at hq
      exact .inr ⟨q, r', hq, hh, hd'⟩

theorem Flow.retire (hf : Flow heads pub disk) (hp : pub p = some r) (hd : disk r.b = false) :
    Flow heads (update pub p none) disk := by
  refine ⟨hf.nodup, fun h => ?_⟩
  rw [hf.mem]
  constructor
  · rintro ⟨q, r', hq, hh, hd'⟩
    have hne : q ≠ p := by
      rintro rfl
      rw [hp] at hq
      cases hq
      rw [hd] at hd'
      cases hd'
    exact ⟨q, r', by rw [update_of_ne hne, hq], hh, hd'⟩
  · rintro ⟨q, r', hq, hh, hd'⟩
    by_cases hqp : q = p
    · rw [hqp, update_self] at hq
      cases hq
    · rw [update_of_ne hqp] at hq
      exact ⟨q, r', hq, hh, hd'⟩

end

variable [DecidableEq B]

theorem Flow.set {b : B} {x : Bool} (hf : Flow heads pub disk) (hb : ∀ q r', pub q = some r' → r'.b ≠ b) :
    Flow heads pub (update disk b x) := by
  refine ⟨hf.nodup, fun h => ?_⟩
  rw [hf.mem]
  refine exists_congr fun q => exists_congr fun r' => and_congr_right fun hq => ?_
  rw [update_of_ne (hb q r' hq)]

theorem Flow.clear (hf : Flow (r.i0 :: heads) pub disk) (hp : pub p = some r)
    (hb : ∀ q r', pub q = some r' → r'.b = r.b → q = p) (hi : ∀ q r', pub q = some r' → r'.i0 = r.i0 → q = p) :
    Flow heads pub (update disk r.b false) := by
  obtain ⟨hr, hn⟩ := nodup_cons.mp hf.nodup
  refine ⟨hn, fun h => ?_⟩
  constructor
  · intro hh
    obtain ⟨q, r', hq, rfl, hd⟩ := (hf.mem h).mp (mem_cons_of_mem _ hh)
    have hne : r'.b ≠ r.b := by
      intro he
      obtain rfl := hb q r' hq he
      rw [hp] at hq
      cases hq
      exact hr hh
    exact ⟨q, r', hq, rfl, by rw [update_of_ne hne, hd]⟩
  · rintro ⟨q, r', hq, rfl, hd⟩
    by_cases hbq : r'.b = r.b
    · rw [hbq, update_self] at hd
      cases hd
    · rw [update_of_ne hbq] at hd
      obtain he | hm := mem_cons.mp ((hf.mem r'.i0).mpr ⟨q, r', hq, rfl, hd⟩)
      · obtain rfl := hi q r' hq he
        rw [hp] at hq
        cases hq
        exact absurd rfl hbq
      · exact hm

end Flow

/-! ## Allocating and freeing -/

section Specs

variable {P B : Type} [DecidableEq B] {s : State P B} {Q : Option Nat → State P B → Prop}

def freeCount (free : Nat → Bool) : Nat := (range NUM).countP free

theorem freeCount_le {free : Nat → Bool} {l : List Nat} (h : ∀ d < NUM, free d = true → d ∈ l) :
    freeCount free ≤ l.length := by
  rw [freeCount, countP_eq_length_filter]
  refine (subperm_of_subset (nodup_range.filter _) fun d hd => ?_).length_le
  rw [mem_filter, mem_range] at hd
  exact h d hd.1 hd.2

theorem freeCount_mono {free free' : Nat → Bool} (h : ∀ d, free' d = true → free d = true) :
    freeCount free' ≤ freeCount free := countP_mono_left fun d _ => h d

omit [DecidableEq B] in
theorem wp_allocDesc (hnone : (∀ d < NUM, s.free d = false) → Q none s)
    (hsome : ∀ i < NUM, s.free i = true → Q (some i) { s with free := update s.free i false }) :
    wp allocDesc Q s := by
  unfold allocDesc
  rw [wp_bind, wp_get]
  cases hf : (range NUM).find? s.free with
  | none =>
    refine wp_pure.mpr (hnone fun d hd => ?_)
    simpa using find?_eq_none.mp hf d (mem_range.mpr hd)
  | some i =>
    exact wp_bind.mpr (wp_set.mpr (wp_pure.mpr (hsome i (mem_range.mp (mem_of_find?_eq_some hf)) (find?_some hf))))

theorem wp_freeDesc {R : Unit → State P B → Prop} {i : Nat} (hi : i < NUM) (hf : s.free i = false) (h : R () { s with
      desc := update s.desc i zeroDesc
      free := update s.free i true
      pc := wake .free s.pc }) : wp (freeDesc i) R s := by
  unfold freeDesc
  rw [wp_bind, wp_get, wp_ite]
  refine ⟨fun h => absurd hi (by omega), fun _ => ?_⟩
  rw [wp_ite]
  exact ⟨fun h => absurd h (by simp [hf]), fun _ => wp_set.mpr h⟩

/-- `alloc3_desc` takes three free descriptors, or leaves the free descriptors as they were: then there
are fewer than three. -/
theorem wp_alloc3Desc {R : Option (Nat × Nat × Nat) → State P B → Prop}
    (hnone : ∀ desc pc, (∀ d, s.free d = false → desc d = s.desc d) → (pc = s.pc ∨ pc = wake .free s.pc) →
      freeCount s.free < 3 → R none { s with desc := desc, pc := pc })
    (hsome : ∀ i0 i1 i2, [i0, i1, i2].Nodup → (∀ d ∈ [i0, i1, i2], d < NUM ∧ s.free d = true) →
      R (some (i0, i1, i2)) { s with free := fun d => if d ∈ [i0, i1, i2] then false else s.free d }) :
    wp alloc3Desc R s := by
  unfold alloc3Desc
  rw [wp_bind]
  refine wp_allocDesc (fun hall => ?_) fun i0 h0 hf0 => ?_
  · refine wp_pure.mpr (hnone s.desc s.pc (fun _ _ => rfl) (.inl rfl) ?_)
    have hcount : freeCount s.free ≤ [].length := freeCount_le fun d hd hf => absurd hf (by simp [hall d hd])
    exact lt_of_le_of_lt hcount (by simp)
  rw [wp_bind]
  refine wp_allocDesc (fun hall => ?_) fun i1 h1 hf1 => ?_
  · -- one descriptor was taken, and is given back
    have hcount : freeCount s.free ≤ [i0].length := freeCount_le fun d hd hf => by
      by_contra hne
      have := hall d hd
      dsimp only at this
      rw [update_of_ne (by simpa using hne), hf] at this
      cases this
    rw [wp_bind]
    refine wp_freeDesc h0 (update_self ..) (wp_pure.mpr ?_)
    dsimp only
    rw [update_idem, ← hf0, update_eq_self]
    refine hnone _ _ (fun d hd => ?_) (.inr rfl) (lt_of_le_of_lt hcount (by simp))
    exact update_of_ne (by rintro rfl; rw [hf0] at hd; cases hd) ..
  have h01 : i1 ≠ i0 := by
    rintro rfl
    simp at hf1
  dsimp only at hf1
  rw [update_of_ne h01] at hf1
  rw [wp_bind]
  refine wp_allocDesc (fun hall => ?_) fun i2 h2 hf2 => ?_
  · -- two descriptors were taken, and are given back
    have hcount : freeCount s.free ≤ [i0, i1].length := freeCount_le fun d hd hf => by
      by_contra hne
      simp only [mem_cons, not_mem_nil, or_false, not_or] at hne
      have := hall d hd
      dsimp only at this
      rw [update_of_ne hne.2, update_of_ne hne.1, hf] at this
      cases this
    rw [wp_bind]
    refine wp_freeDesc h0 (by simp [update_of_ne h01.symm]) ?_
    rw [wp_bind]
    refine wp_freeDesc h1 (by simp [update_of_ne h01]) (wp_pure.mpr ?_)
    dsimp only
    have hfree : update (update (update (update s.free i0 false) i1 false) i0 true)
        i1 true = s.free := by
      funext d
      by_cases hd1 : d = i1
      · rw [hd1, update_self, hf1]
      · rw [update_of_ne hd1]
        by_cases hd0 : d = i0
        · rw [hd0, update_self, hf0]
        · simp only [update_of_ne hd0, update_of_ne hd1]
    rw [hfree, wake_wake]
    refine hnone _ _ (fun d hd => ?_) (.inr rfl) (lt_of_le_of_lt hcount (by simp))
    rw [update_of_ne (by rintro rfl; rw [hf1] at hd; cases hd),
      update_of_ne (by rintro rfl; rw [hf0] at hd; cases hd)]
  have h12 : i2 ≠ i1 := by
    rintro rfl
    simp at hf2
  dsimp only at hf2
  rw [update_of_ne h12] at hf2
  have h02 : i2 ≠ i0 := by
    rintro rfl
    simp at hf2
  rw [update_of_ne h02] at hf2
  refine wp_pure.mpr ?_
  have hfree : update (update (update s.free i0 false) i1 false) i2 false =
      fun d => if d ∈ [i0, i1, i2] then false else s.free d := by
    funext d
    simp only [update_apply, mem_cons, not_mem_nil, or_false]
    grind
  rw [hfree]
  refine hsome i0 i1 i2 ?_ ?_
  · simp [h01.symm, h02.symm, h12.symm]
  · simp only [mem_cons, not_mem_nil, or_false, forall_eq_or_imp, forall_eq]
    exact ⟨⟨h0, hf0⟩, ⟨h1, hf1⟩, h2, hf2⟩

end Specs

/-! ## Formatted requests -/

section Formatted

variable {P B : Type} {s : State P B} {blockno : B → BitVec 32} {r : Req B}

/-- The descriptors, `disk.ops` and `disk.info` say what the request is. -/
structure Formatted (blockno : B → BitVec 32) (s : State P B) (r : Req B) : Prop where
  desc : ∀ d ∈ r.ids, s.desc d = r.desc d
  op : s.ops r.i0 = r.op blockno
  info : s.infoB r.i0 = some r.b

theorem Formatted.of_eq {s' : State P B} (h : Formatted blockno s r) (hd : ∀ d ∈ r.ids, s'.desc d = s.desc d)
    (ho : s'.ops r.i0 = s.ops r.i0) (hi : s'.infoB r.i0 = s.infoB r.i0) : Formatted blockno s' r :=
  ⟨fun d hm => (hd d hm).trans (h.desc d hm), ho.trans h.op, hi.trans h.info⟩

variable [DecidableEq B] {R : Unit → State P B → Prop} {n i : Nat}

def freed (i : Nat) (s : State P B) : State P B :=
  { s with
    desc := update s.desc i zeroDesc
    free := update s.free i true
    pc := wake .free s.pc }

theorem wp_freeChain_next (hi : i < NUM) (hf : s.free i = false)
    (hflag : (s.desc i).flags &&& VRING_DESC_F_NEXT ≠ 0) (h : wp (freeChain n (s.desc i).next) R (freed i s)) :
    wp (freeChain (n + 1) i) R s := by
  rw [freeChain, wp_bind, wp_get, wp_bind]
  refine wp_freeDesc hi hf ?_
  rw [if_pos hflag]
  exact h

theorem wp_freeChain_last (hi : i < NUM) (hf : s.free i = false)
    (hflag : (s.desc i).flags &&& VRING_DESC_F_NEXT = 0) (h : R () (freed i s)) : wp (freeChain (n + 1) i) R s := by
  rw [freeChain, wp_bind, wp_get, wp_bind]
  refine wp_freeDesc hi hf ?_
  rw [if_neg (not_not.mpr hflag)]
  exact wp_pure.mpr h

theorem wp_freeChain (hdesc : ∀ d ∈ r.ids, s.desc d = r.desc d)
    (hn : r.ids.Nodup) (hf : ∀ d ∈ r.ids, d < NUM ∧ s.free d = false)
    (h : ∀ desc, (∀ d, d ∉ r.ids → desc d = s.desc d) → R () { s with
      desc := desc
      free := fun d => if d ∈ r.ids then true else s.free d
      pc := wake .free s.pc }) : wp (freeChain (n + 3) r.i0) R s := by
  simp only [Req.ids, nodup_cons, mem_cons, not_mem_nil, or_false, not_or, nodup_nil,
    not_false_eq_true, and_true, forall_eq_or_imp, forall_eq] at hn hdesc hf
  obtain ⟨⟨h01, h02⟩, h12⟩ := hn
  obtain ⟨⟨h0, hf0⟩, ⟨h1, hf1⟩, h2, hf2⟩ := hf
  obtain ⟨hd0, hd1, hd2⟩ := hdesc
  have e1 : (freed r.i0 s).desc r.i1 = r.desc r.i1 := by simp [freed, update_of_ne (Ne.symm h01), hd1]
  have e2 : (freed r.i1 (freed r.i0 s)).desc r.i2 = r.desc r.i2 := by
    simp [freed, update_of_ne (Ne.symm h02), update_of_ne (Ne.symm h12), hd2]
  refine wp_freeChain_next h0 hf0 (by rw [hd0, Req.desc, if_pos rfl]; simp) ?_
  rw [show (s.desc r.i0).next = r.i1 by rw [hd0, Req.desc, if_pos rfl]]
  refine wp_freeChain_next h1 (by simp [freed, update_of_ne (Ne.symm h01), hf1]) ?_ ?_
  · rw [e1, Req.desc, if_neg (Ne.symm h01), if_pos rfl]
    cases r.write <;> simp
  rw [show ((freed r.i0 s).desc r.i1).next = r.i2 by rw [e1, Req.desc, if_neg (Ne.symm h01), if_pos rfl]]
  refine wp_freeChain_last h2 ?_ ?_ ?_
  · simp [freed, update_of_ne (Ne.symm h02), update_of_ne (Ne.symm h12), hf2]
  · rw [e2, Req.desc, if_neg (Ne.symm h02), if_neg (Ne.symm h12)]
    simp
  have hfree : update (update (update s.free r.i0 true) r.i1 true) r.i2 true =
      fun d => if d ∈ r.ids then true else s.free d := by
    funext d
    simp only [update_apply, Req.ids, mem_cons, not_mem_nil, or_false]
    grind
  simp only [freed, hfree, wake_wake]
  refine h _ fun d hd => ?_
  simp only [Req.ids, mem_cons, not_mem_nil, or_false, not_or] at hd
  rw [update_of_ne hd.2.2, update_of_ne hd.2.1, update_of_ne hd.1]

end Formatted

end Virtio
end Xv6
