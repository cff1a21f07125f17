import Xv6.Virtio.Inv

/-!
# Xv6.Virtio.Steps

Every step of the driver and of the device keeps the invariant.

* `Inv`: the invariant; `Pc.Ok` says what holds where a process is.
* `Inv.turn`, `inv_woken`, `Inv.of_flow`: what the lemmas of the steps have in common.
-/

namespace Xv6
namespace Virtio

open Wp Fifo Function List

section

variable {P B : Type}

/-- The heads in the avail ring that the device has not taken. -/
def State.availHeads (s : State P B) : List Nat := queue NUM s.avail.ring s.seen s.avail.idx

/-- The heads in the used ring that `virtio_disk_intr` has not seen. -/
def State.usedHeads (s : State P B) : List Nat := queue NUM s.used.ring s.usedIdx s.used.idx

/-- The heads between publication and the clearing of `b->disk`. -/
def State.heads (s : State P B) : List Nat := s.availHeads ++ s.flight ++ s.usedHeads

/-- What holds where a process is. -/
def Pc.Ok (s : State P B) : Pc B → Prop
  | .asleep _ _ => freeCount s.free < 3
  | .ring r => s.disk r.b = true
  | .publish r => s.disk r.b = true ∧ s.avail.ring (s.avail.idx.toNat % NUM) = r.i0
  | .waiting r => s.disk r.b = true
  | .finish r => s.disk r.b = false
  | _ => True

structure Inv (blockno : B → BitVec 32) (s : State P B) : Prop where
  lock : ∀ p, (s.pc p).locked = true ↔ s.lock = some (.proc p)
  holder : ∀ p b, (s.pc p).buf = some b → s.holder b = some p
  chains : Chains s.free fun p => (s.pc p).req
  formatted : ∀ p r, (s.pc p).formatted = some r → Formatted blockno s r
  flow : Flow s.heads (fun p => (s.pc p).published) s.disk
  done : ∀ h ∈ s.usedHeads, s.completed h = true ∧ s.status h = 0
  pos : ∀ p, (s.pc p).Ok s

theorem inv_start (blockno : B → BitVec 32) : Inv blockno (start P B) := by
  have havail : (start P B).availHeads = [] := by simp [State.availHeads, start, queue, size, contents]
  have hused : (start P B).usedHeads = [] := by simp [State.usedHeads, start, queue, size, contents]
  have hheads : (start P B).heads = [] := by rw [State.heads, havail, hused]; rfl
  refine ⟨by simp [start, Pc.locked], by simp [start, Pc.buf], ⟨?_, ?_, ?_⟩, by simp [start, Pc.formatted],
    ⟨?_, ?_⟩, ?_, fun _ => trivial⟩
  · simp [start, Pc.req]
  · simp [start, Pc.req]
  · simp [start]
  · rw [hheads]
    exact nodup_nil
  · rw [hheads]
    simp [start, Pc.published]
  · rw [hused]
    simp

theorem Pc.Ok.like {s : State P B} {x y : Pc B} (h : x.Ok s) (hl : x.Like y) : y.Ok s := by
  obtain rfl | ⟨rfl, _⟩ := hl
  · exact h
  · cases x <;> first | exact h | exact trivial

variable {blockno : B → BitVec 32} {s : State P B} {p : P} {r : Req B}

theorem Inv.buf_inj (hi : Inv blockno s) {q : P} {b : B} (hp : (s.pc p).buf = some b) (hq : (s.pc q).buf = some b) :
    q = p :=
  Option.some.inj ((hi.holder q b hq).symm.trans (hi.holder p b hp))

theorem Inv.locked_inj (hi : Inv blockno s) {q : P} (hp : (s.pc p).locked = true) (hq : (s.pc q).locked = true) :
    q = p := by
  have := ((hi.lock q).mp hq).symm.trans ((hi.lock p).mp hp)
  simpa using this

theorem Inv.head_lt (hi : Inv blockno s) {h : Nat} (hh : h ∈ s.heads) : h < NUM := by
  obtain ⟨p, r, hp, rfl, _⟩ := (hi.flow.mem h).mp hh
  exact ((hi.chains.ids p r (Pc.req_of_formatted (Pc.formatted_of_published hp))).2 _ (mem_ids r)).1

theorem length_le_NUM {l : List Nat} (hn : l.Nodup) (hl : ∀ h ∈ l, h < NUM) : l.length ≤ NUM := by
  have := (subperm_of_subset hn fun h hh => mem_range.mpr (hl h hh)).length_le
  simpa using this

theorem Inv.head_fresh (hi : Inv blockno s) (hr : (s.pc p).req = some r) (hp : (s.pc p).published = none) :
    r.i0 ∉ s.heads := by
  intro hh
  obtain ⟨q, r', hq, he, _⟩ := (hi.flow.mem _).mp hh
  obtain rfl := hi.chains.head_inj hr (Pc.req_of_formatted (Pc.formatted_of_published hq)) he.symm
  rw [hp] at hq
  cases hq

theorem Inv.avail_room (hi : Inv blockno s) (hr : (s.pc p).req = some r) (hp : (s.pc p).published = none) :
    size s.seen s.avail.idx < NUM := by
  have hle : (r.i0 :: s.heads).length ≤ NUM := by
    refine length_le_NUM (nodup_cons.mpr ⟨hi.head_fresh hr hp, hi.flow.nodup⟩) fun h hh => ?_
    obtain rfl | hh := mem_cons.mp hh
    · exact ((hi.chains.ids p r hr).2 _ (mem_ids r)).1
    · exact hi.head_lt hh
  have hlen : s.availHeads.length = size s.seen s.avail.idx := length_queue
  simp only [State.heads, length_cons, length_append] at hle
  omega

theorem Inv.used_room (hi : Inv blockno s) {h : Nat} (hh : h ∈ s.flight) : size s.usedIdx s.used.idx < NUM := by
  have hle := length_le_NUM hi.flow.nodup fun h => hi.head_lt
  have hlen : s.usedHeads.length = size s.usedIdx s.used.idx := length_queue
  have hpos := length_pos_of_mem hh
  simp only [State.heads, length_append] at hle
  omega

end

theorem NUM_dvd : NUM ∣ 2 ^ 16 := by decide

section

variable {P B : Type} [DecidableEq P] {pc : P → Pc B} {p : P} {x : Pc B} {α : Type}

theorem view_goto (f : Pc B → α) : (fun q => f (update pc p x q)) = update (fun q => f (pc q)) p (f x) :=
  funext fun q => apply_update (fun _ => f) pc p x q

theorem view_same {f : Pc B → α} (h : f x = f (pc p)) : (fun q => f (update pc p x q)) = fun q => f (pc q) := by
  rw [view_goto, h]
  exact update_eq_self p fun q => f (pc q)

end

/-! ## Steps that only move a process -/

section

variable {P B : Type} [DecidableEq P] {blockno : B → BitVec 32} {s : State P B} {p : P} {x : Pc B}

/-- The positions `x` and `y` are seen as the same by the device. -/
structure Pc.Same (x y : Pc B) : Prop where
  req : y.req = x.req
  formatted : y.formatted = x.formatted
  published : y.published = x.published

section

variable (hi : Inv blockno s)
include hi

theorem inv_move {l : Option (Holder P)} (hs : (s.pc p).Same x)
    (hb : ∀ b, x.buf = some b → s.holder b = some p)
    (hl : ∀ q, (update s.pc p x q).locked = true ↔ l = some (.proc q)) (hx : x.Ok s) :
    Inv blockno ({ s with lock := l }.goto p x) := by
  refine ⟨hl, fun q b hq => ?_, ?_, fun q r hq => ?_, ?_, hi.done, fun q => ?_⟩
  · change (update s.pc p x q).buf = some b at hq
    by_cases h : q = p
    · rw [h, update_self] at hq
      exact h ▸ hb b hq
    · rw [update_of_ne h] at hq
      exact hi.holder q b hq
  · change Chains s.free fun q => (update s.pc p x q).req
    rw [view_same hs.req]
    exact hi.chains
  · have := hi.formatted q r ((congrFun (view_same (f := Pc.formatted) hs.formatted) q).symm.trans hq)
    exact this.of_eq (fun _ _ => rfl) rfl rfl
  · change Flow s.heads (fun q => (update s.pc p x q).published) s.disk
    rw [view_same hs.published]
    exact hi.flow
  · change (update s.pc p x q).Ok s
    by_cases hq : q = p
    · rwa [hq, update_self]
    · rw [update_of_ne hq]
      exact hi.pos q

theorem Inv.turn {s' : State P B} (hpc : s'.pc = update s.pc p x)
    (hl : x.locked = (s.pc p).locked) (hb : x.buf = (s.pc p).buf) (hlock : s'.lock = s.lock)
    (hholder : s'.holder = s.holder) (hchains : Chains s'.free (update (fun q => (s.pc q).req) p x.req))
    (hformatted : ∀ r, x.formatted = some r → Formatted blockno s' r)
    (hothers : ∀ q r, q ≠ p → (s.pc q).formatted = some r → Formatted blockno s' r)
    (hflow : Flow s'.heads (update (fun q => (s.pc q).published) p x.published) s'.disk)
    (hdone : ∀ h ∈ s'.usedHeads, s'.completed h = true ∧ s'.status h = 0)
    (hx : x.Ok s') (hpos : ∀ q, q ≠ p → (s.pc q).Ok s → (s.pc q).Ok s') : Inv blockno s' := by
  refine ⟨fun q => ?_, fun q b hq => ?_, ?_, fun q r hq => ?_, ?_, hdone, fun q => ?_⟩
  · rw [hpc, hlock, congrFun (view_same (f := Pc.locked) hl) q]
    exact hi.lock q
  · rw [hpc] at hq
    rw [hholder]
    exact hi.holder q b ((congrFun (view_same (f := Pc.buf) hb) q).symm.trans hq)
  · rw [hpc, view_goto]
    exact hchains
  · rw [hpc] at hq
    by_cases h : q = p
    · rw [h, update_self] at hq
      exact hformatted r hq
    · rw [update_of_ne h] at hq
      exact hothers q r h hq
  · rw [hpc, view_goto]
    exact hflow
  · rw [hpc]
    by_cases h : q = p
    · rwa [h, update_self]
    · rw [update_of_ne h]
      exact hpos q h (hi.pos q)

theorem inv_goto (hs : (s.pc p).Same x) (hb : ∀ b, x.buf = some b → s.holder b = some p)
    (hl : x.locked = (s.pc p).locked) (hx : x.Ok s) : Inv blockno (s.goto p x) := by
  refine inv_move hi hs hb (fun q => ?_) hx
  rw [← hi.lock q, congrFun (view_same (f := Pc.locked) hl) q]

theorem inv_acquire (hlock : s.lock = none) (hs : (s.pc p).Same x)
    (hb : ∀ b, x.buf = some b → s.holder b = some p) (hl : x.locked = true) (hx : x.Ok s) :
    Inv blockno ({ s with lock := some (.proc p) }.goto p x) := by
  refine inv_move hi hs hb (fun q => ?_) hx
  by_cases hq : q = p
  · simp [hq, hl]
  · rw [update_of_ne hq, hi.lock q, hlock]
    simp [Ne.symm hq]

theorem inv_release (hlock : (s.pc p).locked = true) (hs : (s.pc p).Same x)
    (hb : ∀ b, x.buf = some b → s.holder b = some p) (hl : x.locked = false) (hx : x.Ok s) :
    Inv blockno (s.release p x) := by
  refine inv_move hi hs hb (fun q => ?_) hx
  by_cases hq : q = p
  · simp [hq, hl]
  · rw [update_of_ne hq, hi.lock q, (hi.lock p).mp hlock]
    simp [Ne.symm hq]

end

end

/-! ## Allocation -/

section

variable {P B : Type} [DecidableEq P] {blockno : B → BitVec 32} {s : State P B} {p : P} {x : Pc B} {r : Req B}

omit [DecidableEq P] in
theorem Pc.Ok.frame {s' : State P B} (h : x.Ok s) (hf : freeCount s'.free ≤ freeCount s.free)
    (hd : ∀ b, x.buf = some b → s'.disk b = s.disk b) (ha : x.locked = true → s'.avail = s.avail) : x.Ok s' := by
  cases x with
  | asleep b w => exact lt_of_le_of_lt hf h
  | ring r => exact (hd r.b rfl).trans h
  | publish r =>
    refine ⟨(hd r.b rfl).trans h.1, ?_⟩
    rw [ha rfl]
    exact h.2
  | waiting r => exact (hd r.b rfl).trans h
  | finish r => exact (hd r.b rfl).trans h
  | _ => trivial

omit [DecidableEq P] in
theorem inv_woken {desc : Nat → Desc B} {pc : P → Pc B} (hi : Inv blockno s)
    (hd : ∀ d, s.free d = false → desc d = s.desc d) (hpc : ∀ q, (s.pc q).Like (pc q)) :
    Inv blockno { s with desc := desc, pc := pc } := by
  refine ⟨fun q => ?_, fun q b hq => ?_, ?_, fun q r hq => ?_, ?_, hi.done, fun q => ?_⟩
  · rw [← hi.lock q, ← (hpc q).views.1]
  · exact hi.holder q b ((hpc q).views.2.1.symm.trans hq)
  · simpa only [(hpc _).views.2.2.1] using hi.chains
  · have hq' := (hpc q).views.2.2.2.1.symm.trans hq
    have hids := hi.chains.ids q r (Pc.req_of_formatted hq')
    exact (hi.formatted q r hq').of_eq (fun d hm => hd d (hids.2 d hm).2) rfl rfl
  · change Flow s.heads (fun q => (pc q).published) s.disk
    simpa only [(hpc _).views.2.2.2.2] using hi.flow
  · exact ((hi.pos q).like (hpc q)).frame (le_refl _) (fun _ _ => rfl) fun _ => rfl

theorem inv_alloc {b : B} {w : Bool} (hi : Inv blockno s) (hp : s.pc p = .alloc b w) (hr : r.b = b)
    (hn : r.ids.Nodup) (hf : ∀ d ∈ r.ids, d < NUM ∧ s.free d = true) :
    Inv blockno ({ s with free := fun d => if d ∈ r.ids then false else s.free d }.goto p (.format r)) := by
  refine hi.turn rfl (by rw [hp]; rfl) (by rw [hp, Pc.buf, Pc.buf, hr]) rfl rfl ?_ (fun r' hr' => by cases hr')
    (fun q r' _ hq => (hi.formatted q r' hq).of_eq (fun _ _ => rfl) rfl rfl) ?_ hi.done trivial
    fun q _ hok => hok.frame (freeCount_mono fun d hd => ?_) (fun _ _ => rfl) fun _ => rfl
  · exact hi.chains.alloc (by rw [hp]; rfl) hn hf
  · have hpub : (Pc.format r).published = (s.pc p).published := by rw [hp]; rfl
    rw [hpub, update_eq_self p fun q => (s.pc q).published]
    exact hi.flow
  · change (if d ∈ r.ids then false else s.free d) = true at hd
    split at hd
    · cases hd
    · exact hd

end

/-! ## Publication -/

section

variable {P B : Type} [DecidableEq P] [DecidableEq B] {blockno : B → BitVec 32} {s : State P B} {p : P} {r : Req B}

omit [DecidableEq P] in
theorem formatted_format : Formatted blockno (format blockno r s) r :=
  ⟨fun _ hd => if_pos hd, update_self .., update_self ..⟩

theorem inv_format (hi : Inv blockno s) (hp : s.pc p = .format r) :
    Inv blockno ((format blockno r s).goto p (.ring r)) := by
  have hreq : (s.pc p).req = some r := by rw [hp]; rfl
  have hpub : (s.pc p).published = none := by rw [hp]; rfl
  have hbuf : (s.pc p).buf = some r.b := by rw [hp]; rfl
  refine hi.turn rfl (by rw [hp]; rfl) (by rw [hp]; rfl) rfl rfl ?_ (fun r' hr' => ?_) (fun q r' h hq => ?_) ?_
    (fun h hh => ?_) (update_self ..) fun q h hok => ?_
  · have : (Pc.ring r).req = (s.pc p).req := hreq.symm
    rw [this, update_eq_self p fun q => (s.pc q).req]
    exact hi.chains
  · cases hr'
    exact formatted_format.of_eq (fun _ _ => rfl) rfl rfl
  · -- the descriptors of another request are others
    have hdisj : ∀ d ∈ r'.ids, d ∉ r.ids := fun d hd hd' =>
      h (hi.chains.disj q p r' r d (Pc.req_of_formatted hq) hreq hd hd')
    have hne : r'.i0 ≠ r.i0 := fun he => hdisj _ (mem_ids r') (he ▸ mem_ids r)
    exact (hi.formatted q r' hq).of_eq (fun d hd => if_neg (hdisj d hd)) (update_of_ne hne ..)
      (update_of_ne hne ..)
  · have : (Pc.ring r).published = (s.pc p).published := hpub.symm
    rw [this, update_eq_self p fun q => (s.pc q).published]
    refine hi.flow.set fun q r' hq he => ?_
    have hq' := Pc.buf_of_req (Pc.req_of_formatted (Pc.formatted_of_published hq))
    obtain rfl := hi.buf_inj hbuf (he ▸ hq')
    rw [hpub] at hq
    cases hq
  · have hne : h ≠ r.i0 := by
      rintro rfl
      exact hi.head_fresh hreq hpub (mem_append_right _ hh)
    change update s.completed r.i0 false h = true ∧ update s.status r.i0 0xff h = 0
    rw [update_of_ne hne, update_of_ne hne]
    exact hi.done h hh
  · refine hok.frame (le_refl _) (fun b hb => update_of_ne ?_ ..) fun _ => rfl
    rintro rfl
    exact h (hi.buf_inj hbuf hb)

omit [DecidableEq B] in
theorem inv_avail {x : Pc B} {a : Ring} (hi : Inv blockno s) (hl : (s.pc p).locked = true) (hx : x.locked = true)
    (hb : x.buf = (s.pc p).buf) (hreq : x.req = (s.pc p).req) (hform : x.formatted = (s.pc p).formatted)
    (hflow : Flow { s with avail := a }.heads (update (fun q => (s.pc q).published) p x.published) s.disk)
    (hok : x.Ok { s with avail := a }) : Inv blockno ({ s with avail := a }.goto p x) := by
  refine hi.turn rfl (hx.trans hl.symm) hb rfl rfl ?_ (fun r hr => ?_) (fun q r _ hq => ?_) hflow hi.done ?_
    fun q h hq => ?_
  · rw [hreq, update_eq_self p fun q => (s.pc q).req]
    exact hi.chains
  · exact (hi.formatted p r (hform.symm.trans hr)).of_eq (fun _ _ => rfl) rfl rfl
  · exact (hi.formatted q r hq).of_eq (fun _ _ => rfl) rfl rfl
  · exact hok.frame (le_refl _) (fun _ _ => rfl) fun _ => rfl
  · exact hq.frame (le_refl _) (fun _ _ => rfl) fun hl' => absurd (hi.locked_inj hl hl') h

omit [DecidableEq B] in
theorem inv_ring (hi : Inv blockno s) (hp : s.pc p = .ring r) :
    Inv blockno ((putRing r.i0 s).goto p (.publish r)) := by
  have hpub : (s.pc p).published = none := by rw [hp]; rfl
  have hpos := hi.pos p
  rw [hp] at hpos
  have hroom : size s.seen s.avail.idx < NUM := hi.avail_room (p := p) (r := r) (by rw [hp]; rfl) hpub
  have havail : (putRing r.i0 s).availHeads = s.availHeads := queue_update NUM_dvd r.i0 hroom
  refine inv_avail hi (by rw [hp]; rfl) rfl (by rw [hp]; rfl) (by rw [hp]; rfl) (by rw [hp]; rfl) ?_
    ⟨hpos, update_self ..⟩
  change Flow ((putRing r.i0 s).availHeads ++ s.flight ++ s.usedHeads) (update _ p none) s.disk
  rw [havail, ← hpub, update_eq_self p fun q => (s.pc q).published]
  exact hi.flow

omit [DecidableEq B] in
theorem inv_publish (hi : Inv blockno s) (hp : s.pc p = .publish r) :
    Inv blockno ({ s with avail.idx := s.avail.idx + 1 }.goto p (.test r)) := by
  have hreq : (s.pc p).req = some r := by rw [hp]; rfl
  have hpub : (s.pc p).published = none := by rw [hp]; rfl
  have hpos := hi.pos p
  rw [hp] at hpos
  have havail : queue NUM s.avail.ring s.seen (s.avail.idx + 1) = s.availHeads ++ [r.i0] := by
    rw [queue_advance NUM_dvd (by decide) (hi.avail_room hreq hpub), hpos.2]
    rfl
  refine inv_avail hi (by rw [hp]; rfl) rfl (by rw [hp]; rfl) (by rw [hp]; rfl) (by rw [hp]; rfl) ?_ trivial
  refine (hi.flow.publish hpub (hi.head_fresh hreq hpub) hpos.1).perm ?_
  change (queue NUM s.avail.ring s.seen (s.avail.idx + 1) ++ s.flight ++ s.usedHeads).Perm _
  rw [havail, append_assoc, append_assoc, State.heads, append_assoc]
  exact perm_middle

theorem inv_finish {desc : Nat → Desc B} (hi : Inv blockno s) (hp : s.pc p = .finish r)
    (hd : ∀ d, d ∉ r.ids → desc d = s.desc d) : Inv blockno (State.release { s with
      infoB := update s.infoB r.i0 none
      desc := desc
      free := fun d => if d ∈ r.ids then true else s.free d
      pc := wake .free s.pc } p .out) := by
  have hreq : (s.pc p).req = some r := by rw [hp]; rfl
  have hpos := hi.pos p
  rw [hp] at hpos
  have hlike := like_wake .free s.pc
  refine ⟨fun q => ?_, fun q b hq => ?_, ?_, fun q r' hq => ?_, ?_, hi.done, fun q => ?_⟩
  · change (update (wake .free s.pc) p .out q).locked = true ↔ none = some _
    by_cases h : q = p
    · rw [h, update_self]
      simp [Pc.locked]
    · rw [update_of_ne h, (hlike q).views.1, hi.lock q, (hi.lock p).mp (by rw [hp]; rfl)]
      simp [Ne.symm h]
  · change (update (wake .free s.pc) p .out q).buf = some b at hq
    by_cases h : q = p
    · rw [h, update_self] at hq
      cases hq
    · rw [update_of_ne h, (hlike q).views.2.1] at hq
      exact hi.holder q b hq
  · change Chains _ fun q => (update (wake .free s.pc) p .out q).req
    rw [view_goto]
    simp only [(hlike _).views.2.2.1]
    exact hi.chains.release hreq
  · change (update (wake .free s.pc) p .out q).formatted = some r' at hq
    by_cases h : q = p
    · rw [h, update_self] at hq
      cases hq
    · rw [update_of_ne h, (hlike q).views.2.2.2.1] at hq
      have hdisj : ∀ d ∈ r'.ids, d ∉ r.ids := fun d hd hd' =>
        h (hi.chains.disj q p r' r d (Pc.req_of_formatted hq) hreq hd hd')
      have hne : r'.i0 ≠ r.i0 := fun he => hdisj _ (mem_ids r') (he ▸ mem_ids r)
      exact (hi.formatted q r' hq).of_eq (fun d hm => hd d (hdisj d hm)) rfl (update_of_ne hne ..)
  · change Flow s.heads (fun q => (update (wake .free s.pc) p .out q).published) s.disk
    rw [view_goto]
    simp only [(hlike _).views.2.2.2.2]
    exact hi.flow.retire (by rw [hp]; rfl) hpos
  · change (update (wake .free s.pc) p .out q).Ok _
    by_cases hq : q = p
    · rw [hq, update_self]
      trivial
    · rw [update_of_ne hq]
      -- nobody sleeps on `&disk.free[0]` any more
      have hok := (hi.pos q).like (hlike q)
      cases hx : wake .free s.pc q with
      | asleep b w => exact absurd (by rw [hx]; rfl) (chan_wake .free s.pc q)
      | _ => rw [hx] at hok; exact hok

end

/-! ## The device and the interrupt -/

section

variable {P B : Type} {blockno : B → BitVec 32} {s : State P B}

theorem Inv.of_flow {s' : State P B} (hi : Inv blockno s) (hpc : s'.pc = s.pc) (hlock : s'.lock = s.lock)
    (hholder : s'.holder = s.holder) (hfree : s'.free = s.free) (hdesc : s'.desc = s.desc) (hops : s'.ops = s.ops)
    (hinfo : s'.infoB = s.infoB) (havail : s'.avail = s.avail) (hdisk : s'.disk = s.disk)
    (hflow : s'.heads.Perm s.heads) (hdone : ∀ h ∈ s'.usedHeads, s'.completed h = true ∧ s'.status h = 0) :
    Inv blockno s' := by
  refine ⟨fun q => ?_, fun q b => ?_, ?_, fun q r hq => ?_, ?_, hdone, fun q => ?_⟩
  · rw [hpc, hlock]
    exact hi.lock q
  · rw [hpc, hholder]
    exact hi.holder q b
  · rw [hpc, hfree]
    exact hi.chains
  · rw [hpc] at hq
    exact (hi.formatted q r hq).of_eq (fun d _ => by rw [hdesc]) (by rw [hops]) (by rw [hinfo])
  · rw [hpc, hdisk]
    exact hi.flow.perm hflow
  · rw [hpc]
    exact (hi.pos q).frame (by rw [hfree]) (fun b _ => by rw [hdisk]) fun _ => havail

theorem inv_take (hi : Inv blockno s) (hne : s.seen ≠ s.avail.idx) :
    Inv blockno { s with seen := s.seen + 1, flight := s.flight ++ [s.avail.ring (s.seen.toNat % NUM)] } := by
  have hpos : 0 < size s.seen s.avail.idx := Nat.pos_of_ne_zero fun h => hne (size_eq_zero.mp h)
  refine hi.of_flow rfl rfl rfl rfl rfl rfl rfl rfl rfl ?_ hi.done
  have hq : s.availHeads = _ := queue_pop NUM_dvd hpos
  change (queue NUM s.avail.ring (s.seen + 1) s.avail.idx ++ (s.flight ++ [_]) ++ s.usedHeads).Perm _
  rw [State.heads, hq, cons_append, cons_append, ← append_assoc, append_assoc _ [_]]
  exact perm_middle

theorem writeStatus_formatted {r : Req B} (hn : r.ids.Nodup) (hf : Formatted blockno s r) :
    writeStatus s.desc r.i0 s.status = update s.status r.i0 0 := by
  simp only [Req.ids, nodup_cons, mem_cons, not_mem_nil, or_false, not_or] at hn
  obtain ⟨⟨h01, h02⟩, h12, -⟩ := hn
  have e0 : (s.desc r.i0).next = r.i1 := by
    rw [hf.desc _ (mem_ids r), Req.desc, if_pos rfl]
  have e1 : (s.desc r.i1).next = r.i2 := by
    rw [hf.desc r.i1 (by simp [Req.ids]), Req.desc, if_neg (Ne.symm h01), if_pos rfl]
  have e2 : (s.desc r.i2).addr = .status r.i0 := by
    rw [hf.desc r.i2 (by simp [Req.ids]), Req.desc, if_neg (Ne.symm h02), if_neg (Ne.symm h12)]
  rw [writeStatus, e0, e1, e2]

theorem inv_complete {h : Nat} (hi : Inv blockno s) (hh : h ∈ s.flight) : Inv blockno { s with
      status := writeStatus s.desc h s.status
      flight := s.flight.erase h
      used := ⟨s.used.idx + 1, update s.used.ring (s.used.idx.toNat % NUM) h⟩
      completed := update s.completed h true } := by
  have hmem : h ∈ s.heads := mem_append_left _ (mem_append_right _ hh)
  obtain ⟨p, r, hp, rfl, -⟩ := (hi.flow.mem h).mp hmem
  have hform := Pc.formatted_of_published hp
  have hstatus := writeStatus_formatted (hi.chains.ids p r (Pc.req_of_formatted hform)).1 (hi.formatted p r hform)
  have hused : queue NUM (update s.used.ring (s.used.idx.toNat % NUM) r.i0) s.usedIdx (s.used.idx + 1) =
      s.usedHeads ++ [r.i0] := queue_push NUM_dvd r.i0 (by decide) (hi.used_room hh)
  refine hi.of_flow rfl rfl rfl rfl rfl rfl rfl rfl rfl ?_ fun x hx => ?_
  · change (s.availHeads ++ s.flight.erase r.i0 ++ queue NUM _ s.usedIdx (s.used.idx + 1)).Perm _
    rw [hused, State.heads, ← append_assoc]
    refine (perm_append_singleton _ _).trans ?_
    have hflight := (perm_cons_erase hh).symm
    calc r.i0 :: (s.availHeads ++ s.flight.erase r.i0 ++ s.usedHeads)
        _ = (r.i0 :: s.availHeads ++ s.flight.erase r.i0) ++ s.usedHeads := by simp
        _ |>.Perm (s.availHeads ++ r.i0 :: s.flight.erase r.i0 ++ s.usedHeads) :=
          perm_middle.symm.append_right _
        _ |>.Perm (s.availHeads ++ s.flight ++ s.usedHeads) := (hflight.append_left _).append_right _
  · change x ∈ queue NUM _ s.usedIdx (s.used.idx + 1) at hx
    change update s.completed r.i0 true x = true ∧ writeStatus s.desc r.i0 s.status x = 0
    rw [hstatus]
    by_cases hxr : x = r.i0
    · subst hxr
      exact ⟨update_self .., update_self ..⟩
    · rw [update_of_ne hxr, update_of_ne hxr]
      rw [hused, mem_append, mem_singleton] at hx
      exact hi.done x (hx.resolve_right hxr)

/-- What `virtio_disk_intr` finds in the used ring: a request that the device has completed, with the
buffer of its own. -/
theorem Inv.used_head (hi : Inv blockno s) (hne : s.usedIdx ≠ s.used.idx) :
    ∃ p r, (s.pc p).published = some r ∧ s.used.ring (s.usedIdx.toNat % NUM) = r.i0 ∧ s.disk r.b = true ∧
      s.completed r.i0 = true ∧ s.status r.i0 = 0 ∧ s.infoB r.i0 = some r.b ∧
      s.usedHeads = r.i0 :: queue NUM s.used.ring (s.usedIdx + 1) s.used.idx := by
  have hpos : 0 < size s.usedIdx s.used.idx := Nat.pos_of_ne_zero fun h => hne (size_eq_zero.mp h)
  have hq : s.usedHeads = _ := queue_pop NUM_dvd hpos
  have hmem : s.used.ring (s.usedIdx.toNat % NUM) ∈ s.usedHeads := by
    rw [hq]
    exact mem_cons_self ..
  obtain ⟨p, r, hp, he, hd⟩ := (hi.flow.mem _).mp (mem_append_right _ hmem)
  obtain ⟨hc, hs⟩ := hi.done _ hmem
  rw [← he] at hc hs hq
  exact ⟨p, r, hp, he.symm, hd, hc, hs, (hi.formatted p r (Pc.formatted_of_published hp)).info, hq⟩

variable [DecidableEq B]

theorem inv_clear {p : P} {r : Req B} (hi : Inv blockno s) (hp : (s.pc p).published = some r)
    (hused : s.usedHeads = r.i0 :: queue NUM s.used.ring (s.usedIdx + 1) s.used.idx) : Inv blockno { s with
      disk := update s.disk r.b false
      pc := wake (.buf r.b) s.pc
      usedIdx := s.usedIdx + 1 } := by
  have hlike := like_wake (.buf r.b) s.pc
  have hreq := Pc.req_of_formatted (Pc.formatted_of_published hp)
  have hbuf := Pc.buf_of_req hreq
  have hheads : s.heads.Perm (r.i0 :: (s.availHeads ++ s.flight ++
      queue NUM s.used.ring (s.usedIdx + 1) s.used.idx)) := by
    rw [State.heads, hused]
    exact perm_middle
  refine ⟨fun q => ?_, fun q b hq => ?_, ?_, fun q r' hq => ?_, ?_, fun h hh => ?_, fun q => ?_⟩
  · rw [← hi.lock q, ← (hlike q).views.1]
  · exact hi.holder q b ((hlike q).views.2.1.symm.trans hq)
  · simpa only [(hlike _).views.2.2.1] using hi.chains
  · exact (hi.formatted q r' ((hlike q).views.2.2.2.1.symm.trans hq)).of_eq (fun _ _ => rfl) rfl rfl
  · change Flow (s.availHeads ++ s.flight ++ queue NUM s.used.ring (s.usedIdx + 1) s.used.idx)
      (fun q => (wake (.buf r.b) s.pc q).published) (update s.disk r.b false)
    simp only [(hlike _).views.2.2.2.2]
    refine (hi.flow.perm hheads.symm).clear hp (fun q r' hq he => ?_) fun q r' hq he => ?_
    · exact hi.buf_inj hbuf (he ▸ Pc.buf_of_req (Pc.req_of_formatted (Pc.formatted_of_published hq)))
    · exact hi.chains.head_inj (Pc.req_of_formatted (Pc.formatted_of_published hq)) hreq he
  · refine hi.done h ?_
    rw [hused]
    exact mem_cons_of_mem _ hh
  · change (wake (.buf r.b) s.pc q).Ok _
    by_cases hq : (wake (.buf r.b) s.pc q).buf = some r.b
    · -- the process that uses the buffer has been woken if it was waiting
      obtain rfl := hi.buf_inj hbuf ((hlike q).views.2.1 ▸ hq)
      have hpub := (hlike q).views.2.2.2.2.trans hp
      cases hx : wake (.buf r.b) s.pc q with
      | waiting r' =>
        rw [hx] at hpub
        cases hpub
        exact absurd (by rw [hx]; rfl) (chan_wake (.buf r.b) s.pc q)
      | finish r' =>
        rw [hx] at hpub
        cases hpub
        exact update_self ..
      | ring r' => rw [hx] at hpub; cases hpub
      | publish r' => rw [hx] at hpub; cases hpub
      | asleep b w => rw [hx] at hpub; cases hpub
      | _ => trivial
    · refine ((hi.pos q).like (hlike q)).frame (le_refl _) (fun b hb => update_of_ne ?_ ..) fun _ => rfl
      rintro rfl
      exact hq hb

end

end Virtio
end Xv6
