import Xv6.Virtio.Steps

/-!
# Xv6.Virtio.Protocol

The protocol between the driver, `virtio_disk_intr` and the device, over every run.

* `Safe`: who owns which descriptor, and who sleeps for one.
* `Clean`: what a step may do: it does not panic, does not overwrite what the device has not taken, and
  clears only the buffer of a completed request.
* `virtio_protocol`: every state of every run is safe and every step is clean.
-/

namespace Xv6
namespace Virtio

open Wp Fifo Function

section

variable {P B : Type} [DecidableEq P] [DecidableEq B] {blockno : B → BitVec 32} {s : State P B}
variable {s' : State P B} {p : P}

/-- What a step does to the rings and to the buffers: no entry of the avail ring that the device has not
taken changes, and either no buffer is cleared, or `virtio_disk_intr` sees one entry of the used ring and
clears the one buffer of that request, which the device has completed. -/
structure Effect (s s' : State P B) : Prop where
  avail : ∀ k < size s.seen s.avail.idx,
    s'.avail.ring ((s.seen.toNat + k) % NUM) = s.avail.ring ((s.seen.toNat + k) % NUM)
  used : (s'.usedIdx = s.usedIdx ∧ ∀ b, s.disk b = true → s'.disk b = true) ∨
    (s'.usedIdx = s.usedIdx + 1 ∧ ∃ p r, (s.pc p).req = some r ∧ r.i0 = s.used.ring (s.usedIdx.toNat % NUM) ∧
      s.completed r.i0 = true ∧ s.disk r.b = true ∧ s'.disk = update s.disk r.b false)

omit [DecidableEq P] in
theorem Effect.of_eq (ha : s'.avail.ring = s.avail.ring) (hu : s'.usedIdx = s.usedIdx)
    (hd : s'.disk = s.disk) : Effect s s' :=
  ⟨fun _ _ => by rw [ha], .inl ⟨hu, fun b h => by rwa [hd]⟩⟩

/-- The step does not panic, does what a step may do, and keeps the invariant. -/
def Keeps (blockno : B → BitVec 32) (s : State P B) : Except Halt (State P B) → Prop
  | .ok s' => Inv blockno s' ∧ Effect s s'
  | .error .blocked => True
  | .error (.panic _) => False

theorem keeps_acquire {x : Pc B} (hi : Inv blockno s) (hs : (s.pc p).Same x)
    (hb : x.buf = (s.pc p).buf) (hl : x.locked = true) (hx : x.Ok s) : Keeps blockno s (acquire s p x) := by
  unfold acquire
  split
  · rename_i hlock
    exact ⟨inv_acquire hi hlock hs (fun b h => hi.holder p b (hb ▸ h)) hl hx, .of_eq rfl rfl rfl⟩
  · trivial

theorem keeps_alloc {b : B} {w : Bool} (hi : Inv blockno s) (hp : s.pc p = .alloc b w) :
    Keeps blockno s (go blockno s p) := by
  have hspec : wp alloc3Desc (fun o s' => Keeps blockno s
      (match o with
        | some (i0, i1, i2) => .ok (s'.goto p (.format ⟨b, w, i0, i1, i2⟩))
        | none => .ok (s'.release p (.asleep b w)))) s := by
    refine wp_alloc3Desc (fun desc pc hd hpc hcount => ⟨?_, .of_eq rfl rfl rfl⟩) fun i0 i1 i2 hn hf =>
      ⟨inv_alloc (r := ⟨b, w, i0, i1, i2⟩) hi hp rfl hn hf, .of_eq rfl rfl rfl⟩
    have hlike : ∀ q, (s.pc q).Like (pc q) := by
      obtain rfl | rfl := hpc
      · exact fun q => .inl rfl
      · exact like_wake _ _
    have hpc' : ({ s with desc := desc, pc := pc } : State P B).pc p = .alloc b w := by
      have := hlike p
      rw [hp] at this
      exact this.resolve_right fun h => h.2 rfl
    refine inv_release (inv_woken hi hd hlike) (by rw [hpc']; rfl) (by rw [hpc']; exact ⟨rfl, rfl, rfl⟩)
      (fun b' h => ?_) rfl hcount
    cases h
    exact hi.holder p b (by rw [hp]; rfl)
  obtain ⟨o, s', he, hk⟩ := wp_iff.mp hspec
  unfold go
  rw [hp]
  dsimp only
  rw [he]
  obtain _ | ⟨i0, i1, i2⟩ := o <;> exact hk

theorem keeps_finish {r : Req B} (hi : Inv blockno s) (hp : s.pc p = .finish r) :
    Keeps blockno s (go blockno s p) := by
  have hreq : (s.pc p).req = some r := by rw [hp]; rfl
  have hform := hi.formatted p r (by rw [hp]; rfl)
  have hspec : wp (freeChain (NUM + 1) r.i0) (fun _ s' => Keeps blockno s (.ok (s'.release p .out)))
      { s with infoB := update s.infoB r.i0 none } :=
    wp_freeChain (n := 6) hform.desc (hi.chains.ids p r hreq).1 (hi.chains.ids p r hreq).2
      fun desc hd => ⟨inv_finish hi hp hd, .of_eq rfl rfl rfl⟩
  obtain ⟨_, s', he, hk⟩ := wp_iff.mp hspec
  unfold go
  rw [hp]
  dsimp only
  rw [he]
  exact hk

theorem keeps_go (hi : Inv blockno s) (p : P) : Keeps blockno s (go blockno s p) := by
  cases hp : s.pc p with
  | alloc b w => exact keeps_alloc hi hp
  | finish r => exact keeps_finish hi hp
  | want b w =>
    simp only [go, hp]
    exact keeps_acquire hi (by rw [hp]; exact ⟨rfl, rfl, rfl⟩) (by rw [hp]; rfl) rfl trivial
  | rewait r =>
    simp only [go, hp]
    exact keeps_acquire hi (by rw [hp]; exact ⟨rfl, rfl, rfl⟩) (by rw [hp]; rfl) rfl trivial
  | format r =>
    simp only [go, hp]
    refine ⟨inv_format hi hp, fun _ _ => rfl, .inl ⟨rfl, fun b hb => ?_⟩⟩
    change update s.disk r.b true b = true
    rw [update_apply]
    split
    · rfl
    · exact hb
  | ring r =>
    simp only [go, hp]
    refine ⟨inv_ring hi hp, fun k hk => ?_, .inl ⟨rfl, fun _ h => h⟩⟩
    have hroom := hi.avail_room (p := p) (r := r) (by rw [hp]; rfl) (by rw [hp]; rfl)
    exact update_of_ne (place_ne NUM_dvd hk hroom) ..
  | publish r =>
    simp only [go, hp]
    exact ⟨inv_publish hi hp, .of_eq rfl rfl rfl⟩
  | test r =>
    have hb : s.holder r.b = some p := hi.holder p r.b (by rw [hp]; rfl)
    simp only [go, hp]
    split
    · rename_i hd
      refine ⟨inv_release hi (by rw [hp]; rfl) (by rw [hp]; exact ⟨rfl, rfl, rfl⟩) (fun b h => ?_) rfl hd,
        .of_eq rfl rfl rfl⟩
      cases h
      exact hb
    · rename_i hd
      refine ⟨inv_goto hi (by rw [hp]; exact ⟨rfl, rfl, rfl⟩) (fun b h => ?_) (by rw [hp]; rfl)
        (eq_false_of_ne_true hd),
        .of_eq rfl rfl rfl⟩
      cases h
      exact hb
  | _ => simp only [go, hp]; trivial

omit [DecidableEq P] in
theorem keeps_intr (hi : Inv blockno s) : Keeps blockno s (intr s) := by
  have hlocked : ∀ l : Option (Holder P), (∀ p, s.lock ≠ some (.proc p)) → (∀ p, l ≠ some (.proc p)) →
      Inv blockno { s with lock := l } := by
    intro l hs hl
    exact { hi with
      lock := fun p => by rw [hi.lock p]; simp [hs p, hl p]
      formatted := fun p r h => (hi.formatted p r h).of_eq (fun _ _ => rfl) rfl rfl
      pos := fun p => (hi.pos p).frame (le_refl _) (fun _ _ => rfl) fun _ => rfl }
  unfold intr
  split
  · rename_i hl
    exact ⟨hlocked _ (by simp [hl]) (by simp), .of_eq rfl rfl rfl⟩
  · trivial
  · rename_i hl
    split
    · exact ⟨hlocked _ (by simp [hl]) (by simp), .of_eq rfl rfl rfl⟩
    · rename_i hne
      obtain ⟨p, r, hp, hid, hd, hc, hst, hinfo, hused⟩ := hi.used_head hne
      simp only [hid, hst, hinfo, ne_eq, not_true_eq_false, ite_false]
      refine ⟨inv_clear hi hp hused, fun _ _ => rfl, .inr ⟨rfl, p, r, ?_, hid.symm, hc, hd, rfl⟩⟩
      exact Pc.req_of_formatted (Pc.formatted_of_published hp)

theorem keeps_exec (hi : Inv blockno s) (e : Event P B) : Keeps blockno s (exec blockno s e) := by
  have hholder : ∀ h : B → Option P, (∀ p b, (s.pc p).buf = some b → h b = some p) →
      Inv blockno { s with holder := h } := fun h hh =>
    { hi with
      holder := hh
      formatted := fun p r h => (hi.formatted p r h).of_eq (fun _ _ => rfl) rfl rfl
      pos := fun p => (hi.pos p).frame (le_refl _) (fun _ _ => rfl) fun _ => rfl }
  cases e with
  | go p => exact keeps_go hi p
  | intr => exact keeps_intr hi
  | acquiresleep p b =>
    simp only [exec]
    split
    · rename_i hb
      refine ⟨hholder _ fun q b' hq => ?_, .of_eq rfl rfl rfl⟩
      have hq' := hi.holder q b' hq
      rw [update_of_ne, hq']
      rintro rfl
      rw [hb] at hq'
      cases hq'
    · trivial
  | releasesleep p b =>
    simp only [exec]
    split
    · rename_i hb
      refine ⟨hholder _ fun q b' hq => ?_, .of_eq rfl rfl rfl⟩
      have hq' := hi.holder q b' hq
      rw [update_of_ne, hq']
      rintro rfl
      rw [hb.1] at hq'
      cases hq'
      rw [hb.2] at hq
      cases hq
    · trivial
  | call p b w =>
    simp only [exec]
    split
    · rename_i hb
      refine ⟨inv_goto hi (by rw [hb.2]; exact ⟨rfl, rfl, rfl⟩) (fun b' h => ?_) (by rw [hb.2]; rfl) trivial,
        .of_eq rfl rfl rfl⟩
      cases h
      exact hb.1
    · trivial
  | kill p =>
    refine ⟨inv_goto hi ⟨by simp, by simp, by simp⟩ (fun b h => hi.holder p b (by simpa using h)) (by simp) ?_,
      .of_eq rfl rfl rfl⟩
    by_cases hc : (s.pc p).chan = none
    · have : (s.pc p).woken = s.pc p := by
        cases hx : s.pc p <;> simp_all [Pc.chan, Pc.woken]
      rw [this]
      exact hi.pos p
    · exact (hi.pos p).like (.inr ⟨rfl, hc⟩)
  | take =>
    simp only [exec, take]
    split
    · trivial
    · rename_i hne
      exact ⟨inv_take hi hne, .of_eq rfl rfl rfl⟩
  | complete h =>
    simp only [exec, complete]
    split
    · trivial
    · rename_i hh
      exact ⟨inv_complete hi (by simpa using hh), .of_eq rfl rfl rfl⟩

theorem inv_step {e : Event P B} (hi : Inv blockno s) (h : step blockno s e = some s') : Inv blockno s' := by
  have hk := keeps_exec hi e
  unfold step at h
  cases he : exec blockno s e with
  | ok t =>
    rw [he] at h hk
    cases h
    exact hk.1
  | error x =>
    rw [he] at h
    cases h

/-- A descriptor is free or in the chain of three of exactly one request in progress, and when
`vdisk_lock` is free nobody sleeps for descriptors while there are three. -/
structure Safe (s : State P B) : Prop where
  owned : ∀ d < NUM, (s.free d = true ∧ ∀ p r, (s.pc p).req = some r → d ∉ r.ids) ∨
    (s.free d = false ∧ ∃ p r, (s.pc p).req = some r ∧ d ∈ r.ids ∧
      ∀ q r', (s.pc q).req = some r' → d ∈ r'.ids → q = p)
  chain : ∀ p r, (s.pc p).req = some r → r.ids.Nodup ∧ ∀ d ∈ r.ids, d < NUM
  asleep : s.lock = none → ∀ p, (s.pc p).chan = some .free → freeCount s.free < 3

omit [DecidableEq P] [DecidableEq B] in
theorem Inv.safe (hi : Inv blockno s) : Safe s := by
  refine ⟨fun d hd => ?_, fun p r hp => ?_, fun _ p hp => ?_⟩
  · cases hf : s.free d with
    | true =>
      refine .inl ⟨rfl, fun p r hp hm => ?_⟩
      have := ((hi.chains.ids p r hp).2 d hm).2
      rw [hf] at this
      cases this
    | false =>
      obtain ⟨p, r, hp, hm⟩ := hi.chains.owned d hd hf
      exact .inr ⟨rfl, p, r, hp, hm, fun q r' hq hm' => hi.chains.disj q p r' r d hq hp hm' hm⟩
  · exact ⟨(hi.chains.ids p r hp).1, fun d hd => ((hi.chains.ids p r hp).2 d hd).1⟩
  · have := hi.pos p
    cases hx : s.pc p with
    | asleep b w => rwa [hx] at this
    | _ => rw [hx] at hp; cases hp

/-- The step does not panic, does to the rings and the buffers what it may do, and where `alloc3_desc` fails
it leaves the same descriptors free. -/
structure Clean (blockno : B → BitVec 32) (s : State P B) (e : Event P B) : Prop where
  no_panic : ∀ m, exec blockno s e ≠ .error (.panic m)
  effect : ∀ s', exec blockno s e = .ok s' → Effect s s'
  failed : ∀ s', alloc3Desc s = .ok (none, s') → s'.free = s.free

omit [DecidableEq P] in
theorem free_of_failed (h : alloc3Desc s = .ok (none, s')) : s'.free = s.free := by
  have hspec : wp alloc3Desc (fun o t => o = none → t.free = s.free) s :=
    wp_alloc3Desc (fun _ _ _ _ _ _ => rfl) fun _ _ _ _ _ h => by cases h
  obtain ⟨o, t, he, hk⟩ := wp_iff.mp hspec
  rw [h] at he
  cases he
  exact hk rfl

theorem Inv.clean (hi : Inv blockno s) (e : Event P B) : Clean blockno s e := by
  have hk := keeps_exec hi e
  refine ⟨fun m he => ?_, fun s' he => ?_, fun s' => free_of_failed⟩
  · rwa [he] at hk
  · rw [he] at hk
    exact hk.2

/-- Any number of processes, interrupts and the device follow the protocol, in any order and however
often the indices of the rings wrap around. -/
theorem virtio_protocol (blockno : B → BitVec 32) (es : List (Event P B)) :
    Trans.AllStates (step blockno) Safe (start P B) es ∧
      Trans.AllSteps (step blockno) (Clean blockno) (start P B) es :=
  ⟨Trans.allStates_of_inv (fun _ => Inv.safe) (fun _ _ _ => inv_step) es (inv_start blockno),
    Trans.allSteps_of_inv (fun _ e hi => hi.clean e) (fun _ _ _ => inv_step) es (inv_start blockno)⟩

end

end Virtio
end Xv6
