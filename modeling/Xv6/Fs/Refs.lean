import Xv6.Fs.Data

/-!
# Xv6.Fs.Refs

The inode table: `iget`, `idup`, `ilock`, `iunlock` and `iput` against the abstract state.

* `wpe_iget`, `wpe_idup`: a reference is taken.
* `wpe_ilock`: a locked inode is in use, its copy is valid.
* `wpe_iput_keep`: a reference is given back, to an inode that was not removed before it was taken.
-/

namespace Xv6
namespace Fs

open Bytes Prog Function

variable {sb : Superblock} {S : Set Nat} {s s' : State} {a c : Abs} {e : Entry} {i : Nat} {t : Slot} {x : Ino}
  {F : Stop → Prop} [Allows F]
  {p : ProcId} {E : Stop → Prop}

def TabOnly (s s' : State) : Prop := s' = { s with inode := s'.inode }

/-! ## References -/

theorem Inode.slot_of_pos {y : Inode} (h : 0 < y.ref) : y.slot = some ⟨y.inum, y.ref, h⟩ :=
  dif_neg (Nat.pos_iff_ne_zero.mp h)

theorem Abs.not_dead_get {j : Nat} (h : a.At e i) (hd : ¬ a.Dead j) : ¬ (a.get e i).Dead j := by
  rintro ⟨hx, hl⟩
  exact hd ⟨hx, fun hl' => hl ((Abs.live_get h).mpr (.inl hl'))⟩

theorem Abs.setSlot_setLock {t : Option Slot} {l : Option ProcId} (h : a.lock e = l) :
    (a.setSlot e t).setLock e l = a.setSlot e t := by
  rw [setLock, ← h]
  exact Abs.ext rfl rfl (update_eq_self _ _) rfl rfl rfl rfl

theorem Rep.up (h : Rep sb S s a) (ht : a.slot e = some t) :
    Rep sb S { s with inode := update s.inode e { s.inode e with ref := (s.inode e).ref + 1 } }
      (a.get e t.inum) := by
  obtain ⟨h0, h1, h2⟩ := h.live ht
  have hs := h.sound e
  have hslot : ({ s.inode e with ref := (s.inode e).ref + 1 } : Inode).slot = some t.up := by
    rw [Inode.slot_of_pos (Nat.succ_pos _)]
    exact congrArg some (Slot.ext h1 (congrArg (· + 1) h2))
  have hget : a.setSlot e (some t.up) = a.get e t.inum := by
    rw [Abs.get, ht]
  have hr := h.of_entry (e := e) (y := { s.inode e with ref := (s.inode e).ref + 1 })
    (uniq_update h.uniq fun _ e' k1 k2 => h.uniq e' e k1 h0 k2)
    ⟨fun _ => hs.range h0, fun k => absurd k (Nat.succ_ne_zero _), hs.locked, fun _ => hs.typed h0,
      fun _ => hs.clean h0, fun _ => hs.linked h0⟩
    (by rw [hslot, hget]; exact fun j => Abs.not_dead_get (.inl ⟨t, ht, rfl⟩) (h.orphans j))
  rw [hslot, Abs.setSlot_setLock (h.lock_eq e), hget] at hr
  exact hr

theorem wpe_iget_cases {Q : Entry → State → Prop} (hfull : (∀ e, (s.inode e).ref ≠ 0) → E (.panic "iget: no inodes"))
    (hold : ∀ e, 0 < (s.inode e).ref → (s.inode e).inum = i →
      Q e { s with inode := update s.inode e { s.inode e with ref := (s.inode e).ref + 1 } })
    (hnew : ∀ e, (s.inode e).ref = 0 → (∀ e', ¬ (0 < (s.inode e').ref ∧ (s.inode e').inum = i)) →
      Q e { s with inode := update s.inode e { s.inode e with inum := i, ref := 1, valid := false } }) :
    wpe E (atomic (iget i)) Q s := by
  rw [wpe_atomic, iget, Wp.wpe_bind, Wp.wpe_get]
  split
  · rename_i e he
    have hp : 0 < (s.inode e).ref ∧ (s.inode e).inum = i := by simpa using List.find?_some he
    rw [Wp.wpe_bind, setInode, Wp.wpe_modify, Wp.wpe_pure]
    exact hold e hp.1 hp.2
  · rename_i hnone
    have hfree : ∀ e, ¬ (0 < (s.inode e).ref ∧ (s.inode e).inum = i) := fun e => by
      simpa using List.find?_eq_none.mp hnone e (List.mem_finRange e)
    split
    · rename_i e he
      have h0 : (s.inode e).ref = 0 := by simpa using List.find?_some he
      rw [Wp.wpe_bind, setInode, Wp.wpe_modify, Wp.wpe_pure]
      exact hnew e h0 hfree
    · rename_i hnone
      exact Wp.wpe_throw.mpr (hfull fun e => by simpa using List.find?_eq_none.mp hnone e (List.mem_finRange e))

section

variable (h : Rep sb S s a)
include h

theorem Rep.at_new (h0 : (s.inode e).ref = 0)
    (hfree : ∀ e', ¬ (0 < (s.inode e').ref ∧ (s.inode e').inum = i)) : a.slot e = none ∧ ¬ a.Live i := by
  refine ⟨h.slot_none.mpr h0, ?_⟩
  rintro ⟨e', t, ht, hti⟩
  obtain ⟨k0, k1, -⟩ := h.live ht
  exact hfree e' ⟨k0, k1.trans hti⟩

theorem wpe_iget (hi : 0 < i ∧ i < sb.ninodes)
    (hfull : (∀ e, a.slot e ≠ none) → E (.panic "iget: no inodes")) :
    wpe E (atomic (iget i)) (fun e s' => a.At e i ∧ Rep sb S s' (a.get e i) ∧ TabOnly s s') s := by
  refine wpe_iget_cases (fun hall => hfull fun e he => hall e (h.slot_none.mp he)) (fun e h0 h1 => ?_) fun e h0 hfree => ?_
  · have ht : a.slot e = some ⟨(s.inode e).inum, (s.inode e).ref, h0⟩ := h.slot_some.mpr ⟨h0, rfl, rfl⟩
    have hr := h.up ht
    rw [show (⟨(s.inode e).inum, (s.inode e).ref, h0⟩ : Slot).inum = i from h1] at hr
    exact ⟨.inl ⟨_, ht, h1⟩, hr, rfl⟩
  · obtain ⟨hslot, hlive⟩ := h.at_new h0 hfree
    have hat : a.At e i := .inr ⟨hslot, hlive⟩
    have hget : a.setSlot e (some ⟨i, 1, Nat.one_pos⟩) = a.get e i := by
      rw [Abs.get, hslot]
    refine ⟨hat, ?_, rfl⟩
    have hr := h.of_entry (e := e) (y := { s.inode e with inum := i, ref := 1, valid := false })
      (uniq_update h.uniq fun _ e' k1 k2 => absurd ⟨k1, k2⟩ (hfree e'))
      ⟨fun _ => hi, fun k => absurd k Nat.one_ne_zero, fun k => absurd ((h.sound e).unlocked h0) k,
        fun _ k => absurd k Bool.false_ne_true, fun _ k => absurd k Bool.false_ne_true,
        fun _ _ x hx hn => h.orphans i ⟨⟨x, hx, hn⟩, hlive⟩⟩
      (by
        rw [Inode.slot_of_pos Nat.one_pos, hget]
        exact fun j => Abs.not_dead_get hat (h.orphans j))
    rw [Inode.slot_of_pos Nat.one_pos, Abs.setSlot_setLock (h.lock_eq e), hget] at hr
    exact hr

theorem wpe_idup (ht : a.slot e = some t) :
    Wp.wpe E (idup e) (fun _ s' => Rep sb S s' (a.get e t.inum) ∧ TabOnly s s') s := by
  rw [idup, setInode, Wp.wpe_modify]
  exact ⟨h.up ht, rfl⟩

/-! ## Locks -/

theorem Rep.setLock (ht : a.slot e = some t) {y : Inode} (hinum : y.inum = (s.inode e).inum)
    (href : y.ref = (s.inode e).ref) (hvalid : y.lock ≠ none → y.valid = true)
    (htype : y.valid = true → y.copy.type ≠ 0) (hclean : y.valid = true → y.copy = diskDinode sb s.disk y.inum)
    (hlinked : y.valid = false → (s.inode e).valid = false) :
    Rep sb S { s with inode := update s.inode e y } (a.setLock e y.lock) := by
  obtain ⟨h0, h1, h2⟩ := h.live ht
  have hs := h.sound e
  have hslot : a.setSlot e y.slot = a := by
    rw [Inode.slot_of_pos (by rw [href]; exact h0), Abs.setSlot,
      show some (⟨y.inum, y.ref, by rw [href]; exact h0⟩ : Slot) = a.slot e by
        rw [ht, Option.some.injEq]
        exact Slot.ext (hinum.trans h1) (href.trans h2), update_eq_self]
  have hr := h.of_entry (e := e) (y := y)
    (uniq_update h.uniq fun _ e' k1 k2 => h.uniq e' e k1 h0 (k2.trans hinum))
    ⟨by rw [hinum]; exact fun _ => hs.range h0, fun k => absurd (href.symm.trans k) (Nat.pos_iff_ne_zero.mp h0), hvalid,
      fun _ => htype, fun _ => hclean, by rw [hinum]; exact fun _ k => hs.linked h0 (hlinked k)⟩
    (by rw [hslot]; exact h.orphans)
  rwa [hslot] at hr

theorem wpe_ilock_stops (ht : a.slot e = some t) (hsleep : a.lock e ≠ none → E .sleep)
    (hnone : a.ino t.inum = none → E (.panic "ilock: no type")) :
    wpe E (ilock sb p e) (fun _ s' => Rep sb S s' (a.setLock e (some p)) ∧ a.lock e = none ∧
      (∃ x, a.ino t.inum = some x) ∧ TabOnly s s') s := by
  obtain ⟨h0, h1, h2⟩ := h.live ht
  have hs := h.sound e
  rw [ilock, wpe_bind, wpe_atomic, ilockAcquire, Wp.wpe_bind, Wp.wpe_get, if_neg (by omega), Wp.wpe_ite]
  refine ⟨fun hl => Wp.wpe_throw.mpr (hsleep ((h.lock_eq e).trans_ne hl)), fun hl => ?_⟩
  have hlock : a.lock e = none := (h.lock_eq e).trans (not_not.mp hl)
  rw [setInode, Wp.wpe_modify, wpe_bind, wpe_atomic, validOf, Wp.wpe_bind, Wp.wpe_get, Wp.wpe_pure]
  simp only [update_self]
  by_cases hv : (s.inode e).valid = true
  · rw [if_pos hv, wpe_pure]
    have hr := h.setLock ht (y := { s.inode e with lock := some p }) rfl rfl (fun _ => hv) (hs.typed h0) (hs.clean h0)
      (fun k => k)
    exact ⟨hr, hlock, ⟨_, hr.copy ht (by simp)⟩, rfl⟩
  · rw [if_neg hv, wpe_atomic, ilockRead, Wp.wpe_bind, Wp.wpe_get, Wp.wpe_bind]
    refine wpe_bread ?_
    simp only [update_self]
    rw [Wp.wpe_ite]
    refine ⟨fun hty => Wp.wpe_throw.mpr (hnone ?_), fun hty => ?_⟩
    · rw [h.ino_eq, View.ino_eq_none]
      by_contra hne
      have hi := view_range hne
      rw [State.view, view_dinode hi, h.cur_eq, ← h1] at hne
      exact hne hty
    rw [setInode, Wp.wpe_modify]
    simp only [update_self, update_idem]
    have hr := h.setLock ht (y := ⟨(s.inode e).inum, (s.inode e).ref, some p, true,
      diskDinode sb s.disk (s.inode e).inum⟩) rfl rfl (fun _ => rfl) (fun _ => hty) (fun _ => rfl)
      (fun k => absurd k.symm Bool.false_ne_true)
    exact ⟨hr, hlock, ⟨_, hr.copy ht (by simp)⟩, rfl⟩

theorem wpe_ilock (ht : a.slot e = some t) :
    wpe F (ilock sb p e) (fun _ s' => Rep sb S s' (a.setLock e (some p)) ∧ a.lock e = none ∧
      (∃ x, a.ino t.inum = some x) ∧ TabOnly s s') s :=
  wpe_ilock_stops h ht (fun _ => Allows.sleep) fun _ => Allows.noType

theorem wpe_iunlock (ht : a.slot e = some t) (hl : a.lock e = some p) :
    wpe E (atomic (iunlock p e)) (fun _ s' => Rep sb S s' (a.setLock e none) ∧ TabOnly s s') s := by
  obtain ⟨h0, h1, h2⟩ := h.live ht
  have hs := h.sound e
  have hl' : (s.inode e).lock = some p := (h.lock_eq e).symm.trans hl
  have hv := hs.locked (by rw [hl']; simp)
  rw [wpe_atomic, iunlock, Wp.wpe_bind, Wp.wpe_get, if_neg (not_or.mpr ⟨not_not.mpr hl', by omega⟩), setInode,
    Wp.wpe_modify]
  exact ⟨h.setLock ht (y := { s.inode e with lock := none }) rfl rfl (fun k => absurd rfl k) (hs.typed h0)
    (hs.clean h0) (fun k => k), rfl⟩

end

/-! ## iput -/

theorem Abs.dead_of_get {j : Nat} (hat : c.At e i) (hj : j ≠ i) (h : ¬ (c.get e i).Dead j) : ¬ c.Dead j := by
  rintro ⟨hx, hl⟩
  refine h ⟨hx, fun hl' => ?_⟩
  rcases (Abs.live_get hat).mp hl' with hl' | rfl
  · exact hl hl'
  · exact hj rfl

section

variable (h : Rep sb S s (c.get e i)) (hat : c.At e i)
include h hat

theorem Rep.down (hl : c.slot e = none → c.lock e = none)
    (hd : ¬ c.Dead i) :
    Rep sb S { s with inode := update s.inode e { s.inode e with ref := (s.inode e).ref - 1 } } c := by
  obtain ⟨v, hv, hvi⟩ := Abs.slot_get_at hat
  obtain ⟨h0, h1, h2⟩ := h.live hv
  have hs := h.sound e
  have hlock : c.lock e = (s.inode e).lock := h.lock_eq e
  have hslot : ({ s.inode e with ref := (s.inode e).ref - 1 } : Inode).slot = c.slot e := by
    cases hc : c.slot e with
    | none =>
      rw [Abs.slot_get_none hc] at hv
      cases hv
      exact dif_pos (show (s.inode e).ref - 1 = 0 by rw [h2]; rfl)
    | some u =>
      rw [Abs.slot_get_some hc] at hv
      cases hv
      have hpos := u.pos
      rw [Inode.slot_of_pos (show 0 < (s.inode e).ref - 1 by rw [h2]; exact hpos), Option.some.injEq]
      exact Slot.ext h1 (show (s.inode e).ref - 1 = u.ref by rw [h2]; rfl)
  have hdrop : (c.get e i).setSlot e (c.slot e) = c := by
    rw [Abs.get, Abs.setSlot, Abs.setSlot, update_idem, update_eq_self]
  have hr := h.of_entry (e := e) (y := { s.inode e with ref := (s.inode e).ref - 1 })
    (uniq_update h.uniq fun _ e' k1 k2 => h.uniq e' e k1 h0 k2)
    ⟨fun _ => hs.range h0, fun k => ?_, hs.locked, fun _ => hs.typed h0, fun _ => hs.clean h0, fun _ => hs.linked h0⟩
    (fun j => ?_)
  · rw [hslot, hdrop, Abs.setLock, show (s.inode e).lock = c.lock e from hlock.symm, update_eq_self] at hr
    exact hr
  · refine hlock.symm.trans (hl ?_)
    rw [← hslot]
    exact dif_pos k
  · rw [hslot, hdrop]
    by_cases hj : j = i
    · rw [hj]
      exact hd
    · exact Abs.dead_of_get hat hj (h.orphans j)

theorem Rep.dead_iff :
    c.Dead i ↔ (s.inode e).ref = 1 ∧ (s.inode e).valid = true ∧ (s.inode e).copy.nlink = 0 := by
  obtain ⟨v, hv, hvi⟩ := Abs.slot_get_at hat
  obtain ⟨h0, h1, h2⟩ := h.live hv
  have hs := h.sound e
  have hinum : (s.inode e).inum = i := h1.trans hvi
  have hino := h.ino_eq i
  rw [Abs.ino_get, State.view] at hino
  constructor
  · rintro ⟨⟨x, hx, hn⟩, hlive⟩
    have hnone : c.slot e = none := by
      rcases hat with ⟨u, hu, hui⟩ | ⟨hn, -⟩
      · exact absurd ⟨e, u, hu, hui⟩ hlive
      · exact hn
    rw [Abs.slot_get_none hnone] at hv
    cases hv
    by_cases hvalid : (s.inode e).valid = true
    · rw [hx, eq_comm, View.ino_eq_some, view_dinode (hinum ▸ hs.range h0),
        cur_of_caches h.uniq ⟨h0, hinum, hvalid⟩] at hino
      refine ⟨h2, hvalid, ?_⟩
      rw [hino.2] at hn
      exact hn
    · exact absurd hn (hs.linked h0 (Bool.not_eq_true _ ▸ hvalid) x (by rw [hinum]; exact hx))
  · rintro ⟨f1, f2, f3⟩
    have hlive : ¬ c.Live i := by
      rcases hat with ⟨u, hu, -⟩ | ⟨-, hn⟩
      · rw [Abs.slot_get_some hu] at hv
        cases hv
        have := u.pos
        have : (s.inode e).ref = u.ref + 1 := h2
        omega
      · exact hn
    have hcur : (view sb s.disk s.inode).dinode i = (s.inode e).copy := by
      rw [view_dinode (hinum ▸ hs.range h0), cur_of_caches h.uniq ⟨h0, hinum, f2⟩]
    refine ⟨⟨_, hino.trans (View.ino_eq_some.mpr ⟨?_, rfl⟩), ?_⟩, hlive⟩
    · rw [hcur]
      exact hs.typed h0 f2
    · show ((view sb s.disk s.inode).dinode i).nlink = 0
      rw [hcur, f3]

theorem wpe_iput_keep (hl : c.slot e = none → c.lock e = none) (hd : ¬ c.Dead i) :
    wpe E (iput sb p e) (fun _ s' => Rep sb S s' c) s := by
  rw [iput, wpe_bind, wpe_atomic, iputTest, Wp.wpe_bind, Wp.wpe_get]
  dsimp only
  rw [if_neg (mt (h.dead_iff hat).mpr hd), Wp.wpe_bind, iputDrop, setInode, Wp.wpe_modify, Wp.wpe_pure,
    if_neg Bool.false_ne_true, wpe_pure]
  exact h.down hat hl hd

end

section

variable (h : Rep sb S s ((c.get e i).setLock e (some p))) (hat : c.At e i) (hl : c.lock e = none)
include h hat hl

theorem wpe_iunlock_get :
    wpe E (atomic (iunlock p e)) (fun _ s' => Rep sb S s' (c.get e i)) s := by
  obtain ⟨v, hv, -⟩ := Abs.slot_get_at hat
  refine wpe_mono (wpe_iunlock h hv (by simp)) ?_
  rintro _ s' ⟨h', -⟩
  rwa [Abs.setLock_setLock (a := c.get e i) hl] at h'

theorem wpe_iunlockput_keep (hd : ¬ c.Dead i) : wpe E (iunlockput sb p e) (fun _ s' => Rep sb S s' c) s :=
  wpe_seq (wpe_iunlock_get h hat hl) fun _ _ h' => wpe_iput_keep h' hat (fun _ => hl) hd

end

end Fs
end Xv6
