import Xv6.Sys.Inv

/-!
# Xv6.Sys.Files

The file table, the descriptors and the pipes keep the invariant.

* `wp_filecloseRaw`: `fileclose` gives back one reference, and the page of a pipe when the other end
  is closed too.
* `wp_pipealloc`, `wp_sysPipe`, `wp_sysDup`, `wp_sysClose`, `wp_closeFiles`, `wp_dupFiles`.
-/

namespace Xv6
namespace Sys

open Bytes Wp Vm Function Multiset

section Basic

variable {s : State} {p : ProcId} {Q : Unit → State → Prop} {fd : Fd} {f : Option FileId}

@[simp] theorem wp_vm {α : Type} {x : K α} {Q : α → State → Prop} :
    wp (vm x) Q s ↔ wp x (fun a k => Q a { s with kmem := k }) s.kmem := wp_zoom

@[simp] theorem wp_setProc {f : Proc → Proc} :
    wp (setProc p f) Q s ↔ Q () { s with proc := update s.proc p (f (s.proc p)) } := wp_modify

@[simp] theorem wp_setFile {f : FileId} {g : File → File} :
    wp (setFile f g) Q s ↔ Q () { s with file := update s.file f (g (s.file f)) } := wp_modify

def withOfile (s : State) (p : ProcId) (fd : Fd) (f : Option FileId) : State :=
  { s with proc := update s.proc p { s.proc p with ofile := update (s.proc p).ofile fd f } }

@[simp] theorem withOfile_ofile :
    ((withOfile s p fd f).proc p).ofile = update (s.proc p).ofile fd f := by simp [withOfile]

theorem withOfile_pages {mem : Nat → Page} (j : ProcId) :
    procPages mem ((withOfile s p fd f).proc j) = procPages mem (s.proc j) := by
  by_cases hj : j = p
  · subst hj
    simp [withOfile, procPages, framePages, tablePages, userPages]
  · simp [withOfile, hj]

@[simp] theorem wp_setOfile : wp (setOfile p fd f) Q s ↔ Q () (withOfile s p fd f) := wp_modify

end Basic

/-! ## The file table -/

section FileOk

variable {mem mem' : Nat → Page} {file file' : FileId → File} {R R' : Multiset FileId} {f : FileId}

theorem FileOk.reref (h : FileOk mem file R)
    (hsame : ∀ g, (file' g).type = (file g).type ∧ (file' g).pipe = (file g).pipe ∧
      (file' g).writable = (file g).writable)
    (href : ∀ g, (file' g).ref = R'.count g) (hclosed : ∀ g, R'.count g = 0 → (file g).type = .none) :
    FileOk mem file' R' := by
  refine ⟨href, fun g hg => ?_, fun g hg => ?_, fun g w hg hw => ?_, fun g g' hg hg' hp hw => ?_⟩
  · rw [(hsame g).1]
    exact hclosed g (by rw [← href]; exact hg)
  · obtain ⟨h1, h2, h3⟩ := hsame g
    rw [h2, h3]
    exact h.openEnd g (by rw [← h1]; exact hg)
  · obtain ⟨h1, h2, -⟩ := hsame g
    rw [h1] at hg
    rw [h2] at hw ⊢
    obtain ⟨g', hg', hp, hw'⟩ := h.owner g w hg hw
    obtain ⟨h1', h2', h3'⟩ := hsame g'
    exact ⟨g', by rw [h1', hg'], by rw [h2', hp], by rw [h3', hw']⟩
  · obtain ⟨h1, h2, h3⟩ := hsame g
    obtain ⟨h1', h2', h3'⟩ := hsame g'
    rw [h1] at hg
    rw [h1'] at hg'
    rw [h2, h2'] at hp
    rw [h3, h3'] at hw
    exact h.inj g g' hg hg' hp hw

theorem openPipes_congr (h : ∀ g, (file' g).type = (file g).type ∧ (file' g).pipe = (file g).pipe) :
    openPipes file' = openPipes file := by
  ext pi
  simp only [mem_openPipes]
  exact exists_congr fun g => by rw [(h g).1, (h g).2]

theorem update_file_ref {n : Nat} (g : FileId) :
    (update file f { file f with ref := n } g).type = (file g).type ∧
      (update file f { file f with ref := n } g).pipe = (file g).pipe ∧
      (update file f { file f with ref := n } g).writable = (file g).writable := by
  by_cases hg : g = f
  · subst hg
    simp
  · simp [hg]

theorem openPipes_incr : openPipes (update file f { file f with ref := (file f).ref + 1 }) = openPipes file :=
  openPipes_congr fun g => ⟨(update_file_ref g).1, (update_file_ref g).2.1⟩

theorem update_file_ref_ref {n : Nat} (g : FileId) :
    (update file f { file f with ref := n } g).ref = if g = f then n else (file g).ref := by
  by_cases hg : g = f
  · subst hg
    simp
  · simp [hg]

theorem count_singleton_add (g : FileId) : ({f} + R).count g = R.count g + if g = f then 1 else 0 := by
  rw [count_add, count_singleton, Nat.add_comm]

theorem FileOk.incr (h : FileOk mem file R) :
    FileOk mem (update file f { file f with ref := (file f).ref + 1 }) ({f} + R) := by
  refine h.reref update_file_ref (fun g => ?_) fun g hg => ?_
  · rw [update_file_ref_ref, count_singleton_add, h.ref, h.ref]
    split
    · rename_i hg
      rw [hg]
    · rfl
  · rw [count_singleton_add] at hg
    exact h.closed g (by rw [h.ref]; omega)

theorem FileOk.decr (h : FileOk mem file ({f} + R)) (hf : 1 < (file f).ref) :
    FileOk mem (update file f { file f with ref := (file f).ref - 1 }) R := by
  have href : ∀ g, (file g).ref = R.count g + if g = f then 1 else 0 := fun g => by
    rw [h.ref, count_singleton_add]
  have hf' := href f
  rw [if_pos rfl] at hf'
  refine h.reref update_file_ref (fun g => ?_) fun g hg => ?_
  · rw [update_file_ref_ref]
    split
    · rename_i hg
      rw [hg]
      omega
    · rename_i hg
      rw [href g, if_neg hg, Nat.add_zero]
  · refine h.closed g ?_
    rw [href g, hg, Nat.zero_add]
    split
    · rename_i h'
      rw [h'] at hg
      omega
    · rfl

theorem FileOk.last (h : FileOk mem file ({f} + R)) (hf : (file f).ref ≤ 1) (g : FileId) :
    (update file f { file f with ref := 0, type := .none } g).ref = R.count g ∧
      ((update file f { file f with ref := 0, type := .none } g).ref = 0 →
        (update file f { file f with ref := 0, type := .none } g).type = .none) := by
  have hg' := h.ref g
  rw [count_singleton_add] at hg'
  by_cases hg : g = f
  · subst hg
    rw [if_pos rfl] at hg'
    simp only [update_self, implies_true, and_true]
    omega
  · rw [if_neg hg, Nat.add_zero] at hg'
    rw [update_of_ne hg]
    exact ⟨hg', h.closed g⟩

theorem FileOk.drop (h : FileOk mem file ({f} + R)) (hf : (file f).ref ≤ 1)
    (hopen : ∀ g, g ≠ f → (file g).type = .pipe → getLE (mem' (file g).pipe) (endOff (file g).writable) 4 ≠ 0)
    (howner : ∀ g w, g ≠ f → (file g).type = .pipe → getLE (mem' (file g).pipe) (endOff w) 4 ≠ 0 →
      ∃ g', g' ≠ f ∧ (file g').type = .pipe ∧ (file g').pipe = (file g).pipe ∧ (file g').writable = w) :
    FileOk mem' (update file f { file f with ref := 0, type := .none }) R := by
  have hne : ∀ {g}, (update file f { file f with ref := 0, type := .none } g).type = .pipe → g ≠ f := by
    rintro g hg rfl
    rw [update_self] at hg
    cases hg
  refine ⟨fun g => (h.last hf g).1, fun g => (h.last hf g).2, fun g hg => ?_, fun g w hg hw => ?_,
    fun g g' hg hg' => ?_⟩
  · have hgf := hne hg
    rw [update_of_ne hgf] at hg ⊢
    exact hopen g hgf hg
  · have hgf := hne hg
    rw [update_of_ne hgf] at hg hw ⊢
    obtain ⟨g', hg', h'⟩ := howner g w hgf hg hw
    exact ⟨g', by rwa [update_of_ne hg']⟩
  · have hgf := hne hg
    have hgf' := hne hg'
    rw [update_of_ne hgf] at hg ⊢
    rw [update_of_ne hgf'] at hg' ⊢
    exact h.inj g g' hg hg'

theorem mem_openPipes_drop {pi : Nat} :
    pi ∈ openPipes (update file f { file f with ref := 0, type := .none }) ↔
      ∃ g, g ≠ f ∧ (file g).type = .pipe ∧ (file g).pipe = pi := by
  rw [mem_openPipes]
  constructor
  · rintro ⟨g, hg, hp⟩
    have hgf : g ≠ f := by
      rintro rfl
      rw [update_self] at hg
      cases hg
    rw [update_of_ne hgf] at hg hp
    exact ⟨g, hgf, hg, hp⟩
  · rintro ⟨g, hgf, hg, hp⟩
    exact ⟨g, by rwa [update_of_ne hgf], by rwa [update_of_ne hgf]⟩

end FileOk

/-! ## pipeclose and fileclose -/

section Close

variable {L : Layout} {s : State} {R : Multiset FileId} {f : FileId}

theorem getLE_close_same (page : Page) (w : Bool) : getLE (putLE page (endOff w) 4 0) (endOff w) 4 = 0 := by
  rw [getLE_putLE_same (by cases w <;> decide), Nat.zero_mod]

theorem getLE_close_other (page : Page) (w : Bool) :
    getLE (putLE page (endOff w) 4 0) (endOff (!w)) 4 = getLE page (endOff (!w)) 4 :=
  getLE_putLE_disj (by cases w <;> decide)

theorem both_closed (page : Page) (w : Bool) :
    (getLE (putLE page (endOff w) 4 0) READOPEN 4 = 0 ∧ getLE (putLE page (endOff w) 4 0) WRITEOPEN 4 = 0) ↔
      getLE page (endOff (!w)) 4 = 0 := by
  have h1 := getLE_close_same page w
  have h2 := getLE_close_other page w
  cases w with
  | false => exact ⟨fun h => h2 ▸ h.2, fun h => ⟨h1, h2.trans h⟩⟩
  | true => exact ⟨fun h => h2 ▸ h.1, fun h => ⟨h2.trans h, h1⟩⟩

/-- What the end of a reference to a file does to pages, pipes and files. -/
structure Dropped (s s' : State) (R : Multiset FileId) : Prop where
  same : s' = { s with kmem := s'.kmem, file := s'.file }
  file : FileOk s'.kmem.mem s'.file R
  sum : ↑s'.kmem.freelist + (openPipes s'.file).val = ↑s.kmem.freelist + (openPipes s.file).val
  frame : Frame (openPipes s.file).val s.kmem.mem s'.kmem.mem
  free : (↑s.kmem.freelist : Multiset Nat) ≤ ↑s'.kmem.freelist

theorem FileOk.dropEnd {mem : Nat → Page} {file : FileId → File} (h : FileOk mem file ({f} + R))
    (hf : (file f).ref ≤ 1) (ht : (file f).type = .pipe) {mem' : Nat → Page}
    (hmem : ∀ x, x ≠ (file f).pipe → mem' x = mem x)
    (hpage : mem' (file f).pipe = putLE (mem (file f).pipe) (endOff (file f).writable) 4 0) :
    FileOk mem' (update file f { file f with ref := 0, type := .none }) R := by
  refine h.drop hf (fun g hgf hg => ?_) fun g w hgf hg hw => ?_
  · by_cases hp : (file g).pipe = (file f).pipe
    · have hw : (file g).writable = !(file f).writable := by
        refine Bool.eq_not.mpr fun hw => hgf (h.inj g f hg ht hp hw)
      have := h.openEnd g hg
      rw [hp, hw] at this
      rw [hp, hpage, hw, getLE_close_other]
      exact this
    · rw [hmem _ hp]
      exact h.openEnd g hg
  · have hw' : getLE (mem (file g).pipe) (endOff w) 4 ≠ 0 ∧ ((file g).pipe = (file f).pipe → w ≠ (file f).writable) := by
      by_cases hp : (file g).pipe = (file f).pipe
      · rw [hp, hpage] at hw
        have hne : w ≠ (file f).writable := by
          rintro rfl
          exact hw (getLE_close_same _ _)
        rw [Bool.eq_not.mpr hne, getLE_close_other] at hw
        rw [hp, Bool.eq_not.mpr hne]
        exact ⟨hw, fun _ => by simp⟩
      · rw [hmem _ hp] at hw
        exact ⟨hw, fun h => absurd h hp⟩
    obtain ⟨g', hg', hp', hw''⟩ := h.owner g w hg hw'.1
    refine ⟨g', ?_, hg', hp', hw''⟩
    rintro rfl
    exact hw'.2 hp'.symm hw''.symm

theorem wp_pipeclose (hok : FileOk s.kmem.mem s.file ({f} + R)) (hf : (s.file f).ref ≤ 1)
    (ht : (s.file f).type = .pipe) (hpage : ∀ pi ∈ openPipes s.file, L.IsPage pi) :
    wp (pipeclose L (s.file f).pipe (s.file f).writable) (fun _ s' => Dropped s s' R)
      { s with file := update s.file f { s.file f with ref := 0, type := .none } } := by
  have hmem : (s.file f).pipe ∈ openPipes s.file := mem_openPipes.mpr ⟨f, ht, rfl⟩
  have hother : ∀ g, g ≠ f → (s.file g).type = .pipe → (s.file g).pipe = (s.file f).pipe →
      (s.file g).writable = !(s.file f).writable :=
    fun g hgf hg hp => Bool.eq_not.mpr fun hw => hgf (hok.inj g f hg ht hp hw)
  simp only [pipeclose, wp_bind, wp_get, wp_vm, wp_setPage, wp_doIf]
  refine ⟨fun hz => ?_, fun hz => ?_⟩
  · -- no other file refers to the pipe: its page is freed
    have hz := (both_closed _ _).mp hz
    have hnone : ∀ g, g ≠ f → (s.file g).type = .pipe → (s.file g).pipe ≠ (s.file f).pipe := by
      intro g hgf hg hp
      have h := hok.openEnd g hg
      rw [hother g hgf hg hp, hp] at h
      exact h hz
    have hpipes : (openPipes s.file).val = {(s.file f).pipe} +
        (openPipes (update s.file f { s.file f with ref := 0, type := .none })).val := by
      rw [singleton_add, ← Finset.insert_val_of_notMem]
      · congr 1
        ext pi
        rw [Finset.mem_insert, mem_openPipes_drop, mem_openPipes]
        constructor
        · rintro ⟨g, hg, rfl⟩
          by_cases hgf : g = f
          · exact .inl (by rw [hgf])
          · exact .inr ⟨g, hgf, hg, rfl⟩
        · rintro (rfl | ⟨g, -, hg, hp⟩)
          · exact ⟨f, ht, rfl⟩
          · exact ⟨g, hg, hp⟩
      · rw [mem_openPipes_drop]
        rintro ⟨g, hgf, hg, hp⟩
        exact hnone g hgf hg hp
    rw [wp_kfree (hpage _ hmem)]
    refine ⟨rfl, hok.drop hf (fun g hgf hg => ?_) fun g w hgf hg hw => ?_, ?_, ?_, ?_⟩ <;> dsimp only at *
    · rw [update_of_ne (hnone g hgf hg), update_of_ne (hnone g hgf hg)]
      exact hok.openEnd g hg
    · rw [update_of_ne (hnone g hgf hg), update_of_ne (hnone g hgf hg)] at hw
      obtain ⟨g', hg', hp', hw'⟩ := hok.owner g w hg hw
      refine ⟨g', ?_, hg', hp', hw'⟩
      rintro rfl
      exact hnone g hgf hg hp'.symm
    · rw [hpipes, coe_cons_add]
      abel
    · exact (Frame.update hmem).trans (Frame.update hmem)
    · rw [coe_cons_add]
      exact le_add_left _ _
  · have hz : getLE (s.kmem.mem (s.file f).pipe) (endOff !(s.file f).writable) 4 ≠ 0 :=
      fun h => hz ((both_closed _ _).mpr h)
    obtain ⟨g, hg, hp, hw⟩ := hok.owner f _ ht hz
    have hgf : g ≠ f := by
      rintro rfl
      simp at hw
    have hpipes : openPipes (update s.file f { s.file f with ref := 0, type := .none }) = openPipes s.file := by
      ext pi
      rw [mem_openPipes_drop, mem_openPipes]
      constructor
      · rintro ⟨g, -, h⟩
        exact ⟨g, h⟩
      · rintro ⟨g', hg', rfl⟩
        by_cases hgf' : g' = f
        · exact ⟨g, hgf, hg, by rw [hp, hgf']⟩
        · exact ⟨g', hgf', hg', rfl⟩
    refine ⟨rfl, hok.dropEnd hf ht (fun x hx => update_of_ne hx _ _) (update_self _ _ _), ?_,
      Frame.update hmem, le_rfl⟩
    simp only [hpipes]

theorem wp_filecloseRaw (hok : FileOk s.kmem.mem s.file ({f} + R)) (hpage : ∀ pi ∈ openPipes s.file, L.IsPage pi) :
    wp (fileclose L f) (fun _ s' => Dropped s s' R) s := by
  have hpos : ¬ (s.file f).ref < 1 := by
    rw [hok.ref, count_singleton_add, if_pos rfl]
    omega
  rw [fileclose]
  simp only [wp_bind, wp_get]
  rw [if_neg hpos, wp_ite]
  simp only [wp_bind, wp_setFile, wp_doIf]
  refine ⟨fun hlt => ?_, fun hle => ⟨fun ht => wp_pipeclose hok (by omega) ht hpage, fun ht => ?_⟩⟩
  · refine ⟨rfl, hok.decr hlt, ?_, Frame.refl, le_rfl⟩
    simp only [openPipes_congr fun g => ⟨(update_file_ref g).1, (update_file_ref g).2.1⟩]
  · refine ⟨rfl, hok.drop (by omega) (fun g _ hg => hok.openEnd g hg) fun g w _ hg hw => ?_, ?_, Frame.refl, le_rfl⟩
    · obtain ⟨g', hg', h'⟩ := hok.owner g w hg hw
      exact ⟨g', fun he => ht (he ▸ hg'), hg', h'⟩
    · have hp : openPipes (update s.file f { s.file f with ref := 0, type := .none }) = openPipes s.file := by
        ext pi
        rw [mem_openPipes_drop, mem_openPipes]
        exact exists_congr fun g => ⟨fun h => h.2, fun h => ⟨fun he => ht (he ▸ h.1), h⟩⟩
      simp only [hp]

end Close

/-! ## The invariant -/

structure Quiet (s s' : State) : Prop where
  proc : s'.proc = s.proc
  init : s'.initproc = s.initproc
  mem : ∀ p, ∀ x ∈ procPages s.kmem.mem (s.proc p), s'.kmem.mem x = s.kmem.mem x

theorem Quiet.refl {s : State} : Quiet s s := ⟨rfl, rfl, fun _ _ _ => rfl⟩

theorem Quiet.trans {s s' s'' : State} (h : Quiet s s') (h' : Quiet s' s'') : Quiet s s'' := by
  refine ⟨h'.proc.trans h.proc, h'.init.trans h.init, fun p x hx => ?_⟩
  refine (h'.mem p x ?_).trans (h.mem p x hx)
  rw [h.proc, procPages_congr fun y hy => h.mem p y (mem_of_le tablePages_le hy)]
  exact hx

section Inv

variable {L : Layout} {s : State} {X : Multiset Nat} {R R' : Multiset FileId} {k' : Kmem} {file' : FileId → File}
  {f : FileId} {p : ProcId} {s' : State} {fd : Fd}

theorem Inv.proc_notMem (h : Inv L s X R) {x : Nat} (hx : x ∈ procPages s.kmem.mem (s.proc p)) :
    x ∉ ↑s.kmem.freelist + (openPipes s.file).val := by
  have hd := (arena_allPages L).nodup
  rw [← h.split p] at hd
  refine notMem_of_nodup_add (T := procPages s.kmem.mem (s.proc p)) (nodup_of_le ?_ hd) hx
  have : ↑s.kmem.freelist + procPages s.kmem.mem (s.proc p) + X + (↑s.kernelPages +
      ∑ j ∈ Finset.univ.erase p, procPages s.kmem.mem (s.proc j) + (openPipes s.file).val) =
      ↑s.kmem.freelist + (openPipes s.file).val + procPages s.kmem.mem (s.proc p) +
      (X + (↑s.kernelPages + ∑ j ∈ Finset.univ.erase p, procPages s.kmem.mem (s.proc j))) := by abel
  rw [this]
  exact le_add_right _ _

theorem Inv.files (h : Inv L s X R) (k' : Kmem) (file' : FileId → File) (R' : Multiset FileId)
    (hsum : ↑k'.freelist + (openPipes file').val = ↑s.kmem.freelist + (openPipes s.file).val)
    (hfr : Frame (↑s.kmem.freelist + (openPipes s.file).val) s.kmem.mem k'.mem)
    (hok : FileOk k'.mem file' (∑ p, ofiles (s.proc p) + R')) :
    Inv L { s with kmem := k', file := file' } X R' ∧ Quiet s { s with kmem := k', file := file' } := by
  have hmem : ∀ p, ∀ x ∈ procPages s.kmem.mem (s.proc p), k'.mem x = s.kmem.mem x :=
    fun p x hx => hfr x (h.proc_notMem hx)
  have htab : ∀ p, ∀ x ∈ tablePages s.kmem.mem (s.proc p), k'.mem x = s.kmem.mem x :=
    fun p x hx => hmem p x (mem_of_le tablePages_le hx)
  refine ⟨⟨?_, fun p => (h.proc p).congr (htab p), hok⟩, ⟨rfl, rfl, hmem⟩⟩
  dsimp only
  rw [Finset.sum_congr rfl fun p _ => procPages_congr (htab p), ← h.total]
  calc _ = (↑k'.freelist + (openPipes file').val) + ↑s.kernelPages +
        ∑ p, procPages s.kmem.mem (s.proc p) + X := by abel
    _ = _ := by
      rw [hsum]
      abel

theorem Inv.pipe_page (h : Inv L s X R) : ∀ pi ∈ openPipes s.file, L.IsPage pi := by
  intro pi hpi
  refine (arena_allPages L).page pi ?_
  rw [← h.total]
  simp only [mem_add]
  exact .inl (.inr hpi)

theorem Dropped.inv (h : Inv L s X R) (hd : Dropped s s' (∑ p, ofiles (s.proc p) + R')) :
    Inv L s' X R' ∧ Quiet s s' := by
  have h' := h.files _ _ _ hd.sum (hd.frame.mono (le_add_left _ _)) hd.file
  rwa [← hd.same] at h'

theorem wp_fileclose (h : Inv L s X ({f} + R)) : wp (fileclose L f) (fun _ s' => Inv L s' X R ∧ Quiet s s' ∧
      (↑s.kmem.freelist : Multiset Nat) ≤ ↑s'.kmem.freelist) s := by
  have hok := h.file
  rw [add_left_comm] at hok
  refine wp_mono (wp_filecloseRaw hok h.pipe_page) ?_
  intro _ s' hd
  obtain ⟨h1, h2⟩ := hd.inv h
  exact ⟨h1, h2, hd.free⟩

theorem wp_filealloc {Q : Option FileId → State → Prop} (h : Inv L s X R) (hnone : Q none s)
    (hsome : ∀ f s', Inv L s' X ({f} + R) → Quiet s s' → s' = { s with file := s'.file } →
      (s'.file f).type = .none → (∀ g, g ≠ f → s'.file g = s.file g) → (s.file f).ref = 0 → Q (some f) s') :
    wp filealloc Q s := by
  simp only [filealloc, wp_bind, wp_get]
  split
  · exact wp_pure.mpr hnone
  · rename_i f hf
    have h0 : (s.file f).ref = 0 := by simpa using List.find?_some hf
    have hset : { s.file f with ref := 1 } = { s.file f with ref := (s.file f).ref + 1 } := by rw [h0]
    simp only [wp_bind, wp_setFile, wp_pure, hset]
    obtain ⟨h1, h2⟩ := h.files s.kmem _ ({f} + R) (by rw [openPipes_incr (f := f)]) Frame.refl
      (by rw [add_left_comm]; exact h.file.incr)
    refine hsome f _ h1 h2 rfl ?_ (fun g hg => update_of_ne hg _ _) h0
    dsimp only
    rw [update_self]
    exact h.file.closed f h0

/-! ## Descriptors -/

theorem ofiles_update (q : Proc) (fd : Fd) (o : Option FileId) :
    ofiles { q with ofile := update q.ofile fd o } + (q.ofile fd).elim 0 singleton =
      ofiles q + o.elim 0 singleton :=
  sum_update (fun o : Option FileId => o.elim 0 singleton) q.ofile fd o

theorem Inv.setOfile_some (h : Inv L s X ({f} + R)) (hfd : (s.proc p).ofile fd = none)
    (hst : (s.proc p).state ≠ .unused ∧ (s.proc p).state ≠ .zombie) : Inv L (withOfile s p fd (some f)) X R := by
  have hq := h.proc p
  have hof := ofiles_update (s.proc p) fd (some f)
  rw [hfd, Option.elim_none, Option.elim_some, add_zero] at hof
  refine h.update p s.kmem _ X rfl Frame.refl
    ⟨⟨fun root hr => (hq.space root hr).imp fun tf ha => ⟨hr, ha.trapframe, ha.space⟩, hq.empty⟩,
      hq.unused, hq.live, fun hz => hz.elim (absurd · hst.1) (absurd · hst.2)⟩ ?_
  rw [hof, add_assoc]

theorem Inv.setOfile_none (h : Inv L s X R) (fd : Fd) (hfd : (s.proc p).ofile fd = some f) :
    Inv L (withOfile s p fd none) X ({f} + R) := by
  have hq := h.proc p
  have hof := ofiles_update (s.proc p) fd none
  rw [hfd, Option.elim_none, Option.elim_some, add_zero] at hof
  refine h.update p s.kmem _ X rfl Frame.refl
    ⟨⟨fun root hr => (hq.space root hr).imp fun tf ha => ⟨hr, ha.trapframe, ha.space⟩, hq.empty⟩,
      hq.unused, hq.live, fun hz fd' => ?_⟩ ?_
  · have := hq.closed hz fd
    rw [hfd] at this
    cases this
  · rw [← hof]
    abel

theorem Inv.ref_pos (h : Inv L s X R) (hfd : (s.proc p).ofile fd = some f) : 0 < (s.file f).ref := by
  rw [h.file.ref, count_pos, mem_add]
  refine .inl (mem_sum.mpr ⟨p, Finset.mem_univ p, mem_sum.mpr ⟨fd, Finset.mem_univ fd, ?_⟩⟩)
  rw [hfd]
  exact mem_singleton_self f

def withRef (s : State) (f : FileId) : State :=
  { s with file := update s.file f { s.file f with ref := (s.file f).ref + 1 } }

theorem wp_filedup {Q : Unit → State → Prop} (hpos : 0 < (s.file f).ref) :
    wp (filedup f) Q s ↔ Q () (withRef s f) := by
  simp only [filedup, wp_bind, wp_get]
  rw [if_neg (Nat.not_lt.mpr hpos), wp_setFile]
  rfl

theorem Inv.incr (h : Inv L s X R) : Inv L (withRef s f) X ({f} + R) := by
  exact (h.files s.kmem _ _ (by rw [openPipes_incr]) Frame.refl (by rw [add_left_comm]; exact h.file.incr)).1

def SameStates (s s' : State) : Prop := ∀ j, (s'.proc j).state = (s.proc j).state

theorem sameStates_ofile {o : Option FileId} : SameStates s (withOfile s p fd o) := by
  intro j
  by_cases hj : j = p
  · subst hj
    simp [withOfile]
  · simp [withOfile, hj]

theorem Quiet.sameStates (h : Quiet s s') : SameStates s s' := fun j => by rw [h.proc]

theorem SameStates.trans {s'' : State} (h : SameStates s s') (h' : SameStates s' s'') : SameStates s s'' :=
  fun j => (h' j).trans (h j)

theorem wp_fdalloc {Q : Option Fd → State → Prop} (hnone : Q none s)
    (hsome : ∀ fd, (s.proc p).ofile fd = none → Q (some fd) (withOfile s p fd (some f))) : wp (fdalloc p f) Q s := by
  simp only [fdalloc, wp_bind, wp_get]
  split
  · exact wp_pure.mpr hnone
  · rename_i fd hfd
    simp only [wp_bind, wp_setOfile, wp_pure]
    exact hsome fd (by simpa using List.find?_some hfd)

theorem wp_argfd {fd : Int} {Q : Option (Fd × FileId) → State → Prop} (hnone : Q none s)
    (hsome : ∀ i f, (s.proc p).ofile i = some f → Q (some (i, f)) s) : wp (argfd p fd) Q s := by
  simp only [argfd, wp_bind, wp_get]
  split
  · rename_i hfd
    rw [wp_pure]
    cases ho : (s.proc p).ofile ⟨fd.toNat, by omega⟩ with
    | none => exact hnone
    | some f => exact hsome _ f ho
  · exact wp_pure.mpr hnone

theorem wp_sysDup {fd : Int} (h : Inv L s X R) (hst : (s.proc p).state ≠ .unused ∧ (s.proc p).state ≠ .zombie) :
    wp (sysDup p fd) (fun _ s' => Inv L s' X R ∧ SameStates s s') s := by
  simp only [sysDup, wp_bind]
  refine wp_argfd (wp_pure.mpr ⟨h, fun _ => rfl⟩) fun i f hf => ?_
  simp only [wp_bind]
  refine wp_fdalloc (wp_pure.mpr ⟨h, fun _ => rfl⟩) fun fd hfd => ?_
  simp only [wp_bind, wp_pure]
  rw [wp_filedup (show 0 < ((withOfile s p fd (some f)).file f).ref from h.ref_pos hf)]
  exact ⟨(h.incr (f := f)).setOfile_some hfd hst, sameStates_ofile⟩

theorem wp_sysClose {fd : Int} (h : Inv L s X R) :
    wp (sysClose L p fd) (fun _ s' => Inv L s' X R ∧ SameStates s s') s := by
  simp only [sysClose, wp_bind]
  refine wp_argfd (wp_pure.mpr ⟨h, fun _ => rfl⟩) fun i f hf => ?_
  simp only [wp_bind, wp_setOfile]
  refine wp_mono (wp_fileclose (h.setOfile_none _ hf)) ?_
  rintro _ s' ⟨h1, h2, -⟩
  exact wp_pure.mpr ⟨h1, sameStates_ofile.trans h2.sameStates⟩

/-! ## pipe -/

theorem FileOk.addPipe (file' : FileId → File) {mem mem' : Nat → Page} {file : FileId → File} {f0 f1 : FileId} {pi : Nat}
    (h : FileOk mem file R) (hne : f0 ≠ f1) (ht0 : (file f0).type = .none) (ht1 : (file f1).type = .none)
    (hr0 : (file f0).ref ≠ 0) (hr1 : (file f1).ref ≠ 0) (hpi : pi ∉ openPipes file)
    (hm : ∀ x ∈ openPipes file, mem' x = mem x) (hw0 : getLE (mem' pi) READOPEN 4 ≠ 0)
    (hw1 : getLE (mem' pi) WRITEOPEN 4 ≠ 0)
    (hf0 : file' f0 = { file f0 with type := .pipe, readable := true, writable := false, pipe := pi })
    (hf1 : file' f1 = { file f1 with type := .pipe, readable := false, writable := true, pipe := pi })
    (hf : ∀ g, g ≠ f0 → g ≠ f1 → file' g = file g) :
    FileOk mem' file' R ∧ (openPipes file').val = {pi} + (openPipes file).val := by
  have hold : ∀ g, (file g).type = .pipe → file' g = file g ∧ (file g).pipe ≠ pi ∧
      mem' (file g).pipe = mem (file g).pipe := by
    intro g hg
    have hmem := mem_openPipes.mpr ⟨g, hg, rfl⟩
    refine ⟨hf g ?_ ?_, fun he => hpi (he ▸ hmem), hm _ hmem⟩
    · rintro rfl
      cases ht0.symm.trans hg
    · rintro rfl
      cases ht1.symm.trans hg
  -- a file with a pipe is one of the new ones, or it had its pipe before
  have hcases : ∀ g, (file' g).type = .pipe →
      (g = f0 ∨ g = f1) ∧ (file' g).pipe = pi ∨ (file g).type = .pipe ∧ file' g = file g := by
    intro g hg
    by_cases h0 : g = f0
    · exact .inl ⟨.inl h0, by rw [h0, hf0]⟩
    by_cases h1 : g = f1
    · exact .inl ⟨.inr h1, by rw [h1, hf1]⟩
    rw [hf g h0 h1] at hg
    exact .inr ⟨hg, hf g h0 h1⟩
  refine ⟨⟨fun g => ?_, fun g hg => ?_, fun g hg => ?_, fun g w hg hw => ?_, fun g g' hg hg' hp hw => ?_⟩, ?_⟩
  · by_cases h0 : g = f0
    · rw [h0, hf0]
      exact h.ref f0
    by_cases h1 : g = f1
    · rw [h1, hf1]
      exact h.ref f1
    rw [hf g h0 h1]
    exact h.ref g
  · have h0 : g ≠ f0 := by
      rintro rfl
      rw [hf0] at hg
      exact hr0 hg
    have h1 : g ≠ f1 := by
      rintro rfl
      rw [hf1] at hg
      exact hr1 hg
    rw [hf g h0 h1] at hg ⊢
    exact h.closed g hg
  · obtain ⟨rfl | rfl, -⟩ | ⟨hg', he⟩ := hcases g hg
    · rw [hf0]
      exact hw0
    · rw [hf1]
      exact hw1
    · rw [he, (hold g hg').2.2]
      exact h.openEnd g hg'
  · obtain ⟨-, hp⟩ | ⟨hg', he⟩ := hcases g hg
    · cases w with
      | false => exact ⟨f0, by rw [hf0], by rw [hf0, hp], by rw [hf0]⟩
      | true => exact ⟨f1, by rw [hf1], by rw [hf1, hp], by rw [hf1]⟩
    · rw [he, (hold g hg').2.2] at hw
      obtain ⟨g', hg'', h1, h2⟩ := h.owner g w hg' hw
      have he' := (hold g' hg'').1
      exact ⟨g', by rw [he']; exact hg'', by rw [he', he]; exact h1, by rw [he']; exact h2⟩
  · obtain ⟨hn, hpg⟩ | ⟨ho, he⟩ := hcases g hg <;> obtain ⟨hn', hpg'⟩ | ⟨ho', he'⟩ := hcases g' hg'
    · obtain rfl | rfl := hn <;> obtain rfl | rfl := hn'
      · rfl
      · rw [hf0, hf1] at hw
        cases hw
      · rw [hf0, hf1] at hw
        cases hw
      · rfl
    · rw [hpg, he'] at hp
      exact absurd hp.symm (hold g' ho').2.1
    · rw [hpg', he] at hp
      exact absurd hp (hold g ho).2.1
    · rw [he, he'] at hp hw
      exact h.inj g g' ho ho' hp hw
  · rw [singleton_add, ← Finset.insert_val_of_notMem hpi]
    congr 1
    ext x
    rw [Finset.mem_insert, mem_openPipes, mem_openPipes]
    constructor
    · rintro ⟨g, hg, rfl⟩
      obtain ⟨-, hp⟩ | ⟨hg', he⟩ := hcases g hg
      · exact .inl hp
      · exact .inr ⟨g, hg', by rw [he]⟩
    · rintro (rfl | ⟨g, hg, hp⟩)
      · exact ⟨f0, by rw [hf0], by rw [hf0]⟩
      · exact ⟨g, by rw [(hold g hg).1]; exact hg, by rw [(hold g hg).1]; exact hp⟩

def withPipe (file : FileId → File) (f0 f1 : FileId) (pi : Nat) : FileId → File :=
  let file1 := update file f0
    { file f0 with type := .pipe, readable := true, writable := false, pipe := pi }
  update file1 f1 { file1 f1 with type := .pipe, readable := false, writable := true, pipe := pi }

theorem Inv.newPipe {f0 f1 : FileId} {pi : Nat} {rest : List Nat} (h : Inv L s X R) (k' : Kmem) (hne : f0 ≠ f1)
    (ht0 : (s.file f0).type = .none) (ht1 : (s.file f1).type = .none) (hr0 : (s.file f0).ref ≠ 0)
    (hr1 : (s.file f1).ref ≠ 0) (hfree : s.kmem.freelist = pi :: rest) (hrest : k'.freelist = rest)
    (hm : ∀ x, x ≠ pi → k'.mem x = s.kmem.mem x) (hw0 : getLE (k'.mem pi) READOPEN 4 ≠ 0)
    (hw1 : getLE (k'.mem pi) WRITEOPEN 4 ≠ 0) : Inv L { s with kmem := k', file := withPipe s.file f0 f1 pi } X R ∧
      Quiet s { s with kmem := k', file := withPipe s.file f0 f1 pi } := by
  have hpi : pi ∉ openPipes s.file := by
    intro hpi
    refine h.pipe_notMem (p := 0) hpi ?_
    rw [hfree]
    simp
  obtain ⟨hok, hpipes⟩ := h.file.addPipe (withPipe s.file f0 f1 pi) hne ht0 ht1 hr0 hr1 hpi
    (fun x hx => hm x fun he => hpi (he ▸ hx)) hw0 hw1
    (by rw [withPipe, update_of_ne hne, update_self])
    (by rw [withPipe, update_self, update_of_ne hne.symm])
    (fun g h0 h1 => by rw [withPipe, update_of_ne h1, update_of_ne h0])
  refine h.files _ _ _ ?_ (fun x hx => hm x fun he => hx ?_) hok
  · rw [hpipes, hfree, hrest, coe_cons_add]
    abel
  · rw [he, hfree]
    simp

theorem newPipe_open (page : Page) :
    getLE (putLE (putLE (putLE (putLE page READOPEN 4 1) WRITEOPEN 4 1) 540 4 0) 536 4 0) READOPEN 4 ≠ 0 ∧
      getLE (putLE (putLE (putLE (putLE page READOPEN 4 1) WRITEOPEN 4 1) 540 4 0) 536 4 0) WRITEOPEN 4 ≠ 0 := by
  constructor
  · rw [getLE_putLE_disj (by decide), getLE_putLE_disj (by decide), getLE_putLE_disj (by decide),
      getLE_putLE_same (by decide)]
    decide
  · rw [getLE_putLE_disj (by decide), getLE_putLE_disj (by decide), getLE_putLE_same (by decide)]
    decide

def pipeRefs : Option (FileId × FileId) → Multiset FileId
  | none => 0
  | some (f0, f1) => {f0} + {f1}

theorem wp_pipealloc (h : Inv L s X R) :
    wp (pipealloc L) (fun r s' => Inv L s' X (pipeRefs r + R) ∧ Quiet s s') s := by
  simp only [pipealloc, wp_bind]
  refine wp_filealloc h (wp_pure.mpr ⟨by simpa [pipeRefs] using h, Quiet.refl⟩) ?_
  intro f0 s1 h1 hq1 _ ht1 _ _
  simp only [wp_bind]
  refine wp_filealloc h1 ?_ ?_
  · simp only [wp_bind]
    refine wp_mono (wp_fileclose h1) ?_
    rintro _ s' ⟨h', hq', -⟩
    exact wp_pure.mpr ⟨by simpa [pipeRefs] using h', hq1.trans hq'⟩
  intro f1 s2 h2 hq2 _ ht2 hsame2 h0
  have hr0 : (s1.file f0).ref ≠ 0 := by
    rw [h1.file.ref, add_left_comm, count_singleton_add, if_pos rfl]
    omega
  have hne : f0 ≠ f1 := by
    rintro rfl
    exact hr0 h0
  have hr1 : (s2.file f1).ref ≠ 0 := by
    rw [h2.file.ref, add_left_comm, count_singleton_add, if_pos rfl]
    omega
  rw [← hsame2 f0 hne] at ht1 hr0
  simp only [wp_bind, wp_vm]
  refine wp_kalloc ?_ ?_
  · intro k' hm hf
    have h3 : Inv L { s2 with kmem := k' } X ({f0} + ({f1} + R)) := by
      rw [add_left_comm]
      exact h2.pool (by rw [hf]) (by rw [hm]; exact Frame.refl)
    have hq3 : Quiet s2 { s2 with kmem := k' } := ⟨rfl, rfl, fun _ _ _ => by rw [hm]⟩
    simp only [wp_bind]
    refine wp_mono (wp_fileclose h3) ?_
    rintro _ s4 ⟨h4, hq4, -⟩
    refine wp_mono (wp_fileclose h4) ?_
    rintro _ s5 ⟨h5, hq5, -⟩
    exact wp_pure.mpr ⟨by simpa [pipeRefs] using h5, (((hq1.trans hq2).trans hq3).trans hq4).trans hq5⟩
  · intro pi rest k' hfree hrest hm
    simp only [wp_bind, wp_get, wp_vm, wp_setPage, wp_setFile, wp_pure]
    have hpage := newPipe_open (k'.mem pi)
    have hR : pipeRefs (some (f0, f1)) + R = {f1} + ({f0} + R) := by
      rw [pipeRefs]
      abel
    rw [hR]
    obtain ⟨h3, hq3⟩ := h2.newPipe { k' with mem := update k'.mem pi (putLE (putLE
      (putLE (putLE (k'.mem pi) READOPEN 4 1) WRITEOPEN 4 1) 540 4 0) 536 4 0) } hne ht1 ht2 hr0 hr1 hfree hrest
      (fun x hx => by simp [hx, hm]) (by simpa using hpage.1) (by simpa using hpage.2)
    exact ⟨h3, (hq1.trans hq2).trans hq3⟩

theorem wp_closePair {rf wf : FileId} (h : Inv L s X ({rf} + ({wf} + R))) :
    wp (do
      fileclose L rf
      fileclose L wf
      pure (-1 : Int)) (fun _ s' => Inv L s' X R ∧ SameStates s s') s := by
  simp only [wp_bind]
  refine wp_mono (wp_fileclose h) ?_
  rintro _ s1 ⟨h1, hq1, -⟩
  refine wp_mono (wp_fileclose h1) ?_
  rintro _ s2 ⟨h2, hq2, -⟩
  exact wp_pure.mpr ⟨h2, hq1.sameStates.trans hq2.sameStates⟩

theorem wp_closePipe {fd0 fd1 : Fd} {rf wf : FileId} (h : Inv L s X R) (hne : fd0 ≠ fd1)
    (h0 : (s.proc p).ofile fd0 = some rf) (h1 : (s.proc p).ofile fd1 = some wf) :
    wp (closePipe L p fd0 fd1 rf wf) (fun _ s' => Inv L s' X R ∧ SameStates s s') s := by
  have h₁ := h.setOfile_none _ h0
  have h2 := h₁.setOfile_none (p := p) (f := wf) fd1 (by simp [hne.symm, h1])
  rw [add_left_comm] at h2
  rw [closePipe, wp_bind, wp_setOfile, wp_bind, wp_setOfile]
  refine wp_mono (wp_closePair h2) ?_
  rintro _ s' ⟨h', hs⟩
  exact ⟨h', (sameStates_ofile.trans sameStates_ofile).trans hs⟩

theorem wp_sysPipe {fdarray : Nat} (h : Inv L s X R) (hst : (s.proc p).state ≠ .unused ∧ (s.proc p).state ≠ .zombie) :
    wp (sysPipe L p fdarray) (fun _ s' => Inv L s' X R ∧ SameStates s s') s := by
  rw [sysPipe, wp_bind]
  refine wp_mono (wp_pipealloc h) ?_
  rintro (_ | ⟨rf, wf⟩) s1 ⟨h1, hq1⟩
  · exact wp_pure.mpr ⟨by simpa [pipeRefs] using h1, hq1.sameStates⟩
  rw [pipeRefs, add_assoc] at h1
  have hst1 : (s1.proc p).state ≠ .unused ∧ (s1.proc p).state ≠ .zombie := by
    rw [hq1.sameStates p]
    exact hst
  simp only [wp_bind]
  refine wp_fdalloc ?_ fun fd0 hfd0 => ?_
  · refine wp_mono (wp_closePair h1) ?_
    rintro _ s' ⟨h', hs⟩
    exact ⟨h', hq1.sameStates.trans hs⟩
  have h2 := h1.setOfile_some hfd0 hst1
  have hs2 : SameStates s (withOfile s1 p fd0 (some rf)) := hq1.sameStates.trans sameStates_ofile
  have hst2 : ((withOfile s1 p fd0 (some rf)).proc p).state ≠ .unused ∧
      ((withOfile s1 p fd0 (some rf)).proc p).state ≠ .zombie := by
    rw [hs2 p]
    exact hst
  simp only [wp_bind]
  refine wp_fdalloc ?_ fun fd1 hfd1 => ?_
  · have h3 := h2.setOfile_none (p := p) (f := rf) fd0 (by simp)
    show wp (setOfile p fd0 none >>= fun _ => _) _ _
    rw [wp_bind, wp_setOfile]
    refine wp_mono (wp_closePair h3) ?_
    rintro _ s' ⟨h', hs⟩
    exact ⟨h', (hs2.trans sameStates_ofile).trans hs⟩
  have hne : fd0 ≠ fd1 := by
    rintro rfl
    simp at hfd1
  have h3 := h2.setOfile_some hfd1 hst2
  have hs3 : SameStates s (withOfile (withOfile s1 p fd0 (some rf)) p fd1 (some wf)) := hs2.trans sameStates_ofile
  have hof : ((withOfile (withOfile s1 p fd0 (some rf)) p fd1 (some wf)).proc p).ofile fd0 = some rf ∧
      ((withOfile (withOfile s1 p fd0 (some rf)) p fd1 (some wf)).proc p).ofile fd1 = some wf := by
    simp [hne]
  generalize withOfile (withOfile s1 p fd0 (some rf)) p fd1 (some wf) = s3 at h3 hs3 hof
  obtain ⟨root, tf, ha⟩ := h3.space (p := p) (by rw [hs3 p]; exact hst.1)
  simp only [wp_bind, wp_get, wp_vm, ha.pagetable, Option.getD_some]
  refine wp_mono (wp_copyout_inv ha h3) ?_
  rintro r k4 ⟨-, h4, -⟩
  -- what is left to do after either copy
  have hback : ∀ {k : Kmem}, Inv L { s3 with kmem := k } X R →
      wp (closePipe L p fd0 fd1 rf wf) (fun _ s' => Inv L s' X R ∧ SameStates s s') { s3 with kmem := k } := by
    intro k hk
    refine wp_mono (wp_closePipe hk hne hof.1 hof.2) ?_
    rintro _ s' ⟨h', hs⟩
    exact ⟨h', hs3.trans hs⟩
  rw [wp_ite]
  refine ⟨fun _ => hback h4, fun _ => ?_⟩
  obtain ⟨root', tf', ha'⟩ := h4.space (p := p) (by rw [show _ = _ from hs3 p]; exact hst.1)
  cases ha.pagetable.symm.trans ha'.pagetable
  rw [wp_bind, wp_vm]
  refine wp_mono (wp_copyout_inv ha' h4) ?_
  rintro r k5 ⟨-, h5, -⟩
  rw [wp_ite]
  exact ⟨fun _ => hback h5, fun _ => wp_pure.mpr ⟨h5, hs3⟩⟩

/-! ## The open files of a process, in exit and fork -/

/-- Nothing of the processes changes but the descriptors of `p`. -/
structure Calm (p : ProcId) (s s' : State) : Prop where
  proc : ∃ o, s'.proc = update s.proc p { s.proc p with ofile := o }
  init : s'.initproc = s.initproc
  mem : ∀ j, ∀ x ∈ procPages s.kmem.mem (s.proc j), s'.kmem.mem x = s.kmem.mem x
  free : (↑s.kmem.freelist : Multiset Nat) ≤ ↑s'.kmem.freelist

theorem Calm.refl : Calm p s s := ⟨⟨_, (update_eq_self p s.proc).symm⟩, rfl, fun _ _ _ => rfl, le_rfl⟩

theorem Calm.pages (h : Calm p s s') (j : ProcId) :
    procPages s'.kmem.mem (s'.proc j) = procPages s.kmem.mem (s.proc j) := by
  obtain ⟨o, ho⟩ := h.proc
  have hj : procPages s'.kmem.mem (s'.proc j) = procPages s'.kmem.mem (s.proc j) := by
    rw [ho]
    by_cases hjp : j = p
    · rw [hjp, update_self]
      rfl
    · rw [update_of_ne hjp]
  rw [hj, procPages_congr fun x hx => h.mem j x (mem_of_le tablePages_le hx)]

theorem Calm.trans {s'' : State} (h : Calm p s s') (h' : Calm p s' s'') : Calm p s s'' := by
  refine ⟨?_, h'.init.trans h.init, fun j x hx => ?_, h.free.trans h'.free⟩
  · obtain ⟨o, ho⟩ := h.proc
    obtain ⟨o', ho'⟩ := h'.proc
    exact ⟨o', by rw [ho', ho, update_idem, update_self]⟩
  · exact (h'.mem j x (by rw [h.pages]; exact hx)).trans (h.mem j x hx)

theorem wp_closeFd (h : Inv L s X R) (hfd : (s.proc p).ofile fd = some f) :
    wp (fileclose L f) (fun _ s' => Inv L (withOfile s' p fd none) X R ∧
      Calm p s (withOfile s' p fd none) ∧ s'.proc = s.proc) s := by
  have h1 := h.setOfile_none _ hfd
  have hok := h1.file
  rw [add_left_comm] at hok
  refine wp_mono (wp_filecloseRaw hok h.pipe_page) ?_
  intro _ s' hd
  have hs : withOfile s' p fd none = { withOfile s p fd none with kmem := s'.kmem, file := s'.file } := by
    rw [hd.same]
    rfl
  obtain ⟨h2, hq2⟩ := h1.files s'.kmem s'.file _ hd.sum
    (hd.frame.mono (le_add_left _ _)) hd.file
  have hproc : s'.proc = s.proc := by rw [hd.same]
  rw [hs]
  exact ⟨h2, ⟨⟨_, rfl⟩, rfl, fun j x hx => hq2.mem j x (by rw [withOfile_pages]; exact hx), hd.free⟩, hproc⟩

theorem wp_closeFiles {fds : List Fd} : ∀ {s : State}, Inv L s X R →
    wp (closeFiles L p fds) (fun _ s' => Inv L s' X R ∧ Calm p s s' ∧ (∀ fd ∈ fds, (s'.proc p).ofile fd = none) ∧
      ∀ fd, (s.proc p).ofile fd = none → (s'.proc p).ofile fd = none) s := by
  induction fds with
  | nil =>
    intro s h
    exact wp_pure.mpr ⟨h, Calm.refl, fun _ hfd => absurd hfd List.not_mem_nil, fun _ => id⟩
  | cons fd fds ih =>
    intro s h
    simp only [closeFiles, wp_bind, wp_get]
    cases hfd : (s.proc p).ofile fd with
    | none =>
      refine wp_pure.mpr (wp_mono (ih h) ?_)
      rintro _ s' ⟨h', hc, hn, hk⟩
      exact ⟨h', hc, List.forall_mem_cons.mpr ⟨hk fd hfd, hn⟩, hk⟩
    | some f =>
      simp only [Option.elim_some, wp_bind]
      refine wp_mono (wp_closeFd h hfd) ?_
      rintro _ s1 ⟨h1, hc1, hp1⟩
      rw [wp_setOfile]
      refine wp_mono (ih h1) ?_
      rintro _ s' ⟨h', hc, hn, hk⟩
      refine ⟨h', hc1.trans hc, List.forall_mem_cons.mpr ⟨hk fd (by simp), hn⟩, fun fd' hfd' => hk fd' ?_⟩
      rw [withOfile_ofile, hp1]
      by_cases he : fd' = fd
      · rw [he, update_self]
      · rw [update_of_ne he, hfd']

theorem wp_dupFiles {np : ProcId} {fds : List Fd} : ∀ {s : State}, Inv L s X R → fds.Nodup →
    (s.proc np).state = .used → (∀ fd ∈ fds, (s.proc np).ofile fd = none) →
    wp (dupFiles p np fds) (fun _ s' => Inv L s' X R ∧ SameStates s s') s := by
  induction fds with
  | nil =>
    intro s h _ _ _
    exact wp_pure.mpr ⟨h, fun _ => rfl⟩
  | cons fd fds ih =>
    intro s h hd hst hfds
    obtain ⟨hfd, hd⟩ := List.nodup_cons.mp hd
    obtain ⟨hnone, hfds⟩ := List.forall_mem_cons.mp hfds
    simp only [dupFiles, wp_bind, wp_get]
    cases hf : (s.proc p).ofile fd with
    | none => exact wp_pure.mpr (ih h hd hst hfds)
    | some f =>
      simp only [Option.elim_some, wp_bind]
      rw [wp_filedup (h.ref_pos hf), wp_setOfile]
      have hlive : ((withRef s f).proc np).state ≠ .unused ∧ ((withRef s f).proc np).state ≠ .zombie := by
        rw [show ((withRef s f).proc np).state = .used from hst]
        exact ⟨by simp, by simp⟩
      have h1 := (h.incr (f := f)).setOfile_some (p := np) hnone hlive
      have hs1 : SameStates s (withOfile (withRef s f) np fd (some f)) := sameStates_ofile (s := withRef s f)
      refine wp_mono (ih h1 hd (by rw [hs1 np]; exact hst) fun fd' hfd' => ?_) ?_
      · have : fd' ≠ fd := fun he => hfd (he ▸ hfd')
        rw [withOfile_ofile, update_of_ne this]
        exact hfds fd' hfd'
      · rintro _ s' ⟨h', hs'⟩
        exact ⟨h', hs1.trans hs'⟩

end Inv

end Sys
end Xv6
