import Xv6.Read.Model
import Xv6.Fs.Image
import Xv6.Vm.Copy
import Xv6.Lib.Fifo

/-!
# Xv6.Read.Pipe

`piperead` takes a byte out of the pipe before it knows that `copyout` succeeds.

* `wp_pipeCopy`: the bytes that are stored, and the bytes that are taken: one more when a copy fails.
* `piperead_consumes_iff`: what is taken is what is returned exactly when no copy fails.
* `piperead_loses`: a byte that is neither returned nor left in the pipe.
-/

namespace Xv6
namespace Read

open Bytes Wp Vm Function

variable {root pi addr c i : Nat} {T : Multiset Nat} {f : Nat → Nat} {s s' : State} {x : PipeBuf}

@[simp] theorem wp_vm {α : Type} {x : K α} {Q : α → State → Prop} :
    wp (vm x) Q s ↔ wp x (fun a k => Q a { s with k := k }) s.k := wp_zoom

@[simp] theorem wp_setPipe {Q : Unit → State → Prop} :
    wp (setPipe pi x) Q s ↔ Q () { s with pipe := update s.pipe pi x } := wp_modify

def unread (x : PipeBuf) : List UInt8 := Fifo.queue PIPESIZE x.data x.nread x.nwrite

def PipeBuf.taken (x : PipeBuf) (n : Nat) : PipeBuf := { x with nread := x.nread + BitVec.ofNat 32 n }

theorem taken_succ (x : PipeBuf) (n : Nat) : { x with nread := x.nread + 1 }.taken n = x.taken (1 + n) := by
  rw [PipeBuf.taken, PipeBuf.taken, BitVec.add_assoc, BitVec.ofNat_add]
  rfl

theorem unread_pop (h : x.nread ≠ x.nwrite) :
    unread x = x.data (x.nread.toNat % PIPESIZE) :: unread { x with nread := x.nread + 1 } := by
  refine Fifo.queue_pop (by decide) (Nat.pos_of_ne_zero fun h0 => h ?_)
  exact Fifo.size_eq_zero.mp h0

theorem unread_nil (h : x.nread = x.nwrite) : unread x = [] := by
  rw [← List.length_eq_zero_iff, unread, Fifo.length_queue]
  exact Fifo.size_eq_zero.mpr h

/-- What the copy loop of `piperead` leaves: it has stored `m` bytes and taken one more if a copy has
failed. -/
def Copied (f : Nat → Nat) (pi va c : Nat) (s s' : State) (res : Int) (m : Nat) : Prop :=
  Extent f va (min c (unread (s.pipe pi)).length) res m ∧
    Stored f va ((unread (s.pipe pi)).take m) s.k.mem s'.k.mem ∧
    s'.pipe pi = (s.pipe pi).taken (if res = 0 then m else m + 1)

theorem wp_pipeCopy (pi c : Nat) : ∀ {i : Nat} {s : State}, UserTable s.k.mem root T f → addr + i < 2 ^ 64 →
    wp (pipeCopy root pi addr c i) (fun r s' => ∃ res m, r = i + m ∧ Copied f pi (addr + i) c s s' res m) s := by
  have htaken : ∀ x : PipeBuf, x.taken 0 = x := fun x => by simp [PipeBuf.taken]
  induction c with
  | zero =>
    intro i s _ _
    refine wp_pure.mpr ⟨0, 0, rfl, ?_, Stored.nil, (htaken _).symm⟩
    rw [Nat.zero_min]
    exact Extent.zero
  | succ c ih =>
    intro i s h haddr
    rw [pipeCopy, wp_bind, wp_get]
    dsimp only
    rw [wp_ite]
    refine ⟨fun he => wp_pure.mpr ⟨0, 0, rfl, ?_, Stored.nil, (htaken _).symm⟩, fun hne => ?_⟩
    · rw [unread_nil he, List.length_nil, Nat.min_zero]
      exact Extent.zero
    have hpop := unread_pop hne
    set x := s.pipe pi with hx
    set ch := x.data (x.nread.toNat % PIPESIZE) with hch
    have hlen : min (c + 1) (unread x).length = 1 + min c (unread { x with nread := x.nread + 1 }).length := by
      rw [hpop, List.length_cons]
      omega
    rw [wp_bind, wp_setPipe, wp_bind, wp_vm, Nat.mod_eq_of_lt haddr]
    refine wp_mono (wp_copyout_stored (addr + i) [ch] h) ?_
    rintro r k1 ⟨m1, hext, hst, htab, -⟩
    rw [wp_ite]
    refine ⟨fun hr => wp_pure.mpr ?_, fun hr => ?_⟩
    · -- the byte has been taken, and is not stored
      subst hr
      obtain rfl : m1 = 0 := by
        rcases hext.stop with ⟨h0, -⟩ | ⟨-, hlt, -⟩
        · cases h0
        · exact Nat.lt_one_iff.mp hlt
      refine ⟨-1, 0, rfl, ?_, hst, ?_⟩
      · rw [hlen]
        exact hext.more
      · rw [if_neg (by decide)]
        exact update_self _ _ _
    · obtain rfl : r = 0 := hext.result.resolve_right hr
      obtain rfl := hext.of_result_zero
      have hmap := hext.mapped 0 Nat.one_pos
      have hlt : addr + (i + 1) < 2 ^ 64 := by
        have := (valid_of_addrOf hmap).1
        simp only [PGSIZE] at this
        omega
      refine wp_mono (ih htab hlt) ?_
      rintro r s' ⟨res, m, rfl, hext', hst', hpipe⟩
      dsimp only at hext' hst' hpipe
      rw [update_self] at hext' hst' hpipe
      rw [← Nat.add_assoc] at hext' hst'
      refine ⟨res, 1 + m, by omega, ?_, ?_, ?_⟩
      · rw [hlen]
        exact hext.append hext'
      · rw [hpop, Nat.add_comm 1, List.take_succ_cons]
        exact hst.append h hst' fun q hq => hext.mapped q hq
      · rw [hpipe, taken_succ]
        split
        · rfl
        · rw [← Nat.add_assoc]

/-! ## What is taken and what is returned -/

/-- The call has taken as many bytes as it returns, and these are at the destination. -/
structure Consumes (f : Nat → Nat) (addr pi : Nat) (s s' : State) (r : Int) : Prop where
  count : (s'.pipe pi).nread = (s.pipe pi).nread + BitVec.ofInt 32 r
  bytes : chars f s'.k.mem addr r.toNat = (unread (s.pipe pi)).take r.toNat

/-- `piperead` in state `s₀`, where the pipe is as in `s` when there is something to read. It consumes
exactly what it returns if and only if the process has the pages for all the bytes that it may read. -/
theorem piperead_consumes_iff (root pi addr : Nat) (n : Int) (env : List Wake) (s₀ s : State) (T : Multiset Nat)
    (f : Nat → Nat) (haddr : addr < 2 ^ 64) (hwait : pipeWait pi env s₀ = .ok (true, s))
    (h : ProcTable s.k.mem root T f) : ∃ r s', piperead root pi addr n env s₀ = .ok (r, s') ∧ 0 ≤ r ∧
      (Consumes f addr pi s s' r ↔
        ∀ q < min n.toNat (unread (s.pipe pi)).length, UserPage f ((addr + q) / PGSIZE)) := by
  obtain ⟨r, s', hcopy, res, m, hr, hext, hst, hpipe⟩ :=
    wp_iff.mp (wp_pipeCopy pi n.toNat (i := 0) h.toUserTable haddr)
  rw [Nat.zero_add] at hr
  subst hr
  refine ⟨r, s', ?_, Int.natCast_nonneg r, ?_⟩
  · rw [piperead]
    show (pipeWait pi env s₀ >>= _) = _
    rw [hwait]
    show (pipeCopy root pi addr n.toNat 0 s >>= _) = _
    rw [hcopy]
    rfl
  have hle := hext.le
  have hlen : ((unread (s.pipe pi)).take r).length = r := List.length_take_of_le (by omega)
  have hpages : (∀ q < min n.toNat (unread (s.pipe pi)).length, UserPage f ((addr + q) / PGSIZE)) ↔ res = 0 := by
    rw [hext.eq_zero_iff]
    constructor
    · intro hall j hj
      obtain ⟨q, hq, rfl⟩ := covers_iff.mp hj
      exact h.addrOf_ne_zero.mpr (hall q hq)
    · exact fun hall q hq => h.addrOf_ne_zero.mp (hall _ (covers_iff.mpr ⟨q, hq, rfl⟩))
  rw [hpages]
  constructor
  · intro hc
    by_contra hres
    have hcount := hc.count
    rw [hpipe, if_neg hres] at hcount
    have hcount : (s.pipe pi).nread + BitVec.ofNat 32 (r + 1) = (s.pipe pi).nread + BitVec.ofInt 32 r := hcount
    rw [BitVec.add_right_inj, BitVec.ofInt_natCast] at hcount
    have := congrArg BitVec.toNat hcount
    simp only [BitVec.toNat_ofNat] at this
    omega
  · intro hres
    refine ⟨?_, ?_⟩
    · rw [hpipe, if_pos hres, BitVec.ofInt_natCast]
      rfl
    · have := hst.chars
      rw [hlen] at this
      exact this

def sevenInPipe (k : Kmem) : State where
  k := k
  fs := Fs.oneFile 2 (fun _ => 97) none
  pipe := fun _ => ⟨fun _ => 7, 0, 1, true⟩
  cons := ⟨fun _ => 0, 0, 0⟩

/-- A process that has no page at address 0 reads a byte there: the call returns 0, and the byte is gone. -/
theorem piperead_loses : ∃ s', piperead KERNBASE 0 0 1 [] (sevenInPipe smallMem) = .ok (0, s') ∧
      unread ((sevenInPipe smallMem).pipe 0) = [7] ∧ (s'.pipe 0).nread = 1 ∧ unread (s'.pipe 0) = [] := by
  decide +kernel

theorem piperead_consumes_onePage :
    ∃ k T, ProcTable k.mem (KERNBASE + 0x10000) T (onePte (PTE_R ||| PTE_W ||| PTE_U)) ∧
      ∃ r s', piperead (KERNBASE + 0x10000) 0 100 5 [] (sevenInPipe k) = .ok (r, s') ∧
        Consumes (onePte (PTE_R ||| PTE_W ||| PTE_U)) 100 0 (sevenInPipe k) s' r := by
  obtain ⟨-, k, T, -, -, h⟩ := procTable_onePage
  obtain ⟨r, s', he, -, hiff⟩ := piperead_consumes_iff (KERNBASE + 0x10000) 0 100 5 [] (sevenInPipe k) (sevenInPipe k) T _
    (by decide) rfl h
  refine ⟨k, T, h, r, s', he, hiff.mpr fun q hq => ?_⟩
  have hsize : Fifo.size (0 : BitVec 32) 1 = 1 := by decide
  have hlen : (unread ((sevenInPipe k).pipe 0)).length = 1 := Fifo.length_queue.trans hsize
  rw [hlen] at hq
  rw [show (100 + q) / PGSIZE = 0 by simp only [PGSIZE]; omega]
  exact userPage_onePte

end Read
end Xv6
