import Xv6.Lib.Fifo
import Xv6.Lib.Trans

/-!
# Xv6.Uart.Ring

The transmit buffer of `kernel/uart.c`: `uartputc`, `uartstart` and the output half of `uartintr`, by any processes in any
interleaving. Whether the device is idle is chosen at each look at it.

* `step`: one statement, or a few that only the holder of `uart_tx_lock` can observe.
* `Inv`, `inv_step`: the ring holds what was accepted and not sent, and those who sleep find it full.
* `uart_fifo`: so it is in every run.
-/

namespace Xv6
namespace Uart

open Function

abbrev UART_TX_BUF_SIZE : Nat := 32

/-- Where a process is: before `acquire` of `uartputc` or `uartintr`; with the lock, at `if(panicked)`, at the test of the
loop or in `uartstart`; in `sleep`, or woken up and about to acquire the lock again. -/
inductive Pc
  | idle
  | putc (c : UInt8)
  | intr
  | check (c : UInt8)
  | test (c : UInt8)
  | start
  | asleep (c : UInt8)
  | woken (c : UInt8)
  deriving DecidableEq

/-- The process has `uart_tx_lock`. -/
def Pc.holds : Pc → Bool
  | .check _ | .test _ | .start => true
  | _ => false

/-- `wakeup(&uart_tx_r)` -/
def Pc.wakeup : Pc → Pc
  | .asleep c => .woken c
  | x => x

/-- `thr` are the bytes that `uartstart` has written to THR. Not in the source: `accepted` are those that `uartputc` has put
into the ring. -/
structure State (P : Type*) where
  buf : Nat → UInt8
  w : BitVec 64
  r : BitVec 64
  lock : Option P
  panicked : Bool
  pc : P → Pc
  accepted : List UInt8
  thr : List UInt8

inductive Event (P : Type*)
  | uartputc (p : P) (c : UInt8)
  | uartintr (p : P)
  | acquire (p : P)
  | go (p : P) (idle : Bool)
  | panic

variable {P : Type*}

section

variable [DecidableEq P]

def State.goto (s : State P) (p : P) (x : Pc) : State P := { s with pc := update s.pc p x }

/-- The next statements of a process with the lock; a turn of the loop of `uartstart` is one step. `idle` is what the
process sees if it reads LSR. -/
def advance (s : State P) (p : P) (idle : Bool) : Option (State P) :=
  match s.pc p with
  | .check c => if s.panicked then none else some (s.goto p (.test c))
  | .test c =>
    if s.w = s.r + BitVec.ofNat 64 UART_TX_BUF_SIZE then some { s.goto p (.asleep c) with lock := none }
    else some { s.goto p .start with
      buf := update s.buf (s.w.toNat % UART_TX_BUF_SIZE) c, w := s.w + 1, accepted := s.accepted ++ [c] }
  | .start =>
    if s.w = s.r then some { s.goto p .idle with lock := none }
    else if !idle then some { s.goto p .idle with lock := none }
    else some { s with
      r := s.r + 1, pc := fun q => (s.pc q).wakeup, thr := s.thr ++ [s.buf (s.r.toNat % UART_TX_BUF_SIZE)] }
  | _ => none

def step (s : State P) : Event P → Option (State P)
  | .uartputc p c => if s.pc p = .idle then some (s.goto p (.putc c)) else none
  | .uartintr p => if s.pc p = .idle then some (s.goto p .intr) else none
  | .acquire p =>
    if s.lock ≠ none then none
    else
      match s.pc p with
      | .putc c => some { s.goto p (.check c) with lock := some p }
      | .intr => some { s.goto p .start with lock := some p }
      | .woken c => some { s.goto p (.test c) with lock := some p }
      | _ => none
  | .go p idle => advance s p idle
  | .panic => some { s with panicked := true }

end

def boot : State P where
  buf _ := 0
  w := 0
  r := 0
  lock := none
  panicked := false
  pc _ := .idle
  accepted := []
  thr := []

/-- The bytes in the ring, oldest first. -/
def State.ring (s : State P) : List UInt8 := Fifo.queue UART_TX_BUF_SIZE s.buf s.r s.w

/-- `uart_tx_w - uart_tx_r` -/
def State.count (s : State P) : Nat := Fifo.size s.r s.w

structure Inv (s : State P) : Prop where
  lock : ∀ p, s.lock = some p ↔ (s.pc p).holds = true
  count : s.count ≤ UART_TX_BUF_SIZE
  fifo : s.thr ++ s.ring = s.accepted
  full : ∀ p c, s.pc p = .asleep c → s.count = UART_TX_BUF_SIZE

theorem holds_wakeup (x : Pc) : x.wakeup.holds = x.holds := by cases x <;> rfl

theorem wakeup_ne_asleep (x : Pc) (c : UInt8) : x.wakeup ≠ .asleep c := by cases x <;> simp [Pc.wakeup]

theorem size_dvd : UART_TX_BUF_SIZE ∣ 2 ^ 64 := ⟨2 ^ 59, by decide⟩

theorem inv_boot : Inv (boot : State P) := by
  have h0 : Fifo.size (0 : BitVec 64) 0 = 0 := Fifo.size_eq_zero.mpr rfl
  refine ⟨fun _ => ⟨by rintro ⟨⟩, by rintro ⟨⟩⟩, h0.trans_le (Nat.zero_le _), ?_, by simp [boot]⟩
  show [] ++ Fifo.queue _ _ (0 : BitVec 64) 0 = []
  rw [Fifo.queue, h0]
  rfl

variable {s s' : State P} {p : P}

/-- A byte leaves the ring, and all who sleep are woken up. -/
theorem Inv.pop (h : Inv s) (hw : s.w ≠ s.r) : Inv { s with
    r := s.r + 1, pc := fun q => (s.pc q).wakeup, thr := s.thr ++ [s.buf (s.r.toNat % UART_TX_BUF_SIZE)] } := by
  have hpos : 0 < Fifo.size s.r s.w := Nat.pos_of_ne_zero fun h0 => hw (Fifo.size_eq_zero.mp h0).symm
  refine ⟨fun q => ?_, ?_, ?_, fun q c hq => absurd hq (wakeup_ne_asleep _ c)⟩
  · show s.lock = some q ↔ (s.pc q).wakeup.holds = true
    rw [holds_wakeup, h.lock q]
  · show Fifo.size (s.r + 1) s.w ≤ _
    rw [Fifo.size_pop hpos]
    exact (Nat.sub_le ..).trans h.count
  · show s.thr ++ [_] ++ Fifo.queue _ s.buf (s.r + 1) s.w = s.accepted
    rw [List.append_assoc, List.singleton_append, ← Fifo.queue_pop size_dvd hpos, ← h.fifo]
    rfl

variable [DecidableEq P]

/-- A process moves on. The lock stays with the others as it is, and the ring keeps a process asleep only if it is
full. -/
theorem Inv.move (h : Inv s) {x : Pc} (hpc : s'.pc = update s.pc p x)
    (hlock : ∀ q, q ≠ p → (s'.lock = some q ↔ s.lock = some q)) (hp : s'.lock = some p ↔ x.holds = true)
    (hcount : s'.count ≤ UART_TX_BUF_SIZE) (hfifo : s'.thr ++ s'.ring = s'.accepted)
    (hfull : ∀ c, x = .asleep c → s'.count = UART_TX_BUF_SIZE)
    (hothers : s.count = UART_TX_BUF_SIZE → s'.count = UART_TX_BUF_SIZE) : Inv s' := by
  refine ⟨fun q => ?_, hcount, hfifo, fun q c hq => ?_⟩
  · by_cases hqp : q = p
    · rw [hqp, hpc, update_self, hp]
    · rw [hpc, update_of_ne hqp, hlock q hqp, h.lock q]
  · by_cases hqp : q = p
    · rw [hqp, hpc, update_self] at hq
      exact hfull c hq
    · rw [hpc, update_of_ne hqp] at hq
      exact hothers (h.full q c hq)

/-- Nothing changes but where a process is and whether it has the lock. -/
theorem Inv.quiet (h : Inv s) {x : Pc} {lock : Option P} (hlock : ∀ q, q ≠ p → (lock = some q ↔ s.lock = some q))
    (hp : lock = some p ↔ x.holds = true) (hfull : ∀ c, x = .asleep c → s.count = UART_TX_BUF_SIZE) :
    Inv { s.goto p x with lock := lock } :=
  h.move rfl hlock hp h.count h.fifo hfull id

/-- A process moves on without taking or giving up the lock. -/
theorem Inv.goto (h : Inv s) {x : Pc} (hx : x.holds = (s.pc p).holds) (hne : ∀ c, x ≠ .asleep c) : Inv (s.goto p x) :=
  h.move rfl (fun _ _ => Iff.rfl) (by rw [hx]; exact h.lock p) h.count h.fifo (fun c hc => absurd hc (hne c)) id

theorem Inv.release (h : Inv s) {x : Pc} (h0 : (s.pc p).holds = true) (hx : x.holds = false)
    (hfull : ∀ c, x = .asleep c → s.count = UART_TX_BUF_SIZE) : Inv { s.goto p x with lock := none } := by
  refine h.quiet (fun q hq => ?_) ⟨by rintro ⟨⟩, fun hx' => absurd hx' (by rw [hx]; decide)⟩ hfull
  rw [(h.lock p).mpr h0]
  exact ⟨by rintro ⟨⟩, fun he => absurd (Option.some.inj he).symm hq⟩

theorem Inv.acquire (h : Inv s) {x : Pc} (h0 : s.lock = none) (hx : x.holds = true) :
    Inv { s.goto p x with lock := some p } := by
  refine h.quiet (fun q hq => ?_) ⟨fun _ => hx, fun _ => rfl⟩ fun c hc => by rw [hc] at hx; cases hx
  rw [h0]
  exact ⟨fun he => absurd (Option.some.inj he).symm hq, by rintro ⟨⟩⟩

/-- A byte is put into a ring that is not full. Nobody sleeps then. -/
theorem Inv.push (h : Inv s) {c : UInt8} (h0 : (s.pc p).holds = true)
    (hw : s.w ≠ s.r + BitVec.ofNat 64 UART_TX_BUF_SIZE) : Inv { s.goto p .start with
      buf := update s.buf (s.w.toNat % UART_TX_BUF_SIZE) c, w := s.w + 1, accepted := s.accepted ++ [c] } := by
  have hlt : Fifo.size s.r s.w < UART_TX_BUF_SIZE :=
    Nat.lt_of_le_of_ne h.count fun he => hw ((Fifo.size_eq (by decide)).mp he)
  refine h.move (x := .start) rfl (fun _ _ => Iff.rfl) ((h.lock p).trans (by rw [h0]; rfl)) ?_ ?_ (by simp) fun he => ?_
  · show Fifo.size s.r (s.w + 1) ≤ _
    rw [Fifo.size_push (by simp only [UART_TX_BUF_SIZE] at hlt; omega)]
    exact hlt
  · show s.thr ++ Fifo.queue _ _ s.r (s.w + 1) = s.accepted ++ [c]
    rw [Fifo.queue_push size_dvd c (by decide) hlt, ← List.append_assoc, ← h.fifo]
    rfl
  · exact absurd he (Nat.ne_of_lt hlt)

theorem inv_advance {idle : Bool} (h : Inv s) (hs : advance s p idle = some s') : Inv s' := by
  unfold advance at hs
  cases hp : s.pc p with
  | check c =>
    rw [hp] at hs
    dsimp only at hs
    split at hs <;> cases hs
    exact h.goto (by rw [hp]; rfl) (by simp)
  | test c =>
    rw [hp] at hs
    dsimp only at hs
    split at hs <;> cases hs
    · rename_i hw
      exact h.release (by rw [hp]; rfl) rfl fun _ _ => (Fifo.size_eq (by decide)).mpr hw
    · rename_i hw
      exact h.push (by rw [hp]; rfl) hw
  | start =>
    rw [hp] at hs
    dsimp only at hs
    split at hs
    · cases hs
      exact h.release (by rw [hp]; rfl) rfl (by simp)
    · rename_i hw
      split at hs <;> cases hs
      · exact h.release (by rw [hp]; rfl) rfl (by simp)
      · exact h.pop hw
  | _ =>
    rw [hp] at hs
    cases hs

theorem inv_step {e : Event P} (h : Inv s) (hs : step s e = some s') : Inv s' := by
  cases e with
  | uartputc p c =>
    rw [step] at hs
    split at hs <;> cases hs
    rename_i hp
    exact h.goto (by rw [hp]; rfl) (by simp)
  | uartintr p =>
    rw [step] at hs
    split at hs <;> cases hs
    rename_i hp
    exact h.goto (by rw [hp]; rfl) (by simp)
  | acquire p =>
    rw [step] at hs
    split at hs
    · cases hs
    rename_i hl
    cases hp : s.pc p <;> rw [hp] at hs <;> cases hs <;> exact h.acquire (not_not.mp hl) rfl
  | go p idle => exact inv_advance h hs
  | panic =>
    cases hs
    exact ⟨h.lock, h.count, h.fifo, h.full⟩

theorem thr_advance (hs : advance s p false = some s') : s'.thr = s.thr := by
  unfold advance at hs
  cases hp : s.pc p <;> rw [hp] at hs <;> dsimp only at hs <;> (repeat' split at hs) <;> cases hs <;>
    first | rfl | contradiction

theorem thr_step {e : Event P} (hs : step s e = some s') (h : s'.thr ≠ s.thr) : ∃ p, e = .go p true := by
  cases e with
  | uartputc p c =>
    rw [step] at hs
    split at hs <;> cases hs
    exact absurd rfl h
  | uartintr p =>
    rw [step] at hs
    split at hs <;> cases hs
    exact absurd rfl h
  | acquire p =>
    rw [step] at hs
    split at hs
    · cases hs
    cases hp : s.pc p <;> rw [hp] at hs <;> cases hs <;> exact absurd rfl h
  | go p idle =>
    cases idle with
    | true => exact ⟨p, rfl⟩
    | false => exact absurd (thr_advance hs) h
  | panic =>
    cases hs
    exact absurd rfl h

/-- In every run of writers and interrupts: the ring is never over its size, what was written to THR and what is in the
ring are the bytes accepted, in order, THR is written only by a process that has seen LSR_TX_IDLE, and who sleeps
while the lock is free finds the ring full. -/
theorem uart_fifo {es : List (Event P)} (hrun : Trans.run step boot es = some s) :
    s.count ≤ UART_TX_BUF_SIZE ∧ s.thr ++ s.ring = s.accepted ∧
      (∀ e s', step s e = some s' → s'.thr ≠ s.thr → ∃ p, e = .go p true) ∧
      (s.lock = none → ∀ p c, s.pc p = .asleep c → s.w = s.r + BitVec.ofNat 64 UART_TX_BUF_SIZE) := by
  have h : Inv s := Trans.run_inv (fun _ _ _ => inv_step) inv_boot hrun
  exact ⟨h.count, h.fifo, fun _ _ => thr_step, fun _ p c hp => (Fifo.size_eq (by decide)).mp (h.full p c hp)⟩

/-- The device takes one of two bytes. -/
def twoBytes : List (Event Unit) :=
  [.uartputc () 97, .acquire (), .go () false, .go () false, .go () false, .uartputc () 98, .acquire (), .go () false,
    .go () false, .go () true, .go () false]

theorem uart_fifo_twoBytes : ∃ s : State Unit, Trans.run step boot twoBytes = some s ∧ s.accepted = [97, 98] ∧
    s.thr ++ s.ring = [97, 98] ∧ s.thr = [97] := by
  obtain ⟨s, hr, h1, h2⟩ : ∃ s ∈ Trans.run step (boot : State Unit) twoBytes, s.accepted = [97, 98] ∧ s.thr = [97] := by
    decide +kernel
  exact ⟨s, hr, h1, (uart_fifo hr).2.1.trans h1, h2⟩

end Uart
end Xv6
