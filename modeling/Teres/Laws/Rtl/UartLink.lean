import Teres.Laws.Rtl.UartTx

/-!
# A transmitter and a receiver on one wire

The receiver has no clock of its own here, so its state is a function of the age of the frame on
the wire, as the transmitter's is. `Hearing` is that function: two cycles of edge detector, half a
bit of waiting, then nine whole bits of which it samples the last cycle. Every sample falls into
the bit it is meant for because the offset of the sampling point, half a bit and two cycles, stays
below a bit from a period of four cycles on (`sample_inside`).

`hearing_step` moves the function by one cycle, `Conversing` joins it with the transmitter's own
account of frames and with the bytes received so far, and `link_delivers` is what follows: the
bytes presented are the bytes strobed, each presented once.
-/

namespace Teres.Rtl.Uart

variable {period : BitVec 17}

/-! ## One cycle of the receiver -/

theorem half_toNat (period : BitVec 17) : (half period).toNat = period.toNat / 2 := by
  have := period.isLt
  simp only [half, BitVec.toNat_append, BitVec.toNat_ofNat, BitVec.extractLsb'_toNat,
    Nat.zero_mod, Nat.zero_shiftLeft, Nat.zero_or, Nat.shiftRight_one]
  omega

section Next

variable (r : Rx) {i : In} (rst : i.iRst = false)
include rst

theorem Rx.next_inState : (r.next period i).inState = (r.advance period i.iInPin).inState := by
  simp only [Rx.next, rst, Bool.false_eq_true, ↓reduceIte]
  split <;> rfl

theorem Rx.next_inCnt : (r.next period i).inCnt = (r.advance period i.iInPin).inCnt := by
  simp only [Rx.next, rst, Bool.false_eq_true, ↓reduceIte]
  split <;> rfl

theorem Rx.next_inShift : (r.next period i).inShift = (r.advance period i.iInPin).inShift := by
  simp only [Rx.next, rst, Bool.false_eq_true, ↓reduceIte]
  split <;> rfl

theorem Rx.next_inP0 : (r.next period i).inP0 = i.iInPin := by
  simp only [Rx.next, rst, Bool.false_eq_true, ↓reduceIte]
  unfold Rx.advance
  split_ifs <;> rfl

theorem Rx.next_inP1 : (r.next period i).inP1 = r.inP0 := by
  simp only [Rx.next, rst, Bool.false_eq_true, ↓reduceIte]
  unfold Rx.advance
  split_ifs <;> rfl

end Next

/-- No falling edge seen, the receiver stays idle. -/
theorem advance_idle {r : Rx} (idle : r.inState = 0#4) (flat : r.inP0 = true ∨ r.inP1 = false)
    (pin : Bool) : (r.advance period pin).inState = 0#4 := by
  have edge : (!r.inP0 && r.inP1) = false := by
    rcases flat with h | h <;> simp [h]
  simp [Rx.advance, idle, edge]

/-- A falling edge starts the wait for the middle of the start bit. -/
theorem advance_fall {r : Rx} (idle : r.inState = 0#4) (p0 : r.inP0 = false)
    (p1 : r.inP1 = true) (pin : Bool) : (r.advance period pin).inState = 1#4 ∧
      (r.advance period pin).inCnt = 0#17 := by
  simp [Rx.advance, idle, p0, p1]

/-- The wait runs on while the line is low. -/
theorem advance_wait {r : Rx} (start : r.inState = 1#4) (early : r.inCnt ≠ half period) :
    (r.advance period false).inState = 1#4 ∧
      (r.advance period false).inCnt = r.inCnt + 1#17 := by
  simp [Rx.advance, start, early]

/-- A line still low at the end of the wait starts the first data bit. -/
theorem advance_begin {r : Rx} (start : r.inState = 1#4) (late : r.inCnt = half period) :
    (r.advance period false).inState = 2#4 ∧ (r.advance period false).inCnt = 0#17 := by
  simp [Rx.advance, start, late]

/-- Inside a bit nothing is sampled. -/
theorem advance_inside {r : Rx} (busy : 2 ≤ r.inState.toNat) (early : r.inCnt ≠ period)
    (pin : Bool) : (r.advance period pin).inState = r.inState ∧
      (r.advance period pin).inCnt = r.inCnt + 1#17 ∧
      (r.advance period pin).inShift = r.inShift := by
  have one : r.inState ≠ 1#4 := fun h => by rw [h] at busy; exact absurd busy (by decide)
  have zero : r.inState ≠ 0#4 := fun h => by rw [h] at busy; exact absurd busy (by decide)
  by_cases ten : r.inState = 10#4 <;> simp [Rx.advance, early, one, zero, ten]

/-- The last cycle of a data bit samples it into the top of the shift register. -/
theorem advance_sample {r : Rx} (busy : 2 ≤ r.inState.toNat) (data : r.inState ≠ 10#4)
    (last : r.inCnt = period) (pin : Bool) :
    (r.advance period pin).inState = r.inState + 1#4 ∧
      (r.advance period pin).inCnt = 0#17 ∧
      (r.advance period pin).inShift = BitVec.ofBool pin ++ r.inShift.extractLsb' 1 7 := by
  have one : r.inState ≠ 1#4 := fun h => by rw [h] at busy; exact absurd busy (by decide)
  have zero : r.inState ≠ 0#4 := fun h => by rw [h] at busy; exact absurd busy (by decide)
  simp [Rx.advance, last, one, zero, data]

/-- The last cycle of the stop bit makes the receiver idle. -/
theorem advance_stop {r : Rx} (stop : r.inState = 10#4) (last : r.inCnt = period) (pin : Bool) :
    (r.advance period pin).inState = 0#4 := by
  cases pin <;> simp [Rx.advance, stop, last]

/-! ## One frame as the receiver hears it -/

/-- The cycles from the strobe to the first data bit's count: the edge on the wire, the two stages
of the edge detector, and half a bit. -/
def lead (period : BitVec 17) : ℕ := 4 + period.toNat / 2

/-- **The sampling point is inside the bit**, from a period of four on: a bit counted from `lead`
ends in the same bit of the wire. -/
theorem sample_inside (four : 4 ≤ period.toNat) {b : BitVec 8} {j k : ℕ}
    (last : k = j * bitTime period + period.toNat) :
    linePin period b (lead period + k) = frameBit b (j + 1) := by
  have offset : lead period + k - 1 = (j + 1) * bitTime period + (period.toNat / 2 + 2) := by
    rw [last, lead, Nat.succ_mul, bitTime]
    omega
  have inside : period.toNat / 2 + 2 < bitTime period := by rw [bitTime]; omega
  have later : lead period + k ≠ 0 := by rw [lead]; omega
  rw [linePin, if_neg later, offset, Ticks.div_eq inside]

/-- The line is low while the receiver waits for the middle of the start bit. -/
theorem wait_low (four : 4 ≤ period.toNat) {b : BitVec 8} {e : ℕ} (low : 1 ≤ e)
    (high : e < lead period) : linePin period b e = false := by
  have inside : (e - 1) / bitTime period = 0 :=
    Nat.div_eq_of_lt (by rw [lead] at high; rw [bitTime]; omega)
  rw [linePin, if_neg (by omega), inside]
  rfl

/-- The line is high once the stop bit has been sampled. -/
theorem tail_high (four : 4 ≤ period.toNat) {b : BitVec 8} {e : ℕ}
    (late : lead period + 9 * bitTime period ≤ e + 2) : linePin period b e = true := by
  have nine : 9 ≤ (e - 1) / bitTime period :=
    (Nat.le_div_iff_mul_le (bitTime_pos period)).mpr (by rw [lead] at late; omega)
  rw [linePin]
  split_ifs
  · rfl
  · exact frameBit_stop b nine

/-- A receiver `e` cycles after the sender took the byte `b`. -/
structure Hearing (period : BitVec 17) (b : BitVec 8) (e : ℕ) (r : Rx) : Prop where
  p0 : r.inP0 = linePin period b (e - 1)
  p1 : 1 ≤ e → r.inP1 = linePin period b (e - 2)
  idle : e ≤ 2 → r.inState = 0#4
  start : 3 ≤ e → e < lead period → r.inState = 1#4 ∧ r.inCnt.toNat = e - 3
  bits : ∀ k, e = lead period + k → k < 9 * bitTime period →
    r.inState.toNat = 2 + k / bitTime period ∧ r.inCnt.toNat = k % bitTime period ∧
      ∀ i < k / bitTime period, r.inShift.getLsbD (8 - k / bitTime period + i) = b.getLsbD i
  done : lead period + 9 * bitTime period ≤ e → r.inState = 0#4

theorem linePin_zero (period : BitVec 17) (b : BitVec 8) : linePin period b 0 = true := rfl

/-- The state of the bit being counted is at most ten, the stop bit's. -/
theorem bit_div_lt {k : ℕ} (h : k < 9 * bitTime period) : k / bitTime period < 9 :=
  (Nat.div_lt_iff_lt_mul (bitTime_pos period)).mpr h

/-- A sampled bit goes to the top of the shift register, and the bits before it move down. -/
theorem sampled_bits {s : BitVec 8} {b : BitVec 8} {j : ℕ} (hj : j < 8) {pin : Bool}
    (bit : pin = frameBit b (j + 1)) (before : ∀ i < j, s.getLsbD (8 - j + i) = b.getLsbD i) :
    ∀ i < j + 1, (BitVec.ofBool pin ++ s.extractLsb' 1 7).getLsbD (8 - (j + 1) + i) =
      b.getLsbD i := by
  intro i hi
  rw [BitVec.getLsbD_append, BitVec.getLsbD_extractLsb']
  rcases Nat.lt_succ_iff_lt_or_eq.mp hi with old | rfl
  · have low : 8 - (j + 1) + i < 7 := by omega
    have place : 1 + (8 - (j + 1) + i) = 8 - j + i := by omega
    simp only [low, ↓reduceIte, decide_true, Bool.true_and, place, before i old]
  · have top : 8 - (i + 1) + i = 7 := by omega
    have data : i + 1 ≤ 8 := by omega
    simp only [top, Nat.lt_irrefl, ↓reduceIte, Nat.sub_self, BitVec.getLsbD_ofBool, decide_true,
      Bool.true_and, bit, frameBit, Nat.succ_ne_zero, data, Nat.add_sub_cancel]

/-- The bits part of `hearing_step`: inside a data bit, or at its sample. -/
theorem hearing_bits (four : 4 ≤ period.toNat) {b : BitVec 8} {k : ℕ} {r : Rx}
    (h : Hearing period b (lead period + k) r) {i : In} (rst : i.iRst = false)
    (wire : i.iInPin = linePin period b (lead period + k)) (more : k + 1 < 9 * bitTime period) :
    (r.next period i).inState.toNat = 2 + (k + 1) / bitTime period ∧
      (r.next period i).inCnt.toNat = (k + 1) % bitTime period ∧
        ∀ m < (k + 1) / bitTime period,
          (r.next period i).inShift.getLsbD (8 - (k + 1) / bitTime period + m) = b.getLsbD m := by
  obtain ⟨state, cnt, bits⟩ := h.bits k rfl (Nat.lt_of_succ_lt more)
  have fast := Ticks.mod_succ_le (e := k) (bitTime_pos period)
  have busy : 2 ≤ r.inState.toNat := by rw [state]; exact Nat.le_add_right 2 _
  have upper := period.isLt
  rw [r.next_inState rst, r.next_inCnt rst, r.next_inShift rst]
  by_cases last : k % bitTime period + 1 = bitTime period
  · obtain ⟨div, mod⟩ := Ticks.last last
    have small := bit_div_lt more
    rw [div] at small
    have data : r.inState ≠ 10#4 := fun ten => by
      rw [ten] at state
      have stop : k / bitTime period = 8 := (Nat.add_left_cancel (n := 2) state).symm
      rw [stop] at small
      exact absurd small (Nat.lt_irrefl 9)
    have top : k % bitTime period = period.toNat := Nat.succ.inj last
    have full : r.inCnt = period := BitVec.eq_of_toNat_eq (cnt.trans top)
    have bit : i.iInPin = frameBit b (k / bitTime period + 1) := by
      rw [wire]
      refine sample_inside four ?_
      rw [← top, Nat.mul_comm]
      exact (Nat.div_add_mod k (bitTime period)).symm
    obtain ⟨s, c, sh⟩ := advance_sample busy data full i.iInPin
    rw [s, c, sh, div, mod]
    refine ⟨?_, rfl, sampled_bits (by omega) bit bits⟩
    rw [BitVec.toNat_add, state, BitVec.toNat_ofNat]
    omega
  · obtain ⟨div, mod⟩ := Ticks.inner (lt_of_le_of_ne fast last)
    have early : r.inCnt ≠ period := fun full => by
      rw [full] at cnt
      rw [bitTime] at last cnt
      omega
    obtain ⟨s, c, sh⟩ := advance_inside busy early i.iInPin
    rw [s, c, sh, div, mod]
    refine ⟨state, ?_, bits⟩
    rw [BitVec.toNat_add, cnt, BitVec.toNat_ofNat]
    rw [bitTime] at last fast ⊢
    omega

/-- The receiver's registers at the last cycle of the stop bit. -/
theorem hearing_last {b : BitVec 8} {e : ℕ} {r : Rx} (h : Hearing period b e r)
    (last : e + 1 = lead period + 9 * bitTime period) :
    r.inState = 10#4 ∧ r.inCnt = period ∧ r.inShift = b := by
  have pos := bitTime_pos period
  have inside : bitTime period - 1 < bitTime period := Nat.sub_lt pos Nat.one_pos
  obtain ⟨state, cnt, bits⟩ :=
    h.bits (8 * bitTime period + (bitTime period - 1)) (by omega) (by omega)
  rw [Ticks.div_eq inside] at state bits
  rw [Ticks.mod_eq inside, bitTime, Nat.add_sub_cancel] at cnt
  refine ⟨BitVec.eq_of_toNat_eq state, BitVec.eq_of_toNat_eq cnt, ?_⟩
  apply BitVec.eq_of_getLsbD_eq
  intro i hi
  simpa using bits i hi

/-- **The receiver follows the frame**: one cycle later it is one cycle older, whatever its bus
does. -/
theorem hearing_step (four : 4 ≤ period.toNat) {b : BitVec 8} {e : ℕ} {r : Rx}
    (h : Hearing period b e r) {i : In} (rst : i.iRst = false)
    (wire : i.iInPin = linePin period b e) : Hearing period b (e + 1) (r.next period i) := by
  have upper := period.isLt
  have halfNat := half_toNat period
  refine ⟨?p0, fun _ => ?p1, fun early => ?idle, fun low high => ?start, fun k age more => ?bits,
    fun late => ?done⟩
  case p0 => rw [r.next_inP0 rst, wire, Nat.add_sub_cancel]
  case p1 => rw [r.next_inP1 rst, h.p0]; rfl
  case idle =>
    rw [r.next_inState rst]
    refine advance_idle (h.idle (by omega)) (.inl ?_) _
    rw [h.p0, Nat.sub_eq_zero_of_le (by omega), linePin_zero]
  case start =>
    rw [r.next_inState rst, r.next_inCnt rst]
    rcases Nat.lt_or_ge e 3 with edge | waiting
    · have two : e = 2 := by omega
      subst two
      have p0 : r.inP0 = false := by rw [h.p0]; exact wait_low four le_rfl (by rw [lead]; omega)
      have p1 : r.inP1 = true := by rw [h.p1 (by omega)]; rfl
      obtain ⟨s, c⟩ := advance_fall (h.idle le_rfl) p0 p1 i.iInPin
      exact ⟨s, by rw [c]; rfl⟩
    · obtain ⟨state, cnt⟩ := h.start waiting (by omega)
      have low : i.iInPin = false := by rw [wire]; exact wait_low four (by omega) (by omega)
      have early : r.inCnt ≠ half period := fun late => by
        rw [late, halfNat] at cnt
        rw [lead] at high
        omega
      rw [low]
      obtain ⟨s, c⟩ := advance_wait state early
      refine ⟨s, ?_⟩
      rw [lead] at high
      rw [c, BitVec.toNat_add, cnt, BitVec.toNat_ofNat]
      omega
  case bits =>
    cases k with
    | zero =>
      rw [lead] at age
      obtain ⟨state, cnt⟩ := h.start (by omega) (by rw [lead]; omega)
      have low : i.iInPin = false := by
        rw [wire]; exact wait_low four (by omega) (by rw [lead]; omega)
      have late : r.inCnt = half period := BitVec.eq_of_toNat_eq (by rw [cnt, halfNat]; omega)
      rw [r.next_inState rst, r.next_inCnt rst, low]
      obtain ⟨s, c⟩ := advance_begin state late
      rw [s, c, Nat.zero_div, Nat.zero_mod]
      exact ⟨rfl, rfl, fun i hi => absurd hi (Nat.not_lt_zero i)⟩
    | succ k =>
      have age' : e = lead period + k := by omega
      subst age'
      exact hearing_bits four h rst wire more
  case done =>
    rw [r.next_inState rst]
    rcases Nat.lt_or_ge e (lead period + 9 * bitTime period) with last | after
    · obtain ⟨state, cnt, _⟩ := hearing_last h (by omega)
      exact advance_stop state cnt _
    · refine advance_idle (h.done after) (.inl ?_) _
      rw [h.p0]
      exact tail_high four (by omega)

/-! ## The bytes presented -/

/-- The byte presented at an edge: `O_dat` where `O_data_ready` rises. -/
def raised (r r' : Rx) : List (BitVec 8) :=
  if !r.oDataReady && r'.oDataReady then [r'.oDat] else []

/-- `O_data_ready` rises nowhere but at the last cycle of a stop bit. -/
theorem raised_none {r : Rx} {i : In} (rst : i.iRst = false)
    (elsewhere : ¬ (r.inState = 10#4 ∧ r.inCnt = period)) : raised r (r.next period i) = [] := by
  have same : (r.advance period i.iInPin).oDataReady = r.oDataReady := by
    unfold Rx.advance
    split_ifs with one late pin pin ten last <;> try rfl
    exact absurd ⟨ten, last⟩ elsewhere
  simp only [raised, Rx.next, rst, Bool.false_eq_true, ↓reduceIte]
  split <;> cases h : r.oDataReady <;> simp_all

/-- At the last cycle of a high stop bit the byte is presented, if the one before was cleared. -/
theorem raised_byte {r : Rx} {i : In} (rst : i.iRst = false) (state : r.inState = 10#4)
    (last : r.inCnt = period) (pin : i.iInPin = true) (clear : r.oDataReady = false) :
    raised r (r.next period i) = [r.inShift] := by
  simp [raised, Rx.next, Rx.advance, rst, state, last, pin, clear]

/-- Elsewhere in a frame the receiver is not at the last cycle of a stop bit. -/
theorem hearing_elsewhere {b : BitVec 8} {e : ℕ} {r : Rx} (h : Hearing period b e r)
    (elsewhere : e + 1 ≠ lead period + 9 * bitTime period) :
    ¬ (r.inState = 10#4 ∧ r.inCnt = period) := by
  rintro ⟨ten, last⟩
  rcases Nat.lt_or_ge e 3 with edge | waiting
  · have idle := h.idle (Nat.le_of_lt_succ edge)
    exact absurd (ten.symm.trans idle) (by decide)
  rcases Nat.lt_or_ge e (lead period) with start | bits
  · have one := (h.start waiting start).1
    exact absurd (ten.symm.trans one) (by decide)
  obtain ⟨k, rfl⟩ := Nat.exists_eq_add_of_le bits
  rcases Nat.lt_or_ge k (9 * bitTime period) with more | done
  · obtain ⟨state, cnt, _⟩ := h.bits k rfl more
    rw [ten] at state
    rw [last] at cnt
    have stop : k / bitTime period = 8 := (Nat.add_left_cancel (n := 2) state).symm
    have whole := Nat.div_add_mod k (bitTime period)
    rw [stop, ← cnt] at whole
    rw [bitTime] at elsewhere whole
    omega
  · have idle := h.done (Nat.add_le_add_left done _)
    exact absurd (ten.symm.trans idle) (by decide)

/-! ## The conversation -/

/-- What the receiver's pins see: its own bus and the sender's line. -/
def wired (s : Link) (i : In × In) : In := { i.2 with iInPin := s.sender.tx.oOutPin }

theorem Link.next_tx (s : Link) (i : In × In) :
    (Link.next period s i).sender.tx = s.sender.tx.next period i.1 := rfl

theorem Link.next_rx (s : Link) (i : In × In) :
    (Link.next period s i).receiver.rx = s.receiver.rx.next period (wired s i) := rfl

/-- The bytes taken by the sender before cycle `n`. -/
def bytesSent (input : ℕ → In × In) : ℕ → List (BitVec 8) :=
  Clocked.ledger fun n => ((input n).1.strobe).toList

/-- The bytes presented by the receiver before cycle `n`. -/
def bytesReceived (period : BitVec 17) (input : ℕ → In × In) : ℕ → List (BitVec 8) :=
  Clocked.ledger fun n => raised (links period input n).receiver.rx
    (links period input (n + 1)).receiver.rx

theorem bytesSent_succ (input : ℕ → In × In) (n : ℕ) :
    bytesSent input (n + 1) = bytesSent input n ++ ((input n).1.strobe).toList := rfl

theorem bytesReceived_succ (period : BitVec 17) (input : ℕ → In × In) (n : ℕ) :
    bytesReceived period input (n + 1) = bytesReceived period input n ++
      raised (links period input n).receiver.rx (links period input (n + 1)).receiver.rx := rfl

/-- What the two ends agree on before cycle `n`: between frames both are idle and everything sent is
received; during a frame both are at the same age of it, and its byte is received or not by that
age. -/
def Conversing (period : BitVec 17) (input : ℕ → In × In) (n : ℕ) (s : Link) : Prop :=
  (Resting s.sender.tx ∧ s.receiver.rx.inState = 0#4 ∧
      (s.receiver.rx.inP0 = true ∨ s.receiver.rx.inP1 = false) ∧
      bytesReceived period input n = bytesSent input n) ∨
    ∃ u b e, n = u + 1 + e ∧ Sending period b e s.sender.tx ∧ Hearing period b e s.receiver.rx ∧
      bytesSent input n = bytesSent input u ++ [b] ∧
      bytesReceived period input n =
        if e < lead period + 9 * bitTime period then bytesSent input u else bytesSent input n

/-- The frame is over for the receiver before it is over for the sender. -/
theorem lead_lt (four : 4 ≤ period.toNat) :
    lead period + 9 * bitTime period < 12 * bitTime period := by
  rw [lead, bitTime]
  omega

/-- A strobe between frames starts a frame for both ends. -/
theorem hearing_start {r : Rx} (idle : r.inState = 0#4) (flat : r.inP0 = true ∨ r.inP1 = false)
    {i : In} (rst : i.iRst = false) (pin : i.iInPin = true) (b : BitVec 8) :
    Hearing period b 0 (r.next period i) where
  p0 := by rw [r.next_inP0 rst, pin]; rfl
  p1 h := absurd h (Nat.not_succ_le_zero 0)
  idle _ := by rw [r.next_inState rst]; exact advance_idle idle flat _
  start h := absurd h (Nat.not_succ_le_zero 2)
  bits k h := by rw [lead] at h; omega
  done h := by rw [lead] at h; omega

section Run

variable {input : ℕ → In × In} (four : 4 ≤ period.toNat) (rst : ∀ n, (input n).1.iRst = false)
  (rst' : ∀ n, (input n).2.iRst = false)
  (taken : ∀ n, (input n).1.strobe.isSome = true →
    (links period input n).sender.tx.outState = 0#4)
  (cleared : ∀ n, (links period input n).receiver.rx.inState = 10#4 →
    (links period input n).receiver.rx.inCnt = period →
      (links period input n).receiver.rx.oDataReady = false)
include four rst rst' taken cleared

/-- **One cycle keeps the agreement.** -/
theorem conversing_step {n : ℕ} (c : Conversing period input n (links period input n)) :
    Conversing period input (n + 1) (links period input (n + 1)) := by
  have idle := taken n
  have clear := cleared n
  have held : (wired (links period input n) (input n)).iRst = false := rst' n
  have next : links period input (n + 1) = Link.next period (links period input n) (input n) := rfl
  unfold Conversing
  rw [bytesSent_succ, bytesReceived_succ, next, Link.next_tx, Link.next_rx]
  generalize links period input n = s at *
  rcases c with ⟨rest, state, flat, same⟩ | ⟨u, b, e, age, sending, hearing, sent, got⟩
  · have quiet : raised s.receiver.rx (s.receiver.rx.next period (wired s (input n))) = [] :=
      raised_none held fun h => absurd (h.1.symm.trans state) (by decide)
    have pin : (wired s (input n)).iInPin = true := rest.pin
    rw [quiet, List.append_nil]
    cases h : (input n).1.strobe with
    | none =>
      refine .inl ⟨resting_step rest (rst n) h, ?_, .inl ?_, ?_⟩
      · rw [Rx.next_inState _ held, advance_idle state flat]
      · rw [Rx.next_inP0 _ held, pin]
      · rw [same, Option.toList_none, List.append_nil]
    | some b =>
      refine .inr ⟨n, b, 0, rfl, sending_start rest (rst n) h, hearing_start state flat held pin b,
        rfl, ?_⟩
      have young : 0 < lead period + 9 * bitTime period := by rw [lead]; omega
      rw [if_pos young, same]
  · have silent : (input n).1.strobe = none := by
      cases h : (input n).1.strobe with
      | none => rfl
      | some b' => exact absurd (idle (by rw [h]; rfl)) sending.state_ne
    have older := hearing_step four hearing held sending.pin
    have got' : bytesReceived period input n ++
        raised s.receiver.rx (s.receiver.rx.next period (wired s (input n))) =
          if e + 1 < lead period + 9 * bitTime period then bytesSent input u
          else bytesSent input n := by
      by_cases last : e + 1 = lead period + 9 * bitTime period
      · obtain ⟨ten, full, byte⟩ := hearing_last hearing last
        have high : (wired s (input n)).iInPin = true :=
          sending.pin.trans (tail_high four (by omega))
        rw [raised_byte held ten full high (clear ten full), byte, got, if_pos (by omega),
          if_neg (by omega), sent]
      · rw [raised_none held (hearing_elsewhere hearing last), List.append_nil, got]
        split_ifs <;> first | rfl | omega
    rw [got', silent, Option.toList_none, List.append_nil]
    by_cases more : e + 1 < 12 * bitTime period
    · exact .inr ⟨u, b, e + 1, by omega, sending_step sending (rst n) more, older, sent, rfl⟩
    · have bound := sending.bound
      have ended := lead_lt four
      refine .inl ⟨sending_end sending (rst n) (by omega), older.done (by omega), .inl ?_,
        if_neg (by omega)⟩
      rw [older.p0, Nat.add_sub_cancel]
      exact tail_high four (by omega)

/-- The agreement holds before every cycle of a run from reset. -/
theorem conversing (n : ℕ) : Conversing period input n (links period input n) := by
  induction n with
  | zero => exact .inl ⟨⟨rfl, rfl⟩, rfl, .inr rfl, rfl⟩
  | succ n ih => exact conversing_step four rst rst' taken cleared ih

end Run

/-- **The receiver undoes the transmitter.** Two `uart`s of one period of at least four cycles, the
line of the first on the input of the second: if every strobe meets `out_state = 0` and every byte
is cleared before the next one completes, then the bytes presented before any cycle are a prefix of
the bytes strobed, and a byte is presented at most twelve bit times after its strobe. -/
theorem link_delivers (clockHz baudrate : ℕ)
    (four : 4 ≤ (Uart.period clockHz baudrate).toNat) (input : ℕ → In × In)
    (rst : ∀ n, (input n).1.iRst = false ∧ (input n).2.iRst = false)
    (taken : ∀ n, (input n).1.strobe.isSome = true →
      (links (Uart.period clockHz baudrate) input n).sender.tx.outState = 0#4)
    (cleared : ∀ n,
      let r := (links (Uart.period clockHz baudrate) input n).receiver.rx
      r.inState = 10#4 → r.inCnt = Uart.period clockHz baudrate → r.oDataReady = false) (n : ℕ) :
    bytesReceived (Uart.period clockHz baudrate) input n <+: bytesSent input n ∧
      ∀ m, m + 12 * bitTime (Uart.period clockHz baudrate) ≤ n →
        bytesSent input m <+: bytesReceived (Uart.period clockHz baudrate) input n := by
  have ended := lead_lt four
  rcases conversing four (fun n => (rst n).1) (fun n => (rst n).2) taken cleared n with
    ⟨_, _, _, same⟩ | ⟨u, b, e, age, sending, _, sent, got⟩
  · rw [same]
    exact ⟨List.prefix_rfl, fun m hm => Clocked.ledger_prefix _ (by omega)⟩
  · have bound := sending.bound
    rw [got]
    split_ifs
    · refine ⟨by rw [sent]; exact List.prefix_append _ _, fun m hm => ?_⟩
      exact Clocked.ledger_prefix _ (by omega)
    · exact ⟨List.prefix_rfl, fun m hm => Clocked.ledger_prefix _ (by omega)⟩

/-- A consumer that reads in a cycle leaves at most the byte that completes in it. -/
theorem eager_next {period : BitVec 17} (r : Rx) {i : In} (rst : i.iRst = false)
    (reads : (i.iStb && !i.iWe) = true) (ready' : (r.next period i).oDataReady = true) :
    (r.next period i).inState = 0#4 := by
  revert ready'
  simp only [Rx.next, rst, reads, Bool.false_eq_true, ↓reduceIte, Bool.true_and]
  cases ready : r.oDataReady
  · simp only [Bool.false_eq_true, ↓reduceIte]
    unfold Rx.advance
    split_ifs <;> simp [ready]
  · simp

/-- A consumer that reads in every cycle never leaves a byte to be overwritten. -/
theorem eager_cleared {period : BitVec 17} {input : ℕ → In × In}
    (rst : ∀ n, (input n).2.iRst = false)
    (reads : ∀ n, ((input n).2.iStb && !(input n).2.iWe) = true) (n : ℕ) :
    (links period input n).receiver.rx.oDataReady = true →
      (links period input n).receiver.rx.inState = 0#4 := by
  cases n with
  | zero => exact fun h => absurd h Bool.false_ne_true
  | succ n => exact eager_next (links period input n).receiver.rx (rst n) (reads n)

/-- A byte out of reset and a consumer that reads in every cycle. -/
def loneByte : ℕ → In × In := fun n =>
  (strobesAt [(1, 0x55#8)] n, ⟨false, true, false, 0#8, true⟩)

/-- With a period of four, the lone byte strobed in cycle 1 is received by cycle 100, and nothing
else. -/
theorem link_delivers_lone :
    bytesReceived (Uart.period 4 1) loneByte 100 <+: bytesSent loneByte 100 ∧
      bytesSent loneByte 2 <+: bytesReceived (Uart.period 4 1) loneByte 100 := by
  have delivered := link_delivers 4 1 (by decide) loneByte (fun n => ⟨strobesAt_rst _ n, rfl⟩)
    (fun n h => by
      obtain rfl : n = 1 := by simpa using strobesAt_cycles h
      decide)
    (fun n ten _ => by
      cases ready : (links (Uart.period 4 1) loneByte n).receiver.rx.oDataReady with
      | false => rfl
      | true =>
        have idle := eager_cleared (fun _ => rfl) (fun _ => rfl) n ready
        exact absurd (ten.symm.trans idle) (by decide)) 100
  exact ⟨delivered.1, delivered.2 2 (by decide)⟩

end Teres.Rtl.Uart
