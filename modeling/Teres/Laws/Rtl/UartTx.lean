import Teres.Base.Ticks
import Teres.Rtl.Uart

/-!
# The serial transmitter

A frame in progress is one number: the cycles `e` since the strobe was taken. `Sending` gives every
transmitter register as a function of it, with the bit counter `e / T` and the cycle counter
`e % T` where `T` is `period + 1`, and `sending_step` moves it by one whatever the inputs are. A
frame takes `12 * T` cycles, ten of which carry bits.

`Framed` is what the line must look like for a list of strobes: the frame of each strobe stands on
the line at its place, frames do not overlap, and the line is high everywhere else. The transmitter
keeps it exactly when every strobe meets `out_state = 0` (`framed_iff_idle_strobes`): during the
last `T` cycles of a frame `O_busy_write` is already low, but the strobe is not looked at.
-/

namespace Teres.Rtl.Uart

/-! ## The line format -/

/-- The bits of a frame: start, eight data bits from the lowest, then high. -/
def frameBit (b : BitVec 8) (j : ℕ) : Bool :=
  if j = 0 then false else if j ≤ 8 then b.getLsbD (j - 1) else true

theorem frameBit_stop (b : BitVec 8) {j : ℕ} (h : 9 ≤ j) : frameBit b j = true := by
  have h0 : ¬ j = 0 := by omega
  have h8 : ¬ j ≤ 8 := by omega
  simp only [frameBit, h0, h8, ↓reduceIte]

/-- The first cycle of the frame of a strobe at cycle `t`. -/
def frameStart (t : ℕ) : ℕ := t + 2

/-- **A line that carries the strobed bytes.** Every strobed byte stands on the line once, at its
own place and in order, as a low start bit, eight data bits from the lowest and a high stop bit of
`T` cycles each, and the line is high outside the frames. -/
structure Framed (T : ℕ) (strobe : ℕ → Option (BitVec 8)) (pin : ℕ → Bool) : Prop where
  sent : ∀ t b, strobe t = some b → ∀ j < 10, ∀ k < T,
    pin (frameStart t + j * T + k) = frameBit b j
  apart : ∀ t t', (strobe t).isSome = true → (strobe t').isSome = true → t < t' →
    frameStart t + 10 * T ≤ frameStart t'
  quiet : ∀ c, (∀ t, (strobe t).isSome = true →
    c < frameStart t ∨ frameStart t + 10 * T ≤ c) → pin c = true

/-! ## One frame -/

/-- The clock cycles of one bit. -/
def bitTime (period : BitVec 17) : ℕ := period.toNat + 1

theorem bitTime_pos (period : BitVec 17) : 0 < bitTime period := Nat.succ_pos _

variable {period : BitVec 17}

/-- The pin `e` cycles after the edge that took the byte `b`: high for one cycle, then the frame. -/
def linePin (period : BitVec 17) (b : BitVec 8) (e : ℕ) : Bool :=
  if e = 0 then true else frameBit b ((e - 1) / bitTime period)

/-- A transmitter `e` cycles after the edge that took the byte `b`. -/
structure Sending (period : BitVec 17) (b : BitVec 8) (e : ℕ) (t : Tx) : Prop where
  bound : e < 12 * bitTime period
  state : t.outState.toNat = e / bitTime period + 1
  cnt : t.outCnt.toNat = e % bitTime period
  shift : ∀ i < 9, t.outShift.getLsbD i = frameBit b (e / bitTime period + i)
  pin : t.oOutPin = linePin period b e
  busy : t.oBusyWrite = decide (e < 11 * bitTime period)

/-- A transmitter between frames. -/
structure Resting (t : Tx) : Prop where
  state : t.outState = 0#4
  pin : t.oOutPin = true

theorem Sending.state_ne {b : BitVec 8} {e : ℕ} {t : Tx} (s : Sending period b e t) :
    t.outState ≠ 0#4 := by
  intro h
  have := s.state
  rw [h] at this
  exact absurd this (Nat.succ_ne_zero _).symm

/-- The bit counter of a frame stays below twelve. -/
theorem Sending.div_lt {b : BitVec 8} {e : ℕ} {t : Tx} (s : Sending period b e t) :
    e / bitTime period < 12 :=
  (Nat.div_lt_iff_lt_mul (bitTime_pos period)).mpr s.bound

/-- The pin of the next cycle carries the bit of this one. -/
theorem Sending.shift_zero {b : BitVec 8} {e : ℕ} {t : Tx} (s : Sending period b e t) :
    t.outShift.getLsbD 0 = frameBit b (e / bitTime period) :=
  s.shift 0 (by decide)

/-- The cycle counter meets the period on the last cycle of a bit. -/
theorem Sending.cnt_eq_iff {b : BitVec 8} {e : ℕ} {t : Tx} (s : Sending period b e t) :
    t.outCnt = period ↔ e % bitTime period + 1 = bitTime period := by
  rw [← BitVec.toNat_inj, s.cnt, bitTime]
  omega

/-- A strobe between frames starts one. -/
theorem sending_start {t : Tx} (r : Resting t) {i : In} (rst : i.iRst = false) {b : BitVec 8}
    (strobe : i.strobe = some b) : Sending period b 0 (t.next period i) := by
  have write : (i.iStb && i.iWe) = true ∧ i.iDat = b := by
    simpa [In.strobe] using strobe
  have pos := bitTime_pos period
  simp only [Tx.next, rst, Bool.false_eq_true, ↓reduceIte, r.state, ne_eq, not_true_eq_false,
    write.1, write.2]
  refine ⟨by omega, by rw [Nat.zero_div]; rfl, by rw [Nat.zero_mod]; rfl, fun i hi => ?_, r.pin, ?_⟩
  · rw [Nat.zero_div, Nat.zero_add, BitVec.getLsbD_append, frameBit]
    by_cases h0 : i = 0
    · simp [h0]
    · have h1 : ¬ i < 1 := by omega
      have h8 : i ≤ 8 := by omega
      simp [h0, h1, h8]
  · exact (decide_eq_true (by omega)).symm

/-- No strobe between frames, no frame. -/
theorem resting_step {t : Tx} (r : Resting t) {i : In} (rst : i.iRst = false)
    (strobe : i.strobe = none) : Resting (t.next period i) := by
  have write : (i.iStb && i.iWe) = false := by
    simpa [In.strobe] using strobe
  simp only [Tx.next, rst, Bool.false_eq_true, ↓reduceIte, r.state, ne_eq, not_true_eq_false,
    write]
  exact ⟨rfl, r.pin⟩

/-- Between frames the pin holds, whatever the bus does. -/
theorem resting_pin {t : Tx} (r : Resting t) {i : In} (rst : i.iRst = false) :
    (t.next period i).oOutPin = true := by
  simp only [Tx.next, rst, Bool.false_eq_true, ↓reduceIte, r.state, ne_eq, not_true_eq_false]
  split <;> exact r.pin

/-- `busy` in terms of the bit counter. -/
theorem busy_iff (e : ℕ) : e < 11 * bitTime period ↔ e / bitTime period < 11 :=
  (Nat.div_lt_iff_lt_mul (bitTime_pos period)).symm

/-- **A frame runs on by itself**: one cycle later it is one cycle older, whatever the bus does. -/
theorem sending_step {b : BitVec 8} {e : ℕ} {t : Tx} (s : Sending period b e t) {i : In}
    (rst : i.iRst = false) (more : e + 1 < 12 * bitTime period) :
    Sending period b (e + 1) (t.next period i) := by
  have small := s.div_lt
  have pin := s.shift_zero
  have state := s.state
  have later : e + 1 ≠ 0 := Nat.succ_ne_zero e
  have fast := Ticks.mod_succ_le (e := e) (bitTime_pos period)
  simp only [Tx.next, rst, Bool.false_eq_true, ↓reduceIte, ne_eq, s.state_ne, not_false_eq_true,
    s.cnt_eq_iff]
  by_cases last : e % bitTime period + 1 = bitTime period
  · -- the last cycle of a bit: the next bit, or the next high cycle of the tail
    obtain ⟨div, mod⟩ := Ticks.last last
    have below : e / bitTime period + 1 < 12 := by
      rw [← div]
      exact (Nat.div_lt_iff_lt_mul (bitTime_pos period)).mpr more
    have next : (t.outState + 1#4).toNat = (e + 1) / bitTime period + 1 := by
      rw [BitVec.toNat_add, state, div, BitVec.toNat_ofNat]
      omega
    have notTwelve : t.outState ≠ 12#4 := fun h => by
      rw [h] at state
      have : 12 = e / bitTime period + 1 := state
      omega
    by_cases eleven : t.outState = 11#4
    · have ten : e / bitTime period = 10 := by
        rw [eleven] at state
        exact (Nat.succ.inj state).symm
      rw [if_pos last, if_neg notTwelve, if_pos eleven]
      refine ⟨more, next, mod.symm, fun i hi => ?_, ?_, ?_⟩
      · rw [s.shift i hi, div, ten, frameBit_stop b (show 9 ≤ 10 + i by omega),
          frameBit_stop b (show 9 ≤ 10 + 1 + i by omega)]
      · rw [linePin, if_neg later, Nat.add_sub_cancel]; exact pin
      · rw [eq_comm, decide_eq_false_iff_not, busy_iff, div, ten]
        decide
    · have notTen : e / bitTime period ≠ 10 := fun h => eleven (BitVec.eq_of_toNat_eq (by
        rw [state, h]; rfl))
      rw [if_pos last, if_neg notTwelve, if_neg eleven]
      refine ⟨more, next, mod.symm, fun i hi => ?_, ?_, ?_⟩
      · rw [div, BitVec.getLsbD_append, BitVec.getLsbD_extractLsb']
        by_cases low : i < 8
        · simp only [low, ↓reduceIte, decide_true, Bool.true_and]
          rw [s.shift (1 + i) (by omega), Nat.add_assoc]
        · have eight : i = 8 := by omega
          have tail : 9 ≤ e / bitTime period + 1 + i := by
            rw [eight, Nat.add_assoc]
            exact Nat.le_add_left 9 _
          rw [frameBit_stop b tail, eight]
          rfl
      · rw [linePin, if_neg later, Nat.add_sub_cancel]; exact pin
      · rw [s.busy, decide_eq_decide, busy_iff, busy_iff, div]
        omega
  · -- inside a bit
    obtain ⟨div, mod⟩ := Ticks.inner (lt_of_le_of_ne fast last)
    have count : (t.outCnt + 1#17).toNat = (e + 1) % bitTime period := by
      have := period.isLt
      rw [bitTime] at last fast
      rw [BitVec.toNat_add, s.cnt, mod, BitVec.toNat_ofNat, bitTime]
      omega
    simp only [last, ↓reduceIte]
    refine ⟨more, by rw [div]; exact state, count, fun i hi => by rw [div]; exact s.shift i hi, ?_,
      ?_⟩
    · rw [linePin, if_neg later, Nat.add_sub_cancel]; exact pin
    · rw [s.busy, decide_eq_decide, busy_iff, busy_iff, div]

/-- The twelfth bit time ends a frame. -/
theorem sending_end {b : BitVec 8} {e : ℕ} {t : Tx} (s : Sending period b e t) {i : In}
    (rst : i.iRst = false) (ended : e + 1 = 12 * bitTime period) : Resting (t.next period i) := by
  have split : e = 11 * bitTime period + (bitTime period - 1) := by
    have := bitTime_pos period
    omega
  have inside : bitTime period - 1 < bitTime period := Nat.sub_lt (bitTime_pos period) Nat.one_pos
  have div : e / bitTime period = 11 := by rw [split, Ticks.div_eq inside]
  have last : e % bitTime period + 1 = bitTime period := by
    rw [split, Ticks.mod_eq inside, Nat.sub_add_cancel (bitTime_pos period)]
  have twelve : t.outState = 12#4 := BitVec.eq_of_toNat_eq (by rw [s.state, div]; rfl)
  have pin := s.shift_zero
  rw [div, frameBit_stop b (by decide)] at pin
  simp only [Tx.next, rst, Bool.false_eq_true, ↓reduceIte, ne_eq, s.cnt_eq_iff, last, twelve]
  exact ⟨rfl, pin⟩

/-! ## The run -/

/-- Before cycle `n` the transmitter rests, every strobe's frame over, or it is in the frame of the
strobe at cycle `u`, and every earlier strobe's frame was over by then. -/
def Carrying (period : BitVec 17) (strobe : ℕ → Option (BitVec 8)) (n : ℕ) (t : Tx) : Prop :=
  (Resting t ∧ ∀ v < n, (strobe v).isSome = true → v + 1 + 12 * bitTime period ≤ n) ∨
  ∃ u b e, n = u + 1 + e ∧ strobe u = some b ∧ Sending period b e t ∧
    ∀ v < n, (strobe v).isSome = true → v = u ∨ v + 1 + 12 * bitTime period ≤ u

/-- **One cycle keeps the account of frames**, if its strobe meets `out_state = 0`. -/
theorem carrying_step {strobe : ℕ → Option (BitVec 8)} {n : ℕ} {t : Tx}
    (c : Carrying period strobe n t) {i : In} (rst : i.iRst = false) (same : i.strobe = strobe n)
    (idle : (strobe n).isSome = true → t.outState = 0#4) :
    Carrying period strobe (n + 1) (t.next period i) := by
  rcases c with ⟨rest, ended⟩ | ⟨u, b, e, at_, strobed, sending, ended⟩
  · cases h : strobe n with
    | none =>
      refine .inl ⟨resting_step rest rst (same.trans h), fun v hv some => ?_⟩
      rcases Nat.lt_succ_iff_lt_or_eq.mp hv with lt | rfl
      · exact Nat.le_succ_of_le (ended v lt some)
      · rw [h] at some; exact absurd some Bool.false_ne_true
    | some b =>
      refine .inr ⟨n, b, 0, rfl, h, sending_start rest rst (same.trans h), fun v hv some => ?_⟩
      rcases Nat.lt_succ_iff_lt_or_eq.mp hv with lt | rfl
      · exact .inr (ended v lt some)
      · exact .inl rfl
  · have earlier : ∀ v < n + 1, (strobe v).isSome = true →
        v = u ∨ v + 1 + 12 * bitTime period ≤ u := fun v hv some => by
      rcases Nat.lt_succ_iff_lt_or_eq.mp hv with lt | rfl
      · exact ended v lt some
      · exact absurd (idle some) sending.state_ne
    by_cases more : e + 1 < 12 * bitTime period
    · exact .inr ⟨u, b, e + 1, by omega, strobed, sending_step sending rst more, earlier⟩
    · have bound := sending.bound
      refine .inl ⟨sending_end sending rst (by omega), fun v hv some => ?_⟩
      rcases earlier v hv some with rfl | before <;> omega

/-- The account of frames before every cycle of a run from reset in which every strobe before it
met `out_state = 0`. -/
theorem carrying_run {input : ℕ → In} (rst : ∀ n, (input n).iRst = false) (n : ℕ)
    (idle : ∀ m < n, (input m).strobe.isSome = true →
      (states period input m).tx.outState = 0#4) :
    Carrying period (fun n => (input n).strobe) n (states period input n).tx := by
  induction n with
  | zero => exact .inl ⟨⟨rfl, rfl⟩, fun v hv => absurd hv (Nat.not_lt_zero v)⟩
  | succ n ih =>
    exact carrying_step (ih fun m hm => idle m (Nat.lt_succ_of_lt hm)) (rst n) rfl
      (idle n (Nat.lt_succ_self n))

/-- Strobes that all meet `out_state = 0` put their frames on the line. -/
theorem framed_of_idle {input : ℕ → In} (rst : ∀ n, (input n).iRst = false)
    (idle : ∀ n, (input n).strobe.isSome = true → (states period input n).tx.outState = 0#4) :
    Framed (bitTime period) (fun n => (input n).strobe)
      (fun n => (states period input n).tx.oOutPin) := by
  have pos := bitTime_pos period
  have carrying : ∀ n, Carrying period (fun n => (input n).strobe) n (states period input n).tx :=
    fun n => carrying_run rst n fun m _ => idle m
  refine ⟨fun t b strobed j hj k hk => ?_, fun t t' strobed strobed' lt => ?_, fun c free => ?_⟩
  · -- the cycle falls into the frame of `t` and of no other strobe
    have place : j * bitTime period + k < 10 * bitTime period := by
      calc j * bitTime period + k < (j + 1) * bitTime period := by rw [Nat.succ_mul]; omega
        _ ≤ 10 * bitTime period := Nat.mul_le_mul_right _ hj
    have some : ((input t).strobe).isSome = true := by rw [strobed]; rfl
    have before : t < frameStart t + j * bitTime period + k := by unfold frameStart; omega
    rcases carrying (frameStart t + j * bitTime period + k) with ⟨_, ended⟩ |
      ⟨u, b', e, at_, strobed', sending, ended⟩
    · have := ended t before some
      unfold frameStart at this
      omega
    · unfold frameStart at at_ before
      have bound := sending.bound
      have same : t = u := by
        rcases ended t before some with same | early
        · exact same
        · omega
      subst same
      have byte : b' = b := Option.some.inj (strobed'.symm.trans strobed)
      have age : e = j * bitTime period + k + 1 := by omega
      rw [sending.pin, byte, age, linePin, if_neg (Nat.succ_ne_zero _), Nat.add_sub_cancel,
        Ticks.div_eq hk]
  · have free := idle t' strobed'
    unfold frameStart
    rcases carrying t' with ⟨_, ended⟩ | ⟨_, _, _, _, _, sending, _⟩
    · have := ended t lt strobed
      omega
    · exact absurd free sending.state_ne
  · rcases carrying c with ⟨rest, _⟩ | ⟨u, b, e, at_, strobed, sending, _⟩
    · exact rest.pin
    · rw [sending.pin, linePin]
      split_ifs with first
      · rfl
      · have outside := free u (Option.isSome_iff_exists.mpr ⟨b, strobed⟩)
        unfold frameStart at outside
        refine frameBit_stop b (Nat.le_of_succ_le ((Nat.le_div_iff_mul_le pos).mpr ?_))
        omega

/-- In the last bit time of a frame the pin stays high for two more cycles, strobe or not. -/
theorem tail_pin {b : BitVec 8} {e : ℕ} {t : Tx} (s : Sending period b e t) {i i' : In}
    (rst : i.iRst = false) (rst' : i'.iRst = false) (tail : 11 * bitTime period ≤ e) :
    ((t.next period i).next period i').oOutPin = true := by
  have bound := s.bound
  have div : 11 ≤ e / bitTime period := (Nat.le_div_iff_mul_le (bitTime_pos period)).mpr tail
  by_cases more : e + 1 < 12 * bitTime period
  · have next := sending_step s rst more
    have high : frameBit b (e / bitTime period) = true := frameBit_stop b (by omega)
    by_cases more' : e + 2 < 12 * bitTime period
    · have next' := sending_step next rst' more'
      rw [next'.pin, linePin, if_neg (Nat.succ_ne_zero _), Nat.add_sub_cancel]
      have : 11 ≤ (e + 1) / bitTime period :=
        (Nat.le_div_iff_mul_le (bitTime_pos period)).mpr (by omega)
      exact frameBit_stop b (by omega)
    · have := next.bound
      exact (sending_end next rst' (by omega)).pin
  · exact resting_pin (sending_end s rst (by omega)) rst'

/-- **When the transmitter loses no byte.** Under a bus that strobes only while `O_busy_write` is
low, the line carries every strobed byte, framed, once and in order, exactly when every strobe
meets `out_state = 0`. A strobe in the last bit time of a frame, where `O_busy_write` is low
already, finds its start bit missing. -/
theorem framed_iff_idle_strobes (clockHz baudrate : ℕ) (input : ℕ → In)
    (rst : ∀ n, (input n).iRst = false)
    (yields : ∀ n, (input n).strobe.isSome = true →
      (states (Uart.period clockHz baudrate) input n).tx.oBusyWrite = false) :
    Framed (bitTime (Uart.period clockHz baudrate)) (fun n => (input n).strobe)
        (fun n => (states (Uart.period clockHz baudrate) input n).tx.oOutPin) ↔
      ∀ n, (input n).strobe.isSome = true →
        (states (Uart.period clockHz baudrate) input n).tx.outState = 0#4 := by
  refine ⟨fun framed n => ?_, framed_of_idle rst⟩
  induction n using Nat.strong_induction_on with
  | _ n ih =>
    intro strobed
    have carrying := carrying_run rst n ih
    rcases carrying with ⟨rest, _⟩ | ⟨u, b, e, _, _, sending, _⟩
    · exact rest.state
    · -- the strobe is in the tail of a frame, and the line shows no start bit for it
      have busy := sending.busy
      rw [yields n strobed, eq_comm, decide_eq_false_iff_not, Nat.not_lt] at busy
      have high := tail_pin sending (rst n) (rst (n + 1)) busy
      obtain ⟨b', hb'⟩ := Option.isSome_iff_exists.mp strobed
      have low := framed.sent n b' hb' 0 (by decide) 0 (bitTime_pos _)
      have start : frameStart n + 0 * bitTime (Uart.period clockHz baudrate) + 0 = n + 2 := by
        unfold frameStart; omega
      rw [start] at low
      exact absurd (high.symm.trans low) Bool.noConfusion

/-! ## A strobe in the tail of a frame -/

/-- Out of reset, a bus that strobes a byte at each of the given cycles. -/
def strobesAt (bytes : List (ℕ × BitVec 8)) : ℕ → In := fun n =>
  match bytes.lookup n with
  | some b => ⟨false, true, true, b, true⟩
  | none => ⟨false, false, false, 0#8, true⟩

theorem strobesAt_rst (bytes : List (ℕ × BitVec 8)) (n : ℕ) :
    (strobesAt bytes n).iRst = false := by
  unfold strobesAt
  split <;> rfl

/-- The strobes of the schedule are its cycles. -/
theorem strobesAt_cycles {bytes : List (ℕ × BitVec 8)} {n : ℕ}
    (h : (strobesAt bytes n).strobe.isSome = true) : n ∈ bytes.map Prod.fst := by
  unfold strobesAt at h
  split at h
  · next b found =>
    obtain ⟨l₁, l₂, rfl, _⟩ := List.lookup_eq_some_iff.mp found
    simp
  · exact absurd h (by decide)

/-- At two cycles a bit, a byte at the first cycle after reset's busy is framed. -/
theorem framed_iff_idle_strobes_lone :
    Framed (bitTime (Uart.period 1 1)) (fun n => (strobesAt [(1, 0x55#8)] n).strobe)
      (fun n => (states (Uart.period 1 1) (strobesAt [(1, 0x55#8)]) n).tx.oOutPin) := by
  refine (framed_iff_idle_strobes 1 1 (strobesAt [(1, 0x55#8)]) (strobesAt_rst _) fun n h => ?_).mpr
    fun n h => ?_
  all_goals
    obtain rfl : n = 1 := by simpa using strobesAt_cycles h
    decide

/-- **The lost byte.** At two cycles a bit, a second byte strobed at the first cycle at which
`O_busy_write` is low again is not on the line. -/
theorem lost_byte :
    (∀ n, (strobesAt [(1, 0x55#8), (24, 0xA3#8)] n).strobe.isSome = true →
      (states (Uart.period 1 1) (strobesAt [(1, 0x55#8), (24, 0xA3#8)]) n).tx.oBusyWrite = false) ∧
    ¬ Framed (bitTime (Uart.period 1 1))
      (fun n => (strobesAt [(1, 0x55#8), (24, 0xA3#8)] n).strobe)
      (fun n =>
        (states (Uart.period 1 1) (strobesAt [(1, 0x55#8), (24, 0xA3#8)]) n).tx.oOutPin) := by
  refine ⟨fun n h => ?_, fun framed => ?_⟩
  · have cycle : n = 1 ∨ n = 24 := by simpa using strobesAt_cycles h
    rcases cycle with rfl | rfl <;> decide
  · have low := framed.sent 24 0xA3#8 (by decide) 0 (by decide) 0 (bitTime_pos _)
    revert low
    decide

end Teres.Rtl.Uart
