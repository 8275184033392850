import Teres.Laws.Rtl.UartLink

/-!
# A read while a byte completes

The receiver's last statement drops `O_data_ready` on a bus read and overrides the state machine,
which raises the flag in the last cycle of a stop bit. So a byte that completes in the cycle in
which the byte before it is read is put into `O_dat` and not presented (`next_oDataReady`). In every
other cycle a reader that has read the byte before is given the new one, and then the bytes read,
with the one that waits, are the bytes received (`accounted_iff`).
-/

namespace Teres.Rtl.Uart

variable {period : BitVec 17}

/-- A correctly framed byte completes in this cycle: `in_state` 10 samples a high stop bit. -/
def Rx.completes (period : BitVec 17) (r : Rx) (i : In) : Bool :=
  !i.iRst && r.inState == 10#4 && r.inCnt == period && i.iInPin

/-- The bus reads a byte in this cycle. -/
def Rx.reads (r : Rx) (i : In) : Bool := !i.iRst && i.iStb && !i.iWe && r.oDataReady

/-- The byte before has been read, no later than in this cycle. -/
def Rx.ReadBy (r : Rx) (i : In) : Prop := r.oDataReady = false ∨ r.reads i = true

/-! ## One cycle -/

/-- What the state machine does to the output registers. -/
theorem advance_outputs (r : Rx) {i : In} (rst : i.iRst = false) :
    (r.advance period i.iInPin).oDataReady = (r.oDataReady || r.completes period i) ∧
      (r.advance period i.iInPin).oDat = if r.completes period i then r.inShift else r.oDat := by
  unfold Rx.advance Rx.completes
  by_cases ten : r.inState = 10#4
  · have one : ¬ r.inState = 1#4 := by rw [ten]; decide
    by_cases last : r.inCnt = period
    · cases pin : i.iInPin <;> simp [rst, ten, last]
    · simp [ten, last]
  · have other : (r.inState == 10#4) = false := by simpa using ten
    simp only [other, Bool.and_false, Bool.false_and, Bool.or_false, Bool.false_eq_true,
      ↓reduceIte, ten]
    split_ifs <;> exact ⟨rfl, rfl⟩

/-- **The flag**: a read drops it, even when a byte completes. -/
theorem next_oDataReady (r : Rx) {i : In} (rst : i.iRst = false) :
    (r.next period i).oDataReady = ((r.oDataReady || r.completes period i) && !r.reads i) := by
  have ready := (@advance_outputs period r i rst).1
  simp only [Rx.next, Rx.reads, rst, Bool.false_eq_true, ↓reduceIte, Bool.not_false, Bool.true_and]
  split
  · next read => rw [read, Bool.not_true, Bool.and_false]
  · next idle => rw [ready, Bool.eq_false_iff.mpr idle, Bool.not_false, Bool.and_true]

theorem next_oDat (r : Rx) {i : In} (rst : i.iRst = false) :
    (r.next period i).oDat = if r.completes period i then r.inShift else r.oDat := by
  rw [← (advance_outputs r rst).2]
  simp only [Rx.next, rst, Bool.false_eq_true, ↓reduceIte]
  split <;> rfl

/-! ## Runs -/

section Run

variable (period) (input : ℕ → In)

/-- The receiver before cycle `n` of a run from reset. -/
def rxStates (n : ℕ) : Rx := (states period input n).rx

/-- Every byte that completes once the byte before has been read is presented in the next cycle. -/
def AlwaysPresented : Prop :=
  ∀ n, (rxStates period input n).completes period (input n) = true →
    (rxStates period input n).ReadBy (input n) →
      (rxStates period input (n + 1)).oDataReady = true ∧
        (rxStates period input (n + 1)).oDat = (rxStates period input n).inShift

/-- No byte completes in the cycle in which the byte before it is read. -/
def NeverCoincides : Prop :=
  ∀ n, (rxStates period input n).completes period (input n) = true →
    (rxStates period input n).reads (input n) = false

/-- The bytes that completed before cycle `n`. -/
def received : ℕ → List (BitVec 8) :=
  Clocked.ledger fun n =>
    if (rxStates period input n).completes period (input n) then [(rxStates period input n).inShift]
    else []

/-- The bytes that the bus read before cycle `n`. -/
def bytesRead : ℕ → List (BitVec 8) :=
  Clocked.ledger fun n =>
    if (rxStates period input n).reads (input n) then [(rxStates period input n).oDat] else []

/-- The byte that waits to be read. -/
def Rx.pending (r : Rx) : List (BitVec 8) := if r.oDataReady then [r.oDat] else []

variable {period} {input}

theorem rxStates_succ (n : ℕ) :
    rxStates period input (n + 1) = (rxStates period input n).next period (input n) := rfl

/-- A byte that completes is presented unless the byte before is read in the same cycle. -/
theorem presented_iff {n : ℕ}
    (completes : (rxStates period input n).completes period (input n) = true) :
    (rxStates period input (n + 1)).oDataReady = true ∧
        (rxStates period input (n + 1)).oDat = (rxStates period input n).inShift ↔
      (rxStates period input n).reads (input n) = false := by
  have rst : (input n).iRst = false := by
    simp only [Rx.completes, Bool.and_eq_true, Bool.not_eq_true'] at completes
    exact completes.1.1.1
  rw [rxStates_succ, next_oDataReady _ rst, next_oDat _ rst, completes]
  simp

/-- **One cycle of a reader that keeps up** and never coincides keeps the account. -/
theorem account_step {n : ℕ} (rst : (input n).iRst = false)
    (keepsUp : (rxStates period input n).completes period (input n) = true →
      (rxStates period input n).oDataReady = false)
    (account : received period input n =
      bytesRead period input n ++ (rxStates period input n).pending) :
    received period input (n + 1) =
      bytesRead period input (n + 1) ++ (rxStates period input (n + 1)).pending := by
  rw [received, bytesRead, Clocked.ledger_succ, Clocked.ledger_succ, ← received, ← bytesRead,
    account, rxStates_succ, Rx.pending, Rx.pending, next_oDataReady _ rst, next_oDat _ rst]
  cases completes : (rxStates period input n).completes period (input n) with
  | true =>
    have clear := keepsUp completes
    have silent : (rxStates period input n).reads (input n) = false := by simp [Rx.reads, clear]
    simp [clear, silent]
  | false =>
    cases ready : (rxStates period input n).oDataReady with
    | true => cases (rxStates period input n).reads (input n) <;> simp
    | false =>
      have silent : (rxStates period input n).reads (input n) = false := by simp [Rx.reads, ready]
      simp [silent]

/-- A coinciding read loses the byte from the account. -/
theorem account_lost {n : ℕ} (rst : (input n).iRst = false)
    (completes : (rxStates period input n).completes period (input n) = true)
    (reads : (rxStates period input n).reads (input n) = true)
    (account : received period input n =
      bytesRead period input n ++ (rxStates period input n).pending) :
    received period input (n + 1) ≠
      bytesRead period input (n + 1) ++ (rxStates period input (n + 1)).pending := by
  have ready : (rxStates period input n).oDataReady = true := by
    simp only [Rx.reads, Bool.and_eq_true] at reads
    exact reads.2
  rw [received, bytesRead, Clocked.ledger_succ, Clocked.ledger_succ, ← received, ← bytesRead,
    account, rxStates_succ, Rx.pending, Rx.pending, next_oDataReady _ rst, completes, reads, ready]
  simp

/-- **When each byte is read once.** For a reader that keeps up, the bytes read and the one that
waits are the bytes received, in every cycle, exactly when no read coincides. -/
theorem accounted_iff (rst : ∀ n, (input n).iRst = false)
    (keepsUp : ∀ n, (rxStates period input n).completes period (input n) = true →
      (rxStates period input n).ReadBy (input n)) :
    (∀ n, received period input n =
        bytesRead period input n ++ (rxStates period input n).pending) ↔
      NeverCoincides period input := by
  constructor
  · intro account n completes
    rw [← Bool.not_eq_true]
    intro reads
    exact account_lost (rst n) completes reads (account n) (account (n + 1))
  · intro never n
    induction n with
    | zero => rfl
    | succ n ih =>
      refine account_step (rst n) (fun completes => ?_) ih
      refine (keepsUp n completes).resolve_right ?_
      rw [never n completes]
      exact Bool.false_ne_true

end Run

/-- **When the receiver loses no byte to a read.** In a run with any line and any bus cycles, every
byte that completes once the byte before has been read is presented exactly when no byte completes
in the very cycle of that read; and for a reader that keeps up the same condition says when each
byte received is read once. -/
theorem presented_run_iff (period : BitVec 17) (input : ℕ → In) :
    (AlwaysPresented period input ↔ NeverCoincides period input) ∧
    ((∀ n, (input n).iRst = false) →
      (∀ n, (rxStates period input n).completes period (input n) = true →
        (rxStates period input n).ReadBy (input n)) →
      ((∀ n, received period input n =
          bytesRead period input n ++ (rxStates period input n).pending) ↔
        NeverCoincides period input)) := by
  refine ⟨?_, accounted_iff⟩
  constructor
  · intro presented n completes
    rw [← Bool.not_eq_true]
    intro reads
    have next := (presented_iff completes).mp (presented n completes (.inr reads))
    rw [next] at reads
    exact Bool.false_ne_true reads
  · intro never n completes _
    exact (presented_iff completes).mpr (never n completes)

/-- Two bytes on the line, `0xff` and `0xfe`, in bits of five cycles. -/
def twoBytes (n : ℕ) : Bool := !(decide (2 ≤ n ∧ n < 7) || decide (52 ≤ n ∧ n < 62))

/-- The two bytes, and a bus that reads in every cycle. -/
def eagerRead : ℕ → In := fun n => ⟨false, true, false, 0#8, twoBytes n⟩

/-- A bus that reads in every cycle is given both bytes. -/
theorem presented_run_eager : AlwaysPresented 4#17 eagerRead ∧
    ∀ n, received 4#17 eagerRead n =
      bytesRead 4#17 eagerRead n ++ (rxStates 4#17 eagerRead n).pending := by
  have clear : ∀ n, (rxStates 4#17 eagerRead n).completes 4#17 (eagerRead n) = true →
      (rxStates 4#17 eagerRead n).oDataReady = false := by
    intro n completes
    rw [← Bool.not_eq_true]
    intro ready
    simp only [Rx.completes, Bool.and_eq_true, beq_iff_eq] at completes
    cases n with
    | zero => exact Bool.false_ne_true ready
    | succ n =>
      have idle := eager_next (rxStates 4#17 eagerRead n) (i := eagerRead n) rfl rfl ready
      exact absurd (idle.symm.trans completes.1.1.2) (by decide)
  have never : NeverCoincides 4#17 eagerRead := by
    intro n completes
    simp [Rx.reads, clear n completes]
  have law := presented_run_iff 4#17 eagerRead
  exact ⟨law.1.mpr never, (law.2 (fun _ => rfl) fun n h => .inl (clear n h)).mpr never⟩

/-- The two bytes, and one bus read, in cycle 101. -/
def coincidingRead : ℕ → In := fun n => ⟨false, n = 101, false, 0#8, twoBytes n⟩

/-- **The lost byte.** The second byte completes in the cycle in which the first is read: `O_dat`
holds it, and `O_data_ready` is low. -/
theorem read_loses_byte :
    (rxStates 4#17 coincidingRead 101).completes 4#17 (coincidingRead 101) = true ∧
    (rxStates 4#17 coincidingRead 101).reads (coincidingRead 101) = true ∧
    (rxStates 4#17 coincidingRead 101).inShift = 0xfe#8 ∧
    (rxStates 4#17 coincidingRead 102).oDataReady = false ∧
    ¬ AlwaysPresented 4#17 coincidingRead := by
  have completes : (rxStates 4#17 coincidingRead 101).completes 4#17 (coincidingRead 101) = true :=
    by decide +kernel
  have reads : (rxStates 4#17 coincidingRead 101).reads (coincidingRead 101) = true := by
    decide +kernel
  have low : (rxStates 4#17 coincidingRead 102).oDataReady = false := by decide +kernel
  refine ⟨completes, reads, by decide +kernel, low, ?_⟩
  intro presented
  have high := (presented 101 completes (.inr reads)).1
  rw [low] at high
  exact Bool.false_ne_true high

end Teres.Rtl.Uart
