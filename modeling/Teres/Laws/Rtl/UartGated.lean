import Teres.Laws.Rtl.UartRead

/-!
# A serial line behind a gate

The bus hands a write to the transmitter if `O_busy_write` is low, and drops it otherwise. Together
with the transmitter, which does not look at a strobe in the last bit time of a frame, this makes a
rule of its own: a write is taken when twelve bit times and a cycle are behind the last one taken
(`free`). What is taken is on the line, whenever the writes come (`tuned`).

At the other end two bytes complete more than twelve bit times apart (`completes_apart`), so that a
reader that looks once in every twelve bit times reads all of them, in order and once
(`gated_link`).
-/

namespace Teres.Rtl.Uart

variable {period : BitVec 17}

/-! ## What is taken -/

/-- The first cycle, as of cycle `n`, in which a write can be taken. In cycle 0 `O_busy_write` is
still what reset left. -/
def free (T : ℕ) (writes : ℕ → Option (BitVec 8)) : ℕ → ℕ
  | 0 => 1
  | n + 1 =>
    if (writes n).isSome ∧ free T writes n ≤ n then n + 1 + 12 * T else free T writes n

/-- The write that is taken in a cycle. -/
def taken (T : ℕ) (writes : ℕ → Option (BitVec 8)) (n : ℕ) : Option (BitVec 8) :=
  if free T writes n ≤ n then writes n else none

/-- The bytes that are taken before cycle `n`. -/
def takenBytes (T : ℕ) (writes : ℕ → Option (BitVec 8)) : ℕ → List (BitVec 8) :=
  Clocked.ledger fun n => (taken T writes n).toList

section Free

variable {T : ℕ} {writes : ℕ → Option (BitVec 8)}

theorem free_mono {m n : ℕ} (le : m ≤ n) : free T writes m ≤ free T writes n := by
  induction n, le using Nat.le_induction with
  | base => exact Nat.le_refl _
  | succ n _ ih =>
    rw [free]
    split <;> omega

theorem free_taken {n : ℕ} {b : BitVec 8} (h : taken T writes n = some b) :
    free T writes (n + 1) = n + 1 + 12 * T := by
  unfold taken at h
  split at h
  · next le => rw [free, if_pos ⟨by rw [h]; rfl, le⟩]
  · cases h

theorem free_none {n : ℕ} (h : taken T writes n = none) :
    free T writes (n + 1) = free T writes n := by
  rw [free, if_neg]
  rintro ⟨some, le⟩
  rw [taken, if_pos le] at h
  rw [h] at some
  exact Bool.false_ne_true some

theorem taken_none_of_lt {n : ℕ} (lt : n < free T writes n) : taken T writes n = none :=
  if_neg (Nat.not_le.2 lt)

/-- Two writes that are taken are more than twelve bit times apart. -/
theorem taken_apart {u v : ℕ} {b b' : BitVec 8} (first : taken T writes u = some b)
    (second : taken T writes v = some b') (lt : u < v) : u + 12 * T < v := by
  have mono : free T writes (u + 1) ≤ free T writes v := free_mono (Nat.succ_le_of_lt lt)
  rw [free_taken first] at mono
  unfold taken at second
  split at second
  · omega
  · cases second

theorem free_cases (n : ℕ) : free T writes n = 1 ∨
    ∃ v < n, (writes v).isSome = true ∧ free T writes n = v + 1 + 12 * T := by
  induction n with
  | zero => exact .inl rfl
  | succ n ih =>
    rw [free]
    split
    · next h => exact .inr ⟨n, Nat.lt_succ_self n, h.1, rfl⟩
    · rcases ih with first | ⟨v, lt, some, same⟩
      · exact .inl first
      · exact .inr ⟨v, Nat.lt_succ_of_lt lt, some, same⟩

/-- Writes that are far enough apart are all taken. -/
theorem taken_paced (paced : ∀ v n, (writes v).isSome = true → (writes n).isSome = true → v < n →
    v + 12 * T < n) (late : writes 0 = none) (n : ℕ) : taken T writes n = writes n := by
  unfold taken
  split
  · rfl
  · next early =>
    by_contra some
    have wrote : (writes n).isSome = true := Option.isSome_iff_ne_none.2 fun none => some none.symm
    have cases' : free T writes n = 1 ∨
        ∃ v < n, (writes v).isSome = true ∧ free T writes n = v + 1 + 12 * T := free_cases n
    rcases cases' with first | ⟨v, lt, some', same⟩
    · obtain rfl : n = 0 := by omega
      exact some late.symm
    · have apart := paced v n some' wrote lt
      omega

end Free

/-! ## The transmitter between frames -/

/-- Behind a cycle between frames without a strobe, `O_busy_write` is low. -/
theorem resting_busy {t : Tx} (rest : Resting t) {i : In} (rst : i.iRst = false)
    (strobe : i.strobe = none) : (t.next period i).oBusyWrite = false := by
  have write : (i.iStb && i.iWe) = false := by simpa [In.strobe] using strobe
  simp [Tx.next, rst, rest.state, write]

/-- Behind the last cycle of a frame it is low too. -/
theorem sending_end_busy {b : BitVec 8} {e : ℕ} {t : Tx} (s : Sending period b e t) {i : In}
    (rst : i.iRst = false) (ended : e + 1 = 12 * bitTime period) :
    (t.next period i).oBusyWrite = false := by
  have pos := bitTime_pos period
  have low : t.oBusyWrite = false := by
    rw [s.busy, decide_eq_false_iff_not]
    omega
  have state := s.state_ne
  simp only [Tx.next, rst, Bool.false_eq_true, ↓reduceIte, ne_eq, state, not_false_eq_true]
  split_ifs <;> first | rfl | exact low

/-! ## The end of a byte -/

theorem completes_none {r : Rx} {i : In} (elsewhere : ¬(r.inState = 10#4 ∧ r.inCnt = period)) :
    r.completes period i = false := by
  rw [← Bool.not_eq_true]
  intro completes
  simp only [Rx.completes, Bool.and_eq_true, beq_iff_eq] at completes
  exact elsewhere ⟨completes.1.1.2, completes.1.2⟩

theorem completes_last (four : 4 ≤ period.toNat) {b : BitVec 8} {e : ℕ} {r : Rx}
    (h : Hearing period b e r) {i : In} (rst : i.iRst = false)
    (wire : i.iInPin = linePin period b e) (last : e + 1 = lead period + 9 * bitTime period) :
    r.completes period i = true ∧ r.inShift = b := by
  obtain ⟨ten, full, byte⟩ := hearing_last h last
  have high : i.iInPin = true := wire.trans (tail_high four (by omega))
  simp [Rx.completes, rst, ten, full, high, byte]

/-! ## Two ends -/

section Run

variable (period) (writes : ℕ → Option (BitVec 8)) (sender receiver : ℕ → In)

/-- What the two ends agree on before cycle `n`, whatever is read. -/
def Tuned (n : ℕ) : Prop :=
  (Resting (states period sender n).tx ∧
      ((states period sender n).tx.oBusyWrite = false ↔ free (bitTime period) writes n ≤ n) ∧
      free (bitTime period) writes n ≤ n + 1 ∧
      (rxStates period receiver n).inState = 0#4 ∧
      ((rxStates period receiver n).inP0 = true ∨ (rxStates period receiver n).inP1 = false) ∧
      received period receiver n = takenBytes (bitTime period) writes n) ∨
    ∃ u b e, n = u + 1 + e ∧ taken (bitTime period) writes u = some b ∧
      free (bitTime period) writes n = u + 1 + 12 * bitTime period ∧
      Sending period b e (states period sender n).tx ∧
      Hearing period b e (rxStates period receiver n) ∧
      takenBytes (bitTime period) writes n = takenBytes (bitTime period) writes u ++ [b] ∧
      received period receiver n = if e < lead period + 9 * bitTime period then
        takenBytes (bitTime period) writes u else takenBytes (bitTime period) writes n

variable {period writes sender receiver} (four : 4 ≤ period.toNat)
  (rst : ∀ n, (sender n).iRst = false) (rst' : ∀ n, (receiver n).iRst = false)
  (gated : ∀ n, (sender n).strobe =
    if (states period sender n).tx.oBusyWrite then none else writes n)
  (wire : ∀ n, (receiver n).iInPin = (states period sender n).tx.oOutPin)
include four rst rst' gated wire

/-- **One cycle keeps the agreement.** -/
theorem tuned_step {n : ℕ} (h : Tuned period writes sender receiver n) :
    Tuned period writes sender receiver (n + 1) := by
  have gate := gated n
  have pin := wire n
  have txNext : (states period sender (n + 1)).tx =
      (states period sender n).tx.next period (sender n) := rfl
  have rxNext : rxStates period receiver (n + 1) =
      (rxStates period receiver n).next period (receiver n) := rfl
  have sentNext : takenBytes (bitTime period) writes (n + 1) =
      takenBytes (bitTime period) writes n ++ (taken (bitTime period) writes n).toList := rfl
  have gotNext : received period receiver (n + 1) = received period receiver n ++
      if (rxStates period receiver n).completes period (receiver n) then
        [(rxStates period receiver n).inShift] else [] := rfl
  unfold Tuned
  rw [sentNext, gotNext, txNext, rxNext]
  rcases h with ⟨rest, busy, soon, state, flat, same⟩ |
    ⟨u, b, e, age, strobed, time, sending, hearing, sent, got⟩
  · -- between frames
    have quiet : (rxStates period receiver n).completes period (receiver n) = false :=
      completes_none fun h => absurd (h.1.symm.trans state) (by decide)
    have high : (receiver n).iInPin = true := pin.trans rest.pin
    rw [quiet, if_neg Bool.false_ne_true, List.append_nil]
    cases h : taken (bitTime period) writes n with
    | none =>
      have silent : (sender n).strobe = none := by
        rw [gate]
        by_cases low : (states period sender n).tx.oBusyWrite = false
        · rw [low, if_neg Bool.false_ne_true, ← h, taken, if_pos (busy.1 low)]
        · rw [Bool.eq_true_of_not_eq_false low, if_pos rfl]
      refine .inl ⟨resting_step rest (rst n) silent, ?_, ?_, ?_, .inl ?_, ?_⟩
      · rw [free_none h]
        exact iff_of_true (resting_busy rest (rst n) silent) soon
      · rw [free_none h]
        omega
      · rw [Rx.next_inState _ (rst' n), advance_idle state flat]
      · rw [Rx.next_inP0 _ (rst' n), high]
      · rw [same, Option.toList_none, List.append_nil]
    | some b =>
      have le : free (bitTime period) writes n ≤ n := by
        by_contra late
        rw [taken_none_of_lt (Nat.lt_of_not_le late)] at h
        cases h
      have strobe : (sender n).strobe = some b := by
        rw [gate, busy.2 le, if_neg Bool.false_ne_true, ← h, taken, if_pos le]
      have young : 0 < lead period + 9 * bitTime period := by rw [lead]; omega
      refine .inr ⟨n, b, 0, rfl, h, free_taken h, sending_start rest (rst n) strobe,
        hearing_start state flat (rst' n) high b, rfl, ?_⟩
      rw [if_pos young, same]
  · -- in a frame
    have none : taken (bitTime period) writes n = none := by
      have bound := sending.bound
      exact taken_none_of_lt (by omega)
    have older := hearing_step four hearing (rst' n) (pin.trans sending.pin)
    have got' : (received period receiver n ++
        if (rxStates period receiver n).completes period (receiver n) = true then
          [(rxStates period receiver n).inShift] else []) =
        if e + 1 < lead period + 9 * bitTime period then takenBytes (bitTime period) writes u
        else takenBytes (bitTime period) writes n := by
      by_cases last : e + 1 = lead period + 9 * bitTime period
      · obtain ⟨completes, byte⟩ :=
          completes_last four hearing (rst' n) (pin.trans sending.pin) last
        rw [if_pos completes, byte, got, if_pos (by omega), if_neg (by omega), sent]
      · rw [completes_none (hearing_elsewhere hearing last), if_neg Bool.false_ne_true,
          List.append_nil, got]
        split_ifs <;> first | rfl | omega
    rw [got', none, Option.toList_none, List.append_nil, free_none none]
    by_cases more : e + 1 < 12 * bitTime period
    · exact .inr ⟨u, b, e + 1, by omega, strobed, time, sending_step sending (rst n) more, older,
        sent, rfl⟩
    · have bound := sending.bound
      have ended := lead_lt four
      refine .inl ⟨sending_end sending (rst n) (by omega), ?_, by omega, older.done (by omega),
        .inl ?_, if_neg (by omega)⟩
      · exact iff_of_true (sending_end_busy sending (rst n) (by omega)) (by omega)
      · rw [older.p0, Nat.add_sub_cancel]
        exact tail_high four (by omega)

/-- **The agreement holds before every cycle**, whatever is written and read. -/
theorem tuned (n : ℕ) : Tuned period writes sender receiver n := by
  induction n with
  | zero =>
    refine .inl ⟨⟨rfl, rfl⟩, ⟨fun low => ?_, fun le => ?_⟩, Nat.le_refl 1, rfl, .inr rfl, rfl⟩
    · cases low
    · cases le
  | succ n ih => exact tuned_step four rst rst' gated wire ih

/-- Where a byte completes. -/
theorem completes_age {n : ℕ}
    (completes : (rxStates period receiver n).completes period (receiver n) = true) :
    ∃ u b, taken (bitTime period) writes u = some b ∧
      n + 1 = u + 1 + lead period + 9 * bitTime period := by
  rcases tuned four rst rst' gated wire n with ⟨-, -, -, state, -⟩ |
    ⟨u, b, e, age, strobed, -, -, hearing, -⟩
  · rw [completes_none fun h => absurd (h.1.symm.trans state) (by decide)] at completes
    cases completes
  · refine ⟨u, b, strobed, ?_⟩
    by_contra elsewhere
    rw [completes_none (hearing_elsewhere hearing (by omega))] at completes
    cases completes

/-- **Bytes complete more than twelve bit times apart.** -/
theorem completes_apart {c n : ℕ} (lt : c < n)
    (first : (rxStates period receiver c).completes period (receiver c) = true)
    (second : (rxStates period receiver n).completes period (receiver n) = true) :
    c + 12 * bitTime period < n := by
  obtain ⟨u, b, strobed, age⟩ := completes_age four rst rst' gated wire first
  obtain ⟨v, b', strobed', age'⟩ := completes_age four rst rst' gated wire second
  have apart := taken_apart strobed strobed' (by omega)
  omega

/-! ## A reader that looks often enough -/

omit four rst gated wire in
/-- A byte that waits has completed, and has not been read since. -/
theorem waits_since {n : ℕ} (ready : (rxStates period receiver n).oDataReady = true) :
    ∃ c < n, (rxStates period receiver c).completes period (receiver c) = true ∧
      ∀ k, c < k → k < n → (rxStates period receiver k).oDataReady = true ∧
        (rxStates period receiver k).reads (receiver k) = false := by
  induction n with
  | zero => cases ready
  | succ n ih =>
    rw [rxStates_succ, next_oDataReady _ (rst' n), Bool.and_eq_true, Bool.or_eq_true,
      Bool.not_eq_true'] at ready
    obtain ⟨before | now, unread⟩ := ready
    · obtain ⟨c, lt, completes, kept⟩ := ih before
      refine ⟨c, Nat.lt_succ_of_lt lt, completes, fun k low high => ?_⟩
      rcases Nat.lt_succ_iff_lt_or_eq.1 high with inside | rfl
      · exact kept k low inside
      · exact ⟨before, unread⟩
    · exact ⟨n, Nat.lt_succ_self n, now, fun k low high => by omega⟩

variable (polls : ∀ m, ∃ k, m ≤ k ∧ k < m + 12 * bitTime period ∧
  ((rxStates period receiver k).oDataReady = true →
    (rxStates period receiver k).reads (receiver k) = true))
include polls

/-- Every byte has been read when the next one completes. -/
theorem polled_clear {n : ℕ}
    (completes : (rxStates period receiver n).completes period (receiver n) = true) :
    (rxStates period receiver n).oDataReady = false := by
  rw [← Bool.not_eq_true]
  intro ready
  obtain ⟨c, lt, completed, kept⟩ := waits_since rst' ready
  have apart := completes_apart four rst rst' gated wire lt completed completes
  obtain ⟨k, low, high, looks⟩ := polls (c + 1)
  obtain ⟨waits, unread⟩ := kept k (by omega) (by omega)
  rw [looks waits] at unread
  cases unread

/-- The bytes read, with the one that waits, are the bytes that completed. -/
theorem polled_account (n : ℕ) : received period receiver n =
    bytesRead period receiver n ++ (rxStates period receiver n).pending := by
  induction n with
  | zero => rfl
  | succ n ih => exact account_step (rst' n) (polled_clear four rst rst' gated wire polls) ih

omit polls in
/-- What has completed is what was taken, twelve bit times later at the latest. -/
theorem received_taken (n : ℕ) :
    received period receiver n <+: takenBytes (bitTime period) writes n ∧
      ∀ m, m + 12 * bitTime period ≤ n →
        takenBytes (bitTime period) writes m <+: received period receiver n := by
  have ended := lead_lt four
  rcases tuned four rst rst' gated wire n with ⟨-, -, -, -, -, same⟩ |
    ⟨u, b, e, age, strobed, -, sending, -, sent, got⟩
  · rw [same]
    exact ⟨List.prefix_rfl, fun m hm => Clocked.ledger_prefix _ (by omega)⟩
  · have bound := sending.bound
    rw [got]
    split_ifs
    · refine ⟨by rw [sent]; exact List.prefix_append _ _, fun m hm => ?_⟩
      exact Clocked.ledger_prefix _ (by omega)
    · exact ⟨List.prefix_rfl, fun m hm => Clocked.ledger_prefix _ (by omega)⟩

/-- What has completed is read twelve bit times later at the latest. -/
theorem read_later {m n : ℕ} (later : m + 12 * bitTime period ≤ n) :
    received period receiver m <+: bytesRead period receiver n := by
  obtain ⟨k, low, high, looks⟩ := polls m
  have account := polled_account four rst rst' gated wire polls
  have grown : bytesRead period receiver (k + 1) <+: bytesRead period receiver n :=
    Clocked.ledger_prefix _ (by omega)
  refine List.IsPrefix.trans ?_ grown
  cases ready : (rxStates period receiver k).oDataReady with
  | true =>
    -- the byte that waits is read in this cycle
    have empty : (rxStates period receiver (k + 1)).pending = [] := by
      rw [rxStates_succ, Rx.pending, next_oDataReady _ (rst' k), looks ready, Bool.not_true,
        Bool.and_false]
      rfl
    have whole := account (k + 1)
    rw [empty, List.append_nil] at whole
    rw [← whole]
    exact Clocked.ledger_prefix _ (by omega)
  | false =>
    have whole := account k
    rw [Rx.pending, ready, if_neg Bool.false_ne_true, List.append_nil] at whole
    have start : received period receiver m <+: received period receiver k :=
      Clocked.ledger_prefix _ low
    rw [whole] at start
    exact start.trans (Clocked.ledger_prefix _ (Nat.le_succ k))

/-- **What is taken is read**: the bytes read before any cycle are a prefix of the bytes taken, and
a byte is read at most twice twelve bit times after it is taken. -/
theorem gated_link (n : ℕ) :
    bytesRead period receiver n <+: takenBytes (bitTime period) writes n ∧
      ∀ m, m + 24 * bitTime period ≤ n →
        takenBytes (bitTime period) writes m <+: bytesRead period receiver n := by
  have taken := received_taken four rst rst' gated wire
  constructor
  · refine List.IsPrefix.trans ?_ (taken n).1
    rw [polled_account four rst rst' gated wire polls n]
    exact List.prefix_append _ _
  · intro m late
    have read := read_later four rst rst' gated wire polls
      (m := m + 12 * bitTime period) (n := n) (by omega)
    exact ((taken (m + 12 * bitTime period)).2 m (Nat.le_refl _)).trans read

end Run

end Teres.Rtl.Uart
