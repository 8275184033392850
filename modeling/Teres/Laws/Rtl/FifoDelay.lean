import Mathlib.Data.Nat.Count
import Teres.Laws.Rtl.FifoReserve

/-!
# When a word can be read

`O_read_empty` is three read edges late: two synchronizer stages, and the register of the flag
itself. Behind a read edge and two more it tells whether everything has been read that was written
before the first of them (`oReadEmpty_iff`). Once low it stays low until a word is read
(`oReadEmpty_quiet`), and the word that is read is the next one that was accepted
(`oReadData_next`).
-/

namespace Teres.Rtl.AsyncFifo

variable {d p : ℕ}

/-- The read edges before instant `n`. -/
def readCount (input : ℕ → Edges d) (n : ℕ) : ℕ :=
  Nat.count (fun m => (input m).read.isSome = true) n

theorem readCount_edge {input : ℕ → Edges d} {n : ℕ} (edge : (input n).read.isSome = true) :
    readCount input (n + 1) = readCount input n + 1 := by
  rw [readCount, Nat.count_succ, if_pos edge]
  rfl

theorem readCount_none {input : ℕ → Edges d} {n : ℕ} (none : (input n).read = none) :
    readCount input (n + 1) = readCount input n := by
  rw [readCount, Nat.count_succ, none]
  rfl

theorem readCount_injective {input : ℕ → Edges d} {a n : ℕ} (here : (input a).read.isSome = true)
    (edge : (input n).read.isSome = true) (same : readCount input a = readCount input n) : a = n :=
  Nat.count_injective here edge same

section Run

variable (s₀ : State d p) {input : ℕ → Edges d} (waits : ReaderWaits input)

/-- The stages of the synchronizer hold the counts of one and of two read edges before. -/
theorem writeSeen_delay {a : ℕ} (here : (input a).read.isSome = true) (n : ℕ) :
    (readCount input a + 1 = readCount input n →
      (counts s₀ input n).writeSeen1 = (counts s₀ input a).written) ∧
    (readCount input a + 2 = readCount input n →
      (counts s₀ input n).writeSeen = (counts s₀ input a).written) := by
  induction n with
  | zero =>
    have none : readCount input 0 = 0 := Nat.count_zero _
    constructor <;> intro ahead <;> omega
  | succ n ih =>
    obtain ⟨first, second⟩ := ih
    rw [counts, Counts.next]
    cases edge : (input n).read with
    | none =>
      rw [readCount_none edge]
      exact ⟨first, second⟩
    | some b =>
      have edge' : (input n).read.isSome = true := by
        rw [edge]
        rfl
      rw [readCount_edge edge']
      constructor
      · intro one
        rw [readCount_injective here edge' (Nat.add_right_cancel one)]
        rfl
      · exact fun two => first (by omega)

include waits

/-- **`O_read_empty` is three read edges late.** -/
theorem oReadEmpty_iff (hp : 1 ≤ p) {a n : ℕ} (here : (input a).read.isSome = true)
    (three : readCount input a + 3 = readCount input n) :
    (states s₀ input n).r.oReadEmpty = true ↔
      (counts s₀ input n).read = (counts s₀ input a).written := by
  induction n with
  | zero =>
    have none : readCount input 0 = 0 := Nat.count_zero _
    omega
  | succ n ih =>
    have step' : states s₀ input (n + 1) = step (states s₀ input n) (input n) := rfl
    have next : counts s₀ input (n + 1) = (counts s₀ input n).next (states s₀ input n) (input n) :=
      rfl
    cases edge : (input n).read with
    | none =>
      rw [readCount_none edge] at three
      have none : takes (states s₀ input n) (input n) = [] := by rw [takes, edge]
      rw [step', next, Counts.next, none]
      have same : (step (states s₀ input n) (input n)).r = (states s₀ input n).r := by
        rw [step, edge]
      rw [same]
      exact ih three
    | some b =>
      have edge' : (input n).read.isSome = true := by
        rw [edge]
        rfl
      rw [readCount_edge edge'] at three
      obtain ⟨t, armed⟩ := tracks_run hp s₀ waits n
      have within := read_within t fun asks => armed (waits n asks)
      have near : (counts s₀ input n).writeSeen ≤ (counts s₀ input n).read + 2 ^ p :=
        (t.writeSeen_le.trans t.writeSeen1_le).trans t.read_le_written.2
      have len := takes_length (states s₀ input n) (input n) edge
      rw [len] at within
      have flag : (step (states s₀ input n) (input n)).r.oReadEmpty =
          (states s₀ input n).r.readEmptyVal b := by
        rw [step, edge]
        rfl
      rw [step', next, Counts.next, len, flag, t.read.emptyVal_iff b within near,
        (writeSeen_delay s₀ here n).2 (by omega)]

/-- A read edge without a command leaves the flag low. -/
theorem oReadEmpty_quiet (hp : 1 ≤ p) {m n : ℕ} (before : m < n)
    (edge : (input m).read.isSome = true) (quiet : (input n).read ≠ some true)
    (low : (states s₀ input n).r.oReadEmpty = false) :
    (states s₀ input (n + 1)).r.oReadEmpty = false := by
  have step' : states s₀ input (n + 1) = step (states s₀ input n) (input n) := rfl
  rw [step']
  cases here : (input n).read with
  | none =>
    rw [step, here]
    exact low
  | some b =>
    cases b with
    | true => exact absurd here quiet
    | false =>
      obtain ⟨t, armed⟩ := tracks_run hp s₀ waits n
      have room := armed ⟨m, before, edge⟩ low
      have near : (counts s₀ input n).writeSeen ≤ (counts s₀ input n).read + 2 ^ p :=
        (t.writeSeen_le.trans t.writeSeen1_le).trans t.read_le_written.2
      have flag : (step (states s₀ input n) (input n)).r.oReadEmpty =
          (states s₀ input n).r.readEmptyVal false := by
        rw [step, here]
        rfl
      rw [flag, ← Bool.not_eq_true, t.read.emptyVal_iff false room.le near]
      exact Nat.ne_of_lt room

/-- The word of a command that finds the flag low is the next one that was accepted. -/
theorem oReadData_next (hp : 1 ≤ p)
    (kept : ∀ n i, (input n).write = some i → i.iCmdWrite = true →
      (states s₀ input n).w.writeFull = false →
        (states s₀ input n).w.writeFullVal true = false)
    {n : ℕ} (asks : (input n).read = some true) (low : (states s₀ input n).r.oReadEmpty = false) :
    (accepted s₀ input n)[(counts s₀ input n).read]? =
      some (states s₀ input (n + 1)).r.oReadData := by
  obtain ⟨t, armed⟩ := tracks_run hp s₀ waits n
  obtain ⟨stored, -⟩ := words_run hp s₀ waits kept n
  have room : (counts s₀ input n).read < (counts s₀ input n).writeSeen := armed (waits n asks) low
  have word := stored (counts s₀ input n).read le_rfl
    (room.trans_le (t.writeSeen_le.trans t.writeSeen1_le))
  have out : (states s₀ input (n + 1)).r.oReadData =
      (states s₀ input n).mem (states s₀ input n).r.readAddress := by
    rw [states, Clocked.run_succ, ← states, step, asks]
    rfl
  rw [word, out, ReadSide.readAddress, t.read.bin, setWidth_ofNat]

end Run

end Teres.Rtl.AsyncFifo
