import Mathlib.Algebra.BigOperators.Group.Finset.Basic
import Mathlib.Algebra.Order.Ring.Abs
import Mathlib.Algebra.Order.Ring.Int
import Mathlib.Tactic.Linarith
import Mathlib.Tactic.Ring

/-!
# Positional numerals and ripple chains

A numeral is a sequence of digit values and a number of digits, least significant first; its value
is the weighted sum. The one law a chain of adder cells needs is `ripple_value`: when every cell
keeps its own balance (the digit it emits, plus the base times the carry it passes on, is the sum
of what it received), the whole chain keeps the balance, whatever its length.

The base and the digits range over any commutative semiring: nothing there knows which digits are
legal, so the same law serves unsigned, signed and balanced numerals.

Balanced numerals have the digits from `-m` to `m` and the base `2 * m + 1`. What stands above a
balanced numeral outweighs it, so their order is decided by the higher part (`sign_append`), and a
numeral is known by its value (`Balanced.unique`).
-/

namespace Teres.Positional

variable {R : Type*} [CommSemiring R]

/-- The value of the first `n` digits, least significant first. -/
def value (base : R) (digit : ℕ → R) (n : ℕ) : R :=
  ∑ i ∈ Finset.range n, base ^ i * digit i

@[simp] theorem value_zero (base : R) (digit : ℕ → R) : value base digit 0 = 0 := rfl

@[simp] theorem value_succ (base : R) (digit : ℕ → R) (n : ℕ) :
    value base digit (n + 1) = value base digit n + base ^ n * digit n :=
  Finset.sum_range_succ _ n

/-- Digit sequences that agree on the first `n` places have the same `n`-digit value. -/
theorem value_congr (base : R) {d e : ℕ → R} {n : ℕ} (h : ∀ i < n, d i = e i) :
    value base d n = value base e n := by
  refine Finset.sum_congr rfl fun i hi => ?_
  rw [h i (Finset.mem_range.mp hi)]

/-- **A balanced chain of cells adds**: the emitted numeral and the outgoing carry hold together
what the two operands and the incoming carry hold. -/
theorem ripple_value (base : R) (a b out carry : ℕ → R) {n : ℕ}
    (cell : ∀ i < n, out i + base * carry (i + 1) = a i + b i + carry i) :
    value base out n + base ^ n * carry n = value base a n + value base b n + carry 0 := by
  induction n with
  | zero => simp only [value_zero, pow_zero, one_mul, zero_add]
  | succ n ih =>
    have lower := ih fun i hi => cell i (Nat.lt_succ_of_lt hi)
    have top := cell n (Nat.lt_succ_self n)
    calc value base out (n + 1) + base ^ (n + 1) * carry (n + 1)
        = value base out n + base ^ n * (out n + base * carry (n + 1)) := by
          rw [value_succ, pow_succ]; ring
      _ = value base out n + base ^ n * carry n + base ^ n * (a n + b n) := by rw [top]; ring
      _ = value base a (n + 1) + value base b (n + 1) + carry 0 := by
          rw [lower, value_succ, value_succ]; ring

/-- A numeral of two parts. -/
theorem value_add (base : R) (d : ℕ → R) (n k : ℕ) :
    value base d (n + k) = value base d n + base ^ n * value base (fun i => d (n + i)) k := by
  induction k with
  | zero => simp only [value_zero, mul_zero, add_zero]
  | succ k ih =>
    rw [← Nat.add_assoc, value_succ, ih, value_succ, pow_add]
    ring

/-! ## Balanced numerals -/

section Balanced

variable {m : ℤ} {a b : ℕ → ℤ} {n : ℕ}

/-- Digits from `-m` to `m`. -/
def Balanced (m : ℤ) (d : ℕ → ℤ) (n : ℕ) : Prop := ∀ i < n, |d i| ≤ m

theorem Balanced.lower (h : Balanced m a (n + 1)) : Balanced m a n :=
  fun i hi => h i (Nat.lt_succ_of_lt hi)

/-- The largest numeral has all digits `m`. -/
theorem Balanced.bound (h : Balanced m a n) :
    2 * |value (2 * m + 1) a n| + 1 ≤ (2 * m + 1) ^ n := by
  induction n with
  | zero => simp only [value_zero, abs_zero, mul_zero, zero_add, pow_zero, le_refl]
  | succ n ih =>
    have low := ih h.lower
    have top := h n (Nat.lt_succ_self n)
    have weight : 0 ≤ (2 * m + 1) ^ n := by linarith only [low, abs_nonneg (value (2 * m + 1) a n)]
    have high : |(2 * m + 1) ^ n * a n| ≤ (2 * m + 1) ^ n * m := by
      rw [abs_mul, abs_of_nonneg weight]
      exact mul_le_mul_of_nonneg_left top weight
    have sum := abs_add_le (value (2 * m + 1) a n) ((2 * m + 1) ^ n * a n)
    rw [value_succ, pow_succ]
    linarith only [low, high, sum]

/-- **The higher part decides**: where it is not zero it gives the sign of the whole. -/
theorem sign_append {low weight : ℤ} (small : |low| < weight) (high : ℤ) :
    (low + weight * high).sign = if high = 0 then low.sign else high.sign := by
  obtain ⟨above, below⟩ := abs_lt.mp small
  rcases lt_trichotomy high 0 with negative | rfl | positive
  · have far : weight * high ≤ weight * -1 :=
      mul_le_mul_of_nonneg_left (by omega) (by omega)
    rw [if_neg (by omega), Int.sign_eq_neg_one_of_neg (by omega),
      Int.sign_eq_neg_one_of_neg negative]
  · rw [mul_zero, add_zero, if_pos rfl]
  · have far : weight * 1 ≤ weight * high := mul_le_mul_of_nonneg_left (by omega) (by omega)
    rw [if_neg (by omega), Int.sign_eq_one_of_pos (by omega), Int.sign_eq_one_of_pos positive]

/-- Two numerals of the same length differ by less than what stands above them weighs. -/
theorem Balanced.apart (ha : Balanced m a n) (hb : Balanced m b n) :
    |value (2 * m + 1) a n - value (2 * m + 1) b n| < (2 * m + 1) ^ n := by
  have boundA := ha.bound
  have boundB := hb.bound
  have sum := abs_sub (value (2 * m + 1) a n) (value (2 * m + 1) b n)
  omega

/-- **A balanced numeral is known by its value.** -/
theorem Balanced.unique (ha : Balanced m a n) (hb : Balanced m b n)
    (same : value (2 * m + 1) a n = value (2 * m + 1) b n) : ∀ i < n, a i = b i := by
  induction n with
  | zero => exact fun i hi => absurd hi (Nat.not_lt_zero i)
  | succ n ih =>
    have sign := sign_append (ha.lower.apart hb.lower) (a n - b n)
    have difference : value (2 * m + 1) a n - value (2 * m + 1) b n +
        (2 * m + 1) ^ n * (a n - b n) = 0 := by
      rw [value_succ, value_succ] at same
      linarith only [same]
    rw [difference, Int.sign_zero] at sign
    have top : a n = b n := by
      by_contra other
      rw [if_neg (sub_ne_zero.mpr other)] at sign
      exact other (sub_eq_zero.mp (Int.sign_eq_zero_iff_zero.mp sign.symm))
    rw [value_succ, value_succ, top, add_left_inj] at same
    intro i hi
    rcases Nat.lt_succ_iff_lt_or_eq.mp hi with low | rfl
    · exact ih ha.lower hb.lower same i low
    · exact top

end Balanced

end Teres.Positional
