import Mathlib.Algebra.BigOperators.Group.Finset.Piecewise
import Mathlib.Data.List.GetD
import Teres.Base.Positional

/-!
# Digits packed in words

A list of digits is cut in words of `per` digits, the first digit of a word at its lowest place and
zeros where the list has ended. Words that are full stay as they are when the list grows
(`word_append`); the one under construction is smaller than the weight of its next place
(`word_lt`), so a digit is added to it without a carry (`word_concat`). Every digit is found again
at its place (`word_digit`).
-/

namespace Teres.Packed

variable {base per : ℕ}

/-- The word `k` of a list. -/
def word (base per : ℕ) (l : List ℕ) (k : ℕ) : ℕ :=
  Positional.value base (fun j => l.getD (per * k + j) 0) per

/-- Numerals are smaller than the weight of the next place. -/
theorem value_lt {d : ℕ → ℕ} {n : ℕ} (small : ∀ i < n, d i < base) :
    Positional.value base d n < base ^ n := by
  induction n with
  | zero => simp
  | succ n ih =>
    have low := ih fun i hi => small i (Nat.lt_succ_of_lt hi)
    have top : base ^ n * (d n + 1) ≤ base ^ n * base :=
      Nat.mul_le_mul_left _ (small n (Nat.lt_succ_self n))
    rw [Positional.value_succ, pow_succ]
    rw [Nat.mul_add, Nat.mul_one] at top
    omega

theorem value_zeros {d : ℕ → ℕ} {n : ℕ} (zeros : ∀ i < n, d i = 0) :
    Positional.value base d n = 0 := by
  rw [Positional.value_congr base zeros]
  simp [Positional.value]

theorem getD_lt {l : List ℕ} (small : ∀ b ∈ l, b < base) (some : 0 < base) (i : ℕ) :
    l.getD i 0 < base := by
  rw [List.getD_eq_getElem?_getD]
  cases found : l[i]? with
  | none => exact some
  | some b => exact small b (List.mem_of_getElem? found)

/-- Behind the end of the list there is nothing. -/
theorem word_past {l : List ℕ} {k : ℕ} (past : l.length ≤ per * k) : word base per l k = 0 := by
  refine value_zeros fun j _ => ?_
  rw [List.getD_eq_default]
  omega

/-- **A full word stays as it is.** -/
theorem word_append {l : List ℕ} {k : ℕ} (full : per * (k + 1) ≤ l.length) (m : List ℕ) :
    word base per (l ++ m) k = word base per l k := by
  refine Positional.value_congr base fun j hj => ?_
  rw [Nat.mul_succ] at full
  exact List.getD_append _ _ _ _ (by omega)

/-- **The word under construction** is smaller than the weight of its next place. -/
theorem word_lt {l : List ℕ} (small : ∀ b ∈ l, b < base) (some : 0 < base) (wide : 0 < per) :
    word base per l (l.length / per) < base ^ (l.length % per) := by
  have split : per = l.length % per + (per - l.length % per) := by
    have := Nat.mod_lt l.length wide
    omega
  have division := Nat.div_add_mod l.length per
  have above : Positional.value base
      (fun j => l.getD (per * (l.length / per) + (l.length % per + j)) 0)
      (per - l.length % per) = 0 := by
    refine value_zeros fun j _ => ?_
    rw [List.getD_eq_default]
    omega
  have parts := Positional.value_add base (fun j => l.getD (per * (l.length / per) + j) 0)
    (l.length % per) (per - l.length % per)
  rw [← split, above, Nat.mul_zero, Nat.add_zero] at parts
  unfold word
  rw [parts]
  exact value_lt fun i _ => getD_lt small some _

/-- **A digit is added to the word under construction** at the next place. -/
theorem word_concat (l : List ℕ) (b : ℕ) (wide : 0 < per) :
    word base per (l ++ [b]) (l.length / per) =
      word base per l (l.length / per) + base ^ (l.length % per) * b := by
  have place := Nat.mod_lt l.length wide
  have division := Nat.div_add_mod l.length per
  have digit (j : ℕ) : (l ++ [b]).getD (per * (l.length / per) + j) 0 =
      l.getD (per * (l.length / per) + j) 0 + if j = l.length % per then b else 0 := by
    rcases Nat.lt_trichotomy j (l.length % per) with below | rfl | above
    · rw [if_neg (Nat.ne_of_lt below), Nat.add_zero]
      exact List.getD_append _ _ _ _ (by omega)
    · rw [division, if_pos rfl, List.getD_append_right _ _ _ _ (Nat.le_refl _), Nat.sub_self,
        List.getD_eq_default _ _ (Nat.le_refl _), Nat.zero_add]
      rfl
    · have short : (l ++ [b]).length ≤ per * (l.length / per) + j := by
        rw [List.length_append, List.length_singleton]
        omega
      rw [if_neg (Nat.ne_of_gt above), List.getD_eq_default _ _ short,
        List.getD_eq_default _ _ (by omega)]
  unfold word Positional.value
  simp only [digit, Nat.mul_add, Finset.sum_add_distrib, mul_ite, Nat.mul_zero,
    Finset.sum_ite_eq', Finset.mem_range, place, if_true]

/-- **Every digit is at its place.** -/
theorem word_digit {l : List ℕ} (small : ∀ b ∈ l, b < base) (some : 0 < base) {j : ℕ}
    (inside : j < per) (k : ℕ) :
    word base per l k / base ^ j % base = l.getD (per * k + j) 0 := by
  obtain ⟨rest, rfl⟩ : ∃ rest, per = j + (1 + rest) := ⟨per - j - 1, by omega⟩
  have low : Positional.value base (fun i => l.getD ((j + (1 + rest)) * k + i) 0) j < base ^ j :=
    value_lt fun i _ => getD_lt small some _
  unfold word
  rw [Positional.value_add, Positional.value_add, Nat.add_mul_div_left _ _ (Nat.pow_pos some),
    Nat.div_eq_of_lt low, Nat.zero_add, Positional.value_succ, Positional.value_zero, pow_zero,
    pow_one, Nat.one_mul, Nat.zero_add, Nat.add_mul_mod_self_left]
  exact Nat.mod_eq_of_lt (getD_lt small some _)

end Teres.Packed
