import Mathlib.Data.Set.Function
import Teres.Laws.Rtl.TernaryCompare
import Teres.Laws.Tools.Cod5asm

/-!
# From integers to ternary words and back

A round of `b2t` takes the weight off where the rest of the number is more than half of it, so less
than half the weight is left behind it (`b2tLoop_round`), and nothing behind the last round. The
trits that the rounds have shifted in are then the digits of the number (`b2tLoop_trits`). A number
has only one such word (`Positional.Balanced.unique`), so `b2t` is onto the valid words.
-/

namespace Teres.Tools.Bin2ter

open Cod5asm (b2t b2tLoop b2tLoop_round pow_odd)
open Rtl (tritOf ValidWord wordValue digits)

/-- The trit shifted in is the lowest. -/
theorem tritOf_shift_zero (t d : BitVec 32) :
    tritOf (n := 16) (t <<< 2 ||| d) 0 = tritOf (n := 16) d 0 := by
  apply BitVec.eq_of_getLsbD_eq
  intro k hk
  simp [tritOf, hk]

/-- The others are shifted by one. -/
theorem tritOf_shift_succ {t d : BitVec 32} (small : d.toNat < 4) {i : ℕ} (hi : i + 1 < 16) :
    tritOf (n := 16) (t <<< 2 ||| d) (i + 1) = tritOf (n := 16) t i := by
  apply BitVec.eq_of_getLsbD_eq
  intro k hk
  have far : 2 ^ 2 ≤ 2 ^ (2 * (i + 1) + k) := Nat.pow_le_pow_right Nat.two_pos (by omega)
  have above : d.getLsbD (2 * (i + 1) + k) = false :=
    Nat.testBit_lt_two_pow (Nat.lt_of_lt_of_le small far)
  have place : 2 * (i + 1) + k - 2 = 2 * i + k := by omega
  have inside : 2 * (i + 1) + k < 32 := by omega
  have high : ¬2 * (i + 1) + k < 2 := by omega
  simp only [tritOf, BitVec.getLsbD_extractLsb', BitVec.getLsbD_or, BitVec.getLsbD_shiftLeft, hk,
    above, place, inside, high, decide_true, decide_false, Bool.not_false, Bool.true_and,
    Bool.or_false]

/-- The digit of a round. -/
theorem trit_value {n v v' : ℤ} {d : BitVec 32} (trit : Cod5asm.Trit n v v' d) :
    (tritOf (n := 16) d 0).Valid ∧ v' + n * (tritOf (n := 16) d 0).value = v := by
  cases trit with
  | zero =>
    refine ⟨by decide, ?_⟩
    change v + n * 0 = v
    ring
  | plus _ =>
    refine ⟨by decide, ?_⟩
    change v - n + n * 1 = v
    ring
  | minus _ =>
    refine ⟨by decide, ?_⟩
    change v + n + n * -1 = v
    ring

/-- **The last `k` rounds**: their trits are the digits of what was left before them, and the trits
before them are shifted in front. -/
theorem b2tLoop_trits (k : ℕ) : ∀ {v : ℤ} {t : BitVec 32}, k ≤ 16 →
    -(3 ^ k : ℕ) < 2 * v → 2 * v < (3 ^ k : ℕ) →
    (∀ i < k, (tritOf (n := 16) (b2tLoop (3 ^ k / 3) v t) i).Valid) ∧
      Positional.value 3 (digits (n := 16) (b2tLoop (3 ^ k / 3) v t)) k = v ∧
      ∀ i, k + i < 16 →
        tritOf (n := 16) (b2tLoop (3 ^ k / 3) v t) (k + i) = tritOf (n := 16) t i := by
  induction k with
  | zero =>
    intro v t _ low high
    have done : b2tLoop (3 ^ 0 / 3) v t = t := by
      rw [b2tLoop]
      rfl
    rw [done]
    refine ⟨fun i hi => absurd hi (Nat.not_lt_zero i), ?_, fun i _ => by rw [Nat.zero_add]⟩
    simp only [Positional.value_zero]
    omega
  | succ k ih =>
    intro v t rounds low high
    have weight : 3 ^ (k + 1) / 3 = 3 ^ k := by
      rw [Nat.pow_succ, Nat.mul_div_cancel _ (by decide)]
    rw [Nat.pow_succ] at low high
    obtain ⟨v', d, trit, above, below, eq⟩ :=
      b2tLoop_round (pow_odd k) (v := v) (by omega) (by omega) t
    obtain ⟨valid, value, shifted⟩ := ih (v := v') (t := t <<< 2 ||| d) (by omega) above below
    obtain ⟨digit, sum⟩ := trit_value trit
    have top := shifted 0 (by omega)
    rw [tritOf_shift_zero, Nat.add_zero] at top
    rw [weight, eq]
    refine ⟨fun i hi => ?_, ?_, fun i hi => ?_⟩
    · rcases Nat.lt_succ_iff_lt_or_eq.mp hi with low | rfl
      · exact valid i low
      · rw [top]
        exact digit
    · rw [Positional.value_succ, value, digits, top]
      push_cast at sum
      exact sum
    · have place : k + 1 + i = k + (i + 1) := by omega
      rw [place, shifted (i + 1) (by omega), tritOf_shift_succ trit.small (by omega)]

/-- **`b2t` and the value of a word are inverse to each other**, between the integers of at most
sixteen digits and the valid words. -/
theorem b2t_inverse :
    Set.BijOn b2t {v | |v| ≤ (3 ^ 16 - 1) / 2} {t | ValidWord (n := 16) t} ∧
      (∀ v : ℤ, |v| ≤ (3 ^ 16 - 1) / 2 → wordValue (n := 16) (b2t v) = v) ∧
      ∀ t : BitVec 32, ValidWord (n := 16) t → b2t (wordValue (n := 16) t) = t := by
  have word {v : ℤ} (small : |v| ≤ (3 ^ 16 - 1) / 2) :
      ValidWord (n := 16) (b2t v) ∧ wordValue (n := 16) (b2t v) = v := by
    obtain ⟨low, high⟩ := abs_le.mp small
    obtain ⟨valid, value, _⟩ := b2tLoop_trits 16 (v := v) (t := 0#32) (Nat.le_refl 16)
      (by omega) (by omega)
    exact ⟨valid, value⟩
  have bound (t : BitVec 32) : |wordValue (n := 16) t| ≤ (3 ^ 16 - 1) / 2 := by
    have balanced : Positional.Balanced 1 (digits (n := 16) t) 16 :=
      fun _ _ => Rtl.Trit.value_abs _
    have bound : 2 * |wordValue (n := 16) t| + 1 ≤ 3 ^ 16 := balanced.bound
    omega
  have unique {s t : BitVec 32} (hs : ValidWord (n := 16) s) (ht : ValidWord (n := 16) t)
      (same : wordValue (n := 16) s = wordValue (n := 16) t) : s = t := by
    have equal := Positional.Balanced.unique (m := 1) (a := digits (n := 16) s)
      (b := digits (n := 16) t) (fun _ _ => Rtl.Trit.value_abs _) (fun _ _ => Rtl.Trit.value_abs _)
      same
    exact Rtl.eq_of_trits (n := 16) fun i hi =>
      Rtl.Trit.value_injective _ _ (hs i hi) (ht i hi) (equal i hi)
  have back {t : BitVec 32} (valid : ValidWord (n := 16) t) : b2t (wordValue (n := 16) t) = t :=
    unique (word (bound t)).1 valid (word (bound t)).2
  refine ⟨⟨fun v small => (word small).1, fun v hv v' hv' same => ?_, fun t valid => ?_⟩,
    fun v small => (word small).2, fun t => back⟩
  · rw [← (word hv).2, same, (word hv').2]
  · exact ⟨wordValue (n := 16) t, bound t, back valid⟩

end Teres.Tools.Bin2ter
