import Teres.Rtl.Ternary

/-!
# The ternary adder is exact

`t3FullAdder_balance` reads the two case tables once, over the 27 valid digit triples: the digit
out, plus three times the carry out, is the sum of the digits in, and both results are valid. The
chain of stages is then `Positional.ripple_value`, and the carry stays valid along it by induction
on the stage.
-/

namespace Teres.Rtl

/-- A stage's output word has the stage's trit at each position. -/
theorem tritOf_ofTrits {n i : ℕ} (t : ℕ → Trit) (hi : i < n) : tritOf (ofTrits n t) i = t i := by
  induction n with
  | zero => exact absurd hi (Nat.not_lt_zero i)
  | succ n ih =>
    apply BitVec.eq_of_getLsbD_eq
    intro j hj
    rcases Nat.lt_succ_iff_lt_or_eq.mp hi with low | rfl
    · have below : 2 * i + j < 2 * n := by omega
      have same := congrArg (BitVec.getLsbD · j) (ih low)
      simp only [tritOf, BitVec.getLsbD_extractLsb', hj, decide_true, Bool.true_and] at same
      simp only [tritOf, ofTrits, BitVec.getLsbD_extractLsb', hj, decide_true, Bool.true_and,
        BitVec.getLsbD_cast, BitVec.getLsbD_append, below, ↓reduceIte, same]
    · have above : ¬ 2 * i + j < 2 * i := by omega
      simp only [tritOf, ofTrits, BitVec.getLsbD_extractLsb', hj, decide_true, Bool.true_and,
        BitVec.getLsbD_cast, BitVec.getLsbD_append, above, ↓reduceIte, Nat.add_sub_cancel_left]

/-- Words with the same trits are the same. -/
theorem eq_of_trits {n : ℕ} {v w : BitVec (2 * n)} (same : ∀ i < n, tritOf v i = tritOf w i) :
    v = w := by
  apply BitVec.eq_of_getLsbD_eq
  intro k hk
  have trit := congrArg (BitVec.getLsbD · (k % 2)) (same (k / 2) (by omega))
  have place : 2 * (k / 2) + k % 2 = k := Nat.div_add_mod k 2
  have low : k % 2 < 2 := Nat.mod_lt k Nat.two_pos
  simpa only [tritOf, BitVec.getLsbD_extractLsb', low, decide_true, Bool.true_and, place] using trit

/-- **The full adder's tables**: on valid trits the results are valid and hold the sum of the
three digits. -/
theorem t3FullAdder_balance : ∀ a b c : Trit, a.Valid → b.Valid → c.Valid →
    (t3FullAdder a b c).1.Valid ∧ (t3FullAdder a b c).2.Valid ∧
      (t3FullAdder a b c).1.value + 3 * (t3FullAdder a b c).2.value =
        a.value + b.value + c.value := by
  decide

/-- The carry is a valid trit at every stage. -/
theorem t3AdditionCarry_valid {n : ℕ} {a b : BitVec (2 * n)} (ha : ValidWord a)
    (hb : ValidWord b) : ∀ i ≤ n, (t3AdditionCarry a b i).Valid
  | 0, _ => show Trit.Valid 0b00#2 by decide
  | i + 1, hi =>
    have ih := t3AdditionCarry_valid ha hb i (Nat.le_of_succ_le hi)
    (t3FullAdder_balance _ _ _ (ha i hi) (hb i hi) ih).2.1

/-- The tables along a word. -/
theorem t3Addition_stage {n : ℕ} {a b : BitVec (2 * n)} (ha : ValidWord a) (hb : ValidWord b)
    {i : ℕ} (hi : i < n) :
    (t3FullAdder (tritOf a i) (tritOf b i) (t3AdditionCarry a b i)).1.Valid ∧
      (t3FullAdder (tritOf a i) (tritOf b i) (t3AdditionCarry a b i)).2.Valid ∧
        (t3FullAdder (tritOf a i) (tritOf b i) (t3AdditionCarry a b i)).1.value +
          3 * (t3FullAdder (tritOf a i) (tritOf b i) (t3AdditionCarry a b i)).2.value =
            (tritOf a i).value + (tritOf b i).value + (t3AdditionCarry a b i).value :=
  t3FullAdder_balance _ _ _ (ha i hi) (hb i hi) (t3AdditionCarry_valid ha hb i hi.le)

/-- The word and the carry out hold the sum of the operands. -/
theorem t3Addition_value {n : ℕ} {a b : BitVec (2 * n)} (ha : ValidWord a) (hb : ValidWord b) :
    wordValue (t3Addition a b).1 + 3 ^ n * (t3Addition a b).2.value =
      wordValue a + wordValue b := by
  have chain := Positional.ripple_value (3 : ℤ) (fun i => (tritOf a i).value)
    (fun i => (tritOf b i).value)
    (fun i => (t3FullAdder (tritOf a i) (tritOf b i) (t3AdditionCarry a b i)).1.value)
    (fun i => (t3AdditionCarry a b i).value) (n := n) fun i hi => (t3Addition_stage ha hb hi).2.2
  have out : wordValue (t3Addition a b).1 = Positional.value 3 (fun i =>
      (t3FullAdder (tritOf a i) (tritOf b i) (t3AdditionCarry a b i)).1.value) n :=
    Positional.value_congr 3 fun i hi => by simp only [t3Addition, tritOf_ofTrits _ hi]
  have start : (t3AdditionCarry a b 0).value = 0 := rfl
  rw [start, add_zero] at chain
  rw [out]
  exact chain

/-- **Addition is exact at every width**: the word and the carry out are valid, and together they
hold the sum of the operands. -/
theorem t3Addition_exact {n : ℕ} (a b : BitVec (2 * n)) (ha : ValidWord a) (hb : ValidWord b) :
    ValidWord (t3Addition a b).1 ∧ (t3Addition a b).2.Valid ∧
      wordValue (t3Addition a b).1 + 3 ^ n * (t3Addition a b).2.value =
        wordValue a + wordValue b := by
  refine ⟨fun i hi => ?_, t3AdditionCarry_valid ha hb n le_rfl, t3Addition_value ha hb⟩
  simp only [t3Addition, tritOf_ofTrits _ hi]
  exact (t3Addition_stage ha hb hi).1

/-- Five plus eleven at four trits. -/
theorem t3Addition_exact_four :
    ValidWord (n := 4) 0b00011010#8 ∧ ValidWord (n := 4) 0b00010110#8 ∧
      wordValue (n := 4) (t3Addition (n := 4) 0b00011010#8 0b00010110#8).1 +
        3 ^ 4 * (t3Addition (n := 4) 0b00011010#8 0b00010110#8).2.value =
          wordValue (n := 4) 0b00011010#8 + wordValue (n := 4) 0b00010110#8 :=
  ⟨by decide, by decide, (t3Addition_exact (n := 4) _ _ (by decide) (by decide)).2.2⟩

end Teres.Rtl
