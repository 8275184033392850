import Teres.Laws.Rtl.Ternary

/-!
# The ternary comparison is the order of the numbers

`t3_compare_y` gives the sign of the difference of two trits, and a node of `t3_compare_x` that of
the higher one of its inputs that is not zero. A word outweighs what stands below it, so a node
gives the sign of the difference of the parts of the words that are under it (`level_signs`), and
the root that of the words.
-/

namespace Teres.Rtl

/-! ## Signs -/

/-- The code of a sign. -/
def Trit.ofSign (x : ℤ) : Trit := if x < 0 then 0b10#2 else if x = 0 then 0b00#2 else 0b01#2

section Sign

variable {x y : ℤ}

theorem ofSign_neg (h : x < 0) : Trit.ofSign x = 0b10#2 := if_pos h

theorem ofSign_zero : Trit.ofSign 0 = 0b00#2 := rfl

theorem ofSign_pos (h : 0 < x) : Trit.ofSign x = 0b01#2 := by
  rw [Trit.ofSign, if_neg (not_lt.mpr h.le), if_neg h.ne']

/-- Only the sign matters. -/
theorem ofSign_congr (same : x.sign = y.sign) : Trit.ofSign x = Trit.ofSign y := by
  rcases lt_trichotomy x 0 with hx | rfl | hx
  · rw [Int.sign_eq_neg_one_of_neg hx] at same
    rw [ofSign_neg hx, ofSign_neg (Int.sign_eq_neg_one_iff_neg.mp same.symm)]
  · rw [Int.sign_zero] at same
    rw [Int.sign_eq_zero_iff_zero.mp same.symm]
  · rw [Int.sign_eq_one_of_pos hx] at same
    rw [ofSign_pos hx, ofSign_pos (Int.sign_eq_one_iff_pos.mp same.symm)]

/-- A trit each: the sign of the difference. -/
theorem t3CompareY_sign : ∀ a b : Trit, a.Valid → b.Valid →
    t3CompareY a b = Trit.ofSign (a.value - b.value) := by
  decide

/-- A node gives its higher input, or if that is zero the lower one. -/
theorem t3CompareX_sign (x y : ℤ) :
    t3CompareX (Trit.ofSign x) (Trit.ofSign y) = Trit.ofSign (if y = 0 then x else y) := by
  rcases lt_trichotomy y 0 with hy | rfl | hy
  · rw [if_neg hy.ne, ofSign_neg hy]
    unfold Trit.ofSign
    split_ifs <;> rfl
  · rw [if_pos rfl, ofSign_zero]
    unfold Trit.ofSign
    split_ifs <;> rfl
  · rw [if_neg hy.ne', ofSign_pos hy]
    unfold Trit.ofSign
    split_ifs <;> rfl

end Sign

/-! ## The levels -/

/-- The digits of a word. -/
def digits {n : ℕ} (w : BitVec (2 * n)) (i : ℕ) : ℤ := (tritOf w i).value

theorem Trit.value_abs : ∀ t : Trit, |t.value| ≤ 1 := by decide

/-- The digits are those of a balanced numeral. -/
theorem digits_balanced {n : ℕ} (w : BitVec (2 * n)) (start len : ℕ) :
    Positional.Balanced 1 (fun i => digits w (start + i)) len :=
  fun _ _ => Trit.value_abs _

/-- The number that the `len` trits from `start` on stand for. -/
def part {n : ℕ} (w : BitVec (2 * n)) (start len : ℕ) : ℤ :=
  Positional.value 3 (fun i => digits w (start + i)) len

section Levels

variable {n : ℕ} {a b : BitVec (2 * n)}

/-- Two parts next to each other. -/
theorem part_pair (w : BitVec (2 * n)) (start len : ℕ) :
    part w start (2 * len) = part w start len + 3 ^ len * part w (start + len) len := by
  unfold part
  rw [two_mul, Positional.value_add]
  simp only [Nat.add_assoc]

/-- The order of two parts next to each other is that of the higher ones, or if these are equal that
of the lower ones. -/
theorem sign_pair (start len : ℕ) :
    (part a start (2 * len) - part b start (2 * len)).sign =
      (if part a (start + len) len - part b (start + len) len = 0 then
        part a start len - part b start len
      else part a (start + len) len - part b (start + len) len).sign := by
  have small : |part a start len - part b start len| < 3 ^ len :=
    (digits_balanced a start len).apart (digits_balanced b start len)
  have difference : part a start (2 * len) - part b start (2 * len) =
      part a start len - part b start len +
        3 ^ len * (part a (start + len) len - part b (start + len) len) := by
    rw [part_pair, part_pair]
    ring
  rw [difference, Positional.sign_append small, apply_ite Int.sign]

/-- Each trit of `c` is the sign of the difference of the parts of `len` trits that are under it. -/
def Signs (a b : BitVec (2 * n)) (len : ℕ) {k : ℕ} (c : BitVec (2 * k)) : Prop :=
  ∀ i < k, tritOf c i = Trit.ofSign (part a (len * i) len - part b (len * i) len)

/-- **A level joins parts two by two.** -/
theorem level_signs {len k : ℕ} {c : BitVec (2 * (2 * k))} (signs : Signs a b len c) :
    Signs a b (2 * len) (t3CompareLevel c) := by
  intro i hi
  have low := signs (2 * i) (by omega)
  have high := signs (2 * i + 1) (by omega)
  have start : len * (2 * i) = 2 * len * i := by ring
  have next : len * (2 * i + 1) = 2 * len * i + len := by ring
  rw [start] at low
  rw [next] at high
  rw [t3CompareLevel, tritOf_ofTrits _ hi, low, high, t3CompareX_sign]
  exact ofSign_congr (sign_pair _ _).symm

end Levels

/-- The instances of `t3_compare_y` compare trit by trit. -/
theorem trits_signs {n : ℕ} {a b : BitVec (2 * n)} (ha : ValidWord a) (hb : ValidWord b) :
    Signs a b 1 (ofTrits n fun i => t3CompareY (tritOf a i) (tritOf b i)) := by
  intro i hi
  have one (w : BitVec (2 * n)) : part w (1 * i) 1 = (tritOf w i).value := by
    simp only [part, digits, Positional.value_succ, Positional.value_zero, pow_zero, one_mul,
      zero_add, add_zero]
  rw [tritOf_ofTrits _ hi, t3CompareY_sign _ _ (ha i hi) (hb i hi), one, one]

/-- The root is the sign of the difference of the words. -/
theorem t3Compare_sign {a b : BitVec (2 * 16)} (ha : ValidWord a) (hb : ValidWord b) :
    t3Compare a b = Trit.ofSign (wordValue a - wordValue b) := by
  have root := level_signs (k := 1)
    (level_signs (k := 2) (level_signs (k := 4) (level_signs (k := 8) (trits_signs ha hb))))
  have whole (w : BitVec (2 * 16)) : part w (16 * 0) 16 = wordValue w := by
    simp only [part, digits, wordValue, Nat.mul_zero, Nat.zero_add]
  have trit := root 0 Nat.one_pos
  change tritOf (n := 1) (t3Compare a b) 0 = Trit.ofSign (part a (16 * 0) 16 - part b (16 * 0) 16)
    at trit
  rw [whole, whole] at trit
  exact BitVec.extractLsb'_eq_self.symm.trans trit

/-! ## The most significant difference -/

/-- Words that agree above a trit are ordered as up to that trit. -/
theorem sign_agrees {n : ℕ} {a b : BitVec (2 * n)} {i k : ℕ}
    (same : ∀ j, i < j → j < i + 1 + k → tritOf a j = tritOf b j) :
    Positional.value 3 (digits a) (i + 1 + k) - Positional.value 3 (digits b) (i + 1 + k) =
      Positional.value 3 (digits a) (i + 1) - Positional.value 3 (digits b) (i + 1) := by
  have above : Positional.value 3 (fun j => digits a (i + 1 + j)) k =
      Positional.value 3 (fun j => digits b (i + 1 + j)) k :=
    Positional.value_congr 3 fun j hj =>
      congrArg Trit.value (same (i + 1 + j) (by omega) (by omega))
  rw [Positional.value_add 3 (digits a), Positional.value_add 3 (digits b), above]
  ring

/-- **Comparing words is comparing their highest trits that differ.** -/
theorem compare_top {n : ℕ} {a b : BitVec (2 * n)} {i : ℕ} (hi : i < n)
    (same : ∀ j, i < j → j < n → tritOf a j = tritOf b j)
    (other : (tritOf a i).value ≠ (tritOf b i).value) :
    (wordValue a - wordValue b).sign = ((tritOf a i).value - (tritOf b i).value).sign := by
  obtain ⟨k, rfl⟩ : ∃ k, n = i + 1 + k := ⟨n - (i + 1), by omega⟩
  have balanced (w : BitVec (2 * (i + 1 + k))) : Positional.Balanced 1 (digits w) i :=
    fun _ _ => Trit.value_abs _
  have small : |Positional.value 3 (digits a) i - Positional.value 3 (digits b) i| < 3 ^ i :=
    (balanced a).apart (balanced b)
  have top : wordValue a - wordValue b =
      Positional.value 3 (digits a) i - Positional.value 3 (digits b) i +
        3 ^ i * ((tritOf a i).value - (tritOf b i).value) := by
    refine (sign_agrees same).trans ?_
    rw [Positional.value_succ, Positional.value_succ]
    simp only [digits]
    ring
  rw [top, Positional.sign_append small, if_neg (sub_ne_zero.mpr other)]

/-- Two valid trits are told apart by their values. -/
theorem Trit.value_injective : ∀ a b : Trit, a.Valid → b.Valid → a.value = b.value → a = b := by
  decide

/-- **The comparison tree is exact**: on valid words it gives the sign of the difference of their
numbers, and so that of the most significant trits that differ. -/
theorem t3Compare_exact (a b : BitVec (2 * 16)) (ha : ValidWord a) (hb : ValidWord b) :
    (wordValue a < wordValue b → t3Compare a b = 0b10#2) ∧
      (wordValue a = wordValue b → t3Compare a b = 0b00#2) ∧
      (wordValue b < wordValue a → t3Compare a b = 0b01#2) ∧
      ∀ i < 16, (∀ j, i < j → j < 16 → tritOf a j = tritOf b j) → tritOf a i ≠ tritOf b i →
        t3Compare a b = t3CompareY (tritOf a i) (tritOf b i) := by
  rw [t3Compare_sign ha hb]
  refine ⟨fun less => ofSign_neg (by omega), fun same => ?_, fun greater => ofSign_pos (by omega),
    fun i hi same other => ?_⟩
  · rw [same, sub_self, ofSign_zero]
  · have apart : (tritOf a i).value ≠ (tritOf b i).value := fun equal =>
      other (Trit.value_injective _ _ (ha i hi) (hb i hi) equal)
    rw [t3CompareY_sign _ _ (ha i hi) (hb i hi)]
    exact ofSign_congr (compare_top hi same apart)

/-- Minus 243 is less than 243. -/
theorem t3Compare_exact_opposite : ValidWord (n := 16) 0x800#32 ∧ ValidWord (n := 16) 0x400#32 ∧
    wordValue (n := 16) 0x800#32 < wordValue (n := 16) 0x400#32 ∧
    t3Compare 0x800#32 0x400#32 = 0b10#2 :=
  ⟨by decide, by decide, by decide,
    (t3Compare_exact 0x800#32 0x400#32 (by decide) (by decide)).1 (by decide)⟩

end Teres.Rtl
