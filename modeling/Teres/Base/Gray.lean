import Mathlib.Data.BitVec

/-!
# Reflected Gray codes of bit vectors

`encode` is the exclusive or of a word with its right shift, `decode` the exclusive or of all right
shifts of a code. Decoding telescopes (`decodeLoop_encode`), so encoding is injective at every
width and equality of codes is equality of words.

A counter one bit wider than an address is compared for "same address, opposite lap" in Gray code
by inverting the two top bits of the code. `flipTop_encode_xor` says what the inversion does to the
word under the code: it adds half the counter's range. A counter that steps by one changes one bit
of its code (`existsUnique_encode_ne`), so a reader in another clock domain sees the code before
the step or the code after it.
-/

namespace Teres.Gray

variable {w : ℕ}

/-- The Gray code of a word. -/
def encode (b : BitVec w) : BitVec w := (b >>> 1) ^^^ b

/-- The exclusive or of the first `k` right shifts of a code. -/
def decodeLoop (g : BitVec w) : ℕ → BitVec w
  | 0 => 0#w
  | k + 1 => decodeLoop g k ^^^ (g >>> k)

/-- All right shifts of a code, the unshifted one included. -/
def decode (g : BitVec w) : BitVec w := decodeLoop g w

/-- The exclusive or of shifts telescopes on a code. -/
theorem decodeLoop_encode (b : BitVec w) (k : ℕ) : decodeLoop (encode b) k = b ^^^ (b >>> k) := by
  induction k with
  | zero => simp only [decodeLoop, BitVec.ushiftRight_zero, BitVec.xor_self]
  | succ k ih =>
    have shifted : (encode b) >>> k = (b >>> (k + 1)) ^^^ (b >>> k) := by
      rw [encode, BitVec.ushiftRight_xor_distrib, ← BitVec.shiftRight_add, Nat.add_comm 1 k]
    rw [decodeLoop, ih, shifted, BitVec.xor_comm (b >>> (k + 1)), ← BitVec.xor_assoc,
      BitVec.xor_assoc b, BitVec.xor_self, BitVec.xor_zero]

/-- Decoding inverts encoding. -/
@[simp] theorem decode_encode (b : BitVec w) : decode (encode b) = b := by
  rw [decode, decodeLoop_encode, BitVec.ushiftRight_eq_zero le_rfl, BitVec.xor_zero]

theorem encode_injective : Function.Injective (encode (w := w)) :=
  Function.LeftInverse.injective decode_encode

@[simp] theorem encode_inj {a b : BitVec w} : encode a = encode b ↔ a = b :=
  encode_injective.eq_iff

/-- The code with its two top bits inverted, for a counter of `p + 1` bits. -/
def flipTop {p : ℕ} (g : BitVec (p + 1)) : BitVec (p + 1) :=
  (~~~(g.extractLsb' (p - 1) 2) ++ g.extractLsb' 0 (p - 1)).setWidth (p + 1)

theorem getLsbD_flipTop {p : ℕ} (hp : 1 ≤ p) (g : BitVec (p + 1)) {i : ℕ} (hi : i < p + 1) :
    (flipTop g).getLsbD i = (g.getLsbD i != decide (p - 1 ≤ i)) := by
  simp only [flipTop, BitVec.getLsbD_setWidth, hi, decide_true, Bool.true_and,
    BitVec.getLsbD_append, BitVec.getLsbD_not, BitVec.getLsbD_extractLsb', Nat.zero_add]
  by_cases low : i < p - 1
  · have : ¬ p - 1 ≤ i := by omega
    simp only [low, ↓reduceIte, decide_true, Bool.true_and, this, decide_false, Bool.bne_false]
  · have inside : i - (p - 1) < 2 := by omega
    have back : p - 1 + (i - (p - 1)) = i := by omega
    have high : p - 1 ≤ i := by omega
    simp only [low, ↓reduceIte, inside, decide_true, Bool.true_and, back, high, Bool.bne_true]

/-- Inverting the two top bits of a code inverts the top bit of the word. -/
theorem flipTop_encode_xor {p : ℕ} (hp : 1 ≤ p) (r : BitVec (p + 1)) :
    flipTop (encode r) = encode (r ^^^ BitVec.twoPow (p + 1) p) := by
  apply BitVec.eq_of_getLsbD_eq
  intro i hi
  rw [getLsbD_flipTop hp _ hi]
  simp only [encode, BitVec.getLsbD_xor, BitVec.getLsbD_ushiftRight, BitVec.getLsbD_twoPow]
  by_cases top : i = p
  · subst top
    have h1 : ¬ (1 + i = i) := by omega
    have h2 : i - 1 ≤ i := by omega
    simp [h2]
  · by_cases next : i = p - 1
    · have h1 : 1 + i = p := by omega
      have h2 : p - 1 ≤ i := by omega
      have h3 : ¬ p = i := by omega
      simp [h1, h2, h3]
    · have h1 : ¬ p = 1 + i := by omega
      have h2 : ¬ p - 1 ≤ i := by omega
      have h3 : ¬ p = i := by omega
      simp [h1, h2, h3]

private theorem xor_twoPow_clear {p : ℕ} {r : BitVec (p + 1)} (clear : r.getLsbD p = false) :
    r ^^^ BitVec.twoPow (p + 1) p = r + BitVec.twoPow (p + 1) p := by
  have apart : ∀ i, (r.getLsbD i && (decide (p < p + 1) && decide (p = i))) = false := by
    intro i
    by_cases h : p = i
    · rw [← h, clear, Bool.false_and]
    · simp only [h, decide_false, Bool.and_false]
  have disjoint : r &&& BitVec.twoPow (p + 1) p = 0#(p + 1) := by
    apply BitVec.eq_of_getLsbD_eq
    intro i _
    rw [BitVec.getLsbD_and, BitVec.getLsbD_twoPow, apart, BitVec.getLsbD_zero]
  rw [BitVec.add_eq_or_of_and_eq_zero _ _ disjoint]
  apply BitVec.eq_of_getLsbD_eq
  intro i _
  have := apart i
  simp only [BitVec.getLsbD_xor, BitVec.getLsbD_or, BitVec.getLsbD_twoPow]
  revert this
  cases r.getLsbD i <;> simp

private theorem twoPow_top_add_self (p : ℕ) :
    BitVec.twoPow (p + 1) p + BitVec.twoPow (p + 1) p = 0#(p + 1) := by
  apply BitVec.eq_of_toNat_eq
  rw [BitVec.toNat_add, BitVec.toNat_twoPow_of_lt (Nat.lt_succ_self p), ← Nat.two_mul,
    ← Nat.pow_succ', Nat.mod_self, BitVec.toNat_ofNat, Nat.zero_mod]

/-- Flipping the top bit of a counter adds half its range: when the bit is clear nothing carries,
and when it is set the two halves make a whole lap. -/
theorem xor_twoPow_top {p : ℕ} (r : BitVec (p + 1)) :
    r ^^^ BitVec.twoPow (p + 1) p = r + BitVec.twoPow (p + 1) p := by
  cases top : r.getLsbD p with
  | false => exact xor_twoPow_clear top
  | true =>
    have clear : (r ^^^ BitVec.twoPow (p + 1) p).getLsbD p = false := by
      simp [top]
    have back := xor_twoPow_clear clear
    rw [BitVec.xor_assoc, BitVec.xor_self, BitVec.xor_zero] at back
    calc r ^^^ BitVec.twoPow (p + 1) p
        = (r ^^^ BitVec.twoPow (p + 1) p) +
            (BitVec.twoPow (p + 1) p + BitVec.twoPow (p + 1) p) := by
          rw [twoPow_top_add_self, BitVec.add_zero]
      _ = r + BitVec.twoPow (p + 1) p := by rw [← BitVec.add_assoc, ← back]

/-- **The full comparison.** A code equals another with its top bits inverted exactly when the two
words are half the counter's range apart. -/
theorem encode_eq_flipTop {p : ℕ} (hp : 1 ≤ p) (b r : BitVec (p + 1)) :
    encode b = flipTop (encode r) ↔ b = r + BitVec.twoPow (p + 1) p := by
  rw [flipTop_encode_xor hp, encode_inj, xor_twoPow_top]

/-! ## One bit at a time -/

/-- Encoding is linear. -/
theorem encode_xor (a b : BitVec w) : encode (a ^^^ b) = encode a ^^^ encode b := by
  simp only [encode, BitVec.ushiftRight_xor_distrib]
  ac_rfl

theorem getLsbD_encode (b : BitVec w) (i : ℕ) :
    (encode b).getLsbD i = (b.getLsbD (i + 1) ^^ b.getLsbD i) := by
  simp only [encode, BitVec.getLsbD_xor, BitVec.getLsbD_ushiftRight, Nat.add_comm 1 i]

/-- The lowest clear bit of a word, or the word's width when every bit is set. -/
theorem exists_lowest_clear (b : BitVec w) :
    ∃ k ≤ w, (∀ i < k, b.getLsbD i = true) ∧ b.getLsbD k = false := by
  have clear : ∃ k, b.getLsbD k = false := ⟨w, BitVec.getLsbD_of_ge b w le_rfl⟩
  classical
  refine ⟨Nat.find clear, Nat.find_le (BitVec.getLsbD_of_ge b w le_rfl), ?_, Nat.find_spec clear⟩
  intro i hi
  rw [← Bool.not_eq_false]
  exact Nat.find_min clear hi

/-- An increment flips the lowest clear bit and every bit below it. -/
theorem getLsbD_xor_add_one {b : BitVec w} {k : ℕ} (set : ∀ i < k, b.getLsbD i = true)
    (clear : b.getLsbD k = false) (i : ℕ) :
    (b ^^^ (b + 1#w)).getLsbD i = (decide (i < w) && decide (i ≤ k)) := by
  by_cases hi : i < w
  · rw [BitVec.getLsbD_xor, BitVec.getLsbD_add hi, ← Bool.xor_assoc, Bool.xor_self,
      Bool.false_xor]
    cases i with
    | zero => simp [hi]
    | succ i =>
      rw [BitVec.carry_succ_one i b (Nat.zero_lt_of_lt hi)]
      by_cases le : i + 1 ≤ k
      · have low : ∀ j ≤ i, b.getLsbD j = true := fun j hj => set j (by omega)
        simpa [hi, le] using low
      · have high : ∃ j ≤ i, b.getLsbD j = false := ⟨k, by omega, clear⟩
        simp [hi, le, high]
  · rw [BitVec.getLsbD_of_ge _ _ (Nat.le_of_not_lt hi)]
    simp [hi]

/-- **One bit at a time**: the codes of a word and of its successor differ in one bit, and the
successor of the last word is the first. -/
theorem encode_xor_add_one (b : BitVec (w + 1)) :
    ∃ k < w + 1, encode b ^^^ encode (b + 1#(w + 1)) = BitVec.twoPow (w + 1) k := by
  obtain ⟨k, le, set, clear⟩ := exists_lowest_clear b
  refine ⟨min k w, by omega, ?_⟩
  apply BitVec.eq_of_getLsbD_eq
  intro i hi
  rw [← encode_xor, getLsbD_encode, getLsbD_xor_add_one set clear, getLsbD_xor_add_one set clear,
    BitVec.getLsbD_twoPow]
  rcases Nat.lt_trichotomy i (min k w) with below | rfl | above
  · have h1 : i + 1 < w + 1 := by omega
    have h2 : i + 1 ≤ k := by omega
    have h3 : i ≤ k := by omega
    have h4 : min k w ≠ i := by omega
    simp [hi, h1, h2, h3, h4]
  · by_cases last : k < w
    · have h1 : min k w = k := by omega
      simp [h1, Nat.lt_succ_of_lt last]
    · simp [le_of_not_gt last]
  · have h1 : ¬ i ≤ k := by omega
    have h2 : ¬ i + 1 ≤ k := by omega
    have h3 : min k w ≠ i := by omega
    simp [h1, h2, h3]

/-- The bit that an increment changes in the code. -/
theorem existsUnique_encode_ne (b : BitVec (w + 1)) :
    ∃! k, (encode b).getLsbD k ≠ (encode (b + 1#(w + 1))).getLsbD k := by
  obtain ⟨k, lt, eq⟩ := encode_xor_add_one b
  have differs : ∀ i, (encode b).getLsbD i ≠ (encode (b + 1#(w + 1))).getLsbD i ↔ i = k := by
    intro i
    have bit := congrArg (fun x => x.getLsbD i) eq
    simp only [BitVec.getLsbD_xor, BitVec.getLsbD_twoPow] at bit
    by_cases h : i = k
    · subst h
      simpa [lt] using bit
    · simpa [h, Ne.symm h] using bit
  exact ⟨k, (differs k).mpr rfl, fun i hi => (differs i).mp hi⟩

end Teres.Gray
