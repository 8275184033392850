import Teres.Rtl.Tmds
import Mathlib.Tactic.Ring

/-!
# When the TMDS encoder keeps the balance

Each branch changes the running disparity by the balance of its symbol, and `cnt` by an amount of
its own. The two amounts are the same except in the branch that leaves a byte as it is, for a byte
whose `q_m[8]` is one (`plain_step`). Both other branches than the first only ever lower the
disparity, as a `cnt` that is not zero is taken to be positive. So the balance is kept just where
every byte bears that (`balanced_iff`).
-/

namespace Teres.Rtl.Tmds

/-! ## Ones -/

theorem countBits_eq : ∀ b : BitVec 8, countBits b = BitVec.ofNat 4 (ones b) := by decide +kernel

theorem ones_le {w : ℕ} (x : BitVec w) : ones x ≤ w := BitVec.toNat_cpop_le x

theorem ones_ofBool : ∀ b : Bool, ones (BitVec.ofBool b) = b.toNat := by decide

theorem ones_not (x : BitVec 8) : ones (~~~x) = 8 - ones x := BitVec.toNat_cpop_not

/-- The balance of a symbol, by the ones of its parts. -/
theorem balance_symbol (b9 b8 : Bool) (low : BitVec 8) :
    balance (symbol b9 b8 low) = 2 * (b9.toNat + b8.toNat + ones low : ℤ) - 10 := by
  have parts : ones (symbol b9 b8 low) = b9.toNat + b8.toNat + ones low := by
    rw [← ones_ofBool b9, ← ones_ofBool b8]
    unfold ones symbol
    rw [BitVec.toNat_cpop_append, BitVec.toNat_cpop_append]
  unfold balance
  rw [parts]
  push_cast
  ring

/-! ## Four bits -/

/-- The ones less the zeros, in four bits. -/
theorem gap_ofNat : ∀ n ≤ 8, BitVec.ofNat 4 n - (8#4 - BitVec.ofNat 4 n) =
    BitVec.ofInt 4 (2 * (n : ℤ) - 8) := by decide

theorem four_lt_ofNat : ∀ n ≤ 8, 4#4 < BitVec.ofNat 4 n ↔ 4 < n := by decide

theorem eq_four_ofNat : ∀ n ≤ 8, BitVec.ofNat 4 n = 4#4 ↔ n = 4 := by decide

/-- The extension of a bit, twice. -/
theorem extend_twice : ∀ b : Bool, (BitVec.ofBool b).setWidth 4 + (BitVec.ofBool b).setWidth 4 =
    BitVec.ofInt 4 (2 * (b.toNat : ℤ)) := by decide

/-- The complement of the extension of a bit, twice. -/
theorem complement_twice : ∀ b : Bool,
    ~~~((BitVec.ofBool b).setWidth 4) + ~~~((BitVec.ofBool b).setWidth 4) =
      BitVec.ofInt 4 (-2 - 2 * (b.toNat : ℤ)) := by decide

theorem ofInt_sub (x y : ℤ) : BitVec.ofInt 4 (x - y) = BitVec.ofInt 4 x - BitVec.ofInt 4 y := by
  rw [Int.sub_eq_add_neg, BitVec.ofInt_add, BitVec.ofInt_neg, BitVec.sub_eq_add_neg]

/-- Within the bounds, only zero is zero in four bits. -/
theorem eq_zero_of_ofInt {x : ℤ} (low : -8 ≤ x) (high : x ≤ 8) (zero : BitVec.ofInt 4 x = 0#4) :
    x = 0 := by
  have all : ∀ k : ℕ, k ≤ 16 → BitVec.ofInt 4 ((k : ℤ) - 8) = 0#4 → k = 8 := by decide
  obtain ⟨k, rfl⟩ : ∃ k : ℕ, x = (k : ℤ) - 8 := ⟨(x + 8).toNat, by omega⟩
  rw [all k (by omega) zero]
  rfl

/-! ## The branches -/

section Byte

variable (d : BitVec 8)

theorem n1QM_eq : n1QM d = BitVec.ofNat 4 (ones (qMLow d)) := countBits_eq (qMLow d)

theorem gap_eq : n1QM d - n0QM d = BitVec.ofInt 4 (2 * (ones (qMLow d) : ℤ) - 8) := by
  rw [n0QM, n1QM_eq]
  exact gap_ofNat _ (ones_le (qMLow d))

theorem gap_neg : n0QM d - n1QM d = -BitVec.ofInt 4 (2 * (ones (qMLow d) : ℤ) - 8) := by
  rw [← gap_eq, neg_sub]

theorem four_lt_iff : 4#4 < n1QM d ↔ 4 < ones (qMLow d) := by
  rw [n1QM_eq]
  exact four_lt_ofNat _ (ones_le (qMLow d))

theorem eq_four_iff : n1QM d = 4#4 ↔ ones (qMLow d) = 4 := by
  rw [n1QM_eq]
  exact eq_four_ofNat _ (ones_le (qMLow d))

/-- The first branch: the symbol counts as the ones do, or against them, and so does `cnt`. -/
theorem even_step (cnt : BitVec 4) :
    balance (even cnt d).qOut =
        (if qM8 d then 2 * (ones (qMLow d) : ℤ) - 8 else 8 - 2 * (ones (qMLow d) : ℤ)) ∧
      (even cnt d).cnt = cnt + BitVec.ofInt 4 (balance (even cnt d).qOut) := by
  have less := ones_le (qMLow d)
  have moved : (even cnt d).cnt = if qM8 d then cnt + (n1QM d - n0QM d)
      else cnt + (n0QM d - n1QM d) := by
    unfold even
    split_ifs <;> ring
  have sum : balance (even cnt d).qOut =
      if qM8 d then 2 * (ones (qMLow d) : ℤ) - 8 else 8 - 2 * (ones (qMLow d) : ℤ) := by
    unfold even
    rw [balance_symbol]
    cases qM8 d with
    | true =>
      simp only [Bool.not_true, Bool.toNat_false, Bool.toNat_true, if_true]
      omega
    | false =>
      simp only [Bool.not_false, Bool.toNat_false, Bool.toNat_true, Bool.false_eq_true, if_false,
        ones_not]
      omega
  refine ⟨sum, ?_⟩
  rw [moved, sum]
  split_ifs
  · rw [gap_eq]
  · rw [gap_neg, ← BitVec.ofInt_neg, Int.neg_sub]

/-- The second branch: `cnt` moves with the symbol. -/
theorem inverted_step (cnt : BitVec 4) :
    balance (inverted cnt d).qOut = 2 * ((qM8 d).toNat : ℤ) - (2 * (ones (qMLow d) : ℤ) - 8) ∧
      (inverted cnt d).cnt = cnt + BitVec.ofInt 4 (balance (inverted cnt d).qOut) := by
  have less := ones_le (qMLow d)
  have moved : (inverted cnt d).cnt = cnt + ((BitVec.ofBool (qM8 d)).setWidth 4 +
      (BitVec.ofBool (qM8 d)).setWidth 4 - (n1QM d - n0QM d)) := by
    unfold inverted
    dsimp only
    split_ifs <;> ring
  have sum : balance (inverted cnt d).qOut =
      2 * ((qM8 d).toNat : ℤ) - (2 * (ones (qMLow d) : ℤ) - 8) := by
    unfold inverted
    rw [balance_symbol, ones_not, Bool.toNat_true]
    omega
  refine ⟨sum, ?_⟩
  rw [moved, sum, extend_twice, gap_eq, ← ofInt_sub]

/-- The third branch: `cnt` moves with the symbol, and by four more if `q_m[8]` is one. -/
theorem plain_step (cnt : BitVec 4) :
    balance (plain cnt d).qOut = 2 * ((qM8 d).toNat : ℤ) + 2 * (ones (qMLow d) : ℤ) - 10 ∧
      (plain cnt d).cnt =
        cnt + BitVec.ofInt 4 (balance (plain cnt d).qOut - 4 * (qM8 d).toNat) := by
  have moved : (plain cnt d).cnt = cnt + (~~~((BitVec.ofBool (qM8 d)).setWidth 4) +
      ~~~((BitVec.ofBool (qM8 d)).setWidth 4) + (n1QM d - n0QM d)) := by
    unfold plain
    dsimp only
    split_ifs <;> ring
  have sum : balance (plain cnt d).qOut =
      2 * ((qM8 d).toNat : ℤ) + 2 * (ones (qMLow d) : ℤ) - 10 := by
    unfold plain
    rw [balance_symbol, Bool.toNat_false]
    omega
  refine ⟨sum, ?_⟩
  rw [moved, sum, complement_twice, gap_eq, ← BitVec.ofInt_add]
  congr 2
  ring

end Byte

/-! ## Runs -/

theorem balanced_zero : Balanced 0#4 0 := ⟨by decide, by decide, rfl⟩

/-- **One video byte** keeps the balance if and only if it bears what the code takes away. -/
theorem video_balanced_iff {cnt : BitVec 4} {x : ℤ} (balanced : Balanced cnt x) (d : BitVec 8) :
    Balanced (video cnt d).cnt (x + balance (video cnt d).qOut) ↔ Bears cnt x d := by
  obtain ⟨low, high, rfl⟩ := balanced
  have less := ones_le (qMLow d)
  have bit : (qM8 d).toNat ≤ 1 := Bool.toNat_le _
  unfold video Bears
  by_cases first : BitVec.ofInt 4 x = 0#4 ∨ n1QM d = 4#4
  · rw [if_pos first]
    obtain ⟨sum, moved⟩ := even_step d (BitVec.ofInt 4 x)
    have bounds : -8 ≤ x + balance (even (BitVec.ofInt 4 x) d).qOut ∧
        x + balance (even (BitVec.ofInt 4 x) d).qOut ≤ 8 := by
      rw [sum]
      rcases first with zero | four
      · obtain rfl := eq_zero_of_ofInt low high zero
        split_ifs <;> omega
      · rw [(eq_four_iff d).mp four]
        split_ifs <;> omega
    refine iff_of_true ⟨bounds.1, bounds.2, ?_⟩ ?_
    · rw [moved, BitVec.ofInt_add]
    · exact first.imp_right fun four => .inl ((eq_four_iff d).mp four)
  · rw [if_neg first]
    obtain ⟨some, uneven⟩ := not_or.mp first
    rw [eq_four_iff] at uneven
    have positive : 0#4 < BitVec.ofInt 4 x :=
      BitVec.lt_def.mpr (Nat.pos_of_ne_zero fun zero => some (BitVec.eq_of_toNat_eq zero))
    by_cases more : 4 < ones (qMLow d)
    · obtain ⟨sum, moved⟩ := inverted_step d (BitVec.ofInt 4 x)
      rw [if_pos (.inl ⟨positive, (four_lt_iff d).mpr more⟩)]
      constructor
      · rintro ⟨bound, _, _⟩
        rw [sum] at bound
        exact .inr (.inr (.inl ⟨more, by omega⟩))
      · rintro (zero | four | ⟨_, bound⟩ | ⟨fewer, _⟩)
        · exact absurd zero some
        · exact absurd four uneven
        · refine ⟨?_, ?_, by rw [moved, BitVec.ofInt_add]⟩
          · rw [sum]
            omega
          · rw [sum]
            omega
        · exact absurd fewer (Nat.lt_asymm more)
    · obtain ⟨sum, moved⟩ := plain_step d (BitVec.ofInt 4 x)
      have second : ¬ ((0#4 < BitVec.ofInt 4 x ∧ 4#4 < n1QM d) ∨
          (BitVec.ofInt 4 x < 0#4 ∧ n1QM d < 4#4)) := by
        rintro (⟨_, h⟩ | ⟨h, _⟩)
        · exact more ((four_lt_iff d).mp h)
        · exact BitVec.not_lt_zero h
      rw [if_neg second]
      constructor
      · rintro ⟨bound, _, same⟩
        rw [moved, BitVec.ofInt_add] at same
        have bit_zero : qM8 d = false := by
          cases set : qM8 d with
          | false => rfl
          | true =>
            rw [set, ofInt_sub] at same
            have four : BitVec.ofInt 4 (4 * ((true.toNat : ℕ) : ℤ)) = 0#4 :=
              sub_eq_self.mp (add_left_cancel same)
            exact absurd four (by decide)
        rw [sum, bit_zero, Bool.toNat_false] at bound
        exact .inr (.inr (.inr ⟨by omega, bit_zero, by omega⟩))
      · rintro (zero | four | ⟨more', _⟩ | ⟨fewer, bit_zero, bound⟩)
        · exact absurd zero some
        · exact absurd four uneven
        · exact absurd more' more
        · refine ⟨?_, ?_, ?_⟩
          · rw [sum, bit_zero, Bool.toNat_false]
            omega
          · rw [sum, bit_zero, Bool.toNat_false]
            omega
          · rw [moved, bit_zero, Bool.toNat_false, Nat.cast_zero, mul_zero, sub_zero,
              BitVec.ofInt_add]

section Run

variable (qOut : BitVec 10) (input : ℕ → In)

/-- The encoder keeps the balance at edge `n`, as far as it is a video byte. -/
def BearsAt (n : ℕ) : Prop :=
  (input n).iVideoEnable = true →
    Bears (states qOut input n).cnt (disparity qOut input n) (input n).iVideoData

/-- One edge keeps the balance if and only if its byte bears it. -/
theorem next_balanced_iff {n : ℕ}
    (balanced : Balanced (states qOut input n).cnt (disparity qOut input n)) :
    Balanced (states qOut input (n + 1)).cnt (disparity qOut input (n + 1)) ↔
      BearsAt qOut input n := by
  have state : states qOut input (n + 1) = next (states qOut input n) (input n) := rfl
  unfold BearsAt
  rw [disparity]
  cases enable : (input n).iVideoEnable with
  | true =>
    have coded :
        states qOut input (n + 1) = video (states qOut input n).cnt (input n).iVideoData := by
      rw [state, next, enable, if_pos rfl]
    rw [if_pos rfl, coded, video_balanced_iff balanced]
    exact ⟨fun bears _ => bears, fun bears => bears rfl⟩
  | false =>
    have cleared : (states qOut input (n + 1)).cnt = 0#4 := by
      rw [state, next, enable]
      rfl
    rw [if_neg (by decide), cleared]
    exact iff_of_true balanced_zero fun h => nomatch h

/-- **The balance is kept** in a run, up to an edge, if and only if every byte before that edge
bears what the code takes away. -/
theorem balanced_iff (n : ℕ) :
    (∀ k ≤ n, Balanced (states qOut input k).cnt (disparity qOut input k)) ↔
      ∀ k < n, BearsAt qOut input k := by
  induction n with
  | zero =>
    refine iff_of_true (fun k hk => ?_) fun k hk => (nomatch hk)
    obtain rfl := Nat.le_zero.mp hk
    exact balanced_zero
  | succ n ih =>
    constructor
    · intro all k hk
      exact (next_balanced_iff qOut input (all k (Nat.le_of_lt hk))).mp (all (k + 1) hk)
    · intro bears k hk
      have before := ih.mpr fun j hj => bears j (Nat.lt_succ_of_lt hj)
      rcases Nat.lt_or_eq_of_le hk with earlier | rfl
      · exact before k (Nat.le_of_lt_succ earlier)
      · exact (next_balanced_iff qOut input (before n (Nat.le_refl n))).mpr
          (bears n (Nat.lt_succ_self n))

end Run

/-- Black pixels. -/
def black (_ : ℕ) : In := ⟨0#8, 0#2, true⟩

/-- The second black pixel takes the disparity from minus eight to minus sixteen, and `cnt` to
twelve. -/
theorem black_unbalanced : disparity 0#10 black 2 = -16 ∧ (states 0#10 black 2).cnt = 12#4 ∧
    ¬ Balanced (states 0#10 black 2).cnt (disparity 0#10 black 2) := by
  have below : disparity 0#10 black 2 = -16 := by decide +kernel
  refine ⟨below, by decide +kernel, fun balanced => ?_⟩
  have bound := balanced.1
  rw [below] at bound
  exact absurd bound (by decide)

end Teres.Rtl.Tmds
