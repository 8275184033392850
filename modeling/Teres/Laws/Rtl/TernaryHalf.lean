import Teres.Laws.Rtl.TernaryIncrement

/-!
# Chains of half adders

A two-input cell is chained from the least significant trit on, its carry out feeding the carry in
of the next. The carry table of `t3_half_adder` is that of the full adder with a zero operand, and
so is its digit table but for one entry: a zero that meets a carry of plus gives a zero, and the
carry is gone (`t3HalfAdder_cell`). A carry of plus comes from the carry in and goes on through
pluses only, so a chain meets that entry in one place at most, the lowest trit that is not a plus
(`chainCarry_plus`).
-/

namespace Teres.Rtl

/-- The carry into each stage of a chain of cells, each of which takes a trit of the word and the
carry, and gives a trit and the next carry. -/
def chainCarry {n : ℕ} (cell : Trit → Trit → Trit × Trit) (a : BitVec (2 * n)) (c : Trit) :
    ℕ → Trit
  | 0 => c
  | i + 1 => (cell (tritOf a i) (chainCarry cell a c i)).2

/-- The word that a chain of cells gives, and its carry out. -/
def chain {n : ℕ} (cell : Trit → Trit → Trit × Trit) (a : BitVec (2 * n)) (c : Trit) :
    BitVec (2 * n) × Trit :=
  (ofTrits n fun i => (cell (tritOf a i) (chainCarry cell a c i)).1, chainCarry cell a c n)

/-- The full adder with `I_b` zero. -/
def t3FullCell (a c : Trit) : Trit × Trit := t3FullAdder a 0b00#2 c

/-- The carry in is a plus, and the lowest trit that is not a plus is a zero. -/
def CarryMeetsZero {n : ℕ} (a : BitVec (2 * n)) (c : Trit) : Prop :=
  c = 0b01#2 ∧ ∃ k < n, tritOf a k = 0b00#2 ∧ ∀ i < k, tritOf a i = 0b01#2

instance {n : ℕ} (a : BitVec (2 * n)) (c : Trit) : Decidable (CarryMeetsZero a c) :=
  inferInstanceAs (Decidable (_ ∧ ∃ k < n, _))

/-! ## The tables -/

/-- **The one wrong entry** of the half adder. -/
theorem t3HalfAdder_cell : ∀ a c : Trit, a.Valid → c.Valid →
    (t3HalfAdder a c).2 = (t3FullCell a c).2 ∧
      ((t3HalfAdder a c).1 = (t3FullCell a c).1 ↔ ¬ (a = 0b00#2 ∧ c = 0b01#2)) := by
  decide

theorem t3HalfAdder_valid : ∀ a c : Trit, a.Valid → c.Valid → (t3HalfAdder a c).1.Valid := by
  decide

/-- A carry of plus has come through a plus. -/
theorem t3FullCell_plus : ∀ a c : Trit, a.Valid → c.Valid →
    ((t3FullCell a c).2 = 0b01#2 ↔ a = 0b01#2 ∧ c = 0b01#2) := by
  decide

/-! ## The chains -/

section Chains

variable {n : ℕ} {a : BitVec (2 * n)} {c : Trit}

theorem fullCell_valid (ha : ValidWord a) (hc : c.Valid) :
    ∀ i ≤ n, (chainCarry t3FullCell a c i).Valid := by
  intro i hi
  induction i with
  | zero => exact hc
  | succ i ih =>
    have zero : Trit.Valid 0b00#2 := by decide
    exact (t3FullAdder_balance _ _ _ (ha i hi) zero (ih (Nat.le_of_succ_le hi))).2.1

/-- The two chains pass the same carries on. -/
theorem chainCarry_same (ha : ValidWord a) (hc : c.Valid) :
    ∀ i ≤ n, chainCarry t3HalfAdder a c i = chainCarry t3FullCell a c i := by
  intro i hi
  induction i with
  | zero => rfl
  | succ i ih =>
    have below := ih (Nat.le_of_succ_le hi)
    have valid := fullCell_valid ha hc i (Nat.le_of_succ_le hi)
    rw [chainCarry, chainCarry, below]
    exact (t3HalfAdder_cell _ _ (ha i hi) valid).1

/-- The carry into a stage is a plus when the carry in is and every trit below. -/
theorem chainCarry_plus (ha : ValidWord a) (hc : c.Valid) : ∀ i ≤ n,
    (chainCarry t3FullCell a c i = 0b01#2 ↔ c = 0b01#2 ∧ ∀ j < i, tritOf a j = 0b01#2) := by
  intro i hi
  induction i with
  | zero => simp [chainCarry]
  | succ i ih =>
    have below := ih (Nat.le_of_succ_le hi)
    have valid := fullCell_valid ha hc i (Nat.le_of_succ_le hi)
    rw [chainCarry, t3FullCell_plus _ _ (ha i hi) valid, below, Nat.forall_lt_succ_right]
    tauto

/-- **The chain of full adders is exact**, from its carry tables and digit tables. -/
theorem fullChain_exact (ha : ValidWord a) (hc : c.Valid) :
    ValidWord (chain t3FullCell a c).1 ∧
      wordValue (chain t3FullCell a c).1 + 3 ^ n * (chain t3FullCell a c).2.value =
        wordValue a + c.value := by
  have zero : Trit.Valid 0b00#2 := by decide
  have stage : ∀ i < n, _ := fun i hi =>
    t3FullAdder_balance _ _ _ (ha i hi) zero (fullCell_valid ha hc i hi.le)
  have trit : ∀ i < n, tritOf (chain t3FullCell a c).1 i =
      (t3FullCell (tritOf a i) (chainCarry t3FullCell a c i)).1 := fun i hi => tritOf_ofTrits _ hi
  constructor
  · intro i hi
    rw [trit i hi]
    exact (stage i hi).1
  · have law := Positional.ripple_value (3 : ℤ) (fun i => (tritOf a i).value) (fun _ => 0)
      (fun i => (t3FullCell (tritOf a i) (chainCarry t3FullCell a c i)).1.value)
      (fun i => (chainCarry t3FullCell a c i).value) (n := n) fun i hi => (stage i hi).2.2
    have out : wordValue (chain t3FullCell a c).1 = Positional.value 3 (fun i =>
        (t3FullCell (tritOf a i) (chainCarry t3FullCell a c i)).1.value) n :=
      Positional.value_congr 3 fun i hi => by rw [trit i hi]
    have none : Positional.value (3 : ℤ) (fun _ => 0) n = 0 := by simp [Positional.value]
    rw [none, add_zero] at law
    rw [out]
    exact law

/-- The two chains differ where a zero meets a carry of plus. -/
theorem halfChain_eq_iff (ha : ValidWord a) (hc : c.Valid) :
    chain t3HalfAdder a c = chain t3FullCell a c ↔ ¬ CarryMeetsZero a c := by
  have same := chainCarry_same ha hc
  have stage : ∀ i < n, (t3HalfAdder (tritOf a i) (chainCarry t3HalfAdder a c i)).1 =
      (t3FullCell (tritOf a i) (chainCarry t3FullCell a c i)).1 ↔
        ¬ (tritOf a i = 0b00#2 ∧ c = 0b01#2 ∧ ∀ j < i, tritOf a j = 0b01#2) := by
    intro i hi
    rw [same i hi.le, (t3HalfAdder_cell _ _ (ha i hi) (fullCell_valid ha hc i hi.le)).2,
      chainCarry_plus ha hc i hi.le]
  have words : (chain t3HalfAdder a c).1 = (chain t3FullCell a c).1 ↔
      ∀ i < n, ¬ (tritOf a i = 0b00#2 ∧ c = 0b01#2 ∧ ∀ j < i, tritOf a j = 0b01#2) := by
    constructor
    · intro eq i hi
      have trit := congrArg (tritOf · i) eq
      simp only [chain, tritOf_ofTrits _ hi] at trit
      exact (stage i hi).mp trit
    · intro never
      apply eq_of_trits
      intro i hi
      simp only [chain, tritOf_ofTrits _ hi]
      exact (stage i hi).mpr (never i hi)
  rw [Prod.ext_iff, words]
  constructor
  · rintro ⟨never, _⟩ ⟨plus, k, hk, zero, below⟩
    exact never k hk ⟨zero, plus, below⟩
  · intro never
    refine ⟨?_, same n le_rfl⟩
    rintro i hi ⟨zero, plus, below⟩
    exact never ⟨plus, i, hi, zero, below⟩

/-- The chain of half adders keeps the value exactly when it gives the word of the full adders: a
balanced numeral is known by its value. -/
theorem halfChain_value_iff (ha : ValidWord a) (hc : c.Valid) :
    wordValue (chain t3HalfAdder a c).1 + 3 ^ n * (chain t3HalfAdder a c).2.value =
        wordValue a + c.value ↔
      chain t3HalfAdder a c = chain t3FullCell a c := by
  have same := chainCarry_same ha hc
  obtain ⟨valid, exact⟩ := fullChain_exact ha hc
  constructor
  · intro value
    have carry : (chain t3HalfAdder a c).2 = (chain t3FullCell a c).2 := same n le_rfl
    have equal : wordValue (chain t3HalfAdder a c).1 = wordValue (chain t3FullCell a c).1 := by
      rw [carry] at value
      omega
    have balanced : ∀ w : BitVec (2 * n),
        Positional.Balanced 1 (fun i => (tritOf w i).value) n := fun _ _ _ => Trit.value_abs _
    have digit := (balanced _).unique (balanced _) equal
    refine Prod.ext (eq_of_trits fun i hi => ?_) carry
    have half : (tritOf (chain t3HalfAdder a c).1 i).Valid := by
      rw [chain, tritOf_ofTrits _ hi, same i hi.le]
      exact t3HalfAdder_valid _ _ (ha i hi) (fullCell_valid ha hc i hi.le)
    exact Trit.value_injective _ _ half (valid i hi) (digit i hi)
  · intro eq
    rw [eq]
    exact exact

end Chains

/-! ## The increment -/

/-- The full adders, with a plus carried in, add one. -/
theorem fullChain_increment {a : BitVec (2 * 16)} (ha : ValidWord a) :
    chain t3FullCell a 0b01#2 = t3Addition a 1#32 := by
  have carry : ∀ i ≤ 16, chainCarry t3FullCell a 0b01#2 i = ripple a i := by
    intro i hi
    induction i with
    | zero => rfl
    | succ i ih =>
      rw [chainCarry, ih (Nat.le_of_succ_le hi), t3FullCell,
        (t3FullAdder_carry _ _ (ha i hi) (ripple_carry ha i (Nat.le_of_succ_le hi))).1]
      rfl
  refine Prod.ext (eq_of_trits (n := 16) fun i hi => ?_) ?_
  · rw [IncrementWires.addition_out ha hi, chain, tritOf_ofTrits _ hi, carry i hi.le, t3FullCell,
      (t3FullAdder_carry _ _ (ha i hi) (ripple_carry ha i hi.le)).1]
  · show chainCarry t3FullCell a 0b01#2 16 = t3AdditionCarry a 1#32 16
    rw [carry 16 le_rfl, addition_carry ha (by decide)]

/-- **When a chain of half adders adds its carry.** For valid words of any length the chain keeps
the value and gives what the chain of full adders gives exactly when no carry of plus meets a
zero; and under the same condition sixteen of them increment as `t3_increment` does. -/
theorem t3HalfAdder_chain_iff {n : ℕ} {a : BitVec (2 * n)} {c : Trit} (ha : ValidWord a)
    (hc : c.Valid) :
    (wordValue (chain t3HalfAdder a c).1 + 3 ^ n * (chain t3HalfAdder a c).2.value =
        wordValue a + c.value ∧
      chain t3HalfAdder a c = chain t3FullCell a c ↔ ¬ CarryMeetsZero a c) ∧
    (∀ b : BitVec (2 * 16), ValidWord b →
      ((∀ w : IncrementWires, w.Settled b → chain t3HalfAdder b 0b01#2 = (w.out, w.carry)) ↔
        ¬ CarryMeetsZero b 0b01#2)) := by
  constructor
  · rw [halfChain_value_iff ha hc, and_self]
    exact halfChain_eq_iff ha hc
  · intro b hb
    have plus : Trit.Valid 0b01#2 := by decide
    rw [← halfChain_eq_iff hb plus, fullChain_increment hb]
    constructor
    · intro same
      exact same _ ((IncrementWires.settled_iff hb).mpr rfl)
    · intro eq w settled
      rw [eq, (IncrementWires.settled_iff hb).mp settled]
      rfl

/-- Four trits, the lowest a plus and the next a minus, with a plus carried in. -/
theorem t3HalfAdder_chain_four :
    wordValue (n := 4) (chain (n := 4) t3HalfAdder 0b00001001#8 0b01#2).1 +
        3 ^ 4 * (chain (n := 4) t3HalfAdder 0b00001001#8 0b01#2).2.value =
      wordValue (n := 4) 0b00001001#8 + Trit.value 0b01#2 := by
  have word : ValidWord (n := 4) 0b00001001#8 := by decide
  have carry : Trit.Valid 0b01#2 := by decide
  exact ((t3HalfAdder_chain_iff word carry).1.mpr (by decide)).1

/-- **A lost plus.** One trit, zero, with a plus carried in gives zero and carries nothing out. -/
theorem lost_plus :
    ValidWord (n := 1) 0b00#2 ∧ Trit.Valid 0b01#2 ∧
    chain (n := 1) t3HalfAdder 0b00#2 0b01#2 = (0b00#2, 0b00#2) ∧
    chain (n := 1) t3FullCell 0b00#2 0b01#2 = (0b01#2, 0b00#2) ∧
    wordValue (n := 1) (chain (n := 1) t3HalfAdder 0b00#2 0b01#2).1 +
        3 ^ 1 * (chain (n := 1) t3HalfAdder 0b00#2 0b01#2).2.value ≠
      wordValue (n := 1) 0b00#2 + Trit.value 0b01#2 := by
  decide

end Teres.Rtl
