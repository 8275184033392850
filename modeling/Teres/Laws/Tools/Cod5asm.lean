import Teres.Laws.Tools.Mnemonics
import Mathlib.Algebra.Order.Group.Abs
import Mathlib.Algebra.Order.Group.Int
import Mathlib.Tactic.Ring

/-!
# The operands that the assembler writes

`bin2ter` sets a digit where the rest of the number equals half the weight, where `b2t` asks whether
it exceeds it. So the last digit is a plus for zero and no sign for every other number
(`bin2ter_eq`), and a multiple of three has no digit at all (`bin2ter_three`). `b2t` has no sign in
its last trit just for the multiples of three, and is zero for zero alone. So the four trytes are
those of `b2t` for no number (`operand_wrong`).
-/

namespace Teres.Tools.Cod5asm

/-! ## The digits of `bin2ter` -/

theorem half_pow (k : ℕ) : ∃ h : ℤ, (3 : ℤ) ^ k = 2 * h + 1 ∧ (3 : ℤ) ^ k / 2 = h ∧ 0 ≤ h := by
  induction k with
  | zero => exact ⟨0, rfl, rfl, Int.le_refl 0⟩
  | succ k ih =>
    obtain ⟨h, eq, _, pos⟩ := ih
    refine ⟨3 * h + 1, ?_, ?_, ?_⟩
    · rw [pow_succ, eq]
      ring
    · rw [pow_succ, eq]
      omega
    · omega

/-- What is left is zero only of zero, except at the last digit. -/
theorem remainder_eq_zero_iff (k : ℕ) (v : ℤ) : remainder (3 ^ (k + 1)) v = 0 ↔ v = 0 := by
  obtain ⟨h, eq, half, pos⟩ := half_pow k
  unfold remainder
  rw [pow_succ, eq]
  split_ifs <;> omega

/-- A multiple of three is left as it is. -/
theorem remainder_three {v : ℤ} (three : 3 ∣ v) {k : ℕ} (some : v ≠ 0) :
    remainder (3 ^ k) v = v ∧ digit (3 ^ k) v = '0' := by
  obtain ⟨w, rfl⟩ := three
  have other : 3 * w ≠ 3 ^ k / 2 ∧ 3 * w ≠ -(3 ^ k / 2) := by
    cases k with
    | zero =>
      change 3 * w ≠ 0 ∧ 3 * w ≠ -0
      omega
    | succ k =>
      obtain ⟨h, eq, _⟩ := half_pow k
      rw [pow_succ, eq]
      omega
  unfold remainder digit
  rw [if_neg other.1, if_neg other.2, if_neg other.1, if_neg other.2]
  exact ⟨rfl, rfl⟩

theorem pow_div_three (k : ℕ) : (3 : ℤ) ^ (k + 1) / 3 = 3 ^ k := by
  rw [pow_succ, Int.mul_ediv_cancel _ (by decide)]

/-- **Rounds keep whether there is something left**, as long as the weight is above one. -/
theorem rounds_eq_zero_iff (l : List ℕ) : ∀ {k : ℕ} {s : Digits}, s.n = 3 ^ (k + l.length) →
    (l.foldl Digits.round s).n = 3 ^ k ∧ ((l.foldl Digits.round s).v = 0 ↔ s.v = 0) := by
  induction l with
  | nil => exact fun weight => ⟨weight, Iff.rfl⟩
  | cons i l ih =>
    intro k s weight
    rw [List.length_cons, ← Nat.add_assoc] at weight
    have next : (s.round i).n = 3 ^ (k + l.length) := by
      change s.n / 3 = _
      rw [weight, pow_div_three]
    obtain ⟨last, zero⟩ := ih next
    refine ⟨last, zero.trans ?_⟩
    change remainder s.n s.v = 0 ↔ _
    rw [weight, remainder_eq_zero_iff]

/-- The three characters of a trit. -/
def IsTrit (c : Char) : Prop := c = '+' ∨ c = '-' ∨ c = '0'

theorem digit_isTrit (n v : ℤ) : IsTrit (digit n v) := by
  unfold digit
  split_ifs
  · exact .inl rfl
  · exact .inr (.inl rfl)
  · exact .inr (.inr rfl)

/-- The last digit is a plus for zero and none otherwise. -/
theorem digit_one (v : ℤ) : digit 1 v = if v = 0 then '+' else '0' := by
  have half : (1 : ℤ) / 2 = 0 := rfl
  unfold digit
  rw [half, Int.neg_zero]
  split_ifs <;> rfl

/-- **The text begins with the last four digits**, and the last of them is a plus for zero and none
otherwise. -/
theorem bin2ter_eq (v : ℤ) (buf : ℕ → Char) : ∃ a b c s, IsTrit a ∧ IsTrit b ∧ IsTrit c ∧
    bin2ter v buf = a :: b :: c :: (if v = 0 then '+' else '0') :: ',' :: s := by
  obtain ⟨s, eq⟩ : ∃ s, s = [15, 14, 13, 12, 11, 10, 9, 8, 7, 6, 5, 4].foldl Digits.round
    ⟨v, 3 ^ 15, 12 + 3, Function.update buf (12 + 3 + 4) '\x00'⟩ := ⟨_, rfl⟩
  have first : s.n = 3 ^ 3 ∧ (s.v = 0 ↔ v = 0) := by
    rw [eq]
    exact rounds_eq_zero_iff _ rfl
  have later : (([3, 2, 1].foldl Digits.round s).n = 3 ^ 0) ∧
      (([3, 2, 1].foldl Digits.round s).v = 0 ↔ s.v = 0) := rounds_eq_zero_iff _ first.1
  have text : bin2ter v buf =
      (List.range 19).map ([3, 2, 1, 0].foldl Digits.round s).buf := by
    rw [eq]
    rfl
  obtain ⟨weight, zero⟩ := later
  have last : digit ([3, 2, 1].foldl Digits.round s).n ([3, 2, 1].foldl Digits.round s).v =
      if v = 0 then '+' else '0' := by
    rw [weight, pow_zero, digit_one]
    exact if_congr (zero.trans first.2) rfl rfl
  refine ⟨digit s.n s.v, digit (s.round 3).n (s.round 3).v,
    digit ([3, 2].foldl Digits.round s).n ([3, 2].foldl Digits.round s).v,
    (List.range' 5 14).map s.buf, digit_isTrit _ _, digit_isTrit _ _, digit_isTrit _ _, ?_⟩
  rw [text, ← last]
  rfl

/-- A round that writes a zero and leaves the number as it is. -/
def Digits.blank (s : Digits) (i : ℕ) : Digits :=
  let p := s.place i
  { v := s.v, n := s.n / 3, j := p.j + 1, buf := Function.update p.buf p.j '0' }

theorem rounds_three {v : ℤ} (three : 3 ∣ v) (some : v ≠ 0) (l : List ℕ) :
    ∀ {k : ℕ} {s : Digits}, s.n = 3 ^ k → s.v = v → l.length ≤ k + 1 →
      l.foldl Digits.round s = l.foldl Digits.blank s := by
  induction l with
  | nil => exact fun _ _ _ => rfl
  | cons i l ih =>
    intro k s weight value bound
    obtain ⟨rest, zero⟩ := remainder_three three (k := k) some
    have step : s.round i = s.blank i := by
      unfold Digits.round Digits.blank
      rw [weight, value, rest, zero]
    rw [List.foldl_cons, List.foldl_cons, step]
    cases k with
    | zero =>
      cases l with
      | nil => rfl
      | cons _ _ => simp at bound
    | succ k =>
      refine ih (k := k) ?_ value (Nat.le_of_succ_le_succ bound)
      change s.n / 3 = _
      rw [weight, pow_div_three]

/-- **A multiple of three has no digit.** -/
theorem bin2ter_three {v : ℤ} (three : 3 ∣ v) (some : v ≠ 0) (buf : ℕ → Char) :
    bin2ter v buf = ['0', '0', '0', '0', ',', '0', '0', '0', '0', ',', '0', '0', '0', '0', ',',
      '0', '0', '0', '0'] := by
  change (List.range 19).map (rounds.foldl Digits.round
    ⟨v, 3 ^ 15, 12 + 3, Function.update buf (12 + 3 + 4) '\x00'⟩).buf = _
  rw [rounds_three three some (k := 15) rounds rfl rfl (by decide)]
  rfl

/-! ## The trits of `b2t` -/

/-- A trit, as it comes into the word: what is left of the number, and the two bits. -/
inductive Trit (n v : ℤ) : ℤ → BitVec 32 → Prop where
  | zero : Trit n v v 0#32
  | plus : n < 2 * v → Trit n v (v - n) 1#32
  | minus : 2 * v < -n → Trit n v (v + n) 2#32

/-- **One round of `b2t`.** Behind it there is less than half the weight left. -/
theorem b2tLoop_round {n : ℕ} (odd : n % 2 = 1) {v : ℤ} (low : -(3 * n) < 2 * v)
    (high : 2 * v < 3 * n) (t : BitVec 32) : ∃ v' d, Trit n v v' d ∧ -(n : ℤ) < 2 * v' ∧
      2 * v' < n ∧ b2tLoop n v t = b2tLoop (n / 3) v' (t <<< 2 ||| d) := by
  have some : 0 < n := by omega
  rw [b2tLoop, dif_pos some]
  split_ifs with zero plus minus
  · subst zero
    refine ⟨0, _, .zero, by omega, by omega, ?_⟩
    rw [BitVec.or_zero]
  · exact ⟨_, _, .plus (by omega), by omega, by omega, rfl⟩
  · exact ⟨_, _, .minus (by omega), by omega, by omega, rfl⟩
  · refine ⟨v, _, .zero, by omega, by omega, ?_⟩
    rw [BitVec.or_zero]

theorem pow_odd (k : ℕ) : 3 ^ k % 2 = 1 := by
  rw [Nat.pow_mod, Nat.one_pow]

/-- The last two bits are the last trit's. -/
theorem last_bits (t d : BitVec 32) : (t <<< 2 ||| d).setWidth 2 = d.setWidth 2 := by
  ext i bound
  simp

/-- **The last trit is none just for the multiples of three.** -/
theorem three_of_last_zero (k : ℕ) : ∀ {v : ℤ} {t : BitVec 32},
    -(3 * (3 ^ k : ℕ) : ℤ) < 2 * v → 2 * v < 3 * (3 ^ k : ℕ) →
    (b2tLoop (3 ^ k) v t).setWidth 2 = 0#2 → 3 ∣ v := by
  induction k with
  | zero =>
    intro v t low high last
    obtain ⟨v', d, trit, above, below, eq⟩ := b2tLoop_round (pow_odd 0) low high t
    have done : b2tLoop (3 ^ 0 / 3) v' (t <<< 2 ||| d) = t <<< 2 ||| d := by
      rw [b2tLoop]
      rfl
    rw [eq, done, last_bits] at last
    cases trit with
    | zero => omega
    | plus _ => cases last
    | minus _ => cases last
  | succ k ih =>
    intro v t low high last
    obtain ⟨v', d, trit, above, below, eq⟩ := b2tLoop_round (pow_odd (k + 1)) low high t
    have next : 3 ^ (k + 1) / 3 = 3 ^ k := by
      rw [Nat.pow_succ, Nat.mul_div_cancel _ (by decide)]
    rw [eq, next] at last
    rw [Nat.pow_succ] at above below
    have three := ih (by omega) (by omega) last
    have weight : (3 : ℤ) ∣ (3 ^ (k + 1) : ℕ) := by
      rw [Nat.pow_succ]
      exact ⟨(3 ^ k : ℕ), by omega⟩
    cases trit with
    | zero => exact three
    | plus _ => omega
    | minus _ => omega

theorem toNat_shift_or {t d : BitVec 32} (room : (t.toNat + 1) * 4 ≤ 2 ^ 32) (small : d.toNat < 4) :
    (t <<< 2 ||| d).toNat = t.toNat * 4 + d.toNat := by
  have fits : t.toNat * 4 < 2 ^ 32 := by omega
  have shifted : t.toNat <<< 2 = t.toNat * 4 := Nat.shiftLeft_eq ..
  rw [BitVec.toNat_or, BitVec.toNat_shiftLeft, shifted, Nat.mod_eq_of_lt fits, ← shifted,
    Nat.shiftLeft_add_eq_or_of_lt small]

theorem Trit.small {n v v' : ℤ} {d : BitVec 32} (trit : Trit n v v' d) : d.toNat < 4 := by
  cases trit <;> decide

theorem b2tLoop_zero (n : ℕ) : b2tLoop n 0 0#32 = 0#32 := by
  induction n using Nat.strong_induction_on with
  | _ n ih =>
    rw [b2tLoop]
    by_cases more : 0 < n
    · rw [dif_pos more, if_pos rfl]
      exact ih (n / 3) (Nat.div_lt_self more (by decide))
    · rw [dif_neg more]

/-- A round that leaves nothing of nothing began with nothing. -/
theorem Trit.zero_of_zero {n v v' : ℤ} {t d : BitVec 32} (trit : Trit n v v' d)
    (room : (t.toNat + 1) * 4 ≤ 2 ^ 32) (zero : t <<< 2 ||| d = 0#32) (rest : v' = 0) :
    t = 0#32 ∧ v = 0 := by
  have sum := toNat_shift_or room trit.small
  rw [zero] at sum
  have none : t.toNat = 0 ∧ d.toNat = 0 := by
    change 0 = _ at sum
    omega
  refine ⟨BitVec.eq_of_toNat_eq none.1, ?_⟩
  cases trit with
  | zero => exact rest
  | plus _ => cases none.2
  | minus _ => cases none.2

/-- **Zero is the word of zero alone**, as long as no trit is shifted out. -/
theorem zero_of_b2tLoop_zero (k : ℕ) : ∀ {v : ℤ} {t : BitVec 32},
    -(3 * (3 ^ k : ℕ) : ℤ) < 2 * v → 2 * v < 3 * (3 ^ k : ℕ) →
    (t.toNat + 1) * 4 ^ (k + 1) ≤ 2 ^ 32 → b2tLoop (3 ^ k) v t = 0#32 → t = 0#32 ∧ v = 0 := by
  induction k with
  | zero =>
    intro v t low high room zero
    obtain ⟨v', d, trit, above, below, eq⟩ := b2tLoop_round (pow_odd 0) low high t
    have done : b2tLoop (3 ^ 0 / 3) v' (t <<< 2 ||| d) = t <<< 2 ||| d := by
      rw [b2tLoop]
      rfl
    rw [eq, done] at zero
    exact trit.zero_of_zero room zero (by omega)
  | succ k ih =>
    intro v t low high room zero
    obtain ⟨v', d, trit, above, below, eq⟩ := b2tLoop_round (pow_odd (k + 1)) low high t
    have next : 3 ^ (k + 1) / 3 = 3 ^ k := by
      rw [Nat.pow_succ, Nat.mul_div_cancel _ (by decide)]
    rw [Nat.pow_succ, Nat.mul_comm _ 4, ← Nat.mul_assoc] at room
    have fits : (t.toNat + 1) * 4 ≤ 2 ^ 32 :=
      (Nat.le_mul_of_pos_right _ (Nat.pow_pos (by decide))).trans room
    have more : (t <<< 2 ||| d).toNat + 1 ≤ (t.toNat + 1) * 4 := by
      have small := trit.small
      rw [toNat_shift_or fits small]
      omega
    rw [eq, next] at zero
    rw [Nat.pow_succ] at above below
    obtain ⟨none, rest⟩ :=
      ih (by omega) (by omega) ((Nat.mul_le_mul_right _ more).trans room) zero
    exact trit.zero_of_zero fits none rest

/-! ## The trytes of the text -/

theorem Out.put_emitted (o : Out) (v : BitVec 32) : (o.put v).emitted = o.emitted ++ [v] := by
  unfold Out.put
  split_ifs <;> rfl

theorem addT4_emitted {str rest : List Char} {v : BitVec 32}
    (read : trits (skipSpace str) 0#32 = some (v, rest)) (o : Out) :
    (addT4 str o).1.emitted = o.emitted ++ [v] := by
  unfold addT4
  rw [read]
  exact o.put_emitted v

/-- Nothing that was emitted is taken back. -/
theorem addT4_keeps (str : List Char) (o : Out) : o.emitted <+: (addT4 str o).1.emitted := by
  unfold addT4
  cases trits (skipSpace str) 0#32 with
  | none => exact List.prefix_rfl
  | some read =>
    change o.emitted <+: (o.put read.1).emitted
    rw [o.put_emitted]
    exact List.prefix_append ..

theorem skipSpace_trit {c : Char} (trit : IsTrit c) (s : List Char) :
    skipSpace (c :: s) = c :: s := by
  obtain rfl | rfl | rfl := trit <;> rfl

theorem trits_trit {c : Char} (trit : IsTrit c) (s : List Char) (v : BitVec 32) :
    ∃ d, trits (c :: s) v = trits s (v <<< 2 ||| d) := by
  obtain rfl | rfl | rfl := trit <;> exact ⟨_, rfl⟩

/-- **The first tryte of four trits ends with the last of them.** -/
theorem trits_four {a b c : Char} (first : IsTrit a) (second : IsTrit b) (third : IsTrit c)
    (v : ℤ) (s : List Char) : ∃ t,
      trits (skipSpace (a :: b :: c :: (if v = 0 then '+' else '0') :: ',' :: s)) 0#32 =
        some (t, ',' :: s) ∧ t.setWidth 2 = if v = 0 then 1#2 else 0#2 := by
  rw [skipSpace_trit first]
  obtain ⟨x, eq⟩ := trits_trit first (b :: c :: (if v = 0 then '+' else '0') :: ',' :: s) 0#32
  obtain ⟨y, eq'⟩ := trits_trit second (c :: (if v = 0 then '+' else '0') :: ',' :: s)
    (0#32 <<< 2 ||| x)
  obtain ⟨z, eq''⟩ := trits_trit third ((if v = 0 then '+' else '0') :: ',' :: s)
    ((0#32 <<< 2 ||| x) <<< 2 ||| y)
  rw [eq, eq', eq'']
  split_ifs
  · exact ⟨_, rfl, last_bits ..⟩
  · exact ⟨_, rfl, last_bits ..⟩

/-! ## Lines -/

/-- **A line that loads an immediate**: one of the two mnemonics, white space, and a decimal number
that ends with its digits. -/
inductive Immediate : List Char → ℤ → Prop where
  | plus {x g : Char} {gap digits rest : List Char} : x = 'a' ∨ x = 'b' → isspace g = true →
      gap.all isspace = true → digits ≠ [] → digits.all isDigit = true →
      rest.head?.all (fun c => !isDigit c) = true →
      Immediate ('l' :: 'd' :: 'i' :: x :: g :: gap ++ (digits ++ rest)) (decimal digits)
  | minus {x g : Char} {gap digits rest : List Char} : x = 'a' ∨ x = 'b' → isspace g = true →
      gap.all isspace = true → digits ≠ [] → digits.all isDigit = true →
      rest.head?.all (fun c => !isDigit c) = true →
      Immediate ('l' :: 'd' :: 'i' :: x :: g :: gap ++ ('-' :: digits ++ rest)) (-decimal digits)

/-- The four bytes of a word, the least significant first. -/
def littleEndian (w : BitVec 32) : List (BitVec 32) :=
  [w &&& 255#32, w >>> 8 &&& 255#32, w >>> 16 &&& 255#32, w >>> 24 &&& 255#32]

theorem takeWhile_digits {digits rest : List Char} (all : digits.all isDigit = true)
    (last : rest.head?.all (fun c => !isDigit c) = true) :
    (digits ++ rest).takeWhile isDigit = digits := by
  rw [List.takeWhile_append_of_pos (List.all_eq_true.1 all)]
  cases rest with
  | nil => exact List.append_nil _
  | cons c rest =>
    have other : isDigit c = false := by simpa using last
    rw [List.takeWhile_cons, other]
    exact List.append_nil _

theorem skipSpace_gap (gap : List Char) {s : List Char} {c : Char} (all : gap.all isspace = true)
    (first : isspace c = false) : skipSpace (gap ++ c :: s) = c :: s := by
  unfold skipSpace
  rw [List.dropWhile_append_of_pos (List.all_eq_true.1 all), List.dropWhile_cons, first]
  rfl

theorem isDigit_alone {c : Char} (isDig : isDigit c = true) :
    isspace c = false ∧ c ≠ ';' ∧ c ≠ '-' ∧ c ≠ '+' := by
  have other (d : Char) (none : isDigit d = false) : c ≠ d := by
    rintro rfl
    exact Bool.false_ne_true (none.symm.trans isDig)
  refine ⟨?_, other _ rfl, other _ rfl, other _ rfl⟩
  simp only [isspace, Bool.or_eq_false_iff, decide_eq_false_iff_not]
  exact ⟨⟨⟨⟨⟨other _ rfl, other _ rfl⟩, other _ rfl⟩, other _ rfl⟩, other _ rfl⟩, other _ rfl⟩

theorem decimal_append {digits rest : List Char} (all : digits.all isDigit = true)
    (last : rest.head?.all (fun c => !isDigit c) = true) :
    decimal (digits ++ rest) = decimal digits := by
  have alone : digits.takeWhile isDigit = digits := by
    have whole : (digits ++ []).takeWhile isDigit = digits := takeWhile_digits all rfl
    rwa [List.append_nil] at whole
  unfold decimal
  rw [takeWhile_digits all last, alone]

theorem cstr_append {s : List Char} (none : '\x00' ∉ s) (rest : List Char) :
    cstr (s ++ rest) = s ++ cstr rest := by
  unfold cstr
  refine List.takeWhile_append_of_pos fun c mem => decide_eq_true ?_
  rintro rfl
  exact none mem

/-- **`add_opcode` finds the mnemonic** and goes on with the operand. -/
theorem addOpcode_load {x g : Char} (named : x = 'a' ∨ x = 'b') (space : isspace g = true)
    (buf : ℕ → Char) (s : List Char) (o : Out) :
    addOpcode buf ('l' :: 'd' :: 'i' :: x :: g :: s) o ops =
      some (addOperand buf (cstr (g :: s)) (addT4 dashes o).1) := by
  have stops : isEnd g = true := by rw [isEnd, space, Bool.true_or]
  have some : g ≠ '\x00' := by
    rintro rfl
    cases space
  have goes : isEnd x = false := by
    rcases named with rfl | rfl
    · rfl
    · rfl
  have ends : ∃ c ∈ cstr ('l' :: 'd' :: 'i' :: x :: g :: s), isEnd c = true := by
    refine ⟨g, ?_, stops⟩
    have alone : '\x00' ∉ ['l', 'd', 'i', x, g] := by
      rcases named with rfl | rfl
      · simp [some.symm]
      · simp [some.symm]
    have text := cstr_append alone s
    rw [List.cons_append, List.cons_append, List.cons_append, List.cons_append,
      List.singleton_append] at text
    rw [text]
    simp
  have word : token ('l' :: 'd' :: 'i' :: x :: g :: s) = ['l', 'd', 'i', x] := by
    rw [token_cons rfl, token_cons rfl, token_cons rfl, token_cons goes, token_cons_end stops]
  have rest : behind ('l' :: 'd' :: 'i' :: x :: g :: s) = g :: s := by
    rw [behind_cons rfl, behind_cons rfl, behind_cons rfl, behind_cons goes, behind_cons_end stops]
  rw [addOpcode_entry ops_shape.plain ends, entry_eq ends ops_shape.plain, word, rest]
  rcases named with rfl | rfl
  · rfl
  · rfl

/-- The string at a pointer that has only characters of its own in front. -/
theorem cstr_operand {gap digits : List Char} (blank : gap.all isspace = true)
    (all : digits.all (fun c => isDigit c || c = '-') = true) (rest : List Char) :
    cstr (gap ++ (digits ++ rest)) = gap ++ (digits ++ cstr rest) := by
  rw [cstr_append, cstr_append]
  · intro mem
    cases List.all_eq_true.mp all _ mem
  · intro mem
    cases List.all_eq_true.mp blank _ mem

theorem atoi_digit {c : Char} (isDig : isDigit c = true) (s : List Char) :
    atoi (c :: s) = decimal (c :: s) := by
  obtain ⟨notSpace, _, notMinus, notPlus⟩ := isDigit_alone isDig
  have stay : skipSpace (c :: s) = c :: s := skipSpace_gap [] rfl notSpace
  unfold atoi
  rw [stay]
  split
  · next eq => exact absurd (List.cons.inj eq).1 notMinus
  · next eq => exact absurd (List.cons.inj eq).1 notPlus
  · rfl

/-- What a string begins with is what the memory begins with. -/
theorem cstr_head {p : Char → Bool} {rest : List Char} (last : rest.head?.all p = true) :
    (cstr rest).head?.all p = true := by
  cases rest with
  | nil => rfl
  | cons c rest =>
    by_cases nul : c = '\x00'
    · simp [cstr, nul]
    · simpa [cstr, nul] using last

/-- **What a line makes of its operand.** -/
theorem Immediate.operand {line : List Char} {v : ℤ} (loads : Immediate line v)
    (buf : ℕ → Char) (o : Out) : ∃ s c rest,
      addOpcode buf line o ops = some (addOperand buf s (addT4 dashes o).1) ∧
        skipSpace s = c :: rest ∧ c ≠ ';' ∧ (isDigit c || c = '-') = true ∧
        atoi (c :: rest) = v := by
  cases loads with
  | @plus x g gap digits rest named space white some all last =>
    have blank : (g :: gap).all isspace = true := by rw [List.all_cons, space, white]; rfl
    cases digits with
    | nil => exact absurd rfl some
    | cons c digits =>
      have isDig : isDigit c = true := (Bool.and_eq_true_iff.1 all).1
      obtain ⟨notSpace, notComment, _⟩ := isDigit_alone isDig
      have text : cstr (g :: gap ++ (c :: digits ++ rest)) =
          g :: gap ++ c :: (digits ++ cstr rest) := by
        refine cstr_operand blank (List.all_eq_true.2 fun d mem => ?_) rest
        rw [List.all_eq_true.1 all d mem, Bool.true_or]
      have found := addOpcode_load named space buf (gap ++ (c :: digits ++ rest)) o
      rw [← List.cons_append, text] at found
      refine ⟨_, c, digits ++ cstr rest, found,
        skipSpace_gap (g :: gap) blank notSpace, notComment, ?_, ?_⟩
      · rw [isDig, Bool.true_or]
      · rw [atoi_digit isDig, ← List.cons_append, decimal_append all (cstr_head last)]
  | @minus x g gap digits rest named space white some all last =>
    have blank : (g :: gap).all isspace = true := by rw [List.all_cons, space, white]; rfl
    have text : cstr (g :: gap ++ ('-' :: digits ++ rest)) =
        g :: gap ++ '-' :: (digits ++ cstr rest) := by
      refine cstr_operand blank ?_ rest
      rw [List.all_cons, List.all_eq_true.2 fun d mem => ?_]
      · rfl
      · rw [List.all_eq_true.1 all d mem, Bool.true_or]
    have found := addOpcode_load named space buf (gap ++ ('-' :: digits ++ rest)) o
    rw [← List.cons_append, text] at found
    refine ⟨_, '-', digits ++ cstr rest, found, skipSpace_gap (g :: gap) blank rfl, by decide, rfl,
      ?_⟩
    change -decimal (digits ++ cstr rest) = _
    rw [decimal_append all (cstr_head last)]

/-! ## No operand is right -/

theorem addOperand_number {s rest : List Char} {c : Char} (begins : skipSpace s = c :: rest)
    (notComment : c ≠ ';') (number : (isDigit c || c = '-') = true) (buf : ℕ → Char) (o : Out) :
    addOperand buf s o =
      ((addT4 ((bin2ter (atoi (c :: rest)) buf).drop 12)
        (addT4 ((bin2ter (atoi (c :: rest)) buf).drop 8)
          (addT4 ((bin2ter (atoi (c :: rest)) buf).drop 4)
            (addT4 (bin2ter (atoi (c :: rest)) buf) o).1).1).1).1, 0) := by
  unfold addOperand
  rw [begins]
  change (if c = ';' then (o, -1) else if (isDigit c || c = '-') = true then _ else (o, 0)) = _
  rw [if_neg notComment, if_pos number]

/-- The last trit of the first tryte is that of the text. -/
theorem addOperand_first {s rest : List Char} {c : Char} (begins : skipSpace s = c :: rest)
    (notComment : c ≠ ';') (number : (isDigit c || c = '-') = true) (buf : ℕ → Char) (o : Out) :
    ∃ t, t.setWidth 2 = (if atoi (c :: rest) = 0 then 1#2 else 0#2) ∧
      o.emitted ++ [t] <+: (addOperand buf s o).1.emitted := by
  obtain ⟨x, y, z, tail, first, second, third, text⟩ := bin2ter_eq (atoi (c :: rest)) buf
  obtain ⟨t, read, bits⟩ := trits_four first second third (atoi (c :: rest)) tail
  refine ⟨t, bits, ?_⟩
  rw [← text] at read
  rw [addOperand_number begins notComment number, ← addT4_emitted read]
  exact (addT4_keeps ..).trans ((addT4_keeps ..).trans (addT4_keeps ..))

/-- A multiple of three is four trytes of zeros. -/
theorem addOperand_three {s rest : List Char} {c : Char} (begins : skipSpace s = c :: rest)
    (notComment : c ≠ ';') (number : (isDigit c || c = '-') = true)
    (three : 3 ∣ atoi (c :: rest)) (some : atoi (c :: rest) ≠ 0) (buf : ℕ → Char) (o : Out) :
    (addOperand buf s o).1.emitted = o.emitted ++ [0#32, 0#32, 0#32, 0#32] := by
  rw [addOperand_number begins notComment number, bin2ter_three three some]
  rw [addT4_emitted rfl, addT4_emitted rfl, addT4_emitted rfl, addT4_emitted rfl]
  simp only [List.append_assoc]
  rfl

theorem littleEndian_last (w : BitVec 32) : (w &&& 255#32).setWidth 2 = w.setWidth 2 := by
  rw [BitVec.setWidth_and]
  change w.setWidth 2 &&& BitVec.allOnes 2 = _
  rw [BitVec.and_allOnes]

theorem littleEndian_zero {w : BitVec 32}
    (zero : littleEndian w = [0#32, 0#32, 0#32, 0#32]) : w = 0#32 := by
  simp only [littleEndian, List.cons.injEq, and_true] at zero
  obtain ⟨first, second, third, fourth⟩ := zero
  have byte (k : ℕ) (none : w >>> k &&& 255#32 = 0#32) : w.toNat / 2 ^ k % 256 = 0 := by
    have value := congrArg BitVec.toNat none
    rw [BitVec.toNat_and, BitVec.toNat_ushiftRight, Nat.shiftRight_eq_div_pow] at value
    change _ &&& (2 ^ 8 - 1) = 0 at value
    rwa [Nat.and_two_pow_sub_one_eq_mod] at value
  have one := byte 0 first
  have two := byte 8 second
  have three := byte 16 third
  have four := byte 24 fourth
  have bound := w.isLt
  refine BitVec.eq_of_toNat_eq ?_
  change w.toNat = 0
  omega

/-- **No immediate is written right**: the assembler takes the line, and the trytes behind the
opcode's are never the four of `b2t`. -/
theorem operand_wrong {line : List Char} {v : ℤ} (loads : Immediate line v)
    (range : |v| ≤ (3 ^ 16 - 1) / 2) (buf : ℕ → Char) (o : Out) :
    ∃ out, addOpcode buf line o ops = some (out, 0) ∧
      out.emitted ≠ o.emitted ++ 0xAA#32 :: littleEndian (b2t v) := by
  obtain ⟨low, high⟩ := abs_le.1 range
  obtain ⟨s, c, rest, found, begins, notComment, number, rfl⟩ := loads.operand buf o
  refine ⟨_, found.trans (congrArg _ (Prod.ext rfl ?_)), fun right => ?_⟩
  · rw [addOperand_number begins notComment number]
  have opcode : (addT4 dashes o).1.emitted = o.emitted ++ [0xAA#32] := addT4_emitted rfl o
  rw [← List.singleton_append, ← List.append_assoc, ← opcode] at right
  have above : -(3 * (3 ^ 15 : ℕ) : ℤ) < 2 * atoi (c :: rest) := by omega
  have below : 2 * atoi (c :: rest) < 3 * (3 ^ 15 : ℕ) := by omega
  obtain ⟨t, bits, first⟩ := addOperand_first begins notComment number buf (addT4 dashes o).1
  rw [right, List.prefix_append_right_inj] at first
  have same : t = b2t (atoi (c :: rest)) &&& 255#32 := (List.cons_prefix_cons.1 first).1
  rw [same, littleEndian_last] at bits
  by_cases zero : atoi (c :: rest) = 0
  · -- zero has a plus in its last trit
    rw [if_pos zero, zero] at bits
    rw [b2t, b2tLoop_zero] at bits
    cases bits
  · rw [if_neg zero] at bits
    have three : 3 ∣ atoi (c :: rest) := three_of_last_zero 15 above below bits
    have none := addOperand_three begins notComment number three zero buf (addT4 dashes o).1
    rw [right, List.append_cancel_left_eq] at none
    exact zero (zero_of_b2tLoop_zero 15 above below (by decide) (littleEndian_zero none)).2

theorem loads_one : Immediate ['l', 'd', 'i', 'a', ' ', '1'] 1 :=
  @Immediate.plus 'a' ' ' [] ['1'] [] (.inl rfl) rfl rfl (List.cons_ne_nil _ _) rfl rfl

/-- `ldia 1`, on an assembler that has emitted nothing. -/
theorem operand_wrong_one :
    ∃ out, addOpcode (fun _ => ' ') ['l', 'd', 'i', 'a', ' ', '1'] ⟨0, 0#32, [], []⟩ ops =
      some (out, 0) ∧ out.emitted ≠ [] ++ 0xAA#32 :: littleEndian (b2t 1) :=
  operand_wrong loads_one (by decide) (fun _ => ' ') ⟨0, 0#32, [], []⟩

/-- The plus of `ldia 1` is one trit too far to the left. -/
theorem one_misplaced :
    ¬∀ (line : List Char) (v : ℤ), Immediate line v → |v| ≤ (3 ^ 16 - 1) / 2 →
      ∀ (buf : ℕ → Char) (o : Out), ∃ out, addOpcode buf line o ops = some (out, 0) ∧
        out.emitted = o.emitted ++ 0xAA#32 :: littleEndian (b2t v) := by
  intro all
  obtain ⟨out, runs, right⟩ := all _ _ loads_one (by decide) (fun _ => ' ') ⟨0, 0#32, [], []⟩
  have trytes : (addOpcode (fun _ => ' ') ['l', 'd', 'i', 'a', ' ', '1'] ⟨0, 0#32, [], []⟩ ops).map
      (fun out => out.1.emitted) = some [0xAA#32, 4#32, 0#32, 0#32, 0#32] := by decide +kernel
  rw [runs, Option.map_some, right] at trytes
  have first : b2t 1 &&& 255#32 = 4#32 := by
    injection trytes with trytes
    exact (List.cons.inj (List.cons.inj trytes).2).1
  have last : (b2t 1).setWidth 2 = 0#2 := by
    rw [← littleEndian_last, first]
    rfl
  exact absurd (three_of_last_zero 15 (by decide) (by decide) last) (by decide)

end Teres.Tools.Cod5asm
