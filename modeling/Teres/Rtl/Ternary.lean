import Teres.Base.Positional

/-!
# Ternary arithmetic (`common/src/ternary.v`)

A trit is two wires: `10` is minus one, `00` is zero, `01` is plus one, and `11` stands for
nothing. A word of `n` trits is `2 * n` wires, so the module parameter `WIDTH` is `2 * n`.

`t3FullAdder` is the two case tables of `t3_full_adder`, entry by entry: the first assignments of
the block are the defaults, and a table entry overrides them. The repeated labels of the second
table carry the value of their first occurrence, so they are written once.

The wires of `t3_increment` drive each other in a ring of slices, so they are not computed here:
`drivers` lists what its instances drive onto each wire, by the bit it begins at, and wires are
`Settled` if they carry what drives them.
-/

namespace Teres.Rtl

/-- Two wires that carry one balanced-ternary digit. -/
abbrev Trit := BitVec 2

/-- The three codes in use; `11` is none of them. -/
def Trit.Valid (t : Trit) : Prop := t ≠ 0b11#2

instance (t : Trit) : Decidable t.Valid := inferInstanceAs (Decidable (_ ≠ _))

/-- The digit a trit stands for. -/
def Trit.value (t : Trit) : ℤ :=
  if t = 0b10#2 then -1 else if t = 0b01#2 then 1 else 0

/-- The part-select `w[2*i+1 : 2*i]`. -/
def tritOf {n : ℕ} (w : BitVec (2 * n)) (i : ℕ) : Trit := w.extractLsb' (2 * i) 2

/-- The word a generate loop drives when its stage `i` drives the wires `2*i+1 : 2*i`. -/
def ofTrits : (n : ℕ) → (ℕ → Trit) → BitVec (2 * n)
  | 0, _ => 0#0
  | n + 1, t => (t n ++ ofTrits n t).cast (Nat.add_comm 2 (2 * n))

/-- Every digit of the word is one of the three codes. -/
def ValidWord {n : ℕ} (w : BitVec (2 * n)) : Prop := ∀ i < n, (tritOf w i).Valid

instance {n : ℕ} (w : BitVec (2 * n)) : Decidable (ValidWord w) :=
  inferInstanceAs (Decidable (∀ i < n, _))

/-- A word read as a balanced-ternary number, least significant trit first. -/
def wordValue {n : ℕ} (w : BitVec (2 * n)) : ℤ :=
  Positional.value 3 (fun i => (tritOf w i).value) n

/-! ## `t3_half_adder` -/

/-- `t3_half_adder`: the pair `(O_out, O_c)`. The carry is zero where an entry does not assign
it. -/
def t3HalfAdder (a c : Trit) : Trit × Trit :=
  match a ++ c with
  | 0b1010#4 => (0b01#2, 0b10#2)
  | 0b1000#4 => (0b10#2, 0b00#2)
  | 0b1001#4 => (0b00#2, 0b00#2)
  | 0b0010#4 => (0b10#2, 0b00#2)
  | 0b0000#4 => (0b00#2, 0b00#2)
  | 0b0001#4 => (0b00#2, 0b00#2)
  | 0b0110#4 => (0b00#2, 0b00#2)
  | 0b0100#4 => (0b01#2, 0b00#2)
  | _ => (0b10#2, 0b01#2)

/-! ## `t3_full_adder` -/

/-- The carry table: four entries, then the nested defaults, over the initial `10`. -/
def t3FullAdderC (a b c : Trit) : Trit :=
  match a ++ b ++ c with
  | 0b000101#6 => 0b01#2
  | 0b010001#6 => 0b01#2
  | 0b010100#6 => 0b01#2
  | 0b010101#6 => 0b01#2
  | _ =>
    if a = 0b00#2 ∧ b = 0b00#2 then 0b00#2
    else if a = 0b00#2 ∧ c = 0b00#2 then 0b00#2
    else if b = 0b00#2 ∧ c = 0b00#2 then 0b00#2
    else if a = 0b01#2 ∨ b = 0b01#2 ∨ c = 0b01#2 then 0b00#2
    else 0b10#2

/-- The sum table, over the initial `10`. -/
def t3FullAdderOut (a b c : Trit) : Trit :=
  match a ++ b ++ c with
  | 0b101010#6 => 0b00#2
  | 0b101000#6 => 0b01#2
  | 0b100010#6 => 0b01#2
  | 0b100001#6 => 0b00#2
  | 0b100100#6 => 0b00#2
  | 0b100101#6 => 0b01#2
  | 0b001010#6 => 0b01#2
  | 0b001001#6 => 0b00#2
  | 0b000000#6 => 0b00#2
  | 0b000001#6 => 0b01#2
  | 0b000110#6 => 0b00#2
  | 0b000100#6 => 0b01#2
  | 0b011000#6 => 0b00#2
  | 0b011001#6 => 0b01#2
  | 0b010010#6 => 0b00#2
  | 0b010000#6 => 0b01#2
  | 0b010110#6 => 0b01#2
  | 0b010101#6 => 0b00#2
  | _ => 0b10#2

/-- `t3_full_adder`: the pair `(O_out, O_c)`. -/
def t3FullAdder (a b c : Trit) : Trit × Trit := (t3FullAdderOut a b c, t3FullAdderC a b c)

/-! ## `t3_compare` -/

/-- The table of `t3_compare_x`. -/
def t3CompareX (a b : Trit) : Trit :=
  match a ++ b with
  | 0b1010#4 => 0b10#2
  | 0b1000#4 => 0b10#2
  | 0b1001#4 => 0b01#2
  | 0b0010#4 => 0b10#2
  | 0b0000#4 => 0b00#2
  | 0b0001#4 => 0b01#2
  | 0b0110#4 => 0b10#2
  | 0b0100#4 => 0b01#2
  | _ => 0b01#2

/-- The table of `t3_compare_y`. -/
def t3CompareY (a b : Trit) : Trit :=
  match a ++ b with
  | 0b1010#4 => 0b00#2
  | 0b1000#4 => 0b10#2
  | 0b1001#4 => 0b10#2
  | 0b0010#4 => 0b01#2
  | 0b0000#4 => 0b00#2
  | 0b0001#4 => 0b10#2
  | 0b0110#4 => 0b01#2
  | 0b0100#4 => 0b01#2
  | _ => 0b00#2

/-- A generate loop over pairs of trits: the lower one of a pair is `I_a`, the higher one `I_b`. -/
def t3CompareLevel {n : ℕ} (c : BitVec (2 * (2 * n))) : BitVec (2 * n) :=
  ofTrits n fun i => t3CompareX (tritOf c (2 * i)) (tritOf c (2 * i + 1))

/-- `t3_compare` at `WIDTH = 32`. -/
def t3Compare (a b : BitVec (2 * 16)) : Trit :=
  let c0 := ofTrits 16 fun i => t3CompareY (tritOf a i) (tritOf b i)
  let c1 : BitVec (2 * 8) := t3CompareLevel c0
  let c2 : BitVec (2 * 4) := t3CompareLevel c1
  let c3 : BitVec (2 * 2) := t3CompareLevel c2
  t3CompareLevel (n := 1) c3

/-! ## `t3_increment` -/

/-- The table of `t3_cons`. -/
def t3Cons (a b : Trit) : Trit :=
  match a ++ b with
  | 0b1010#4 => 0b10#2
  | 0b1000#4 => 0b00#2
  | 0b1001#4 => 0b00#2
  | 0b0010#4 => 0b00#2
  | 0b0000#4 => 0b00#2
  | 0b0001#4 => 0b00#2
  | 0b0110#4 => 0b00#2
  | 0b0100#4 => 0b00#2
  | _ => 0b01#2

/-- The table of `t3_cl_half_adder` for `O_s`. -/
def t3ClHalfAdderS (a c : Trit) : Trit :=
  match a ++ c with
  | 0b1010#4 => 0b01#2
  | 0b1000#4 => 0b10#2
  | 0b1001#4 => 0b00#2
  | 0b0010#4 => 0b10#2
  | 0b0000#4 => 0b00#2
  | 0b0001#4 => 0b01#2
  | 0b0110#4 => 0b00#2
  | 0b0100#4 => 0b01#2
  | _ => 0b10#2

/-- `t3_cl_half_adder`: the pair `(O_s, O_p)`. -/
def t3ClHalfAdder (a c : Trit) : Trit × Trit := (t3ClHalfAdderS a c, a)

/-- `t3_cl_x`: the pair `(O_c1, O_p)`. -/
def t3ClX (p0 p1 c0 : Trit) : Trit × Trit := (t3Cons c0 p0, t3Cons p1 p0)

/-- The part-select `w[i+1 : i]`. -/
def pairAt {w : ℕ} (v : BitVec w) (i : ℕ) : Trit := v.extractLsb' i 2

/-- The values of a genvar from 0 below `width` by steps of `step`. -/
def genvars (step width : ℕ) : List ℕ := (List.range (width / step)).map (step * ·)

/-- The wires of `t3_increment` at `WIDTH = 32`, with its outputs. -/
structure IncrementWires where
  c : BitVec 32
  p : BitVec 32
  p00 : BitVec 16
  p01 : BitVec 8
  p02 : BitVec 4
  p03 : BitVec 2
  out : BitVec 32
  carry : Trit
deriving DecidableEq

namespace IncrementWires

variable (a : BitVec 32) (w : IncrementWires)

/-- The instances `ua`. -/
def ua (i : ℕ) : Trit × Trit := t3ClHalfAdder (pairAt a i) (pairAt w.c i)

/-- The instances `ux1`. -/
def ux1 (i : ℕ) : Trit × Trit := t3ClX (pairAt w.p i) (pairAt w.p (i + 2)) (pairAt w.c i)

/-- The instances `ux2`, with `k = i / 2`. -/
def ux2 (i : ℕ) : Trit × Trit :=
  t3ClX (pairAt w.p00 (i / 2)) (pairAt w.p00 (i / 2 + 2)) (pairAt w.c i)

/-- The instances `ux3`, with `k = i / 4`. -/
def ux3 (i : ℕ) : Trit × Trit :=
  t3ClX (pairAt w.p01 (i / 4)) (pairAt w.p01 (i / 4 + 2)) (pairAt w.c i)

/-- The instances `ux4`, with `k = i / 8`. -/
def ux4 (i : ℕ) : Trit × Trit :=
  t3ClX (pairAt w.p02 (i / 8)) (pairAt w.p02 (i / 8 + 2)) (pairAt w.c i)

/-- What is driven onto `c`, with the bit it begins at. -/
def drivers : List (ℕ × Trit) :=
  [(0, 0b01#2)] ++
    (genvars 4 32).map (fun i => (i + 2, (w.ux1 i).1)) ++
    (genvars 8 32).map (fun i => (i + 4, (w.ux2 i).1)) ++
    (genvars 16 32).map (fun i => (i + 8, (w.ux3 i).1)) ++
    (genvars 32 32).map (fun i => (i + 16, (w.ux4 i).1))

/-- Every wire carries what drives it. -/
structure Settled : Prop where
  c : ∀ d ∈ w.drivers, pairAt w.c d.1 = d.2
  p : ∀ i ∈ genvars 2 32, pairAt w.p i = (w.ua a i).2
  p00 : ∀ i ∈ genvars 4 32, pairAt w.p00 (i / 2) = (w.ux1 i).2
  p01 : ∀ i ∈ genvars 8 32, pairAt w.p01 (i / 4) = (w.ux2 i).2
  p02 : ∀ i ∈ genvars 16 32, pairAt w.p02 (i / 8) = (w.ux3 i).2
  p03 : ∀ i ∈ genvars 32 32, pairAt w.p03 (i / 16) = (w.ux4 i).2
  out : ∀ i ∈ genvars 2 32, pairAt w.out i = (w.ua a i).1
  carry : w.carry = t3Cons w.p03 (pairAt w.c 0)

end IncrementWires

/-! ## `t3_addition` -/

/-- The wires `c[2*i+1 : 2*i]`: zero into stage zero, then each stage's carry. -/
def t3AdditionCarry {n : ℕ} (a b : BitVec (2 * n)) : ℕ → Trit
  | 0 => 0b00#2
  | i + 1 => (t3FullAdder (tritOf a i) (tritOf b i) (t3AdditionCarry a b i)).2

/-- `t3_addition` at `WIDTH = 2 * n`: the pair `(O_out, O_carry)`. -/
def t3Addition {n : ℕ} (a b : BitVec (2 * n)) : BitVec (2 * n) × Trit :=
  (ofTrits n fun i => (t3FullAdder (tritOf a i) (tritOf b i) (t3AdditionCarry a b i)).1,
    t3AdditionCarry a b n)

end Teres.Rtl
