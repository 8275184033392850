import Teres.Base.Clocked
import Mathlib.Data.BitVec
import Mathlib.Data.Int.Notation

/-!
# The TMDS encoder (`common/src/tmds_encoder.v`)

A video byte is first made into the nine bits `q_m`, by a chain of exclusive ors or of their
complements, and then into a symbol of ten bits, by one of three branches that are to keep ones and
zeros in balance. `cnt` is what the branches know of the balance.

All sums are of four bits, the width of `cnt`. So are their operands: `q_m[8]` is extended before it
is added, and before it is complemented. `cnt` is unsigned, and so are its comparisons.

`disparity` is what the encoder is for: the ones that have been sent since the last control period,
less the zeros.
-/

namespace Teres.Rtl.Tmds

/-- The inputs of one pixel clock cycle. -/
structure In where
  iVideoData : BitVec 8
  iCtrlData : BitVec 2
  iVideoEnable : Bool

/-- The registers. -/
structure State where
  cnt : BitVec 4
  qOut : BitVec 10
deriving DecidableEq

/-! ## The nine bits -/

/-- The sum of eight bits, in four. -/
def countBits (b : BitVec 8) : BitVec 4 :=
  let bit (i : ℕ) : BitVec 4 := (BitVec.ofBool (b.getLsbD i)).setWidth 4
  bit 0 + bit 1 + bit 2 + bit 3 + bit 4 + bit 5 + bit 6 + bit 7

/-- `xnor_op`: whether the chain takes complements. -/
def xnorOp (d : BitVec 8) : Bool :=
  decide (4#4 < countBits d) || (decide (countBits d = 4#4) && !d.getLsbD 0)

/-- Bit `i` of the chain. -/
def chain (xnor : Bool) (d : BitVec 8) : ℕ → Bool
  | 0 => d.getLsbD 0
  | i + 1 => ((chain xnor d i ^^ d.getLsbD (i + 1)) ^^ xnor)

/-- `q_m[7:0]`. -/
def qMLow (d : BitVec 8) : BitVec 8 :=
  let bit := chain (xnorOp d) d
  BitVec.ofBoolListLE [bit 0, bit 1, bit 2, bit 3, bit 4, bit 5, bit 6, bit 7]

/-- `q_m[8]`. -/
def qM8 (d : BitVec 8) : Bool := !xnorOp d

/-- `N1_q_m`. -/
def n1QM (d : BitVec 8) : BitVec 4 := countBits (qMLow d)

/-- `N0_q_m`. -/
def n0QM (d : BitVec 8) : BitVec 4 := 8#4 - n1QM d

/-! ## The symbol -/

/-- Ten bits of their two highest and the others. -/
def symbol (b9 b8 : Bool) (low : BitVec 8) : BitVec 10 :=
  BitVec.ofBool b9 ++ BitVec.ofBool b8 ++ low

/-- The symbol of a control period. -/
def control (c : BitVec 2) : BitVec 10 :=
  if c = 0b00#2 then 0b1101010100#10
  else if c = 0b01#2 then 0b0010101011#10
  else if c = 0b10#2 then 0b0101010100#10
  else 0b1010101011#10

/-- The branch for a byte that leaves the balance to its ones alone. -/
def even (cnt : BitVec 4) (d : BitVec 8) : State where
  qOut := symbol (!qM8 d) (qM8 d) (if qM8 d then qMLow d else ~~~qMLow d)
  cnt :=
    if qM8 d then
      if 4#4 < n0QM d then cnt - (n0QM d - n1QM d) else cnt + (n1QM d - n0QM d)
    else if 4#4 < n1QM d then cnt - (n1QM d - n0QM d)
    else cnt + (n0QM d - n1QM d)

/-- The branch that inverts the byte. -/
def inverted (cnt : BitVec 4) (d : BitVec 8) : State :=
  let q8 : BitVec 4 := (BitVec.ofBool (qM8 d)).setWidth 4
  { qOut := symbol true (qM8 d) (~~~qMLow d)
    cnt :=
      if 4#4 < n1QM d then cnt + q8 + q8 - (n1QM d - n0QM d)
      else cnt + q8 + q8 + (n0QM d - n1QM d) }

/-- The branch that leaves the byte as it is. -/
def plain (cnt : BitVec 4) (d : BitVec 8) : State :=
  let q8 : BitVec 4 := (BitVec.ofBool (qM8 d)).setWidth 4
  { qOut := symbol false (qM8 d) (qMLow d)
    cnt :=
      if 4#4 < n0QM d then cnt + ~~~q8 + ~~~q8 - (n0QM d - n1QM d)
      else cnt + ~~~q8 + ~~~q8 + (n1QM d - n0QM d) }

/-- The branches for a video byte. -/
def video (cnt : BitVec 4) (d : BitVec 8) : State :=
  if cnt = 0#4 ∨ n1QM d = 4#4 then even cnt d
  else if (0#4 < cnt ∧ 4#4 < n1QM d) ∨ (cnt < 0#4 ∧ n1QM d < 4#4) then inverted cnt d
  else plain cnt d

/-- One clock edge. -/
def next (s : State) (i : In) : State :=
  if i.iVideoEnable then video s.cnt i.iVideoData
  else { qOut := control i.iCtrlData, cnt := 0#4 }

/-- The registers before edge `n` of a run from a control period. -/
def states (qOut : BitVec 10) (input : ℕ → In) : ℕ → State := Clocked.run next ⟨0#4, qOut⟩ input

/-! ## The balance -/

/-- The number of ones. -/
def ones {w : ℕ} (x : BitVec w) : ℕ := x.cpop.toNat

/-- The ones of a symbol, less its zeros. -/
def balance (q : BitVec 10) : ℤ := (ones q : ℤ) - (10 - ones q : ℤ)

/-- The running disparity before edge `n`. -/
def disparity (qOut : BitVec 10) (input : ℕ → In) : ℕ → ℤ
  | 0 => 0
  | n + 1 =>
    if (input n).iVideoEnable then disparity qOut input n + balance (states qOut input (n + 1)).qOut
    else 0

/-- The running disparity `x` is within bounds, and `cnt` knows it. -/
def Balanced (cnt : BitVec 4) (x : ℤ) : Prop := -8 ≤ x ∧ x ≤ 8 ∧ cnt = BitVec.ofInt 4 x

/-- The byte `d` does not upset the balance, by the ones of its `q_m`. Where `cnt` is not zero the
code takes away from the disparity, even from one below zero; and with fewer ones than zeros it
takes four too many from `cnt` if `q_m[8]` is one. -/
def Bears (cnt : BitVec 4) (x : ℤ) (d : BitVec 8) : Prop :=
  cnt = 0#4 ∨ ones (qMLow d) = 4 ∨
    (4 < ones (qMLow d) ∧ 2 * (ones (qMLow d) : ℤ) - 16 ≤ x + 2 * (qM8 d).toNat) ∨
    (ones (qMLow d) < 4 ∧ qM8 d = false ∧ 2 - 2 * (ones (qMLow d) : ℤ) ≤ x)

end Teres.Rtl.Tmds
