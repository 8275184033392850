import Teres.Base.Clocked
import Teres.Base.RoundRobin
import Mathlib.Data.BitVec

/-!
# The bus arbiter (`common/src/c5_arbiter.v`)

`mask` and `found` are assigned with `=`, and so carry from one iteration of the loop to the next
and from one clock edge to the next. `O_grant` is assigned with `<=`: what is written to it in the
loop is the mask of that iteration. The shift of the loop, `{mask[WIDTH-2:0], mask[WIDTH-1]}`, is a
rotation by one. `w` is the parameter `WIDTH`.

`Turn` is what the arbiter is for: a round robin, whose search begins behind the bit that was
granted last, and at bit 0 if none was.
-/

namespace Teres.Rtl.Arbiter

/-- The inputs of one clock cycle. -/
structure In (w : ℕ) where
  iRst : Bool
  iStall : Bool
  iRequest : BitVec w

/-- The registers. -/
structure State (w : ℕ) where
  mask : BitVec w
  found : BitVec w
  oGrant : BitVec w
deriving DecidableEq

variable {w : ℕ}

/-- One iteration of the loop. -/
def State.iterate (iRequest : BitVec w) (s : State w) : State w :=
  let mask := s.mask.rotateLeft 1
  if s.found = 0#w ∧ mask &&& iRequest ≠ 0#w then ⟨mask, mask, mask⟩
  else { s with mask := mask }

/-- The loop, for the given number of iterations. -/
def State.iterations (iRequest : BitVec w) : ℕ → State w → State w
  | 0, s => s
  | i + 1, s => (s.iterations iRequest i).iterate iRequest

/-- What reset leaves. -/
def reset (w : ℕ) : State w := ⟨1#w, 0#w, 0#w⟩

/-- One clock edge. -/
def next (s : State w) (i : In w) : State w :=
  if i.iRst then reset w
  else if i.iStall then { s with oGrant := s.mask }
  else
    State.iterations i.iRequest w
      ⟨if s.found ≠ 0#w then s.found else 1#w, 0#w, 0#w⟩

/-- The registers before edge `n` of a run from reset. -/
def states (input : ℕ → In w) : ℕ → State w := Clocked.run next (reset w) input

/-! ## What is granted -/

/-- An edge at which the arbiter decides. -/
def In.decides (i : In w) : Bool := !i.iRst && !i.iStall

/-- An edge at which the arbiter is held. -/
def In.held (i : In w) : Bool := !i.iRst && i.iStall

/-- Bit `k` is granted at edge `n`. -/
def Grants (input : ℕ → In w) (n k : ℕ) : Prop :=
  (input n).decides = true ∧ (states input (n + 1)).oGrant.getLsbD k = true

/-- What was granted at the last edge before edge `n` that was not held, nothing before the first
and after a reset. -/
def granted (input : ℕ → In w) : ℕ → BitVec w
  | 0 => 0#w
  | n + 1 => if (input n).held then granted input n else (states input (n + 1)).oGrant

/-- No two bits are set. -/
def AtMostOne (grant : BitVec w) : Prop :=
  ∀ j k, grant.getLsbD j = true → grant.getLsbD k = true → j = k

/-- Every grant is of one bit at most, and the last one is kept at an edge that is held. -/
def Safe (input : ℕ → In w) (n : ℕ) : Prop :=
  AtMostOne (states input n).oGrant ∧
    ((input n).held = true → (states input (n + 1)).oGrant = granted input n)

/-! ## The round robin -/

/-- The last decision: the bit behind which the search began, and the requests. -/
structure Turn where
  start : ℕ
  asks : ℕ → Bool

namespace Turn

/-- Before the first decision, and after a reset. -/
def init : Turn := ⟨0, fun _ => false⟩

/-- The bit that is granted, if any. -/
def winner (t : Turn) (w : ℕ) : Option ℕ := RoundRobin.first w t.start t.asks

/-- The bit behind which the next search begins. -/
def rest (t : Turn) (w : ℕ) : ℕ := (t.winner w).getD 0

/-- One clock edge. -/
def next (t : Turn) (i : In w) : Turn :=
  if i.iRst then init
  else if i.iStall then t
  else ⟨t.rest w, i.iRequest.getLsbD⟩

/-- The last decision asked the bit alone behind which its search began. -/
def Alone (t : Turn) (w : ℕ) : Prop :=
  t.asks t.start = true ∧ ∀ k < w, t.asks k = true → k = t.start

end Turn

/-- The last decision before edge `n`. -/
def turns (input : ℕ → In w) : ℕ → Turn := Clocked.run Turn.next Turn.init input

end Teres.Rtl.Arbiter
