import Teres.Base.Clocked
import Mathlib.Data.BitVec

/-!
# Instruction fetch (`common/src/c5_fetch.v`)

`O_adr` is the register `pc_current`, `O_pc_plus_4` the register `pc_fetched_plus_4`. `O_stb` is not
here: nothing drives it. `pc_fetched_plus_4` is not reset.

`Wired` is the stage on a synchronous memory: `I_instr` is a register that holds the word at the
`O_adr` of the cycle before. The words it delivers are those that it latches at edges that are not
stalled, each with the address it was fetched from; the first of them is the word of the first cycle
after the reset.
-/

namespace Teres.Rtl.Fetch

/-- `NOP`. -/
def nop : BitVec 32 := 0x13#32

/-- The inputs of one clock cycle. -/
structure In where
  iRst : Bool
  iInstr : BitVec 32
  iStallInstr : Bool
  iStall : Bool
  iPcBranch : BitVec 32
  iPcSrc : Bool

/-- The registers. -/
structure State where
  oInstr : BitVec 32
  pcCurrent : BitVec 32
  pcFetchedPlus4 : BitVec 32

/-- `pc_`. -/
def State.pc (s : State) (i : In) : BitVec 32 :=
  if i.iPcSrc then i.iPcBranch else s.pcCurrent + 4#32

/-- One clock edge. -/
def next (s : State) (i : In) : State where
  oInstr :=
    if i.iRst then nop
    else if i.iStall || i.iStallInstr then nop
    else i.iInstr
  pcCurrent :=
    if i.iRst then 0#32
    else if i.iStall || i.iStallInstr then s.pcCurrent
    else s.pc i
  pcFetchedPlus4 := if i.iRst then s.pcFetchedPlus4 else s.pcCurrent

/-! ## On a synchronous memory -/

/-- The stage and the output register of the memory. -/
structure Wired where
  fetch : State
  dat : BitVec 32

/-- The stalls of one clock cycle. -/
structure Stalls where
  iStall : Bool
  iStallInstr : Bool

/-- The stage is stalled. -/
def Stalls.any (i : Stalls) : Bool := i.iStall || i.iStallInstr

/-- One clock edge after the reset, without a branch. -/
def Wired.next (mem : BitVec 32 → BitVec 32) (s : Wired) (i : Stalls) : Wired where
  fetch := Fetch.next s.fetch ⟨false, s.dat, i.iStallInstr, i.iStall, 0#32, false⟩
  dat := mem s.fetch.pcCurrent

/-- What reset leaves; the two registers that it does not write are any. -/
def reset (pcFetchedPlus4 dat : BitVec 32) : Wired := ⟨⟨nop, 0#32, pcFetchedPlus4⟩, dat⟩

/-- Before edge `n` of a run after the reset. -/
def states (mem : BitVec 32 → BitVec 32) (start : BitVec 32 × BitVec 32) (input : ℕ → Stalls) :
    ℕ → Wired :=
  Clocked.run (Wired.next mem) (reset start.1 start.2) input

/-- A word that is delivered: its own address, the word and `O_pc_plus_4`. -/
structure Word where
  address : BitVec 32
  instr : BitVec 32
  pcPlus4 : BitVec 32
deriving DecidableEq

section Run

variable (mem : BitVec 32 → BitVec 32) (start : BitVec 32 × BitVec 32) (input : ℕ → Stalls)

/-- What is delivered at edge `n`: at edge zero no fetched word is there yet. -/
def delivers : ℕ → List Word
  | 0 => []
  | n + 1 =>
    if (input (n + 1)).any then []
    else
      [⟨(states mem start input n).fetch.pcCurrent, (states mem start input (n + 2)).fetch.oInstr,
        (states mem start input (n + 2)).fetch.pcFetchedPlus4⟩]

/-- What is delivered before edge `n`. -/
def delivered (n : ℕ) : List Word := Clocked.ledger (delivers mem start input) n

/-- The words that are to be delivered. -/
def expected (j : ℕ) : Word :=
  ⟨BitVec.ofNat 32 (4 * j), mem (BitVec.ofNat 32 (4 * j)), BitVec.ofNat 32 (4 * j + 4)⟩

/-- Before edge `n`, the words of the memory have been delivered in order, none skipped and none
repeated, and every stalled edge has led to a NOP. -/
def Fetches (n : ℕ) : Prop :=
  (∃ m, delivered mem start input n = (List.range m).map (expected mem)) ∧
    ∀ k < n, (input k).any = true → (states mem start input (k + 1)).fetch.oInstr = nop

end Run

end Teres.Rtl.Fetch
