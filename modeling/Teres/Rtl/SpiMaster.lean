import Teres.Base.Clocked
import Mathlib.Data.BitVec

/-!
# The SPI master (`common/src/spi_master.v`)

`next` is one clock edge. An assignment that no branch overrides comes first: `O_data_ready` drops
on a read, unless the branch of the state sets it. The states above `STATE_PRE_START` are not here,
as nothing leads to them; what reset leaves in the registers that it does not set is what was there.

A byte is on the wire as the level of `O_mosi` and of `I_miso` at each leading edge of `O_sck`, the
edges that leave the idle level. The trailing edges are those that return to it.
-/

namespace Teres.Rtl.SpiMaster

/-- The module's parameters. -/
structure Params where
  freq : ℕ
  cpha : ℕ
  cpol : ℕ

/-- `period`, a 32-bit local parameter. -/
def Params.period (p : Params) : BitVec 32 := BitVec.ofNat 32 (p.freq / (200000 * 2))

/-- `CPOL[0]`. -/
def Params.cpol0 (p : Params) : Bool := p.cpol.testBit 0

/-- `CPHA[0]`. -/
def Params.cpha0 (p : Params) : Bool := p.cpha.testBit 0

/-- The states. -/
inductive St where
  | idle
  | start
  | write
  | preStart
deriving DecidableEq

/-- The inputs of one clock cycle. -/
structure In where
  iRstN : Bool
  iMiso : Bool
  iCmdRead : Bool
  iCmdWrite : Bool
  iSpeed : BitVec 4
  iDataOut : BitVec 8

/-- The registers. -/
structure State where
  oMosi : Bool
  oSck : Bool
  oDataIn : BitVec 8
  oBusyWrite : Bool
  oDataReady : Bool
  bufIn : BitVec 8
  bufOut : BitVec 8
  speedValue : BitVec 32
  counter : BitVec 32
  state : St
  step : BitVec 5

/-- `speed`. -/
def speed (p : Params) (i : In) : BitVec 32 := p.period >>> i.iSpeed.toNat

/-- The reset branch. -/
def State.reset (p : Params) (s : State) : State :=
  { s with state := .idle, oDataReady := false, oBusyWrite := true, oSck := p.cpol0, oMosi := true }

/-- A bit shifted in from below. -/
def shiftIn (buf : BitVec 8) (bit : Bool) : BitVec 8 := buf.extractLsb' 0 7 ++ BitVec.ofBool bit

/-- `STATE_IDLE`. -/
def State.idle (p : Params) (s : State) (i : In) : State :=
  let s' := { s with oSck := p.cpol0, oBusyWrite := false }
  if i.iCmdWrite && !s.oBusyWrite then
    let s' := { s' with
      state := .start
      oBusyWrite := true
      oDataReady := false
      bufOut := i.iDataOut
      bufIn := 0#8
      speedValue := speed p i }
    if p.cpha = 0 then
      { s' with oMosi := i.iDataOut.getLsbD 7, state := .preStart, counter := speed p i }
    else s'
  else s'

/-- `STATE_PRE_START`. -/
def State.preStart (s : State) : State :=
  { s with
    counter := s.counter - 1#32
    state := if s.counter = 0#32 then .start else s.state }

/-- `STATE_START`. -/
def State.start (p : Params) (s : State) (i : In) : State :=
  let s' := { s with state := .write, oSck := !p.cpol0, step := 1#5, counter := s.speedValue }
  if p.cpha = 0 then
    { s' with bufOut := shiftIn s.bufOut (s.bufOut.getLsbD 0), bufIn := shiftIn s.bufIn i.iMiso }
  else s'

/-- `STATE_WRITE`. -/
def State.write (p : Params) (s : State) (i : In) : State :=
  if s.counter = 0#32 then
    let s' := { s with counter := s.speedValue, oSck := !s.oSck, step := s.step + 1#5 }
    let s' :=
      if p.cpha0 = s.step.getLsbD 0 then
        { s' with bufOut := shiftIn s.bufOut false, bufIn := shiftIn s.bufIn i.iMiso }
      else { s' with oMosi := s.bufOut.getLsbD 7 }
    if s.step = 15#5 then { s' with state := .idle, oDataReady := true, oDataIn := s.bufIn }
    else s'
  else { s with counter := s.counter - 1#32 }

/-- One clock edge. -/
def next (p : Params) (s : State) (i : In) : State :=
  if !i.iRstN then s.reset p
  else
    let s := if s.oDataReady && i.iCmdRead then { s with oDataReady := false } else s
    match s.state with
    | .idle => s.idle p i
    | .preStart => s.preStart
    | .start => s.start p i
    | .write => s.write p i

/-- The registers before each clock edge. -/
def states (p : Params) (s : State) (input : ℕ → In) : ℕ → State := Clocked.run (next p) s input

/-! ## The wire -/

/-- An edge of `O_sck`, with `O_mosi` and `I_miso` in front of it. -/
structure Toggle where
  leading : Bool
  mosi : Bool
  miso : Bool
deriving DecidableEq

/-- The edge of `O_sck` that one clock edge makes, if any. -/
def toggles (p : Params) (s : State) (i : In) : List Toggle :=
  if (next p s i).oSck = s.oSck then [] else [⟨s.oSck = p.cpol0, s.oMosi, i.iMiso⟩]

/-- `O_mosi` and `I_miso` at a leading edge of `O_sck`. -/
structure Bit where
  mosi : Bool
  miso : Bool
deriving DecidableEq

/-- The bit that one clock edge puts on the wire, if it makes a leading edge of `O_sck`. -/
def bits (p : Params) (s : State) (i : In) : List Bit :=
  if s.oSck = p.cpol0 ∧ (next p s i).oSck ≠ p.cpol0 then [⟨s.oMosi, i.iMiso⟩] else []

/-- A byte `b` sent, highest bit first, while the byte `r` comes back. -/
def sent (b r : BitVec 8) : List Bit :=
  (List.range 8).map fun k => ⟨b.getMsbD k, r.getMsbD k⟩

end Teres.Rtl.SpiMaster
