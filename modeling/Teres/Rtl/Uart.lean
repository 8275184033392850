import Teres.Base.Clocked
import Mathlib.Data.BitVec

/-!
# The serial port (`common/src/uart.v`)

The transmitter and the receiver of one `uart` are separate processes on one clock. Both count
clock cycles up to `period`, the low 17 bits of `CLOCK_HZ / BAUDRATE`. `I_cyc` and `in_buffer` are
not here: no process reads them.

`next` is one clock edge. In each process the assignments before a branch are the defaults that the
branch overrides, and the last statement of the receiver, which drops `O_data_ready` on a bus read,
overrides everything before it.
-/

namespace Teres.Rtl.Uart

/-- `CLOCK_PERIOD`, a 32-bit local parameter. -/
def clockPeriod (clockHz baudrate : ℕ) : BitVec 32 := BitVec.ofNat 32 (clockHz / baudrate)

/-- `period`, its low 17 bits. -/
def period (clockHz baudrate : ℕ) : BitVec 17 := (clockPeriod clockHz baudrate).setWidth 17

/-- `half`, the period shifted down by one. -/
def half (period : BitVec 17) : BitVec 17 := 0#1 ++ period.extractLsb' 1 16

/-- The inputs of one clock cycle. -/
structure In where
  iRst : Bool
  iStb : Bool
  iWe : Bool
  iDat : BitVec 8
  iInPin : Bool

/-- The transmitter's registers. -/
structure Tx where
  outState : BitVec 4
  outCnt : BitVec 17
  outShift : BitVec 9
  oOutPin : Bool
  oBusyWrite : Bool

/-- The receiver's registers. -/
structure Rx where
  inShift : BitVec 8
  inP0 : Bool
  inP1 : Bool
  inState : BitVec 4
  inCnt : BitVec 17
  oDataReady : Bool
  oDat : BitVec 8

/-- One `uart`. -/
structure State where
  oAck : Bool
  tx : Tx
  rx : Rx

/-! ## The transmitter -/

/-- The transmitter's reset branch. -/
def Tx.reset : Tx where
  outState := 0#4
  outCnt := 0#17
  outShift := 0b111111111#9
  oOutPin := true
  oBusyWrite := true

/-- One clock edge of the transmitter. -/
def Tx.next (period : BitVec 17) (t : Tx) (i : In) : Tx :=
  if i.iRst then Tx.reset
  else if t.outState ≠ 0#4 then
    let t' := { t with outCnt := t.outCnt + 1#17, oOutPin := t.outShift.getLsbD 0 }
    if t.outCnt = period then
      if t.outState = 12#4 then { t' with outState := 0#4 }
      else if t.outState = 11#4 then
        { t' with outCnt := 0#17, outState := t.outState + 1#4, oBusyWrite := false }
      else
        { t' with
          outCnt := 0#17
          outShift := 1#1 ++ t.outShift.extractLsb' 1 8
          outState := t.outState + 1#4 }
    else t'
  else if i.iStb && i.iWe then
    { t with outState := 1#4, outCnt := 0#17, oBusyWrite := true, outShift := i.iDat ++ 0#1 }
  else { t with oBusyWrite := false, outShift := 0b111111111#9 }

/-! ## The receiver -/

/-- The receiver's reset branch. -/
def Rx.reset : Rx where
  inShift := 0#8
  inP0 := false
  inP1 := false
  inState := 0#4
  inCnt := 0#17
  oDataReady := false
  oDat := 0#8

/-- The receiver's state machine at one clock edge, before the bus read is looked at. -/
def Rx.advance (period : BitVec 17) (r : Rx) (iInPin : Bool) : Rx :=
  let r' := { r with inP0 := iInPin, inP1 := r.inP0, inCnt := r.inCnt + 1#17 }
  if r.inState = 1#4 then
    if r.inCnt = half period then
      if !iInPin then { r' with inCnt := 0#17, inState := 2#4 } else { r' with inState := 0#4 }
    else if iInPin then { r' with inState := 0#4 } else r'
  else if r.inState = 10#4 then
    if r.inCnt = period then
      if iInPin then { r' with oDataReady := true, oDat := r.inShift, inState := 0#4 }
      else { r' with inState := 0#4 }
    else r'
  else if r.inState ≠ 0#4 then
    if r.inCnt = period then
      { r' with
        inCnt := 0#17
        inState := r.inState + 1#4
        inShift := BitVec.ofBool iInPin ++ r.inShift.extractLsb' 1 7 }
    else r'
  else if !r.inP0 && r.inP1 then { r' with inState := 1#4, inCnt := 0#17 }
  else r'

/-- One clock edge of the receiver. -/
def Rx.next (period : BitVec 17) (r : Rx) (i : In) : Rx :=
  if i.iRst then Rx.reset
  else
    let r' := r.advance period i.iInPin
    if i.iStb && !i.iWe && r.oDataReady then { r' with oDataReady := false } else r'

/-! ## One `uart`, and two joined by a wire -/

/-- One clock edge of a `uart`. -/
def next (period : BitVec 17) (s : State) (i : In) : State where
  oAck := if i.iRst then false else i.iStb
  tx := s.tx.next period i
  rx := s.rx.next period i

/-- What reset leaves. -/
def reset : State where
  oAck := false
  tx := Tx.reset
  rx := Rx.reset

/-- The state before cycle `n` of a run from reset. -/
def states (period : BitVec 17) (input : ℕ → In) : ℕ → State :=
  Clocked.run (next period) reset input

/-- The byte that a bus write strobe carries. -/
def In.strobe (i : In) : Option (BitVec 8) := if i.iStb && i.iWe then some i.iDat else none

/-- A transmitting `uart` and a receiving one. -/
structure Link where
  sender : State
  receiver : State

/-- One clock edge of both, with the sender's `O_out_pin` on the receiver's `I_in_pin`. -/
def Link.next (period : BitVec 17) (s : Link) (i : In × In) : Link where
  sender := Uart.next period s.sender i.1
  receiver := Uart.next period s.receiver { i.2 with iInPin := s.sender.tx.oOutPin }

/-- The pair before cycle `n` of a run from reset. -/
def links (period : BitVec 17) (input : ℕ → In × In) : ℕ → Link :=
  Clocked.run (Link.next period) ⟨reset, reset⟩ input

end Teres.Rtl.Uart
