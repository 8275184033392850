import Teres.Rtl.Bus
import Teres.Rtl.Uart

/-!
# The SoC (`common/src/c5_soc.v`)

The bus and its serial port, joined as the instances are: the port is strobed by the address
decoder, and the decoder looks at the port's flags. The two masters of the processor are inputs, as
they are for the bus alone. `interrupt` has no reset; it follows `O_data_ready` by one cycle.

The display and its FIFO are not here, since the bus reaches neither of them, nor are the counters
behind `IO_gpio`.
-/

namespace Teres.Rtl.Soc

/-- What the masters, the unassigned `dat_in_bsram` and the serial line drive in one cycle. -/
structure In where
  iRst : Bool
  adrInstr : BitVec 32
  stbInstr : Bool
  adrData : BitVec 32
  weData : BitVec 4
  datOutData : BitVec 32
  stbData : Bool
  datInBsram : BitVec 32
  iUartRx : Bool

/-- The bus, the serial port and the interrupt. -/
structure State where
  bus : Bus.State
  uart : Uart.State
  interrupt : Bool

/-- What the bus sees. -/
def State.busIn (s : State) (i : In) : Bus.In where
  iRst := i.iRst
  adrInstr := i.adrInstr
  stbInstr := i.stbInstr
  adrData := i.adrData
  weData := i.weData
  datOutData := i.datOutData
  stbData := i.stbData
  datInBsram := i.datInBsram
  uartBusyWrite := s.uart.tx.oBusyWrite
  uartDataReady := s.uart.rx.oDataReady
  uartDataR := s.uart.rx.oDat

/-- What the serial port sees. -/
def State.uartIn (s : State) (i : In) : Uart.In where
  iRst := i.iRst
  iStb := (Bus.decoded s.bus (s.busIn i)).uartStb
  iWe := (Bus.decoded s.bus (s.busIn i)).uartWe
  iDat := (Bus.decoded s.bus (s.busIn i)).uartDataW
  iInPin := i.iUartRx

/-- One clock edge. -/
def next (firmware : BitVec 32 → Option (BitVec 32)) (period : BitVec 17) (s : State) (i : In) :
    State where
  bus := Bus.next firmware s.bus (s.busIn i)
  uart := Uart.next period s.uart (s.uartIn i)
  interrupt := s.uart.rx.oDataReady

/-- What reset leaves, in a memory of any content. -/
def reset (ram : BitVec 30 → BitVec 32) : State := ⟨Bus.reset ram, Uart.reset, false⟩

/-- A SoC that runs: its firmware, what the memory held, and what its pins and masters do. -/
structure Board where
  firmware : BitVec 32 → Option (BitVec 32)
  ram : BitVec 30 → BitVec 32
  input : ℕ → In

/-- Before edge `n` of the run from reset. -/
def Board.states (period : BitVec 17) (board : Board) : ℕ → State :=
  Clocked.run (next board.firmware period) (reset board.ram) board.input

/-! ## The serial port as a program sees it -/

/-- What the granted master drives. -/
def State.driven (s : State) (i : In) : Bus.Driven := Bus.driven s.bus.arbiter.oGrant (s.busIn i)

/-- The byte that it writes to the port. -/
def State.writes (s : State) (i : In) : Option (BitVec 8) :=
  if (s.driven i).adrBus = Bus.uartAdr ∧ (s.driven i).weBus ≠ 0#4 then
    some ((s.driven i).datOutBus.setWidth 8)
  else none

/-- It reads the port. -/
def State.reads (s : State) (i : In) : Bool :=
  (s.driven i).adrBus == Bus.uartAdr && (s.driven i).weBus == 0#4

/-- The word that it receives. -/
def State.word (s : State) (i : In) : BitVec 32 := (Bus.decoded s.bus (s.busIn i)).datInBus

end Teres.Rtl.Soc
