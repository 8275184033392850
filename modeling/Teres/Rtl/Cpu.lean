import Teres.Rtl.Fetch
import Teres.Rtl.Soc

/-!
# The SoC with its processor (`c5_cpu` in `common/src/c5_soc.v`)

Of the processor there is the fetch stage (`common/src/c5_cpu.v`). Its two strobes are always high,
that of the data port too, though nothing drives the port's address, write enable and data: these
are inputs here. No branch is ever taken, and what stalls the stage is `stall_instr`, on both of its
inputs.
-/

namespace Teres.Rtl.Cpu

/-- What the undriven data port, the unassigned `dat_in_bsram` and the serial line do in one
cycle. -/
structure In where
  iRst : Bool
  adrData : BitVec 32
  weData : BitVec 4
  datOutData : BitVec 32
  datInBsram : BitVec 32
  iUartRx : Bool

/-- The bus with its port, and the fetch stage. -/
structure State where
  soc : Soc.State
  fetch : Fetch.State

/-- What the processor drives. -/
def State.socIn (s : State) (i : In) : Soc.In where
  iRst := i.iRst
  adrInstr := s.fetch.pcCurrent
  stbInstr := true
  adrData := i.adrData
  weData := i.weData
  datOutData := i.datOutData
  stbData := true
  datInBsram := i.datInBsram
  iUartRx := i.iUartRx

/-- What the bus sees. -/
def State.busIn (s : State) (i : In) : Bus.In := s.soc.busIn (s.socIn i)

/-- `stall_instr`. -/
def State.stallInstr (s : State) (i : In) : Bool :=
  Bus.Master.stall s.soc.bus (s.busIn i) .instr

/-- What the fetch stage sees. -/
def State.fetchIn (s : State) (i : In) : Fetch.In where
  iRst := i.iRst
  iInstr := Bus.datInInstr s.soc.bus (s.busIn i)
  iStallInstr := s.stallInstr i
  iStall := s.stallInstr i
  iPcBranch := 0#32
  iPcSrc := false

/-- One clock edge. -/
def next (firmware : BitVec 32 → Option (BitVec 32)) (period : BitVec 17) (s : State) (i : In) :
    State where
  soc := Soc.next firmware period s.soc (s.socIn i)
  fetch := Fetch.next s.fetch (s.fetchIn i)

/-- A SoC that runs: its firmware, what the memory and `pc_fetched_plus_4` held, and what comes from
outside. -/
structure Board where
  firmware : BitVec 32 → Option (BitVec 32)
  period : BitVec 17
  ram : BitVec 30 → BitVec 32
  pcFetchedPlus4 : BitVec 32
  input : ℕ → In

/-- What reset leaves. -/
def Board.reset (board : Board) : State :=
  ⟨Soc.reset board.ram, ⟨Fetch.nop, 0#32, board.pcFetchedPlus4⟩⟩

/-- Before edge `n` of the run from reset. -/
def Board.states (board : Board) : ℕ → State :=
  Clocked.run (next board.firmware board.period) board.reset board.input

/-- The word of the program at an address. -/
def Board.word (board : Board) (address : BitVec 32) : BitVec 32 :=
  Bus.Memory.word board.firmware ⟨board.ram, false⟩ address

end Teres.Rtl.Cpu
