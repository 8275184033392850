import Teres.Rtl.Arbiter
import Mathlib.Logic.Function.Basic

/-!
# The bus of the SoC (`common/src/c5_soc.v`) and its memory (`common/src/c5_ram.v`)

The arbiter's grant selects which master drives the bus, and the bus address selects what answers.
The signals that a block `always @(*)` does not assign in every branch are latches: `dat_in_instr`,
`dat_in_data` and `adr_bsram`. `stall_bus` is always low, and `we_bsram` always zero: the block
assigns neither in any branch. `dat_in_bsram` is never assigned; it is an input here, as are the
masters and the serial port.

The memory's registered output is the word at its address of the cycle before, or the firmware's
word as long as address 0 has not been written. The firmware is any table. The code's array has
`BSRAM_SIZE` words, of which the bus reaches the first quarter.

`Memory` is what the bus is for: one memory, which both masters read and the data master writes, one
access at a time.
-/

namespace Teres.Rtl.Bus

/-- `BSRAM_SIZE`. -/
def bsramSize : BitVec 32 := 1#32 <<< 7

/-- `UART_ADR`. -/
def uartAdr : BitVec 32 := 0x80000000#32

/-- `UART_FAULT`. -/
def uartFault : BitVec 32 := 0x00008000#32

/-! ## The memory -/

/-- What the memory holds. -/
structure Memory where
  ram : BitVec 30 → BitVec 32
  initialized : Bool

/-- `I_adr[31:2]`. -/
def wordIndex (iAdr : BitVec 32) : BitVec 30 := iAdr.extractLsb' 2 30

/-- A word with the enabled byte lanes of another. -/
def lanes (iWe : BitVec 4) (iDat word : BitVec 32) : BitVec 32 :=
  (if iWe.getLsbD 3 then iDat.extractLsb' 24 8 else word.extractLsb' 24 8) ++
    (if iWe.getLsbD 2 then iDat.extractLsb' 16 8 else word.extractLsb' 16 8) ++
    (if iWe.getLsbD 1 then iDat.extractLsb' 8 8 else word.extractLsb' 8 8) ++
    (if iWe.getLsbD 0 then iDat.extractLsb' 0 8 else word.extractLsb' 0 8)

namespace Memory

/-- The word stored at an address. -/
def word (firmware : BitVec 32 → Option (BitVec 32)) (m : Memory) (iAdr : BitVec 32) : BitVec 32 :=
  if m.initialized then m.ram (wordIndex iAdr)
  else (firmware (wordIndex iAdr ++ 0#2)).getD (m.ram (wordIndex iAdr))

/-- The enabled byte lanes of a word written. -/
def write (m : Memory) (iWe : BitVec 4) (iAdr iDat : BitVec 32) : Memory where
  ram := Function.update m.ram (wordIndex iAdr) (lanes iWe iDat (m.ram (wordIndex iAdr)))
  initialized := m.initialized || iAdr == 0#32

end Memory

/-- The registers of `c5_ram`. -/
structure Ram where
  memory : Memory
  oDat : BitVec 32

/-- One clock edge of `c5_ram`. -/
def Ram.next (firmware : BitVec 32 → Option (BitVec 32)) (r : Ram) (iRst iStb : Bool)
    (iWe : BitVec 4) (iAdr iDat : BitVec 32) : Ram :=
  if iRst then { memory := { r.memory with initialized := false }, oDat := 0#32 }
  else
    { memory := if iStb ∧ iWe ≠ 0#4 then r.memory.write iWe iAdr iDat else r.memory
      oDat := r.memory.word firmware iAdr }

/-! ## The bus -/

/-- What the masters, the serial port and the unassigned `dat_in_bsram` drive in one cycle. -/
structure In where
  iRst : Bool
  adrInstr : BitVec 32
  stbInstr : Bool
  adrData : BitVec 32
  weData : BitVec 4
  datOutData : BitVec 32
  stbData : Bool
  datInBsram : BitVec 32
  uartBusyWrite : Bool
  uartDataReady : Bool
  uartDataR : BitVec 8

/-- The registers and the latches. -/
structure State where
  arbiter : Arbiter.State 3
  ram : Ram
  adrBsram : BitVec 32
  datInInstr : BitVec 32
  datInData : BitVec 32

/-- What the granted master drives. -/
structure Driven where
  datOutBus : BitVec 32
  adrBus : BitVec 32
  weBus : BitVec 4
  stbBus : Bool

/-- The `case` on the grant. -/
def driven (grant : BitVec 3) (i : In) : Driven :=
  if grant = 0b001#3 then ⟨0#32, i.adrInstr, 0#4, i.stbInstr⟩
  else if grant = 0b010#3 then ⟨i.datOutData, i.adrData, i.weData, i.stbData⟩
  else ⟨0#32, 0#32, 0#4, false⟩

/-- What the address decoder drives. -/
structure Decoded where
  datInBus : BitVec 32
  stallBus : Bool
  weBsram : BitVec 4
  stbBsram : Bool
  adrBsram : BitVec 32
  uartWe : Bool
  uartStb : Bool
  uartDataW : BitVec 8

/-- The address decoder. -/
def decoded (s : State) (i : In) : Decoded :=
  let bus := driven s.arbiter.oGrant i
  let idle : Decoded := ⟨0#32, false, 0#4, false, s.adrBsram, false, false, 32#8⟩
  if bus.adrBus < bsramSize then
    { idle with adrBsram := bus.adrBus, stbBsram := true, datInBus := s.ram.oDat }
  else if bus.adrBus = uartAdr then
    if bus.weBus ≠ 0#4 then
      if !i.uartBusyWrite then
        { idle with uartWe := true, uartStb := true, uartDataW := bus.datOutBus.setWidth 8 }
      else idle
    else if i.uartDataReady then
      { idle with datInBus := i.uartDataR.setWidth 32, uartStb := true }
    else { idle with datInBus := uartFault }
  else idle

/-- `dat_in_instr`. -/
def datInInstr (s : State) (i : In) : BitVec 32 :=
  if s.arbiter.oGrant = 0b001#3 then (decoded s i).datInBus else s.datInInstr

/-- `dat_in_data`. -/
def datInData (s : State) (i : In) : BitVec 32 :=
  if s.arbiter.oGrant = 0b010#3 then (decoded s i).datInBus else s.datInData

/-- `request`. -/
def request (i : In) : BitVec 3 := 0#1 ++ BitVec.ofBool i.stbData ++ BitVec.ofBool i.stbInstr

/-- One clock edge. -/
def next (firmware : BitVec 32 → Option (BitVec 32)) (s : State) (i : In) : State where
  arbiter := Arbiter.next s.arbiter ⟨i.iRst, (decoded s i).stallBus, request i⟩
  ram := s.ram.next firmware i.iRst (decoded s i).stbBsram (decoded s i).weBsram
    (decoded s i).adrBsram i.datInBsram
  adrBsram := (decoded s i).adrBsram
  datInInstr := datInInstr s i
  datInData := datInData s i

/-- What reset leaves, in a memory of any content. -/
def reset (ram : BitVec 30 → BitVec 32) : State where
  arbiter := Arbiter.reset 3
  ram := ⟨⟨ram, false⟩, 0#32⟩
  adrBsram := 0#32
  datInInstr := 0#32
  datInData := 0#32

/-- Before edge `n` of a run from reset. -/
def states (firmware : BitVec 32 → Option (BitVec 32)) (ram : BitVec 30 → BitVec 32)
    (input : ℕ → In) : ℕ → State :=
  Clocked.run (next firmware) (reset ram) input

/-! ## The accesses -/

/-- The two masters. -/
inductive Master where
  | instr
  | data
deriving DecidableEq

/-- The bit of a master in the grant. -/
def Master.bit : Master → ℕ
  | .instr => 0
  | .data => 1

/-- The strobe of a master. -/
def Master.stb (i : In) : Master → Bool
  | .instr => i.stbInstr
  | .data => i.stbData

/-- The address that a master drives. -/
def Master.adr (i : In) : Master → BitVec 32
  | .instr => i.adrInstr
  | .data => i.adrData

/-- The byte lanes that a master writes. -/
def Master.we (i : In) : Master → BitVec 4
  | .instr => 0#4
  | .data => i.weData

/-- `stall_instr` and `stall_data`. -/
def Master.stall (s : State) (i : In) (m : Master) : Bool :=
  m.stb i && (!s.arbiter.oGrant.getLsbD m.bit || (decoded s i).stallBus)

/-- What a master receives. -/
def Master.datIn (s : State) (i : In) : Master → BitVec 32
  | .instr => datInInstr s i
  | .data => datInData s i

/-- An access of a master to the memory: its strobe is high, it is granted and not stalled. -/
structure Accesses (s : State) (i : In) (m : Master) : Prop where
  rst : i.iRst = false
  stb : m.stb i = true
  granted : s.arbiter.oGrant.getLsbD m.bit = true
  free : m.stall s i = false
  inside : m.adr i < bsramSize

/-- The data master writes. -/
def Writes (s : State) (i : In) : Prop := Accesses s i .data ∧ i.weData ≠ 0#4

/-- One access to one memory: a read returns the word stored at the address that its master drives,
a write writes its byte lanes, and nothing else changes the memory. -/
structure Atomic (firmware : BitVec 32 → Option (BitVec 32)) (s : State) (i : In) : Prop where
  reads : ∀ m : Master, Accesses s i m → m.we i = 0#4 →
    m.datIn s i = s.ram.memory.word firmware (m.adr i)
  writes : Writes s i →
    (next firmware s i).ram.memory = s.ram.memory.write i.weData i.adrData i.datOutData
  keeps : i.iRst = false → ¬ Writes s i → (next firmware s i).ram.memory = s.ram.memory

/-- The address that the memory had in the cycle before a read holds the same word, and a write
writes what is there. -/
structure Agrees (firmware : BitVec 32 → Option (BitVec 32)) (s : State) (i : In) : Prop where
  reads : ∀ m : Master, Accesses s i m → m.we i = 0#4 →
    s.ram.memory.word firmware s.adrBsram = s.ram.memory.word firmware (m.adr i)
  writes : Writes s i → s.ram.memory.write i.weData i.adrData i.datOutData = s.ram.memory

end Teres.Rtl.Bus
