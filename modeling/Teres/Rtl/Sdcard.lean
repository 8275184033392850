import Teres.Rtl.SpiMaster

/-!
# The SD card controller (`common/src/sdcard.v`)

`sdcard` with the `spi_master` in it, on one clock. In the `case` of `sdcard` the assignments in
front of it come first. `CMD8`, `I_cmd_write` and `I_data_out` are not here, as nothing depends on
them, nor are the states that no local parameter names, as nothing leads to them. Reset leaves the
registers that it does not set as they were.
-/

namespace Teres.Rtl.Sdcard

/-- `CMD0`: its 48 bits, with start, index, argument, checksum and end. -/
def CMD0 : BitVec 48 := 0b010000000000000000000000000000000000000010010101#48

/-- The states. -/
inductive St where
  | idle
  | initCard
  | sendCmd
  | cmd0Sent
  | uninit
  | retryInit
  | cmd0Dummy
deriving DecidableEq

/-- The inputs of one clock cycle. -/
structure In where
  iRstN : Bool
  iMiso : Bool
  iCmdRead : Bool
  iCmdInit : Bool

/-- The registers of `sdcard` itself. -/
structure Regs where
  oCsN : Bool
  oDataIn : BitVec 32
  oDataReady : Bool
  spiWrite : Bool
  spiRead : Bool
  spiSpeed : BitVec 4
  spiSend : BitVec 8
  state : St
  nextState : St
  step : BitVec 5
  cmd : BitVec 48
  retryCount : BitVec 5
  dummySend : BitVec 5

/-- What `sdcard` sees of its `spi_master`: `spi_busy`, `spi_data_ready` and `spi_receive`. -/
structure Spi where
  busy : Bool
  dataReady : Bool
  receive : BitVec 8

/-- The reset branch. -/
def Regs.reset (r : Regs) : Regs :=
  { r with
    oCsN := true
    oDataIn := 0#32
    state := .uninit
    spiWrite := false
    spiRead := false
    spiSpeed := 0#4
    spiSend := 0#8
    retryCount := 0#5 }

/-- The branch of `I_cmd_init`. -/
def Regs.init (r : Regs) : Regs :=
  { r with
    spiWrite := false
    spiRead := false
    oCsN := true
    retryCount := 0#5
    state := .initCard
    step := 11#5 }

/-- `O_data_in[7:0]` written. -/
def Regs.low (r : Regs) (byte : BitVec 8) : BitVec 32 := r.oDataIn.extractLsb' 8 24 ++ byte

/-- `spi_send` and `spi_write` set. -/
def Regs.send (r : Regs) (byte : BitVec 8) : Regs := { r with spiSend := byte, spiWrite := true }

/-- `STATE_RETRY_INIT`. -/
def Regs.retryInit (r : Regs) : Regs :=
  let r' := { r with oCsN := true, retryCount := r.retryCount + 1#5 }
  if r.retryCount = 15#5 then { r' with state := .uninit }
  else { r' with state := .initCard, step := 2#5 }

/-- `STATE_INIT_CARD`, where the `spi_master` is free. -/
def Regs.initCard (r : Regs) : Regs :=
  let r' := { r with step := r.step - 1#5 }
  if r.step = 1#5 then { r' with oCsN := false }
  else if r.step = 0#5 then
    { r' with state := .sendCmd, nextState := .cmd0Sent, cmd := CMD0, step := 0#5 }
  else { r' with oCsN := true }.send 0xFF#8

/-- `STATE_CMD0_SENT`, where the `spi_master` is free. -/
def Regs.cmd0Sent (r : Regs) : Regs :=
  { r.send 0xFF#8 with state := .cmd0Dummy, dummySend := 9#5 }

/-- `STATE_CMD0_DUMMY`, where the `spi_master` is free and a byte is there. -/
def Regs.cmd0Dummy (r : Regs) (receive : BitVec 8) : Regs :=
  let r' := { r with dummySend := r.dummySend - 1#5, spiRead := true }
  if receive = 1#8 then
    { r' with state := .idle, oDataIn := r.low receive, oDataReady := true }
  else if r.dummySend = 0#5 then
    { r' with oDataIn := r.low receive, oDataReady := true, state := .retryInit }
  else r'.send 0xFF#8

/-- `STATE_SEND_CMD`, where the `spi_master` is free. -/
def Regs.sendCmd (r : Regs) : Regs :=
  let r' := { r with step := r.step + 1#5 }
  if r.step = 0#5 then r'.send (r.cmd.extractLsb' 40 8)
  else if r.step = 1#5 then r'.send (r.cmd.extractLsb' 32 8)
  else if r.step = 2#5 then r'.send (r.cmd.extractLsb' 24 8)
  else if r.step = 3#5 then r'.send (r.cmd.extractLsb' 16 8)
  else if r.step = 4#5 then r'.send (r.cmd.extractLsb' 8 8)
  else if r.step = 5#5 then r'.send (r.cmd.extractLsb' 0 8)
  else if r.step = 6#5 then { r' with state := r.nextState, step := 0#5 }
  else r'

/-- One clock edge of `sdcard` itself. -/
def Regs.next (r : Regs) (spi : Spi) (i : In) : Regs :=
  if !i.iRstN then r.reset
  else if i.iCmdInit then r.init
  else
    -- the conditions read the registers as they are before the edge
    let free := !r.spiWrite && !spi.busy
    let r' := { r with
      spiWrite := false
      spiRead := false
      oDataReady := if i.iCmdRead && r.oDataReady then false else r.oDataReady }
    match r.state with
    | .uninit => { r' with oCsN := true }
    | .idle => { r' with oCsN := false }
    | .retryInit => r'.retryInit
    | .initCard => if free then r'.initCard else r'
    | .cmd0Sent => if free then r'.cmd0Sent else r'
    | .cmd0Dummy =>
      if free && !r.spiRead && spi.dataReady then r'.cmd0Dummy spi.receive else r'
    | .sendCmd => if free then r'.sendCmd else r'

/-- `sdcard` with its `spi_master`. -/
structure State where
  regs : Regs
  spi : SpiMaster.State

/-- The parameters of the `spi_master`: SPI mode 0, its default. -/
def params (freq : ℕ) : SpiMaster.Params := ⟨freq, 0, 0⟩

/-- What the `spi_master` gives. -/
def State.out (s : State) : Spi := ⟨s.spi.oBusyWrite, s.spi.oDataReady, s.spi.oDataIn⟩

/-- What the `spi_master` is given. -/
def State.into (s : State) (i : In) : SpiMaster.In where
  iRstN := i.iRstN
  iMiso := i.iMiso
  iCmdRead := s.regs.spiRead
  iCmdWrite := s.regs.spiWrite
  iSpeed := s.regs.spiSpeed
  iDataOut := s.regs.spiSend

/-- One clock edge. -/
def next (freq : ℕ) (s : State) (i : In) : State where
  regs := s.regs.next s.out i
  spi := SpiMaster.next (params freq) s.spi (s.into i)

/-- `O_busy_write`. -/
def State.oBusyWrite (s : State) : Bool := s.regs.state ≠ .uninit && s.regs.state ≠ .idle

/-- What reset leaves of a state. -/
def State.reset (freq : ℕ) (s : State) : State where
  regs := s.regs.reset
  spi := s.spi.reset (params freq)

/-- The state before cycle `n` of a run from reset. -/
def states (freq : ℕ) (memory : State) (input : ℕ → In) : ℕ → State :=
  Clocked.run (next freq) (memory.reset freq) input

/-! ## The wire -/

/-- What happens on the wire to the card: a bit at a rising edge of `O_sck`, or `O_cs_n` changes. -/
inductive Event where
  | bit (bit : SpiMaster.Bit)
  | select (csN : Bool)
deriving DecidableEq

/-- What one clock edge puts on the wire. -/
def events (freq : ℕ) (s : State) (i : In) : List Event :=
  (SpiMaster.bits (params freq) s.spi (s.into i)).map .bit ++
    if (next freq s i).regs.oCsN = s.regs.oCsN then [] else [.select (next freq s i).regs.oCsN]

end Teres.Rtl.Sdcard
