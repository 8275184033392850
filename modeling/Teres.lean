import Teres.Laws.Rtl.Ternary
import Teres.Laws.Rtl.FifoReserve
import Teres.Laws.Rtl.UartLink
import Teres.Laws.Rtl.DisplayWords
import Teres.Laws.Rtl.Arbiter
import Teres.Laws.Rtl.Tmds
import Teres.Laws.Rtl.Fetch
import Teres.Laws.Rtl.Bus
import Teres.Laws.Rtl.SpiMaster
import Teres.Laws.Rtl.Sdcard
import Teres.Laws.Tools.Cod5asm
import Teres.Laws.Tools.BldCycles
import Teres.Laws.Tools.JsonLanguage
import Teres.Laws.Tools.JsonVisits
import Teres.Laws.Tools.JsonEnds
import Teres.Laws.Tools.Tasks
import Teres.Laws.Rtl.TernaryCompare
import Teres.Laws.Rtl.TernaryIncrement
import Teres.Laws.Tools.Bin2ter
import Teres.Laws.Tools.Mnemonics
import Teres.Laws.Tools.Assembler
import Teres.Laws.Tools.Malformed
import Teres.Laws.Tools.Build
import Teres.Base.Packed
import Teres.Tools.Build
import Teres.Tools.TasksDocument
import Teres.Laws.Tools.TaskFields
import Teres.Laws.Tools.JsonEntries
import Teres.Laws.Tools.GatherCalls
import Teres.Laws.Tools.GatherTask
import Teres.Laws.Tools.Gathered
import Teres.Base.Named
import Teres.Laws.Tools.TaskObjects
import Teres.Laws.Tools.Handed
import Teres.Laws.Tools.MemberOrder
import Teres.Laws.Rtl.FifoLevels
import Teres.Laws.Rtl.TernaryHalf
import Teres.Rtl.InstrMem
import Teres.Laws.Rtl.Memories
import Teres.Laws.Rtl.UartRead
import Teres.Laws.Rtl.SpiPhase
import Teres.Tools.Dump2v
import Teres.Base.Sparse
import Teres.Laws.Tools.Dump2vLines
import Teres.Laws.Tools.Dump2v
import Teres.Tools.JsonDump
import Teres.Laws.Tools.JsonPrinted
import Teres.Laws.Tools.JsonDump
import Teres.Kbd.HidBootloaderCli
import Teres.Kbd.BootloaderHID
import Teres.Kbd.IntelHex
import Teres.Laws.Kbd.HexFaults
import Teres.Laws.Kbd.Programming
import Teres.Kbd.KeyboardMouse
import Teres.Base.Slots
import Teres.Laws.Kbd.KeyboardReport
import Teres.Laws.Kbd.Touchpad
import Teres.Laws.Kbd.Taps
import Teres.Laws.Kbd.Pointer
import Teres.Rtl.Soc
import Teres.Laws.Rtl.UartGated
import Teres.Laws.Rtl.Soc
import Teres.Laws.Rtl.TmdsDecode
import Teres.Base.Domain
import Teres.Rtl.Video
import Teres.Laws.Rtl.FifoDelay
import Teres.Laws.Rtl.DisplayRequests
import Teres.Laws.Rtl.Video
import Teres.Rtl.Cpu
import Teres.Laws.Rtl.Cpu
import Teres.Laws.Rtl.Boot
