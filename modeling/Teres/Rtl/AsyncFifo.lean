import Teres.Base.Clocked
import Teres.Base.Gray

/-!
# The asynchronous FIFO (`common/src/async_fifo.v`)

Two clocked processes that share a dual-port memory. Each process owns its registers, and each
sees of the other only the Gray pointer that it samples at its own edges. The state keeps the two
sides apart for that reason, and one `step` takes the clock edges of one instant: a write edge, a
read edge, both at once (each side then samples what the other held before) or neither.

`DATA_WIDTH` is `d` and `POINTER_WIDTH` is `p`; the memory has `2 ^ p` words and the pointers have
`p + 1` bits.

One detail of the write process needs a choice. `nb_data_val` is a net, driven by a continuous
assignment from `write_read_bin`, and the process assigns `write_read_bin` with `=` just before it
compares the net. Whether the net has followed by then is left open by the language, so every write
edge carries the answer as an input (`settled`), and the laws hold for every pattern of answers.
-/

namespace Teres.Rtl.AsyncFifo

open Teres (Gray.encode Gray.decode Gray.flipTop)

/-- The registers of the write clock domain. -/
structure WriteSide (p : ℕ) where
  oWriteFull : Bool
  oHalfFull : Bool
  writePtr : BitVec (p + 1)
  /-- The second synchronizer stage of the read pointer. -/
  writeReadPtr : BitVec (p + 1)
  /-- The first synchronizer stage of the read pointer. -/
  writeReadPtr1 : BitVec (p + 1)
  writeBin : BitVec (p + 1)
  writeReadBin : BitVec (p + 1)
  writeFull : Bool

/-- The registers of the read clock domain. -/
structure ReadSide (d p : ℕ) where
  oReadData : BitVec d
  oReadEmpty : Bool
  readPtr : BitVec (p + 1)
  /-- The second synchronizer stage of the write pointer. -/
  readWritePtr : BitVec (p + 1)
  /-- The first synchronizer stage of the write pointer. -/
  readWritePtr1 : BitVec (p + 1)
  readBin : BitVec (p + 1)

/-- Both sides and the memory between them. -/
structure State (d p : ℕ) where
  w : WriteSide p
  r : ReadSide d p
  mem : BitVec p → BitVec d

/-- The write side's inputs at a write edge. -/
structure WriteIn (d : ℕ) where
  iCmdWrite : Bool
  iWriteData : BitVec d
  /-- Whether `nb_data_val` has followed `write_read_bin` when it is compared. -/
  settled : Bool

/-- The clock edges of one instant, each with its side's inputs; a read edge's input is
`I_cmd_read`. -/
structure Edges (d : ℕ) where
  write : Option (WriteIn d)
  read : Option Bool

/-- `DEPTH`, the words of the memory. -/
def depth (p : ℕ) : ℕ := 2 ^ p

variable {d p : ℕ}

/-! ## The write side -/

namespace WriteSide

def writeAddress (w : WriteSide p) : BitVec p := w.writeBin.setWidth p

def writeBinNext (w : WriteSide p) (iCmdWrite : Bool) : BitVec (p + 1) :=
  w.writeBin + BitVec.setWidth (p + 1) (BitVec.ofBool (iCmdWrite && !w.writeFull))

def writeGrayNext (w : WriteSide p) (iCmdWrite : Bool) : BitVec (p + 1) :=
  Gray.encode (w.writeBinNext iCmdWrite)

def writeFullVal (w : WriteSide p) (iCmdWrite : Bool) : Bool :=
  w.writeGrayNext iCmdWrite == Gray.flipTop w.writeReadPtr

/-- `nb_data_val`, for the value of `write_read_bin` that drives it: `p` bits of difference. -/
def nbDataVal (w : WriteSide p) (writeReadBin : BitVec (p + 1)) : BitVec p :=
  w.writeBin.setWidth p - writeReadBin.setWidth p

/-- The write process at a write edge out of reset. -/
def next (w : WriteSide p) (readPtr : BitVec (p + 1)) (i : WriteIn d) : WriteSide p :=
  let writeReadBin := Gray.decode w.writeReadPtr
  let nb := w.nbDataVal (if i.settled then writeReadBin else w.writeReadBin)
  { oWriteFull := decide (depth p - 2 ≤ nb.toNat)
    oHalfFull := decide (depth p / 2 ≤ nb.toNat)
    writePtr := w.writeGrayNext i.iCmdWrite
    writeReadPtr := w.writeReadPtr1
    writeReadPtr1 := readPtr
    writeBin := w.writeBinNext i.iCmdWrite
    writeReadBin := writeReadBin
    writeFull := w.writeFullVal i.iCmdWrite }

/-- The memory after a write edge. -/
def store (w : WriteSide p) (i : WriteIn d) (mem : BitVec p → BitVec d) : BitVec p → BitVec d :=
  if i.iCmdWrite && !w.writeFullVal i.iCmdWrite then
    fun a => if a = w.writeAddress then i.iWriteData else mem a
  else mem

/-- The reset branch; the registers it does not name keep what they held. -/
def reset (w : WriteSide p) : WriteSide p :=
  { w with
    oWriteFull := false
    writeFull := false
    writeBin := 0#(p + 1)
    writePtr := 0#(p + 1)
    writeReadPtr := 0#(p + 1)
    writeReadPtr1 := 0#(p + 1) }

end WriteSide

/-! ## The read side -/

namespace ReadSide

def readAddress (r : ReadSide d p) : BitVec p := r.readBin.setWidth p

def readBinNext (r : ReadSide d p) (iCmdRead : Bool) : BitVec (p + 1) :=
  r.readBin + BitVec.setWidth (p + 1) (BitVec.ofBool (iCmdRead && !r.oReadEmpty))

def readGrayNext (r : ReadSide d p) (iCmdRead : Bool) : BitVec (p + 1) :=
  Gray.encode (r.readBinNext iCmdRead)

def readEmptyVal (r : ReadSide d p) (iCmdRead : Bool) : Bool :=
  r.readGrayNext iCmdRead == r.readWritePtr

/-- The read process at a read edge out of reset. -/
def next (r : ReadSide d p) (writePtr : BitVec (p + 1)) (mem : BitVec p → BitVec d)
    (iCmdRead : Bool) : ReadSide d p :=
  { oReadData := if iCmdRead then mem r.readAddress else r.oReadData
    oReadEmpty := r.readEmptyVal iCmdRead
    readPtr := r.readGrayNext iCmdRead
    readWritePtr := r.readWritePtr1
    readWritePtr1 := writePtr
    readBin := r.readBinNext iCmdRead }

/-- The reset branch; `O_read_data` keeps what it held. -/
def reset (r : ReadSide d p) : ReadSide d p :=
  { r with
    oReadEmpty := false
    readBin := 0#(p + 1)
    readPtr := 0#(p + 1)
    readWritePtr := 0#(p + 1)
    readWritePtr1 := 0#(p + 1) }

end ReadSide

/-! ## Both sides -/

/-- The state after both resets, from whatever the registers and the memory held. -/
def reset (s : State d p) : State d p := { w := s.w.reset, r := s.r.reset, mem := s.mem }

/-- One instant: each side that has an edge takes it on the values from before the instant. -/
def step (s : State d p) (e : Edges d) : State d p :=
  { w := match e.write with
      | some i => s.w.next s.r.readPtr i
      | none => s.w
    r := match e.read with
      | some iCmdRead => s.r.next s.w.writePtr s.mem iCmdRead
      | none => s.r
    mem := match e.write with
      | some i => s.w.store i s.mem
      | none => s.mem }

/-- The state before instant `n` of a run that starts in reset. -/
def states (s₀ : State d p) (input : ℕ → Edges d) : ℕ → State d p :=
  Clocked.run step (reset s₀) input

/-! ## What is observed -/

/-- The word accepted at an instant: `I_cmd_write` with `write_full` low. -/
def accepts (s : State d p) (e : Edges d) : List (BitVec d) :=
  match e.write with
  | some i => if i.iCmdWrite && !s.w.writeFull then [i.iWriteData] else []
  | none => []

/-- The word the writer asks to write at an instant, accepted or not. -/
def commands (e : Edges d) : List (BitVec d) :=
  match e.write with
  | some i => if i.iCmdWrite then [i.iWriteData] else []
  | none => []

/-- The word taken at an instant: `O_read_data` after a read edge with `I_cmd_read` and
`O_read_empty` low. -/
def takes (s : State d p) (e : Edges d) : List (BitVec d) :=
  match e.read with
  | some iCmdRead => if iCmdRead && !s.r.oReadEmpty then [(step s e).r.oReadData] else []
  | none => []

/-- The accepted words before instant `n`. -/
def accepted (s₀ : State d p) (input : ℕ → Edges d) : ℕ → List (BitVec d) :=
  Clocked.ledger fun n => accepts (states s₀ input n) (input n)

/-- The taken words before instant `n`. -/
def taken (s₀ : State d p) (input : ℕ → Edges d) : ℕ → List (BitVec d) :=
  Clocked.ledger fun n => takes (states s₀ input n) (input n)

/-- The words the writer asked to write before instant `n`. -/
def commanded (input : ℕ → Edges d) : ℕ → List (BitVec d) :=
  Clocked.ledger fun n => commands (input n)

/-- The reader gives its first `I_cmd_read` after `O_read_empty` has been computed once. -/
def ReaderWaits (input : ℕ → Edges d) : Prop :=
  ∀ n, (input n).read = some true → ∃ m < n, (input m).read.isSome = true

end Teres.Rtl.AsyncFifo
