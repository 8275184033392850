import Teres.Rtl.Bus

/-!
# The two memory modules (`common/src/c5_ram.v`, `common/src/c5_instr_mem.v`)

`c5_instr_mem` is a second copy of `c5_ram`, with the same registers and the same included firmware
table. The edge of `c5_ram` is `Bus.Ram.next`; the copy differs in the branch that sets
`initialized`.

Both are given an access at every clock edge. The registers begin with whatever the array holds at
power-up and with `initialized` low. The model's array has a word for every address; the code's has
`BSRAM_SIZE` words.
-/

namespace Teres.Rtl.Memories

open Bus

/-- What a memory module is given at a clock edge. -/
structure MemoryIn where
  iRst : Bool
  iStb : Bool
  iWe : BitVec 4
  iAdr : BitVec 32
  iDat : BitVec 32

/-- The firmware table that both modules include, by the byte address of a word. -/
abbrev Firmware := BitVec 32 → Option (BitVec 32)

/-- The `case` label of an address. -/
def label (iAdr : BitVec 32) : BitVec 32 := wordIndex iAdr ++ 0#2

/-- The registers at power-up. -/
def powerUp (ram : BitVec 30 → BitVec 32) (oDat : BitVec 32) : Ram := ⟨⟨ram, false⟩, oDat⟩

/-- One clock edge of `c5_ram`. -/
def c5Ram (firmware : Firmware) (r : Ram) (i : MemoryIn) : Ram :=
  r.next firmware i.iRst i.iStb i.iWe i.iAdr i.iDat

/-- One clock edge of `c5_instr_mem`: `initialized` is set inside the branch of the lowest byte
lane. -/
def c5InstrMem (firmware : Firmware) (r : Ram) (i : MemoryIn) : Ram :=
  if i.iRst then { memory := { r.memory with initialized := false }, oDat := 0#32 }
  else
    { memory :=
        if i.iStb ∧ i.iWe ≠ 0#4 then
          { ram := Function.update r.memory.ram (wordIndex i.iAdr)
              (lanes i.iWe i.iDat (r.memory.ram (wordIndex i.iAdr)))
            initialized :=
              if i.iWe.getLsbD 0 then
                if i.iAdr = 0#32 then true else r.memory.initialized
              else r.memory.initialized }
        else r.memory
      oDat := r.memory.word firmware i.iAdr }

/-! ## The history of a memory -/

/-- The byte lane `l` of a word. -/
def lane (l : ℕ) (w : BitVec 32) : BitVec 8 := w.extractLsb' (8 * l) 8

/-- An access that writes. -/
def Writes (i : MemoryIn) : Prop := i.iRst = false ∧ i.iStb = true ∧ i.iWe ≠ 0#4

instance (i : MemoryIn) : Decidable (Writes i) :=
  inferInstanceAs (Decidable (_ ∧ _ ∧ _))

/-- The byte that an access writes to a lane of a word. -/
def laneWritten (word : BitVec 30) (l : ℕ) (i : MemoryIn) : Option (BitVec 8) :=
  if Writes i ∧ i.iWe.getLsbD l = true ∧ wordIndex i.iAdr = word then some (lane l i.iDat) else none

/-- Address 0 has been written since the last reset. -/
def ZeroWritten (input : ℕ → MemoryIn) (n : ℕ) : Prop :=
  Clocked.Since (fun i => i.iRst = true) (fun i => Writes i ∧ i.iAdr = 0#32) input n

/-- The lowest byte lane of address 0 has been written since the last reset. -/
def ZeroLaneWritten (input : ℕ → MemoryIn) (n : ℕ) : Prop :=
  Clocked.Since (fun i => i.iRst = true)
    (fun i => Writes i ∧ i.iAdr = 0#32 ∧ i.iWe.getLsbD 0 = true) input n

end Teres.Rtl.Memories
