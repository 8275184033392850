import Teres.Base.Clocked
import Mathlib.Data.BitVec

/-!
# The frame generator (`common/src/display.v`)

One process on the pixel clock: counters `xpos_next` and `ypos_next` over 800 by 525 positions, a
copy of them one cycle behind, the sync and enable flags derived from either, a three-cycle read of
the next word, and the colour of one nibble of the current word.

`next` is one clock edge. All assignments are nonblocking but the one to `pixel`, so `pixel` is a
function of the state before the edge. Reset leaves `xpos`, `ypos`, `draw_enable`, `O_read` and the
colours as they are. `count`, `color` and `x`, which nothing reads, are not here.
-/

namespace Teres.Rtl.Display

/-- The colour registers. -/
structure Colour where
  red : BitVec 8
  green : BitVec 8
  blue : BitVec 8
deriving DecidableEq

/-- The registers. -/
structure State where
  xpos : BitVec 10
  ypos : BitVec 10
  xposNext : BitVec 10
  yposNext : BitVec 10
  hSync : Bool
  vSync : Bool
  oSync : Bool
  drawEnable : Bool
  drawEnableNext : Bool
  oRead : Bool
  reading : Bool
  data : BitVec 32
  colour : Colour

/-- The inputs at one edge. -/
structure In where
  iRstN : Bool
  iData : BitVec 32
  iEmpty : Bool

/-- The reset branch. -/
def reset (s : State) : State :=
  { s with
    hSync := false
    vSync := false
    oSync := false
    drawEnableNext := false
    xposNext := 0#10
    yposNext := 0#10
    reading := false
    data := 0#32 }

/-- The colour table. -/
def palette (pixel : BitVec 4) : Colour :=
  match pixel with
  | 0 => ⟨0, 0, 0⟩
  | 1 => ⟨0xFF, 0, 0⟩
  | 2 => ⟨0, 0xFF, 0⟩
  | 3 => ⟨0xFF, 0xFF, 0⟩
  | 4 => ⟨0, 0, 0xFF⟩
  | 5 => ⟨0xFF, 0, 0xFF⟩
  | 6 => ⟨0, 0xFF, 0xFF⟩
  | 7 => ⟨0xFF, 0xFF, 0xFF⟩
  | 8 => ⟨0x11, 0x11, 0x11⟩
  | 9 => ⟨0x22, 0x22, 0x22⟩
  | 10 => ⟨0x44, 0x44, 0x44⟩
  | 11 => ⟨0x66, 0x66, 0x66⟩
  | 12 => ⟨0x88, 0x88, 0x88⟩
  | 13 => ⟨0xAA, 0xAA, 0xAA⟩
  | 14 => ⟨0xCC, 0xCC, 0xCC⟩
  | _ => ⟨0xDD, 0xDD, 0xDD⟩ -- 15

/-- Nibble `k` of a word, the low one first. -/
def nibble (data : BitVec 32) (k : ℕ) : BitVec 4 := data.extractLsb' (4 * k) 4

/-- `pixel`, selected by the low three bits of `xpos`. -/
def State.pixel (s : State) : BitVec 4 := nibble s.data (s.xpos.toNat % 8)

/-- The colour of the position `(xpos, ypos)`, magenta on the diagonal. -/
def State.nextColour (s : State) : Colour :=
  if s.xpos = s.ypos then ⟨255, 0, 255⟩ else palette s.pixel

/-- The condition of a read request: three positions before a word, while drawing, or once more
before the first line. -/
def State.requests (s : State) : Bool :=
  decide (s.xposNext.toNat % 8 = 5) &&
    (s.drawEnableNext ||
      decide (s.yposNext.toNat = 33 ∧ s.xposNext.toNat < 48 ∧ 48 - 8 < s.xposNext.toNat))

/-- One edge of the pixel clock. -/
def next (s : State) (i : In) : State :=
  if !i.iRstN then reset s
  else
    { xposNext := if s.xposNext = 799#10 then 0#10 else s.xposNext + 1#10
      yposNext :=
        if s.xposNext = 799#10 then
          if s.yposNext = 524#10 then 0#10 else s.yposNext + 1#10
        else s.yposNext
      drawEnableNext :=
        decide (s.xposNext.toNat < 48 + 640 ∧ s.yposNext.toNat < 33 + 480 ∧
          48 ≤ s.xposNext.toNat ∧ 33 ≤ s.yposNext.toNat)
      drawEnable := s.drawEnableNext
      xpos := s.xposNext
      ypos := s.yposNext
      hSync := decide (48 + 640 + 16 ≤ s.xpos.toNat ∧ s.xpos.toNat < 48 + 640 + 16 + 96)
      vSync := decide (33 + 480 + 10 ≤ s.ypos.toNat ∧ s.ypos.toNat < 33 + 480 + 10 + 2)
      oSync := decide (s.ypos.toNat = 0 ∧ s.xpos.toNat < 128)
      oRead := s.requests && !i.iEmpty
      reading :=
        if s.requests then s.reading
        else if s.oRead then true
        else if s.reading then false
        else s.reading
      data :=
        if s.requests then if i.iEmpty then 0#32 else s.data
        else if s.oRead then s.data
        else if s.reading then i.iData
        else s.data
      colour := s.nextColour }

/-- The state before cycle `t` of a run that begins at the last edge of a reset. -/
def states (s : State) (input : ℕ → In) : ℕ → State := Clocked.run next (reset s) input

end Teres.Rtl.Display
