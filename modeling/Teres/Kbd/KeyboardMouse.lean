import Mathlib.Data.BitVec

/-!
# The keyboard and the touchpad (`TERES-HID/KeyboardMouse.c`)

The program of the controller behind the keyboard. For the host it makes two kinds of reports: one
of the keys, from a scan of the switches, and one of the pointer, from the last packet of the
touchpad. Packets are received by the interrupt of the touchpad and by that of the timer, which also
counts the times of taps and touches. While keys are used, `tp_guard` keeps packets of the touchpad
from being used.

The two programs share variables that are not `volatile`, so that what an interrupt finds in the
middle of a report is up to the compiler; here an interrupt comes between two reports. What is only
ever written (`drag`, `tap_enabled`, `itsDone`), or stays zero (`ticks`, `dragtime`), is left out.
-/

namespace Teres.Kbd.KeyboardMouse

/-! ## Tables -/

/-- The scan codes of the USB library (`HID_KEYBOARD_SC_*`) that are used. -/
inductive Sc where
  | leftControl | graveAccentAndTilde | f1 | f2 | digit5AndPercentage | digit6AndCaret
  | equalAndPlus | f8 | minusAndUnderscore | f9 | delete | tab | capsLock | f3 | t | y
  | closingBracketAndClosingBrace | f7 | openingBracketAndOpeningBrace | backspace | leftShift | a
  | s | d | f | j | k | l | semicolonAndColon | backslashAndPipe | rightShift | escape | f4 | g | h
  | f6 | apostropheAndQuote | leftAlt | f11 | space | upArrow | rightControl | z | x | c | v | m
  | commaAndLessThanSign | dotAndGreaterThanSign | enter | b | n | slashAndQuestionMark | rightAlt
  | f12 | downArrow | rightArrow | leftArrow | q | w | e | r | u | i | o | p | f5
  | digit1AndExclamation | digit2AndAt | digit3AndHashmark | digit4AndDollar | digit7AndAmpersand
  | digit8AndAsterisk | digit9AndOpeningParenthesis | digit0AndClosingParenthesis | printScreen
  | f10 | keypad1AndEnd | keypad2AndDownArrow | keypad3AndPageDown | keypadMinus | volumeDown
  | mute | insert | pageUp | keypad0AndInsert | keypadPlus | pageDown | endKey | home
  | keypad4AndLeftArrow | keypad5 | keypad6AndRightArrow | keypadAsterisk | volumeUp | keypadSlash
  | numLock | pause
deriving DecidableEq

/-- Its masks of modifiers (`HID_KEYBOARD_MODIFIER_*`). -/
inductive Modifier where
  | leftctrl | leftgui | leftshift | rightshift | leftalt | rightctrl | rightalt
deriving DecidableEq

/-- What it defines them as. -/
structure Lufa where
  sc : Sc → BitVec 8
  modifier : Modifier → BitVec 8

/-- `HID_KEY_WLAN`. -/
def wlan : BitVec 8 := 246#8

/-- `HID_KEY_LOCK_TOUCHPAD`. -/
def lockTouchpad : BitVec 8 := 199#8

/-- `HID_KEY_BRIGTHNESS_DOWN`. -/
def brigthnessDown : BitVec 8 := 0x6f#8

/-- `HID_KEY_BRIGTHNESS_UP`. -/
def brigthnessUp : BitVec 8 := 0x70#8

/-- `HID_KEYBOARD_SC_SLEEP`. -/
def sleep : BitVec 8 := 0x71#8

/-- `HID_KEY_DISPLAY_SWITCH`. -/
def displaySwitch : BitVec 8 := 0xe3#8

/-- `HID_KEYBOARD_SC_COMPOSE`. -/
def compose : BitVec 8 := 0x65#8

/-- `keys`: fourteen codes a column, without and with the function key. -/
def keys (lufa : Lufa) : List (BitVec 8) :=
  [ lufa.sc .leftControl, lufa.sc .graveAccentAndTilde, lufa.sc .f1, lufa.sc .f2,
    lufa.sc .digit5AndPercentage, lufa.sc .digit6AndCaret, lufa.sc .equalAndPlus, lufa.sc .f8,
    lufa.sc .minusAndUnderscore, 0, lufa.sc .f9, lufa.sc .delete, 0, 0,
    0, lufa.sc .tab, lufa.sc .capsLock, lufa.sc .f3, lufa.sc .t, lufa.sc .y,
    lufa.sc .closingBracketAndClosingBrace, lufa.sc .f7, lufa.sc .openingBracketAndOpeningBrace, 0,
    lufa.sc .backspace, 0, 0, lufa.sc .leftShift,
    0, lufa.sc .a, lufa.sc .s, lufa.sc .d, lufa.sc .f, lufa.sc .j, lufa.sc .k, lufa.sc .l,
    lufa.sc .semicolonAndColon, 0, lufa.sc .backslashAndPipe, 0, 0, lufa.sc .rightShift,
    0, lufa.sc .escape, 0, lufa.sc .f4, lufa.sc .g, lufa.sc .h, lufa.sc .f6, 0,
    lufa.sc .apostropheAndQuote, lufa.sc .leftAlt, lufa.sc .f11, lufa.sc .space, 0,
    lufa.sc .upArrow,
    lufa.sc .rightControl, lufa.sc .z, lufa.sc .x, lufa.sc .c, lufa.sc .v, lufa.sc .m,
    lufa.sc .commaAndLessThanSign, lufa.sc .dotAndGreaterThanSign, 0, 0, lufa.sc .enter, 0, 0, 0,
    0, 0, 0, 0, lufa.sc .b, lufa.sc .n, 0, compose, lufa.sc .slashAndQuestionMark,
    lufa.sc .rightAlt, lufa.sc .f12, lufa.sc .downArrow, lufa.sc .rightArrow, lufa.sc .leftArrow,
    0, lufa.sc .q, lufa.sc .w, lufa.sc .e, lufa.sc .r, lufa.sc .u, lufa.sc .i, lufa.sc .o,
    lufa.sc .p, 0, 0, 0, 0, 0,
    lufa.sc .f5, lufa.sc .digit1AndExclamation, lufa.sc .digit2AndAt, lufa.sc .digit3AndHashmark,
    lufa.sc .digit4AndDollar, lufa.sc .digit7AndAmpersand, lufa.sc .digit8AndAsterisk,
    lufa.sc .digit9AndOpeningParenthesis, lufa.sc .digit0AndClosingParenthesis,
    lufa.sc .printScreen, lufa.sc .f10, 0, 0, 0,
    lufa.sc .leftControl, lufa.sc .graveAccentAndTilde, sleep, wlan, lufa.sc .digit5AndPercentage,
    lufa.sc .digit6AndCaret, lufa.sc .equalAndPlus, brigthnessUp, lufa.sc .minusAndUnderscore, 0,
    displaySwitch, lufa.sc .delete, 0, 0,
    0, lufa.sc .tab, lufa.sc .capsLock, lockTouchpad, lufa.sc .t, lufa.sc .y,
    lufa.sc .closingBracketAndClosingBrace, brigthnessDown, lufa.sc .openingBracketAndOpeningBrace,
    0, lufa.sc .backspace, 0, 0, lufa.sc .leftShift,
    0, lufa.sc .a, lufa.sc .s, lufa.sc .d, lufa.sc .f, lufa.sc .keypad1AndEnd,
    lufa.sc .keypad2AndDownArrow, lufa.sc .keypad3AndPageDown, lufa.sc .keypadMinus, 0,
    lufa.sc .backslashAndPipe, 0, 0, lufa.sc .rightShift,
    0, lufa.sc .escape, 0, lufa.sc .volumeDown, lufa.sc .g, lufa.sc .h, lufa.sc .mute, 0,
    lufa.sc .apostropheAndQuote, lufa.sc .leftAlt, lufa.sc .insert, lufa.sc .space, 0,
    lufa.sc .pageUp,
    lufa.sc .rightControl, lufa.sc .z, lufa.sc .x, lufa.sc .c, lufa.sc .v,
    lufa.sc .keypad0AndInsert, lufa.sc .commaAndLessThanSign, lufa.sc .dotAndGreaterThanSign, 0, 0,
    lufa.sc .enter, 0, 0, 0,
    0, 0, 0, 0, lufa.sc .b, lufa.sc .n, 0, compose, lufa.sc .keypadPlus, lufa.sc .rightAlt,
    lufa.sc .f12, lufa.sc .pageDown, lufa.sc .endKey, lufa.sc .home,
    0, lufa.sc .q, lufa.sc .w, lufa.sc .e, lufa.sc .r, lufa.sc .keypad4AndLeftArrow,
    lufa.sc .keypad5, lufa.sc .keypad6AndRightArrow, lufa.sc .keypadAsterisk, 0, 0, 0, 0, 0,
    lufa.sc .volumeUp, lufa.sc .digit1AndExclamation, lufa.sc .digit2AndAt,
    lufa.sc .digit3AndHashmark, lufa.sc .digit4AndDollar, lufa.sc .digit7AndAmpersand,
    lufa.sc .digit8AndAsterisk, lufa.sc .digit9AndOpeningParenthesis, lufa.sc .keypadSlash,
    lufa.sc .numLock, lufa.sc .pause, 0, 0, 0 ]

/-- `keym`: the modifiers of the columns. -/
def keym (lufa : Lufa) : List (BitVec 8) :=
  [ lufa.modifier .leftctrl, 0, 0, 0, 0, 0, 0, 0, 0, 0, 0, 0, 0, 0,
    0, 0, 0, 0, 0, 0, 0, 0, 0, 0, 0, 0, lufa.modifier .leftgui, lufa.modifier .leftshift,
    0, 0, 0, 0, 0, 0, 0, 0, 0, 0, 0, 0, 0, lufa.modifier .rightshift,
    0, 0, 0, 0, 0, 0, 0, 0, 0, lufa.modifier .leftalt, 0, 0, 0, 0,
    lufa.modifier .rightctrl, 0, 0, 0, 0, 0, 0, 0, 0, 0, 0, 0, 0, 0,
    0, 0, 0, 0, 0, 0, 0, 0, 0, lufa.modifier .rightalt, 0, 0, 0, 0,
    0, 0, 0, 0, 0, 0, 0, 0, 0, 0, 0, 0, 0, 0,
    0, 0, 0, 0, 0, 0, 0, 0, 0, 0, 0, 0, 0, 0 ]

/-- `TP_LOCK`. -/
def tpLock : ℕ := 20

/-- `PRETAP`. -/
def pretap : ℕ := 3

/-- `CLICK_MS`. -/
def clickMs : ℕ := 8

/-- `TOUCH_TO`. -/
def touchToStart : ℕ := 8

/-- `DRAG_HYST`. -/
def dragHyst : BitVec 16 := 5#16

/-- `WHEEL`. -/
def wheel : BitVec 8 := 1#8

/-- `MOUSE_LEFT`. -/
def mouseLeft : BitVec 8 := 1#8

/-- `MOUSE_RIGTH`. -/
def mouseRigth : BitVec 8 := 2#8

/-- `MOUSE_MIDDLE`. -/
def mouseMiddle : BitVec 8 := 4#8

/-! ## The keys -/

/-- What is read at the pins during a scan: the bits of `PINB` while `PD4` is driven and while `PD6`
is, and the switch at `x` of `colmn`. -/
structure Pins where
  pd4 : ℕ → Bool
  pd6 : ℕ → Bool
  down : ℕ → ℕ → Bool

/-- The report of the keys so far, with `keyc` and `TouchPadLocked`. -/
structure Scan where
  modifier : BitVec 8
  keyCode : List (BitVec 8)
  keyc : ℕ
  touchPadLocked : Bool

/-- A code at `keyc`, which stays at the last place. -/
def Scan.press (code : BitVec 8) (s : Scan) : Scan :=
  { s with keyCode := s.keyCode.set s.keyc code, keyc := if s.keyc < 5 then s.keyc + 1 else s.keyc }

/-- A modifier. -/
def Scan.hold (mask : BitVec 8) (s : Scan) : Scan := { s with modifier := s.modifier ||| mask }

/-- The lock of the touchpad. -/
def Scan.toggle (s : Scan) : Scan := { s with touchPadLocked := !s.touchPadLocked }

section Keyboard

variable (lufa : Lufa) (pins : Pins)

/-- The keys behind `PD4`, with the codes of the two arrows among them. -/
def scan4 (up left : Sc) (s : Scan) : Scan :=
  let s := if pins.pd4 0 then s.press (lufa.sc up) else s
  let s := if pins.pd4 1 then (s.hold (lufa.modifier .leftshift)).press (lufa.sc .leftShift) else s
  let s := if pins.pd4 5 then s.press (lufa.sc left) else s
  if pins.pd4 7 then (s.hold (lufa.modifier .rightshift)).press (lufa.sc .rightShift) else s

/-- The keys behind `PD6`, with the code of the last of them. -/
def scan6 (function : Sc) (s : Scan) : Scan :=
  let s := if pins.pd6 4 then
    (s.hold (lufa.modifier .rightctrl)).press (lufa.sc .rightControl) else s
  let s := if pins.pd6 6 then
    (s.hold (lufa.modifier .leftctrl)).press (lufa.sc .leftControl) else s
  if pins.pd6 3 then s.press (lufa.sc function) else s

/-- One switch of a column. Where it locks the touchpad, the scan waits for it to be released. -/
def scanSwitch (fn colmn : ℕ) (s : Scan) (x : ℕ) : Scan :=
  if pins.down colmn x then
    let keynow := (keys lufa).getD (colmn * 14 + x + fn) 0
    let s := s.hold ((keym lufa).getD (colmn * 14 + x) 0)
    let s := if x = 3 ∧ keynow = lockTouchpad then s.toggle else s
    if keynow ≠ 0 then s.press keynow else s
  else s

/-- The switches of a column. -/
def scanColumn (fn : ℕ) (s : Scan) (colmn : ℕ) : Scan :=
  (List.range' 1 12).foldl (scanSwitch lufa pins fn colmn) s

/-- What a scan starts with. -/
def Scan.start (touchPadLocked : Bool) : Scan := ⟨0, List.replicate 6 0, 0, touchPadLocked⟩

/-- The part of `CALLBACK_HID_Device_CreateHIDReport` for the keyboard. -/
def createKeyboardReport (touchPadLocked : Bool) : Scan :=
  let s := Scan.start touchPadLocked
  if pins.pd4 6 then
    (List.range 8).foldl (scanColumn lufa pins 112)
      (scan6 lufa pins .volumeUp (scan4 lufa pins .pageUp .home s))
  else
    (List.range 8).foldl (scanColumn lufa pins 0)
      (scan6 lufa pins .f5 (scan4 lufa pins .upArrow .leftArrow s))

end Keyboard

/-! ## The touchpad -/

/-- A packet has seven bytes, and they are read by number. -/
scoped instance packetBytes : NeZero 7 := ⟨by decide⟩

/-- The variables that the reports and the interrupts share. -/
structure State where
  actionSend : Bool
  tpdata : Fin 7 → BitVec 8
  lastposX : BitVec 16
  lastposY : BitVec 16
  startposX : BitVec 16
  startposY : BitVec 16
  lastfingers : BitVec 8
  touchPadLocked : Bool
  tpGuard : Bool
  tpguard : ℕ
  touchTo : ℕ
  presstime : ℕ
  speedlimit : ℕ
  timeZero : ℕ
  timeOne : ℕ
  timeTwo : ℕ
  timePressed : ℕ
  mrB : BitVec 8
  mrBReq : BitVec 8
  mouse : BitVec 8
  button : BitVec 8
  oldbutton : BitVec 8

/-- Their values when the program starts, `button` as `SetupHardware` leaves it. -/
def State.start : State where
  actionSend := false
  tpdata := fun _ => 0
  lastposX := 0xffff#16
  lastposY := 0xffff#16
  startposX := 0xffff#16
  startposY := 0xffff#16
  lastfingers := 0
  touchPadLocked := false
  tpGuard := false
  tpguard := 0
  touchTo := 0
  presstime := 0
  speedlimit := 0
  timeZero := 0
  timeOne := 0
  timeTwo := 0
  timePressed := 0
  mrB := 0
  mrBReq := 0
  mouse := 0
  button := 0xff
  oldbutton := 0

/-- `limited`. -/
def limited (speedlimit : ℕ) (value : BitVec 16) : BitVec 16 :=
  if value.toInt < 0 then
    if value.abs.toInt > speedlimit then -BitVec.ofNat 16 speedlimit else value
  else if value.toInt > speedlimit then BitVec.ofNat 16 speedlimit else value

/-- `tp_guarder`. -/
def State.tpGuarder (s : State) : State := { s with tpGuard := true, tpguard := tpLock }

/-- The report of the keys: what becomes of the lock and of the guard. -/
def State.keyboard (lufa : Lufa) (pins : Pins) (s : State) : State :=
  let report := createKeyboardReport lufa pins s.touchPadLocked
  let s := { s with touchPadLocked := report.touchPadLocked }
  if report.modifier = 0 ∧ report.keyc ≠ 0 then s.tpGuarder else s

/-- `posx1`. -/
def State.posx1 (s : State) : BitVec 16 := s.tpdata 3 ++ s.tpdata 4

/-- `posy1`. -/
def State.posy1 (s : State) : BitVec 16 := s.tpdata 5 ++ s.tpdata 6

/-- `MR_X`, `MR_Y` and `MR_W`. -/
structure Move where
  mrX : BitVec 16
  mrY : BitVec 16
  mrW : BitVec 8

/-- A packet without a finger is the end of a tap. -/
def State.Tapped (s : State) : Prop :=
  s.lastfingers ≠ 0 ∧ pretap < s.timeZero ∧ s.timePressed < clickMs ∧
    (s.startposX + s.startposY - s.posx1 - s.posy1).abs.toInt < 10

instance (s : State) : Decidable s.Tapped := inferInstanceAs (Decidable (_ ∧ _))

/-- A packet without a finger. -/
def State.noFinger (s : State) : State :=
  { s with
    mrBReq := if s.Tapped then (if s.timeTwo ≠ 0 then mouseRigth else mouseLeft) else s.mrBReq
    timeZero := if s.lastfingers ≠ 0 then 0 else s.timeZero
    speedlimit := 0
    lastposX := 0
    lastposY := 0 }

/-- A packet of one finger. -/
def State.oneFinger (s : State) : State × Move :=
  let move : Move := if s.lastfingers = 1 ∧ s.lastposX ≠ 0 then
    ⟨limited s.speedlimit (s.posx1 - s.lastposX), limited s.speedlimit (s.posy1 - s.lastposY), 0⟩
    else ⟨0, 0, 0⟩
  let speedlimit := if s.lastfingers = 0 ∨ s.lastfingers = 2 then 0 else s.speedlimit
  ({ s with
    touchTo := touchToStart
    presstime := if s.lastfingers = 0 then clickMs else s.presstime
    timeOne := if s.lastfingers ≠ 1 then 0 else s.timeOne
    startposX := if s.lastfingers ≠ 1 then s.posx1 else s.startposX
    startposY := if s.lastfingers ≠ 1 then s.posy1 else s.startposY
    lastposX := s.posx1
    lastposY := s.posy1
    speedlimit := if speedlimit ≠ 0x80 then (speedlimit + 4) % 256 else speedlimit }, move)

/-- A packet of two fingers. -/
def State.twoFingers (s : State) : State × Move :=
  let mrW : BitVec 8 := if s.lastfingers = 2 then
    (if s.posy1 + dragHyst < s.lastposY then wheel
      else if s.lastposY + dragHyst < s.posy1 then -wheel else 0) else 0
  ({ s with
    touchTo := if s.lastfingers = 0 then touchToStart else s.touchTo
    timeZero := if mrW ≠ 0 then 0 else s.timeZero
    presstime := if s.lastfingers = 2 then 0 else s.presstime
    timeTwo := if s.lastfingers = 2 then s.timeTwo else 0
    startposX := if s.lastfingers = 2 then s.startposX else s.posx1
    startposY := if s.lastfingers = 2 then s.startposY else s.posy1
    lastposX := s.posx1
    lastposY := s.posy1 }, ⟨0, 0, mrW⟩)

/-- What a packet does, by the number of fingers. -/
def State.fingers (s : State) : State × Move :=
  if s.tpdata 2 = 0 then (s.noFinger, ⟨0, 0, 0⟩)
  else if s.tpdata 2 = 1 then s.oneFinger
  else if s.tpdata 2 = 2 then s.twoFingers
  else ({ s with lastposX := 0, lastposY := 0 }, ⟨0, 0, 0⟩)

/-- A report of the pointer (`USB_WheelMouseReport_Data_t`). -/
structure MouseReport where
  button : BitVec 8
  x : BitVec 8
  y : BitVec 8
  wheel : BitVec 8

/-- The part of `CALLBACK_HID_Device_CreateHIDReport` for the mouse: the packet, if there is one to
be used, and then the report. -/
def State.createMouseReport (s : State) : State × MouseReport :=
  let done : State × Move := if s.actionSend then
    ({ s.fingers.1 with lastfingers := s.tpdata 2, actionSend := false }, s.fingers.2)
    else (s, ⟨0, 0, 0⟩)
  ({ done.1 with mrB := 0 },
    ⟨s.mrB ||| s.mouse, done.2.mrX.setWidth 8, done.2.mrY.setWidth 8, done.2.mrW⟩)

/-! ## Interrupts -/

/-- What the bus delivers, if the touchpad answers. -/
def State.receive (packet : Option (Fin 7 → BitVec 8)) (s : State) : State :=
  { s with tpdata := packet.getD s.tpdata }

/-- `INT2_vect`. -/
def State.int2 (packet : Option (Fin 7 → BitVec 8)) (s : State) : State :=
  let s := s.receive packet
  { s with actionSend := if !s.touchPadLocked && !s.tpGuard then true else s.actionSend }

/-- The part of `TIMER0_OVF_vect` that counts the times of the fingers, and makes a click of a
tap. -/
def State.countTimes (s : State) : State :=
  let timeZero := if s.timeZero ≠ 0xff ∧ s.tpdata 2 = 0 then s.timeZero + 1 else s.timeZero
  let started : Prop := timeZero = touchToStart
  let timeOne := if started then 0 else s.timeOne
  let timeTwo := if started then 0 else s.timeTwo
  { s with
    timeZero := timeZero
    mrB := if started then s.mrBReq else s.mrB
    mrBReq := if started then 0 else s.mrBReq
    timeOne := if timeOne ≠ 0xff ∧ s.tpdata 2 = 1 then timeOne + 1 else timeOne
    timeTwo := if timeTwo ≠ 0xff ∧ s.tpdata 2 = 2 then timeTwo + 1 else timeTwo
    timePressed := if started then 0 else s.timePressed }

/-- The part that counts down to the end of the guard. -/
def State.countGuard (s : State) : State :=
  let tpguard := if s.tpguard ≠ 0 then s.tpguard - 1 else s.tpguard
  { s with tpguard := tpguard, tpGuard := if tpguard = 1 then false else s.tpGuard }

/-- The part that counts down to the end of a touch. -/
def State.countTouch (s : State) : State :=
  let presstime := if s.presstime ≠ 0 then s.presstime - 1 else s.presstime
  let touchTo := if s.touchTo ≠ 0 then s.touchTo - 1 else s.touchTo
  let ended : Prop := touchTo = 1
  { s with
    presstime := presstime
    touchTo := touchTo
    lastposX := if ended then 0 else s.lastposX
    lastposY := if ended then 0 else s.lastposY
    actionSend := if ended ∧ presstime ≠ 0 then true else s.actionSend
    lastfingers := if ended ∧ presstime = 0 then 0 else s.lastfingers }

/-- `TIMER0_OVF_vect`. -/
def State.overflow (packet : Option (Fin 7 → BitVec 8)) (s : State) : State :=
  let s := s.receive packet
  let s := { s with actionSend :=
    if !s.touchPadLocked && !s.tpGuard && s.tpdata 0 ≠ 0 then true else s.actionSend }
  s.countTimes.countGuard.countTouch

/-- `ADC_vect`, for the value that was measured. -/
def State.adc (adch : BitVec 8) (s : State) : State :=
  if adch = s.oldbutton then
    { s with
      button := adch
      mouse := if adch < 0xe8 then
        (if adch > 0xa0 then mouseRigth else if adch > 0x80 then mouseLeft else mouseMiddle)
        else 0 }
  else { s with button := adch, oldbutton := adch }

/-! ## Runs -/

/-- What happens. -/
inductive Event where
  | keyboard (pins : Pins)
  | mouse
  | int2 (packet : Option (Fin 7 → BitVec 8))
  | overflow (packet : Option (Fin 7 → BitVec 8))
  | adc (adch : BitVec 8)

/-- What it does. -/
def State.next (lufa : Lufa) (s : State) : Event → State
  | .keyboard pins => s.keyboard lufa pins
  | .mouse => s.createMouseReport.1
  | .int2 packet => s.int2 packet
  | .overflow packet => s.overflow packet
  | .adc adch => s.adc adch

/-- What has happened from the start on, each event with the state it found, and the state after
it. -/
inductive Run (lufa : Lufa) : List (State × Event) → State → Prop where
  | nil : Run lufa [] .start
  | concat {past : List (State × Event)} {s : State} (run : Run lufa past s) (event : Event) :
    Run lufa (past ++ [(s, event)]) (s.next lufa event)

end Teres.Kbd.KeyboardMouse
