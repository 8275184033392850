import Mathlib.Tactic.IntervalCases
import Teres.Base.Slots
import Teres.Kbd.KeyboardMouse

/-!
# The report of the keys

A scan passes the switches one after the other. The closed ones with a code are the keys of the
report, in this order: the first five, and at the last place the last of the others. The modifiers
are those of the closed switches, and the touchpad is locked or unlocked by one key alone
(`createKeyboardReport_eq`).
-/

namespace Teres.Kbd.KeyboardMouse

open Slots

section Keys

variable (lufa : Lufa) (pins : Pins)

/-! ## The closed switches -/

/-- The codes of a list of switches, of those that are closed. -/
def closed (switches : List (Bool × BitVec 8)) : List (BitVec 8) :=
  (switches.filter (·.1)).map (·.2)

/-- The switches behind `PD4`, and behind `PD6`. -/
def switches4 : List (Bool × BitVec 8) :=
  [(pins.pd4 0, lufa.sc (if pins.pd4 6 then .pageUp else .upArrow)),
    (pins.pd4 1, lufa.sc .leftShift),
    (pins.pd4 5, lufa.sc (if pins.pd4 6 then .home else .leftArrow)),
    (pins.pd4 7, lufa.sc .rightShift)]

@[inherit_doc switches4]
def switches6 : List (Bool × BitVec 8) :=
  [(pins.pd6 4, lufa.sc .rightControl), (pins.pd6 6, lufa.sc .leftControl),
    (pins.pd6 3, lufa.sc (if pins.pd4 6 then .volumeUp else .f5))]

/-- The code of a switch in a column, with the function key or without. -/
def code (colmn x : ℕ) : BitVec 8 :=
  (keys lufa).getD (colmn * 14 + x + if pins.pd4 6 then 112 else 0) 0

/-- The switches of a column that have a code. -/
def column (colmn : ℕ) : List (Bool × BitVec 8) :=
  (List.range' 1 12).map fun x =>
    (pins.down colmn x && code lufa pins colmn x != 0, code lufa pins colmn x)

/-- The codes of the keys that are down, in the order of the scan. -/
def codes : List (BitVec 8) :=
  closed (switches4 lufa pins) ++ closed (switches6 lufa pins) ++
    (List.range 8).flatMap fun colmn => closed (column lufa pins colmn)

/-- The modifiers that are down. -/
def modifiers : BitVec 8 :=
  (if pins.pd4 1 then lufa.modifier .leftshift else 0) |||
  (if pins.pd4 7 then lufa.modifier .rightshift else 0) |||
  (if pins.pd6 4 then lufa.modifier .rightctrl else 0) |||
  (if pins.pd6 6 then lufa.modifier .leftctrl else 0) |||
  (if pins.down 1 12 then lufa.modifier .leftgui else 0) |||
  (if pins.down 3 9 then lufa.modifier .leftalt else 0) |||
  (if pins.down 5 9 then lufa.modifier .rightalt else 0)

/-! ## A scan -/

/-- The scan that has met some modifiers and codes. -/
def Scan.met (modifier : BitVec 8) (codes : List (BitVec 8)) (locked : Bool) : Scan :=
  ⟨modifier, slots 5 0 codes, min codes.length 5, locked⟩

theorem Scan.start_eq (locked : Bool) : Scan.start locked = Scan.met 0 [] locked := by
  rw [Scan.start, Scan.met, slots_nil]
  rfl

@[simp] theorem Scan.hold_met (m mask : BitVec 8) (l : List (BitVec 8)) (b : Bool) :
    (Scan.met m l b).hold mask = Scan.met (m ||| mask) l b := rfl

@[simp] theorem Scan.toggle_met (m : BitVec 8) (l : List (BitVec 8)) (b : Bool) :
    (Scan.met m l b).toggle = Scan.met m l (!b) := rfl

@[simp] theorem Scan.press_met (m code : BitVec 8) (l : List (BitVec 8)) (b : Bool) :
    (Scan.met m l b).press code = Scan.met m (l ++ [code]) b := by
  have place : (if min l.length 5 < 5 then min l.length 5 + 1 else min l.length 5) =
      min (l.length + 1) 5 := by
    split <;> omega
  change Scan.mk m ((slots 5 0 l).set (min l.length 5) code)
    (if min l.length 5 < 5 then min l.length 5 + 1 else min l.length 5) b = _
  rw [set_slots, place, Scan.met, List.length_append, List.length_singleton]

/-- **A loop over switches**, from what one of them does. -/
theorem foldl_met {β : Type} {step : Scan → β → Scan} {mask : BitVec 8 → β → BitVec 8}
    {new : β → List (BitVec 8)} {lock : Bool → β → Bool}
    (one : ∀ m l b x, step (Scan.met m l b) x = Scan.met (mask m x) (l ++ new x) (lock b x))
    (xs : List β) (m : BitVec 8) (l : List (BitVec 8)) (b : Bool) :
    xs.foldl step (Scan.met m l b) =
      Scan.met (xs.foldl mask m) (l ++ xs.flatMap new) (xs.foldl lock b) := by
  induction xs generalizing m l b with
  | nil => simp only [List.foldl_nil, List.flatMap_nil, List.append_nil]
  | cons x xs ih =>
    simp only [List.foldl_cons, List.flatMap_cons]
    rw [one, ih, List.append_assoc]

theorem closed_append (left right : List (Bool × BitVec 8)) :
    closed (left ++ right) = closed left ++ closed right := by
  rw [closed, List.filter_append, List.map_append]
  rfl

theorem closed_single (b : Bool) (c : BitVec 8) : closed [(b, c)] = if b then [c] else [] := by
  cases b <;> rfl

theorem scan4_met (m : BitVec 8) (l : List (BitVec 8)) (b : Bool) :
    scan4 lufa pins (if pins.pd4 6 then .pageUp else .upArrow)
      (if pins.pd4 6 then .home else .leftArrow) (Scan.met m l b) =
    Scan.met (m ||| (if pins.pd4 1 then lufa.modifier .leftshift else 0) |||
      (if pins.pd4 7 then lufa.modifier .rightshift else 0))
      (l ++ closed (switches4 lufa pins)) b := by
  unfold scan4 switches4
  cases pins.pd4 0 <;> cases pins.pd4 1 <;> cases pins.pd4 5 <;> cases pins.pd4 7 <;>
    simp [closed]

theorem scan6_met (m : BitVec 8) (l : List (BitVec 8)) (b : Bool) :
    scan6 lufa pins (if pins.pd4 6 then .volumeUp else .f5) (Scan.met m l b) =
    Scan.met (m ||| (if pins.pd6 4 then lufa.modifier .rightctrl else 0) |||
      (if pins.pd6 6 then lufa.modifier .leftctrl else 0))
      (l ++ closed (switches6 lufa pins)) b := by
  unfold scan6 switches6
  cases pins.pd6 4 <;> cases pins.pd6 6 <;> cases pins.pd6 3 <;> simp [closed]

/-- The modifiers behind a switch. -/
def mask (colmn : ℕ) (m : BitVec 8) (x : ℕ) : BitVec 8 :=
  m ||| if pins.down colmn x then (keym lufa).getD (colmn * 14 + x) 0 else 0

/-- The lock behind a switch. -/
def lock (colmn : ℕ) (b : Bool) (x : ℕ) : Bool :=
  b ^^ (pins.down colmn x && decide (x = 3 ∧ code lufa pins colmn x = lockTouchpad))

theorem scanSwitch_met (colmn : ℕ) (m : BitVec 8) (l : List (BitVec 8)) (b : Bool) (x : ℕ) :
    scanSwitch lufa pins (if pins.pd4 6 then 112 else 0) colmn (Scan.met m l b) x =
    Scan.met (mask lufa pins colmn m x) (l ++ closed
      [(pins.down colmn x && code lufa pins colmn x != 0, code lufa pins colmn x)])
      (lock lufa pins colmn b x) := by
  unfold scanSwitch mask lock
  rw [← code]
  rw [closed_single]
  cases pins.down colmn x with
  | false => simp
  | true =>
    dsimp only
    rw [if_pos rfl, if_pos rfl, Scan.hold_met, Bool.true_and, Bool.true_and]
    by_cases locks : x = 3 ∧ code lufa pins colmn x = lockTouchpad
    · have some : code lufa pins colmn x ≠ 0 := by
        rw [locks.2]
        decide
      rw [if_pos locks, decide_eq_true locks, if_pos some, if_pos (bne_iff_ne.2 some),
        Scan.toggle_met, Scan.press_met, Bool.xor_true]
    · rw [if_neg locks, decide_eq_false locks, Bool.xor_false]
      by_cases some : code lufa pins colmn x ≠ 0
      · rw [if_pos some, if_pos (bne_iff_ne.2 some), Scan.press_met]
      · rw [if_neg some, if_neg (mt bne_iff_ne.1 some), List.append_nil]

theorem scanColumn_met (m : BitVec 8) (l : List (BitVec 8)) (b : Bool) (colmn : ℕ) :
    scanColumn lufa pins (if pins.pd4 6 then 112 else 0) (Scan.met m l b) colmn =
    Scan.met ((List.range' 1 12).foldl (mask lufa pins colmn) m)
      (l ++ closed (column lufa pins colmn))
      ((List.range' 1 12).foldl (lock lufa pins colmn) b) := by
  rw [scanColumn, foldl_met (scanSwitch_met lufa pins colmn)]
  have concat (xs : List ℕ) : (xs.flatMap fun x => closed
      [(pins.down colmn x && code lufa pins colmn x != 0, code lufa pins colmn x)]) =
      closed (xs.map fun x =>
        (pins.down colmn x && code lufa pins colmn x != 0, code lufa pins colmn x)) := by
    induction xs with
    | nil => rfl
    | cons x xs ih => rw [List.flatMap_cons, ih, List.map_cons, ← closed_append]; rfl
  rw [concat]
  rfl

/-- The modifiers of the table. -/
theorem keym_getD (k : ℕ) : (keym lufa).getD k 0#8 =
    if k = 0 then lufa.modifier .leftctrl else if k = 26 then lufa.modifier .leftgui
    else if k = 27 then lufa.modifier .leftshift else if k = 41 then lufa.modifier .rightshift
    else if k = 51 then lufa.modifier .leftalt else if k = 56 then lufa.modifier .rightctrl
    else if k = 79 then lufa.modifier .rightalt else 0 := by
  rcases Nat.lt_or_ge k 112 with inside | outside
  · interval_cases k <;> rfl
  · rw [List.getD_eq_default _ _ outside]
    repeat rw [if_neg (by omega)]
    rfl

/-- The modifiers of the columns. -/
theorem masks (m : BitVec 8) :
    (List.range 8).foldl (fun m colmn => (List.range' 1 12).foldl (mask lufa pins colmn) m) m =
    m ||| (if pins.down 1 12 then lufa.modifier .leftgui else 0) |||
      (if pins.down 3 9 then lufa.modifier .leftalt else 0) |||
      (if pins.down 5 9 then lufa.modifier .rightalt else 0) := by
  simp [List.range_succ, List.range', mask, keym_getD, -List.getD_eq_getElem?_getD]

/-- The key that locks the touchpad is the one at 3 of column 1, with the function key. -/
theorem code_lockTouchpad (foreign : ∀ sc, lufa.sc sc ≠ lockTouchpad) {colmn : ℕ}
    (inside : colmn < 8) :
    code lufa pins colmn 3 = lockTouchpad ↔ colmn = 1 ∧ pins.pd4 6 := by
  unfold code
  have unlabelled : (0 : BitVec 8) ≠ lockTouchpad := by decide
  have radio : wlan ≠ lockTouchpad := by decide
  cases pins.pd4 6 <;> interval_cases colmn
  all_goals first
    | exact iff_of_true rfl (by decide)
    | exact iff_of_false (foreign _) (by decide)
    | exact iff_of_false unlabelled (by decide)
    | exact iff_of_false radio (by decide)

theorem column_lock (colmn : ℕ) (b : Bool) :
    (List.range' 1 12).foldl (lock lufa pins colmn) b =
      (b ^^ (pins.down colmn 3 && decide (code lufa pins colmn 3 = lockTouchpad))) := by
  simp [List.range', lock]

/-- The lock of the columns. -/
theorem locks (foreign : ∀ sc, lufa.sc sc ≠ lockTouchpad) (b : Bool) :
    (List.range 8).foldl (fun b colmn => (List.range' 1 12).foldl (lock lufa pins colmn) b) b =
    (b ^^ (pins.pd4 6 && pins.down 1 3)) := by
  have each : ∀ colmn < 8, decide (code lufa pins colmn 3 = lockTouchpad) =
      decide (colmn = 1 ∧ pins.pd4 6) := fun colmn inside =>
    decide_eq_decide.2 (code_lockTouchpad lufa pins foreign inside)
  simp only [column_lock]
  simp [List.range_succ, each, Bool.and_comm]

theorem report_met (foreign : ∀ sc, lufa.sc sc ≠ lockTouchpad) (locked : Bool) :
    createKeyboardReport lufa pins locked =
      Scan.met (modifiers lufa pins) (codes lufa pins)
        (locked ^^ (pins.pd4 6 && pins.down 1 3)) := by
  have whole : createKeyboardReport lufa pins locked =
      (List.range 8).foldl (scanColumn lufa pins (if pins.pd4 6 then 112 else 0))
        (scan6 lufa pins (if pins.pd4 6 then .volumeUp else .f5)
          (scan4 lufa pins (if pins.pd4 6 then .pageUp else .upArrow)
            (if pins.pd4 6 then .home else .leftArrow) (Scan.start locked))) := by
    unfold createKeyboardReport
    cases pins.pd4 6 <;> rfl
  have empty (m : BitVec 8) : 0 ||| m = m := BitVec.zero_or
  rw [whole, Scan.start_eq, scan4_met, scan6_met, foldl_met (scanColumn_met lufa pins), masks,
    locks lufa pins foreign, empty, List.nil_append]
  rfl

/-- **The report of the keys.** Its codes are those of the closed switches in the order of the scan,
the first five and at the last place the last of the others, so that up to six are all there; its
modifiers are those of the closed switches; and the lock of the touchpad changes just when the lock
key is down. -/
theorem createKeyboardReport_eq (foreign : ∀ sc, lufa.sc sc ≠ lockTouchpad) (locked : Bool) :
    createKeyboardReport lufa pins locked =
      ⟨modifiers lufa pins, slots 5 0 (codes lufa pins), min (codes lufa pins).length 5,
        locked ^^ (pins.pd4 6 && pins.down 1 3)⟩ ∧
    ((codes lufa pins).length ≤ 6 → (createKeyboardReport lufa pins locked).keyCode =
      codes lufa pins ++ List.replicate (6 - (codes lufa pins).length) 0) := by
  have whole := report_met lufa pins foreign locked
  refine ⟨whole, fun few => ?_⟩
  rw [whole]
  exact slots_of_le 0 few

end Keys

/-- The codes and the masks of the usage tables of the bus. -/
def usages : Lufa where
  sc
    | .leftControl => 0xe0#8 | .graveAccentAndTilde => 0x35#8 | .f1 => 0x3a#8 | .f2 => 0x3b#8
    | .digit5AndPercentage => 0x22#8 | .digit6AndCaret => 0x23#8 | .equalAndPlus => 0x2e#8
    | .f8 => 0x41#8 | .minusAndUnderscore => 0x2d#8 | .f9 => 0x42#8 | .delete => 0x4c#8
    | .tab => 0x2b#8 | .capsLock => 0x39#8 | .f3 => 0x3c#8 | .t => 0x17#8 | .y => 0x1c#8
    | .closingBracketAndClosingBrace => 0x30#8 | .f7 => 0x40#8
    | .openingBracketAndOpeningBrace => 0x2f#8 | .backspace => 0x2a#8 | .leftShift => 0xe1#8
    | .a => 0x04#8 | .s => 0x16#8 | .d => 0x07#8 | .f => 0x09#8 | .j => 0x0d#8 | .k => 0x0e#8
    | .l => 0x0f#8 | .semicolonAndColon => 0x33#8 | .backslashAndPipe => 0x31#8
    | .rightShift => 0xe5#8 | .escape => 0x29#8 | .f4 => 0x3d#8 | .g => 0x0a#8 | .h => 0x0b#8
    | .f6 => 0x3f#8 | .apostropheAndQuote => 0x34#8 | .leftAlt => 0xe2#8 | .f11 => 0x44#8
    | .space => 0x2c#8 | .upArrow => 0x52#8 | .rightControl => 0xe4#8 | .z => 0x1d#8 | .x => 0x1b#8
    | .c => 0x06#8 | .v => 0x19#8 | .m => 0x10#8 | .commaAndLessThanSign => 0x36#8
    | .dotAndGreaterThanSign => 0x37#8 | .enter => 0x28#8 | .b => 0x05#8 | .n => 0x11#8
    | .slashAndQuestionMark => 0x38#8 | .rightAlt => 0xe6#8 | .f12 => 0x45#8 | .downArrow => 0x51#8
    | .rightArrow => 0x4f#8 | .leftArrow => 0x50#8 | .q => 0x14#8 | .w => 0x1a#8 | .e => 0x08#8
    | .r => 0x15#8 | .u => 0x18#8 | .i => 0x0c#8 | .o => 0x12#8 | .p => 0x13#8 | .f5 => 0x3e#8
    | .digit1AndExclamation => 0x1e#8 | .digit2AndAt => 0x1f#8 | .digit3AndHashmark => 0x20#8
    | .digit4AndDollar => 0x21#8 | .digit7AndAmpersand => 0x24#8 | .digit8AndAsterisk => 0x25#8
    | .digit9AndOpeningParenthesis => 0x26#8 | .digit0AndClosingParenthesis => 0x27#8
    | .printScreen => 0x46#8 | .f10 => 0x43#8 | .keypad1AndEnd => 0x59#8
    | .keypad2AndDownArrow => 0x5a#8 | .keypad3AndPageDown => 0x5b#8 | .keypadMinus => 0x56#8
    | .volumeDown => 0x81#8 | .mute => 0x7f#8 | .insert => 0x49#8 | .pageUp => 0x4b#8
    | .keypad0AndInsert => 0x62#8 | .keypadPlus => 0x57#8 | .pageDown => 0x4e#8 | .endKey => 0x4d#8
    | .home => 0x4a#8 | .keypad4AndLeftArrow => 0x5c#8 | .keypad5 => 0x5d#8
    | .keypad6AndRightArrow => 0x5e#8 | .keypadAsterisk => 0x55#8 | .volumeUp => 0x80#8
    | .keypadSlash => 0x54#8 | .numLock => 0x53#8 | .pause => 0x48#8
  modifier
    | .leftctrl => 0x01#8 | .leftgui => 0x08#8 | .leftshift => 0x02#8 | .rightshift => 0x20#8
    | .leftalt => 0x04#8 | .rightctrl => 0x10#8 | .rightalt => 0x40#8

/-- The function key, a shift key and the lock key. -/
def lockPins : Pins := ⟨fun i => i == 1 || i == 6, fun _ => false, fun c x => c == 1 && x == 3⟩

theorem createKeyboardReport_eq_lock :
    createKeyboardReport usages lockPins false = ⟨0x02#8, [0xe1, 199, 0, 0, 0, 0], 2, true⟩ :=
  (createKeyboardReport_eq usages lockPins (by intro sc; cases sc <;> decide) false).1.trans
    (by rfl)

end Teres.Kbd.KeyboardMouse
