import Teres.Tools.Cod5asm

/-!
# The firmware converter (`tools/dump2v.c`)

`main` reads a listing line by line into a buffer of 1024 characters and writes five streams: the
case table that the memory modules include, and one file of bits for each byte lane. A line with
`>:` in it is a label, any other line with a colon is an instruction; the addresses between an
instruction and the one before are filled with zeros.

The buffer is the array with everything in it: what a line before left behind the NUL of this one
is still there, and the pointers into it are positions. The opened files are a stream of characters
for each lane and a list of items for the table, each item one `fprintf`; `Item.render` is its text.
A run ends early in `exit(-1)`, or where C says no more what it does: an `int` that overflows, or a
position outside the buffer.
-/

namespace Teres.Tools.Dump2v

open Cod5asm (isspace skipSpace)

/-- `sizeof(buf)`. -/
def bufSize : ℕ := 1024

/-- How a run ends early. -/
inductive Stop where
  | error
  | undefined
deriving DecidableEq

abbrev M := Except Stop

/-! ## The C library -/

/-- What `fgets` reads of a stream into a buffer of `n + 1` characters, and what it leaves. -/
def fgets : ℕ → List Char → List Char × List Char
  | 0, s => ([], s)
  | _ + 1, [] => ([], [])
  | n + 1, c :: s => if c = '\n' then ([c], s) else (c :: (fgets n s).1, (fgets n s).2)

/-- `strstr`: the position of the first occurrence. -/
def strstr (pat : List Char) : List Char → Option ℕ
  | [] => if pat = [] then some 0 else none
  | c :: s => if pat <+: c :: s then some 0 else (strstr pat s).map (· + 1)

/-- The value of a hexadecimal digit. -/
def hexDigit (c : Char) : Option ℕ :=
  if '0' ≤ c ∧ c ≤ '9' then some (c.toNat - '0'.toNat)
  else if 'a' ≤ c ∧ c ≤ 'f' then some (c.toNat - 'a'.toNat + 10)
  else if 'A' ≤ c ∧ c ≤ 'F' then some (c.toNat - 'A'.toNat + 10)
  else none

/-- The value of hexadecimal digits, up to the first character that is none. -/
def hexValue (s : List Char) : ℕ :=
  (s.takeWhile fun c => (hexDigit c).isSome).foldl (fun v c => 16 * v + (hexDigit c).getD 0) 0

/-- The digits behind a prefix `0x`, if it is one. -/
def skip0x : List Char → List Char
  | '0' :: x :: c :: s =>
    if (x = 'x' ∨ x = 'X') ∧ (hexDigit c).isSome then c :: s else '0' :: x :: c :: s
  | s => s

/-- `strtol(s, NULL, 16)`, with a `long` of 64 bits. -/
def strtol (s : List Char) : ℤ :=
  match skipSpace s with
  | '-' :: s => max (-(hexValue (skip0x s) : ℤ)) (-2 ^ 63)
  | '+' :: s => min (hexValue (skip0x s)) (2 ^ 63 - 1)
  | s => min (hexValue (skip0x s)) (2 ^ 63 - 1)

/-- The cast to `int`. -/
def toInt (x : ℤ) : ℤ := x.bmod (2 ^ 32)

/-- An `int` that `+ 4` does not take beyond its largest value. -/
def addFour (x : ℤ) : M ℤ := if x + 4 < 2 ^ 31 then .ok (x + 4) else .error .undefined

/-- The digits of `%04x`. -/
def hex04 (x : ℤ) : List Char :=
  let digits := Nat.toDigits 16 (x % 2 ^ 32).toNat
  List.replicate (4 - digits.length) '0' ++ digits

/-! ## What is written -/

/-- The loop of `print_bits`, from `i` down. -/
def bitLoop : ℕ → ℕ → List Char
  | 0, _ => []
  | i + 1, n => (if n &&& 8 ≠ 0 then '1' else '0') :: bitLoop i (n <<< 1)

/-- `print_bits`. -/
def printBits (hex : Char) : M (List Char) :=
  if '0' ≤ hex ∧ hex ≤ '9' then .ok (bitLoop 4 (hex.toNat - '0'.toNat))
  else if 'a' ≤ hex ∧ hex ≤ 'f' then .ok (bitLoop 4 (hex.toNat - 'a'.toNat + 10))
  else .error .error

/-- `a`. -/
def a (c : Char) : Char :=
  if '0' ≤ c ∧ c ≤ '9' then Char.ofNat (c.toNat - '0'.toNat + 'A'.toNat)
  else if 'A' ≤ c ∧ c ≤ 'F' then Char.ofNat (c.toNat - 'A'.toNat + 10 + 'A'.toNat)
  else if 'a' ≤ c ∧ c ≤ 'f' then Char.ofNat (c.toNat - 'a'.toNat + 10 + 'A'.toNat)
  else ' '

/-- What one `fprintf` writes to the table. -/
inductive Item where
  /-- The comment of the label that begins the dump. -/
  | opening (buf : List Char)
  /-- The comment of a label, with the eight characters in front of it. -/
  | label (address buf : List Char)
  /-- The entry of an address in a gap. -/
  | nop (next : ℤ)
  /-- The entry of an instruction: its word and its text. -/
  | entry (line : ℤ) (word text : List Char)
deriving DecidableEq

/-- Its text. -/
def Item.render : Item → List Char
  | .opening buf => "/* ".toList ++ buf ++ " */".toList
  | .label address buf => "/* (".toList ++ address.map a ++ ") ".toList ++ buf ++ " */".toList
  | .nop next =>
    "\t'h".toList ++ hex04 next ++ ": O_dat <= 32'h00000000; /*         nop */\n".toList
  | .entry line word text =>
    "\t'h".toList ++ hex04 line ++ ": O_dat <= 32'h".toList ++ word ++ "; /*".toList ++ text ++
      " (".toList ++ word.map a ++ ")*/\n".toList

/-- The four lane files. -/
structure Lanes where
  out0 : List Char
  out1 : List Char
  out2 : List Char
  out3 : List Char
deriving DecidableEq

/-- A line for each of them. -/
def Lanes.push (l : Lanes) (bits0 bits1 bits2 bits3 : List Char) : Lanes where
  out0 := l.out0 ++ bits0 ++ ['\n']
  out1 := l.out1 ++ bits1 ++ ['\n']
  out2 := l.out2 ++ bits2 ++ ['\n']
  out3 := l.out3 ++ bits3 ++ ['\n']

/-! ## `main` -/

/-- The variables of `main` and what it has written. -/
structure State where
  dump : Bool
  next : ℤ
  buf : List Char
  outf : List Item
  lanes : Lanes
deriving DecidableEq

/-- The loop `while (next < line)`. -/
def fill (line : ℤ) : ℕ → State → M State
  | 0, s => .ok s
  | k + 1, s =>
    if s.next < line then do
      let zero := bitLoop 4 0 ++ bitLoop 4 0
      let next ← addFour s.next
      fill line k { s with
        next := next
        outf := s.outf ++ [.nop s.next]
        lanes := s.lanes.push zero zero zero zero }
    else .ok s

/-- The two digits of a byte in a lane. -/
def byteBits (high low : Char) : M (List Char) := do
  let bits ← printBits high
  let bits' ← printBits low
  return bits ++ bits'

/-- An instruction, with its colon at position `colon`. -/
def instruction (s : State) (colon : ℕ) : M State := do
  let buf := s.buf.set colon '\x00'
  let line := toInt (strtol (buf.take colon))
  let s ← fill line (line - s.next).toNat s
  let inst := colon + 1 + ((buf.drop (colon + 1)).takeWhile isspace).length
  if bufSize ≤ inst + 11 then .error .undefined
  else
    let buf := buf.set (inst + 11) '\x00'
    let c := fun k => buf.getD (inst + k) '\x00'
    let bits3 ← byteBits (c 0) (c 1)
    let bits2 ← byteBits (c 3) (c 4)
    let bits1 ← byteBits (c 6) (c 7)
    let bits0 ← byteBits (c 9) (c 10)
    let text := (buf.drop (inst + 12)).takeWhile fun x => x ≠ '\x00' && x ≠ '\n' && x ≠ '\x0D'
    if bufSize ≤ inst + 12 + text.length then .error .undefined
    else
      let next ← addFour line
      return { s with
        next := next
        buf := buf.set (inst + 12 + text.length) '\x00'
        outf := s.outf ++ [.entry line [c 9, c 10, c 6, c 7, c 3, c 4, c 0, c 1] text]
        lanes := s.lanes.push bits0 bits1 bits2 bits3 }

/-- The string in the buffer. -/
def cString (buf : List Char) : List Char := buf.takeWhile (· ≠ '\x00')

/-- The body of the loop behind `fgets`, while the dump goes on. -/
def dumping (s : State) : M State :=
  let str := cString s.buf
  if (strstr ">:".toList str).isSome then
    .ok { s with outf := s.outf ++ [.label (s.buf.take 8) str] }
  else
    match strstr ":".toList str with
    | some colon => instruction s colon
    | none => .ok s

/-- The body of the loop behind `fgets`, in front of the dump. -/
def waiting (s : State) : State :=
  let str := cString s.buf
  if (strstr "00000000 ".toList str).isSome && (strstr ">:".toList str).isSome then
    { s with dump := true, outf := s.outf ++ [.opening str] }
  else s

/-- What `fgets` puts into the buffer. -/
def load (s : State) (piece : List Char) : State :=
  { s with buf := piece ++ '\x00' :: s.buf.drop (piece.length + 1) }

/-- The body of the loop. -/
def step (s : State) (piece : List Char) : M State :=
  if s.dump then dumping (load s piece) else .ok (waiting (load s piece))

/-- The loop `while (fgets(buf, sizeof(buf), in))`. -/
def loop : ℕ → List Char → State → M State
  | 0, _, s => .ok s
  | k + 1, input, s =>
    if input = [] then .ok s
    else do
      let s ← step s (fgets (bufSize - 1) input).1
      loop k (fgets (bufSize - 1) input).2 s

/-- `main`, with what the buffer held at its start: the table and the lane files. -/
def main (buf input : List Char) : M (List Item × Lanes) := do
  let s ← loop input.length input ⟨false, 0, buf, [], ⟨[], [], [], []⟩⟩
  return (s.outf, s.lanes.push [] [] [] [])

end Teres.Tools.Dump2v
