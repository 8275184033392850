import Mathlib.Data.BitVec
import Mathlib.Data.Int.Notation
import Mathlib.Logic.Function.Basic

/-!
# The assembler (`tools/cod5asm.c`)

A pointer is what the memory holds from it on, and a string is the list of its characters up to its
NUL (`cstr`). Only the comparison of `add_opcode` goes on behind a NUL: there the memory is what the
lines before have left in the buffer, and the table as it lies in memory (`tableBytes`). The end of
the memory is like a NUL to the reading of a string.

A tryte is four trits of two bits each, the most significant trit first. Trytes are gathered in
`val`, four to a word, and a full word is printed as a line of the firmware table. `emitted` is all
trytes in their order; the code does not keep it. An `int` has no bound here: a run in which an
address or the offset comes to 2^31 is undefined in C, and this model does not follow it. An image
of fewer bytes has none of these, since every address on the way is at most its length.

`b2t` is from `tools/bin2ter.c`. It is called with `max3` at the fifteenth power of three.
-/

namespace Teres.Tools.Cod5asm

/-! ## The C library -/

/-- `isspace`. -/
def isspace (c : Char) : Bool :=
  c = ' ' || c = '\t' || c = '\n' || c = '\x0B' || c = '\x0C' || c = '\x0D'

/-- The loops `while (isspace(*s)) s++`. -/
def skipSpace (s : List Char) : List Char := s.dropWhile isspace

/-- The string at a pointer. -/
def cstr (mem : List Char) : List Char := mem.takeWhile fun c => c ≠ '\x00'

/-- `*s >= '0' && *s <= '9'`. -/
def isDigit (c : Char) : Bool := '0' ≤ c && c ≤ '9'

/-- The value of decimal digits, up to the first character that is none. -/
def decimal (s : List Char) : ℤ :=
  (s.takeWhile isDigit).foldl (fun v c => 10 * v + ((c.toNat - '0'.toNat : ℕ) : ℤ)) 0

/-- `atoi`. -/
def atoi (s : List Char) : ℤ :=
  match skipSpace s with
  | '-' :: s => -decimal s
  | '+' :: s => decimal s
  | s => decimal s

/-! ## From integers to trits -/

/-- The loop variables of `bin2ter`. -/
structure Digits where
  v : ℤ
  n : ℤ
  j : ℕ
  buf : ℕ → Char

/-- The digit that `bin2ter` writes for the weight `n`. -/
def digit (n v : ℤ) : Char :=
  if v = n / 2 then '+' else if v = -(n / 2) then '-' else '0'

/-- What is left of `v` behind that digit. -/
def remainder (n v : ℤ) : ℤ :=
  if v = n / 2 then v - n else if v = -(n / 2) then v + n else v

/-- The `switch` on `i`: behind four digits, the next four go in front of them. -/
def Digits.place (i : ℕ) (s : Digits) : Digits :=
  if i = 11 then { s with j := 8 + 2, buf := Function.update s.buf (8 + 2 + 4) ',' }
  else if i = 7 then { s with j := 4 + 1, buf := Function.update s.buf (4 + 1 + 4) ',' }
  else if i = 3 then { s with j := 0, buf := Function.update s.buf (0 + 4) ',' }
  else s

/-- One round of the loop of `bin2ter`. -/
def Digits.round (s : Digits) (i : ℕ) : Digits :=
  let p := s.place i
  { v := remainder s.n s.v
    n := s.n / 3
    j := p.j + 1
    buf := Function.update p.buf p.j (digit s.n s.v) }

/-- The rounds for `i` from 15 down to 0. -/
def rounds : List ℕ := [15, 14, 13, 12, 11, 10, 9, 8, 7, 6, 5, 4, 3, 2, 1, 0]

/-- `bin2ter`: the 19 characters in front of the NUL. -/
def bin2ter (v : ℤ) (buf : ℕ → Char) : List Char :=
  let start : Digits := ⟨v, 3 ^ 15, 12 + 3, Function.update buf (12 + 3 + 4) '\x00'⟩
  (List.range 19).map (rounds.foldl Digits.round start).buf

/-- The loop of `b2t`. -/
def b2tLoop (n : ℕ) (v : ℤ) (t : BitVec 32) : BitVec 32 :=
  if _h : 0 < n then
    if v = 0 then b2tLoop (n / 3) v (t <<< 2)
    else if (n / 2 : ℕ) < v then b2tLoop (n / 3) (v - n) (t <<< 2 ||| 1#32)
    else if v < -(n / 2 : ℕ) then b2tLoop (n / 3) (v + n) (t <<< 2 ||| 2#32)
    else b2tLoop (n / 3) v (t <<< 2)
  else t
termination_by n
decreasing_by all_goals omega

/-- `b2t`. -/
def b2t (v : ℤ) : BitVec 32 := b2tLoop (3 ^ 15) v 0#32

/-! ## Output -/

/-- `*offset`, `*val` and the lines of the firmware table, each with its address and its word. -/
structure Out where
  offset : ℕ
  val : BitVec 32
  lines : List (ℕ × BitVec 32)
  emitted : List (BitVec 32)

/-- The `switch` of `add_t4` on the offset: one tryte gathered. -/
def Out.put (o : Out) (v : BitVec 32) : Out :=
  let o' := { o with offset := o.offset + 1, emitted := o.emitted ++ [v] }
  if o.offset % 4 = 0 then { o' with val := v }
  else if o.offset % 4 = 1 then { o' with val := o.val ||| v <<< 8 }
  else if o.offset % 4 = 2 then { o' with val := o.val ||| v <<< 16 }
  else
    { o' with
      val := 0#32
      lines := o.lines ++ [(o.offset - o.offset % 4, o.val ||| v <<< 24)] }

/-! ## Trytes -/

/-- The loop of `add_t4`: the trits up to a comma or white space, and what is left. There is no
tryte where another character stands. -/
def trits : List Char → BitVec 32 → Option (BitVec 32 × List Char)
  | [], v => some (v, [])
  | c :: s, v =>
    if c = '+' then trits s (v <<< 2 ||| 1#32)
    else if c = '-' then trits s (v <<< 2 ||| 2#32)
    else if c = '0' then trits s (v <<< 2 ||| 0#32)
    else if c = ',' then some (v, c :: s)
    else if isspace c then some (v, skipSpace (c :: s))
    else none

/-- `add_t4`. An error in the constant skips the rest of the string and gathers nothing. -/
def addT4 (str : List Char) (o : Out) : Out × List Char :=
  match trits (skipSpace str) 0#32 with
  | some (v, str) => (o.put v, str)
  | none => (o, [])

/-! ## Opcodes -/

/-- `struct opcode`. The strings fit in their arrays with their NUL. -/
structure Opcode where
  name : List Char
  t4 : List Char
  flags : ℕ
deriving DecidableEq

/-- Four trits of each opcode, all the same. -/
def dashes : List Char := ['-', '-', '-', '-']

/-- `ops`. -/
def ops : List Opcode :=
  [⟨['a', 'd', 'd'], dashes, 0⟩, ⟨['s', 'u', 'b'], dashes, 0⟩, ⟨['l', 'd'], dashes, 0⟩,
    ⟨['s', 't'], dashes, 0⟩, ⟨['l', 'd', 'i', 'a'], dashes, 1⟩, ⟨['l', 'd', 'i', 'b'], dashes, 1⟩,
    ⟨['s', 'w', 'a', 'p'], dashes, 0⟩, ⟨['p', 'u', 's', 'h'], dashes, 0⟩,
    ⟨['p', 'o', 'p'], dashes, 0⟩, ⟨['c', 'a', 'l', 'l'], dashes, 0⟩, ⟨['r', 'e', 't'], dashes, 0⟩,
    ⟨['s', 'h', 'i', 'f', 't'], dashes, 0⟩, ⟨['x', 'o', 'r'], dashes, 0⟩,
    ⟨['c', 'o', 'n', 's'], dashes, 0⟩, ⟨['a', 'n', 'y'], dashes, 0⟩, ⟨['s', 'l', 't'], dashes, 0⟩,
    ⟨['p', 'u', 's', 'h', 'r'], dashes, 0⟩, ⟨['p', 'o', 'p', 'r'], dashes, 0⟩,
    ⟨['b', 'e', 'q'], dashes, 0⟩, ⟨['b', 'n', 'e'], dashes, 0⟩, ⟨['j', 'm', 'p'], dashes, 0⟩,
    ⟨['n', 'o', 'p'], dashes, 0⟩]

/-- An array of `n` characters that holds a string, with NULs behind it. -/
def field (n : ℕ) (s : List Char) : List Char :=
  s ++ '\x00' :: List.replicate (n - 1 - s.length) '\x00'

/-- A `struct opcode` in memory: three bytes align `flags`, which has its low byte first. -/
def Opcode.bytes (op : Opcode) : List Char :=
  field 8 op.name ++ (field 5 op.t4 ++ (List.replicate 3 '\x00' ++
    (List.range 4).map fun k => Char.ofNat (op.flags / 256 ^ k % 256)))

/-- A table in memory, with the entry of zeros that ends it. -/
def tableBytes (table : List Opcode) : List Char :=
  table.flatMap Opcode.bytes ++ Opcode.bytes ⟨[], [], 0⟩

/-- The loop `while (*s == *n)`, which does not stop at a NUL that both have: what is left behind
`s`. There is none where it comes to the end of the table, or of the memory. -/
def strip : List Char → List Char → Option (List Char)
  | c :: s, d :: n => if c = d then strip s n else some (c :: s)
  | _, _ => none

/-- The operand of an opcode: four trytes of an integer, read from `buf` on. -/
def addOperand (buf : ℕ → Char) (s : List Char) (o : Out) : Out × ℤ :=
  match skipSpace s with
  | [] => (o, -1)
  | c :: s =>
    if c = ';' then (o, -1)
    else if isDigit c || c = '-' then
      let text := bin2ter (atoi (c :: s)) buf
      let o := (addT4 text o).1
      let o := (addT4 (text.drop 4) o).1
      let o := (addT4 (text.drop 8) o).1
      ((addT4 (text.drop 12) o).1, 0)
    else (o, 0)

/-- `add_opcode`, on a table. -/
def addOpcode (buf : ℕ → Char) (str : List Char) (o : Out) : List Opcode → Option (Out × ℤ)
  | [] => some (o, -1)
  | op :: ops =>
    match strip str (tableBytes (op :: ops)) with
    | none => none
    | some s =>
      if s.head?.any fun c => isspace c || c = ';' then
        let o := (addT4 op.t4 o).1
        if op.flags % 2 = 1 then some (addOperand buf (cstr s) o) else some (o, 0)
      else addOpcode buf str o ops

/-! ## The main program -/

/-- The loop over the constants of a `.t4` line: a comma is taken away before each but the first,
so it ends in as many rounds as there are characters. -/
def t4Loop : ℕ → List Char → Out → Out
  | 0, _, o => o
  | n + 1, s, o =>
    match addT4 s o with
    | (o, ',' :: s) => t4Loop n s o
    | (o, _) => o

/-- The loop `while (o > offset)` of `.org`. -/
def pad (a : ℤ) : ℕ → Out → Out
  | 0, o => o
  | n + 1, o => if o.offset < a then pad a n (addT4 ['0', '0', '0', '0'] o).1 else o

/-- How a run ends without a result: it reads outside of its arrays, or it exits with -1. -/
inductive Stop where
  | fault
  | exit

/-- `!memcmp(inst, name, n) && isspace(inst[n])`. -/
def directive (name inst : List Char) : Bool :=
  name.isPrefixOf inst && (inst.drop name.length).head?.any isspace

/-- The body of the loop of `main`. `buf` is what the array of `add_opcode` holds, and `mem` what
the memory holds from the array of `main` on. -/
def lineStep (buf : ℕ → Char) (mem : List Char) (o : Out) : Except Stop Out :=
  let inst := skipSpace (cstr mem)
  if inst = [] then .ok o
  else if directive ['.', 't', '4'] inst then .ok (t4Loop inst.length (inst.drop 4) o)
  else if inst.head? = some ';' then .ok o
  else if directive ['.', 'o', 'r', 'g'] inst then
    let a := atoi (skipSpace (inst.drop 4))
    if a < o.offset then .error .exit else .ok (pad a (a - o.offset).toNat o)
  else
    match addOpcode buf (skipSpace mem) o ops with
    | none => .error .fault
    | some (o, ret) => if ret = 0 then .ok o else .error .exit

/-- The lines that `fgets` reads, behind what is in its buffer of 1024 characters: each ends with
its newline, or where the buffer is full. -/
def fgets (buf : List Char) : List Char → List (List Char)
  | [] => if buf = [] then [] else [buf]
  | c :: file =>
    if c = '\n' || buf.length + 1 = 1023 then (buf ++ [c]) :: fgets [] file
    else fgets (buf ++ [c]) file

/-- What `fgets` puts into the memory. -/
def load (mem line : List Char) : List Char := line ++ '\x00' :: mem.drop (line.length + 1)

/-- The loop of `main`. -/
def assemble (buf : ℕ → Char) : List Char → List (List Char) → Out → Except Stop Out
  | _, [], o => .ok o
  | mem, line :: lines, o => do
    let o ← lineStep buf (load mem line) o
    assemble buf (load mem line) lines o

/-- The `switch` behind the loop: the last word, if it is not full. -/
def Out.flush (o : Out) : List (ℕ × BitVec 32) :=
  if o.offset % 4 = 0 then o.lines else o.lines ++ [(o.offset - o.offset % 4, o.val)]

/-- What is there before the first line. -/
def Out.start : Out := ⟨0, 0#32, [], []⟩

/-- `main`, on a source file: the words it prints, each with its address. -/
def main (buf : ℕ → Char) (mem file : List Char) : Except Stop (List (ℕ × BitVec 32)) :=
  (assemble buf mem (fgets [] file) .start).map Out.flush

end Teres.Tools.Cod5asm
