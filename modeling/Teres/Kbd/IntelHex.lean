import Mathlib.Data.BitVec
import Teres.Tools.Dump2v

/-!
# Files of records

What an Intel HEX file is: lines of a colon and hexadecimal digits, two for each byte of a record.
The bytes of a record are its length, its address, its code and its data, and one more that makes
their sum zero. Data are bytes of a memory behind a base address, which two codes set; one code ends
the file, and all others say nothing of the memory.

`Memory.records` is the memory that records describe. A reader has room for addresses below a limit,
and no record may reach it.
-/

namespace Teres.Kbd.IntelHex

open Tools.Dump2v (hexDigit)

/-! ## Records -/

/-- A record, with no more data than its length can say. -/
structure Record where
  addr : BitVec 16
  code : BitVec 8
  data : List (BitVec 8)
  short : data.length < 256

/-- What stands in front of the checksum. -/
def Record.body (r : Record) : List (BitVec 8) :=
  BitVec.ofNat 8 r.data.length :: r.addr.extractLsb' 8 8 :: r.addr.extractLsb' 0 8 :: r.code ::
    r.data

/-- The bytes of a record. -/
def Record.bytes (r : Record) : List (BitVec 8) := r.body ++ [-r.body.sum]

/-- A text of two digits for each byte, in upper or lower case. -/
inductive Spells : List Char → List (BitVec 8) → Prop where
  | nil : Spells [] []
  | cons {c d : Char} {b : BitVec 8} {t : List Char} {bs : List (BitVec 8)}
    (high : hexDigit c = some (b.toNat / 16)) (low : hexDigit d = some (b.toNat % 16))
    (rest : Spells t bs) : Spells (c :: d :: t) (b :: bs)

/-- The line of a record, with a carriage return or without one. -/
def Line (line : List Char) (r : Record) : Prop :=
  ∃ t, Spells t r.bytes ∧ (line = ':' :: t ∨ line = ':' :: (t ++ ['\x0D']))

/-- Lines, each with its end. -/
def text (lines : List (List Char)) : List Char := lines.flatMap (· ++ ['\n'])

/-- A file of lines, with what is behind them. The last line of a file need not have its end. -/
inductive File : List (List Char) → List Char → List Char → Prop where
  | behind (rest : List Char) : File [] rest rest
  | line (line : List Char) {lines : List (List Char)} {rest file : List Char}
    (more : File lines rest file) : File (line :: lines) rest (line ++ '\n' :: file)
  | last (line : List Char) : File [line] [] line

/-! ## Memories -/

/-- What has been read: bytes, the base address, the number of bytes, and whether the file ends. -/
structure Memory where
  byte : ℕ → Option (BitVec 8)
  base : ℕ
  count : ℕ
  ended : Bool

/-- No byte yet. -/
def Memory.empty : Memory := ⟨fun _ => none, 0, 0, false⟩

/-- Bytes from an address on. -/
def Memory.write (m : Memory) (start : ℕ) (data : List (BitVec 8)) : Memory :=
  { m with
    byte := fun a => if start ≤ a ∧ a < start + data.length then data[a - start]? else m.byte a
    count := m.count + data.length }

/-- What a record says. -/
def Memory.apply (m : Memory) (r : Record) : Memory :=
  if r.code = 0#8 then m.write (m.base + r.addr.toNat) r.data
  else if r.code = 1#8 then { m with ended := true }
  else
    match r.data with
    | [high, low] =>
      if r.code = 2#8 then { m with base := (high ++ low).toNat * 2 ^ 4 }
      else if r.code = 4#8 then { m with base := (high ++ low).toNat * 2 ^ 16 }
      else m
    | _ => m

/-- Where a record ends. -/
def Memory.reach (m : Memory) (r : Record) : ℕ := m.base + r.addr.toNat + r.data.length

/-- The memory that records describe, up to the one that ends the file. -/
def Memory.records (limit : ℕ) : List Record → Memory → Option Memory
  | [], m => some m
  | r :: rs, m =>
    if m.reach r < limit then
      if (m.apply r).ended then some (m.apply r) else Memory.records limit rs (m.apply r)
    else none

end Teres.Kbd.IntelHex
