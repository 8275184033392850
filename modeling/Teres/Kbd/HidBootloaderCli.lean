import Mathlib.Logic.Function.Basic
import Teres.Tools.Dump2v

/-!
# The host of the boot loader (`BootLoaderHID/HostLoaderApp/hid_bootloader_cli.c`)

`read_intel_hex` reads a file of records line by line into an image of the flash memory, and marks
the bytes that are in it. `main` sends the pages that have one, the first page always, and then the
command to start the application.

`sscanf` is called for one conversion of `%x` at a time. It skips white space and takes a sign and a
prefix, and at the end of the line it returns -1, which the code takes for a success. A run ends
early where a line is refused, or where its result depends on what the code does not set: a variable
that nothing was read into, a place outside the image, a character behind the end of the line.

A base address is shifted as an `int`. Compilers shift its bits; ISO C has no result where they
reach the sign, and both ways of reading are here.

Not here are the device (`teensy_open`, `hard_reboot`) and its failures, and the messages.
`feof(stdin)` is false, as nothing reads there. `byte_count` does not overflow.
-/

namespace Teres.Kbd.HidBootloaderCli

open Tools.Cod5asm (skipSpace)
open Tools.Dump2v (cString fgets hexDigit hexValue)

/-- `MAX_MEMORY_SIZE`. -/
def maxMemorySize : ℕ := 0x10000

/-- `sizeof(buf)` of `read_intel_hex`. -/
def bufSize : ℕ := 1024

/-- How a run ends early. -/
inductive Stop where
  | refused
  | undefined
deriving DecidableEq

abbrev M := Except Stop

/-! ## The C library -/

/-- What `sscanf` makes of one conversion: it returns -1, 0, or 1 and a value. -/
inductive Scan where
  | eof
  | failed
  | read (value : ℤ)
deriving DecidableEq

/-- The value of hexadecimal digits, if there is one. -/
def digits (s : List Char) : Option ℕ :=
  if (s.head?.bind hexDigit).isSome then some (hexValue s) else none

/-- The digits behind a prefix `0x`, or where there is no prefix. -/
def unsigned : List Char → Option ℕ
  | c :: x :: s => if c = '0' ∧ (x = 'x' ∨ x = 'X') then digits s else digits (c :: x :: s)
  | s => digits s

/-- `sscanf(s, "%x", ...)` with the field width `n`. -/
def scanHex (n : ℕ) (s : List Char) : Scan :=
  match skipSpace s with
  | [] => .eof
  | c :: s =>
    let item := (c :: s).take n
    if c = '-' then (unsigned item.tail).elim .failed fun v => .read (-v)
    else if c = '+' then (unsigned item.tail).elim .failed fun v => .read v
    else (unsigned item).elim .failed fun v => .read v

/-! ## Reading a file -/

/-- `firmware_image`, `firmware_mask`, `end_record_seen`, `byte_count` and `extended_addr`. -/
structure State where
  image : ℕ → BitVec 8
  mask : ℕ → Bool
  endRecordSeen : Bool
  byteCount : ℤ
  extendedAddr : BitVec 32

/-- What `read_intel_hex` begins with. -/
def State.start : State := ⟨fun _ => 0xFF#8, fun _ => false, false, 0, 0#32⟩

/-- One byte of the image. -/
def State.store (s : State) (index : ℕ) (b : BitVec 8) : State :=
  { s with image := Function.update s.image index b, mask := Function.update s.mask index true }

/-- `if (!sscanf(...)) return 0`. -/
def expect : Scan → M ℤ
  | .eof => .error .undefined
  | .failed => .error .refused
  | .read v => .ok v

/-- What stands in front of the data of a line. -/
structure Header where
  len : ℤ
  addr : ℤ
  code : ℤ

/-- The first part of `parse_hex_line`. -/
def header (line : List Char) : M Header :=
  if line.head? ≠ some ':' then .error .refused
  else if line.length < 11 then .error .refused
  else do
    let len ← expect (scanHex 2 (line.drop 1))
    if line.length < 11 + len * 2 then .error .refused
    else do
      let addr ← expect (scanHex 4 (line.drop 3))
      let code ← expect (scanHex 2 (line.drop 7))
      return ⟨len, addr, code⟩

/-- `sum`, in front of the data. -/
def Header.sum (h : Header) : ℤ :=
  h.len % 256 + h.addr / 256 % 256 + h.addr % 256 + h.code % 256

/-- `addr + extended_addr`, which is unsigned. -/
def Header.place (h : Header) (s : State) : BitVec 32 := BitVec.ofInt 32 h.addr + s.extendedAddr

section Shift

-- whether `<<` of an `int` is as in ISO C
variable (iso : Bool)

/-- `i << shift`. -/
def shiftLeft (i : ℤ) (shift : ℕ) : M (BitVec 32) :=
  if iso ∧ (i < 0 ∨ 2 ^ 31 ≤ i * 2 ^ shift) then .error .undefined
  else .ok (BitVec.ofInt 32 (i * 2 ^ shift))

/-- A line that sets `extended_addr`. It is passed over if it is not well formed. -/
def extended (shift : ℕ) (h : Header) (ptr : List Char) (s : State) : M State :=
  match scanHex 4 ptr with
  | .eof => .error .undefined
  | .failed => .ok s
  | .read i =>
    match scanHex 2 (ptr.drop 4) with
    | .eof => .error .undefined
    | .failed => .ok s
    | .read cksum =>
      if (h.sum + (i / 256 % 256 + i % 256) + cksum) % 256 ≠ 0 then .ok s
      else (shiftLeft iso i shift).map fun addr => { s with extendedAddr := addr }

/-- The loop `while (num != len)`, with `256 - num` for its count: the sum, the rest of the line and
the image. -/
def dataLoop (len : ℤ) (place : BitVec 32) : ℕ → List Char → ℤ → State → M (ℤ × List Char × State)
  | 0, _, _, _ => .error .refused
  | k + 1, ptr, sum, s =>
    if 255 - k = len then .ok (sum, ptr, s)
    else
      match scanHex 2 ptr with
      | .read i =>
        let index := (place + BitVec.ofNat 32 (255 - k)).toNat
        if maxMemorySize ≤ index ∨ (ptr.length < 2 ∧ 0 < k) then .error .undefined
        else dataLoop len place k (ptr.drop 2) (sum + i % 256) (s.store index (BitVec.ofInt 8 i))
      | _ => .error .refused

/-- A line of data. -/
def dataLine (h : Header) (ptr : List Char) (s : State) : M State := do
  let (sum, ptr, s) ←
    dataLoop h.len (h.place s) 256 ptr h.sum { s with byteCount := s.byteCount + h.len }
  let cksum ← expect (scanHex 2 ptr)
  if (sum + cksum) % 256 ≠ 0 then .error .refused else .ok s

/-- `parse_hex_line`. -/
def parseHexLine (line : List Char) (s : State) : M State := do
  let h ← header line
  if maxMemorySize ≤ (h.place s + BitVec.ofInt 32 h.len).toNat then .error .refused
  else if h.code = 0 then dataLine h (line.drop 9) s
  else if h.code = 1 then .ok { s with endRecordSeen := true }
  else if h.code = 2 ∧ h.len = 2 then extended iso 4 h (line.drop 9) s
  else if h.code = 4 ∧ h.len = 2 then extended iso 16 h (line.drop 9) s
  else .ok s

/-- The body of the loop of `read_intel_hex`. -/
def readLine (piece : List Char) (s : State) : M State :=
  if cString piece = [] then .ok s else parseHexLine iso (cString piece) s

/-- The loop `while (!feof(fp))`. -/
def readLoop : ℕ → List Char → State → M State
  | 0, _, s => .ok s
  | k + 1, file, s =>
    if file = [] then .ok s
    else do
      let s ← readLine iso (fgets (bufSize - 1) file).1 s
      if s.endRecordSeen then .ok s else readLoop k (fgets (bufSize - 1) file).2 s

/-- `read_intel_hex`, of a file that is there. -/
def readIntelHex (file : List Char) : M State := readLoop iso file.length file .start

end Shift

/-- `ihex_bytes_within_range`. -/
def ihexBytesWithinRange (s : State) (first last : ℕ) : Bool :=
  if maxMemorySize ≤ first ∨ maxMemorySize ≤ last then false
  else (List.range (last + 1 - first)).any fun i => s.mask (first + i)

/-- `ihex_get_data`. -/
def ihexGetData (s : State) (addr len : ℕ) : List (BitVec 8) :=
  if maxMemorySize ≤ addr + len then List.replicate len 255#8
  else (List.range len).map fun i => if s.mask (addr + i) then s.image (addr + i) else 255#8

/-! ## The command line -/

/-- The options. -/
structure Options where
  waitForDeviceToAppear : Bool
  hardRebootDevice : Bool
  rebootAfterProgramming : Bool
  verbose : Bool
  codeSize : ℕ
  blockSize : ℕ
  filename : Option (List Char)
deriving DecidableEq

/-- What `parse_options` begins with. -/
def Options.start : Options := ⟨true, true, true, true, 32 * 1024, 128, none⟩

/-- What is left of a string behind a prefix. -/
def behind (pre s : List Char) : Option (List Char) :=
  if pre.isPrefixOf s then some (s.drop pre.length) else none

/-- The sizes of a processor, by what its name has behind the family: `code_size`, `block_size`. -/
def sizes (arg : List Char) : Option (ℕ × ℕ) :=
  if "128".toList.isPrefixOf arg then some (128 * 1024, 256)
  else if "64".toList.isPrefixOf arg then some (64 * 1024, 256)
  else if "32".toList.isPrefixOf arg then some (32 * 1024, 128)
  else if "16".toList.isPrefixOf arg then some (16 * 1024, 128)
  else if "8".toList.isPrefixOf arg then some (8 * 1024, 128)
  else none

/-- The argument of `-mmcu=`. -/
def mcu (arg : List Char) : Option (ℕ × ℕ) :=
  match behind "at90usb".toList arg with
  | some arg => sizes arg
  | none => (behind "atmega".toList arg).bind sizes

/-- The body of the loop of `parse_options`. The program ends at a processor that it does not
know. -/
def option (o : Options) (arg : List Char) : Option Options :=
  if arg.head? = some '-' then
    if arg = "-w".toList then some { o with waitForDeviceToAppear := true }
    else if arg = "-r".toList then some { o with hardRebootDevice := true }
    else if arg = "-n".toList then some { o with rebootAfterProgramming := false }
    else if arg = "-v".toList then some { o with verbose := true }
    else
      match behind "-mmcu=".toList arg with
      | some arg =>
        (mcu arg).map fun (code, block) => { o with codeSize := code, blockSize := block }
      | none => some o
  else some { o with filename := some arg }

/-- `parse_options`, of the arguments behind the name of the program. -/
def parseOptions (args : List (List Char)) : Option Options := args.foldlM option .start

/-! ## Programming -/

/-- The two bytes in front of a page. -/
def address (codeSize addr : ℕ) : List (BitVec 8) :=
  if codeSize < 0x10000 then [BitVec.ofNat 8 addr, BitVec.ofNat 8 (addr / 2 ^ 8)]
  else [BitVec.ofNat 8 (addr / 2 ^ 8), BitVec.ofNat 8 (addr / 2 ^ 16)]

/-- What is sent for a page. -/
def pageReport (o : Options) (s : State) (addr : ℕ) : List (BitVec 8) :=
  address o.codeSize addr ++ ihexGetData s addr o.blockSize

/-- Whether a page is sent. -/
def used (o : Options) (s : State) (addr : ℕ) : Bool :=
  addr = 0 || ihexBytesWithinRange s addr (addr + o.blockSize - 1)

/-- The loop over the pages, from `addr` on. -/
def pageLoop (o : Options) (s : State) : ℕ → ℕ → List (List (BitVec 8))
  | 0, _ => []
  | k + 1, addr =>
    if addr < o.codeSize then
      if used o s addr then pageReport o s addr :: pageLoop o s k (addr + o.blockSize)
      else pageLoop o s k (addr + o.blockSize)
    else []

/-- What is sent to start the application. -/
def startReport (o : Options) : List (BitVec 8) :=
  [0xFF#8, 0xFF#8] ++ List.replicate o.blockSize 0#8

/-- What `main` sends of the file that it has read. -/
def reports (o : Options) (s : State) : List (List (BitVec 8)) :=
  pageLoop o s o.codeSize 0 ++ if o.rebootAfterProgramming then [startReport o] else []

/-- `main`: what it sends, by its arguments and the files that there are. -/
def main (iso : Bool) (args : List (List Char)) (files : List Char → Option (List Char)) :
    M (List (List (BitVec 8))) :=
  match parseOptions args with
  | none => .error .refused
  | some o =>
    match o.filename.bind files with
    | none => .error .refused
    | some file => do
      let s ← readIntelHex iso file
      return reports o s

end Teres.Kbd.HidBootloaderCli
