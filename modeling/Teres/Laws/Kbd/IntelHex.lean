import Mathlib.Data.List.TakeWhile
import Teres.Laws.Kbd.HexLines
import Teres.Laws.Tools.Dump2v

/-!
# Files of records are read as the memory that they describe

A line that spells a record does to the image what the record says (`readLine_record`), so a file of
records is read as the memory that they describe, or refused where they reach the limit
(`reads_records`). One base address is left out, `FFFF0000`: behind it the sum of an address and a
length is taken without its carry. In ISO C so are those from `80000000` on.
-/

namespace Teres.Kbd

open Tools.Dump2v (cString fgets fgets_line fgets_last fgets_append fgets_shorter Text
  hexDigit_text)
open IntelHex (Record Memory Line Spells text File)

/-! ## Records and memories -/

namespace IntelHex

theorem Record.sum_bytes (r : Record) : r.bytes.sum = 0#8 := by
  rw [Record.bytes, List.sum_append, List.sum_singleton]
  exact BitVec.add_right_neg _

theorem Record.length_bytes (r : Record) : r.bytes.length = 5 + r.data.length := by
  rw [Record.bytes, Record.body]
  simp only [List.length_append, List.length_cons, List.length_nil]
  omega

/-- The length of a record is that of its data. -/
theorem Record.length_toNat (r : Record) :
    (BitVec.ofNat 8 r.data.length).toNat = r.data.length := by
  rw [BitVec.toNat_ofNat, Nat.mod_eq_of_lt r.short]

theorem Record.addr_append (r : Record) :
    r.addr.extractLsb' 8 8 ++ r.addr.extractLsb' 0 8 = r.addr := by
  refine BitVec.eq_of_toNat_eq ?_
  rw [HidBootloaderCli.word_toNat, BitVec.extractLsb'_toNat, BitVec.extractLsb'_toNat,
    Nat.shiftRight_eq_div_pow, Nat.shiftRight_zero]
  have := r.addr.isLt
  omega

/-! What a record says, by its code. -/

theorem Memory.apply_data {r : Record} (code : r.code = 0#8) (m : Memory) :
    m.apply r = m.write (m.base + r.addr.toNat) r.data := if_pos code

theorem Memory.apply_end {r : Record} (code : r.code = 1#8) (m : Memory) :
    m.apply r = { m with ended := true } := by
  rw [Memory.apply, code, if_neg (by decide), if_pos rfl]

theorem Memory.apply_segment {r : Record} (code : r.code = 2#8) {high low : BitVec 8}
    (data : r.data = [high, low]) (m : Memory) :
    m.apply r = { m with base := (high ++ low).toNat * 2 ^ 4 } := by
  rw [Memory.apply, code, data, if_neg (by decide), if_neg (by decide)]
  exact if_pos rfl

theorem Memory.apply_linear {r : Record} (code : r.code = 4#8) {high low : BitVec 8}
    (data : r.data = [high, low]) (m : Memory) :
    m.apply r = { m with base := (high ++ low).toNat * 2 ^ 16 } := by
  rw [Memory.apply, code, data, if_neg (by decide), if_neg (by decide)]
  refine (if_neg ?_).trans (if_pos rfl)
  decide

/-- A record that says nothing of the memory. -/
theorem Memory.apply_other {r : Record} (data : r.code ≠ 0#8) (ends : r.code ≠ 1#8)
    (base : r.data.length = 2 → r.code ≠ 2#8 ∧ r.code ≠ 4#8) (m : Memory) : m.apply r = m := by
  rw [Memory.apply, if_neg data, if_neg ends]
  split
  · next high low eq =>
    obtain ⟨two, four⟩ := base (by rw [eq]; rfl)
    rw [if_neg two, if_neg four]
  · rfl

/-- All that a record can say. -/
theorem Memory.apply_cases (r : Record) (m : Memory) :
    r.code = 0#8 ∧ m.apply r = m.write (m.base + r.addr.toNat) r.data ∨
      r.code = 1#8 ∧ m.apply r = { m with ended := true } ∨
      (∃ high low, r.data = [high, low] ∧
        (r.code = 2#8 ∧ m.apply r = { m with base := (high ++ low).toNat * 2 ^ 4 } ∨
          r.code = 4#8 ∧ m.apply r = { m with base := (high ++ low).toNat * 2 ^ 16 })) ∨
      m.apply r = m := by
  by_cases zero : r.code = 0#8
  · exact .inl ⟨zero, apply_data zero m⟩
  by_cases one : r.code = 1#8
  · exact .inr (.inl ⟨one, apply_end one m⟩)
  by_cases pair : r.data.length = 2
  · obtain ⟨high, low, bytes⟩ := List.length_eq_two.1 pair
    by_cases two : r.code = 2#8
    · exact .inr (.inr (.inl ⟨high, low, bytes, .inl ⟨two, apply_segment two bytes m⟩⟩))
    by_cases four : r.code = 4#8
    · exact .inr (.inr (.inl ⟨high, low, bytes, .inr ⟨four, apply_linear four bytes m⟩⟩))
    · exact .inr (.inr (.inr (apply_other zero one (fun _ => ⟨two, four⟩) m)))
  · exact .inr (.inr (.inr (apply_other zero one (fun h => absurd h pair) m)))

/-- The characters of a line are digits, but for its ends. -/
theorem Line.cases {line : List Char} {r : Record} (h : Line line r) :
    ∃ t cr, Spells t r.bytes ∧ line = ':' :: (t ++ cr) ∧ (cr = [] ∨ cr = ['\x0D']) := by
  obtain ⟨t, spells, rfl | rfl⟩ := h
  · exact ⟨t, [], spells, by rw [List.append_nil], .inl rfl⟩
  · exact ⟨t, _, spells, rfl, .inr rfl⟩

/-- A file of lines that all have their end. -/
theorem File.of_text (lines : List (List Char)) (rest : List Char) :
    File lines rest (text lines ++ rest) := by
  induction lines with
  | nil => exact .behind rest
  | cons line lines ih =>
    have split : text (line :: lines) ++ rest = line ++ '\n' :: (text lines ++ rest) := by
      simp [text]
    rw [split]
    exact ih.line line

/-- The first line and what is behind it. -/
theorem text_cons (line : List Char) (lines : List (List Char)) (rest : List Char) :
    text (line :: lines) ++ rest = line ++ '\n' :: (text lines ++ rest) := by
  simp [text]

end IntelHex

namespace HidBootloaderCli

open IntelHex (Record.sum_bytes Record.length_bytes Record.length_toNat Record.addr_append)

section Lines

variable {iso : Bool}

/-! ## Lines of a file -/

/-- A line that `read_intel_hex` reads at once. -/
structure Short (line : List Char) : Prop where
  text : Text line
  length : line.length < bufSize - 1

theorem cr_text {cr : List Char} (h : cr = [] ∨ cr = ['\x0D']) : Text cr := by
  rcases h with rfl | rfl <;> decide

theorem digits_text {t cr : List Char} (all : Digits t) (ends : cr = [] ∨ cr = ['\x0D']) :
    Text (':' :: (t ++ cr)) := by
  have colon : Text [':'] := by decide
  exact colon.append ((hexDigit_text all).append (cr_text ends))

/-- A line of digits for no more bytes than a record has. -/
theorem Short.of_digits {t cr : List Char} (all : Digits t) (ends : cr = [] ∨ cr = ['\x0D'])
    {r : Record} (len : t.length = 2 * r.bytes.length) : Short (':' :: (t ++ cr)) := by
  refine ⟨digits_text all ends, ?_⟩
  have short := r.short
  have one : cr.length ≤ 1 := by rcases ends with rfl | rfl <;> simp
  have size : bufSize = 1024 := rfl
  rw [List.length_cons, List.length_append, len, r.length_bytes, size]
  omega

theorem Short.of_line {line : List Char} {r : Record} (h : Line line r) : Short line := by
  obtain ⟨t, cr, spells, rfl, ends⟩ := h.cases
  exact .of_digits (spells_digits spells) ends (spells_length spells)

/-- The end of a line, with the file behind it. The last line need not have one. -/
def Ends (e file : List Char) : Prop := e = ['\n'] ∨ e = [] ∧ file = []

theorem File.first {line : List Char} {lines : List (List Char)} {rest file : List Char}
    (h : File (line :: lines) rest file) :
    ∃ e more, Ends e more ∧ file = line ++ (e ++ more) ∧ File lines rest more := by
  cases h with
  | line _ more => exact ⟨['\n'], _, .inl rfl, rfl, more⟩
  | last => exact ⟨[], [], .inr ⟨rfl, rfl⟩, by simp, .behind []⟩

/-! ## The loop over the lines -/

/-- The loop on what is left of a file. -/
def readFrom (iso : Bool) (file : List Char) (s : State) : M State :=
  readLoop iso file.length file s

theorem readLoop_nil (k : ℕ) (s : State) : readLoop iso k [] s = .ok s := by
  cases k with
  | zero => rfl
  | succ => exact if_pos rfl

/-- The count of the loop is no bound. -/
theorem readLoop_enough {k k' : ℕ} {file : List Char} (left : file.length ≤ k)
    (right : file.length ≤ k') (s : State) : readLoop iso k file s = readLoop iso k' file s := by
  induction k generalizing k' file s with
  | zero => rw [List.length_eq_zero_iff.1 (Nat.le_zero.1 left), readLoop_nil, readLoop_nil]
  | succ k ih =>
    by_cases empty : file = []
    · rw [empty, readLoop_nil, readLoop_nil]
    · have shorter : (fgets (bufSize - 1) file).2.length < file.length := fgets_shorter empty
      obtain ⟨k', rfl⟩ := Nat.exists_eq_succ_of_ne_zero (show k' ≠ 0 by omega)
      rw [readLoop, readLoop, if_neg empty, if_neg empty]
      refine bind_congr fun s' => if_congr Iff.rfl rfl ?_
      exact ih (by omega) (by omega) s'

/-- What is read at once, and the file behind it. -/
theorem readFrom_piece {file p rest : List Char} (first : fgets (bufSize - 1) file = (p, rest))
    (some : p ≠ []) (text : '\x00' ∉ p) (s : State) :
    readFrom iso file s = (parseHexLine iso p s).bind fun s' =>
      if s'.endRecordSeen then .ok s' else readFrom iso rest s' := by
  have whole : p ++ rest = file := by
    have eq := fgets_append (bufSize - 1) file
    rwa [first] at eq
  have more : file ≠ [] := whole ▸ List.append_ne_nil_of_left_ne_nil some rest
  obtain ⟨k, size⟩ := Nat.exists_eq_succ_of_ne_zero (mt List.length_eq_zero_iff.1 more)
  have enough : rest.length ≤ k := by
    have := List.length_pos_of_ne_nil some
    have := (congrArg List.length whole).symm
    rw [List.length_append] at this
    omega
  have buffer : cString p = p :=
    List.takeWhile_eq_self_iff.2 fun c mem => decide_eq_true fun eq => text (eq ▸ mem)
  rw [readFrom, size, readLoop, if_neg more, first, readLine, buffer, if_neg some]
  exact bind_congr fun s' => if_congr Iff.rfl rfl (readLoop_enough enough le_rfl s')

/-- **A line and the file behind it.** -/
theorem readFrom_line {line e file : List Char} (short : Short line) (some : line ≠ [])
    (ends : Ends e file) (s : State) :
    readFrom iso (line ++ (e ++ file)) s = (parseHexLine iso (line ++ e) s).bind fun s' =>
      if s'.endRecordSeen then .ok s' else readFrom iso file s' := by
  refine readFrom_piece ?_ (List.append_ne_nil_of_left_ne_nil some e) ?_ s
  · rcases ends with rfl | ⟨rfl, rfl⟩
    · exact (fgets_line short.text.1 _ file).trans (if_pos short.length)
    · rw [List.append_nil, List.append_nil]
      exact fgets_last short.text.1 short.length.le
  · rw [List.mem_append, not_or]
    refine ⟨short.text.2, ?_⟩
    rcases ends with rfl | ⟨rfl, -⟩
    · decide
    · exact List.not_mem_nil

section

variable {line e file : List Char} {s : State}

/-- The line is read. -/
theorem readFrom_ok (short : Short line) (some : line ≠ []) (ends : Ends e file) {s' : State}
    (parsed : parseHexLine iso (line ++ e) s = .ok s') :
    readFrom iso (line ++ (e ++ file)) s =
      if s'.endRecordSeen then .ok s' else readFrom iso file s' := by
  rw [readFrom_line short some ends, parsed]
  rfl

/-- The line ends the run. -/
theorem readFrom_error (short : Short line) (some : line ≠ []) (ends : Ends e file) {stop : Stop}
    (parsed : parseHexLine iso (line ++ e) s = .error stop) :
    readFrom iso (line ++ (e ++ file)) s = .error stop := by
  rw [readFrom_line short some ends, parsed]
  rfl

end

/-! ## Records -/

/-- What the reader has is the memory. -/
structure Shows (s : State) (m : Memory) : Prop where
  byte : ∀ a, s.byte a = m.byte a
  base : s.extendedAddr.toNat = m.base
  count : s.byteCount = m.count
  ended : s.endRecordSeen = m.ended

theorem Shows.start : Shows .start .empty := ⟨fun _ => rfl, rfl, rfl, rfl⟩

/-- The number of a place, where it does not wrap around. -/
theorem place_toNat {l high low c : BitVec 8} {s : State}
    (clear : (high ++ low).toNat + s.extendedAddr.toNat < 2 ^ 32) :
    ((head l high low c).place s).toNat = (high ++ low).toNat + s.extendedAddr.toNat := by
  rw [Header.place, head, BitVec.toNat_add, BitVec.ofInt_natCast, BitVec.toNat_ofNat]
  omega

theorem below_iff {l high low : BitVec 8} {s : State}
    (clear : (high ++ low).toNat + s.extendedAddr.toNat + l.toNat < 2 ^ 32) :
    Below s l high low ↔ (high ++ low).toNat + s.extendedAddr.toNat + l.toNat < maxMemorySize := by
  have place :
      (BitVec.ofNat 32 (high ++ low).toNat + s.extendedAddr + BitVec.ofNat 32 l.toNat).toNat =
        (high ++ low).toNat + s.extendedAddr.toNat + l.toNat := by
    have := (high ++ low).isLt
    have := l.isLt
    rw [BitVec.toNat_add, BitVec.toNat_add, BitVec.toNat_ofNat, BitVec.toNat_ofNat]
    omega
  rw [Below, place]

/-- The number of a base address. -/
theorem base_toNat (high low : BitVec 8) {shift : ℕ} (small : shift ≤ 16) :
    (BitVec.ofNat 32 ((high ++ low).toNat * 2 ^ shift)).toNat =
      (high ++ low).toNat * 2 ^ shift := by
  have word : (high ++ low).toNat < 2 ^ 16 := (high ++ low).isLt
  have power : 2 ^ shift ≤ 2 ^ 16 := Nat.pow_le_pow_right (by decide) small
  have product : (high ++ low).toNat * 2 ^ shift < 2 ^ 16 * 2 ^ 16 := by
    calc (high ++ low).toNat * 2 ^ shift
      _ ≤ (high ++ low).toNat * 2 ^ 16 := Nat.mul_le_mul_left _ power
      _ < 2 ^ 16 * 2 ^ 16 := by omega
  rw [BitVec.toNat_ofNat]
  exact Nat.mod_eq_of_lt product

theorem Line.ne_nil {line : List Char} {r : Record} (h : Line line r) : line ≠ [] := by
  obtain ⟨t, cr, -, rfl, -⟩ := h.cases
  exact List.cons_ne_nil _ _

/-- What a line of a record has. -/
theorem Line.fields {line : List Char} {r : Record} (h : Line line r) (e : List Char) :
    ∃ t d k cr check, Spells t [BitVec.ofNat 8 r.data.length, r.addr.extractLsb' 8 8,
        r.addr.extractLsb' 0 8, r.code] ∧ Spells d r.data ∧ Spells k [check] ∧
      (BitVec.ofNat 8 r.data.length :: r.addr.extractLsb' 8 8 :: r.addr.extractLsb' 0 8 :: r.code ::
        (r.data ++ [check])).sum = 0#8 ∧
      line ++ e = ':' :: (t ++ (d ++ (k ++ (cr ++ e)))) ∧
      2 + 2 * (BitVec.ofNat 8 r.data.length).toNat ≤ (d ++ (k ++ (cr ++ e))).length := by
  obtain ⟨t, cr, spells, rfl, _⟩ := h.cases
  have fields : r.bytes = [BitVec.ofNat 8 r.data.length, r.addr.extractLsb' 8 8,
    r.addr.extractLsb' 0 8, r.code] ++ (r.data ++ [-r.body.sum]) := rfl
  have zero := r.sum_bytes
  rw [fields] at spells zero
  obtain ⟨t, u, rfl, first, rest⟩ := spells_append_iff.1 spells
  obtain ⟨d, k, rfl, data, last⟩ := spells_append_iff.1 rest
  refine ⟨t, d, k, cr, _, first, data, last, zero, ?_, ?_⟩
  · simp only [List.cons_append, List.append_assoc]
  · simp only [List.length_append, spells_length data, spells_length last, r.length_toNat,
      List.length_cons]
    omega

/-- The number that no linear base address reaches. In ISO C it is where the sign begins. -/
def bases (iso : Bool) : ℕ := if iso then 0x8000 else 0xFFFF

/-- A record sets no base address that is left out. -/
def Inner (iso : Bool) (r : Record) : Prop :=
  r.code = 4#8 → r.data.length = 2 → (r.data.getD 0 0 ++ r.data.getD 1 0).toNat < bases iso

instance (iso : Bool) (r : Record) : Decidable (Inner iso r) := inferInstanceAs (Decidable (_ → _))

/-- **A line of a record does what the record says**, if the record is below the limit. -/
theorem parse_record {line : List Char} {r : Record} (h : Line line r) (inner : Inner iso r)
    (e : List Char) {s : State} {m : Memory} (shows : Shows s m)
    (below : m.reach r < maxMemorySize) :
    ∃ s', parseHexLine iso (line ++ e) s = .ok s' ∧ Shows s' (m.apply r) := by
  obtain ⟨t, d, k, cr, check, first, data, last, zero, eq, long⟩ := Line.fields h e
  have len := r.length_toNat
  have limit : maxMemorySize = 65536 := rfl
  have clear : r.addr.toNat + s.extendedAddr.toNat + r.data.length < maxMemorySize := by
    rw [shows.base, Nat.add_comm r.addr.toNat]
    exact below
  have inside : Below s (BitVec.ofNat 8 r.data.length) (r.addr.extractLsb' 8 8)
      (r.addr.extractLsb' 0 8) := by
    rw [below_iff (by rw [r.addr_append, len]; omega), r.addr_append, len]
    exact clear
  rw [eq, parseHexLine_spells first long inside]
  by_cases zeroCode : r.code = 0#8
  · -- a line of data
    rw [if_pos zeroCode, zeroCode]
    rw [zeroCode] at zero
    have place : ((head (BitVec.ofNat 8 r.data.length) (r.addr.extractLsb' 8 8)
        (r.addr.extractLsb' 0 8) 0#8).place s).toNat = m.base + r.addr.toNat := by
      rw [place_toNat (by rw [r.addr_append]; omega), r.addr_append, shows.base, Nat.add_comm]
    have room : m.base + r.addr.toNat + r.data.length ≤ maxMemorySize := Nat.le_of_lt below
    rw [dataLine_spells data last len.symm (by rw [place, len]; exact room), if_pos zero, place,
      Memory.apply_data zeroCode]
    refine ⟨_, rfl, ?_, ?_, ?_, ?_⟩
    · intro a
      rw [State.storeAll_byte]
      exact if_congr Iff.rfl rfl (shows.byte a)
    · rw [State.storeAll_extendedAddr]
      exact shows.base
    · rw [State.storeAll_byteCount, len, shows.count]
      exact (Nat.cast_add _ _).symm
    · rw [State.storeAll_endRecordSeen]
      exact shows.ended
  rw [if_neg zeroCode]
  by_cases one : r.code = 1#8
  · rw [if_pos one, Memory.apply_end one]
    exact ⟨_, rfl, shows.byte, shows.base, shows.count, rfl⟩
  rw [if_neg one]
  have two : BitVec.ofNat 8 r.data.length = 2#8 ↔ r.data.length = 2 := by
    rw [← BitVec.toNat_inj, len]
    rfl
  by_cases pair : r.data.length = 2
  · -- a base address
    obtain ⟨high, low, bytes⟩ := List.length_eq_two.1 pair
    have sum : [BitVec.ofNat 8 r.data.length, r.addr.extractLsb' 8 8, r.addr.extractLsb' 0 8,
        r.code, high, low, check].sum = 0#8 := by
      rw [bytes] at zero ⊢
      exact zero
    rw [bytes] at data
    have word : (high ++ low).toNat < 2 ^ 16 := (high ++ low).isLt
    rw [extended_spells data last, extended_spells data last, if_pos sum, if_pos sum]
    by_cases segment : r.code = 2#8
    · rw [if_pos ⟨segment, two.2 pair⟩, Memory.apply_segment segment bytes,
        shiftLeft_eq fun _ => by omega]
      exact ⟨_, rfl, shows.byte, base_toNat high low (by decide), shows.count, shows.ended⟩
    rw [if_neg fun h => segment h.1]
    by_cases linear : r.code = 4#8
    · have clear : iso = true → (high ++ low).toNat * 2 ^ 16 < 2 ^ 31 := by
        rintro rfl
        have few := inner linear pair
        rw [bytes] at few
        change (high ++ low).toNat < 0x8000 at few
        omega
      rw [if_pos ⟨linear, two.2 pair⟩, Memory.apply_linear linear bytes, shiftLeft_eq clear]
      exact ⟨_, rfl, shows.byte, base_toNat high low le_rfl, shows.count, shows.ended⟩
    · rw [if_neg fun h => linear h.1, Memory.apply_other zeroCode one fun _ => ⟨segment, linear⟩]
      exact ⟨_, rfl, shows⟩
  · rw [if_neg fun h => pair (two.1 h.2), if_neg fun h => pair (two.1 h.2),
      Memory.apply_other zeroCode one fun h => absurd h pair]
    exact ⟨_, rfl, shows⟩

/-- A line of a record that reaches the limit. -/
theorem parse_record_refused {line : List Char} {r : Record} (h : Line line r) (e : List Char)
    {s : State} {m : Memory} (shows : Shows s m) (beyond : maxMemorySize ≤ m.reach r)
    (clear : m.reach r < 2 ^ 32) : parseHexLine iso (line ++ e) s = .error .refused := by
  obtain ⟨t, d, k, cr, check, first, data, last, zero, eq, long⟩ := Line.fields h e
  have len := r.length_toNat
  have reach : r.addr.toNat + s.extendedAddr.toNat + r.data.length = m.reach r := by
    rw [shows.base, Nat.add_comm r.addr.toNat]
    rfl
  rw [eq]
  refine parseHexLine_beyond first long ?_
  rw [below_iff (by rw [r.addr_append, len, reach]; exact clear), r.addr_append, len, reach]
  exact Nat.not_lt.2 beyond

/-! ## Files -/

/-- The largest base address but the last. -/
def innerBase : ℕ := 0xFFFE0000

theorem apply_base {r : Record} (inner : Inner iso r) {m : Memory} (base : m.base ≤ innerBase) :
    (m.apply r).base ≤ innerBase := by
  have limit : innerBase = 0xFFFE0000 := rfl
  obtain ⟨_, eq⟩ | ⟨_, eq⟩ | ⟨high, low, bytes, ⟨_, eq⟩ | ⟨four, eq⟩⟩ | eq := Memory.apply_cases r m
  · rw [eq]
    exact base
  · rw [eq]
    exact base
  · have word : (high ++ low).toNat < 2 ^ 16 := (high ++ low).isLt
    rw [eq]
    dsimp only
    omega
  · have few := inner four (by rw [bytes]; rfl)
    have most : bases iso ≤ 0xFFFF := by
      unfold bases
      split <;> decide
    rw [bytes] at few
    change (high ++ low).toNat < bases iso at few
    rw [eq]
    dsimp only
    omega
  · rw [eq]
    exact base

theorem reach_clear {m : Memory} (base : m.base ≤ innerBase) (r : Record) : m.reach r < 2 ^ 32 := by
  have limit : innerBase = 0xFFFE0000 := rfl
  have addr : r.addr.toNat < 2 ^ 16 := r.addr.isLt
  have short := r.short
  rw [Memory.reach]
  omega

/-- Reading on from records that have been read. -/
theorem readFrom_records {lines : List (List Char)} {rs : List Record}
    (spelled : List.Forall₂ Line lines rs) {rest file : List Char} (text : File lines rest file)
    (inner : ∀ r ∈ rs, Inner iso r) {s : State} {m : Memory} (shows : Shows s m)
    (base : m.base ≤ innerBase) :
    ((rest = [] ∨ ∃ r ∈ rs, r.code = 1#8) → ∀ m', Memory.records maxMemorySize rs m = some m' →
      ∃ s', readFrom iso file s = .ok s' ∧ Shows s' m') ∧
    (Memory.records maxMemorySize rs m = none → readFrom iso file s = .error .refused) := by
  induction spelled generalizing file s m with
  | nil =>
    cases text
    refine ⟨fun whole m' eq => ?_, fun eq => (by cases eq)⟩
    rcases whole with rfl | ⟨r, mem, _⟩
    · cases eq
      exact ⟨s, rfl, shows⟩
    · exact absurd mem List.not_mem_nil
  | @cons line r lines rs spells _ ih =>
    have clear := reach_clear base r
    -- the line, its end and what is behind it
    obtain ⟨e, more, ends, rfl, behind⟩ := File.first text
    rw [Memory.records]
    by_cases below : m.reach r < maxMemorySize
    · obtain ⟨s', parsed, shows'⟩ := parse_record spells (inner r List.mem_cons_self) e shows below
      rw [if_pos below, readFrom_ok (Short.of_line spells) (Line.ne_nil spells) ends parsed,
        shows'.ended]
      by_cases ended : (m.apply r).ended
      · rw [if_pos ended, if_pos ended]
        refine ⟨fun _ m' eq => ⟨s', rfl, ?_⟩, fun eq => (by cases eq)⟩
        cases eq
        exact shows'
      · rw [if_neg ended, if_neg ended]
        obtain ⟨reads, refused⟩ := ih behind (fun r mem => inner r (List.mem_cons_of_mem _ mem))
          shows' (apply_base (inner r List.mem_cons_self) base)
        refine ⟨fun whole => reads (whole.imp_right ?_), refused⟩
        rintro ⟨r', mem, code⟩
        rcases List.mem_cons.1 mem with rfl | mem
        · rw [Memory.apply_end code] at ended
          exact absurd rfl ended
        · exact ⟨r', mem, code⟩
    · have refused : parseHexLine iso (line ++ e) s = .error .refused :=
        parse_record_refused spells e shows (Nat.not_lt.1 below) clear
      rw [if_neg below, readFrom_error (Short.of_line spells) (Line.ne_nil spells) ends refused]
      exact ⟨fun _ m' eq => (by cases eq), fun _ => rfl⟩

/-- Records that do not end the file, and what is behind them. -/
theorem readFrom_before {lines : List (List Char)} {rs : List Record}
    (spelled : List.Forall₂ Line lines rs) (inner : ∀ r ∈ rs, Inner iso r) {s : State}
    {m m' : Memory} (shows : Shows s m) (base : m.base ≤ innerBase)
    (read : Memory.records maxMemorySize rs m = some m') (going : m'.ended = false) :
    ∃ s', Shows s' m' ∧ m'.base ≤ innerBase ∧
      ∀ rest, readFrom iso (text lines ++ rest) s = readFrom iso rest s' := by
  induction spelled generalizing s m with
  | nil =>
    cases read
    exact ⟨s, shows, base, fun _ => rfl⟩
  | @cons line r lines rs spells _ ih =>
    rw [Memory.records] at read
    by_cases below : m.reach r < maxMemorySize
    · rw [if_pos below] at read
      by_cases ended : (m.apply r).ended
      · rw [if_pos ended] at read
        cases read
        exact absurd (going.symm.trans ended) Bool.false_ne_true
      · rw [if_neg ended] at read
        obtain ⟨s', parsed, shows'⟩ :=
          parse_record spells (inner r List.mem_cons_self) ['\n'] shows below
        obtain ⟨s'', shows'', base', after⟩ := ih
          (fun r mem => inner r (List.mem_cons_of_mem _ mem)) shows'
          (apply_base (inner r List.mem_cons_self) base) read
        refine ⟨s'', shows'', base', fun rest => ?_⟩
        rw [IntelHex.text_cons, ← List.singleton_append,
          readFrom_ok (Short.of_line spells) (Line.ne_nil spells) (.inl rfl) parsed, shows'.ended,
          if_neg ended, after]
    · rw [if_neg below] at read
      cases read

/-- **A file of records is read as the memory that they describe**, or refused where they reach the
limit. Behind the record that ends it there may be anything. -/
theorem reads_records {lines : List (List Char)} {rs : List Record}
    (spelled : List.Forall₂ Line lines rs) {rest file : List Char} (text : File lines rest file)
    (inner : ∀ r ∈ rs, Inner iso r) (whole : rest = [] ∨ ∃ r ∈ rs, r.code = 1#8) :
    (∀ m, Memory.records maxMemorySize rs .empty = some m →
      ∃ s, readIntelHex iso file = .ok s ∧ Shows s m) ∧
    (Memory.records maxMemorySize rs .empty = none →
      readIntelHex iso file = .error .refused) :=
  (readFrom_records spelled text inner .start (Nat.zero_le _)).imp_left fun reads => reads whole

theorem reads_records_byte : ∃ s,
    readIntelHex false (text [":0100000041BE".toList, ":00000001FF\x0D".toList] ++
      "more".toList) = .ok s ∧ s.byte 0 = some 0x41#8 := by
  have spelled : List.Forall₂ Line [":0100000041BE".toList, ":00000001FF\x0D".toList]
      [⟨0#16, 0#8, [0x41#8], by decide⟩, ⟨0#16, 1#8, [], by decide⟩] :=
    .cons ⟨"0100000041BE".toList, by decide, .inl rfl⟩
      (.cons ⟨"00000001FF".toList, by decide, .inr rfl⟩ .nil)
  have whole : "more".toList = [] ∨ ∃ r ∈ ([⟨0#16, 0#8, [0x41#8], by decide⟩,
      ⟨0#16, 1#8, [], by decide⟩] : List Record), r.code = 1#8 :=
    .inr ⟨_, List.mem_cons_of_mem _ List.mem_cons_self, rfl⟩
  have inner : ∀ r ∈ ([⟨0#16, 0#8, [0x41#8], by decide⟩, ⟨0#16, 1#8, [], by decide⟩] :
      List Record), Inner false r := by decide
  obtain ⟨s, read, shows⟩ := (reads_records spelled (.of_text _ _) inner whole).1 _ rfl
  exact ⟨s, read, shows.byte 0⟩

end Lines

end HidBootloaderCli

end Teres.Kbd
