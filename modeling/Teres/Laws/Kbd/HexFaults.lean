import Teres.Laws.Kbd.IntelHex

/-!
# Files that are no records

A record of data with one digit changed is refused, wherever the digit is but in the length and the
code (`corrupt_refused`). And of a file whose lines are a colon and digits, whatever the digits are,
`read_intel_hex` has a result, unless it comes to one of three kinds of line (`undefined_iff`): one
whose place is outside the image though the sum of it and the length wraps around, one that ends
with a carriage return where the checksum should be, and in ISO C one that shifts a base address
into the sign.
-/

namespace Teres.Kbd

open Tools.Cod5asm (skipSpace)
open Tools.Dump2v (cString fgets fgets_take hexDigit hexDigit_ne hexDigit_text Text)
open IntelHex (Record Memory Line Spells text File)

namespace HidBootloaderCli

variable {iso : Bool}

/-! ## Digits spell bytes -/

theorem hexDigit_lt {c : Char} {v : ℕ} (eq : hexDigit c = some v) : v < 16 := by
  unfold hexDigit at eq
  split at eq
  · next h =>
    have : c.toNat ≤ 57 := h.2
    cases eq
    change c.toNat - 48 < 16
    omega
  split at eq
  · next h =>
    have : c.toNat ≤ 102 := h.2
    cases eq
    change c.toNat - 97 + 10 < 16
    omega
  split at eq
  · next h =>
    have : c.toNat ≤ 70 := h.2
    cases eq
    change c.toNat - 65 + 10 < 16
    omega
  · cases eq

/-- Two digits are those of a byte. -/
theorem byte_of_digits {v w : ℕ} (high : v < 16) (low : w < 16) :
    ∃ b : BitVec 8, b.toNat / 16 = v ∧ b.toNat % 16 = w := by
  refine ⟨BitVec.ofNat 8 (16 * v + w), ?_⟩
  rw [BitVec.toNat_ofNat]
  omega

/-- **Digits spell bytes**, if their number is even. -/
theorem spells_of_digits {n : ℕ} {t : List Char} (all : Digits t) (even : t.length = 2 * n) :
    ∃ bs, bs.length = n ∧ Spells t bs := by
  induction n generalizing t with
  | zero =>
    rw [List.length_eq_zero_iff.1 even]
    exact ⟨[], rfl, .nil⟩
  | succ n ih =>
    obtain ⟨c, s, rfl⟩ := List.exists_cons_of_length_pos (show 0 < t.length by omega)
    rw [List.length_cons] at even
    obtain ⟨d, u, rfl⟩ := List.exists_cons_of_length_pos (show 0 < s.length by omega)
    rw [List.length_cons] at even
    obtain ⟨v, high⟩ := Option.isSome_iff_exists.1 (all c List.mem_cons_self)
    obtain ⟨w, low⟩ := Option.isSome_iff_exists.1 (all d (by simp))
    obtain ⟨b, rfl, rfl⟩ := byte_of_digits (hexDigit_lt high) (hexDigit_lt low)
    obtain ⟨bs, len, rest⟩ := ih (t := u) (fun e mem => all e (by simp [mem])) (by omega)
    exact ⟨b :: bs, by rw [List.length_cons, len], .cons high low rest⟩

/-- **One digit changed is one byte changed.** -/
theorem spells_set {t : List Char} {bs : List (BitVec 8)} (h : Spells t bs) {i : ℕ}
    (inside : i < t.length) {d : Char} (digit : (hexDigit d).isSome = true)
    (other : hexDigit d ≠ t[i]?.bind hexDigit) :
    ∃ b, Spells (t.set i d) (bs.set (i / 2) b) ∧ bs[i / 2]? ≠ some b := by
  induction h generalizing i with
  | nil => exact absurd inside (Nat.not_lt_zero _)
  | @cons c e b t bs high low rest ih =>
    obtain ⟨v, value⟩ := Option.isSome_iff_exists.1 digit
    have small := hexDigit_lt value
    have byte := b.isLt
    rcases Nat.lt_or_ge i 2 with pair | more
    · obtain rfl | rfl : i = 0 ∨ i = 1 := by omega
      · obtain ⟨b', high', low'⟩ := byte_of_digits small (show b.toNat % 16 < 16 by omega)
        refine ⟨b', .cons (value.trans (by rw [high'])) (low.trans (by rw [low'])) rest, ?_⟩
        rintro eq
        cases eq
        exact other (value.trans ((congrArg some high'.symm).trans high.symm))
      · obtain ⟨b', high', low'⟩ := byte_of_digits (show b.toNat / 16 < 16 by omega) small
        refine ⟨b', .cons (high.trans (by rw [high'])) (value.trans (by rw [low'])) rest, ?_⟩
        rintro eq
        cases eq
        exact other (value.trans ((congrArg some low'.symm).trans low.symm))
    · obtain ⟨j, rfl⟩ := Nat.exists_eq_add_of_le' more
      have half : (j + 2) / 2 = j / 2 + 1 := by omega
      rw [List.length_cons, List.length_cons] at inside
      obtain ⟨b', rest', ne⟩ := ih (show j < t.length by omega) other
      rw [half]
      exact ⟨b', .cons high low rest', ne⟩

/-- A list with one of its bytes changed has another sum. -/
theorem sum_set_ne {bs : List (BitVec 8)} {i : ℕ} {b : BitVec 8} (inside : i < bs.length)
    (other : bs[i]? ≠ some b) : (bs.set i b).sum ≠ bs.sum := by
  rw [List.sum_set', dif_pos inside]
  intro eq
  have same : bs[i] = b := neg_add_eq_zero.1 (add_eq_left.1 eq)
  exact other ((List.getElem?_eq_getElem inside).trans (congrArg some same))

/-! ## One digit of a record -/

/-- The fields of a record with as many bytes. -/
theorem fields_of_length {bytes : List (BitVec 8)} {n : ℕ} (len : bytes.length = 5 + n) :
    ∃ l high low c data check, bytes = l :: high :: low :: c :: (data ++ [check]) ∧
      data.length = n := by
  obtain ⟨l, r, rfl⟩ := List.exists_cons_of_length_pos (show 0 < bytes.length by omega)
  rw [List.length_cons] at len
  obtain ⟨high, r, rfl⟩ := List.exists_cons_of_length_pos (show 0 < r.length by omega)
  rw [List.length_cons] at len
  obtain ⟨low, r, rfl⟩ := List.exists_cons_of_length_pos (show 0 < r.length by omega)
  rw [List.length_cons] at len
  obtain ⟨c, r, rfl⟩ := List.exists_cons_of_length_pos (show 0 < r.length by omega)
  rw [List.length_cons] at len
  have more : r ≠ [] := List.ne_nil_of_length_pos (by omega)
  refine ⟨l, high, low, c, r.dropLast, r.getLast more, ?_, ?_⟩
  · rw [List.dropLast_append_getLast more]
  · rw [List.length_dropLast]
    omega

/-- **A line of data whose bytes do not add up is refused**, wherever it is. -/
theorem parse_sum {t : List Char} {l high low check : BitVec 8} {data : List (BitVec 8)}
    (h : Spells t (l :: high :: low :: 0#8 :: (data ++ [check]))) (all : data.length = l.toNat)
    (sum : (l :: high :: low :: 0#8 :: (data ++ [check])).sum ≠ 0#8) {s : State}
    (clear : (high ++ low).toNat + s.extendedAddr.toNat + l.toNat < 2 ^ 32) (u : List Char) :
    parseHexLine iso (':' :: (t ++ u)) s = .error .refused := by
  have split : l :: high :: low :: 0#8 :: (data ++ [check]) =
    [l, high, low, 0#8] ++ (data ++ [check]) := rfl
  rw [split] at h
  obtain ⟨t, v, rfl, first, rest⟩ := spells_append_iff.1 h
  obtain ⟨d, k, rfl, bytes, last⟩ := spells_append_iff.1 rest
  have long : 2 + 2 * l.toNat ≤ (d ++ (k ++ u)).length := by
    simp only [List.length_append, spells_length bytes, spells_length last, List.length_cons]
    omega
  rw [List.append_assoc, List.append_assoc]
  by_cases below : Below s l high low
  · have inside := (below_iff clear).1 below
    rw [parseHexLine_spells first long below, if_pos rfl, dataLine_spells bytes last all,
      if_neg sum]
    rw [place_toNat (by omega)]
    omega
  · exact parseHexLine_beyond first long below

/-- The digits of the address, the data and the checksum. -/
def Guarded (i : ℕ) : Prop := 2 ≤ i ∧ i < 6 ∨ 8 ≤ i

/-- **One digit changed in a record of data, and the file is refused**, unless the digit is one of
the length or of the code, and if the reader gets there: no record in front of it ends the file. -/
theorem corrupt_refused {before : List (List Char)} {rs : List Record}
    (spelled : List.Forall₂ Line before rs) (inner : ∀ r ∈ rs, Inner iso r)
    (going : ∀ m, Memory.records maxMemorySize rs .empty = some m → m.ended = false)
    {r : Record} (data : r.code = 0#8) {t cr : List Char} (spells : Spells t r.bytes)
    (back : cr = [] ∨ cr = ['\x0D']) {i : ℕ} (inside : i < t.length) (guarded : Guarded i)
    {d : Char} (digit : (hexDigit d).isSome = true) (other : hexDigit d ≠ t[i]?.bind hexDigit)
    {e rest : List Char} (ends : Ends e rest) :
    readIntelHex iso (text before ++ (':' :: (t.set i d ++ cr) ++ (e ++ rest))) =
      .error .refused := by
  cases read : Memory.records maxMemorySize rs .empty with
  | none => exact (readFrom_records spelled (.of_text _ _) inner .start (Nat.zero_le _)).2 read
  | some m =>
  obtain ⟨s, shows, base, after⟩ :=
    readFrom_before spelled inner .start (Nat.zero_le _) read (going m read)
  obtain ⟨b, changed, ne⟩ := spells_set spells inside digit other
  have half : i / 2 < r.bytes.length := by
    rw [spells_length spells] at inside
    omega
  -- the length and the code are what they were
  have same (j : ℕ) (off : i / 2 ≠ j) : (r.bytes.set (i / 2) b)[j]? = r.bytes[j]? :=
    List.getElem?_set_ne off
  have sum : (r.bytes.set (i / 2) b).sum ≠ 0#8 := r.sum_bytes ▸ sum_set_ne half ne
  obtain ⟨l, high, low, c, bs, check, fields, len⟩ :=
    fields_of_length (n := r.data.length) ((List.length_set).trans r.length_bytes)
  have length : l = BitVec.ofNat 8 r.data.length := by
    have := same 0 (by unfold Guarded at guarded; omega)
    rw [fields] at this
    exact Option.some.inj this
  have code : c = 0#8 := by
    have := same 3 (by unfold Guarded at guarded; omega)
    rw [fields] at this
    exact (Option.some.inj this).trans data
  rw [fields, code] at changed sum
  have clear : (high ++ low).toNat + s.extendedAddr.toNat + l.toNat < 2 ^ 32 := by
    have limit : innerBase = 0xFFFE0000 := rfl
    have := (high ++ low).isLt
    have := l.isLt
    rw [shows.base]
    omega
  have refused : parseHexLine iso (':' :: (t.set i d ++ (cr ++ e))) s = .error .refused :=
    parse_sum changed (by rw [len, length, r.length_toNat]) sum clear (cr ++ e)
  have short : Short (':' :: (t.set i d ++ cr)) :=
    .of_digits (spells_digits changed) back (r := r) (List.length_set.trans (spells_length spells))
  have line : ':' :: (t.set i d ++ cr) ++ e = ':' :: (t.set i d ++ (cr ++ e)) := by
    simp only [List.cons_append, List.append_assoc]
  exact (after _).trans (readFrom_error short (List.cons_ne_nil _ _) ends (line ▸ refused))

theorem corrupt_refused_byte :
    readIntelHex false (text [":020000040000FA".toList] ++ ":0100000051BE".toList) =
      .error .refused := by
  have spelled : List.Forall₂ Line [":020000040000FA".toList]
      [⟨0#16, 4#8, [0#8, 0#8], by decide⟩] :=
    .cons ⟨"020000040000FA".toList, by decide, .inl rfl⟩ .nil
  have spells : Spells "0100000041BE".toList
      (Record.mk 0#16 0#8 [0x41#8] (by decide)).bytes := by decide
  have inner : ∀ r ∈ ([⟨0#16, 4#8, [0#8, 0#8], by decide⟩] : List Record), Inner false r := by
    decide
  have refused := corrupt_refused spelled inner (fun m read => by cases read; rfl) rfl spells
    (.inl rfl) (i := 8) (by decide) (.inr le_rfl) (d := '5') (by decide) (by decide)
    (.inr ⟨rfl, rfl⟩)
  exact refused

/-! ## Lines of digits -/

/-- A line of a colon and digits, with a carriage return or without one. -/
def Digital (line : List Char) : Prop :=
  ∃ t cr, line = ':' :: (t ++ cr) ∧ Digits t ∧ (cr = [] ∨ cr = ['\x0D'])

/-- What can be behind the digits that are read at once. -/
def Blank (e : List Char) : Prop :=
  (e = [] ∨ e = ['\x0D']) ∨ e = ['\n'] ∨ e = ['\x0D', '\n']

/-- A base address that a line shifts into the sign, if the line is taken. -/
def Signs (iso : Bool) (l high low c : BitVec 8) (bs : List (BitVec 8)) (u : List Char) : Prop :=
  iso = true ∧ c = 4#8 ∧ l = 2#8 ∧ ∃ a b check, bs = [a, b] ∧ scanHex 2 u = .read check ∧
    (total [l, high, low, c, a, b] + check) % 256 = 0 ∧ 0x8000 ≤ (a ++ b).toNat

/-- The three kinds of line that leave `parse_hex_line` without a result. -/
inductive Fault (iso : Bool) (s : State) : List Char → Prop where
  | wraps {t d u : List Char} {l high low b : BitVec 8} {bs : List (BitVec 8)}
    (header : Spells t [l, high, low, 0#8]) (data : Spells d (b :: bs))
    (len : l.toNat = bs.length + 1) (some : 2 ≤ u.length) (below : Below s l high low)
    (outside : maxMemorySize ≤ ((head l high low 0#8).place s).toNat) :
    Fault iso s (':' :: (t ++ (d ++ u)))
  | cut {t d : List Char} {l high low c : BitVec 8} {bs : List (BitVec 8)}
    (header : Spells t [l, high, low, c]) (data : Spells d bs) (len : l.toNat = bs.length)
    (code : c = 0#8 ∨ (c = 2#8 ∨ c = 4#8) ∧ l = 2#8) (below : Below s l high low) :
    Fault iso s (':' :: (t ++ (d ++ ['\x0D', '\n'])))
  | sign {t d u : List Char} {l high low c : BitVec 8} {bs : List (BitVec 8)}
    (header : Spells t [l, high, low, c]) (data : Spells d bs) (some : 2 ≤ u.length)
    (below : Below s l high low) (signs : Signs iso l high low c bs u) :
    Fault iso s (':' :: (t ++ (d ++ u)))

/-- No field begins where a line ends. -/
theorem scanHex_end {e : List Char} (blank : Blank e) (n : ℕ) : scanHex n e = .eof := by
  rcases blank with (rfl | rfl) | rfl | rfl <;> rfl

/-- A field of one digit or more. -/
theorem scanHex_more {v : List Char} (all : Digits v) (some : v ≠ []) {e : List Char}
    (blank : Blank e) : ∃ i, scanHex 2 (v ++ e) = .read i := by
  obtain ⟨c, v, rfl⟩ := List.exists_cons_of_ne_nil some
  have other (x : Char) (none : hexDigit x = .none) (newline : x ≠ '\n') (back : x ≠ '\x0D') :
      (v ++ e).head? ≠ .some x := by
    cases v with
    | nil =>
      rcases blank with (rfl | rfl) | rfl | rfl
      · exact fun eq => by cases eq
      · exact fun eq => back (Option.some.inj eq).symm
      · exact fun eq => newline (Option.some.inj eq).symm
      · exact fun eq => back (Option.some.inj eq).symm
    | cons d v => exact fun eq => hexDigit_ne (all d (by simp)) none (Option.some.inj eq)
  have lower := other 'x' (by decide) (by decide) (by decide)
  have upper := other 'X' (by decide) (by decide) (by decide)
  exact ⟨_, scanHex_digit (all c List.mem_cons_self) lower upper 1⟩

/-- A field is missing only at the end of a line. -/
theorem scanHex_eof_iff {v : List Char} (all : Digits v) {e : List Char} (blank : Blank e) :
    scanHex 2 (v ++ e) = .eof ↔ v = [] := by
  constructor
  · intro eof
    by_contra some
    obtain ⟨i, read⟩ := scanHex_more all some blank
    rw [read] at eof
    cases eof
  · rintro rfl
    exact scanHex_end blank 2

/-- A line of data inside the image has a result, unless its checksum is missing. -/
theorem dataLine_undefined_iff {d : List Char} {l high low : BitVec 8} {bs : List (BitVec 8)}
    {s : State} (data : Spells d bs) (all : bs.length = l.toNat)
    (inside : ((head l high low 0#8).place s).toNat + l.toNat ≤ maxMemorySize) (u : List Char) :
    dataLine (head l high low 0#8) (d ++ u) s = .error .undefined ↔ scanHex 2 u = .eof := by
  rw [dataLine_stored data all inside]
  cases scanHex 2 u with
  | eof => exact ⟨fun _ => rfl, fun _ => rfl⟩
  | failed => exact ⟨fun h => (by cases h), fun h => (by cases h)⟩
  | read check =>
    refine ⟨fun h => ?_, fun h => (by cases h)⟩
    change (if _ then Except.error Stop.refused else Except.ok _) = _ at h
    split at h <;> cases h

/-- So has a line that sets the base address, unless it is shifted into the sign. -/
theorem extended_undefined_iff {d : List Char} {l high low c a b : BitVec 8}
    (data : Spells d [a, b]) (shift : ℕ) (u : List Char) (s : State) :
    extended iso shift (head l high low c) (d ++ u) s = .error .undefined ↔
      scanHex 2 u = .eof ∨ (iso = true ∧ 2 ^ 31 ≤ (a ++ b).toNat * 2 ^ shift) ∧
        ∃ check, scanHex 2 u = .read check ∧
          (total [l, high, low, c, a, b] + check) % 256 = 0 := by
  have four : d.length = 4 := spells_length data
  cases sum : scanHex 2 u with
  | eof =>
    refine iff_of_true ?_ (.inl rfl)
    unfold extended
    rw [scanHex_word data]
    dsimp only
    rw [List.drop_left' four, sum]
  | failed =>
    have passed : extended iso shift (head l high low c) (d ++ u) s = .ok s := by
      unfold extended
      rw [scanHex_word data]
      dsimp only
      rw [List.drop_left' four, sum]
    rw [passed]
    refine iff_of_false (fun h => by cases h) ?_
    rintro (eof | ⟨-, check, read, -⟩)
    · cases eof
    · cases read
  | read check =>
    rw [extended_read data sum, ← shiftLeft_undefined_iff]
    by_cases zero : (total [l, high, low, c, a, b] + check) % 256 = 0
    · rw [if_pos zero]
      cases shiftLeft iso (a ++ b).toNat shift with
      | ok addr =>
        refine iff_of_false (fun h => by cases h) ?_
        rintro (eof | ⟨undefined, -⟩)
        · cases eof
        · cases undefined
      | error stop =>
        cases stop with
        | undefined => exact iff_of_true rfl (.inr ⟨rfl, check, rfl, zero⟩)
        | refused =>
          refine iff_of_false (fun h => by cases h) ?_
          rintro (eof | ⟨undefined, -⟩)
          · cases eof
          · cases undefined
    · rw [if_neg zero]
      refine iff_of_false (fun h => by cases h) ?_
      rintro (eof | ⟨-, other, read, sums⟩)
      · cases eof
      · cases read
        exact zero sums

section Fields

variable {t d v e : List Char} {l high low c : BitVec 8} {bs : List (BitVec 8)} {s : State}

/-- Where the sum of a place and a length is below the limit, both are, or the sum wraps around. -/
theorem below_cases (below : Below s l high low) :
    ((head l high low 0#8).place s).toNat + l.toNat ≤ maxMemorySize ∨
      l ≠ 0#8 ∧ maxMemorySize ≤ ((head l high low 0#8).place s).toNat := by
  have limit : maxMemorySize = 65536 := rfl
  have len := l.isLt
  have sum : (((head l high low 0#8).place s) + BitVec.ofNat 32 l.toNat).toNat < maxMemorySize := by
    rw [Header.place, head, BitVec.ofInt_natCast]
    exact below
  rw [BitVec.toNat_add, BitVec.toNat_ofNat] at sum
  by_cases zero : l = 0#8
  · left
    rw [zero] at sum ⊢
    simp at sum ⊢
    omega
  · by_cases outside : maxMemorySize ≤ ((head l high low 0#8).place s).toNat
    · exact .inr ⟨zero, outside⟩
    · left
      omega

/-- A line of data has a result, or it is one of the kinds. -/
theorem data_fields_iff (data : Spells d bs) (len : l.toNat = bs.length) (all : Digits v)
    (blank : Blank e) (below : Below s l high low) :
    dataLine (head l high low 0#8) (d ++ (v ++ e)) s = .error .undefined ↔
      l ≠ 0#8 ∧ maxMemorySize ≤ ((head l high low 0#8).place s).toNat ∨ v = [] := by
  have some (few : l ≠ 0#8) : 0 < l.toNat :=
    Nat.pos_of_ne_zero fun eq => few (BitVec.eq_of_toNat_eq eq)
  rcases below_cases below with inside | ⟨few, outside⟩
  · rw [dataLine_undefined_iff data len.symm inside, scanHex_eof_iff all blank]
    refine (or_iff_right ?_).symm
    rintro ⟨few, outside⟩
    have := some few
    omega
  · obtain ⟨b, bs, rfl⟩ := List.exists_cons_of_length_pos (len ▸ some few)
    rw [dataLine_undefined data few outside]
    exact ⟨fun _ => .inl ⟨few, outside⟩, fun _ => rfl⟩

/-- So has a line that sets the base address. -/
theorem segment_fields_iff (data : Spells d bs) (len : l.toNat = bs.length) (all : Digits v)
    (blank : Blank e) (two : l = 2#8) :
    extended iso 4 (head l high low c) (d ++ (v ++ e)) s = .error .undefined ↔ v = [] := by
  rw [two] at len
  obtain ⟨a, b, rfl⟩ := List.length_eq_two.1 len.symm
  rw [extended_undefined_iff data, scanHex_eof_iff all blank]
  refine or_iff_left fun large => ?_
  have word : (a ++ b).toNat < 2 ^ 16 := (a ++ b).isLt
  have := large.1.2
  omega

theorem linear_fields_iff (data : Spells d bs) (len : l.toNat = bs.length) (all : Digits v)
    (blank : Blank e) (two : l = 2#8) :
    extended iso 16 (head l high low 4#8) (d ++ (v ++ e)) s = .error .undefined ↔
      v = [] ∨ Signs iso l high low 4#8 bs (v ++ e) := by
  rw [two] at len ⊢
  obtain ⟨a, b, rfl⟩ := List.length_eq_two.1 len.symm
  rw [extended_undefined_iff data, scanHex_eof_iff all blank]
  refine or_congr_right ⟨?_, ?_⟩
  · rintro ⟨⟨as, large⟩, check, read, sums⟩
    exact ⟨as, rfl, rfl, a, b, check, rfl, read, sums, by omega⟩
  · rintro ⟨as, -, -, a', b', check, same, read, sums, large⟩
    cases same
    exact ⟨⟨as, by omega⟩, check, read, sums⟩

/-- A line with its fields has a result, or it is one of the three kinds. -/
theorem parse_fields_iff (header : Spells t [l, high, low, c]) (data : Spells d bs)
    (len : l.toNat = bs.length) (all : Digits v) (blank : Blank e) (long : 2 ≤ (v ++ e).length) :
    parseHexLine iso (':' :: (t ++ (d ++ (v ++ e)))) s = .error .undefined ↔
      Below s l high low ∧
        (c = 0#8 ∧ l ≠ 0#8 ∧ maxMemorySize ≤ ((head l high low 0#8).place s).toNat ∨
          (c = 0#8 ∨ (c = 2#8 ∨ c = 4#8) ∧ l = 2#8) ∧ v = [] ∨
          Signs iso l high low c bs (v ++ e)) := by
  have enough : 2 + 2 * l.toNat ≤ (d ++ (v ++ e)).length := by
    rw [List.length_append, spells_length data]
    omega
  have unsigned (other : ¬(c = 4#8 ∧ l = 2#8)) : ¬Signs iso l high low c bs (v ++ e) :=
    fun signs => other ⟨signs.2.1, signs.2.2.1⟩
  by_cases below : Below s l high low
  · rw [parseHexLine_spells header enough below, and_iff_right below]
    by_cases zero : c = 0#8
    · have signs := unsigned fun h => absurd (zero.symm.trans h.1) (by decide)
      rw [if_pos zero, or_iff_left signs, zero, data_fields_iff data len all blank below]
      simp only [true_and, true_or]
    rw [if_neg zero]
    simp only [zero, false_and, false_or]
    by_cases one : c = 1#8
    · have signs := unsigned fun h => absurd (one.symm.trans h.1) (by decide)
      rw [if_pos one, or_iff_left signs, one]
      exact ⟨fun h => (by cases h), fun h => absurd h.1.1 (by decide)⟩
    rw [if_neg one]
    by_cases two : c = 2#8 ∧ l = 2#8
    · have signs := unsigned fun h => absurd (two.1.symm.trans h.1) (by decide)
      rw [if_pos two, or_iff_left signs, segment_fields_iff data len all blank two.2]
      exact (and_iff_right ⟨.inl two.1, two.2⟩).symm
    rw [if_neg two]
    by_cases four : c = 4#8 ∧ l = 2#8
    · have both : (c = 2#8 ∨ c = 4#8) ∧ l = 2#8 := ⟨.inr four.1, four.2⟩
      rw [if_pos four, and_iff_right both, four.1, linear_fields_iff data len all blank four.2]
    rw [if_neg four, or_iff_left (unsigned four)]
    refine ⟨fun h => (by cases h), ?_⟩
    rintro ⟨⟨code | code, len⟩, -⟩
    · exact absurd ⟨code, len⟩ two
    · exact absurd ⟨code, len⟩ four
  · rw [parseHexLine_beyond header enough below]
    exact ⟨fun h => (by cases h), fun h => absurd h.1 below⟩

end Fields

theorem four_bytes {bytes : List (BitVec 8)} (len : bytes.length = 4) :
    ∃ l high low c, bytes = [l, high, low, c] := by
  obtain ⟨l, r, rfl⟩ := List.exists_cons_of_length_pos (show 0 < bytes.length by omega)
  obtain ⟨high, low, c, rfl⟩ := List.length_eq_three.1 (Nat.succ.inj len)
  exact ⟨l, high, low, c, rfl⟩

theorem Blank.length {e : List Char} (blank : Blank e) : e.length ≤ 2 := by
  rcases blank with (rfl | rfl) | rfl | rfl <;> decide

/-- A line with fewer digits than a header is refused. -/
theorem parse_short {t e : List Char} (few : t.length < 8) (blank : Blank e) (s : State) :
    parseHexLine iso (':' :: (t ++ e)) s = .error .refused := by
  have short : (':' :: (t ++ e)).length < 11 := by
    have := blank.length
    simp only [List.length_cons, List.length_append]
    omega
  have refused : header (':' :: (t ++ e)) = .error .refused :=
    (if_neg (not_not_intro rfl)).trans (if_pos short)
  rw [parseHexLine, refused]
  rfl

/-- A line of the three kinds has none. -/
theorem Fault.undefined {s : State} {line : List Char} (fault : Fault iso s line) :
    parseHexLine iso line s = .error .undefined := by
  cases fault with
  | @wraps t d u l high low b bs header data len some below outside =>
    have enough : 2 + 2 * l.toNat ≤ (d ++ u).length := by
      rw [List.length_append, spells_length data, List.length_cons]
      omega
    have nonzero : l ≠ 0#8 := by
      rintro rfl
      exact absurd len (Nat.succ_ne_zero _).symm
    rw [parseHexLine_spells header enough below, if_pos rfl,
      dataLine_undefined data nonzero outside]
  | cut header data len code below =>
    have blank : Blank ['\x0D', '\n'] := .inr (.inr rfl)
    exact (parse_fields_iff header data len (v := []) (List.forall_mem_nil _) blank (by decide)).2
      ⟨below, .inr (.inl ⟨code, rfl⟩)⟩
  | @sign t d u l high low c bs header data some below signs =>
    obtain ⟨as, rfl, rfl, a, b, check, rfl, read, sums, large⟩ := signs
    have four : (4#8 : BitVec 8) ≠ 0#8 ∧ (4#8 : BitVec 8) ≠ 1#8 := by decide
    have enough : 2 + 2 * (2#8 : BitVec 8).toNat ≤ (d ++ u).length := by
      rw [List.length_append, spells_length data]
      exact (Nat.add_comm 2 4).le.trans (Nat.add_le_add_left some 4)
    rw [parseHexLine_spells header enough below, if_neg four.1, if_neg four.2,
      if_neg (by decide), if_pos ⟨rfl, rfl⟩, extended_undefined_iff data]
    exact .inr ⟨⟨as, by omega⟩, check, read, sums⟩

/-- **A line of digits has a result, but for the three kinds.** -/
theorem parse_digits_iff {t e : List Char} (all : Digits t) (blank : Blank e) (s : State) :
    parseHexLine iso (':' :: (t ++ e)) s = .error .undefined ↔ Fault iso s (':' :: (t ++ e)) := by
  constructor
  · intro stopped
    rcases Nat.lt_or_ge t.length 8 with few | eight
    · rw [parse_short few blank] at stopped
      cases stopped
    obtain ⟨t, v, rfl, len⟩ : ∃ t' v, t = t' ++ v ∧ t'.length = 8 :=
      ⟨t.take 8, t.drop 8, (List.take_append_drop 8 t).symm, List.length_take_of_le eight⟩
    obtain ⟨bytes, four, header⟩ := spells_of_digits (n := 4) all.left len
    obtain ⟨l, high, low, c, rfl⟩ := four_bytes four
    rw [List.append_assoc] at stopped ⊢
    by_cases long : 2 + 2 * l.toNat ≤ (v ++ e).length
    · have most := blank.length
      rw [List.length_append] at long
      obtain ⟨d, w, rfl, two⟩ : ∃ d w, v = d ++ w ∧ d.length = 2 * l.toNat :=
        ⟨v.take _, v.drop _, (List.take_append_drop _ v).symm, List.length_take_of_le (by omega)⟩
      obtain ⟨bs, count, data⟩ := spells_of_digits all.right.left two
      have more : 2 ≤ (w ++ e).length := by
        simp only [List.length_append] at long ⊢
        omega
      rw [List.append_assoc] at stopped ⊢
      obtain ⟨below, ⟨rfl, some, outside⟩ | ⟨code, rfl⟩ | signs⟩ :=
        (parse_fields_iff header data count.symm all.right.right blank more).1 stopped
      · have : l.toNat ≠ 0 := fun eq => some (BitVec.eq_of_toNat_eq eq)
        obtain ⟨b, bs, rfl⟩ := List.exists_cons_of_length_pos (show 0 < bs.length by omega)
        exact .wraps header data count.symm more below outside
      · obtain rfl : e = ['\x0D', '\n'] := by
          rcases blank with (rfl | rfl) | rfl | rfl
          · exact absurd more (by decide)
          · exact absurd more (by decide)
          · exact absurd more (by decide)
          · rfl
        exact .cut header data count.symm code below
      · exact .sign header data more below signs
    · rw [parseHexLine, header_spells header, if_pos (Nat.not_le.1 long)] at stopped
      cases stopped
  · exact fun fault => fault.undefined

/-! ## Files of digits -/

/-- What is read at once of a line with its end. -/
def piece (line e : List Char) : List Char := (line ++ e).take (bufSize - 1)

/-- Reading on from `s` comes to a line of the three kinds. -/
def Comes (iso : Bool) (lines : List (List Char)) (file : List Char) (s : State) : Prop :=
  ∃ before line after e more s', lines = before ++ line :: after ∧
    file = text before ++ (line ++ (e ++ more)) ∧ Ends e more ∧
    readFrom iso (text before) s = .ok s' ∧ s'.endRecordSeen = false ∧
    Fault iso s' (piece line e)

theorem not_comes_nil (file : List Char) (s : State) : ¬Comes iso [] file s := by
  rintro ⟨before, line, after, _, _, _, eq, -⟩
  exact List.append_ne_nil_of_right_ne_nil _ (List.cons_ne_nil _ _) eq.symm

theorem text_line (line : List Char) (lines : List (List Char)) :
    text (line :: lines) = line ++ (['\n'] ++ text lines) := by
  simpa using IntelHex.text_cons line lines []

/-- The characters of a line of digits behind its colon. -/
theorem Digital.behind {line : List Char} (h : Digital line) :
    ∃ t, line = ':' :: t ∧ Text t ∧ ':' ∉ t := by
  obtain ⟨t, cr, rfl, all, back⟩ := h
  refine ⟨t ++ cr, rfl, (hexDigit_text all).append (cr_text back), ?_⟩
  rw [List.mem_append, not_or]
  refine ⟨fun mem => hexDigit_ne (all ':' mem) (by decide) rfl, ?_⟩
  rcases back with rfl | rfl <;> decide

theorem Digital.text {line : List Char} (h : Digital line) : Text line := by
  obtain ⟨t, cr, rfl, all, back⟩ := h
  exact digits_text all back

/-- What is read at once is a colon and digits, too. -/
theorem Digital.piece {line e more : List Char} (h : Digital line) (ends : Ends e more)
    (s : State) :
    parseHexLine iso (piece line e) s = .error .undefined ↔ Fault iso s (piece line e) := by
  obtain ⟨t, cr, rfl, all, back⟩ := h
  have size : bufSize - 1 = 1023 := rfl
  have colon (u : List Char) :
      (':' :: u).take (bufSize - 1) = ':' :: u.take 1022 := rfl
  have split : HidBootloaderCli.piece (':' :: (t ++ cr)) e =
      ':' :: (t.take 1022 ++ (cr ++ e).take (1022 - t.length)) := by
    rw [HidBootloaderCli.piece, List.cons_append, colon, List.append_assoc, List.take_append]
  rw [split]
  refine parse_digits_iff (fun c mem => all c (List.mem_of_mem_take mem)) ?_ s
  generalize 1022 - t.length = n
  rcases back with rfl | rfl <;> rcases ends with rfl | ⟨rfl, -⟩ <;>
    obtain _ | _ | n := n <;> simp [Blank]

/-- What is behind the first characters of a long line is refused. -/
theorem readFrom_tail {c : Char} (colon : c ≠ ':') (nul : c ≠ '\x00') (rest : List Char)
    (s : State) : readFrom iso (c :: rest) s = .error .refused := by
  obtain ⟨p, more, first⟩ : ∃ p more, fgets (bufSize - 1) (c :: rest) = (c :: p, more) := by
    change ∃ p more, (if c = '\n' then ([c], rest) else
      (c :: (fgets 1022 rest).1, (fgets 1022 rest).2)) = (c :: p, more)
    split
    · exact ⟨[], rest, rfl⟩
    · exact ⟨_, _, rfl⟩
  have buffer : cString (c :: p) = c :: cString p :=
    List.takeWhile_cons_of_pos (decide_eq_true nul)
  have refused : parseHexLine iso (c :: cString p) s = .error .refused := by
    have head : header (c :: cString p) = .error .refused :=
      if_pos fun eq => colon (Option.some.inj eq)
    rw [parseHexLine, head]
    rfl
  rw [readFrom, List.length_cons, readLoop, if_neg (List.cons_ne_nil c rest), first, readLine,
    buffer, if_neg (List.cons_ne_nil _ _), refused]
  rfl

/-- What is left of a file behind the first piece of a line. -/
def left (line e more : List Char) : List Char :=
  if line.length < bufSize - 1 then more else line.drop (bufSize - 1) ++ (e ++ more)

/-- A line of digits and the file behind it, where the line need not be read at once. -/
theorem readFrom_digital {line e more : List Char} (h : Digital line) (ends : Ends e more)
    (s : State) : readFrom iso (line ++ (e ++ more)) s =
      (parseHexLine iso (piece line e) s).bind fun s' =>
        if s'.endRecordSeen then .ok s' else readFrom iso (left line e more) s' := by
  obtain ⟨t, rfl, -, -⟩ := h.behind
  by_cases short : (':' :: t).length < bufSize - 1
  · have whole : piece (':' :: t) e = ':' :: t ++ e := by
      refine List.take_of_length_le ?_
      have one : e.length ≤ 1 := by rcases ends with rfl | ⟨rfl, -⟩ <;> decide
      rw [List.length_append]
      omega
    rw [left, if_pos short, whole]
    exact readFrom_line ⟨h.text, short⟩ (List.cons_ne_nil ':' t) ends s
  · have long : bufSize - 1 ≤ (':' :: t).length := Nat.not_lt.1 short
    have first : piece (':' :: t) e = (':' :: t).take (bufSize - 1) :=
      List.take_append_of_le_length long
    rw [left, if_neg short, first]
    refine readFrom_piece (fgets_take h.text.1 long (e ++ more)) (List.cons_ne_nil ':' _) ?_ s
    exact fun mem => h.text.2 (List.mem_of_mem_take mem)

/-- Behind a line that is read at once is the file. -/
theorem left_short {line e more : List Char} (short : line.length < bufSize - 1) :
    left line e more = more := if_pos short

/-- Behind the first piece of a longer line is nothing, or what is refused. -/
theorem left_long (iso : Bool) {line e more : List Char} (h : Digital line) (ends : Ends e more)
    (long : ¬line.length < bufSize - 1) (s : State) :
    e = [] ∧ readFrom iso (left line e more) s = .ok s ∨
      readFrom iso (left line e more) s = .error .refused := by
  obtain ⟨t, rfl, text, colon⟩ := h.behind
  have drop : (':' :: t).drop (bufSize - 1) = t.drop 1022 := rfl
  rw [left, if_neg long, drop]
  cases tail : t.drop 1022 with
  | nil =>
    rcases ends with rfl | ⟨rfl, rfl⟩
    · exact .inr (readFrom_tail (by decide) (by decide) _ s)
    · exact .inl ⟨rfl, rfl⟩
  | cons c u =>
    have mem : c ∈ t := List.mem_of_mem_drop (tail ▸ List.mem_cons_self)
    refine .inr (readFrom_tail ?_ ?_ _ s)
    · exact fun eq => colon (eq ▸ mem)
    · exact fun eq => text.2 (eq ▸ mem)

theorem Ends.unique {e e' more more' : List Char} (h : Ends e more) (h' : Ends e' more')
    (same : e ++ more = e' ++ more') : e = e' ∧ more = more' := by
  rcases h with rfl | ⟨rfl, rfl⟩ <;> rcases h' with rfl | ⟨rfl, rfl⟩
  · exact ⟨rfl, List.append_cancel_left same⟩
  · cases same
  · cases same
  · exact ⟨rfl, rfl⟩

/-- It is the first line, or that has a result and one of the others is. -/
theorem comes_cons {line e more : List Char} {lines : List (List Char)}
    (digital : ∀ line' ∈ line :: lines, Digital line') (ends : Ends e more) {s : State}
    (going : s.endRecordSeen = false) :
    Comes iso (line :: lines) (line ++ (e ++ more)) s ↔ Fault iso s (piece line e) ∨
      ∃ s₁, parseHexLine iso (piece line e) s = .ok s₁ ∧ s₁.endRecordSeen = false ∧
        line.length < bufSize - 1 ∧ Comes iso lines more s₁ := by
  have h := digital line List.mem_cons_self
  constructor
  · rintro ⟨before, line', after, e', more', s', eq, file, ends', read, going', here⟩
    cases before with
    | nil =>
      cases read
      obtain ⟨rfl, rfl⟩ := List.cons.inj eq
      obtain ⟨rfl, rfl⟩ := ends.unique ends' (List.append_cancel_left file)
      exact .inl here
    | cons line'' before =>
      obtain ⟨rfl, rfl⟩ := List.cons.inj eq
      rw [text_line, List.append_assoc, List.append_assoc] at file
      obtain ⟨rfl, rfl⟩ := ends.unique (.inl rfl) (List.append_cancel_left file)
      rw [text_line, readFrom_digital h (.inl rfl)] at read
      cases parsed : parseHexLine iso (piece line ['\n']) s with
      | error stop =>
        rw [parsed] at read
        cases read
      | ok s₁ =>
        rw [parsed] at read
        change (if s₁.endRecordSeen then _ else _) = _ at read
        cases ended : s₁.endRecordSeen with
        | true =>
          rw [if_pos ended] at read
          cases read
          exact absurd (ended.symm.trans going') Bool.true_eq_false.mp
        | false =>
          rw [if_neg (ended ▸ Bool.false_ne_true)] at read
          by_cases short : line.length < bufSize - 1
          · rw [left_short short] at read
            exact .inr ⟨s₁, rfl, ended, short, before, line', after, e', more', s', rfl, rfl,
              ends', read, going', here⟩
          · rcases left_long iso h (.inl rfl) short s₁ with ⟨none, -⟩ | refused
            · cases none
            · rw [refused] at read
              cases read
  · rintro (here | ⟨s₁, parsed, ended, short, before, line', after, e', more', s', rfl, rfl, ends',
      read, going', here⟩)
    · exact ⟨[], line, lines, e, more, s, rfl, rfl, ends, rfl, going, here⟩
    · have newline : e = ['\n'] := by
        rcases ends with rfl | ⟨-, none⟩
        · rfl
        · obtain ⟨t, rfl, -⟩ := (digital line' (by simp)).behind
          simp at none
      subst newline
      refine ⟨line :: before, line', after, e', more', s', rfl, ?_, ends', ?_, going', here⟩
      · rw [text_line, List.append_assoc, List.append_assoc]
      · rw [text_line, readFrom_digital h (.inl rfl), parsed]
        change (if s₁.endRecordSeen then _ else _) = _
        rw [if_neg (ended ▸ Bool.false_ne_true), left_short short, read]

/-- Reading on has no result if it comes to one of the three kinds of line. -/
theorem readFrom_undefined_iff {lines : List (List Char)} (digital : ∀ line ∈ lines, Digital line)
    {file : List Char} (text : File lines [] file) {s : State} (going : s.endRecordSeen = false) :
    readFrom iso file s = .error .undefined ↔ Comes iso lines file s := by
  induction lines generalizing file s with
  | nil =>
    cases text
    exact ⟨fun h => (by cases h), fun h => absurd h (not_comes_nil [] s)⟩
  | cons line lines ih =>
    obtain ⟨e, more, ends, rfl, rest⟩ := File.first text
    have h := digital line List.mem_cons_self
    rw [comes_cons digital ends going, ← h.piece ends, readFrom_digital h ends]
    cases parsed : parseHexLine iso (piece line e) s with
    | error stop =>
      refine (or_iff_left ?_).symm
      rintro ⟨s₁, ok, -⟩
      cases ok
    | ok s₁ =>
      change (if s₁.endRecordSeen then _ else _) = _ ↔ _
      cases ended : s₁.endRecordSeen with
      | true =>
        rw [if_pos rfl]
        refine ⟨fun h => (by cases h), ?_⟩
        rintro (undefined | ⟨s₂, ok, going', -⟩)
        · cases undefined
        · cases ok
          exact absurd (ended.symm.trans going') Bool.true_eq_false.mp
      | false =>
        rw [if_neg Bool.false_ne_true]
        by_cases short : line.length < bufSize - 1
        · rw [left_short short, ih (fun line mem => digital line (.tail _ mem)) rest ended]
          refine ⟨fun on => .inr ⟨s₁, rfl, ended, short, on⟩, ?_⟩
          rintro (undefined | ⟨s₂, ok, -, -, on⟩)
          · cases undefined
          · cases ok
            exact on
        · refine iff_of_false (fun undefined => ?_) ?_
          · rcases left_long iso h ends short s₁ with ⟨-, ok⟩ | refused
            · rw [ok] at undefined
              cases undefined
            · rw [refused] at undefined
              cases undefined
          · rintro (undefined | ⟨_, _, _, fits, _⟩)
            · cases undefined
            · exact short fits

/-- **Reading a file of digits has a result, unless it comes to one of the three kinds of line.**
The lines may be of any length, and the last one need not have its end. -/
theorem undefined_iff {lines : List (List Char)} (digital : ∀ line ∈ lines, Digital line)
    {file : List Char} (text : File lines [] file) :
    readIntelHex iso file = .error .undefined ↔
      ∃ before line after e more s, lines = before ++ line :: after ∧
        file = IntelHex.text before ++ (line ++ (e ++ more)) ∧ Ends e more ∧
        readIntelHex iso (IntelHex.text before) = .ok s ∧ s.endRecordSeen = false ∧
        Fault iso s (piece line e) :=
  readFrom_undefined_iff digital text rfl

theorem undefined_iff_cut :
    readIntelHex true (text [":020000040000FA".toList, ":0100000041\x0D".toList] ++ []) =
      .error .undefined := by
  have zero : Spells "020000040000FA".toList [2#8, 0#8, 0#8, 4#8, 0#8, 0#8, 0xFA#8] := by decide
  have base : Digital ":020000040000FA".toList :=
    ⟨"020000040000FA".toList, [], rfl, spells_digits zero, .inl rfl⟩
  have byte : Spells "0100000041".toList [1#8, 0#8, 0#8, 0#8, 0x41#8] := by decide
  have cut : Digital ":0100000041\x0D".toList :=
    ⟨"0100000041".toList, ['\x0D'], rfl, spells_digits byte, .inr rfl⟩
  have digital : ∀ line ∈ [":020000040000FA".toList, ":0100000041\x0D".toList],
      Digital line := by
    intro line mem
    rcases List.mem_cons.1 mem with rfl | mem
    · exact base
    · rw [List.mem_singleton.1 mem]
      exact cut
  refine (undefined_iff digital (.of_text _ [])).2
    ⟨[":020000040000FA".toList], _, [], ['\n'], [], _, rfl, rfl, .inl rfl, rfl, rfl, ?_⟩
  exact .cut (t := "01000000".toList) (d := "41".toList) (l := 1#8) (c := 0#8)
    (by decide : Spells _ [1#8, 0#8, 0#8, 0#8]) (by decide : Spells _ [0x41#8]) rfl (.inl rfl)
    (by decide : _ < _)

end HidBootloaderCli

end Teres.Kbd
