import Mathlib.Algebra.BigOperators.Group.List.Basic
import Teres.Kbd.HidBootloaderCli
import Teres.Kbd.IntelHex
import Teres.Laws.Tools.Dump2vLines

/-!
# Lines of digits

What `parse_hex_line` makes of a colon and digits. A field of digits is read as their number
(`scanHex_digits`), the loop over the data stores the bytes that the digits spell
(`dataLoop_spells`), and a line of data is taken if its bytes add up to zero (`dataLine_spells`).
-/

namespace Teres.Kbd

open Tools.Cod5asm (isspace skipSpace)
open Tools.Dump2v (hexDigit hexValue hexDigit_ne hexDigit_space)
open IntelHex (Spells)

namespace HidBootloaderCli

/-! ## One field -/

/-- Every character is a digit. -/
def Digits (s : List Char) : Prop := ∀ c ∈ s, (hexDigit c).isSome = true

instance (s : List Char) : Decidable (Digits s) := inferInstanceAs (Decidable (∀ c ∈ s, _))

theorem Digits.append {s t : List Char} (left : Digits s) (right : Digits t) : Digits (s ++ t) := by
  intro c mem
  rcases List.mem_append.1 mem with mem | mem
  · exact left c mem
  · exact right c mem

theorem Digits.left {s t : List Char} (all : Digits (s ++ t)) : Digits s := fun c mem =>
  all c (List.mem_append_left t mem)

theorem Digits.right {s t : List Char} (all : Digits (s ++ t)) : Digits t := fun c mem =>
  all c (List.mem_append_right s mem)

/-- Nothing is skipped in front of a digit. -/
theorem skipSpace_digit {c : Char} (digit : (hexDigit c).isSome = true) (s : List Char) :
    skipSpace (c :: s) = c :: s := by
  rw [skipSpace, List.dropWhile_cons_of_neg (by simp [hexDigit_space digit])]

theorem digits_cons {c : Char} (digit : (hexDigit c).isSome = true) (s : List Char) :
    digits (c :: s) = some (hexValue (c :: s)) := by
  rw [digits, if_pos]
  exact digit

/-- Digits have no prefix. -/
theorem unsigned_digit {c : Char} {s : List Char} (digit : (hexDigit c).isSome = true)
    (lower : s.head? ≠ some 'x') (upper : s.head? ≠ some 'X') :
    unsigned (c :: s) = some (hexValue (c :: s)) := by
  unfold unsigned
  split
  · next d x r eq =>
    obtain ⟨rfl, rfl⟩ := List.cons.inj eq
    rw [if_neg]
    · exact digits_cons digit _
    · rintro ⟨_, rfl | rfl⟩
      · exact lower rfl
      · exact upper rfl
  · exact digits_cons digit s

/-- A field that begins with a digit, in a text without an `x` behind it. -/
theorem scanHex_digit {c : Char} {s : List Char} (digit : (hexDigit c).isSome = true)
    (lower : s.head? ≠ some 'x') (upper : s.head? ≠ some 'X') (n : ℕ) :
    scanHex (n + 1) (c :: s) = .read (hexValue ((c :: s).take (n + 1))) := by
  have minus : c ≠ '-' := hexDigit_ne digit (by decide)
  have plus : c ≠ '+' := hexDigit_ne digit (by decide)
  have next (d : Char) (other : s.head? ≠ some d) : (s.take n).head? ≠ some d := by
    cases n with
    | zero => simp
    | succ n =>
      cases s with
      | nil => simp
      | cons => exact other
  unfold scanHex
  rw [skipSpace_digit digit]
  dsimp only
  rw [if_neg minus, if_neg plus, List.take_succ_cons,
    unsigned_digit digit (next _ lower) (next _ upper)]
  rfl

/-- **A field of digits is read as their number.** -/
theorem scanHex_digits {s : List Char} (all : Digits s) {n : ℕ} (len : s.length = n + 2)
    (rest : List Char) : scanHex (n + 2) (s ++ rest) = .read (hexValue s) := by
  match s, len with
  | c :: d :: s, len =>
    have digit : (hexDigit d).isSome = true := all d (by simp)
    have other (e : Char) (none : hexDigit e = .none) : (d :: s ++ rest).head? ≠ some e :=
      fun eq => hexDigit_ne digit none (Option.some.inj eq)
    rw [List.cons_append, scanHex_digit (all c List.mem_cons_self) (other 'x' (by decide))
      (other 'X' (by decide)), ← List.cons_append, List.take_left' len]

/-! ## Bytes -/

section Bytes

variable {t u : List Char} {bs cs : List (BitVec 8)}

theorem spells_digits (h : Spells t bs) : Digits t := by
  induction h with
  | nil => exact fun c mem => absurd mem List.not_mem_nil
  | cons high low _ ih =>
    intro c mem
    rcases List.mem_cons.1 mem with rfl | mem
    · exact Option.isSome_of_eq_some high
    · rcases List.mem_cons.1 mem with rfl | mem
      · exact Option.isSome_of_eq_some low
      · exact ih c mem

theorem spells_length (h : Spells t bs) : t.length = 2 * bs.length := by
  induction h with
  | nil => rfl
  | cons _ _ _ ih =>
    simp only [List.length_cons, ih]
    omega

/-- Two digits and the bytes behind them. -/
theorem spells_cons_iff {b : BitVec 8} : Spells t (b :: bs) ↔ ∃ c d u, t = c :: d :: u ∧
    hexDigit c = some (b.toNat / 16) ∧ hexDigit d = some (b.toNat % 16) ∧ Spells u bs := by
  constructor
  · rintro (_ | ⟨high, low, rest⟩)
    exact ⟨_, _, _, rfl, high, low, rest⟩
  · rintro ⟨c, d, u, rfl, high, low, rest⟩
    exact .cons high low rest

theorem spells_append_iff :
    Spells t (bs ++ cs) ↔ ∃ u v, t = u ++ v ∧ Spells u bs ∧ Spells v cs := by
  induction bs generalizing t with
  | nil =>
    constructor
    · exact fun h => ⟨[], t, rfl, .nil, h⟩
    · rintro ⟨_, v, rfl, _ | _, h⟩
      exact h
  | cons b bs ih =>
    rw [List.cons_append, spells_cons_iff]
    constructor
    · rintro ⟨c, d, r, rfl, high, low, rest⟩
      obtain ⟨u, v, rfl, left, right⟩ := ih.1 rest
      exact ⟨c :: d :: u, v, rfl, .cons high low left, right⟩
    · rintro ⟨_, v, rfl, left, right⟩
      obtain ⟨c, d, u, rfl, high, low, rest⟩ := spells_cons_iff.1 left
      exact ⟨c, d, u ++ v, rfl, high, low, ih.2 ⟨u, v, rfl, rest, right⟩⟩

/-- Whether a text is one of two digits for each byte. -/
def spells : List Char → List (BitVec 8) → Bool
  | [], [] => true
  | c :: d :: t, b :: bs =>
    hexDigit c = some (b.toNat / 16) && hexDigit d = some (b.toNat % 16) && spells t bs
  | _, _ => false

theorem spells_iff : spells t bs = true ↔ Spells t bs := by
  induction bs generalizing t with
  | nil =>
    cases t with
    | nil => exact ⟨fun _ => .nil, fun _ => rfl⟩
    | cons c t =>
      refine ⟨fun h => ?_, fun h => (by cases h)⟩
      cases t <;> exact absurd h Bool.false_ne_true
  | cons b bs ih =>
    rw [spells_cons_iff]
    rcases t with _ | ⟨c, _ | ⟨d, t⟩⟩
    · refine ⟨fun h => absurd h Bool.false_ne_true, ?_⟩
      rintro ⟨_, _, _, eq, _⟩
      cases eq
    · refine ⟨fun h => absurd h Bool.false_ne_true, ?_⟩
      rintro ⟨_, _, _, eq, _⟩
      cases eq
    · rw [spells, Bool.and_eq_true, Bool.and_eq_true, decide_eq_true_eq, decide_eq_true_eq, ih]
      constructor
      · rintro ⟨⟨high, low⟩, rest⟩
        exact ⟨c, d, t, rfl, high, low, rest⟩
      · rintro ⟨_, _, _, eq, high, low, rest⟩
        cases eq
        exact ⟨⟨high, low⟩, rest⟩

instance (t : List Char) (bs : List (BitVec 8)) : Decidable (Spells t bs) :=
  decidable_of_iff _ spells_iff

theorem hexValue_pair {c d : Char} {m n : ℕ} (high : hexDigit c = some m)
    (low : hexDigit d = some n) : hexValue [c, d] = 16 * m + n := by
  simp [hexValue, List.takeWhile, high, low]

theorem hexValue_four {c d e f : Char} {m n o p : ℕ} (hc : hexDigit c = some m)
    (hd : hexDigit d = some n) (he : hexDigit e = some o) (hf : hexDigit f = some p) :
    hexValue [c, d, e, f] = 16 * (16 * (16 * m + n) + o) + p := by
  simp [hexValue, List.takeWhile, hc, hd, he, hf]

/-- **Two digits are read as their byte.** -/
theorem scanHex_byte {b : BitVec 8} (h : Spells t (b :: bs)) (rest : List Char) :
    scanHex 2 (t ++ rest) = .read b.toNat := by
  obtain ⟨c, d, u, rfl, high, low, _⟩ := spells_cons_iff.1 h
  have pair : Digits [c, d] := (spells_digits h).left (t := u)
  have read := scanHex_digits pair (n := 0) rfl (u ++ rest)
  rw [hexValue_pair high low, Nat.div_add_mod] at read
  exact read

theorem word_toNat (a b : BitVec 8) : (a ++ b).toNat = a.toNat * 256 + b.toNat := by
  rw [BitVec.toNat_append, ← Nat.shiftLeft_add_eq_or_of_lt b.isLt, Nat.shiftLeft_eq]

/-- Four digits are read as the number of their two bytes. -/
theorem scanHex_word {a b : BitVec 8} (h : Spells t (a :: b :: bs)) (rest : List Char) :
    scanHex 4 (t ++ rest) = .read (a ++ b).toNat := by
  obtain ⟨c, d, u, rfl, hc, hd, h'⟩ := spells_cons_iff.1 h
  obtain ⟨e, f, v, rfl, he, hf, _⟩ := spells_cons_iff.1 h'
  have four : Digits [c, d, e, f] := (spells_digits h).left (t := v)
  have read := scanHex_digits four (n := 2) rfl (v ++ rest)
  have value : 16 * (16 * (16 * (a.toNat / 16) + a.toNat % 16) + b.toNat / 16) + b.toNat % 16 =
      (a ++ b).toNat := by
    rw [word_toNat]
    omega
  rw [hexValue_four hc hd he hf, value] at read
  exact read

end Bytes

/-! ## Sums -/

/-- The sum of bytes, as the code has it. -/
def total (bs : List (BitVec 8)) : ℤ := (bs.map fun b => (b.toNat : ℤ)).sum

@[simp] theorem total_nil : total [] = 0 := rfl

@[simp] theorem total_cons (b : BitVec 8) (bs : List (BitVec 8)) :
    total (b :: bs) = b.toNat + total bs := by simp [total]

@[simp] theorem total_append (bs cs : List (BitVec 8)) :
    total (bs ++ cs) = total bs + total cs := by simp [total]

theorem total_mod (bs : List (BitVec 8)) : total bs % 256 = bs.sum.toNat := by
  induction bs with
  | nil => rfl
  | cons b bs ih =>
    rw [total_cons, List.sum_cons, BitVec.toNat_add]
    omega

/-- The sum is zero in its low eight bits. -/
theorem total_zero_iff (bs : List (BitVec 8)) : total bs % 256 = 0 ↔ bs.sum = 0#8 := by
  rw [total_mod, ← BitVec.toNat_inj]
  exact Int.natCast_eq_zero

/-! ## The header -/

/-- What stands in front of the data. -/
def head (l high low c : BitVec 8) : Header := ⟨l.toNat, (high ++ low).toNat, c.toNat⟩

theorem head_sum (l high low c : BitVec 8) : (head l high low c).sum = total [l, high, low, c] := by
  have := l.isLt
  have := high.isLt
  have := low.isLt
  have := c.isLt
  simp only [head, Header.sum, word_toNat, total_cons, total_nil]
  omega

/-- The header of a line whose fields are read. -/
theorem header_eq {line : List Char} {len addr code : ℤ} (colon : line.head? = some ':')
    (hl : scanHex 2 (line.drop 1) = .read len) (ha : scanHex 4 (line.drop 3) = .read addr)
    (hc : scanHex 2 (line.drop 7) = .read code) :
    header line = if line.length < 11 ∨ line.length < 11 + len * 2 then .error .refused
      else .ok ⟨len, addr, code⟩ := by
  unfold header
  rw [if_neg (not_not_intro colon), hl, ha, hc]
  by_cases short : line.length < 11
  · rw [if_pos short, if_pos (.inl short)]
  · rw [if_neg short]
    by_cases shorter : (line.length : ℤ) < 11 + len * 2
    · rw [if_pos (.inr shorter)]
      exact if_pos shorter
    · rw [if_neg (not_or_intro short shorter)]
      exact if_neg shorter

section Line

variable {iso : Bool} {t u : List Char} {l high low c : BitVec 8}

/-- **The header of a line**, if the line is as long as it says. -/
theorem header_spells (h : Spells t [l, high, low, c]) (u : List Char) :
    header (':' :: (t ++ u)) =
      if u.length < 2 + 2 * l.toNat then .error .refused else .ok (head l high low c) := by
  have eight : t.length = 8 := spells_length h
  obtain ⟨_, _, _, rfl, _, _, h₁⟩ := spells_cons_iff.1 h
  obtain ⟨_, _, _, rfl, _, _, h₂⟩ := spells_cons_iff.1 h₁
  obtain ⟨_, _, _, rfl, _, _, h₃⟩ := spells_cons_iff.1 h₂
  refine (header_eq rfl ?_ ?_ ?_).trans (if_congr ?_ rfl rfl)
  · exact scanHex_byte h u
  · exact scanHex_word h₁ u
  · exact scanHex_byte h₃ u
  · rw [List.length_cons, List.length_append, eight]
    omega

/-- Where the bytes of a line end is below the limit. -/
def Below (s : State) (l high low : BitVec 8) : Prop :=
  (BitVec.ofNat 32 (high ++ low).toNat + s.extendedAddr + BitVec.ofNat 32 l.toNat).toNat <
    maxMemorySize

/-- **A line by its code.** -/
theorem parseHexLine_spells (h : Spells t [l, high, low, c]) (long : 2 + 2 * l.toNat ≤ u.length)
    {s : State} (below : Below s l high low) : parseHexLine iso (':' :: (t ++ u)) s =
      if c = 0#8 then dataLine (head l high low c) u s
      else if c = 1#8 then .ok { s with endRecordSeen := true }
      else if c = 2#8 ∧ l = 2#8 then extended iso 4 (head l high low c) u s
      else if c = 4#8 ∧ l = 2#8 then extended iso 16 (head l high low c) u s
      else .ok s := by
  have rest : (':' :: (t ++ u)).drop 9 = u := by
    have eight : t.length = 8 := spells_length h
    rw [List.drop_succ_cons, List.drop_left' eight]
  have code (n : ℕ) (small : n < 256) : ((c.toNat : ℤ) = n) = (c = BitVec.ofNat 8 n) := by
    rw [Nat.cast_inj, ← BitVec.toNat_inj, BitVec.toNat_ofNat, Nat.mod_eq_of_lt small]
  have len : ((l.toNat : ℤ) = 2) = (l = 2#8) := by
    rw [← BitVec.toNat_inj]
    exact propext Nat.cast_inj
  unfold parseHexLine
  rw [header_spells h, if_neg (Nat.not_lt.2 long), rest]
  refine (if_neg (Nat.not_le.2 below)).trans ?_
  have zero := code 0 (by decide)
  have one := code 1 (by decide)
  have two := code 2 (by decide)
  have four := code 4 (by decide)
  simp only [head, Nat.cast_ofNat, Nat.cast_zero, Nat.cast_one] at zero one two four ⊢
  simp only [zero, one, two, four, len]

/-- A line that reaches the limit. -/
theorem parseHexLine_beyond (h : Spells t [l, high, low, c]) (long : 2 + 2 * l.toNat ≤ u.length)
    {s : State} (beyond : ¬Below s l high low) :
    parseHexLine iso (':' :: (t ++ u)) s = .error .refused := by
  unfold parseHexLine
  rw [header_spells h, if_neg (Nat.not_lt.2 long)]
  exact if_pos (Nat.not_lt.1 beyond)

end Line

/-! ## Data -/

/-- Bytes stored one behind the other. -/
def State.storeAll (s : State) (start : ℕ) : List (BitVec 8) → State
  | [] => s
  | b :: bs => (s.store start b).storeAll (start + 1) bs

/-- **The loop stores what the digits spell.** -/
theorem dataLoop_spells {d : List Char} {bs : List (BitVec 8)} (h : Spells d bs) {n len : ℕ}
    (all : n + bs.length = len) (short : len < 256) {place : BitVec 32}
    (inside : place.toNat + len ≤ maxMemorySize) (u : List Char) (sum : ℤ) (s : State) :
    dataLoop len place (256 - n) (d ++ u) sum s =
      .ok (sum + total bs, u, s.storeAll (place.toNat + n) bs) := by
  induction h generalizing n sum s with
  | nil =>
    obtain ⟨k, eq⟩ := Nat.exists_eq_succ_of_ne_zero (show 256 - n ≠ 0 by omega)
    rw [eq, dataLoop, if_pos (by rw [List.length_nil] at all; omega)]
    simp [State.storeAll]
  | @cons e f b d bs high low rest ih =>
    rw [List.length_cons] at all
    obtain ⟨k, eq⟩ := Nat.exists_eq_succ_of_ne_zero (show 256 - n ≠ 0 by omega)
    have read := scanHex_byte (Spells.cons high low rest) u
    have num : 255 - k = n := by omega
    have index : (place + BitVec.ofNat 32 n).toNat = place.toNat + n := by
      have limit : maxMemorySize = 65536 := rfl
      rw [BitVec.toNat_add, BitVec.toNat_ofNat]
      omega
    have byte : BitVec.ofInt 8 b.toNat = b := by simp
    have small : (b.toNat : ℤ) % 256 = b.toNat := by
      have := b.isLt
      omega
    rw [eq, dataLoop, if_neg (by omega), read]
    dsimp only
    rw [num, index, byte, small, if_neg (by simp; omega)]
    have next : k = 256 - (n + 1) := by omega
    rw [next]
    refine (ih (by omega) _ _).trans ?_
    rw [total_cons, add_assoc]
    rfl

/-- What is behind the data of a line. -/
theorem dataLine_eq {h : Header} {ptr rest : List Char} {s s' : State} {sum : ℤ}
    (loop : dataLoop h.len (h.place s) 256 ptr h.sum { s with byteCount := s.byteCount + h.len } =
      .ok (sum, rest, s')) :
    dataLine h ptr s = (expect (scanHex 2 rest)).bind fun check =>
      if (sum + check) % 256 ≠ 0 then .error .refused else .ok s' := by
  rw [dataLine, loop]
  rfl

section Data

variable {d : List Char} {l high low : BitVec 8} {bs : List (BitVec 8)} {s : State}

/-- What is left to do in a line of data, once its data are stored. -/
theorem dataLine_stored (data : Spells d bs) (all : bs.length = l.toNat)
    (inside : ((head l high low 0#8).place s).toNat + l.toNat ≤ maxMemorySize) (u : List Char) :
    dataLine (head l high low 0#8) (d ++ u) s = (expect (scanHex 2 u)).bind fun check =>
      if (total (l :: high :: low :: 0#8 :: bs) + check) % 256 ≠ 0 then .error .refused
      else .ok ({ s with byteCount := s.byteCount + l.toNat }.storeAll
        ((head l high low 0#8).place s).toNat bs) := by
  have count : 0 + bs.length = l.toNat := by omega
  have loop := dataLoop_spells data count l.isLt inside u
    (head l high low 0#8).sum { s with byteCount := s.byteCount + l.toNat }
  refine (dataLine_eq loop).trans ?_
  rw [head_sum]
  simp only [total_cons, total_nil, add_zero, add_assoc]

/-- **A line of data is taken if its bytes add up to zero.** -/
theorem dataLine_spells {k : List Char} {check : BitVec 8} (data : Spells d bs)
    (sum : Spells k [check]) (all : bs.length = l.toNat)
    (inside : ((head l high low 0#8).place s).toNat + l.toNat ≤ maxMemorySize) (u : List Char) :
    dataLine (head l high low 0#8) (d ++ (k ++ u)) s =
      if (l :: high :: low :: 0#8 :: (bs ++ [check])).sum = 0#8 then
        .ok ({ s with byteCount := s.byteCount + l.toNat }.storeAll
          ((head l high low 0#8).place s).toNat bs)
      else .error .refused := by
  rw [dataLine_stored data all inside, scanHex_byte sum]
  refine (ite_not _ _ _).trans (if_congr ?_ rfl rfl)
  rw [← total_zero_iff]
  simp only [total_cons, total_append, total_nil, add_zero, add_assoc]

/-- At the end of the addresses the first byte has no place. -/
theorem dataLoop_beyond {b : BitVec 8} (data : Spells d (b :: bs)) {len : ℤ} (some : len ≠ 0)
    {place : BitVec 32} (beyond : maxMemorySize ≤ place.toNat) (u : List Char) (sum : ℤ) :
    dataLoop len place 256 (d ++ u) sum s = .error .undefined := by
  rw [dataLoop, if_neg (fun eq => some eq.symm), scanHex_byte data]
  refine if_pos (.inl ?_)
  rw [Nat.sub_self, BitVec.add_zero]
  exact beyond

theorem dataLine_undefined {b : BitVec 8} (data : Spells d (b :: bs)) (some : l ≠ 0#8)
    (beyond : maxMemorySize ≤ ((head l high low 0#8).place s).toNat) (u : List Char) :
    dataLine (head l high low 0#8) (d ++ u) s = .error .undefined := by
  have len : (l.toNat : ℤ) ≠ 0 := fun eq => some (BitVec.eq_of_toNat_eq (Nat.cast_eq_zero.1 eq))
  rw [dataLine]
  exact congrArg (· >>= _) (dataLoop_beyond data len beyond u _)

end Data

/-! ## The image -/

/-- The byte of the image at an address. -/
def State.byte (s : State) (a : ℕ) : Option (BitVec 8) :=
  if s.mask a then some (s.image a) else none

theorem State.store_byte (s : State) (index : ℕ) (b : BitVec 8) (a : ℕ) :
    (s.store index b).byte a = if a = index then some b else s.byte a := by
  by_cases at_index : a = index
  · simp [State.byte, State.store, at_index]
  · simp [State.byte, State.store, at_index]

/-- **Bytes that are stored are those of the memory**, and all others stay. -/
theorem State.storeAll_byte (s : State) (start : ℕ) (bs : List (BitVec 8)) (a : ℕ) :
    (s.storeAll start bs).byte a =
      if start ≤ a ∧ a < start + bs.length then bs[a - start]? else s.byte a := by
  induction bs generalizing s start with
  | nil => exact (if_neg (by rw [List.length_nil]; omega)).symm
  | cons b bs ih =>
    rw [State.storeAll, ih, State.store_byte, List.length_cons]
    rcases Nat.lt_trichotomy a start with before | rfl | behind
    · rw [if_neg (by omega), if_neg (by omega), if_neg (by omega)]
    · rw [if_neg (by omega), if_pos rfl, if_pos (by omega), Nat.sub_self]
      rfl
    · have next : a - start = a - (start + 1) + 1 := by omega
      rw [next, List.getElem?_cons_succ]
      refine if_congr (by omega) rfl (if_neg (by omega))

@[simp] theorem State.storeAll_extendedAddr (s : State) (start : ℕ) (bs : List (BitVec 8)) :
    (s.storeAll start bs).extendedAddr = s.extendedAddr := by
  induction bs generalizing s start with
  | nil => rfl
  | cons b bs ih => exact ih _ _

@[simp] theorem State.storeAll_byteCount (s : State) (start : ℕ) (bs : List (BitVec 8)) :
    (s.storeAll start bs).byteCount = s.byteCount := by
  induction bs generalizing s start with
  | nil => rfl
  | cons b bs ih => exact ih _ _

@[simp] theorem State.storeAll_endRecordSeen (s : State) (start : ℕ) (bs : List (BitVec 8)) :
    (s.storeAll start bs).endRecordSeen = s.endRecordSeen := by
  induction bs generalizing s start with
  | nil => rfl
  | cons b bs ih => exact ih _ _

/-! ## Base addresses -/

/-- A shift that does not reach the sign. -/
theorem shiftLeft_eq {iso : Bool} {i shift : ℕ} (small : iso = true → i * 2 ^ shift < 2 ^ 31) :
    shiftLeft iso i shift = .ok (BitVec.ofNat 32 (i * 2 ^ shift)) := by
  have cast : (i : ℤ) * 2 ^ shift = (i * 2 ^ shift : ℕ) := by
    push_cast
    rfl
  have fits : ¬(iso = true ∧ ((i : ℤ) < 0 ∨ 2 ^ 31 ≤ (i : ℤ) * 2 ^ shift)) := by
    rintro ⟨as, negative | large⟩
    · omega
    · have := small as
      omega
  rw [shiftLeft, if_neg fits, cast, BitVec.ofInt_natCast]

/-- A shift that has no result. -/
theorem shiftLeft_undefined_iff {iso : Bool} {i shift : ℕ} :
    shiftLeft iso i shift = .error .undefined ↔ iso = true ∧ 2 ^ 31 ≤ i * 2 ^ shift := by
  constructor
  · intro undefined
    by_contra fits
    rw [shiftLeft_eq fun as => Nat.not_le.1 fun large => fits ⟨as, large⟩] at undefined
    cases undefined
  · rintro ⟨as, large⟩
    have sign : (2 : ℤ) ^ 31 ≤ (i : ℤ) * 2 ^ shift := by exact_mod_cast large
    exact if_pos ⟨as, .inr sign⟩

section Base

variable {iso : Bool} {d : List Char} {l high low c a b : BitVec 8}

/-- A line that sets the base address, once its checksum is read. -/
theorem extended_read (data : Spells d [a, b]) {u : List Char} {check : ℤ}
    (sum : scanHex 2 u = .read check) (shift : ℕ) (s : State) :
    extended iso shift (head l high low c) (d ++ u) s =
      if (total [l, high, low, c, a, b] + check) % 256 = 0 then
        (shiftLeft iso (a ++ b).toNat shift).map fun addr => { s with extendedAddr := addr }
      else .ok s := by
  have four : d.length = 4 := spells_length data
  have := a.isLt
  have := b.isLt
  have bytes : ((a ++ b).toNat : ℤ) / 256 % 256 + (a ++ b).toNat % 256 = total [a, b] := by
    rw [word_toNat]
    simp only [total_cons, total_nil]
    omega
  unfold extended
  rw [scanHex_word data]
  dsimp only
  rw [List.drop_left' four, sum]
  dsimp only
  rw [bytes, head_sum, ← total_append]
  exact ite_not _ _ _

/-- **A line that sets the base address is taken if its bytes add up to zero**, and passed over
else. -/
theorem extended_spells {k : List Char} {check : BitVec 8} (data : Spells d [a, b])
    (sum : Spells k [check]) (shift : ℕ) (u : List Char) (s : State) :
    extended iso shift (head l high low c) (d ++ (k ++ u)) s =
      if [l, high, low, c, a, b, check].sum = 0#8 then
        (shiftLeft iso (a ++ b).toNat shift).map fun addr => { s with extendedAddr := addr }
      else .ok s := by
  rw [extended_read data (scanHex_byte sum u)]
  refine if_congr ?_ rfl rfl
  rw [← total_zero_iff]
  simp only [total_cons, total_nil, add_zero, add_assoc]

end Base

end HidBootloaderCli

end Teres.Kbd
