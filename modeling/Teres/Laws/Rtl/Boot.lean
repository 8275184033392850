import Mathlib.Data.List.TakeWhile
import Teres.Laws.Rtl.Cpu
import Teres.Laws.Tools.Dump2v

/-!
# From the listing to the processor

The memory of the SoC includes the table that the firmware converter has written (`caseOf`). Of a
listing that the converter reads as what it is, each word comes to the processor, in order, each
with its address plus four, as far as the bus reaches the memory (`listing_fetched`).
-/

namespace Teres.Rtl.Boot

open Tools.Dump2v

/-- The word of four bytes. -/
def word (w : Bytes) : BitVec 32 := w.b3 ++ w.b2 ++ w.b1 ++ w.b0

/-- The `case` that a table is: the first entry whose label is the address. The digits of its label
and of its word are those of the text (`render_headed`). -/
def caseOf (table : List Item) (address : BitVec 32) : Option (BitVec 32) :=
  ((entries table).find? fun e => BitVec.ofNat 32 (hexValue (hex04 e.1)) == address).map fun e =>
    BitVec.ofNat 32 (hexValue e.2)

/-! ## The table -/

/-- A digit more. -/
def shift (v : ℕ) (c : Char) : ℕ := 16 * v + (hexDigit c).getD 0

theorem hexValue_all {s : List Char} (digits : ∀ c ∈ s, (hexDigit c).isSome = true) :
    hexValue s = s.foldl shift 0 := by
  rw [hexValue, List.takeWhile_eq_self_iff.2 digits]
  rfl

theorem digitChar_eq : ∀ d < 16, hexDigit (Nat.digitChar d) = some d := by decide

/-- The digits of a number are read as the number. -/
theorem toDigits_value (n : ℕ) : (∀ c ∈ Nat.toDigits 16 n, (hexDigit c).isSome = true) ∧
    (Nat.toDigits 16 n).foldl shift 0 = n := by
  induction n using Nat.strong_induction_on with
  | h n ih =>
    rw [Nat.toDigits_eq_if (by decide)]
    split
    · next small =>
      refine ⟨fun c mem => ?_, ?_⟩
      · rw [List.mem_singleton.1 mem, digitChar_eq n small]
        rfl
      · rw [List.foldl_cons, List.foldl_nil, shift, digitChar_eq n small]
        exact Nat.zero_add n
    · obtain ⟨digits, value⟩ := ih (n / 16) (by omega)
      have last := digitChar_eq (n % 16) (Nat.mod_lt _ (by decide))
      refine ⟨fun c mem => ?_, ?_⟩
      · rcases List.mem_append.1 mem with early | late
        · exact digits c early
        · rw [List.mem_singleton.1 late, last]
          rfl
      · rw [List.foldl_append, value, List.foldl_cons, List.foldl_nil, shift, last]
        exact Nat.div_add_mod n 16

/-- The digits of `%04x` are read as the number. -/
theorem hexValue_hex04 {n : ℕ} (small : n < 2 ^ 32) : hexValue (hex04 n) = n := by
  have number : ((n : ℤ) % 2 ^ 32).toNat = n := by omega
  obtain ⟨digits, value⟩ := toDigits_value n
  have zeros (k : ℕ) : (List.replicate k '0').foldl shift 0 = 0 := by
    induction k with
    | zero => rfl
    | succ k ih => exact ih
  rw [hex04, number, hexValue_all, List.foldl_append, zeros, value]
  intro c mem
  rcases List.mem_append.1 mem with zero | digit
  · rw [List.eq_of_mem_replicate zero]
    rfl
  · exact digits c digit

theorem digits_some : ∀ b : BitVec 8,
    (hexDigit (high b)).isSome = true ∧ (hexDigit (low b)).isSome = true := by
  decide +kernel

/-- The digits of a word are read as the word. -/
theorem hexValue_digits (w : Bytes) : BitVec.ofNat 32 (hexValue w.digits) = word w := by
  have digits : ∀ c ∈ w.digits, (hexDigit c).isSome = true := by simp [Bytes.digits, digits_some]
  have value : hexValue w.digits =
      2 ^ 8 * (2 ^ 8 * (2 ^ 8 * w.b3.toNat + w.b2.toNat) + w.b1.toNat) + w.b0.toNat := by
    rw [hexValue_all digits, Bytes.digits]
    simp only [List.foldl_cons, List.foldl_nil, shift, ← high_low]
    omega
  have append {n : ℕ} (v : BitVec n) (b : BitVec 8) :
      (v ++ b).toNat = 2 ^ 8 * v.toNat + b.toNat := by
    rw [BitVec.toNat_append, ← Nat.shiftLeft_add_eq_or_of_lt b.isLt, Nat.shiftLeft_eq, Nat.mul_comm]
  apply BitVec.eq_of_toNat_eq
  have small := (word w).isLt
  have read : (word w).toNat = hexValue w.digits := by
    rw [value]
    unfold word
    rw [append, append, append]
  rw [BitVec.toNat_ofNat, ← read, Nat.mod_eq_of_lt small]

/-- The entry of an address is the word of the memory there. -/
theorem caseOf_entries {table : List Item} {ws : List Bytes}
    (written : entries table = entriesOf ws) {j : ℕ} (small : 4 * j < 2 ^ 32) {w : Bytes}
    (there : ws[j]? = some w) :
    caseOf table (BitVec.ofNat 32 (4 * j)) = some (word w) := by
  have label {i : ℕ} (low : 4 * i < 2 ^ 32) :
      BitVec.ofNat 32 (hexValue (hex04 (4 * (i : ℤ)))) = BitVec.ofNat 32 (4 * j) ↔ i = j := by
    have cast : 4 * (i : ℤ) = ((4 * i : ℕ) : ℤ) := by push_cast; rfl
    rw [cast, hexValue_hex04 low, ← BitVec.toNat_inj, BitVec.toNat_ofNat, BitVec.toNat_ofNat,
      Nat.mod_eq_of_lt low, Nat.mod_eq_of_lt small]
    omega
  obtain ⟨inside, here⟩ := List.getElem?_eq_some_iff.1 there
  have found : (entriesOf ws).find? (fun e => BitVec.ofNat 32 (hexValue (hex04 e.1)) ==
      BitVec.ofNat 32 (4 * j)) = some (4 * (j : ℤ), w.digits) := by
    rw [List.find?_eq_some_iff_getElem]
    refine ⟨beq_iff_eq.2 ((label small).2 rfl), j, by simpa [entriesOf] using inside, ?_, ?_⟩
    · simp [entriesOf, here]
    · intro i less
      have other : ¬BitVec.ofNat 32 (hexValue (hex04 (4 * (i : ℤ)))) = BitVec.ofNat 32 (4 * j) :=
        fun same => Nat.ne_of_lt less ((label (by omega)).1 same)
      simpa [entriesOf] using other
  rw [caseOf, written, found]
  exact congrArg some (hexValue_digits w)

/-- A listing that is read as what it is comes to the table whole. -/
theorem table_of_reads {buf : List Char} (whole : buf.length = bufSize) {l : Listing}
    (reads : l.Reads) :
    ∃ table lanes, main buf l.text = .ok (table, lanes) ∧ entries table = entriesOf l.memory := by
  have seen : l.seen = l.memory := by
    refine (Sparse.memory_filter_iff l.words fun i => !decide i.Misread).2 ⟨?_, ?_⟩
    · exact fun i mem misread => reads.missed i mem (by simpa using misread)
    · exact fun i last => by simpa using reads.last i last
  obtain ⟨table, lanes, ok, written, -⟩ :=
    main_run l whole reads.start.1 reads.start.2 reads.body
  exact ⟨table, lanes, ok, seen ▸ written⟩

/-! ## The processor -/

open Cpu
open Bus (bsramSize)

/-- The words that the bus reaches are at their labels. -/
theorem label_eq : ∀ j < 31, Bus.wordIndex (BitVec.ofNat 32 (4 * j)) ++ 0#2 =
    BitVec.ofNat 32 (4 * j) := by
  decide

/-- **From the listing to the processor.** Of a listing that the converter reads as what it is, a
SoC whose memory includes the table brings word `j` to the processor in turn `j + 1` of its fetch
stage, with its address plus four, as far as the bus reaches the memory, if the address of the data
port stays away from the memory. -/
theorem listing_fetched {buf : List Char} (whole : buf.length = bufSize) {l : Listing}
    (reads : l.Reads) : ∃ table lanes, main buf l.text = .ok (table, lanes) ∧
      ∀ board : Board, board.firmware = caseOf table →
        (∀ n, (board.input n).iRst = false ∧ ¬(board.input n).adrData < bsramSize) →
        ∀ j w, j < 31 → l.memory[j]? = some w →
          (board.states (2 * j + 5)).fetch.oInstr = word w ∧
          (board.states (2 * j + 5)).fetch.pcFetchedPlus4 = BitVec.ofNat 32 (4 * j + 4) := by
  obtain ⟨table, lanes, ok, written⟩ := table_of_reads whole reads
  refine ⟨table, lanes, ok, fun board loaded away j w few there => ?_⟩
  have rst (n : ℕ) : (board.input n).iRst = false := (away n).1
  have latched := latched_run rst (j + 1)
  have included : board.word (BitVec.ofNat 32 (4 * j)) = word w := by
    have entry := caseOf_entries written (by omega) there
    rw [Board.word, Bus.Memory.word, if_neg Bool.false_ne_true, label_eq j few, loaded, entry]
    rfl
  have fetched : (board.states (2 * j + 5)).fetch.oInstr =
      board.word (BitVec.ofNat 32 (4 * j)) := by
    have inside : 4 * (j + 1) < 128 := by omega
    have instr := datInBus_run rst (k := j + 1) (by omega)
    rw [if_pos inside, if_neg (away _).2, Nat.add_sub_cancel] at instr
    exact (congrArg Fetch.State.oInstr latched).trans instr
  exact ⟨fetched.trans included, congrArg Fetch.State.pcFetchedPlus4 latched⟩

theorem gapped_reads : gapped.Reads := by
  refine ⟨⟨?_, ?_⟩, ?_, ?_, ?_⟩
  · exact Label.first_short (by decide)
  · rw [later_short gapped.start.text_text.1 (by decide)]
    exact fun _ mem => absurd mem List.not_mem_nil
  · have short : ∀ line ∈ gapped.body, line.text.length < bufSize - 1 := by decide
    have int : ∀ i ∈ gapped.instrs, i.address + 4 < 2 ^ 31 := by decide
    exact fun line mem => Line.reads_short (short line mem) fun i eq =>
      int i (List.mem_filterMap.2 ⟨line, mem, eq⟩)
  · decide
  · decide

/-- A SoC with a firmware, whose data port is at an address of no memory. -/
def booting (firmware : BitVec 32 → Option (BitVec 32)) : Board := { apart with firmware }

theorem listing_fetched_gapped : ∃ table lanes,
    main (List.replicate bufSize '\x00') gapped.text = .ok (table, lanes) ∧
      ((booting (caseOf table)).states 9).fetch.oInstr = 0x00008067#32 ∧
      ((booting (caseOf table)).states 9).fetch.pcFetchedPlus4 = 12#32 := by
  obtain ⟨table, lanes, ok, boots⟩ := listing_fetched List.length_replicate gapped_reads
  have away (n : ℕ) : ((booting (caseOf table)).input n).iRst = false ∧
      ¬((booting (caseOf table)).input n).adrData < bsramSize :=
    ⟨rfl, (by decide : ¬0x1000#32 < bsramSize)⟩
  exact ⟨table, lanes, ok, boots (booting (caseOf table)) rfl away 2 ⟨0x67, 0x80, 0x00, 0x00⟩
    (by decide) (by decide)⟩

end Teres.Rtl.Boot
