import Teres.Laws.Tools.Cod5asm
import Teres.Tools.Dump2v

/-!
# What `dump2v` reads of a line

`fgets` cuts a line into pieces of at most 1023 characters (`pieces_line`), and each piece is taken
for a line. A piece with `>:` in it, or without a colon, leaves the table and the lane files as they
are but for comments (`quiet_step`). A piece that begins as an instruction does writes the zeros of
the gap in front of it and its own word (`instr_step`), whatever the buffer held before.
-/

namespace Teres.Tools.Dump2v

open Cod5asm (isspace skipSpace)

/-! ## Strings -/

/-- `strstr` finds what is inside. -/
theorem strstr_isSome (pat s : List Char) : (strstr pat s).isSome = true ↔ pat <:+: s := by
  induction s with
  | nil =>
    unfold strstr
    split_ifs with h
    · simp [h]
    · simpa using h
  | cons c s ih =>
    unfold strstr
    rw [List.infix_cons_iff, ← ih]
    split_ifs with h
    · simp [h]
    · simp [h]

theorem strstr_eq_none (pat s : List Char) : strstr pat s = none ↔ ¬ pat <:+: s := by
  rw [← strstr_isSome, Bool.not_eq_true, Option.isSome_eq_false_iff, Option.isNone_iff_eq_none]

/-- One character is found where it stands first. -/
theorem strstr_singleton {c : Char} {l : List Char} (first : c ∉ l) (r : List Char) :
    strstr [c] (l ++ c :: r) = some l.length := by
  induction l with
  | nil => simp [strstr]
  | cons x l ih =>
    rw [List.mem_cons, not_or] at first
    have other : ¬ [c] <+: x :: (l ++ c :: r) := by
      rw [List.cons_prefix_cons]
      exact fun h => first.1 h.1
    rw [List.cons_append, strstr, if_neg other, ih first.2]
    rfl

theorem cString_append {str : List Char} (none : '\x00' ∉ str) (rest : List Char) :
    cString (str ++ '\x00' :: rest) = str := by
  rw [cString, List.takeWhile_append_of_pos, List.takeWhile_cons_of_neg, List.append_nil]
  · simp
  · intro x mem
    rw [decide_eq_true_iff]
    exact fun nul => none (nul ▸ mem)

/-! ## Pieces -/

/-- `fgets` on a line: the whole of it with its newline, or as much as fits. -/
theorem fgets_line {l : List Char} (line : '\n' ∉ l) (n : ℕ) (rest : List Char) :
    fgets n (l ++ '\n' :: rest) =
      if l.length < n then (l ++ ['\n'], rest) else (l.take n, l.drop n ++ '\n' :: rest) := by
  induction n generalizing l with
  | zero => simp [fgets]
  | succ n ih =>
    cases l with
    | nil => simp [fgets]
    | cons c l =>
      rw [List.mem_cons, not_or] at line
      have other : c ≠ '\n' := Ne.symm line.1
      rw [List.cons_append, fgets, if_neg other, ih line.2]
      by_cases short : l.length < n
      · simp [short]
      · simp [short]

/-- `fgets` on more characters than fit. -/
theorem fgets_take {l : List Char} (line : '\n' ∉ l) {n : ℕ} (long : n ≤ l.length)
    (rest : List Char) : fgets n (l ++ rest) = (l.take n, l.drop n ++ rest) := by
  induction n generalizing l with
  | zero => rw [fgets, List.take_zero, List.drop_zero]
  | succ n ih =>
    cases l with
    | nil => exact absurd long (Nat.not_succ_le_zero n)
    | cons c l =>
      rw [List.mem_cons, not_or] at line
      rw [List.cons_append, fgets, if_neg (Ne.symm line.1),
        ih line.2 (Nat.le_of_succ_le_succ long)]
      rfl

/-- `fgets` on a last line without a newline. -/
theorem fgets_last {l : List Char} (line : '\n' ∉ l) {n : ℕ} (short : l.length ≤ n) :
    fgets n l = (l, []) := by
  induction n generalizing l with
  | zero => rw [List.length_eq_zero_iff.1 (Nat.le_zero.1 short), fgets]
  | succ n ih =>
    cases l with
    | nil => rfl
    | cons c l =>
      rw [List.mem_cons, not_or] at line
      rw [fgets, if_neg (Ne.symm line.1), ih line.2 (Nat.le_of_succ_le_succ short)]

/-- The pieces that `fgets` reads, with a bound on their number. -/
def piecesWithin : ℕ → List Char → List (List Char)
  | 0, _ => []
  | k + 1, s =>
    if s = [] then []
    else (fgets (bufSize - 1) s).1 :: piecesWithin k (fgets (bufSize - 1) s).2

/-- The pieces that `fgets` reads of a stream. -/
def pieces (s : List Char) : List (List Char) := piecesWithin s.length s

theorem fgets_append (n : ℕ) (s : List Char) : (fgets n s).1 ++ (fgets n s).2 = s := by
  induction n generalizing s with
  | zero => rfl
  | succ n ih =>
    cases s with
    | nil => rfl
    | cons c s =>
      rw [fgets]
      split_ifs
      · rfl
      · simp [ih s]

theorem fgets_length (n : ℕ) (s : List Char) : (fgets n s).1.length ≤ n := by
  induction n generalizing s with
  | zero => exact Nat.le_refl 0
  | succ n ih =>
    cases s with
    | nil => exact Nat.zero_le _
    | cons c s =>
      rw [fgets]
      split_ifs
      · simp
      · exact Nat.succ_le_succ (ih s)

/-- Something is read as long as there is something. -/
theorem fgets_shorter {s : List Char} (more : s ≠ []) :
    (fgets (bufSize - 1) s).2.length < s.length := by
  have whole := congrArg List.length (fgets_append (bufSize - 1) s)
  rw [List.length_append] at whole
  have some : 0 < (fgets (bufSize - 1) s).1.length := by
    cases s with
    | nil => exact absurd rfl more
    | cons c s =>
      change 0 < (fgets (1022 + 1) (c :: s)).1.length
      rw [fgets]
      split_ifs <;> simp
  omega

theorem piecesWithin_eq {k : ℕ} {s : List Char} (enough : s.length ≤ k) :
    piecesWithin k s = pieces s := by
  induction k using Nat.strong_induction_on generalizing s with
  | _ k ih =>
    cases k with
    | zero =>
      obtain rfl : s = [] := List.eq_nil_of_length_eq_zero (Nat.le_zero.mp enough)
      rfl
    | succ k =>
      by_cases empty : s = []
      · subst empty
        rfl
      · have shorter := fgets_shorter empty
        obtain ⟨n, len⟩ := Nat.exists_eq_succ_of_ne_zero (List.length_pos_of_ne_nil empty).ne'
        rw [pieces, len, piecesWithin, piecesWithin, if_neg empty, if_neg empty,
          ih k (Nat.lt_succ_self k) (by omega), ih n (by omega) (by omega)]

/-- The pieces of a stream are the first and those of the rest. -/
theorem pieces_eq {s : List Char} (more : s ≠ []) :
    pieces s = (fgets (bufSize - 1) s).1 :: pieces (fgets (bufSize - 1) s).2 := by
  have shorter := fgets_shorter more
  obtain ⟨n, len⟩ := Nat.exists_eq_succ_of_ne_zero (List.length_pos_of_ne_nil more).ne'
  rw [pieces, len, piecesWithin, if_neg more, piecesWithin_eq (by omega)]

/-- **The loop goes over the pieces.** -/
theorem loop_eq (k : ℕ) (input : List Char) (s : State) :
    loop k input s = (piecesWithin k input).foldlM step s := by
  induction k generalizing input s with
  | zero => rfl
  | succ k ih =>
    rw [loop, piecesWithin]
    split_ifs
    · rfl
    · rw [List.foldlM_cons]
      exact bind_congr fun s => ih _ s

/-- The pieces of a line. -/
def cuts (l : List Char) : List (List Char) := pieces (l ++ ['\n'])

/-- **Lines are cut one by one.** -/
theorem pieces_line {l : List Char} (line : '\n' ∉ l) (rest : List Char) :
    pieces (l ++ '\n' :: rest) = cuts l ++ pieces rest := by
  induction len : l.length using Nat.strong_induction_on generalizing l with
  | _ n ih =>
    have more : ∀ r : List Char, l ++ '\n' :: r ≠ [] := by simp
    rw [cuts, pieces_eq (more rest), pieces_eq (more []), fgets_line line, fgets_line line]
    by_cases short : l.length < bufSize - 1
    · rw [if_pos short, if_pos short]
      rfl
    · rw [if_neg short, if_neg short]
      have inner : '\n' ∉ l.drop (bufSize - 1) := fun mem => line (List.mem_of_mem_drop mem)
      have less : (l.drop (bufSize - 1)).length < n := by
        have : 0 < bufSize - 1 := by decide
        rw [List.length_drop]
        omega
      rw [ih _ less inner rfl]
      rfl

/-- A line that fits is one piece. -/
theorem cuts_short {l : List Char} (line : '\n' ∉ l) (short : l.length < bufSize - 1) :
    cuts l = [l ++ ['\n']] := by
  rw [cuts, pieces_eq (by simp), fgets_line line, if_pos short]
  rfl

/-- The first piece of a line. -/
theorem cuts_eq {l : List Char} (line : '\n' ∉ l) :
    ∃ ps, cuts l = (l ++ ['\n']).take (bufSize - 1) :: ps := by
  rw [cuts, pieces_eq (by simp), fgets_line line]
  split_ifs with short
  · refine ⟨_, congrArg (· :: _) ?_⟩
    have whole : (l ++ ['\n']).length ≤ bufSize - 1 := by
      rw [List.length_append]
      exact Nat.succ_le_of_lt short
    rw [List.take_of_length_le whole]
  · refine ⟨_, congrArg (· :: _) ?_⟩
    rw [List.take_append_of_le_length (Nat.le_of_not_lt short)]

/-- What is in a piece of a stream is in the stream, and a piece fits the buffer. -/
theorem mem_pieces {s p : List Char} (mem : p ∈ pieces s) :
    p <:+: s ∧ p.length ≤ bufSize - 1 := by
  induction len : s.length using Nat.strong_induction_on generalizing s with
  | _ n ih =>
    by_cases empty : s = []
    · subst empty
      exact absurd mem List.not_mem_nil
    · rw [pieces_eq empty, List.mem_cons] at mem
      have whole := fgets_append (bufSize - 1) s
      rcases mem with rfl | mem
      · exact ⟨⟨[], _, whole⟩, fgets_length _ _⟩
      · obtain ⟨inside, fits⟩ := ih _ (len ▸ fgets_shorter empty) mem rfl
        exact ⟨inside.trans ⟨_, [], by rw [List.append_nil, whole]⟩, fits⟩

/-! ## Words -/

/-- A word of memory, its lowest byte first. -/
structure Bytes where
  b0 : BitVec 8
  b1 : BitVec 8
  b2 : BitVec 8
  b3 : BitVec 8
deriving DecidableEq

namespace Bytes

def zero : Bytes := ⟨0, 0, 0, 0⟩

end Bytes

/-- The first digit of a byte. -/
def high (b : BitVec 8) : Char := Nat.digitChar (b.toNat / 16)

/-- Its second digit. -/
def low (b : BitVec 8) : Char := Nat.digitChar (b.toNat % 16)

/-- Its bits, the highest first. -/
def bits (b : BitVec 8) : List Char :=
  (List.range 8).map fun i => if b.getMsbD i then '1' else '0'

/-- A word as a number is written: the highest byte first. -/
def Bytes.digits (w : Bytes) : List Char :=
  [high w.b3, low w.b3, high w.b2, low w.b2, high w.b1, low w.b1, high w.b0, low w.b0]

/-- A word as a listing has it: byte by byte, from the lowest. -/
def Bytes.listed (w : Bytes) : List Char :=
  [high w.b0, low w.b0, ' ', high w.b1, low w.b1, ' ', high w.b2, low w.b2, ' ', high w.b3,
    low w.b3]

/-- The bits of a byte are those of its two digits. -/
theorem byteBits_eq : ∀ b : BitVec 8, byteBits (high b) (low b) = .ok (bits b) := by
  decide +kernel

theorem high_space : ∀ b : BitVec 8, isspace (high b) = false := by decide +kernel

/-! ## The memory that is written -/

/-- The address and the word of an item that is an entry. -/
def Item.entry? : Item → Option (ℤ × List Char)
  | .opening _ => none
  | .label _ _ => none
  | .nop next => some (next, Bytes.zero.digits)
  | .entry line word _ => some (line, word)

/-- The address and the word of each entry of the table. -/
def entries (table : List Item) : List (ℤ × List Char) := table.filterMap Item.entry?

/-- How the entry of an address begins in the text of the table, up to its comment. -/
def heading (entry : ℤ × List Char) : List Char :=
  "\t'h".toList ++ hex04 entry.1 ++ ": O_dat <= 32'h".toList ++ entry.2 ++ "; /*".toList

/-- The texts of the entries of the table. -/
def entryTexts (table : List Item) : List (List Char) :=
  (table.filter fun item => item.entry?.isSome).map Item.render

/-- The entries of a memory: one for each multiple of four, from 0 on. -/
def entriesOf (ws : List Bytes) : List (ℤ × List Char) :=
  ws.mapIdx fun k w => (4 * (k : ℤ), w.digits)

/-- The lane files of a memory: a line for each word. -/
def lanesOf (ws : List Bytes) : Lanes where
  out0 := ws.flatMap fun w => bits w.b3 ++ ['\n']
  out1 := ws.flatMap fun w => bits w.b2 ++ ['\n']
  out2 := ws.flatMap fun w => bits w.b1 ++ ['\n']
  out3 := ws.flatMap fun w => bits w.b0 ++ ['\n']

@[simp] theorem entries_append (t t' : List Item) :
    entries (t ++ t') = entries t ++ entries t' :=
  List.filterMap_append

@[simp] theorem entriesOf_concat (ws : List Bytes) (w : Bytes) :
    entriesOf (ws ++ [w]) = entriesOf ws ++ [(4 * (ws.length : ℤ), w.digits)] :=
  List.mapIdx_concat

@[simp] theorem lanesOf_concat (ws : List Bytes) (w : Bytes) :
    lanesOf (ws ++ [w]) = (lanesOf ws).push (bits w.b3) (bits w.b2) (bits w.b1) (bits w.b0) := by
  simp [lanesOf, Lanes.push]

/-- An entry is its address and its word in the text of the table. -/
theorem render_headed {item : Item} {entry : ℤ × List Char} (is : item.entry? = some entry) :
    heading entry <+: item.render := by
  cases item with
  | opening buf => cases is
  | label address buf => cases is
  | nop next =>
    obtain rfl : (next, Bytes.zero.digits) = entry := Option.some.inj is
    have parts : ": O_dat <= 32'h00000000; /*         nop */\n".toList =
        ": O_dat <= 32'h".toList ++ (Bytes.zero.digits ++ ("; /*".toList ++
          "         nop */\n".toList)) := by decide +kernel
    refine ⟨"         nop */\n".toList, ?_⟩
    show _ = "\t'h".toList ++ hex04 next ++ ": O_dat <= 32'h00000000; /*         nop */\n".toList
    simp only [heading, parts, List.append_assoc]
  | entry line word text =>
    obtain rfl : (line, word) = entry := Option.some.inj is
    refine ⟨text ++ " (".toList ++ word.map a ++ ")*/\n".toList, ?_⟩
    show _ = "\t'h".toList ++ hex04 line ++ ": O_dat <= 32'h".toList ++ word ++ "; /*".toList ++
      text ++ " (".toList ++ word.map a ++ ")*/\n".toList
    simp only [heading, List.append_assoc]

/-- **The text of the table has its entries**, one by one and in their order. -/
theorem entryTexts_headed (table : List Item) :
    List.Forall₂ (· <+: ·) ((entries table).map heading) (entryTexts table) := by
  induction table with
  | nil => exact .nil
  | cons item table ih =>
    cases is : item.entry? with
    | none =>
      have pairs : entries (item :: table) = entries table := List.filterMap_cons_none is
      have texts : entryTexts (item :: table) = entryTexts table := by simp [entryTexts, is]
      rw [pairs, texts]
      exact ih
    | some entry =>
      have pairs : entries (item :: table) = entry :: entries table := List.filterMap_cons_some is
      have texts : entryTexts (item :: table) = item.render :: entryTexts table := by
        simp [entryTexts, is]
      rw [pairs, texts, List.map_cons]
      exact .cons (render_headed is) ih

/-- **The table and the lane files hold one memory**, and the next address is its end. -/
structure Dumped (s : State) (ws : List Bytes) : Prop where
  dump : s.dump = true
  next : s.next = 4 * (ws.length : ℤ)
  buf : s.buf.length = bufSize
  outf : entries s.outf = entriesOf ws
  lanes : s.lanes = lanesOf ws

/-- What is read fills the buffer as it was. -/
theorem load_length {s : State} {piece : List Char} (whole : s.buf.length = bufSize)
    (fits : piece.length ≤ bufSize - 1) : (load s piece).buf.length = bufSize := by
  have : 0 < bufSize := by decide
  simp only [load, List.length_append, List.length_cons, List.length_drop, whole]
  omega

theorem cString_load (s : State) {piece : List Char} (text : '\x00' ∉ piece) :
    cString (load s piece).buf = piece :=
  cString_append text _

/-! ## A line that adds nothing -/

/-- A piece that is a label, or has no colon. -/
def Quiet (piece : List Char) : Prop := ">:".toList <:+: piece ∨ ':' ∉ piece

instance (piece : List Char) : Decidable (Quiet piece) :=
  inferInstanceAs (Decidable (_ ∨ _))

/-- **A label adds a comment, and a line without a colon nothing.** -/
theorem quiet_step {s : State} {ws : List Bytes} (dumped : Dumped s ws) {piece : List Char}
    (quiet : Quiet piece) (text : '\x00' ∉ piece) (fits : piece.length ≤ bufSize - 1) :
    ∃ s', step s piece = .ok s' ∧ Dumped s' ws := by
  have whole := load_length dumped.buf fits
  rw [step, if_pos dumped.dump, dumping, cString_load s text]
  by_cases label : ">:".toList <:+: piece
  · rw [if_pos ((strstr_isSome _ _).mpr label)]
    refine ⟨_, rfl, dumped.dump, dumped.next, whole, ?_, dumped.lanes⟩
    show entries (s.outf ++ [.label _ _]) = entriesOf ws
    rw [entries_append, dumped.outf]
    exact List.append_nil _
  · have colon : ¬ ":".toList <:+: piece := by
      rw [show ":".toList = [':'] from rfl, List.singleton_infix_iff]
      exact quiet.resolve_left label
    rw [if_neg (by rwa [strstr_isSome]), (strstr_eq_none _ _).mpr colon]
    exact ⟨_, rfl, dumped.dump, dumped.next, whole, dumped.outf, dumped.lanes⟩

/-! ## A line that is an instruction -/

/-- **The gap in front of an instruction is filled with zeros.** -/
theorem fill_gap (n fuel : ℕ) {s : State} {ws : List Bytes} (dumped : Dumped s ws) {line : ℤ}
    (address : line = 4 * (ws.length + n : ℤ)) (enough : n ≤ fuel) (int : line + 4 < 2 ^ 31) :
    ∃ s', fill line fuel s = .ok s' ∧ Dumped s' (ws ++ List.replicate n .zero) := by
  induction n generalizing fuel s ws with
  | zero =>
    refine ⟨s, ?_, by simpa using dumped⟩
    cases fuel with
    | zero => rfl
    | succ fuel =>
      have past : ¬ s.next < line := by
        rw [dumped.next, address]
        omega
      rw [fill, if_neg past]
  | succ n ih =>
    obtain ⟨fuel, rfl⟩ := Nat.exists_eq_succ_of_ne_zero (Nat.ne_of_gt (Nat.lt_of_lt_of_le
      (Nat.succ_pos n) enough))
    have before : s.next < line := by
      rw [dumped.next, address]
      omega
    have four : addFour s.next = .ok (s.next + 4) := if_pos (by omega)
    have one : Dumped { s with
        next := s.next + 4
        outf := s.outf ++ [.nop s.next]
        lanes := s.lanes.push (bits 0) (bits 0) (bits 0) (bits 0) } (ws ++ [.zero]) := by
      refine ⟨dumped.dump, ?_, dumped.buf, ?_, ?_⟩
      · simp [dumped.next]
        omega
      · rw [entries_append, dumped.outf, entriesOf_concat, dumped.next]
        rfl
      · rw [lanesOf_concat, dumped.lanes]
        rfl
    obtain ⟨s', filled, after⟩ := ih fuel one (by simp; omega) (by omega)
    refine ⟨s', ?_, ?_⟩
    · rw [fill, if_pos before, four]
      exact filled
    · rw [List.replicate_succ]
      simpa using after

/-- A hexadecimal digit is no other character of the line. -/
theorem hexDigit_ne {c d : Char} (digit : (hexDigit c).isSome = true) (none : hexDigit d = none) :
    c ≠ d := by
  rintro rfl
  rw [none] at digit
  exact Bool.false_ne_true digit

theorem hexDigit_space {c : Char} (digit : (hexDigit c).isSome = true) : isspace c = false := by
  simp only [isspace, Bool.or_eq_false_iff, decide_eq_false_iff_not]
  refine ⟨⟨⟨⟨⟨?_, ?_⟩, ?_⟩, ?_⟩, ?_⟩, ?_⟩ <;> exact hexDigit_ne digit (by decide)

/-- Digits have no prefix. -/
theorem skip0x_digits {s : List Char} (digits : ∀ c ∈ s, (hexDigit c).isSome = true) :
    skip0x s = s := by
  unfold skip0x
  split
  · next x c r =>
    have digit : (hexDigit x).isSome = true := digits x (by simp)
    have lower : x ≠ 'x' := hexDigit_ne digit (by decide)
    have upper : x ≠ 'X' := hexDigit_ne digit (by decide)
    rw [if_neg]
    rintro ⟨rfl | rfl, _⟩
    · exact lower rfl
    · exact upper rfl
  · rfl

/-- The number that digits behind blanks stand for. -/
theorem strtol_digits {indent addr : List Char} (blank : indent.all isspace = true)
    (some : addr ≠ []) (digits : ∀ c ∈ addr, (hexDigit c).isSome = true)
    (long : (hexValue addr : ℤ) < 2 ^ 63) : strtol (indent ++ addr) = hexValue addr := by
  obtain ⟨c, s, rfl⟩ := List.exists_cons_of_ne_nil some
  have first : (hexDigit c).isSome = true := digits c List.mem_cons_self
  unfold strtol
  rw [Cod5asm.skipSpace_gap indent blank (hexDigit_space first)]
  split
  · next eq => exact absurd (List.cons.inj eq).1 (hexDigit_ne first (by decide))
  · next eq => exact absurd (List.cons.inj eq).1 (hexDigit_ne first (by decide))
  · rw [skip0x_digits digits]
    exact min_eq_left (by omega)

theorem toInt_eq {x : ℤ} (positive : 0 ≤ x) (small : x < 2 ^ 31) : toInt x = x := by
  unfold toInt
  rw [Int.bmod_def]
  omega

theorem set_behind (l r : List Char) (c d : Char) : (l ++ c :: r).set l.length d = l ++ d :: r := by
  simp

theorem takeWhile_shorter {p : Char → Bool} {l : List Char} {c : Char} (mem : c ∈ l)
    (stop : p c = false) : (l.takeWhile p).length < l.length := by
  refine Nat.lt_of_le_of_ne (List.takeWhile_prefix p).length_le fun same => ?_
  have whole : l.takeWhile p = l := (List.takeWhile_prefix p).eq_of_length same
  have := List.all_takeWhile (p := p) (l := l)
  rw [whole, List.all_eq_true] at this
  exact Bool.false_ne_true (stop.symm.trans (this c mem))

theorem getD_behind (l r : List Char) (k : ℕ) (d : Char) :
    (l ++ r).getD (l.length + k) d = r.getD k d := by
  rw [List.getD_eq_getElem?_getD, List.getElem?_append_right (Nat.le_add_right _ _),
    Nat.add_sub_cancel_left, List.getD_eq_getElem?_getD]

/-- **The word of an instruction is read off its bytes**, and the text behind it stays in the
buffer. -/
theorem instruction_eq {s s' : State} {a gap z : List Char} {w : Bytes} {r : Char} {line : ℤ}
    (buf : s.buf = a ++ ':' :: (gap ++ (w.listed ++ r :: z))) (whole : s.buf.length = bufSize)
    (blank : gap.all isspace = true) (nul : '\x00' ∈ z) (address : toInt (strtol a) = line)
    (filled : fill line (line - s.next).toNat s = .ok s') (int : line + 4 < 2 ^ 31) :
    ∃ text buf', buf'.length = bufSize ∧ instruction s a.length = .ok { s' with
      next := line + 4
      buf := buf'
      outf := s'.outf ++ [.entry line w.digits text]
      lanes := s'.lanes.push (bits w.b3) (bits w.b2) (bits w.b1) (bits w.b0) } := by
  have marked : s.buf.set a.length '\x00' = a ++ '\x00' :: (gap ++ (w.listed ++ r :: z)) := by
    rw [buf, set_behind]
  have field : (a ++ '\x00' :: (gap ++ (w.listed ++ r :: z))).take a.length = a :=
    List.take_left
  have behind : (a ++ '\x00' :: (gap ++ (w.listed ++ r :: z))).drop (a.length + 1) =
      gap ++ (w.listed ++ r :: z) := by
    rw [List.drop_length_add_append]
    rfl
  have skipped : (gap ++ (w.listed ++ r :: z)).takeWhile isspace = gap := by
    rw [List.takeWhile_append_of_pos (List.all_eq_true.1 blank), Bytes.listed, List.cons_append,
      List.takeWhile_cons_of_neg (by rw [high_space]; exact Bool.false_ne_true), List.append_nil]
  have inst : a.length + 1 + gap.length = (a ++ '\x00' :: gap).length := by
    simp
    omega
  have parted : a ++ '\x00' :: (gap ++ (w.listed ++ r :: z)) =
      (a ++ '\x00' :: gap ++ w.listed) ++ r :: z := by
    simp
  have room : (a ++ '\x00' :: gap).length + 12 + z.length = bufSize := by
    rw [← whole, buf]
    simp [Bytes.listed]
    omega
  have read (k : ℕ) : ((a ++ '\x00' :: gap ++ w.listed) ++ '\x00' :: z).getD
      ((a ++ '\x00' :: gap).length + k) '\x00' = (w.listed ++ '\x00' :: z).getD k '\x00' := by
    rw [List.append_assoc, getD_behind]
  have ended : (a ++ '\x00' :: gap).length + 11 = (a ++ '\x00' :: gap ++ w.listed).length := by
    have sum : (a ++ '\x00' :: gap ++ w.listed).length =
        (a ++ '\x00' :: gap).length + w.listed.length := List.length_append
    exact sum.symm
  have left : ((a ++ '\x00' :: gap ++ w.listed) ++ '\x00' :: z).drop
      ((a ++ '\x00' :: gap).length + 12) = z := by
    rw [show (a ++ '\x00' :: gap).length + 12 = (a ++ '\x00' :: gap ++ w.listed).length + 1 by
      rw [← ended], List.drop_length_add_append]
    rfl
  have four : addFour line = .ok (line + 4) := if_pos int
  have shorter := takeWhile_shorter (p := fun x => x ≠ '\x00' && x ≠ '\n' && x ≠ '\x0D') nul rfl
  unfold instruction
  rw [marked]
  simp only [field, address, filled, behind, skipped, inst]
  simp only [parted, bind, Except.bind]
  have cut : (a ++ '\x00' :: gap ++ w.listed ++ r :: z).set ((a ++ '\x00' :: gap).length + 11)
      '\x00' = a ++ '\x00' :: gap ++ w.listed ++ '\x00' :: z := by
    rw [ended, set_behind]
  rw [if_neg (by omega), cut]
  simp only [read, left]
  simp only [Bytes.listed, List.cons_append, List.getD_cons_zero, List.getD_cons_succ, byteBits_eq]
  rw [if_neg (by omega), four]
  refine ⟨_, _, ?_, rfl⟩
  rw [List.length_set, ← room]
  simp
  omega

/-- Blanks inside a line. -/
def Blank (gap : List Char) : Prop := gap.all isspace = true ∧ '\n' ∉ gap

/-- The text of a line. -/
def Text (s : List Char) : Prop := '\n' ∉ s ∧ '\x00' ∉ s

instance (gap : List Char) : Decidable (Blank gap) := inferInstanceAs (Decidable (_ ∧ _))

instance (s : List Char) : Decidable (Text s) := inferInstanceAs (Decidable (_ ∧ _))

/-- An instruction line of a listing: an address, its four bytes and a text. -/
structure Instr where
  indent : List Char
  addr : List Char
  gap : List Char
  bytes : Bytes
  tail : List Char
  indent_blank : Blank indent
  addr_some : addr ≠ []
  addr_digits : ∀ c ∈ addr, (hexDigit c).isSome = true
  aligned : 4 ∣ hexValue addr
  gap_blank : Blank gap
  tail_text : Text tail

namespace Instr

def address (i : Instr) : ℕ := hexValue i.addr

/-- The line up to its bytes. -/
def head (i : Instr) : List Char := i.indent ++ i.addr ++ ':' :: (i.gap ++ i.bytes.listed)

def text (i : Instr) : List Char := i.head ++ i.tail

theorem colon (i : Instr) : ':' ∉ i.indent ++ i.addr := by
  rw [List.mem_append]
  rintro (mem | mem)
  · exact absurd (List.all_eq_true.1 i.indent_blank.1 _ mem) (by decide)
  · exact absurd (i.addr_digits _ mem) (by decide)

end Instr

/-- **An instruction writes the gap in front of it and its word.** -/
theorem instr_step {s : State} {ws : List Bytes} (dumped : Dumped s ws) (i : Instr) {n : ℕ}
    (address : i.address = 4 * (ws.length + n)) (int : i.address + 4 < 2 ^ 31) {r : Char}
    {rest : List Char} (unlabelled : ¬ ">:".toList <:+: i.head ++ r :: rest)
    (text : '\x00' ∉ i.head ++ r :: rest) (fits : (i.head ++ r :: rest).length ≤ bufSize - 1) :
    ∃ s', step s (i.head ++ r :: rest) = .ok s' ∧
      Dumped s' (ws ++ List.replicate n .zero ++ [i.bytes]) := by
  have whole := load_length dumped.buf fits
  have cut : i.head ++ r :: rest =
      (i.indent ++ i.addr) ++ ':' :: (i.gap ++ i.bytes.listed ++ r :: rest) := by
    simp [Instr.head]
  have colon : strstr ":".toList (i.head ++ r :: rest) = some (i.indent ++ i.addr).length := by
    rw [cut]
    exact strstr_singleton i.colon _
  have value : toInt (strtol (i.indent ++ i.addr)) = 4 * (ws.length + n : ℤ) := by
    have same : (hexValue i.addr : ℤ) = 4 * (ws.length + n) := mod_cast address
    have small : (hexValue i.addr : ℤ) + 4 < 2 ^ 31 := mod_cast int
    rw [strtol_digits i.indent_blank.1 i.addr_some i.addr_digits (by omega),
      toInt_eq (by omega) (by omega), same]
  have small : 4 * (ws.length + n : ℤ) + 4 < 2 ^ 31 := by omega
  have loaded : Dumped (load s (i.head ++ r :: rest)) ws :=
    ⟨dumped.dump, dumped.next, whole, dumped.outf, dumped.lanes⟩
  obtain ⟨s', filled, after⟩ := fill_gap n (4 * (ws.length + n : ℤ) - s.next).toNat loaded rfl
    (by rw [dumped.next]; omega) small
  have begins : (load s (i.head ++ r :: rest)).buf = (i.indent ++ i.addr) ++ ':' ::
      (i.gap ++ (i.bytes.listed ++ r :: (rest ++ '\x00' ::
        s.buf.drop ((i.head ++ r :: rest).length + 1)))) := by
    show (i.head ++ r :: rest) ++ '\x00' :: s.buf.drop ((i.head ++ r :: rest).length + 1) = _
    generalize s.buf.drop ((i.head ++ r :: rest).length + 1) = left
    rw [cut]
    simp
  obtain ⟨tail, buf', long, eq⟩ :=
    instruction_eq begins whole i.gap_blank.1 (by simp) value filled small
  refine ⟨{ s' with
      next := 4 * (ws.length + n : ℤ) + 4
      buf := buf'
      outf := s'.outf ++ [.entry (4 * (ws.length + n : ℤ)) i.bytes.digits tail]
      lanes := s'.lanes.push (bits i.bytes.b3) (bits i.bytes.b2) (bits i.bytes.b1)
        (bits i.bytes.b0) }, ?_, after.dump, ?_, long, ?_, ?_⟩
  · rw [step, if_pos dumped.dump, dumping, cString_load s text,
      if_neg (by rwa [strstr_isSome])]
    simp only [colon]
    exact eq
  · show 4 * (ws.length + n : ℤ) + 4 = _
    simp
    omega
  · rw [entries_append, after.outf, entriesOf_concat]
    simp [entries, Item.entry?]
  · rw [lanesOf_concat, ← after.lanes]

end Teres.Tools.Dump2v
