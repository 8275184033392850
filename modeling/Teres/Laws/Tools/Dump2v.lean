import Teres.Base.Sparse
import Teres.Laws.Tools.Dump2vLines

/-!
# A listing is the memory that `dump2v` writes

The instructions of a listing are a sparse memory, and the case table and the lane files are that
memory: an entry and a line for every address up to the last. `converted_iff` says of which
listings this holds: an instruction with `>:` in its text is taken for a label, the addresses are
`int`, and a line longer than the buffer is read as several.
-/

namespace Teres.Tools.Dump2v

open Cod5asm (isspace)

/-! ## Listings -/

/-- A label line. -/
structure Label where
  address : List Char
  name : List Char
  address_length : address.length = 8
  address_digits : ∀ c ∈ address, (hexDigit c).isSome = true
  name_text : Text name

def Label.text (l : Label) : List Char := l.address ++ " <".toList ++ l.name ++ ">:".toList

/-- A line of a dump. -/
inductive Line where
  | label (l : Label)
  | blank (gap : List Char) (blank : Blank gap)
  | instr (i : Instr)

def Line.text : Line → List Char
  | .label l => l.text
  | .blank gap _ => gap
  | .instr i => i.text

def Line.instr? : Line → Option Instr
  | .instr i => some i
  | _ => none

/-- What stands in front of the dump: not the label at address 0. -/
def Ahead (line : List Char) : Prop :=
  Text line ∧ ¬ ("00000000 ".toList <:+: line ∧ ">:".toList <:+: line)

instance (line : List Char) : Decidable (Ahead line) := inferInstanceAs (Decidable (_ ∧ _))

/-- A listing: lines in front of the dump, the label at address 0 and the lines of the dump. -/
structure Listing where
  preamble : List (List Char)
  start : Label
  body : List Line
  preamble_ahead : ∀ line ∈ preamble, Ahead line
  start_address : start.address = "00000000".toList
  increasing : ((body.filterMap Line.instr?).map Instr.address).Pairwise (· < ·)

namespace Listing

/-- Its lines. -/
def lines (l : Listing) : List (List Char) := l.preamble ++ l.start.text :: l.body.map Line.text

/-- Its text. -/
def text (l : Listing) : List Char := l.lines.flatMap (· ++ ['\n'])

def instrs (l : Listing) : List Instr := l.body.filterMap Line.instr?

end Listing

/-- Where the word of an instruction stands in memory. -/
def Instr.word (i : Instr) : ℕ × Bytes := (i.address / 4, i.bytes)

/-- The memory of a listing: a word for every multiple of four up to the last address. -/
def Listing.memory (l : Listing) : List Bytes := Sparse.memory .zero (l.instrs.map Instr.word)

/-- **The listing is converted**: the table and the lane files are its memory, and the text of the
table has an entry for each of its words. -/
def Converted (buf : List Char) (l : Listing) : Prop :=
  ∃ table lanes, main buf l.text = .ok (table, lanes) ∧ entries table = entriesOf l.memory ∧
    List.Forall₂ (· <+: ·) ((entriesOf l.memory).map heading) (entryTexts table) ∧
    lanes = (lanesOf l.memory).push [] [] [] []

/-! ## What is read -/

/-- What `fgets` reads first of a line. -/
def first (line : List Char) : List Char := (line ++ ['\n']).take (bufSize - 1)

/-- What it reads behind that, where the line does not fit. -/
def later (line : List Char) : List (List Char) := (cuts line).tail

/-- An instruction that is taken for a label. -/
def Instr.Misread (i : Instr) : Prop := ">:".toList <:+: first i.text

instance (i : Instr) : Decidable i.Misread := inferInstanceAs (Decidable (_ <:+: _))

/-- A line that is read as one line, or its word is not. -/
def Line.Reads : Line → Prop
  | .label l => Quiet (first l.text) ∧ ∀ piece ∈ later l.text, Quiet piece
  | .blank _ _ => True
  | .instr i => i.address + 4 < 2 ^ 31 ∧ (i.Misread ∨ i.head.length < bufSize - 1) ∧
      ∀ piece ∈ later i.text, Quiet piece

/-- A listing that is read as what it is, but for zeros. -/
structure Listing.Reads (l : Listing) : Prop where
  start : ">:".toList <:+: first l.start.text ∧ ∀ piece ∈ later l.start.text, Quiet piece
  body : ∀ line ∈ l.body, line.Reads
  missed : ∀ i ∈ l.instrs, i.Misread → i.bytes = .zero
  last : ∀ i, l.instrs.getLast? = some i → ¬ i.Misread

/-- A listing whose dump has only lines that fit the buffer. -/
def Listing.Fits (l : Listing) : Prop :=
  l.start.text.length < bufSize - 1 ∧ ∀ line ∈ l.body, line.text.length < bufSize - 1

theorem cuts_first {line : List Char} (text : '\n' ∉ line) :
    cuts line = first line :: later line := by
  obtain ⟨ps, eq⟩ := cuts_eq text
  rw [later, eq]
  rfl

theorem later_short {line : List Char} (text : '\n' ∉ line) (short : line.length < bufSize - 1) :
    later line = [] := by
  rw [later, cuts_short text short]
  rfl

/-! ## A line of the dump -/

theorem hexDigit_text {s : List Char} (digits : ∀ c ∈ s, (hexDigit c).isSome = true) : Text s :=
  ⟨fun mem => hexDigit_ne (digits _ mem) (by decide) rfl,
    fun mem => hexDigit_ne (digits _ mem) (by decide) rfl⟩

theorem Text.append {s t : List Char} (left : Text s) (right : Text t) : Text (s ++ t) := by
  refine ⟨?_, ?_⟩
  · rw [List.mem_append, not_or]
    exact ⟨left.1, right.1⟩
  · rw [List.mem_append, not_or]
    exact ⟨left.2, right.2⟩

theorem Blank.text {gap : List Char} (blank : Blank gap) : Text gap :=
  ⟨blank.2, fun mem => absurd (List.all_eq_true.1 blank.1 _ mem) (by decide)⟩

theorem byte_text : ∀ b : BitVec 8, Text [high b, low b] := by decide +kernel

theorem Bytes.listed_text (w : Bytes) : Text w.listed := by
  have blank : Text [' '] := by decide
  exact (byte_text w.b0).append (blank.append ((byte_text w.b1).append (blank.append
    ((byte_text w.b2).append (blank.append (byte_text w.b3))))))

theorem Label.text_text (l : Label) : Text l.text := by
  have opening : Text " <".toList := by decide
  have closing : Text ">:".toList := by decide
  exact (((hexDigit_text l.address_digits).append opening).append l.name_text).append closing

theorem Instr.head_text (i : Instr) : Text i.head := by
  have colon : Text [':'] := by decide
  exact (i.indent_blank.text.append (hexDigit_text i.addr_digits)).append
    (colon.append (i.gap_blank.text.append i.bytes.listed_text))

/-- A line has no newline and no NUL. -/
theorem Line.text_text : ∀ line : Line, Text line.text
  | .label l => l.text_text
  | .blank _ gap => gap.text
  | .instr i => i.head_text.append i.tail_text

/-- A piece of a line has no NUL and fits the buffer. -/
theorem cuts_text {line piece : List Char} (text : Text line) (mem : piece ∈ cuts line) :
    '\x00' ∉ piece ∧ piece.length ≤ bufSize - 1 := by
  obtain ⟨inside, fits⟩ := mem_pieces mem
  refine ⟨fun nul => ?_, fits⟩
  have := inside.subset nul
  rw [List.mem_append] at this
  exact this.elim text.2 (by decide)

/-- Pieces that are quiet add nothing. -/
theorem quiet_run {line : List Char} (text : Text line) {s : State} {ws : List Bytes}
    (dumped : Dumped s ws) (ps : List (List Char)) (inside : ∀ piece ∈ ps, piece ∈ cuts line)
    (quiet : ∀ piece ∈ ps, Quiet piece) : ∃ s', ps.foldlM step s = .ok s' ∧ Dumped s' ws := by
  induction ps generalizing s with
  | nil => exact ⟨s, rfl, dumped⟩
  | cons piece ps ih =>
    obtain ⟨nul, fits⟩ := cuts_text text (inside piece List.mem_cons_self)
    obtain ⟨s', here, next⟩ := quiet_step dumped (quiet piece List.mem_cons_self) nul fits
    obtain ⟨s'', rest, after⟩ := ih next (fun p mem => inside p (List.mem_cons_of_mem _ mem))
      fun p mem => quiet p (List.mem_cons_of_mem _ mem)
    refine ⟨s'', ?_, after⟩
    rw [List.foldlM_cons, here]
    exact rest

/-- What is read first of an instruction goes beyond its bytes. -/
theorem Instr.first_eq {i : Instr} (short : i.head.length < bufSize - 1) :
    ∃ r rest, first i.text = i.head ++ r :: rest := by
  have more : (i.tail ++ ['\n']).take (bufSize - 1 - i.head.length) ≠ [] := by
    intro none
    have := congrArg List.length none
    rw [List.length_take, List.length_append] at this
    simp only [List.length_singleton, List.length_nil] at this
    omega
  obtain ⟨r, rest, eq⟩ := List.exists_cons_of_ne_nil more
  refine ⟨r, rest, ?_⟩
  rw [first, Instr.text, List.append_assoc, List.take_append,
    List.take_of_length_le (Nat.le_of_lt short), eq]

/-- The words of a line, as they are read. -/
def Line.seen : Line → List (ℕ × Bytes)
  | .label _ => []
  | .blank _ _ => []
  | .instr i => if i.Misread then [] else [i.word]

/-- A line that is taken for a label adds nothing. -/
theorem quiet_line {line : List Char} (text : Text line) {s : State} {ws : List Bytes}
    (dumped : Dumped s ws) (begins : Quiet (first line))
    (goes : ∀ piece ∈ later line, Quiet piece) :
    ∃ s', (cuts line).foldlM step s = .ok s' ∧ Dumped s' ws := by
  refine quiet_run text dumped _ (fun _ mem => mem) fun piece mem => ?_
  rw [cuts_first text.1, List.mem_cons] at mem
  rcases mem with rfl | mem
  · exact begins
  · exact goes piece mem

/-- **A line of the dump adds its word.** -/
theorem line_step {line : Line} (reads : line.Reads) {s : State} {m : List (ℕ × Bytes)}
    (dumped : Dumped s (Sparse.memory .zero m)) (inc : Sparse.Increasing (m ++ line.seen)) :
    ∃ s', (cuts line.text).foldlM step s = .ok s' ∧
      Dumped s' (Sparse.memory .zero (m ++ line.seen)) := by
  cases line with
  | label l =>
    rw [Line.seen, List.append_nil]
    exact quiet_line l.text_text dumped reads.1 reads.2
  | blank gap blank =>
    have colon : ∀ piece ∈ cuts gap, ':' ∉ piece := by
      intro piece mem colon
      have := (mem_pieces mem).1.subset colon
      rw [List.mem_append] at this
      rcases this with inside | newline
      · exact absurd (List.all_eq_true.1 blank.1 _ inside) (by decide)
      · exact absurd newline (by decide)
    rw [Line.seen, List.append_nil]
    exact quiet_run blank.text dumped _ (fun _ mem => mem) fun piece mem => .inr (colon piece mem)
  | instr i =>
    obtain ⟨int, begins, goes⟩ := reads
    have text : Text i.text := i.head_text.append i.tail_text
    by_cases misread : i.Misread
    · rw [Line.seen, if_pos misread, List.append_nil]
      exact quiet_line text dumped (.inl misread) goes
    · rw [Line.seen, if_neg misread] at inc ⊢
      obtain ⟨r, rest, eq⟩ := i.first_eq (begins.resolve_left misread)
      have mem : first i.text ∈ cuts i.text := by
        rw [cuts_first text.1]
        exact List.mem_cons_self
      obtain ⟨nul, fits⟩ := cuts_text text mem
      have place : i.address =
          4 * ((Sparse.memory .zero m).length + (i.address / 4 - Sparse.size m)) := by
        have behind : Sparse.size m ≤ i.address / 4 := inc.size_le
        rw [Sparse.memory_length, Nat.add_sub_cancel' behind]
        exact (Nat.mul_div_cancel' i.aligned).symm
      rw [eq] at nul fits
      obtain ⟨s', here, next⟩ := instr_step dumped i place int (eq ▸ misread) nul fits
      obtain ⟨s'', after, kept⟩ := quiet_run text next (later i.text)
        (fun piece mem => by rw [cuts_first text.1]; exact List.mem_cons_of_mem _ mem) goes
      refine ⟨s'', ?_, ?_⟩
      · rw [Line.text, cuts_first text.1, List.foldlM_cons, eq, here]
        exact after
      · rw [Instr.word, Sparse.memory_concat inc]
        exact kept

/-- **The lines of the dump add their words.** -/
theorem body_run {body : List Line} (reads : ∀ line ∈ body, line.Reads) {s : State}
    {m : List (ℕ × Bytes)} (dumped : Dumped s (Sparse.memory .zero m))
    (inc : Sparse.Increasing (m ++ body.flatMap Line.seen)) :
    ∃ s', (body.flatMap fun line => cuts line.text).foldlM step s = .ok s' ∧
      Dumped s' (Sparse.memory .zero (m ++ body.flatMap Line.seen)) := by
  induction body generalizing s m with
  | nil =>
    refine ⟨s, rfl, ?_⟩
    rwa [List.flatMap_nil, List.append_nil]
  | cons line body ih =>
    have parts : m ++ (line :: body).flatMap Line.seen =
        m ++ line.seen ++ body.flatMap Line.seen := by
      rw [List.flatMap_cons, List.append_assoc]
    rw [parts] at inc ⊢
    have inc' : Sparse.Increasing (m ++ line.seen) := by
      unfold Sparse.Increasing at inc
      rw [List.map_append, List.pairwise_append] at inc
      exact inc.1
    obtain ⟨s', here, next⟩ := line_step (reads line List.mem_cons_self) dumped inc'
    obtain ⟨s'', rest, after⟩ := ih (fun l mem => reads l (List.mem_cons_of_mem _ mem)) next inc
    refine ⟨s'', ?_, after⟩
    rw [List.flatMap_cons, List.foldlM_append, here]
    exact rest

/-! ## The whole listing -/

/-- In front of the dump nothing is written. -/
structure Waiting (s : State) : Prop where
  dump : s.dump = false
  next : s.next = 0
  buf : s.buf.length = bufSize
  outf : s.outf = []
  lanes : s.lanes = lanesOf []

/-- What is found in a piece of a line is found in the line. -/
theorem infix_line {pat line piece : List Char} (inner : '\n' ∉ pat) (some : pat ≠ [])
    (mem : piece ∈ cuts line) (found : pat <:+: piece) : pat <:+: line := by
  have whole := found.trans (mem_pieces mem).1
  rw [List.infix_concat_iff] at whole
  refine whole.resolve_left fun ends => ?_
  rw [List.suffix_concat_iff] at ends
  rcases ends with empty | ⟨t, eq, _⟩
  · exact some empty
  · exact inner (by rw [eq]; simp)

/-- **A line in front of the dump writes nothing.** -/
theorem ahead_run {line : List Char} (ahead : Ahead line) {s : State} (waits : Waiting s)
    (ps : List (List Char)) (inside : ∀ piece ∈ ps, piece ∈ cuts line) :
    ∃ s', ps.foldlM step s = .ok s' ∧ Waiting s' := by
  induction ps generalizing s with
  | nil => exact ⟨s, rfl, waits⟩
  | cons piece ps ih =>
    have mem := inside piece List.mem_cons_self
    obtain ⟨nul, fits⟩ := cuts_text ahead.1 mem
    have other : ¬ ("00000000 ".toList <:+: piece ∧ ">:".toList <:+: piece) := fun both =>
      ahead.2 ⟨infix_line (by decide) (by decide) mem both.1,
        infix_line (by decide) (by decide) mem both.2⟩
    have stays : waiting (load s piece) = load s piece := by
      rw [waiting, cString_load s nul, if_neg]
      rw [Bool.and_eq_true, strstr_isSome, strstr_isSome]
      exact other
    have here : step s piece = .ok (load s piece) := by
      rw [step, waits.dump, stays]
      rfl
    have next : Waiting (load s piece) :=
      ⟨waits.dump, waits.next, load_length waits.buf fits, waits.outf, waits.lanes⟩
    obtain ⟨s', rest, after⟩ := ih next fun p mem => inside p (List.mem_cons_of_mem _ mem)
    refine ⟨s', ?_, after⟩
    rw [List.foldlM_cons, here]
    exact rest

theorem preamble_run {lines : List (List Char)} (ahead : ∀ line ∈ lines, Ahead line) {s : State}
    (waits : Waiting s) : ∃ s', (lines.flatMap cuts).foldlM step s = .ok s' ∧ Waiting s' := by
  induction lines generalizing s with
  | nil => exact ⟨s, rfl, waits⟩
  | cons line lines ih =>
    obtain ⟨s', here, next⟩ :=
      ahead_run (ahead line List.mem_cons_self) waits (cuts line) fun _ mem => mem
    obtain ⟨s'', rest, after⟩ := ih (fun l mem => ahead l (List.mem_cons_of_mem _ mem)) next
    refine ⟨s'', ?_, after⟩
    rw [List.flatMap_cons, List.foldlM_append, here]
    exact rest

/-- The label at address 0 has its address in the first piece. -/
theorem start_first (l : Listing) : "00000000 ".toList <:+: first l.start.text := by
  have whole : l.start.text ++ ['\n'] =
      "00000000 ".toList ++ ('<' :: l.start.name ++ ">:".toList ++ ['\n']) := by
    rw [Label.text, l.start_address]
    rfl
  rw [first, whole]
  exact (List.prefix_take_iff.2 ⟨List.prefix_append _ _, by decide⟩).isInfix

/-- **The label at address 0 begins the dump.** -/
theorem start_run (l : Listing) (label : ">:".toList <:+: first l.start.text)
    (goes : ∀ piece ∈ later l.start.text, Quiet piece) {s : State} (waits : Waiting s) :
    ∃ s', (cuts l.start.text).foldlM step s = .ok s' ∧ Dumped s' [] := by
  have text := l.start.text_text
  have mem : first l.start.text ∈ cuts l.start.text := by
    rw [cuts_first text.1]
    exact List.mem_cons_self
  obtain ⟨nul, fits⟩ := cuts_text text mem
  have begun : Dumped (waiting (load s (first l.start.text))) [] := by
    have both : ((strstr "00000000 ".toList (first l.start.text)).isSome &&
        (strstr ">:".toList (first l.start.text)).isSome) = true := by
      rw [Bool.and_eq_true, strstr_isSome, strstr_isSome]
      exact ⟨start_first l, label⟩
    rw [waiting, cString_load s nul, if_pos both]
    refine ⟨rfl, waits.next, load_length waits.buf fits, ?_, waits.lanes⟩
    show entries (s.outf ++ [.opening _]) = entriesOf []
    rw [waits.outf]
    rfl
  obtain ⟨s', after, kept⟩ := quiet_run text begun (later l.start.text)
    (fun piece mem => by rw [cuts_first text.1]; exact List.mem_cons_of_mem _ mem) goes
  refine ⟨s', ?_, kept⟩
  rw [cuts_first text.1, List.foldlM_cons, step, waits.dump]
  exact after

/-- Lines are read one by one. -/
theorem pieces_lines {lines : List (List Char)} (text : ∀ line ∈ lines, '\n' ∉ line) :
    pieces (lines.flatMap (· ++ ['\n'])) = lines.flatMap cuts := by
  induction lines with
  | nil => rfl
  | cons line lines ih =>
    rw [List.flatMap_cons, List.flatMap_cons, List.append_assoc, List.singleton_append,
      pieces_line (text line List.mem_cons_self),
      ih fun l mem => text l (List.mem_cons_of_mem _ mem)]

theorem Listing.lines_text (l : Listing) : ∀ line ∈ l.lines, Text line := by
  intro line mem
  rw [Listing.lines, List.mem_append, List.mem_cons, List.mem_map] at mem
  rcases mem with mem | rfl | ⟨line, _, rfl⟩
  · exact (l.preamble_ahead line mem).1
  · exact l.start.text_text
  · exact line.text_text

/-- The words of the lines that are not taken for labels. -/
theorem seen_eq (body : List Line) : body.flatMap Line.seen =
    ((body.filterMap Line.instr?).filter fun i => !decide i.Misread).map Instr.word := by
  induction body with
  | nil => rfl
  | cons line body ih =>
    rw [List.flatMap_cons, ih]
    cases line with
    | label l => rfl
    | blank gap blank => rfl
    | instr i =>
      show (if i.Misread then [] else [i.word]) ++ _ = ((i :: _).filter _).map _
      by_cases misread : i.Misread
      · rw [if_pos misread, List.filter_cons_of_neg (by simpa using misread)]
        rfl
      · rw [if_neg misread, List.filter_cons_of_pos (by simpa using misread)]
        rfl

/-- What is seen of a listing. -/
def Listing.seen (l : Listing) : List Bytes :=
  Sparse.memory .zero ((l.instrs.filter fun i => !decide i.Misread).map Instr.word)

theorem Listing.words (l : Listing) : Sparse.Increasing (l.instrs.map Instr.word) := by
  unfold Sparse.Increasing
  rw [List.map_map, List.pairwise_map]
  refine (List.pairwise_map.1 l.increasing).imp fun {i j} less => ?_
  have multiple (i : Instr) : i.address = 4 * (i.address / 4) :=
    (Nat.mul_div_cancel' i.aligned).symm
  have left := multiple i
  have right := multiple j
  show i.address / 4 < j.address / 4
  omega

/-- **What is seen of a listing is converted.** -/
theorem main_run (l : Listing) {buf : List Char} (whole : buf.length = bufSize)
    (label : ">:".toList <:+: first l.start.text)
    (goes : ∀ piece ∈ later l.start.text, Quiet piece) (reads : ∀ line ∈ l.body, line.Reads) :
    ∃ table lanes, main buf l.text = .ok (table, lanes) ∧ entries table = entriesOf l.seen ∧
      lanes = (lanesOf l.seen).push [] [] [] [] := by
  have inc : Sparse.Increasing ([] ++ l.body.flatMap Line.seen) := by
    rw [List.nil_append, seen_eq]
    exact l.words.filter _
  have opened : Waiting ⟨false, 0, buf, [], ⟨[], [], [], []⟩⟩ := ⟨rfl, rfl, whole, rfl, rfl⟩
  obtain ⟨s₁, run₁, waits⟩ := preamble_run l.preamble_ahead opened
  obtain ⟨s₂, run₂, begun⟩ := start_run l label goes waits
  obtain ⟨s₃, run₃, dumped⟩ := body_run (m := []) reads begun inc
  rw [List.nil_append, seen_eq] at dumped
  refine ⟨s₃.outf, _, ?_, dumped.outf, congrArg (·.push [] [] [] []) dumped.lanes⟩
  have run : loop l.text.length l.text ⟨false, 0, buf, [], ⟨[], [], [], []⟩⟩ = .ok s₃ := by
    rw [loop_eq]
    show (pieces l.text).foldlM step _ = _
    rw [Listing.text, pieces_lines fun line mem => (l.lines_text line mem).1, Listing.lines,
      List.flatMap_append, List.flatMap_cons, List.foldlM_append, run₁]
    show (cuts l.start.text ++ _).foldlM step s₁ = _
    rw [List.foldlM_append, run₂, List.flatMap_map]
    exact run₃
  rw [main, run]
  rfl

/-! ## Listings that are not converted -/

/-- The addresses of the table are far from the largest `int`. -/
def Small (s : State) : Prop := ∀ e ∈ entries s.outf, e.1 + 4 < 2 ^ 31

theorem addFour_ok {x y : ℤ} (ok : addFour x = .ok y) : y = x + 4 ∧ x + 4 < 2 ^ 31 := by
  unfold addFour at ok
  split_ifs at ok with small
  exact ⟨(Except.ok.inj ok).symm, small⟩

theorem Small.entry {s : State} (small : Small s) (item : Item)
    (fits : ∀ e ∈ entries [item], e.1 + 4 < 2 ^ 31) {s' : State}
    (more : s'.outf = s.outf ++ [item]) : Small s' := by
  intro e mem
  rw [more, entries_append, List.mem_append] at mem
  exact mem.elim (small e) (fits e)

theorem fill_small (line : ℤ) (k : ℕ) {s s' : State} (small : Small s)
    (ok : fill line k s = .ok s') : Small s' := by
  induction k generalizing s with
  | zero =>
    obtain rfl := Except.ok.inj ok
    exact small
  | succ k ih =>
    rw [fill] at ok
    split_ifs at ok with before
    · cases four : addFour s.next with
      | error e =>
        rw [four] at ok
        cases ok
      | ok next =>
        rw [four] at ok
        refine ih (small.entry (.nop s.next) (fun e mem => ?_) rfl) ok
        obtain rfl := List.mem_singleton.1 mem
        exact (addFour_ok four).2
    · obtain rfl := Except.ok.inj ok
      exact small

theorem bind_ok {α β : Type} {x : M α} {f : α → M β} {b : β} (ok : x >>= f = .ok b) :
    ∃ a, x = .ok a ∧ f a = .ok b := by
  cases x with
  | error e => cases ok
  | ok a => exact ⟨a, rfl, ok⟩

theorem instruction_small {s s' : State} {colon : ℕ} (small : Small s)
    (ok : instruction s colon = .ok s') : Small s' := by
  unfold instruction at ok
  obtain ⟨s₁, filled, ok⟩ := bind_ok ok
  have after := fill_small _ _ small filled
  dsimp only at ok
  split at ok
  · cases ok
  · obtain ⟨_, _, ok⟩ := bind_ok ok
    obtain ⟨_, _, ok⟩ := bind_ok ok
    obtain ⟨_, _, ok⟩ := bind_ok ok
    obtain ⟨_, _, ok⟩ := bind_ok ok
    split at ok
    · cases ok
    · obtain ⟨next, four, ok⟩ := bind_ok ok
      obtain rfl := Except.ok.inj ok
      refine after.entry (.entry _ _ _) (fun e mem => ?_) rfl
      obtain rfl := List.mem_singleton.1 mem
      exact (addFour_ok four).2

/-- **No step writes an address near the largest `int`.** -/
theorem step_small {s s' : State} {piece : List Char} (small : Small s)
    (ok : step s piece = .ok s') : Small s' := by
  have loaded : Small (load s piece) := small
  unfold step at ok
  generalize load s piece = t at loaded ok
  split_ifs at ok with dump
  · unfold dumping at ok
    dsimp only at ok
    split_ifs at ok with label
    · obtain rfl := Except.ok.inj ok
      exact loaded.entry (.label _ _) (fun e mem => absurd mem List.not_mem_nil) rfl
    · cases found : strstr ":".toList (cString t.buf) with
      | some colon =>
        simp only [found] at ok
        exact instruction_small loaded ok
      | none =>
        simp only [found] at ok
        obtain rfl := Except.ok.inj ok
        exact loaded
  · obtain rfl := Except.ok.inj ok
    unfold waiting
    dsimp only
    split_ifs with opens
    · exact loaded.entry (.opening _) (fun e mem => absurd mem List.not_mem_nil) rfl
    · exact loaded

theorem run_small {ps : List (List Char)} {s s' : State} (small : Small s)
    (ok : ps.foldlM step s = .ok s') : Small s' := by
  induction ps generalizing s with
  | nil =>
    obtain rfl := Except.ok.inj ok
    exact small
  | cons piece ps ih =>
    rw [List.foldlM_cons] at ok
    obtain ⟨s₁, here, rest⟩ := bind_ok ok
    exact ih (step_small small here) rest

/-- **A listing that is converted has small addresses.** -/
theorem Converted.int {buf : List Char} {l : Listing} (converted : Converted buf l) :
    ∀ i ∈ l.instrs, i.address + 4 < 2 ^ 31 := by
  obtain ⟨table, lanes, ok, same, _⟩ := converted
  unfold main at ok
  rw [loop_eq] at ok
  obtain ⟨s, run, ok⟩ := bind_ok ok
  obtain rfl : s.outf = table := congrArg Prod.fst (Except.ok.inj ok)
  have small := run_small (fun e mem => absurd mem List.not_mem_nil) run
  intro i mem
  have inside : (i.address / 4) < Sparse.size (l.instrs.map Instr.word) :=
    l.words.lt_size (List.mem_map_of_mem mem)
  have entry : (4 * ((i.address / 4 : ℕ) : ℤ), i.bytes.digits) ∈ entriesOf l.memory := by
    have here : l.memory[i.address / 4]? = some i.bytes := by
      have found := Sparse.lookup_map l.words mem
      rw [Listing.memory, Sparse.memory_get?, if_pos inside]
      exact congrArg (fun w : Option Bytes => some (w.getD .zero)) found
    refine List.mem_of_getElem? (i := i.address / 4) ?_
    rw [entriesOf, List.getElem?_mapIdx, here]
    rfl
  have bound := small _ (same ▸ entry)
  have multiple : 4 * (i.address / 4) = i.address := Nat.mul_div_cancel' i.aligned
  omega

/-! ## The law -/

theorem high_low (b : BitVec 8) :
    16 * (hexDigit (high b)).getD 0 + (hexDigit (low b)).getD 0 = b.toNat := by
  revert b
  decide +kernel

theorem digits_injective {w w' : Bytes} (same : w.digits = w'.digits) : w = w' := by
  have byte {b b' : BitVec 8} (first : high b = high b') (second : low b = low b') : b = b' := by
    rw [← BitVec.toNat_inj, ← high_low b, ← high_low b', first, second]
  simp only [Bytes.digits, List.cons.injEq, and_true] at same
  obtain ⟨h3, l3, h2, l2, h1, l1, h0, l0⟩ := same
  cases w
  cases w'
  rw [Bytes.mk.injEq]
  exact ⟨byte h0 l0, byte h1 l1, byte h2 l2, byte h3 l3⟩

/-- A table is the table of one memory. -/
theorem entriesOf_injective {ws ws' : List Bytes} (same : entriesOf ws = entriesOf ws') :
    ws = ws' := by
  refine List.ext_getElem? fun k => ?_
  have here := congrArg (·[k]?) same
  simp only [entriesOf, List.getElem?_mapIdx] at here
  refine Option.map_injective (fun w w' eq => ?_) here
  exact digits_injective (congrArg Prod.snd eq)

/-- A label that fits is read as a label. -/
theorem Label.first_short {l : Label} (short : l.text.length < bufSize - 1) :
    ">:".toList <:+: first l.text := by
  have whole : (l.text ++ ['\n']).length ≤ bufSize - 1 := by
    rw [List.length_append]
    exact Nat.succ_le_of_lt short
  rw [first, List.take_of_length_le whole]
  exact ⟨_, ['\n'], rfl⟩

/-- A line that fits is read as one line. -/
theorem Line.reads_short {line : Line} (short : line.text.length < bufSize - 1)
    (int : ∀ i, line.instr? = some i → i.address + 4 < 2 ^ 31) : line.Reads := by
  have quiet : ∀ piece ∈ later line.text, Quiet piece := by
    rw [later_short line.text_text.1 short]
    exact fun _ mem => absurd mem List.not_mem_nil
  cases line with
  | label l =>
    exact ⟨.inl (Label.first_short short), quiet⟩
  | blank gap blank => trivial
  | instr i =>
    refine ⟨int i rfl, .inr ?_, quiet⟩
    exact Nat.lt_of_le_of_lt (List.prefix_append i.head i.tail).length_le short

/-- **When the listing is converted.** -/
theorem converted_iff {buf : List Char} (whole : buf.length = bufSize) (l : Listing) :
    (l.Reads → Converted buf l) ∧ (l.Fits → (Converted buf l ↔ l.Reads)) := by
  have visible : l.seen = l.memory ↔
      (∀ i ∈ l.instrs, i.Misread → i.bytes = .zero) ∧
        ∀ i, l.instrs.getLast? = some i → ¬ i.Misread := by
    have law : Sparse.memory Bytes.zero _ = Sparse.memory Bytes.zero _ ↔ _ :=
      Sparse.memory_filter_iff l.words fun i => !decide i.Misread
    simp only [Bool.not_eq_false', decide_eq_true_eq, Bool.not_eq_true',
      decide_eq_false_iff_not] at law
    exact law
  have forward : l.Reads → Converted buf l := by
    intro reads
    obtain ⟨table, lanes, ok, written, filed⟩ :=
      main_run l whole reads.start.1 reads.start.2 reads.body
    rw [visible.2 ⟨reads.missed, reads.last⟩] at written filed
    exact ⟨table, lanes, ok, written, written ▸ entryTexts_headed table, filed⟩
  refine ⟨forward, fun fits => ⟨fun converted => ?_, forward⟩⟩
  have label := Label.first_short fits.1
  have goes : ∀ piece ∈ later l.start.text, Quiet piece := by
    rw [later_short l.start.text_text.1 fits.1]
    exact fun _ mem => absurd mem List.not_mem_nil
  have reads : ∀ line ∈ l.body, line.Reads := fun line mem =>
    Line.reads_short (fits.2 line mem) fun i eq =>
      converted.int i (List.mem_filterMap.2 ⟨line, mem, eq⟩)
  obtain ⟨table, lanes, ok, written, _⟩ := main_run l whole label goes reads
  obtain ⟨table', lanes', ok', same, _⟩ := converted
  obtain rfl : table = table' := congrArg Prod.fst (Except.ok.inj (ok.symm.trans ok'))
  obtain ⟨missed, last⟩ := visible.1 (entriesOf_injective (written.symm.trans same))
  exact ⟨⟨label, goes⟩, reads, missed, last⟩

/-- A label, an instruction, a gap and an instruction. -/
def gapped : Listing where
  preamble := ["a.elf:     file format elf32-littleriscv".toList, []]
  start := ⟨"00000000".toList, "_start".toList, by decide, List.all_eq_true.1 rfl, by decide⟩
  body := [
    .instr ⟨"   ".toList, "0".toList, "\t".toList, ⟨0x6f, 0x00, 0x80, 0x00⟩,
      " \tj\t8 <f>".toList, by decide, by decide,
      List.all_eq_true.1 rfl, by decide, by decide, by decide⟩,
    .blank [] (by decide),
    .label ⟨"00000008".toList, "f".toList, by decide, List.all_eq_true.1 rfl, by decide⟩,
    .instr ⟨"   ".toList, "8".toList, "\t".toList, ⟨0x67, 0x80, 0x00, 0x00⟩,
      " \tret".toList, by decide, by decide,
      List.all_eq_true.1 rfl, by decide, by decide, by decide⟩]
  preamble_ahead := by decide
  start_address := rfl
  increasing := by decide

theorem converted_iff_gapped : Converted (List.replicate bufSize '\x00') gapped := by
  refine (converted_iff List.length_replicate gapped).1 ⟨⟨?_, ?_⟩, ?_, ?_, ?_⟩
  · exact Label.first_short (by decide)
  · rw [later_short gapped.start.text_text.1 (by decide)]
    exact fun _ mem => absurd mem List.not_mem_nil
  · have short : ∀ line ∈ gapped.body, line.text.length < bufSize - 1 := by decide
    have int : ∀ i ∈ gapped.instrs, i.address + 4 < 2 ^ 31 := by decide
    exact fun line mem => Line.reads_short (short line mem) fun i eq =>
      int i (List.mem_filterMap.2 ⟨line, mem, eq⟩)
  · decide
  · decide

/-- A call of a method of a template: the text of the instruction has `>:` in it. -/
def methodCall : Listing where
  preamble := []
  start := ⟨"00000000".toList, "_start".toList, by decide, List.all_eq_true.1 rfl, by decide⟩
  body := [
    .instr ⟨"   ".toList, "0".toList, "\t".toList, ⟨0xef, 0x00, 0x40, 0x00⟩,
      " \tjal\tra,4 <A<int>::f()>".toList, by decide, by decide,
      List.all_eq_true.1 rfl, by decide, by decide, by decide⟩,
    .blank [] (by decide),
    .label ⟨"00000004".toList, "A<int>::f()".toList, by decide, List.all_eq_true.1 rfl, by decide⟩,
    .instr ⟨"   ".toList, "4".toList, "\t".toList, ⟨0x67, 0x80, 0x00, 0x00⟩,
      " \tret".toList, by decide, by decide,
      List.all_eq_true.1 rfl, by decide, by decide, by decide⟩]
  preamble_ahead := by decide
  start_address := rfl
  increasing := by decide

theorem call_missed : ¬ Converted (List.replicate bufSize '\x00') methodCall := by
  rintro ⟨table, lanes, ok, same, _⟩
  have written : (main (List.replicate bufSize '\x00') methodCall.text).toOption.map
      (fun r => entries r.1) ≠ some (entriesOf methodCall.memory) := by
    decide +kernel
  refine written ?_
  rw [ok, ← same]
  rfl

end Teres.Tools.Dump2v
