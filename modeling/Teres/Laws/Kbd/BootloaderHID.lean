import Mathlib.Logic.Function.Basic
import Teres.Kbd.BootloaderHID

/-!
# The boot loader

A report for a page programs that page and no other (`setReport_page`), however it is cut into
packets of whole words. And the loader leaves its loop, at its next test, if the command to start
the application has come, or if the timer has overflowed more than `BOOTLOADER_TIMEOUT` times with
no page in between, and for no other reason (`left_iff`). A report that is cut off keeps it from the
test.
-/

namespace Teres.Kbd.BootloaderHID

/-! ## Words -/

/-- The words of bytes. -/
def words : List (BitVec 8) → List (BitVec 16)
  | low :: high :: bytes => (high ++ low) :: words bytes
  | _ => []

theorem words_length {n : ℕ} {bytes : List (BitVec 8)} (even : bytes.length = 2 * n) :
    (words bytes).length = n := by
  induction n generalizing bytes with
  | zero =>
    rw [List.length_eq_zero_iff.1 even]
    rfl
  | succ n ih =>
    obtain ⟨low, r, rfl⟩ := List.exists_cons_of_length_pos (show 0 < bytes.length by omega)
    rw [List.length_cons] at even
    obtain ⟨high, r, rfl⟩ := List.exists_cons_of_length_pos (show 0 < r.length by omega)
    rw [List.length_cons] at even
    rw [words, List.length_cons, ih (by omega)]

theorem half_append (high low : BitVec 8) (a : ℕ) :
    half (high ++ low) a = if a % 2 = 0 then low else high := by
  unfold half
  split
  · exact BitVec.extractLsb'_append_eq_right
  · exact BitVec.extractLsb'_append_eq_left

/-- A byte of the words. -/
theorem words_half {n : ℕ} {bytes : List (BitVec 8)} (even : bytes.length = 2 * n) {a : ℕ}
    (inside : a < bytes.length) :
    half ((words bytes)[a / 2]?.getD 0xFFFF#16) a = bytes.getD a 0xFF#8 := by
  induction n generalizing bytes a with
  | zero => omega
  | succ n ih =>
    obtain ⟨low, r, rfl⟩ := List.exists_cons_of_length_pos (show 0 < bytes.length by omega)
    rw [List.length_cons] at even inside
    obtain ⟨high, r, rfl⟩ := List.exists_cons_of_length_pos (show 0 < r.length by omega)
    rw [List.length_cons] at even inside
    rw [words]
    rcases Nat.lt_or_ge a 2 with pair | more
    · obtain rfl | rfl : a = 0 ∨ a = 1 := by omega
      · exact half_append high low 0
      · exact half_append high low 1
    · obtain ⟨b, rfl⟩ := Nat.exists_eq_add_of_le' more
      have next : (b + 2) / 2 = b / 2 + 1 := by omega
      have parity (w : BitVec 16) : half w (b + 2) = half w b := by
        rw [half, half, Nat.add_mod_right]
      rw [next, List.getElem?_cons_succ, parity]
      exact ih (by omega) (by omega)

/-! ## A flash memory -/

/-- The bytes of a flash memory, and the words that wait. -/
structure Avr where
  byte : ℕ → BitVec 8
  buffer : ℕ → Option (BitVec 16)

/-- Its instructions, for pages of `size` bytes. -/
def Avr.spm (size : ℕ) : Spm Avr where
  erase p s := { s with byte := fun a => if a / size = p / size then 0xFF#8 else s.byte a }
  fill p w s := { s with buffer := Function.update s.buffer (p % size / 2) (some w) }
  write p s := ⟨fun a => if a / size = p / size then
    s.byte a &&& half ((s.buffer (a % size / 2)).getD 0xFFFF#16) a else s.byte a, fun _ => none⟩
  byte := Avr.byte
  buffer := Avr.buffer

theorem Avr.lawful (size : ℕ) : (Avr.spm size).Lawful size where
  erase_byte _ _ _ := rfl
  erase_buffer _ _ := rfl
  fill_byte _ _ _ := rfl
  fill_buffer p w s _ i := by
    change Function.update s.buffer _ _ i = _
    rw [Function.update_apply]
    rfl
  write_byte _ _ _ := rfl
  write_buffer _ _ _ := rfl

/-! ## The endpoint -/

/-- Packets of whole words. -/
def Even (packets : List (List (BitVec 8))) : Prop := ∀ p ∈ packets, p ≠ [] ∧ p.length % 2 = 0

/-- How a report is sent. -/
structure Packets (packets : List (List (BitVec 8))) (report : List (BitVec 8)) : Prop where
  whole : packets.flatten = report
  even : Even packets

/-- What is left of a report. -/
structure Holds (e : Endpoint) (bytes : List (BitVec 8)) : Prop where
  whole : e.bank ++ e.waiting.flatten = bytes
  bank : e.bank.length % 2 = 0
  even : Even e.waiting

theorem Packets.holds {packets : List (List (BitVec 8))} {report : List (BitVec 8)}
    (h : Packets packets report) : Holds ⟨[], packets⟩ report := ⟨h.whole, rfl, h.even⟩

/-- **The next word of a report.** -/
theorem Holds.read {e : Endpoint} {low high : BitVec 8} {bytes : List (BitVec 8)}
    (h : Holds e (low :: high :: bytes)) :
    ∃ e₁ e₂, (if e.bank = [] then e.clearOut else some e) = some e₁ ∧
      e₁.read16 = some (high ++ low, e₂) ∧ Holds e₂ bytes := by
  obtain ⟨bank, waiting⟩ := e
  obtain ⟨whole, even, later⟩ := h
  dsimp only at whole even later
  -- the packet that the word is in
  obtain ⟨packet, rest, got, left, more, even', later'⟩ : ∃ packet rest,
      (if bank = [] then Endpoint.clearOut ⟨bank, waiting⟩ else some ⟨bank, waiting⟩) =
        some ⟨packet, rest⟩ ∧ packet ++ rest.flatten = low :: high :: bytes ∧ packet ≠ [] ∧
      packet.length % 2 = 0 ∧ Even rest := by
    by_cases empty : bank = []
    · subst empty
      cases waiting with
      | nil => exact absurd whole (List.cons_ne_nil _ _).symm
      | cons packet rest =>
        obtain ⟨more, even⟩ := later packet List.mem_cons_self
        exact ⟨packet, rest, if_pos rfl, whole, more, even,
          fun p mem => later p (List.mem_cons_of_mem _ mem)⟩
    · exact ⟨bank, waiting, if_neg empty, whole, empty, even, later⟩
  obtain ⟨low', p, rfl⟩ := List.exists_cons_of_ne_nil more
  obtain ⟨high', p, rfl⟩ := List.exists_cons_of_length_pos (l := p) (by
    rw [List.length_cons] at even'
    omega)
  rw [List.cons_append, List.cons_append] at left
  obtain ⟨rfl, next⟩ := List.cons.inj left
  obtain ⟨rfl, behind⟩ := List.cons.inj next
  have parity : p.length % 2 = 0 := by
    rw [List.length_cons, List.length_cons] at even'
    omega
  exact ⟨_, ⟨p, rest⟩, got, rfl, behind, parity, later'⟩

section Device

variable {σ : Type} {chip : Chip} {spm : Spm σ}

/-! ## A page -/

/-- Words that are filled in one behind the other. -/
def fillAll (chip : Chip) (spm : Spm σ) (page : ℕ) : ℕ → List (BitVec 16) → σ → σ
  | _, [], flash => flash
  | word, w :: ws, flash =>
    fillAll chip spm page (word + 1) ws (spm.fill ((page + word * 2) % 2 ^ chip.width) w flash)

theorem fillLoop_succ {e e₁ e₂ : Endpoint} {w : BitVec 16}
    (got : (if e.bank = [] then e.clearOut else some e) = some e₁) (read : e₁.read16 = some (w, e₂))
    (page k word : ℕ) (flash : σ) :
    fillLoop chip spm page (k + 1) word e flash = fillLoop chip spm page k (word + 1) e₂
      (spm.fill ((page + word * 2) % 2 ^ chip.width) w flash) := by
  rw [fillLoop, got]
  change (e₁.read16 >>= _) = _
  rw [read]
  rfl

/-- **The loop fills in the words that the report has.** -/
theorem fillLoop_words {k : ℕ} {bytes : List (BitVec 8)} (len : bytes.length = 2 * k) {e : Endpoint}
    (h : Holds e bytes) (page word : ℕ) (flash : σ) :
    fillLoop chip spm page k word e flash =
      some (.ends (fillAll chip spm page word (words bytes) flash)) := by
  induction k generalizing bytes e word flash with
  | zero =>
    rw [List.length_eq_zero_iff.1 len]
    rfl
  | succ k ih =>
    obtain ⟨low, r, rfl⟩ := List.exists_cons_of_length_pos (show 0 < bytes.length by omega)
    rw [List.length_cons] at len
    obtain ⟨high, r, rfl⟩ := List.exists_cons_of_length_pos (show 0 < r.length by omega)
    rw [List.length_cons] at len
    obtain ⟨e₁, e₂, got, read, rest⟩ := h.read
    rw [fillLoop_succ got read]
    exact ih (by omega) rest _ _

/-- No word waits to be written. -/
def Clear (spm : Spm σ) (flash : σ) : Prop := ∀ i, spm.buffer flash i = none

/-- A page of the chip. -/
structure Chip.Page (chip : Chip) (page : ℕ) : Prop where
  aligned : page % chip.pageSize = 0
  inside : page + chip.pageSize ≤ 2 ^ chip.width

theorem fillAll_byte (lawful : spm.Lawful chip.pageSize) (page word : ℕ) (ws : List (BitVec 16))
    (flash : σ) : spm.byte (fillAll chip spm page word ws flash) = spm.byte flash := by
  induction ws generalizing word flash with
  | nil => rfl
  | cons w ws ih => rw [fillAll, ih, lawful.fill_byte]

/-- The words wait where they belong. -/
theorem fillAll_buffer (lawful : spm.Lawful chip.pageSize) {page : ℕ} (h : chip.Page page)
    {word : ℕ} {ws : List (BitVec 16)} (fits : 2 * (word + ws.length) ≤ chip.pageSize) {flash : σ}
    (clear : ∀ i, word ≤ i → spm.buffer flash i = none) (i : ℕ) :
    spm.buffer (fillAll chip spm page word ws flash) i =
      if word ≤ i then ws[i - word]? else spm.buffer flash i := by
  induction ws generalizing word flash with
  | nil =>
    by_cases behind : word ≤ i
    · rw [if_pos behind]
      exact clear i behind
    · exact (if_neg behind).symm
  | cons w ws ih =>
    rw [List.length_cons] at fits
    have place : (page + word * 2) % 2 ^ chip.width % chip.pageSize / 2 = word := by
      have inside := h.inside
      rw [Nat.mod_eq_of_lt (a := page + word * 2) (by omega), Nat.add_mod, h.aligned, Nat.zero_add,
        Nat.mod_mod, Nat.mod_eq_of_lt (by omega), Nat.mul_div_cancel _ (by decide)]
    have filled (i : ℕ) : spm.buffer (spm.fill ((page + word * 2) % 2 ^ chip.width) w flash) i =
        if i = word then some w else spm.buffer flash i := by
      have free := clear word le_rfl
      rw [lawful.fill_buffer _ w flash (place.symm ▸ free) i, place]
    rw [fillAll, ih (by omega), filled]
    · rcases Nat.lt_trichotomy i word with before | rfl | behind
      · rw [if_neg (by omega), if_neg (by omega), if_neg (by omega)]
      · rw [if_neg (by omega), if_pos rfl, if_pos le_rfl, Nat.sub_self]
        rfl
      · have next : i - word = i - (word + 1) + 1 := by omega
        rw [if_pos (by omega), if_pos (by omega), next, List.getElem?_cons_succ]
    · intro j behind
      rw [filled, if_neg (by omega)]
      exact clear j (by omega)

/-- A page has been programmed. -/
structure Programmed (chip : Chip) (spm : Spm σ) (page : ℕ) (data : List (BitVec 8))
    (s s' : State σ) : Prop where
  phase : s'.phase = s.phase
  runBootloader : s'.runBootloader = s.runBootloader
  boottime : s'.boottime = bootloaderTimeout
  clear : Clear spm s'.flash
  byte : ∀ a, spm.byte s'.flash a =
    if page ≤ a ∧ a < page + chip.pageSize then data.getD (a - page) 0xFF#8 else spm.byte s.flash a

/-- What the instructions make of a page. -/
theorem program_byte (lawful : spm.Lawful chip.pageSize) {n : ℕ} (size : chip.pageSize = 2 * n)
    (some : 0 < n) {page : ℕ} (h : chip.Page page) {data : List (BitVec 8)}
    (len : data.length = chip.pageSize) {flash : σ} (clear : Clear spm flash) (a : ℕ) :
    spm.byte (spm.write page (fillAll chip spm page 0 (words data) (spm.erase page flash))) a =
      if page ≤ a ∧ a < page + chip.pageSize then data.getD (a - page) 0xFF#8
      else spm.byte flash a := by
  have count : (words data).length = n := words_length (len.trans size)
  have room : 2 * (0 + (words data).length) ≤ chip.pageSize := by omega
  have erased (i : ℕ) (_ : 0 ≤ i) : spm.buffer (spm.erase page flash) i = none := by
    rw [lawful.erase_buffer]
    exact clear i
  have waits (i : ℕ) := fillAll_buffer lawful h room erased i
  have here : a / chip.pageSize = page / chip.pageSize ↔ page ≤ a ∧ a < page + chip.pageSize := by
    have whole : chip.pageSize * (page / chip.pageSize) = page :=
      Nat.mul_div_cancel' (Nat.dvd_of_mod_eq_zero h.aligned)
    rw [Nat.div_eq_iff (by omega), Nat.mul_comm, whole]
    omega
  rw [lawful.write_byte, fillAll_byte lawful, lawful.erase_byte, waits, if_pos (Nat.zero_le _)]
  by_cases inside : page ≤ a ∧ a < page + chip.pageSize
  · have offset : a % chip.pageSize = a - page := by
      have back : page + (a - page) = a := by omega
      calc a % chip.pageSize = (page + (a - page)) % chip.pageSize := by rw [back]
        _ = a - page := by
          rw [Nat.add_mod, h.aligned, Nat.zero_add, Nat.mod_mod, Nat.mod_eq_of_lt (by omega)]
    have parity (w : BitVec 16) : half w a = half w (a - page) := by
      have even : page % 2 = 0 := by
        have := h.aligned
        have := Nat.dvd_of_mod_eq_zero h.aligned
        rw [size] at this
        exact Nat.mod_eq_zero_of_dvd ((Nat.dvd_mul_right 2 n).trans this)
      rw [half, half]
      have same : a % 2 = (a - page) % 2 := by omega
      rw [same]
    have ones : 0xFF#8 = BitVec.allOnes 8 := by decide
    rw [if_pos (here.2 inside), if_pos (here.2 inside), if_pos inside, offset, Nat.sub_zero, parity,
      words_half (len.trans size) (by omega), ones, BitVec.allOnes_and]
  · rw [if_neg (mt here.1 inside), if_neg (mt here.1 inside), if_neg inside]

/-- **A report for a page programs that page and no other.** -/
theorem setReport_page (lawful : spm.Lawful chip.pageSize) {n : ℕ} (size : chip.pageSize = 2 * n)
    (some : 0 < n) {s : State σ} (clear : Clear spm s.flash) {packets : List (List (BitVec 8))}
    {low high : BitVec 8} {data : List (BitVec 8)} (h : Packets packets (low :: high :: data))
    (len : data.length = chip.pageSize) (page : chip.Page (chip.pageAddress (high ++ low)))
    (other : chip.starts (chip.pageAddress (high ++ low)) = false) :
    ∃ s', setReport chip spm packets s = .some (.ends s') ∧
      Programmed chip spm (chip.pageAddress (high ++ low)) data s s' := by
  obtain ⟨e₁, e₂, got, read, rest⟩ := h.holds.read
  have half_size : chip.pageSize / 2 = n := by omega
  refine ⟨{ s with
    boottime := bootloaderTimeout
    flash := spm.write (chip.pageAddress (high ++ low)) (fillAll chip spm
      (chip.pageAddress (high ++ low)) 0 (words data)
      (spm.erase (chip.pageAddress (high ++ low)) s.flash)) }, ?_, rfl, rfl, rfl, ?_, ?_⟩
  · rw [setReport, (if_pos rfl).symm.trans got]
    change (e₁.read16 >>= _) = _
    rw [read]
    change (if _ then _ else _) = _
    rw [other, if_neg Bool.false_ne_true, half_size]
    rw [fillLoop_words (len.trans size) rest]
    rfl
  · exact fun i => lawful.write_buffer _ _ i
  · exact program_byte lawful size some page len clear

/-- The command to start the application changes nothing else. -/
theorem setReport_start {packets : List (List (BitVec 8))} {low high : BitVec 8}
    {data : List (BitVec 8)} (h : Packets packets (low :: high :: data))
    (start : chip.starts (chip.pageAddress (high ++ low)) = true) (s : State σ) :
    setReport chip spm packets s = some (.ends { s with runBootloader := false }) := by
  obtain ⟨e₁, e₂, got, read, _⟩ := h.holds.read
  rw [setReport, (if_pos rfl).symm.trans got]
  change (e₁.read16 >>= _) = _
  rw [read]
  exact if_pos start

/-! ## The timer -/

/-- The word in front of a report. -/
def word (packets : List (List (BitVec 8))) : Option (BitVec 16) :=
  ((Endpoint.clearOut ⟨[], packets⟩).bind Endpoint.read16).map Prod.fst

/-- The report that comes with an event. -/
def Event.packets : Event → Option (List (List (BitVec 8)))
  | .request packets => some packets
  | _ => none

/-- The word that comes with an event. -/
def Event.word (e : Event) : Option (BitVec 16) := e.packets.bind BootloaderHID.word

/-- The command to start the application. -/
def Event.isStart (chip : Chip) (e : Event) : Bool :=
  e.word.any fun w => chip.starts (chip.pageAddress w)

/-- A page. -/
def Event.isPage (chip : Chip) (e : Event) : Bool :=
  e.word.any fun w => !chip.starts (chip.pageAddress w)

/-- An overflow of the timer. -/
def Event.isOverflow : Event → Bool
  | .overflow => true
  | _ => false

/-- How often the timer has overflowed since the last page. -/
def overflows (chip : Chip) (events : List Event) : ℕ :=
  (events.reverse.takeWhile fun e => !e.isPage chip).countP Event.isOverflow

/-- The command to start the application has come. -/
def Started (chip : Chip) (events : List Event) : Prop := ∃ e ∈ events, e.isStart chip = true

/-- At some time no page had come for too long. -/
def Expired (chip : Chip) (events : List Event) : Prop :=
  ∃ before, before <+: events ∧ bootloaderTimeout < overflows chip before

theorem Packets.word {packets : List (List (BitVec 8))} {low high : BitVec 8}
    {data : List (BitVec 8)} (h : Packets packets (low :: high :: data)) :
    BootloaderHID.word packets = some (high ++ low) := by
  obtain ⟨e₁, e₂, got, read, _⟩ := h.holds.read
  rw [BootloaderHID.word, (if_pos rfl).symm.trans got, Option.bind_some, read]
  rfl

theorem overflows_page {e : Event} (page : e.isPage chip = true) (events : List Event) :
    overflows chip (events ++ [e]) = 0 := by
  rw [overflows, List.reverse_append, List.reverse_singleton, List.singleton_append,
    List.takeWhile_cons_of_neg (by rw [page]; decide)]
  rfl

theorem overflows_other {e : Event} (page : e.isPage chip = false) (events : List Event) :
    overflows chip (events ++ [e]) = overflows chip events + if e.isOverflow then 1 else 0 := by
  rw [overflows, List.reverse_append, List.reverse_singleton, List.singleton_append,
    List.takeWhile_cons_of_pos (by rw [page]; rfl), List.countP_cons]
  rfl

theorem started_concat (events : List Event) (e : Event) :
    Started chip (events ++ [e]) ↔ Started chip events ∨ e.isStart chip = true := by
  simp [Started, or_and_right, exists_or]

theorem expired_concat (events : List Event) (e : Event) :
    Expired chip (events ++ [e]) ↔
      Expired chip events ∨ bootloaderTimeout < overflows chip (events ++ [e]) := by
  constructor
  · rintro ⟨before, pre, more⟩
    rcases List.prefix_concat_iff.1 pre with rfl | pre
    · exact .inr more
    · exact .inl ⟨before, pre, more⟩
  · rintro (⟨before, pre, more⟩ | more)
    · exact ⟨before, pre.trans (List.prefix_append _ _), more⟩
    · exact ⟨_, List.prefix_rfl, more⟩

/-- What a report does to the loop, whether it is handled to its end or not. -/
inductive Effect (chip : Chip) (packets : List (List (BitVec 8))) (s : State σ) :
    Handled (State σ) → Prop where
  | nothing (front : word packets = none) : Effect chip packets s (.waits s)
  | start {w : BitVec 16} (front : word packets = some w)
    (start : chip.starts (chip.pageAddress w) = true) :
    Effect chip packets s (.ends { s with runBootloader := false })
  | page {w : BitVec 16} (front : word packets = some w)
    (other : chip.starts (chip.pageAddress w) = false) (flash : σ) :
    Effect chip packets s (.ends { s with boottime := bootloaderTimeout, flash := flash })
  | cut {w : BitVec 16} (front : word packets = some w)
    (other : chip.starts (chip.pageAddress w) = false) (flash : σ) :
    Effect chip packets s (.waits { s with boottime := bootloaderTimeout, flash := flash })

theorem setReport_effect {packets : List (List (BitVec 8))} {s : State σ} {h : Handled (State σ)}
    (handled : setReport chip spm packets s = some h) : Effect chip packets s h := by
  unfold setReport at handled
  cases got : Endpoint.clearOut ⟨[], packets⟩ with
  | none =>
    rw [got] at handled
    cases handled
    exact .nothing (by rw [word, got]; rfl)
  | some e =>
    rw [got] at handled
    obtain ⟨⟨w, e'⟩, read, handled⟩ := Option.bind_eq_some_iff.1 handled
    have front : word packets = some w := by rw [word, got, Option.bind_some, read]; rfl
    dsimp only at handled
    by_cases start : chip.starts (chip.pageAddress w) = true
    · rw [if_pos start] at handled
      cases handled
      exact .start front start
    · rw [if_neg start] at handled
      obtain ⟨filled, _, handled⟩ := Option.bind_eq_some_iff.1 handled
      have other := Bool.eq_false_of_not_eq_true start
      cases filled with
      | ends flash =>
        cases handled
        exact .page front other _
      | waits flash =>
        cases handled
        exact .cut front other _

/-- What the loop knows of the events. -/
structure Timed (chip : Chip) (events : List Event) (s : State σ) : Prop where
  boottime : s.boottime = bootloaderTimeout - overflows chip events
  runBootloader : s.runBootloader = false ↔ Started chip events ∨ Expired chip events
  phase : s.phase = .left → s.runBootloader = false

/-- One event more. -/
theorem Timed.next {events : List Event} {s s' : State σ} (h : Timed chip events s) {e : Event}
    (boottime : s'.boottime = bootloaderTimeout - overflows chip (events ++ [e]))
    (runs : s'.runBootloader = false ↔ s.runBootloader = false ∨ e.isStart chip = true ∨
      bootloaderTimeout < overflows chip (events ++ [e]))
    (left : s'.phase = .left → s'.runBootloader = false) : Timed chip (events ++ [e]) s' := by
  refine ⟨boottime, runs.trans ?_, left⟩
  rw [h.runBootloader, started_concat, expired_concat]
  constructor
  · rintro ((started | expired) | now | late)
    · exact .inl (.inl started)
    · exact .inr (.inl expired)
    · exact .inl (.inr now)
    · exact .inr (.inr late)
  · rintro ((started | now) | (expired | late))
    · exact .inl (.inl started)
    · exact .inr (.inl now)
    · exact .inl (.inr expired)
    · exact .inr (.inr late)

/-- Too many overflows have cleared `RunBootloader`. -/
theorem Timed.late {events : List Event} {s : State σ} (h : Timed chip events s)
    (more : bootloaderTimeout < overflows chip events) : s.runBootloader = false :=
  h.runBootloader.2 (.inr ⟨events, List.prefix_rfl, more⟩)

/-- An event that is no request and no overflow. -/
theorem Timed.quiet {events : List Event} {s : State σ} (h : Timed chip events s) {e : Event}
    (none : e.word = .none) (other : e.isOverflow = false) {p : Phase}
    (left : p = .left → s.runBootloader = false) :
    Timed chip (events ++ [e]) { s with phase := p } := by
  have page : e.isPage chip = false := by rw [Event.isPage, none]; rfl
  have start : ¬e.isStart chip = true := by rw [Event.isStart, none]; exact Bool.false_ne_true
  have same : overflows chip (events ++ [e]) = overflows chip events := by
    rw [overflows_other page, other]
    rfl
  refine h.next (h.boottime.trans (by rw [same])) ?_ left
  rw [same]
  exact ⟨.inl, Or.rec id (Or.rec (absurd · start) h.late)⟩

theorem Timed.overflow {events : List Event} {s : State σ} (h : Timed chip events s) :
    Timed chip (events ++ [.overflow]) s.overflow := by
  have more : overflows chip (events ++ [.overflow]) = overflows chip events + 1 :=
    overflows_other rfl events
  have time := h.boottime
  by_cases wait : s.boottime ≠ 0
  · -- the time is not over
    rw [State.overflow, if_pos wait]
    refine h.next ?_ ?_ h.phase
    · dsimp only
      omega
    · rw [more]
      refine ⟨.inl, Or.rec id (Or.rec (absurd · Bool.false_ne_true) fun late => ?_)⟩
      omega
  · rw [State.overflow, if_neg wait]
    refine h.next ?_ ?_ fun _ => rfl
    · dsimp only
      omega
    · exact ⟨fun _ => .inr (.inr (by omega)), fun _ => rfl⟩

/-- The command to start the application. -/
theorem Timed.start {events : List Event} {s : State σ} (h : Timed chip events s)
    {packets : List (List (BitVec 8))} {w : BitVec 16} (front : word packets = some w)
    (start : chip.starts (chip.pageAddress w) = true) (p : Phase) :
    Timed chip (events ++ [.request packets]) { s with runBootloader := false, phase := p } := by
  have isStart : (Event.request packets).isStart chip = true := by
    rw [Event.isStart, Event.word, Event.packets, Option.bind_some, front]
    exact start
  have isPage : (Event.request packets).isPage chip = false := by
    rw [Event.isPage, Event.word, Event.packets, Option.bind_some, front]
    exact congrArg (!·) start
  have same : overflows chip (events ++ [.request packets]) = overflows chip events :=
    overflows_other isPage events
  refine h.next (h.boottime.trans (by rw [same])) ?_ fun _ => rfl
  exact ⟨fun _ => .inr (.inl isStart), fun _ => rfl⟩

/-- A page, whether it comes to its end or not. -/
theorem Timed.page {events : List Event} {s : State σ} (h : Timed chip events s)
    {packets : List (List (BitVec 8))} {w : BitVec 16} (front : word packets = some w)
    (other : chip.starts (chip.pageAddress w) = false) (flash : σ) {p : Phase} (stays : p ≠ .left) :
    Timed chip (events ++ [.request packets])
      { s with boottime := bootloaderTimeout, flash := flash, phase := p } := by
  have isStart : ¬(Event.request packets).isStart chip = true := by
    rw [Event.isStart, Event.word, Event.packets, Option.bind_some, front]
    exact fun start => Bool.false_ne_true (other.symm.trans start)
  have isPage : (Event.request packets).isPage chip = true := by
    rw [Event.isPage, Event.word, Event.packets, Option.bind_some, front]
    exact congrArg (!·) other
  have zero := overflows_page isPage events
  refine h.next (by rw [zero]; rfl) ?_ fun left => absurd left stays
  rw [zero]
  exact ⟨.inl, Or.rec id (Or.rec (absurd · isStart) fun late => absurd late (Nat.not_lt_zero _))⟩

theorem Timed.of_run {flash : σ} {events : List Event} {s : State σ}
    (run : Run chip spm (.start flash) events s) : Timed chip events s := by
  induction run with
  | nil =>
    refine ⟨rfl, ⟨fun h => (by cases h), ?_⟩, fun h => (by cases h)⟩
    rintro (⟨e, mem, _⟩ | ⟨before, pre, late⟩)
    · exact absurd mem List.not_mem_nil
    · rw [List.prefix_nil.1 pre] at late
      exact absurd late (Nat.not_lt_zero _)
  | concat run step h =>
    cases step with
    | overflow => exact h.overflow
    | test =>
      refine h.quiet rfl rfl fun left => ?_
      by_contra runs
      rw [if_pos (Bool.eq_true_of_not_eq_false runs)] at left
      cases left
    | idle => exact h.quiet rfl rfl fun left => (by cases left)
    | request here handled =>
      cases setReport_effect handled with
      | start front start => exact h.start front start _
      | page front other flash => exact h.page front other flash (by decide)
    | cut here handled =>
      cases setReport_effect handled with
      | nothing front =>
        exact h.quiet (e := .request _) front rfl fun left => (by cases left)
      | cut front other flash => exact h.page front other flash (by decide)

/-- **The loader leaves its loop if the command to start the application has come, or if no page has
come for too long**, and for no other reason, in whatever order the timer and the requests come:
`RunBootloader` is cleared just then, and the next test of the loop leaves it. A handler that waits
for a packet stays where it is, whatever the timer does. -/
theorem left_iff {flash : σ} {events : List Event} {s : State σ}
    (run : Run chip spm (.start flash) events s) :
    (s.runBootloader = false ↔ Started chip events ∨ Expired chip events) ∧
      (s.phase = .left → Started chip events ∨ Expired chip events) ∧
      (∀ s', Step chip spm s .test s' →
        (s'.phase = .left ↔ Started chip events ∨ Expired chip events)) ∧
      (s.phase = .task → Step chip spm s .idle { s with phase := .test }) ∧
      (s.phase = .waiting → ∀ e s', Step chip spm s e s' →
        e = .overflow ∧ s'.phase = .waiting) := by
  have h := Timed.of_run run
  refine ⟨h.runBootloader, fun left => h.runBootloader.1 (h.phase left), fun s' step => ?_, .idle,
    fun wait e s' step => ?_⟩
  · cases step
    rw [← h.runBootloader]
    cases s.runBootloader with
    | true => simp
    | false => simp
  · have other : s.phase ≠ .task ∧ s.phase ≠ .test := by
      rw [wait]
      decide
    cases step with
    | overflow =>
      refine ⟨rfl, ?_⟩
      unfold State.overflow
      split
      · exact wait
      · exact wait
    | test here => exact absurd here other.2
    | idle here => exact absurd here other.1
    | request here => exact absurd here other.1
    | cut here => exact absurd here other.1

/-- The command to start the application, and the test behind it. -/
theorem left_iff_command :
    (Started ⟨0x7FFF, 128⟩ [.test, .request [[0xFF#8, 0xFF#8]]] ∨
      Expired ⟨0x7FFF, 128⟩ [.test, .request [[0xFF#8, 0xFF#8]]]) ∧
    ∀ s' : State Avr, Step ⟨0x7FFF, 128⟩ (Avr.spm 128)
      ⟨.test, false, bootloaderTimeout, ⟨fun _ => 0xFF#8, fun _ => none⟩⟩ .test s' →
        s'.phase = .left := by
  have first : Run ⟨0x7FFF, 128⟩ (Avr.spm 128) (.start ⟨fun _ => 0xFF#8, fun _ => none⟩)
      [.test] ⟨.task, true, bootloaderTimeout, ⟨fun _ => 0xFF#8, fun _ => none⟩⟩ :=
    .concat (.nil _) (.test rfl)
  have handled : setReport ⟨0x7FFF, 128⟩ (Avr.spm 128) [[0xFF#8, 0xFF#8]]
      ⟨.task, true, bootloaderTimeout, ⟨fun _ => 0xFF#8, fun _ => none⟩⟩ =
        some (.ends ⟨.task, false, bootloaderTimeout, ⟨fun _ => 0xFF#8, fun _ => none⟩⟩) := rfl
  have run := first.concat (.request rfl handled)
  obtain ⟨runs, _, next, _⟩ := left_iff run
  exact ⟨runs.1 rfl, fun s' step => (next s' step).2 (runs.1 rfl)⟩

end Device

end Teres.Kbd.BootloaderHID
