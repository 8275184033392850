import Mathlib.Data.List.Forall2
import Teres.Laws.Kbd.BootloaderHID
import Teres.Laws.Kbd.IntelHex

/-!
# From a file to the flash memory

What the host sends of a file of records, and what the boot loader makes of it: the bytes of the
file are in the flash memory once the reports have been handled (`programs_records`). Host and boot
loader agree on what page a report is for, on all processors that the host knows but those with 64K
of flash memory (`pages_agree`), and of those no more is said.
-/

namespace Teres.Kbd

open BootloaderHID (Chip Spm Avr Clear Packets Event Run)
open IntelHex (Record Memory Line File text)

namespace HidBootloaderCli

/-! ## What the host sends -/

/-- The sizes of the processors that the host knows. -/
def knownSizes : List (ℕ × ℕ) :=
  [(8 * 1024, 128), (16 * 1024, 128), (32 * 1024, 128), (64 * 1024, 256), (128 * 1024, 256)]

/-- The options name one of them. -/
def Known (o : Options) : Prop := (o.codeSize, o.blockSize) ∈ knownSizes

theorem sizes_known {arg : List Char} {p : ℕ × ℕ} (h : sizes arg = some p) : p ∈ knownSizes := by
  unfold sizes at h
  split_ifs at h <;> cases h <;> decide

theorem mcu_known {arg : List Char} {p : ℕ × ℕ} (h : mcu arg = some p) : p ∈ knownSizes := by
  unfold mcu at h
  split at h
  · exact sizes_known h
  · obtain ⟨arg, _, h⟩ := Option.bind_eq_some_iff.1 h
    exact sizes_known h

theorem option_known {o o' : Options} {arg : List Char} (known : Known o)
    (h : option o arg = some o') : Known o' := by
  unfold option at h
  split_ifs at h
  · cases h; exact known
  · cases h; exact known
  · cases h; exact known
  · cases h; exact known
  · split at h
    · obtain ⟨⟨code, block⟩, found, rfl⟩ := Option.map_eq_some_iff.1 h
      exact mcu_known found
    · cases h; exact known
  · cases h; exact known

/-- **Options that are accepted are those of a known processor.** -/
theorem parseOptions_known {args : List (List Char)} {o : Options}
    (h : parseOptions args = some o) : Known o := by
  have start : Known .start := by
    rw [Known]
    decide
  unfold parseOptions at h
  generalize Options.start = first at start h
  induction args generalizing first with
  | nil =>
    cases h
    exact start
  | cons arg args ih =>
    rw [List.foldlM_cons] at h
    obtain ⟨next, here, h⟩ := Option.bind_eq_some_iff.1 h
    exact ih next (option_known start here) h

/-- What all known sizes have in common. -/
structure Sizes (codeSize blockSize : ℕ) : Prop where
  block : blockSize = 128 ∨ blockSize = 256
  whole : codeSize % blockSize = 0
  large : 0x10000 ≤ codeSize → blockSize = 256
  code : codeSize ≤ 0x10000 ∨ codeSize = 0x20000

theorem Known.sizes {o : Options} (known : Known o) : Sizes o.codeSize o.blockSize := by
  have all : ∀ p ∈ knownSizes, (p.2 = 128 ∨ p.2 = 256) ∧ p.1 % p.2 = 0 ∧
      (0x10000 ≤ p.1 → p.2 = 256) ∧ (p.1 ≤ 0x10000 ∨ p.1 = 0x20000) := by decide
  obtain ⟨block, whole, large, code⟩ := all _ known
  exact ⟨block, whole, large, code⟩

theorem Sizes.pos {codeSize blockSize : ℕ} (h : Sizes codeSize blockSize) : 0 < blockSize := by
  rcases h.block with rfl | rfl <;> decide

/-- No page begins within another. -/
theorem page_next {block addr p : ℕ} (aligned : addr % block = 0) (page : p % block = 0) :
    addr ≤ p ↔ p = addr ∨ addr + block ≤ p := by
  obtain ⟨x, rfl⟩ := Nat.dvd_of_mod_eq_zero aligned
  obtain ⟨y, rfl⟩ := Nat.dvd_of_mod_eq_zero page
  rcases Nat.lt_trichotomy x y with less | rfl | more
  · have step : block * x + block ≤ block * y := Nat.mul_le_mul_left block less
    exact ⟨fun _ => .inr step, fun _ => by omega⟩
  · exact ⟨fun _ => .inl rfl, fun _ => le_rfl⟩
  · have step : block * y + block ≤ block * x := Nat.mul_le_mul_left block more
    constructor
    · intro
      omega
    · rintro (eq | behind) <;> omega

/-- The pages that are sent, from an address on. -/
theorem pageLoop_eq {o : Options} (some : 0 < o.blockSize) (s : State) {k addr : ℕ}
    (enough : o.codeSize ≤ addr + k) (aligned : addr % o.blockSize = 0) :
    ∃ pages : List ℕ, pageLoop o s k addr = pages.map (pageReport o s) ∧ ∀ p, p ∈ pages ↔
      addr ≤ p ∧ p < o.codeSize ∧ p % o.blockSize = 0 ∧ used o s p = true := by
  induction k generalizing addr with
  | zero =>
    refine ⟨[], rfl, fun p => ⟨fun mem => absurd mem List.not_mem_nil, ?_⟩⟩
    rintro ⟨behind, inside, _⟩
    omega
  | succ k ih =>
    rw [pageLoop]
    by_cases inside : addr < o.codeSize
    · have next : (addr + o.blockSize) % o.blockSize = 0 := by rw [Nat.add_mod_right, aligned]
      obtain ⟨pages, sent, all⟩ := ih (by omega) next
      rw [if_pos inside, sent]
      by_cases here : used o s addr = true
      · refine ⟨addr :: pages, by rw [if_pos here]; rfl, fun p => ?_⟩
        rw [List.mem_cons, all]
        constructor
        · rintro (rfl | ⟨behind, rest⟩)
          · exact ⟨le_rfl, inside, aligned, here⟩
          · exact ⟨by omega, rest⟩
        · rintro ⟨behind, rest⟩
          exact ((page_next aligned rest.2.1).1 behind).imp_right fun next => ⟨next, rest⟩
      · refine ⟨pages, if_neg here, fun p => ?_⟩
        rw [all]
        constructor
        · rintro ⟨behind, rest⟩
          exact ⟨by omega, rest⟩
        · rintro ⟨behind, rest⟩
          rcases (page_next aligned rest.2.1).1 behind with rfl | next
          · exact absurd rest.2.2 here
          · exact ⟨next, rest⟩
    · refine ⟨[], if_neg inside, fun p => ⟨fun mem => absurd mem List.not_mem_nil, ?_⟩⟩
      rintro ⟨behind, _, _⟩
      omega

/-! ## What the host has of a page -/

/-- A page is sent with its bytes, and ones for the bytes that are not there; but the page at the
end of the image is sent with ones only. -/
theorem ihexGetData_getD (s : State) (addr len : ℕ) {i : ℕ} (inside : i < len) :
    (ihexGetData s addr len).getD i 0xFF#8 =
      if addr + len < maxMemorySize then (s.byte (addr + i)).getD 0xFF#8 else 0xFF#8 := by
  unfold ihexGetData
  by_cases fits : addr + len < maxMemorySize
  · rw [if_neg (Nat.not_le.2 fits), if_pos fits, List.getD_eq_getElem?_getD, List.getElem?_map,
      List.getElem?_range inside]
    change (if s.mask (addr + i) = true then s.image (addr + i) else 255#8) = _
    unfold State.byte
    split <;> rfl
  · rw [if_pos (Nat.not_lt.1 fits), if_neg fits, List.getD_eq_getElem?_getD,
      List.getElem?_replicate, if_pos inside]
    rfl

theorem ihexGetData_length (s : State) (addr len : ℕ) : (ihexGetData s addr len).length = len := by
  unfold ihexGetData
  split
  · exact List.length_replicate
  · rw [List.length_map, List.length_range]

/-- A page is used if a byte of it is in the image. -/
theorem ihexBytesWithinRange_iff (s : State) {addr len : ℕ} (some : 0 < len)
    (inside : addr + len ≤ maxMemorySize) :
    ihexBytesWithinRange s addr (addr + len - 1) = true ↔
      ∃ a, addr ≤ a ∧ a < addr + len ∧ (s.byte a).isSome = true := by
  have mask (a : ℕ) : (s.byte a).isSome = s.mask a := by
    unfold State.byte
    cases s.mask a <;> rfl
  have count : addr + len - 1 + 1 - addr = len := by omega
  unfold ihexBytesWithinRange
  rw [if_neg (by omega), count, List.any_eq_true]
  simp only [mask, List.mem_range]
  constructor
  · rintro ⟨i, small, there⟩
    exact ⟨addr + i, Nat.le_add_right _ _, by omega, there⟩
  · rintro ⟨a, behind, before, there⟩
    exact ⟨a - addr, by omega, by rwa [Nat.add_sub_cancel' behind]⟩

/-! ## The page that a report is for -/

/-- The device has the processor that the host was told. -/
structure Fits (chip : Chip) (o : Options) : Prop where
  code : chip.flashEnd + 1 = o.codeSize
  block : chip.pageSize = o.blockSize

/-- The two bytes in front of a page, as the device takes them. -/
theorem address_word {o : Options} (known : Known o) {chip : Chip} (fits : Fits chip o) {addr : ℕ}
    (inside : addr < o.codeSize) (aligned : addr % o.blockSize = 0) :
    ∃ low high, address o.codeSize addr = [low, high] ∧
      chip.pageAddress (high ++ low) = (if o.codeSize = 0x10000 then addr / 2 ^ 8 else addr) ∧
      chip.starts (chip.pageAddress (high ++ low)) = false := by
  have sizes := known.sizes
  have code := fits.code
  have even : addr % 128 = 0 := by
    rcases sizes.block with eq | eq <;> rw [eq] at aligned <;> omega
  rcases Nat.lt_or_ge o.codeSize 0x10000 with small | large
  · refine ⟨_, _, if_pos small, ?_⟩
    have word : (BitVec.ofNat 8 (addr / 2 ^ 8) ++ BitVec.ofNat 8 addr).toNat = addr := by
      rw [word_toNat, BitVec.toNat_ofNat, BitVec.toNat_ofNat]
      omega
    have here : chip.pageAddress (BitVec.ofNat 8 (addr / 2 ^ 8) ++ BitVec.ofNat 8 addr) = addr :=
      (if_neg (by omega)).trans word
    rw [here, if_neg (by omega)]
    refine ⟨rfl, ?_⟩
    rw [Chip.starts, if_neg (by omega)]
    refine decide_eq_false ?_
    have : BootloaderHID.commandStartApplication = 0xFFFF := rfl
    omega
  · refine ⟨_, _, if_neg (Nat.not_lt.2 large), ?_⟩
    have most := sizes.code
    have word : (BitVec.ofNat 8 (addr / 2 ^ 16) ++ BitVec.ofNat 8 (addr / 2 ^ 8)).toNat =
        addr / 2 ^ 8 := by
      rw [word_toNat, BitVec.toNat_ofNat, BitVec.toNat_ofNat]
      omega
    have start : BootloaderHID.commandStartApplication = 0xFFFF := rfl
    rw [Chip.pageAddress, Chip.starts, word]
    by_cases equal : o.codeSize = 0x10000
    · rw [if_neg (by omega), if_pos equal, if_neg (by omega)]
      exact ⟨rfl, decide_eq_false (by omega)⟩
    · have page : addr % 256 = 0 := by rw [← sizes.large large]; exact aligned
      rw [if_pos (by omega), if_neg equal, if_pos (by omega)]
      exact ⟨by omega, decide_eq_false (by omega)⟩

/-- **Host and boot loader agree on what page a report is for, but on a processor with 64K of flash
memory**: there all reports are for the first page. -/
theorem pages_agree {o : Options} (known : Known o) {chip : Chip} (fits : Fits chip o) (s : State)
    {addr : ℕ} (inside : addr < o.codeSize) (aligned : addr % o.blockSize = 0) :
    ∃ page, (BootloaderHID.word [pageReport o s addr]).map chip.pageAddress = some page ∧
      (o.codeSize ≠ 0x10000 → page = addr) ∧ (o.codeSize = 0x10000 → page / chip.pageSize = 0) := by
  obtain ⟨low, high, bytes, page, _⟩ := address_word known fits inside aligned
  refine ⟨chip.pageAddress (high ++ low), ?_, ?_, ?_⟩
  · rw [pageReport, bytes]
    rfl
  · intro other
    rw [page, if_neg other]
  · intro equal
    have block : chip.pageSize = 256 :=
      fits.block.trans (known.sizes.large (Nat.le_of_eq equal.symm))
    rw [page, if_pos equal, block]
    omega

theorem pages_agree_second : ∃ page,
    (BootloaderHID.word [pageReport .start .start 128]).map (Chip.pageAddress ⟨0x7FFF, 128⟩) =
      some page ∧ (32 * 1024 ≠ 0x10000 → page = 128) ∧
      (32 * 1024 = 0x10000 → page / 128 = 0) := by
  have known : Known .start := by
    rw [Known]
    decide
  have fits : Fits ⟨0x7FFF, 128⟩ .start := ⟨rfl, rfl⟩
  exact pages_agree known fits .start (by decide) (by decide)

/-! ## A run of the boot loader -/

/-- What is sent for a page, or for none to start the application. -/
def report (o : Options) (s : State) : Option ℕ → List (BitVec 8)
  | some page => pageReport o s page
  | none => startReport o

/-- What the host sends. -/
theorem reports_eq {o : Options} (known : Known o) (s : State) :
    ∃ pages : List ℕ, reports o s = (pages.map some ++
        if o.rebootAfterProgramming then [none] else []).map (report o s) ∧
      ∀ p, p ∈ pages ↔ p < o.codeSize ∧ p % o.blockSize = 0 ∧ used o s p = true := by
  obtain ⟨pages, eq, all⟩ := pageLoop_eq known.sizes.pos s (Nat.le_add_left o.codeSize 0)
    (Nat.zero_mod _)
  refine ⟨pages, ?_, fun p => (all p).trans (and_iff_right (Nat.zero_le _))⟩
  have map : (pages.map some).map (report o s) = pages.map (pageReport o s) := by
    rw [List.map_map]
    rfl
  rw [reports, eq, List.map_append, map]
  split <;> rfl

/-- The requests of a run. -/
def requests (events : List Event) : List (List (List (BitVec 8))) :=
  events.filterMap Event.packets

section Run

variable {σ : Type} {chip : Chip} {spm : Spm σ} {o : Options}

theorem fits_page (known : Known o) (fits : Fits chip o) {p : ℕ} (inside : p < o.codeSize)
    (aligned : p % o.blockSize = 0) : chip.Page p := by
  have sizes := known.sizes
  have code := fits.code
  have next := (page_next aligned sizes.whole).1 (Nat.le_of_lt inside)
  have most := sizes.code
  refine ⟨by rw [fits.block]; exact aligned, ?_⟩
  rw [fits.block, BootloaderHID.Chip.width]
  split <;> omega

/-- The command is one to every processor. -/
theorem starts_command (chip : Chip) :
    chip.starts (chip.pageAddress (0xFF#8 ++ 0xFF#8)) = true := by
  unfold BootloaderHID.Chip.starts BootloaderHID.Chip.pageAddress
  split <;> decide

/-- The last of the reports, and those in front of it. -/
theorem delivered_concat {R : List (List (BitVec 8)) → Option ℕ → Prop}
    {before : List (List (List (BitVec 8)))} {packets : List (List (BitVec 8))}
    {sent : List (Option ℕ)} (h : List.Forall₂ R (before ++ [packets]) sent) :
    ∃ sent' r, sent = sent' ++ [r] ∧ List.Forall₂ R before sent' ∧ R packets r := by
  rw [← List.forall₂_reverse_iff, List.reverse_append, List.reverse_singleton,
    List.singleton_append, List.forall₂_cons_left_iff] at h
  obtain ⟨r, rest, here, later, eq⟩ := h
  refine ⟨rest.reverse, r, ?_, ?_, here⟩
  · rw [← List.reverse_cons, ← eq, List.reverse_reverse]
  · rw [← List.forall₂_reverse_iff, List.reverse_reverse]
    exact later

/-- A report for a page, handled. -/
theorem handled_page (lawful : spm.Lawful chip.pageSize) (known : Known o) (fits : Fits chip o)
    (other : o.codeSize ≠ 0x10000) (img : State) {p : ℕ} (inside : p < o.codeSize)
    (aligned : p % o.blockSize = 0) {packets : List (List (BitVec 8))}
    (sent : Packets packets (pageReport o img p)) {s : BootloaderHID.State σ}
    (clear : Clear spm s.flash) :
    ∃ s', BootloaderHID.setReport chip spm packets s = some (.ends s') ∧
      BootloaderHID.Programmed chip spm p (ihexGetData img p o.blockSize) s s' := by
  obtain ⟨low, high, bytes, page, start⟩ := address_word known fits inside aligned
  rw [if_neg other] at page
  have size : chip.pageSize = 2 * (chip.pageSize / 2) ∧ 0 < chip.pageSize / 2 := by
    have block := known.sizes.block
    rw [fits.block]
    omega
  rw [pageReport, bytes] at sent
  have handled := BootloaderHID.setReport_page lawful size.1 size.2 clear sent
    ((ihexGetData_length _ _ _).trans fits.block.symm)
    (page.symm ▸ fits_page known fits inside aligned) start
  rw [page] at handled
  exact handled

/-- What reports leave in the flash memory: the pages that they are for, and all else as it was. -/
structure Flashed (spm : Spm σ) (o : Options) (img : State) (flash : σ) (sent : List (Option ℕ))
    (flash' : σ) : Prop where
  clear : Clear spm flash'
  byte : ∀ a, spm.byte flash' a =
    if some (a / o.blockSize * o.blockSize) ∈ sent then
      (ihexGetData img (a / o.blockSize * o.blockSize) o.blockSize).getD (a % o.blockSize) 0xFF#8
    else spm.byte flash a

theorem Flashed.start {img : State} {flash flash' : σ} {sent : List (Option ℕ)}
    (h : Flashed spm o img flash sent flash') :
    Flashed spm o img flash (sent ++ [none]) flash' := by
  refine ⟨h.clear, fun a => (h.byte a).trans (if_congr ?_ rfl rfl)⟩
  simp

theorem Flashed.page (fits : Fits chip o) (some : 0 < o.blockSize) {img : State} {flash : σ}
    {sent : List (Option ℕ)} {s s' : BootloaderHID.State σ}
    (h : Flashed spm o img flash sent s.flash) {p : ℕ} (aligned : p % o.blockSize = 0)
    (done : BootloaderHID.Programmed chip spm p (ihexGetData img p o.blockSize) s s') :
    Flashed spm o img flash (sent ++ [.some p]) s'.flash := by
  refine ⟨done.clear, fun a => ?_⟩
  have within : a / o.blockSize * o.blockSize = p ↔ p ≤ a ∧ a < p + chip.pageSize := by
    have whole : p / o.blockSize * o.blockSize = p :=
      Nat.div_mul_cancel (Nat.dvd_of_mod_eq_zero aligned)
    have split := Nat.div_add_mod' a o.blockSize
    have small := Nat.mod_lt a some
    rw [fits.block]
    constructor
    · intro eq
      omega
    · rintro ⟨behind, before⟩
      have same : a / o.blockSize = p / o.blockSize := by
        rw [Nat.div_eq_iff some, whole]
        omega
      rw [same, whole]
  rw [done.byte]
  by_cases here : a / o.blockSize * o.blockSize = p
  · have offset : a - p = a % o.blockSize := by
      have split := Nat.div_add_mod' a o.blockSize
      omega
    rw [if_pos (within.1 here), if_pos (by rw [here]; simp), here, offset]
  · rw [if_neg (mt within.2 here), h.byte]
    refine if_congr ?_ rfl rfl
    simp [here]

/-- The command has come if it is one of the reports. -/
theorem started_of_sent {img : State} {events : List Event} {sent : List (Option ℕ)}
    (delivered : List.Forall₂ (fun packets r => Packets packets (report o img r)) (requests events)
      sent) (command : none ∈ sent) : BootloaderHID.Started chip events := by
  obtain ⟨i, inside, here⟩ := List.getElem_of_mem command
  have there : i < (requests events).length := by
    rw [delivered.length_eq]
    exact inside
  have packets := delivered.get there inside
  rw [List.get_eq_getElem, List.get_eq_getElem, here] at packets
  obtain ⟨e, mem, request⟩ := List.mem_filterMap.1 (List.getElem_mem there)
  refine ⟨e, mem, ?_⟩
  rw [Event.isStart, Event.word, request, Option.bind_some, packets.word]
  exact starts_command chip

/-- **What the reports of a run leave in the flash memory.** -/
theorem run_reports (lawful : spm.Lawful chip.pageSize) (known : Known o) (fits : Fits chip o)
    (other : o.codeSize ≠ 0x10000) (img : State) {flash : σ} (clear : Clear spm flash)
    {events : List Event} {s : BootloaderHID.State σ} (run : Run chip spm (.start flash) events s)
    {sent : List (Option ℕ)} (pages : ∀ p, some p ∈ sent → p < o.codeSize ∧ p % o.blockSize = 0)
    (delivered : List.Forall₂ (fun packets r => Packets packets (report o img r)) (requests events)
      sent) : Flashed spm o img flash sent s.flash := by
  induction run generalizing sent with
  | nil =>
    obtain rfl := List.forall₂_nil_left_iff.1 delivered
    exact ⟨clear, fun a => (if_neg List.not_mem_nil).symm⟩
  | @concat s s' events event run step ih =>
    rw [requests, List.filterMap_append] at delivered
    cases step with
    | overflow =>
      have same : s.overflow.flash = s.flash := by
        unfold BootloaderHID.State.overflow
        split <;> rfl
      rw [same]
      exact ih pages (List.append_nil (requests events) ▸ delivered)
    | test => exact ih pages (List.append_nil (requests events) ▸ delivered)
    | idle => exact ih pages (List.append_nil (requests events) ▸ delivered)
    | request here handled =>
      obtain ⟨sent, r, rfl, before, last⟩ := delivered_concat delivered
      have h := ih (fun p mem => pages p (List.mem_append_left _ mem)) before
      cases r with
      | none =>
        rw [BootloaderHID.setReport_start last (starts_command chip)] at handled
        cases handled
        exact h.start
      | some p =>
        obtain ⟨inside, aligned⟩ := pages p (by simp)
        obtain ⟨s₁, eq, done⟩ :=
          handled_page lawful known fits other img inside aligned last h.clear
        have flashed := h.page fits known.sizes.pos aligned done
        rw [eq] at handled
        cases handled
        exact flashed
    | cut here handled =>
      -- a report that comes as a whole is handled to its end
      obtain ⟨sent, r, rfl, before, last⟩ := delivered_concat delivered
      have h := ih (fun p mem => pages p (List.mem_append_left _ mem)) before
      cases r with
      | none =>
        rw [BootloaderHID.setReport_start last (starts_command chip)] at handled
        cases handled
      | some p =>
        obtain ⟨inside, aligned⟩ := pages p (by simp)
        obtain ⟨s₁, eq, _⟩ := handled_page lawful known fits other img inside aligned last h.clear
        rw [eq] at handled
        cases handled

/-! ## The reports can be handled -/

/-- The loop goes on. -/
structure Ready (spm : Spm σ) (s : BootloaderHID.State σ) : Prop where
  phase : s.phase = .test
  runBootloader : s.runBootloader = true
  clear : Clear spm s.flash

/-- The loop comes to where a request is handled. -/
theorem Ready.test {first s : BootloaderHID.State σ} (ready : Ready spm s) {events : List Event}
    (run : Run chip spm first events s) :
    Run chip spm first (events ++ [.test]) { s with phase := .task } := by
  have next := run.concat (.test ready.phase)
  rw [if_pos ready.runBootloader] at next
  exact next

theorem requests_append (before after : List Event) :
    requests (before ++ after) = requests before ++ requests after := List.filterMap_append

/-- The pages are handled, one behind the other. -/
theorem run_pages (lawful : spm.Lawful chip.pageSize) (known : Known o) (fits : Fits chip o)
    (other : o.codeSize ≠ 0x10000) (img : State) {first : BootloaderHID.State σ}
    {packets : List (List (List (BitVec 8)))} {pages : List ℕ}
    (inside : ∀ p ∈ pages, p < o.codeSize ∧ p % o.blockSize = 0)
    (delivered : List.Forall₂ Packets packets (pages.map (pageReport o img))) {events : List Event}
    {s : BootloaderHID.State σ} (run : Run chip spm first events s) (ready : Ready spm s) :
    ∃ events' s', Run chip spm first events' s' ∧ Ready spm s' ∧
      requests events' = requests events ++ packets := by
  induction pages generalizing packets events s with
  | nil =>
    obtain rfl := List.forall₂_nil_right_iff.1 delivered
    exact ⟨events, s, run, ready, (List.append_nil _).symm⟩
  | cons p pages ih =>
    obtain ⟨report, rest, here, later, rfl⟩ := List.forall₂_cons_right_iff.1 delivered
    obtain ⟨small, aligned⟩ := inside p List.mem_cons_self
    obtain ⟨s', handled, done⟩ := handled_page lawful known fits other img small aligned here
      (s := { s with phase := .task }) ready.clear
    have step := (ready.test run).concat (.request rfl handled)
    have ready' : Ready spm { s' with phase := .test } :=
      ⟨rfl, done.runBootloader.trans ready.runBootloader, done.clear⟩
    obtain ⟨events', s'', run', ready'', eq⟩ := ih
      (fun p mem => inside p (List.mem_cons_of_mem _ mem)) later step ready'
    refine ⟨events', s'', run', ready'', eq.trans ?_⟩
    rw [requests_append, requests_append, List.append_assoc, List.append_assoc]
    rfl

/-- **All that the host sends can be handled**, however it is cut into packets. -/
theorem run_exists (lawful : spm.Lawful chip.pageSize) (known : Known o) (fits : Fits chip o)
    (other : o.codeSize ≠ 0x10000) (img : State) {flash : σ} (clear : Clear spm flash)
    {packets : List (List (List (BitVec 8)))}
    (delivered : List.Forall₂ Packets packets (reports o img)) :
    ∃ events s, Run chip spm (.start flash) events s ∧ requests events = packets := by
  obtain ⟨pages, eq, all⟩ := reports_eq known img
  have map : (pages.map some).map (report o img) = pages.map (pageReport o img) := by
    rw [List.map_map]
    rfl
  rw [eq, List.map_append, map] at delivered
  have front := List.forall₂_take_append _ _ _ delivered
  have back := List.forall₂_drop_append _ _ _ delivered
  obtain ⟨events, s, run, ready, sent⟩ := run_pages lawful known fits other img
    (fun p mem => ⟨((all p).1 mem).1, ((all p).1 mem).2.1⟩) front (.nil (.start flash))
    ⟨rfl, rfl, clear⟩
  have whole := List.take_append_drop (pages.map (pageReport o img)).length packets
  split at back
  · obtain ⟨last, rest, here, none, eq⟩ := List.forall₂_cons_right_iff.1 back
    obtain rfl := List.forall₂_nil_right_iff.1 none
    have handled : BootloaderHID.setReport chip spm last { s with phase := .task } = some _ :=
      BootloaderHID.setReport_start here (starts_command chip) _
    refine ⟨_, _, (ready.test run).concat (.request rfl handled), ?_⟩
    rw [eq] at whole
    refine Eq.trans ?_ whole
    rw [requests_append, requests_append, sent]
    exact congrArg (· ++ [last]) (List.append_nil _)
  · refine ⟨events, s, run, ?_⟩
    rw [List.forall₂_nil_right_iff.1 back, List.append_nil] at whole
    exact sent.trans whole

/-! ## Records -/

/-- A byte of a page is in the memory, or the page is the first. -/
def Touched (o : Options) (m : Memory) (page : ℕ) : Prop :=
  page = 0 ∨ ∃ a, page ≤ a ∧ a < page + o.blockSize ∧ (m.byte a).isSome = true

/-- Records below the limit have no bytes beyond it. -/
theorem records_below {limit : ℕ} {rs : List Record} {m m' : Memory}
    (below : ∀ a, (m.byte a).isSome = true → a < limit)
    (read : Memory.records limit rs m = some m') {a : ℕ} (there : (m'.byte a).isSome = true) :
    a < limit := by
  induction rs generalizing m with
  | nil =>
    cases read
    exact below a there
  | cons r rs ih =>
    rw [Memory.records] at read
    by_cases inside : m.reach r < limit
    · have next (a : ℕ) (there : ((m.apply r).byte a).isSome = true) : a < limit := by
        obtain ⟨_, eq⟩ | ⟨_, eq⟩ | ⟨_, _, _, ⟨_, eq⟩ | ⟨_, eq⟩⟩ | eq := Memory.apply_cases r m
        · rw [eq] at there
          by_cases here : m.base + r.addr.toNat ≤ a ∧ a < m.base + r.addr.toNat + r.data.length
          · exact here.2.trans inside
          · exact below a ((congrArg Option.isSome (if_neg here)).symm.trans there)
        -- nothing else changes a byte
        all_goals rw [eq] at there
        all_goals exact below a there
      rw [if_pos inside] at read
      split at read
      · cases read
        exact next a there
      · exact ih next read
    · rw [if_neg inside] at read
      cases read

/-- A page is sent if it is touched. -/
theorem used_iff (known : Known o) {img : State} {m : Memory} (shows : Shows img m)
    (below : ∀ a, (m.byte a).isSome = true → a < maxMemorySize) {page : ℕ}
    (aligned : page % o.blockSize = 0) : used o img page = true ↔ Touched o m page := by
  have limit : maxMemorySize = 0x10000 := rfl
  have some := known.sizes.pos
  have fits : page < maxMemorySize → page + o.blockSize ≤ maxMemorySize := by
    have block := known.sizes.block
    intro inside
    rcases block with eq | eq <;> rw [eq] at aligned ⊢ <;> omega
  simp only [used, Touched, Bool.or_eq_true, decide_eq_true_eq, ← shows.byte]
  refine or_congr_right ?_
  rcases Nat.lt_or_ge page maxMemorySize with inside | outside
  · exact ihexBytesWithinRange_iff img some (fits inside)
  · -- the page is behind the image
    constructor
    · intro there
      rw [ihexBytesWithinRange, if_pos (.inl outside)] at there
      exact absurd there Bool.false_ne_true
    · rintro ⟨a, behind, _, there⟩
      rw [shows.byte] at there
      have := below a there
      omega

/-- What is expected of the flash memory, of what is in a file. -/
structure Holds (spm : Spm σ) (o : Options) (m : Memory) (flash flash' : σ) : Prop where
  touched : ∀ a, a < o.codeSize → Touched o m (a / o.blockSize * o.blockSize) →
    spm.byte flash' a = if a / o.blockSize * o.blockSize + o.blockSize < maxMemorySize then
      (m.byte a).getD 0xFF#8 else 0xFF#8
  others : ∀ a, ¬(a < o.codeSize ∧ Touched o m (a / o.blockSize * o.blockSize)) →
    spm.byte flash' a = spm.byte flash a

theorem Holds.of_flashed (known : Known o) {img : State} {m : Memory} (shows : Shows img m)
    (below : ∀ a, (m.byte a).isSome = true → a < maxMemorySize) {flash flash' : σ}
    {sent : List (Option ℕ)} (all : ∀ p, some p ∈ sent ↔
      p < o.codeSize ∧ p % o.blockSize = 0 ∧ used o img p = true)
    (h : Flashed spm o img flash sent flash') : Holds spm o m flash flash' := by
  have some := known.sizes.pos
  have page (a : ℕ) : .some (a / o.blockSize * o.blockSize) ∈ sent ↔
      a < o.codeSize ∧ Touched o m (a / o.blockSize * o.blockSize) := by
    have aligned : a / o.blockSize * o.blockSize % o.blockSize = 0 := Nat.mul_mod_left _ _
    have split := Nat.div_add_mod' a o.blockSize
    have small := Nat.mod_lt a some
    have next := page_next aligned known.sizes.whole
    rw [all, used_iff known shows below aligned]
    constructor
    · rintro ⟨inside, _, touched⟩
      refine ⟨?_, touched⟩
      have := next.1 (Nat.le_of_lt inside)
      omega
    · rintro ⟨inside, touched⟩
      exact ⟨by omega, aligned, touched⟩
  refine ⟨fun a inside touched => ?_, fun a other => ?_⟩
  · rw [h.byte, if_pos ((page a).2 ⟨inside, touched⟩), ihexGetData_getD _ _ _ (Nat.mod_lt a some),
      Nat.div_add_mod', shows.byte]
  · rw [h.byte, if_neg (mt (page a).1 other)]

/-- The first word of the flash memory. -/
def vector (spm : Spm σ) (flash : σ) : BitVec 16 := spm.byte flash 1 ++ spm.byte flash 0

/-- Behind the loop the watchdog resets the processor, with the key in its place: the application is
started if its first word is there. -/
theorem Holds.starts (known : Known o) {m : Memory} {flash flash' : σ}
    (h : Holds spm o m flash flash') {low high : BitVec 8} (first : m.byte 0 = some low)
    (second : m.byte 1 = some high) (there : high ++ low ≠ 0xFFFF#16) :
    BootloaderHID.applicationJumpCheck true BootloaderHID.magicBootKey (vector spm flash') =
      (true, 0#16) := by
  have limit : maxMemorySize = 0x10000 := rfl
  have block := known.sizes.block
  have code : 1 < o.codeSize := by
    have all : ∀ p ∈ knownSizes, 1 < p.1 := by decide
    exact all _ known
  have byte (a : ℕ) (small : a < 2) : spm.byte flash' a = (m.byte a).getD 0xFF#8 := by
    have page : a / o.blockSize = 0 := Nat.div_eq_of_lt (by omega)
    rw [h.touched a (by omega) (by rw [page, Nat.zero_mul]; exact .inl rfl), page,
      if_pos (by omega)]
  rw [vector, byte 0 (by decide), byte 1 (by decide), first, second]
  exact if_pos ⟨rfl, rfl, there⟩

/-- **A file of records is what is in the flash memory, once the reports of the host have been
handled**: its bytes and ones in the pages that it touches, and all else as it was. And they can be
handled, however they are cut into packets. -/
theorem programs_records (lawful : spm.Lawful chip.pageSize) {args : List (List Char)}
    (options : parseOptions args = some o) (fits : Fits chip o) (other : o.codeSize ≠ 0x10000)
    {lines : List (List Char)} {rs : List Record} (spelled : List.Forall₂ Line lines rs)
    {rest text : List Char} (behind : File lines rest text) {iso : Bool}
    (inner : ∀ r ∈ rs, Inner iso r) (whole : rest = [] ∨ ∃ r ∈ rs, r.code = 1#8) {m : Memory}
    (read : Memory.records maxMemorySize rs .empty = some m)
    {files : List Char → Option (List Char)} (file : o.filename.bind files = some text) {flash : σ}
    (clear : Clear spm flash) :
    ∃ sent, main iso args files = .ok sent ∧
      (∀ packets, List.Forall₂ Packets packets sent →
        ∃ events s, Run chip spm (.start flash) events s ∧ requests events = packets) ∧
      ∀ events s, Run chip spm (.start flash) events s →
        List.Forall₂ Packets (requests events) sent →
          Holds spm o m flash s.flash ∧
            (o.rebootAfterProgramming = true → s.runBootloader = false) := by
  have known := parseOptions_known options
  obtain ⟨img, got, shows⟩ :=
    (readFrom_records spelled behind inner .start (Nat.zero_le _)).1 whole m read
  have opened : readIntelHex iso text = .ok img := got
  have below (a : ℕ) (there : (m.byte a).isSome = true) : a < maxMemorySize := by
    refine records_below (fun _ none => ?_) read there
    cases none
  refine ⟨reports o img, ?_, ?_, ?_⟩
  · rw [main, options]
    dsimp only
    rw [file]
    dsimp only
    rw [opened]
    rfl
  · exact fun packets delivered => run_exists lawful known fits other img clear delivered
  · intro events s run delivered
    obtain ⟨pages, eq, all⟩ := reports_eq known img
    rw [eq, List.forall₂_map_right_iff] at delivered
    have mem (p : ℕ) :
        (some p ∈ pages.map some ++ if o.rebootAfterProgramming then [none] else []) ↔
          p < o.codeSize ∧ p % o.blockSize = 0 ∧ used o img p = true := by
      rw [← all]
      split <;> simp
    have h := run_reports lawful known fits other img clear run
      (fun p sent => ⟨((mem p).1 sent).1, ((mem p).1 sent).2.1⟩) delivered
    refine ⟨.of_flashed known shows below mem h, fun reboot => ?_⟩
    refine (BootloaderHID.Timed.of_run run).runBootloader.2 (.inl (started_of_sent delivered ?_))
    rw [if_pos reboot]
    exact List.mem_append_right _ List.mem_cons_self

theorem programs_records_byte : ∃ sent,
    main false ["a".toList] (fun _ => some ":0100000041BE\n:00000001FF\n".toList) = .ok sent ∧
      ∀ events s,
        Run ⟨0x7FFF, 128⟩ (Avr.spm 128) (.start ⟨fun _ => 0xFF#8, fun _ => none⟩) events s →
          List.Forall₂ Packets (requests events) sent → (Avr.spm 128).byte s.flash 0 = 0x41#8 := by
  have lawful : (Avr.spm 128).Lawful (Chip.mk 0x7FFF 128).pageSize := Avr.lawful 128
  have options : parseOptions ["a".toList] =
    some { Options.start with filename := some "a".toList } := rfl
  have spelled : List.Forall₂ Line [":0100000041BE".toList, ":00000001FF".toList]
      [⟨0#16, 0#8, [0x41#8], by decide⟩, ⟨0#16, 1#8, [], by decide⟩] :=
    .cons ⟨"0100000041BE".toList, by decide, .inl rfl⟩
      (.cons ⟨"00000001FF".toList, by decide, .inl rfl⟩ .nil)
  have file : (some "a".toList).bind (fun _ => some ":0100000041BE\n:00000001FF\n".toList) =
    some (text [":0100000041BE".toList, ":00000001FF".toList] ++ []) := rfl
  have clear : Clear (Avr.spm 128) ⟨fun _ => 0xFF#8, fun _ => none⟩ := fun _ => rfl
  have inner : ∀ r ∈ ([⟨0#16, 0#8, [0x41#8], by decide⟩, ⟨0#16, 1#8, [], by decide⟩] :
      List Record), Inner false r := by decide
  obtain ⟨sent, eq, _, holds⟩ := programs_records lawful options ⟨rfl, rfl⟩ (by decide) spelled
    (.of_text _ _) inner (.inl rfl) rfl file clear
  refine ⟨sent, eq, fun events s run delivered => ?_⟩
  exact (holds events s run delivered).1.touched 0 (by decide) (.inl rfl)

end Run

end HidBootloaderCli

end Teres.Kbd
