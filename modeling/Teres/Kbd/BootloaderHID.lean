import Mathlib.Data.BitVec

/-!
# The boot loader (`BootLoaderHID/BootloaderHID.c`)

The host sends a report for each page of the flash memory, and one to start the application. The
handler of a report reads it word by word from the control endpoint, and programs the page. The main
loop handles requests as long as `RunBootloader` is set; the interrupt of the timer clears it when
no page has come for a time.

The handler does not look at `RunBootloader`, and the interrupt at nothing but it and `boottime`. So
an interrupt during a request is one before or behind the point where the handler sets `boottime`,
and a request is one step. A request that is cut off is one too: the handler has done what the
packets ask for, and waits for another for ever. The flash memory is written by the instructions of
the processor (`avr/boot.h`), which are a parameter; the endpoint is a queue of packets.

Not here are the other requests, the setup of the hardware and the jump itself.
-/

namespace Teres.Kbd.BootloaderHID

/-- `COMMAND_STARTAPPLICATION`. -/
def commandStartApplication : ℕ := 0xFFFF

/-- `MAGIC_BOOT_KEY`. -/
def magicBootKey : BitVec 16 := 0xDC42#16

/-- `BOOTLOADER_TIMEOUT`. -/
def bootloaderTimeout : ℕ := 20

/-- `FLASHEND` and `SPM_PAGESIZE`. -/
structure Chip where
  flashEnd : ℕ
  pageSize : ℕ
deriving DecidableEq

/-- The instructions that program the flash memory, the bytes that are read of it, and the words
that wait to be written. -/
structure Spm (σ : Type) where
  erase : ℕ → σ → σ
  fill : ℕ → BitVec 16 → σ → σ
  write : ℕ → σ → σ
  byte : σ → ℕ → BitVec 8
  buffer : σ → ℕ → Option (BitVec 16)

/-- The byte of a word at an address. -/
def half (w : BitVec 16) (a : ℕ) : BitVec 8 :=
  if a % 2 = 0 then w.extractLsb' 0 8 else w.extractLsb' 8 8

/-- What `avr/boot.h` promises, for pages of `size` bytes: a page is erased to ones, a word waits
where none does, and writing a page can only clear its bits. -/
structure Spm.Lawful {σ : Type} (spm : Spm σ) (size : ℕ) : Prop where
  erase_byte : ∀ p s a,
    spm.byte (spm.erase p s) a = if a / size = p / size then 0xFF#8 else spm.byte s a
  erase_buffer : ∀ p s, spm.buffer (spm.erase p s) = spm.buffer s
  fill_byte : ∀ p w s, spm.byte (spm.fill p w s) = spm.byte s
  fill_buffer : ∀ p w s, spm.buffer s (p % size / 2) = none →
    ∀ i, spm.buffer (spm.fill p w s) i = if i = p % size / 2 then some w else spm.buffer s i
  write_byte : ∀ p s a, spm.byte (spm.write p s) a =
    if a / size = p / size then
      spm.byte s a &&& half ((spm.buffer s (a % size / 2)).getD 0xFFFF#16) a
    else spm.byte s a
  write_buffer : ∀ p s i, spm.buffer (spm.write p s) i = none

/-! ## The control endpoint -/

/-- What is left of the packet that has been received, and the packets behind it. -/
structure Endpoint where
  bank : List (BitVec 8)
  waiting : List (List (BitVec 8))

/-- How far a handler comes: to its end, or to a wait for a packet that does not come. -/
inductive Handled (α : Type) where
  | ends (a : α)
  | waits (a : α)

/-- `Endpoint_ClearOUT`, and the wait for the next packet: without one it never ends. -/
def Endpoint.clearOut (e : Endpoint) : Option Endpoint :=
  match e.waiting with
  | [] => none
  | packet :: waiting => some ⟨packet, waiting⟩

/-- `Endpoint_Read_16_LE`, where two bytes are left. -/
def Endpoint.read16 (e : Endpoint) : Option (BitVec 16 × Endpoint) :=
  match e.bank with
  | low :: high :: bank => some (high ++ low, { e with bank := bank })
  | _ => none

/-! ## Requests -/

/-- The bits of `PageAddress`. -/
def Chip.width (chip : Chip) : ℕ := if 0xFFFF < chip.flashEnd then 32 else 16

/-- `PageAddress`, of the word in front of a report. -/
def Chip.pageAddress (chip : Chip) (word : BitVec 16) : ℕ :=
  if 0xFFFF < chip.flashEnd then word.toNat * 2 ^ 8 else word.toNat

/-- Whether that is the command to start the application. -/
def Chip.starts (chip : Chip) (page : ℕ) : Bool :=
  if 0xFFFF < chip.flashEnd then page / 2 ^ 8 % 2 ^ 16 = commandStartApplication
  else page = commandStartApplication

section Device

variable {σ : Type} (chip : Chip) (spm : Spm σ)

/-- The loop over the words of a page, from `word` on. -/
def fillLoop (page : ℕ) : ℕ → ℕ → Endpoint → σ → Option (Handled σ)
  | 0, _, _, flash => some (.ends flash)
  | k + 1, word, e, flash =>
    match if e.bank = [] then e.clearOut else some e with
    | none => some (.waits flash)
    | some e => do
      let (w, e) ← e.read16
      fillLoop page k (word + 1) e (spm.fill ((page + word * 2) % 2 ^ chip.width) w flash)

/-- The places of the main loop: in front of the test of `RunBootloader`, in front of `USB_USBTask`,
in a handler that waits for ever, and behind the loop. -/
inductive Phase where
  | test
  | task
  | waiting
  | left
deriving DecidableEq

/-- `RunBootloader`, `boottime` and the flash memory. -/
structure State (σ : Type) where
  phase : Phase
  runBootloader : Bool
  boottime : ℕ
  flash : σ

/-- What `main` begins its loop with. -/
def State.start (flash : σ) : State σ := ⟨.test, true, bootloaderTimeout, flash⟩

/-- `HID_REQ_SetReport` in `EVENT_USB_Device_ControlRequest`, for the packets of a report. There is
no result where a word is read of a single byte. -/
def setReport (packets : List (List (BitVec 8))) (s : State σ) : Option (Handled (State σ)) :=
  match Endpoint.clearOut ⟨[], packets⟩ with
  | none => some (.waits s)
  | some e => do
    let (word, e) ← e.read16
    if chip.starts (chip.pageAddress word) then some (.ends { s with runBootloader := false })
    else do
      let erased := spm.erase (chip.pageAddress word) s.flash
      match ← fillLoop chip spm (chip.pageAddress word) (chip.pageSize / 2) 0 e erased with
      | .ends flash => return .ends { s with
          boottime := bootloaderTimeout
          flash := spm.write (chip.pageAddress word) flash }
      | .waits flash => return .waits { s with boottime := bootloaderTimeout, flash := flash }

/-- `TIMER0_OVF_vect`. -/
def State.overflow (s : State σ) : State σ :=
  if s.boottime ≠ 0 then { s with boottime := s.boottime - 1 }
  else { s with runBootloader := false }

/-- What happens in a step. -/
inductive Event where
  | overflow
  | test
  | idle
  | request (packets : List (List (BitVec 8)))

/-- One step of the boot loader. -/
inductive Step : State σ → Event → State σ → Prop where
  | overflow (s : State σ) : Step s .overflow s.overflow
  | test {s : State σ} (here : s.phase = .test) :
    Step s .test { s with phase := if s.runBootloader then .task else .left }
  | idle {s : State σ} (here : s.phase = .task) : Step s .idle { s with phase := .test }
  | request {s s' : State σ} {packets : List (List (BitVec 8))} (here : s.phase = .task)
    (handled : setReport chip spm packets s = some (.ends s')) :
    Step s (.request packets) { s' with phase := .test }
  | cut {s s' : State σ} {packets : List (List (BitVec 8))} (here : s.phase = .task)
    (handled : setReport chip spm packets s = some (.waits s')) :
    Step s (.request packets) { s' with phase := .waiting }

/-- Steps, with what happens in them. -/
inductive Run : State σ → List Event → State σ → Prop where
  | nil (s : State σ) : Run s [] s
  | concat {s s' s'' : State σ} {events : List Event} {event : Event} (run : Run s events s')
    (step : Step chip spm s' event s'') : Run s (events ++ [event]) s''

end Device

/-- `Application_Jump_Check`: whether the application is started, and what becomes of
`MagicBootKey`. `wdrf` is the flag of a watchdog reset, `vector` the first word of the flash
memory. -/
def applicationJumpCheck (wdrf : Bool) (key vector : BitVec 16) : Bool × BitVec 16 :=
  if wdrf ∧ key = magicBootKey ∧ vector ≠ 0xFFFF#16 then (true, 0#16) else (false, key)

end Teres.Kbd.BootloaderHID
