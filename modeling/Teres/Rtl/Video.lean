import Teres.Rtl.AsyncFifo
import Teres.Rtl.Display
import Mathlib.Data.Nat.Count

/-!
# The display and its FIFO (`u0_display` and `fifo_inst` of `common/src/c5_soc.v`)

The pixel clock drives the display and the read side of the FIFO, the bus clock the write side.
`O_sync` of the display holds both sides of the FIFO in reset; `I_rst` is low in the runs here. The
resets of the FIFO are asynchronous, so they act in the instant in which `O_sync` rises, after
whatever edges the instant has.

The writer is an input. Nothing drives `display_write` in the source, and `I_write_data` is tied to
a constant there.
-/

namespace Teres.Rtl.Video

open Teres.Rtl.AsyncFifo (WriteIn)

/-- The clock edges of one instant, with what the writer drives. -/
structure Edges where
  write : Option (WriteIn 32)
  pixel : Bool

/-- The registers of both instances; `POINTER_WIDTH` is 5. -/
structure State where
  display : Display.State
  fifo : AsyncFifo.State 32 5

/-- What the display sees of the FIFO. -/
def State.seen (s : State) : Display.In := ⟨true, s.fifo.r.oReadData, s.fifo.r.oReadEmpty⟩

/-- The edges that the FIFO gets. -/
def State.edges (s : State) (e : Edges) : AsyncFifo.Edges 32 where
  write := e.write
  read := if e.pixel then some s.display.oRead else none

/-- One instant. -/
def step (s : State) (e : Edges) : State :=
  let display := if e.pixel then Display.next s.display s.seen else s.display
  { display := display
    fifo :=
      if s.display.oSync then AsyncFifo.reset s.fifo
      else if display.oSync then AsyncFifo.reset (AsyncFifo.step s.fifo (s.edges e))
      else AsyncFifo.step s.fifo (s.edges e) }

/-- What `I_rst` leaves. -/
def reset (s : State) : State := ⟨Display.reset s.display, AsyncFifo.reset s.fifo⟩

/-- The state before instant `n` of a run from reset. -/
def states (s₀ : State) (input : ℕ → Edges) : ℕ → State := Clocked.run step (reset s₀) input

/-! ## Since the frame began -/

/-- `O_sync` fell in the instant before `start`, and has been low up to instant `n`. -/
structure Began (states : ℕ → State) (start n : ℕ) : Prop where
  le : start ≤ n
  fell : ∃ m, start = m + 1 ∧ (states m).display.oSync = true
  low : ∀ m, start ≤ m → m ≤ n → (states m).display.oSync = false

/-- The edges of the pixel clock before instant `n`. -/
def pixels (input : ℕ → Edges) (n : ℕ) : ℕ := Nat.count (fun m => (input m).pixel = true) n

/-- The words that the writer has given from `start` up to instant `n`. -/
def written (input : ℕ → Edges) (start : ℕ) (n : ℕ) : List (BitVec 32) :=
  (List.range' start (n - start)).flatMap fun m => AsyncFifo.commands ⟨(input m).write, none⟩

/-- How many words the display has asked the FIFO for from `start` up to instant `n`. -/
def fetched (states : ℕ → State) (input : ℕ → Edges) (start n : ℕ) : ℕ :=
  Nat.count (fun m => start ≤ m ∧ (input m).pixel = true ∧ (states m).display.oRead = true) n

/-- The writer heeds `O_write_full`. -/
def Yields (states : ℕ → State) (input : ℕ → Edges) (start n : ℕ) : Prop :=
  ∀ m, start ≤ m → m < n → ∀ i, (input m).write = some i → i.iCmdWrite = true →
    (states m).fifo.w.oWriteFull = false

/-- Where the display looks for a word, it was written before the third edge of the pixel clock
before. -/
def InTime (states : ℕ → State) (input : ℕ → Edges) (start n : ℕ) : Prop :=
  ∀ m' m, start ≤ m' → m < n → (input m').pixel = true → (input m).pixel = true →
    pixels input m' + 3 = pixels input m → (states m).display.requests = true →
      fetched states input start m < (written input start m').length

end Teres.Rtl.Video
