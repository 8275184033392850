import Teres.Base.Domain
import Teres.Laws.Rtl.DisplayRequests
import Teres.Laws.Rtl.DisplayWords
import Teres.Laws.Rtl.FifoDelay
import Teres.Rtl.Video

/-!
# From the writer to the screen

Counted in edges of the pixel clock, the display is the machine of `Teres.Laws.Rtl.DisplayTiming`
(`display_cycles`), and from the fall of `O_sync` on the FIFO is that of `Teres.Laws.Rtl.AsyncFifo`
from reset (`fifo_frame`), whose reader is the display. The display reads only where there is a word
(`fetch_ready`), though it looks at `O_read_empty` one edge before it reads.

So the words of a frame come to the screen in the order in which they were written. If each of them
is written three edges of the pixel clock before the display looks for it, then each comes to its
place (`colour_written`).
-/

namespace Teres.Rtl.Video

variable (s₀ : State) (input : ℕ → Edges)

/-! ## The display in cycles -/

/-- What the display samples at edge `k` of the pixel clock, as far as instant `N`. -/
noncomputable def sampled (N k : ℕ) : Display.In :=
  (states s₀ input (Domain.instant (fun m => (input m).pixel = true) N k)).seen

/-- The display before edge `k` of the pixel clock. -/
noncomputable def cycles (N : ℕ) : ℕ → Display.State :=
  Display.states s₀.display (sampled s₀ input N)

theorem sampled_run (N t : ℕ) : (sampled s₀ input N t).iRstN = true := rfl

theorem sampled_edge {N m : ℕ} (lt : m < N) (edge : (input m).pixel = true) :
    sampled s₀ input N (pixels input m) = (states s₀ input m).seen := by
  rw [sampled, pixels, Domain.instant_count lt edge]

theorem display_edge {m : ℕ} (edge : (input m).pixel = true) : (states s₀ input (m + 1)).display =
    Display.next (states s₀ input m).display (states s₀ input m).seen := by
  rw [states, Clocked.run_succ, ← states, step, edge]
  rfl

theorem display_held {m : ℕ} (edge : ¬(input m).pixel = true) :
    (states s₀ input (m + 1)).display = (states s₀ input m).display := by
  rw [states, Clocked.run_succ, ← states, step]
  exact if_neg edge

/-- **The display is a machine on the pixel clock.** -/
theorem display_cycles {N m : ℕ} (le : m ≤ N) :
    (states s₀ input m).display = cycles s₀ input N (pixels input m) :=
  Domain.run_instant (s := fun m => (states s₀ input m).display)
    (fun _ _ edge => display_edge s₀ input edge) (fun _ _ edge => display_held s₀ input edge) le

theorem pixels_edge {m : ℕ} (edge : (input m).pixel = true) :
    pixels input (m + 1) = pixels input m + 1 := by
  rw [pixels, Nat.count_succ, if_pos edge]
  rfl

theorem pixels_held {m : ℕ} (edge : ¬(input m).pixel = true) :
    pixels input (m + 1) = pixels input m := by
  rw [pixels, Nat.count_succ, if_neg edge]
  rfl

theorem lt_of_pixels {m n : ℕ} (less : pixels input m < pixels input n) : m < n :=
  Nat.lt_of_count_lt_count less

/-- An edge of the pixel clock since `start`, by its number. -/
theorem exists_edge {start N k : ℕ} (since : pixels input start ≤ k) (before : k < pixels input N) :
    ∃ m, start ≤ m ∧ m < N ∧ (input m).pixel = true ∧ pixels input m = k := by
  have some : ∃ m < N, (input m).pixel = true ∧ pixels input m = k :=
    Domain.exists_instant before
  obtain ⟨m, lt, edge, count⟩ := some
  refine ⟨m, Nat.le_of_not_lt fun early => ?_, lt, edge, count⟩
  have less : pixels input m < pixels input start := Nat.count_strict_mono edge early
  rw [count] at less
  omega

theorem written_mono (start : ℕ) {m n : ℕ} (le : m ≤ n) :
    written input start m <+: written input start n := by
  obtain ⟨k, more⟩ : ∃ k, n - start = m - start + k := Nat.exists_eq_add_of_le (by omega)
  rw [written, written, more, ← List.range'_append_1, List.flatMap_append]
  exact List.prefix_append _ _

/-! ## The FIFO in a frame -/

/-- The edges of the FIFO from `start` up to `N`. -/
def frameEdges (start N j : ℕ) : AsyncFifo.Edges 32 :=
  if start + j < N then (states s₀ input (start + j)).edges (input (start + j)) else ⟨none, none⟩

section Frame

variable {s₀ input} {start N : ℕ} {s : AsyncFifo.State 32 5}
  (fresh : (states s₀ input start).fifo = AsyncFifo.reset s)
  (low : ∀ m, start ≤ m → m ≤ N → (states s₀ input m).display.oSync = false)

include low in
theorem fifo_step {m : ℕ} (since : start ≤ m) (lt : m < N) : (states s₀ input (m + 1)).fifo =
    AsyncFifo.step (states s₀ input m).fifo ((states s₀ input m).edges (input m)) := by
  have here := low m since lt.le
  have next := low (m + 1) (Nat.le_succ_of_le since) lt
  rw [states, Clocked.run_succ, ← states] at next ⊢
  unfold step at next ⊢
  dsimp only at next ⊢
  rw [here, next]
  rfl

include fresh low in
/-- **Between two falls of `O_sync` the FIFO runs from reset.** -/
theorem fifo_frame {j : ℕ} (le : start + j ≤ N) : (states s₀ input (start + j)).fifo =
    AsyncFifo.states s (frameEdges s₀ input start N) j := by
  induction j with
  | zero => exact fresh
  | succ j ih =>
    have lt : start + j < N := le
    rw [AsyncFifo.states, Clocked.run_succ, ← AsyncFifo.states, ← ih lt.le, frameEdges, if_pos lt]
    exact fifo_step low (Nat.le_add_right _ _) lt

include low in
/-- The read side changes at edges of the pixel clock only. -/
theorem read_held {m n : ℕ} (since : start ≤ m) (le : m ≤ n) (lt : n ≤ N)
    (same : pixels input m = pixels input n) :
    (states s₀ input n).fifo.r = (states s₀ input m).fifo.r := by
  refine Domain.held (a := fun m => (states s₀ input m).fifo.r) le
    (fun k above below edge => ?_) same
  rw [fifo_step low (since.trans above) (below.trans_le lt), AsyncFifo.step, State.edges,
    if_neg edge]

theorem frameEdges_read {j : ℕ} (lt : start + j < N) : (frameEdges s₀ input start N j).read =
    if (input (start + j)).pixel then some (states s₀ input (start + j)).display.oRead
      else none := by
  rw [frameEdges, if_pos lt]
  rfl

/-- The read edges are those of the pixel clock. -/
theorem readCount_eq {j : ℕ} (le : start + j ≤ N) : pixels input (start + j) =
    pixels input start + AsyncFifo.readCount (frameEdges s₀ input start N) j := by
  induction j with
  | zero => rfl
  | succ j ih =>
    have lt : start + j < N := le
    have read : (frameEdges s₀ input start N j).read = _ := frameEdges_read lt
    rw [← Nat.add_assoc]
    cases edge : (input (start + j)).pixel with
    | true =>
      rw [edge, if_pos rfl] at read
      rw [pixels_edge input edge, ih lt.le, AsyncFifo.readCount_edge (by rw [read]; rfl)]
      rfl
    | false =>
      rw [edge, if_neg Bool.false_ne_true] at read
      rw [pixels_held input (by rw [edge]; exact Bool.false_ne_true), ih lt.le,
        AsyncFifo.readCount_none read]

/-- The words given to the FIFO. -/
theorem commanded_frame {j : ℕ} (le : start + j ≤ N) :
    AsyncFifo.commanded (frameEdges s₀ input start N) j = written input start (start + j) := by
  induction j with
  | zero => simp [written, AsyncFifo.commanded]
  | succ j ih =>
    have lt : start + j < N := le
    have here : AsyncFifo.commands (frameEdges s₀ input start N j) =
        AsyncFifo.commands ⟨(input (start + j)).write, none⟩ := by
      rw [frameEdges, if_pos lt]
      rfl
    have less : start + (j + 1) - start = j + 1 := by omega
    have less' : start + j - start = j := by omega
    rw [AsyncFifo.commanded, Clocked.ledger_succ, ← AsyncFifo.commanded, ih lt.le, here, written,
      written, less, less', List.range'_1_concat, List.flatMap_append, List.flatMap_singleton]

/-! ## What the display reads -/

section Reader

variable (phase : pixels input start % 420000 = 130)

include phase in
/-- A command of the display was asked for one edge earlier, where there was a word. -/
theorem asked {m : ℕ} (since : start ≤ m) (le : m ≤ N)
    (read : (states s₀ input m).display.oRead = true) :
    ∃ k, start ≤ k ∧ k < m ∧ (input k).pixel = true ∧ pixels input k + 1 = pixels input m ∧
      pixels input start < pixels input k ∧ (states s₀ input k).display.oRead = false ∧
      (states s₀ input k).fifo.r.oReadEmpty = false := by
  have grown : pixels input start ≤ pixels input m := Nat.count_monotone _ since
  rw [display_cycles s₀ input le] at read
  obtain ⟨k, count⟩ : ∃ k, pixels input m = k + 1 := ⟨pixels input m - 1, by omega⟩
  rw [count] at read
  have ask := Display.oRead_eq (s := s₀.display) (sampled_run s₀ input N) k
  have at_ := Display.oRead_phase (s := s₀.display) (sampled_run s₀ input N) read
  have ahead : pixels input start < k := by omega
  obtain ⟨m', since', lt', edge, count'⟩ :=
    exists_edge input (k := k) ahead.le (Nat.lt_of_lt_of_eq (Nat.lt_succ_self k) count.symm)
  refine ⟨m', since', lt', edge, by omega, by omega, ?_, ?_⟩
  · rw [display_cycles s₀ input (lt'.le.trans le), count', ← Bool.not_eq_true]
    intro before
    obtain ⟨j, rfl⟩ : ∃ j, k = j + 1 := ⟨k - 1, by omega⟩
    have earlier := Display.oRead_phase (s := s₀.display) (sampled_run s₀ input N) before
    omega
  · have sees := sampled_edge s₀ input (lt'.trans_le le) edge
    rw [count'] at sees
    rw [← cycles] at ask
    rw [ask, sees, Bool.and_eq_true, Bool.not_eq_true'] at read
    exact read.2

include phase in
theorem readerWaits : AsyncFifo.ReaderWaits (frameEdges s₀ input start N) := by
  intro j asks
  have lt : start + j < N := by
    by_contra out
    rw [frameEdges, if_neg out] at asks
    cases asks
  rw [frameEdges_read lt] at asks
  split at asks
  · obtain ⟨k, since, before, edge, -⟩ :=
      asked phase (Nat.le_add_right start j) lt.le (Option.some.inj asks)
    refine ⟨k - start, by omega, ?_⟩
    have back : start + (k - start) = k := by omega
    rw [frameEdges_read (by omega), back, edge]
    rfl
  · cases asks

include fresh low phase in
/-- **The display reads only where there is a word.** -/
theorem fetch_ready {m : ℕ} (since : start ≤ m) (lt : m < N)
    (read : (states s₀ input m).display.oRead = true) :
    (states s₀ input m).fifo.r.oReadEmpty = false := by
  obtain ⟨k, since', before, edge, next, ahead, quiet, some⟩ := asked phase since lt.le read
  -- the flag that was looked at stays as it is to the command
  have same : pixels input (k + 1) = pixels input m := (pixels_edge input edge).trans next
  rw [read_held low (Nat.le_succ_of_le since') before lt.le same]
  obtain ⟨i, since'', before', edge', -⟩ := exists_edge input le_rfl ahead
  have back : start + (k - start) = k := by omega
  have back' : start + (i - start) = i := by omega
  have now := fifo_frame fresh low (j := k - start) (by omega)
  have then' := fifo_frame fresh low (j := k - start + 1) (by omega)
  rw [back] at now
  rw [← Nat.add_assoc, back] at then'
  rw [now] at some
  rw [then']
  refine AsyncFifo.oReadEmpty_quiet s (readerWaits phase) (by decide)
    (m := i - start) (by omega) ?_ ?_ some
  · rw [frameEdges_read (by omega), back', edge']
    rfl
  · rw [frameEdges_read (by omega), back, edge, quiet]
    exact fun h => by cases h

theorem fetched_succ {m : ℕ} (since : start ≤ m) :
    fetched (states s₀ input) input start (m + 1) = fetched (states s₀ input) input start m +
      if (input m).pixel = true ∧ (states s₀ input m).display.oRead = true then 1 else 0 := by
  rw [fetched, Nat.count_succ]
  simp only [since, true_and]
  rfl

theorem fetched_start : fetched (states s₀ input) input start start = 0 :=
  Nat.count_of_forall_not fun _ early since => Nat.not_lt.2 since.1 early

/-- Without a command behind the next edge, one word more is asked for at most. -/
theorem fetched_one {a b : ℕ} (none : fetched (states s₀ input) input start a = 0)
    (quiet : ∀ k < b, (states s₀ input (a + (k + 1))).display.oRead = false) :
    fetched (states s₀ input) input start (a + (b + 1)) ≤ 1 := by
  have split : fetched (states s₀ input) input start (a + (b + 1)) =
      fetched (states s₀ input) input start a + Nat.count (fun k => start ≤ a + k ∧
        (input (a + k)).pixel = true ∧ (states s₀ input (a + k)).display.oRead = true) (b + 1) :=
    Nat.count_add _ a (b + 1)
  rw [split, none, Nat.zero_add, Nat.count_succ', Nat.count_of_forall_not, Nat.zero_add]
  · split_ifs
    · exact le_rfl
    · exact Nat.zero_le 1
  · rintro k few ⟨-, -, read⟩
    exact Bool.false_ne_true ((quiet k few).symm.trans read)

/-- The commands, in cycles. -/
theorem fetched_reads {j : ℕ} (le : start + j ≤ N) :
    fetched (states s₀ input) input start (start + j) =
      Display.reads (cycles s₀ input N) (pixels input start) (pixels input (start + j)) := by
  induction j with
  | zero =>
    rw [Nat.add_zero, fetched_start, Display.reads, Nat.count_of_forall_not]
    exact fun _ early since => Nat.not_lt.2 since.1 early
  | succ j ih =>
    have lt : start + j < N := le
    have grown : pixels input start ≤ pixels input (start + j) :=
      Nat.count_monotone _ (Nat.le_add_right _ _)
    rw [← Nat.add_assoc, fetched_succ (Nat.le_add_right _ _), ih lt.le,
      display_cycles s₀ input lt.le]
    cases edge : (input (start + j)).pixel with
    | true =>
      rw [pixels_edge input edge, Display.reads, Display.reads, Nat.count_succ]
      simp only [grown, true_and]
    | false =>
      rw [pixels_held input (by rw [edge]; exact Bool.false_ne_true)]
      simp

include fresh low phase in
/-- Every command reads a word. -/
theorem fetched_counts {j : ℕ} (le : start + j ≤ N) :
    fetched (states s₀ input) input start (start + j) =
      (AsyncFifo.counts s (frameEdges s₀ input start N) j).read := by
  induction j with
  | zero => exact fetched_start
  | succ j ih =>
    have lt : start + j < N := le
    rw [← Nat.add_assoc, fetched_succ (Nat.le_add_right _ _), ih lt.le, AsyncFifo.counts,
      AsyncFifo.Counts.next]
    refine congrArg (_ + ·) ?_
    have read : (frameEdges s₀ input start N j).read = _ := frameEdges_read lt
    have fifo := fifo_frame fresh low lt.le
    cases edge : (input (start + j)).pixel with
    | false =>
      rw [edge, if_neg Bool.false_ne_true] at read
      rw [AsyncFifo.takes, read]
      rfl
    | true =>
      rw [edge, if_pos rfl] at read
      rw [AsyncFifo.takes_length _ _ read]
      cases asks : (states s₀ input (start + j)).display.oRead with
      | false => rfl
      | true =>
        have ready := fetch_ready fresh low phase (Nat.le_add_right _ _) lt asks
        rw [fifo] at ready
        rw [ready]
        rfl

/-! ## What the writer gives -/

variable (yields : Yields (states s₀ input) input start N)

include fresh low yields in
theorem writerYields : AsyncFifo.WriterYields s (frameEdges s₀ input start N) := by
  intro j i write cmd
  rw [frameEdges] at write
  split at write
  · next lt =>
    rw [← fifo_frame fresh low lt.le]
    exact yields (start + j) (Nat.le_add_right _ _) lt i write cmd
  · cases write

include fresh low phase yields

/-- Every word that is given is accepted. -/
theorem accepted_frame {j : ℕ} (le : start + j ≤ N) :
    AsyncFifo.accepted s (frameEdges s₀ input start N) j = written input start (start + j) := by
  have high := AsyncFifo.writeFull_low (by decide) s (writerYields fresh low yields)
    (readerWaits phase)
  rw [← AsyncFifo.commanded_eq_accepted s _ high, commanded_frame le]

/-- **`O_read_empty` tells what was written three edges ago.** -/
theorem oReadEmpty_third {m' m : ℕ} (since : start ≤ m') (lt : m < N)
    (edge : (input m').pixel = true) (third : pixels input m' + 3 = pixels input m) :
    (states s₀ input m).fifo.r.oReadEmpty = true ↔
      fetched (states s₀ input) input start m = (written input start m').length := by
  have before : m' < m := lt_of_pixels input (by omega)
  obtain ⟨i, rfl⟩ := Nat.exists_eq_add_of_le since
  obtain ⟨j, rfl⟩ := Nat.exists_eq_add_of_le (since.trans before.le)
  have here : (frameEdges s₀ input start N i).read.isSome = true := by
    rw [frameEdges_read (by omega), edge]
    rfl
  have first : pixels input (start + i) = pixels input start +
      AsyncFifo.readCount (frameEdges s₀ input start N) i := readCount_eq (by omega)
  have second : pixels input (start + j) = pixels input start +
      AsyncFifo.readCount (frameEdges s₀ input start N) j := readCount_eq lt.le
  have flag := AsyncFifo.oReadEmpty_iff s (readerWaits phase) (by decide) here (n := j) (by omega)
  rw [← fifo_frame fresh low lt.le, ← fetched_counts fresh low phase lt.le,
    ← AsyncFifo.accepted_length, accepted_frame fresh low phase yields (by omega)] at flag
  exact flag

/-- A word that was written in time is there. -/
theorem filled (inTime : InTime (states s₀ input) input start N) {m : ℕ} (since : start ≤ m)
    (lt : m < N) (edge : (input m).pixel = true)
    (asks : (states s₀ input m).display.requests = true) :
    (states s₀ input m).fifo.r.oReadEmpty = false := by
  have grown : pixels input start ≤ pixels input m := Nat.count_monotone _ since
  have late : pixels input start + 3 ≤ pixels input m := by
    rw [display_cycles s₀ input lt.le] at asks
    have ask := Display.requests_eq (s := s₀.display) (sampled_run s₀ input N) (pixels input m)
    rw [← cycles, asks] at ask
    have row : 33 ≤ pixels input m / 800 % 525 := (of_decide_eq_true ask.symm).2.1
    omega
  have soon : pixels input start ≤ pixels input m - 3 := by omega
  have before : pixels input m - 3 < pixels input m := by omega
  obtain ⟨m', since', -, edge', count⟩ := exists_edge input soon before
  have less := inTime m' m since' lt edge' edge (by omega) asks
  rw [← Bool.not_eq_true, oReadEmpty_third fresh low phase yields since' lt edge' (by omega)]
  exact less.ne

/-- **Each command brings the next word that was written.** -/
theorem word_sampled {m : ℕ} (since : start ≤ m) (lt : m < N) (edge : (input m).pixel = true)
    (read : (states s₀ input m).display.oRead = true) :
    (written input start m)[fetched (states s₀ input) input start m]? =
      some (sampled s₀ input N (pixels input m + 1)).iData := by
  have ready := fetch_ready fresh low phase since lt read
  obtain ⟨j, rfl⟩ := Nat.exists_eq_add_of_le since
  have asks : (frameEdges s₀ input start N j).read = some true := by
    rw [frameEdges_read lt, edge, read]
    rfl
  have waits : AsyncFifo.ReaderWaits (frameEdges s₀ input start N) := readerWaits phase
  have high := AsyncFifo.writeFull_low (by decide) s (writerYields fresh low yields) waits
  rw [fifo_frame fresh low lt.le] at ready
  have next := AsyncFifo.oReadData_next s waits (by decide) (AsyncFifo.write_keeps high) asks ready
  -- what is read stays until it is sampled
  obtain ⟨after, same⟩ := Domain.instant_succ (e := fun m => (input m).pixel = true) lt edge
  have seen : (sampled s₀ input N (pixels input (start + j) + 1)).iData =
      (states s₀ input (start + j + 1)).fifo.r.oReadData :=
    congrArg AsyncFifo.ReadSide.oReadData
      (read_held low (Nat.le_succ_of_le since) after (Domain.instant_le N _) same)
  rw [seen, Nat.add_assoc, fifo_frame fresh low (j := j + 1) lt,
    fetched_counts fresh low phase lt.le, ← accepted_frame fresh low phase yields lt.le]
  exact next

/-- The word of a request that finds one is the first that has not been read. -/
theorem word_requested {m : ℕ} (since : start ≤ m) (lt : m < N)
    (ask : Display.asks (pixels input m) = true)
    (filled : (sampled s₀ input N (pixels input m)).iEmpty = false)
    (late : pixels input m + 3 ≤ pixels input N) :
    (written input start N)[fetched (states s₀ input) input start m]? =
      some (sampled s₀ input N (pixels input m + 2)).iData := by
  have run := sampled_run s₀ input N
  have grown : pixels input start ≤ pixels input m := Nat.count_monotone _ since
  have soon : pixels input start ≤ pixels input m + 1 := Nat.le_succ_of_le grown
  have further : pixels input m + 1 < pixels input N := by omega
  obtain ⟨k, since', lt', edge, count⟩ := exists_edge input soon further
  have read : (states s₀ input k).display.oRead = true := by
    rw [display_cycles s₀ input lt'.le, count, cycles, Display.oRead_eq run, ask, filled]
    rfl
  have word := word_sampled fresh low phase yields since' lt' edge read
  -- no command falls in the cycle of the request
  have quiet : (cycles s₀ input N (pixels input m)).oRead = false := by
    have at_ := Display.asks_phase ask
    obtain ⟨t, next⟩ : ∃ t, pixels input m = t + 1 := ⟨pixels input m - 1, by omega⟩
    rw [next]
    exact Display.oRead_low run (by omega)
  have same : fetched (states s₀ input) input start k =
      fetched (states s₀ input) input start m := by
    obtain ⟨i, rfl⟩ := Nat.exists_eq_add_of_le since'
    obtain ⟨j, rfl⟩ := Nat.exists_eq_add_of_le since
    rw [fetched_reads lt'.le, fetched_reads lt.le, count, Display.reads, Nat.count_succ, quiet,
      ← Display.reads]
    simp
  rw [same, count] at word
  obtain ⟨there, -⟩ := List.getElem?_eq_some_iff.1 word
  rw [List.prefix_iff_getElem?.1 (written_mono input start lt'.le) _ there,
    ← List.getElem?_eq_getElem there, word]

/-- **The FIFO delivers what is written.** -/
theorem delivered (inTime : InTime (states s₀ input) input start N) :
    Display.Delivered (cycles s₀ input N) (sampled s₀ input N) (pixels input start)
      (pixels input N) fun i => (written input start N).getD i 0#32 where
  filled k since before asks := by
    obtain ⟨m, since', lt, edge, rfl⟩ := exists_edge input since before
    rw [← display_cycles s₀ input lt.le] at asks
    rw [sampled_edge s₀ input lt edge]
    exact filled fresh low phase yields inTime since' lt edge asks
  word k since before read := by
    obtain ⟨m, since', lt, edge, rfl⟩ := exists_edge input since before
    rw [← display_cycles s₀ input lt.le] at read
    have next := word_sampled fresh low phase yields since' lt edge read
    obtain ⟨there, word⟩ := List.getElem?_eq_some_iff.1 next
    have all := List.prefix_iff_getElem?.1 (written_mono input start lt.le) _ there
    obtain ⟨j, rfl⟩ := Nat.exists_eq_add_of_le since'
    rw [← fetched_reads lt.le, List.getD_eq_getElem?_getD, all, word]
    rfl

/-- No more is read than was written. -/
theorem fetched_le {m : ℕ} (since : start ≤ m) (le : m ≤ N) :
    fetched (states s₀ input) input start m ≤ (written input start m).length := by
  obtain ⟨j, rfl⟩ := Nat.exists_eq_add_of_le since
  have waits : AsyncFifo.ReaderWaits (frameEdges s₀ input start N) := readerWaits phase
  rw [fetched_counts fresh low phase le, ← accepted_frame fresh low phase yields le,
    AsyncFifo.accepted_length]
  exact (AsyncFifo.tracks_run (by decide) s waits j).1.read_le_written.1

/-- The word of a pixel has been written. -/
theorem word_written (inTime : InTime (states s₀ input) input start N) {t x y : ℕ} (hx : x < 640)
    (hy : y < 480) (col : t % 800 = 48 + x) (row : t / 800 % 525 = 33 + y)
    (began : pixels input start = 420000 * (t / 420000) + 130) (before : t + 1 < pixels input N) :
    80 * y + (x + 1) / 8 < (written input start N).length := by
  have words := delivered fresh low phase yields inTime
  rw [began] at words
  have count := Display.reads_eq (sampled_run s₀ input N) words.filled
    (v := 800 * (33 + y) + 47 + x) (by omega) (by omega) (by omega)
  have at_ : 420000 * (t / 420000) + (800 * (33 + y) + 47 + x) + 1 = t := by omega
  have number : Display.due (800 * (33 + y) + 47 + x) = 80 * y + (x + 1) / 8 + 1 := by
    have div : (800 * (33 + y) + 47 + x) / 800 = 33 + y := by omega
    have mod : (800 * (33 + y) + 47 + x) % 800 = 47 + x := by omega
    rw [Display.due, div, mod]
    split_ifs <;> omega
  have soon : pixels input start ≤ t := by omega
  have before : t < pixels input N := by omega
  obtain ⟨m, since, lt, -, here⟩ := exists_edge input soon before
  obtain ⟨j, rfl⟩ := Nat.exists_eq_add_of_le since
  have read : fetched (states s₀ input) input start (start + j) = Display.reads
    (cycles s₀ input N) (pixels input start) (pixels input (start + j)) := fetched_reads lt.le
  rw [here, began] at read
  rw [at_, ← cycles, ← read] at count
  have given := fetched_le fresh low phase yields (Nat.le_add_right _ _) lt.le
  have grown := (written_mono input start lt.le).length_le
  omega

end Reader

end Frame

/-! ## Pixels -/

section Pixel

variable {s₀ input} {start n : ℕ} (began : Began (states s₀ input) start n)
include began

/-- The instant in which `O_sync` fell. -/
theorem Began.instant : ∃ m, start = m + 1 ∧ (input m).pixel = true ∧
    (states s₀ input m).display.oSync = true ∧
    (states s₀ input start).fifo = AsyncFifo.reset (states s₀ input m).fifo := by
  obtain ⟨m, rfl, high⟩ := began.fell
  have low := began.low (m + 1) le_rfl began.le
  refine ⟨m, rfl, ?_, high, ?_⟩
  · by_contra edge
    rw [display_held s₀ input edge, high] at low
    cases low
  · rw [states, Clocked.run_succ, ← states, step]
    exact if_pos high

theorem Began.phase : pixels input start % 420000 = 130 := by
  obtain ⟨m, rfl, edge, high, -⟩ := began.instant
  have low := began.low (m + 1) le_rfl began.le
  rw [display_cycles s₀ input (Nat.le_succ m)] at high
  rw [display_cycles s₀ input le_rfl, pixels_edge input edge] at low
  have fall := (Display.falls_iff (s := s₀.display) (sampled_run s₀ input (m + 1)) _).1 ⟨high, low⟩
  rw [pixels_edge input edge]
  omega

/-- The fall, in cycles. -/
theorem Began.syncFell :
    Display.SyncFell (cycles s₀ input (n + 1)) (pixels input start) (pixels input (n + 1)) := by
  obtain ⟨m, same, here, high, -⟩ := began.instant
  have le := began.le
  have counted : pixels input start = pixels input m + 1 := by rw [same, pixels_edge input here]
  refine ⟨Nat.count_monotone _ (by omega), ⟨pixels input m, counted, ?_, ?_⟩, ?_⟩
  · rw [← display_cycles s₀ input (by omega), high]
  · rw [← display_cycles s₀ input (by omega), began.low start le_rfl le]
  · rintro k since before ⟨fell, -⟩
    obtain ⟨m', since', lt, -, rfl⟩ := exists_edge input since before
    rw [← display_cycles s₀ input lt.le, began.low m' since' (by omega)] at fell
    cases fell

/-- `O_sync` stays low behind a pixel. -/
theorem Began.low_succ (edge : (input n).pixel = true)
    (row : (states s₀ input n).display.ypos.toNat ≠ 0) (m : ℕ) (since : start ≤ m)
    (le : m ≤ n + 1) : (states s₀ input m).display.oSync = false := by
  rcases Nat.lt_or_eq_of_le le with before | rfl
  · exact began.low m since (Nat.le_of_lt_succ before)
  · rw [display_edge s₀ input edge, (Display.next_flags _ rfl).2.2.1, decide_eq_false_iff_not]
    exact fun top => row top.1

/-- **The words come to the screen.** Where the bus clock and the pixel clock have their edges plays
no part. In the frame that began at `start`, if the writer heeds `O_write_full` and each word is
written three edges of the pixel clock before the display looks for it, then the pixel of column `x`
and row `y` is drawn, its word is number `80 * y + (x + 1) / 8` of those that were written since,
and off the diagonal it has the colour of its nibble of that word. -/
theorem colour_written (yields : Yields (states s₀ input) input start (n + 1))
    (inTime : InTime (states s₀ input) input start (n + 1)) (edge : (input n).pixel = true)
    {x y : ℕ} (hx : x < 640) (hy : y < 480)
    (col : (states s₀ input n).display.xpos.toNat = 48 + x)
    (row : (states s₀ input n).display.ypos.toNat = 33 + y) :
    (states s₀ input (n + 1)).display.drawEnable = true ∧
      ∃ w, (written input start (n + 1))[80 * y + (x + 1) / 8]? = some w ∧
        (48 + x ≠ 33 + y → (states s₀ input (n + 1)).display.colour =
          Display.palette (Display.nibble w (x % 8))) := by
  have low := began.low_succ edge (by omega)
  have phase := began.phase
  obtain ⟨m, same, -, -, fresh⟩ := began.instant
  have run := sampled_run s₀ input (n + 1)
  have grown : pixels input start ≤ pixels input n := Nat.count_monotone _ began.le
  obtain ⟨t, count⟩ : ∃ t, pixels input n = t + 1 := ⟨pixels input n - 1, by omega⟩
  have last : pixels input (n + 1) = t + 2 := by rw [pixels_edge input edge, count]
  -- the position, one cycle before its copy
  obtain ⟨x', y'⟩ := Display.position_behind (s := s₀.display) run t
  rw [display_cycles s₀ input (Nat.le_succ n), count, cycles, x'] at col
  rw [display_cycles s₀ input (Nat.le_succ n), count, cycles, y'] at row
  have sync := began.syncFell
  have words := delivered fresh low phase yields inTime
  rw [last] at sync words
  have colour := Display.pixel_colour run hx hy col row sync words
  have drawn := Display.drawEnable_eq (s := s₀.display) run t
  rw [display_cycles s₀ input le_rfl, last]
  rw [(Display.position (s := s₀.display) run t).1] at col
  rw [(Display.position (s := s₀.display) run t).2] at row
  have number := (Display.syncFell_iff (s := s₀.display) run (by omega)).1 sync
  have there := word_written fresh low phase yields inTime hx hy col row number
    (by rw [last]; exact Nat.lt_succ_self _)
  refine ⟨drawn.trans (decide_eq_true (by omega)), _, List.getElem?_eq_getElem there, fun off => ?_⟩
  rw [← List.getD_eq_getElem _ 0#32 there]
  exact colour off

omit began in
/-- The colour of a pixel off the diagonal is that of its nibble of the word in `data`. -/
theorem colour_data (edge : (input n).pixel = true)
    (off : (states s₀ input n).display.xpos ≠ (states s₀ input n).display.ypos) :
    (states s₀ input (n + 1)).display.colour =
      Display.palette (Display.nibble (cycles s₀ input n (pixels input n)).data
        ((states s₀ input n).display.xpos.toNat % 8)) := by
  rw [display_edge s₀ input edge, (Display.next_flags _ rfl).2.2.2, Display.State.nextColour,
    if_neg off, ← display_cycles s₀ input le_rfl]
  rfl

/-- **What a late word does.** Where the display looks for a word, the words it has read are a
prefix of those written before the third edge before. If that is all of them, the eight pixels
behind are black, and the word that comes too late goes to the next place. Otherwise six of the
eight are of the first word that it has not read. -/
theorem colour_requested (yields : Yields (states s₀ input) input start n) {m' m : ℕ}
    (since : start ≤ m') (edge' : (input m').pixel = true) (asked : (input m).pixel = true)
    (third : pixels input m' + 3 = pixels input m)
    (ask : (states s₀ input m).display.requests = true) (edge : (input n).pixel = true)
    (after : pixels input m < pixels input n) (before : pixels input n ≤ pixels input m + 8)
    (off : (states s₀ input n).display.xpos ≠ (states s₀ input n).display.ypos) :
    (fetched (states s₀ input) input start m = (written input start m').length →
      (states s₀ input (n + 1)).display.colour = ⟨0, 0, 0⟩) ∧
    (fetched (states s₀ input) input start m ≠ (written input start m').length →
      pixels input m + 3 ≤ pixels input n →
        ∃ w, (written input start n)[fetched (states s₀ input) input start m]? = some w ∧
          (states s₀ input (n + 1)).display.colour =
            Display.palette (Display.nibble w ((states s₀ input n).display.xpos.toNat % 8))) := by
  have low := began.low
  have phase := began.phase
  obtain ⟨m₀, same, -, -, fresh⟩ := began.instant
  have run := sampled_run s₀ input n
  have lt : m < n := lt_of_pixels input after
  have before' : m' < m := lt_of_pixels input (by omega)
  have flag := oReadEmpty_third fresh low phase yields since lt edge' third
  have sees := sampled_edge s₀ input lt asked
  have ask' : Display.asks (pixels input m) = true := by
    rw [display_cycles s₀ input lt.le, cycles, Display.requests_eq run] at ask
    exact ask
  rw [colour_data edge off]
  constructor
  · intro none
    have black (k : ℕ) : Display.nibble 0#32 k = 0#4 := BitVec.extractLsb'_zero
    rw [cycles, Display.data_missed run ask' (by rw [sees]; exact flag.2 none) after before, black]
    rfl
  · intro some late
    have filled : (sampled s₀ input n (pixels input m)).iEmpty = false := by
      rw [sees, ← Bool.not_eq_true]
      exact fun empty => some (flag.1 empty)
    have word :=
      word_requested fresh low phase yields (since.trans before'.le) lt ask' filled late
    exact ⟨_, word, congrArg (fun w => Display.palette (Display.nibble w _))
      (Display.data_found run ask' filled late before)⟩

end Pixel

/-! ## Two words in a frame -/

/-- Both clocks in step, and two words in the frame. -/
def twoWords (m : ℕ) : Edges where
  write := if m = 200 then some ⟨true, 0x1#32, true⟩
    else if m = 201 then some ⟨true, 0x2#32, true⟩ else none
  pixel := true

def blank : State where
  display := Display.dark
  fifo :=
    { w := ⟨false, false, 0, 0, 0, 0, 0, false⟩
      r := ⟨0, false, 0, 0, 0, 0⟩
      mem := fun _ => 0 }

theorem pixels_twoWords (m : ℕ) : pixels twoWords m = m :=
  Nat.count_iff_forall.2 fun _ _ => rfl

theorem display_twoWords (m : ℕ) :
    (states blank twoWords m).display = cycles blank twoWords m m := by
  rw [display_cycles blank twoWords le_rfl, pixels_twoWords]

theorem twoWords_began {n : ℕ} (low : 130 ≤ n) (high : n < 26460) :
    Began (states blank twoWords) 130 n := by
  have sync (m : ℕ) (some : 2 ≤ m) : (states blank twoWords m).display.oSync =
      decide ((m - 2) / 800 % 525 = 0 ∧ (m - 2) % 800 < 128) := by
    obtain ⟨t, rfl⟩ := Nat.exists_eq_add_of_le' some
    rw [display_twoWords, cycles, Display.oSync_eq (sampled_run blank twoWords _),
      Nat.add_sub_cancel]
  refine ⟨low, ⟨129, rfl, by rw [sync 129 (by decide)]; rfl⟩, fun m since le => ?_⟩
  rw [sync m (by omega), decide_eq_false_iff_not]
  omega

/-- The write side waits for the first word. -/
theorem twoWords_waits {m : ℕ} (le : m ≤ 200) :
    (states blank twoWords m).fifo.w.oWriteFull = false ∧
      (states blank twoWords m).fifo.w.writeBin = 0#6 ∧
      (states blank twoWords m).fifo.w.writeReadPtr = 0#6 := by
  induction m with
  | zero => exact ⟨rfl, rfl, rfl⟩
  | succ m ih =>
    have none : (twoWords m).write = none :=
      (if_neg (by omega)).trans (if_neg (by omega))
    have kept : (AsyncFifo.step (states blank twoWords m).fifo
        ((states blank twoWords m).edges (twoWords m))).w = (states blank twoWords m).fifo.w := by
      rw [AsyncFifo.step, State.edges, none]
    rw [states, Clocked.run_succ, ← states]
    unfold step
    dsimp only
    generalize (if (twoWords m).pixel = true then _ else _ : Display.State) = display
    split_ifs
    · exact ⟨rfl, rfl, rfl⟩
    · exact ⟨rfl, rfl, rfl⟩
    · rw [kept]
      exact ih (Nat.le_of_succ_le le)

/-- It has room for the second. -/
theorem twoWords_room : (states blank twoWords 201).fifo.w.oWriteFull = false := by
  obtain ⟨-, bin, ptr⟩ := twoWords_waits (m := 200) le_rfl
  have began := (twoWords_began (n := 201) (by decide) (by decide)).low
  have next := fifo_step (m := 200) began (by decide) (by decide)
  have write : (twoWords 200).write = some ⟨true, 0x1#32, true⟩ := rfl
  rw [next, AsyncFifo.step, State.edges, write]
  dsimp only [AsyncFifo.WriteSide.next]
  rw [if_pos rfl, AsyncFifo.WriteSide.nbDataVal, bin, ptr]
  decide

theorem twoWords_yields (n : ℕ) : Yields (states blank twoWords) twoWords 130 n := by
  intro m _ _ i write _
  obtain rfl | rfl : m = 200 ∨ m = 201 := by
    by_contra other
    rw [not_or] at other
    rw [twoWords, if_neg other.1, if_neg other.2] at write
    cases write
  · exact (twoWords_waits le_rfl).1
  · exact twoWords_room

/-- The two requests so far. -/
theorem twoWords_asks {m : ℕ} (le : m < 26460) (ask : Display.asks m = true) :
    m = 26445 ∨ m = 26453 := by
  rw [Display.asks, decide_eq_true_iff] at ask
  omega

/-- The commands come one cycle behind. -/
theorem twoWords_commands {m : ℕ} (le : m < 26461) (since : 130 ≤ m)
    (read : (states blank twoWords m).display.oRead = true) : m = 26446 ∨ m = 26454 := by
  obtain ⟨k, rfl⟩ : ∃ k, m = k + 1 := ⟨m - 1, by omega⟩
  rw [display_twoWords, cycles, Display.oRead_eq (sampled_run blank twoWords _),
    Bool.and_eq_true] at read
  have := twoWords_asks (by omega) read.1
  omega

theorem twoWords_fetched : fetched (states blank twoWords) twoWords 130 26446 = 0 ∧
    fetched (states blank twoWords) twoWords 130 26453 ≤ 1 := by
  have first : fetched (states blank twoWords) twoWords 130 26446 = 0 := by
    refine Nat.count_of_forall_not fun m early read => ?_
    have := twoWords_commands (by omega) read.1 read.2.2
    omega
  refine ⟨first, fetched_one (a := 26446) (b := 6) first fun k few => ?_⟩
  rw [← Bool.not_eq_true]
  intro read
  have := twoWords_commands (by omega) (by omega) read
  omega

theorem twoWords_written : 2 ≤ (written twoWords 130 26442).length := by
  have some : 2 ≤ (written twoWords 130 202).length := by decide
  exact some.trans (written_mono twoWords 130 (by decide)).length_le

theorem twoWords_inTime : InTime (states blank twoWords) twoWords 130 26458 := by
  intro m' m since before _ _ third asked
  rw [pixels_twoWords, pixels_twoWords] at third
  rw [display_twoWords, cycles, Display.requests_eq (sampled_run blank twoWords _)] at asked
  have two := twoWords_written
  rcases twoWords_asks (by omega) asked with rfl | rfl
  · obtain rfl : m' = 26442 := by omega
    have none : fetched (states blank twoWords) twoWords 130 26445 ≤
        fetched (states blank twoWords) twoWords 130 26446 := Nat.count_monotone _ (by decide)
    rw [twoWords_fetched.1] at none
    omega
  · obtain rfl : m' = 26450 := by omega
    have one := twoWords_fetched.2
    have more := (written_mono twoWords 130 (show 26442 ≤ 26450 by decide)).length_le
    omega

theorem twoWords_position : (states blank twoWords 26457).display.xpos.toNat = 48 + 8 ∧
    (states blank twoWords 26457).display.ypos.toNat = 33 + 0 := by
  have run := sampled_run blank twoWords 26457
  obtain ⟨x, y⟩ := Display.position_behind (s := blank.display) run 26456
  obtain ⟨x', y'⟩ := Display.position (s := blank.display) run 26456
  rw [display_twoWords, cycles, x, y, x', y']
  decide

/-- A pixel of the second word. -/
theorem colour_written_second : (states blank twoWords 26458).display.drawEnable = true ∧
    ∃ w, (written twoWords 130 26458)[80 * 0 + (8 + 1) / 8]? = some w ∧
      (48 + 8 ≠ 33 + 0 → (states blank twoWords 26458).display.colour =
        Display.palette (Display.nibble w (8 % 8))) :=
  colour_written (twoWords_began (by decide) (by decide)) (twoWords_yields _) twoWords_inTime rfl
    (by decide) (by decide) twoWords_position.1 twoWords_position.2

/-- The request of the second word, and a pixel. -/
theorem colour_requested_second :
    ∃ w, (written twoWords 130 26457)[fetched (states blank twoWords) twoWords 130 26453]? =
      some w ∧ (states blank twoWords 26458).display.colour = Display.palette
        (Display.nibble w ((states blank twoWords 26457).display.xpos.toNat % 8)) := by
  have third : pixels twoWords 26450 + 3 = pixels twoWords 26453 := by
    rw [pixels_twoWords, pixels_twoWords]
  have ask : (states blank twoWords 26453).display.requests = true := by
    rw [display_twoWords, cycles, Display.requests_eq (sampled_run blank twoWords _)]
    decide
  have off : (states blank twoWords 26457).display.xpos ≠
      (states blank twoWords 26457).display.ypos := by
    intro same
    have equal := twoWords_position.1.symm.trans
      ((congrArg BitVec.toNat same).trans twoWords_position.2)
    exact absurd equal (by decide)
  have window : pixels twoWords 26453 + 3 ≤ pixels twoWords 26457 ∧
      pixels twoWords 26457 ≤ pixels twoWords 26453 + 8 := by
    rw [pixels_twoWords, pixels_twoWords]
    decide
  have left : fetched (states blank twoWords) twoWords 130 26453 ≠
      (written twoWords 130 26450).length := by
    have one := twoWords_fetched.2
    have two := twoWords_written
    have more := (written_mono twoWords 130 (show 26442 ≤ 26450 by decide)).length_le
    omega
  exact (colour_requested (twoWords_began (by decide) (by decide)) (twoWords_yields _) (by decide)
    rfl rfl third ask rfl (by omega) window.2 off).2 left window.1

end Teres.Rtl.Video
