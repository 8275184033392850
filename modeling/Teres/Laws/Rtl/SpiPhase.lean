import Teres.Laws.Rtl.SpiMaster
import Mathlib.Tactic.IntervalCases

/-!
# A byte over SPI with `CPHA = 1`

With `CPHA = 1` the master sets `O_mosi` at the leading edges and shifts at the trailing ones. Two
edges are made elsewhere. The first leading edge is that of `STATE_START`, which sets nothing, so
`O_mosi` stays what it was before the command and the top bit of the byte is shifted away unsent.
The last trailing edge copies `buf_in` before its own sample is in it, so the byte received is a
zero and the first seven samples (`Runs.rest_phase`, `Runs.taken_phase`). The byte is right both
ways exactly when `O_mosi` happens to be its top bit and nothing but zeros comes in (`phase_iff`).
-/

namespace Teres.Rtl.SpiMaster

open Teres.Clocked

variable {p : Params}

/-! ## What an edge carries -/

/-- An edge of `O_sck`, with `O_mosi` in front of it and behind it and `I_miso` in front of it. -/
structure Turn where
  leading : Bool
  before : Bool
  after : Bool
  miso : Bool
deriving DecidableEq

/-- The edge of `O_sck` that one clock edge makes, if any. -/
def turns (p : Params) (s : State) (i : In) : List Turn :=
  if (next p s i).oSck = s.oSck then []
  else [⟨s.oSck = p.cpol0, s.oMosi, (next p s i).oMosi, i.iMiso⟩]

/-- The edges of `O_sck`. -/
def turning (p : Params) (s : ℕ → State) (i : ℕ → In) (k : ℕ) : List Turn := turns p (s k) (i k)

/-- `O_mosi` behind the leading edges. -/
def driven (log : List Turn) : List Bool := (log.filter (·.leading)).map (·.after)

/-- `O_mosi` in front of the trailing edges. -/
def held (log : List Turn) : List Bool := (log.filter (!·.leading)).map (·.before)

/-- `I_miso` at the trailing edges. -/
def samples (log : List Turn) : List Bool := (log.filter (!·.leading)).map (·.miso)

/-- From the command at edge `n` to edge `m`, where the data are ready: the master is busy, and the
log is that of eight leading and eight trailing edges. -/
structure Ends (p : Params) (s : ℕ → State) (i : ℕ → In) (n m : ℕ) (log : List Turn) : Prop where
  later : n < m
  busy : ∀ k, n < k → k ≤ m → (s k).oBusyWrite = true
  edges : ledger (turning p s i) m = ledger (turning p s i) n ++ log
  kinds : log.map Turn.leading = (List.replicate 8 [true, false]).flatten
  waits : ∀ k, n < k → k < m → (s k).oDataReady = false
  ready : (s m).oDataReady = true

/-- **A byte with `CPHA = 1`**: the leading edges drive the bits of `b`, the trailing edges hold
them, and the byte received is what came in at the trailing edges. -/
structure Phase (b r : BitVec 8) (log : List Turn) : Prop where
  drives : driven log = top 8 b
  holds : held log = top 8 b
  keeps : ∀ t ∈ log, t.leading = false → t.after = t.before
  collects : top 8 r = samples log

theorem turns_level {s : State} {i : In} (same : (next p s i).oSck = s.oSck) :
    turns p s i = [] := if_pos same

theorem turns_edge {s : State} {i : In} (turned : (next p s i).oSck = !s.oSck) :
    turns p s i = [⟨s.oSck = p.cpol0, s.oMosi, (next p s i).oMosi, i.iMiso⟩] := by
  refine if_neg ?_
  rw [turned]
  cases s.oSck <;> exact nofun

/-- A wait without edges in the one account is one in the other. -/
theorem turning_span {s : ℕ → State} {i : ℕ → In} {P : ℕ → Prop} {n m : ℕ}
    (span : Span (sck p s i) P n m []) : Span (turning p s i) P n m [] := by
  refine span.image (f := fun _ => []) (fun _ _ => rfl) (fun k above below => ?_) span.during
  have none := span.quiet above below
  unfold turning turns
  unfold sck toggles at none
  split_ifs at none ⊢ with same
  rfl

/-! ## What the edges of a byte carry -/

/-- A log from a trailing edge on, by the bits that its leading edges set, with `x` on `O_mosi`. -/
structure Trails (log : List Turn) (kinds : List Bool) (x : Bool) (set misos : List Bool) :
    Prop where
  kinds : log.map Turn.leading = kinds
  driven : driven log = set
  held : held log = x :: set
  keeps : ∀ t ∈ log, t.leading = false → t.after = t.before
  samples : samples log = misos

/-- A last trailing edge. -/
theorem Trails.last (x miso : Bool) : Trails [⟨false, x, x, miso⟩] [false] x [] [miso] where
  kinds := rfl
  driven := rfl
  held := rfl
  keeps t mem _ := by
    rw [List.mem_singleton.mp mem]
  samples := rfl

/-- A trailing edge and a leading one that sets `y`. -/
theorem Trails.pair {log : List Turn} {kinds set misos : List Bool} {x y miso miso' : Bool}
    (h : Trails log kinds y set misos) :
    Trails (⟨false, x, x, miso⟩ :: ⟨true, x, y, miso'⟩ :: log) (false :: true :: kinds) x
      (y :: set) (miso :: misos) where
  kinds := congrArg (false :: true :: ·) h.kinds
  driven := congrArg (y :: ·) h.driven
  held := congrArg (x :: ·) h.held
  keeps t mem trails := by
    rcases List.mem_cons.mp mem with rfl | mem
    · rfl
    · rcases List.mem_cons.mp mem with rfl | mem
      · simp at trails
      · exact h.keeps t mem trails
  samples := congrArg (miso :: ·) h.samples

namespace Runs

variable {n₀ n : ℕ} {s : ℕ → State} {i : ℕ → In}

/-- The edge behind a wait. -/
theorem turned (h : Runs p n₀ s i) (le : n₀ ≤ n) (state : (s n).state = .write) :
    ∃ m, Busy s m ∧ Span (turning p s i) (Busy s) n (m + 1)
        [⟨!(s n).step.getLsbD 0, (s n).oMosi, (s (m + 1)).oMosi, (i m).iMiso⟩] ∧
      s m = { s n with counter := 0#32, oDataReady := (s m).oDataReady } ∧
      s (m + 1) = ((s m).read (i m)).write p (i m) := by
  obtain ⟨m, busy, span, eq, next, turns, leads⟩ := h.turn le state
  have same := h.next m (le.trans span.le)
  have edge : turning p s i m =
      [⟨!(s n).step.getLsbD 0, (s n).oMosi, (s (m + 1)).oMosi, (i m).iMiso⟩] := by
    refine (turns_edge (by rw [← same, turns])).trans ?_
    rw [leads, ← same, eq]
  exact ⟨m, busy, edge ▸ (turning_span span).snoc busy, eq, next⟩

/-- **A trailing edge** shifts, and leaves `O_mosi`. -/
theorem trailing_phase (h : Runs p n₀ s i) (cpha : p.cpha = 1) (le : n₀ ≤ n)
    (state : (s n).state = .write) {l : ℕ} (step : (s n).step.toNat + 2 * (l + 1) = 15) :
    ∃ m miso, Span (turning p s i) (Busy s) n m [⟨false, (s n).oMosi, (s n).oMosi, miso⟩] ∧
      (s m).state = .write ∧ (s m).step.toNat + 2 * (l + 1) = 16 ∧ (s m).oMosi = (s n).oMosi ∧
      (s m).bufOut = shiftIn (s n).bufOut false ∧ (s m).bufIn = shiftIn (s n).bufIn miso := by
  obtain ⟨m, _, span, eq, next⟩ := h.turned le state
  have odd : (s n).step.getLsbD 0 = true := by
    rw [getLsbD_zero, decide_eq_true_iff]
    omega
  have phase : p.cpha0 = (s n).step.getLsbD 0 := by
    rw [odd, Params.cpha0, cpha]
    rfl
  have inner : (s n).step ≠ 15#5 := fun last => by
    rw [last] at step
    exact absurd step (by change 15 + 2 * (l + 1) ≠ 15; omega)
  rw [write_shift (by rw [eq]; rfl) (by rw [eq]; exact phase) (by rw [eq]; exact inner)] at next
  have mosi : (s (m + 1)).oMosi = (s n).oMosi := by
    rw [next, eq]
    rfl
  rw [odd, Bool.not_true, mosi] at span
  refine ⟨m + 1, (i m).iMiso, span, ?_⟩
  rw [next, eq]
  refine ⟨state, ?_, rfl, rfl, rfl⟩
  change ((s n).step + 1#5).toNat + _ = _
  rw [step_succ (by omega)]
  omega

/-- **A leading edge** sets the top bit of `buf_out`. -/
theorem leading_phase (h : Runs p n₀ s i) (cpha : p.cpha = 1) (le : n₀ ≤ n)
    (state : (s n).state = .write) {l : ℕ} (step : (s n).step.toNat + 2 * (l + 1) = 16) :
    ∃ m miso, Span (turning p s i) (Busy s) n m
        [⟨true, (s n).oMosi, (s n).bufOut.getMsbD 0, miso⟩] ∧
      (s m).state = .write ∧ (s m).step.toNat + 2 * l = 15 ∧
      (s m).oMosi = (s n).bufOut.getMsbD 0 ∧ (s m).bufOut = (s n).bufOut ∧
      (s m).bufIn = (s n).bufIn := by
  obtain ⟨m, _, span, eq, next⟩ := h.turned le state
  have even : (s n).step.getLsbD 0 = false := by
    rw [getLsbD_zero, decide_eq_false_iff_not]
    omega
  have phase : p.cpha0 ≠ (s n).step.getLsbD 0 := by
    rw [even, Params.cpha0, cpha]
    decide
  have inner : (s n).step ≠ 15#5 := fun last => by
    rw [last] at even
    cases even
  rw [write_set (by rw [eq]; rfl) (by rw [eq]; exact phase) (by rw [eq]; exact inner)] at next
  have mosi : (s (m + 1)).oMosi = (s n).bufOut.getMsbD 0 := by
    rw [next, eq]
    rfl
  rw [even, Bool.not_false, mosi] at span
  refine ⟨m + 1, (i m).iMiso, span, ?_⟩
  rw [next, eq]
  refine ⟨state, ?_, rfl, rfl, rfl⟩
  change ((s n).step + 1#5).toNat + _ = _
  rw [step_succ (by omega)]
  omega

/-- **The last trailing edge** gives what came in before it. -/
theorem last_phase (h : Runs p n₀ s i) (cpha : p.cpha = 1) (le : n₀ ≤ n)
    (state : (s n).state = .write) (step : (s n).step.toNat = 15) :
    ∃ m miso, Span (turning p s i) (Busy s) n m [⟨false, (s n).oMosi, (s n).oMosi, miso⟩] ∧
      Done (s n).bufIn (s m) := by
  obtain ⟨m, busy, span, eq, next⟩ := h.turned le state
  have ended : (s n).step = 15#5 := BitVec.eq_of_toNat_eq step
  have zero : ((s m).read (i m)).counter = 0#32 := by rw [eq]; rfl
  have fifteen : ((s m).read (i m)).step = 15#5 := by rw [eq]; exact ended
  have phase : p.cpha0 = ((s m).read (i m)).step.getLsbD 0 := by
    rw [fifteen, Params.cpha0, cpha]
    rfl
  have mosi : (s (m + 1)).oMosi = (s n).oMosi := by
    rw [next, State.write, if_pos zero]
    simp only [if_pos phase, if_pos fifteen]
    rw [eq]
    rfl
  obtain ⟨ready, dataIn⟩ := write_last (p := p) (i := i m) zero fifteen
  rw [ended, mosi] at span
  refine ⟨m + 1, (i m).iMiso, span, ?_⟩
  rw [next]
  exact ⟨(write_state _ _).trans (if_pos ⟨zero, fifteen⟩), (write_busy _ _).trans busy, ready,
    dataIn.trans (by rw [eq]; rfl)⟩

/-- **The rest of a byte**, from a trailing edge on: the bit on `O_mosi` is held, the top bit of
`buf_out` is shifted away, and the last sample comes too late. -/
theorem rest_phase (h : Runs p n₀ s i) (cpha : p.cpha = 1) (le : n₀ ≤ n)
    (state : (s n).state = .write) {l : ℕ} (step : (s n).step.toNat + 2 * l = 15) :
    ∃ m misos late log, misos.length = l ∧ Span (turning p s i) (Busy s) n m log ∧
      Trails log ((List.replicate l [false, true]).flatten ++ [false]) (s n).oMosi
        (top l (shiftIn (s n).bufOut false)) (misos ++ [late]) ∧
      Done (misos.foldl shiftIn (s n).bufIn) (s m) := by
  induction l generalizing n with
  | zero =>
    obtain ⟨m, late, span, done⟩ := h.last_phase cpha le state step
    exact ⟨m, [], late, _, rfl, span, .last _ _, done⟩
  | succ l ih =>
    obtain ⟨m₁, miso, span₁, state₁, step₁, mosi₁, out₁, in₁⟩ :=
      h.trailing_phase cpha le state step
    have le₁ := le.trans span₁.le
    obtain ⟨m₂, miso₂, span₂, state₂, step₂, mosi₂, out₂, in₂⟩ :=
      h.leading_phase cpha le₁ state₁ step₁
    obtain ⟨m, misos, late, log, length, span, trails, done⟩ :=
      ih (le₁.trans span₂.le) state₂ step₂
    rw [mosi₁] at span₂
    rw [mosi₂, out₂, out₁] at trails
    rw [out₁] at span₂
    rw [in₂, in₁] at done
    refine ⟨m, miso :: misos, late, _, congrArg (· + 1) length, (span₁.trans span₂).trans span, ?_,
      done⟩
    rw [top_succ _ false (by omega)]
    exact trails.pair

/-- What the first edge of a byte leaves, with the bit `x` on `O_mosi`. -/
structure Begun (b : BitVec 8) (x : Bool) (s : State) : Prop where
  state : s.state = .write
  step : s.step.toNat = 1
  mosi : s.oMosi = x
  bufOut : s.bufOut = b
  bufIn : s.bufIn = 0#8

/-- **The first leading edge** leaves `O_mosi` as it was before the command. -/
theorem begin_phase (h : Runs p n₀ s i) (cpha : p.cpha = 1) (le : n₀ ≤ n)
    (free : (s n).oBusyWrite = false) (command : (i n).iCmdWrite = true) :
    turning p s i n = [] ∧ Busy s (n + 1) ∧ (s (n + 1)).oDataReady = false ∧
      turning p s i (n + 1) = [⟨true, (s n).oMosi, (s n).oMosi, (i (n + 1)).iMiso⟩] ∧
      Begun (i n).iDataOut (s n).oMosi (s (n + 2)) := by
  have state : (s n).state = .idle := by
    by_contra under
    rw [(h.sound_at le).busy under] at free
    cases free
  have le₁ := Nat.le_succ_of_le le
  have next : s (n + 1) = ((s n).read (i n)).idle p (i n) := by
    rw [h.next n le, next_eq (h.rst n le), state]
  have write : ((i n).iCmdWrite && !((s n).read (i n)).oBusyWrite) = true := by
    change ((i n).iCmdWrite && !(s n).oBusyWrite) = true
    rw [command, free]
    rfl
  have other : p.cpha ≠ 0 := by rw [cpha]; decide
  unfold State.idle at next
  rw [if_pos write, if_neg other] at next
  have resting := (h.sound_at le).level (state ▸ nofun)
  have state₁ : (s (n + 1)).state = .start := by rw [next]
  have next₂ : s (n + 2) = ((s (n + 1)).read (i (n + 1))).start p (i (n + 1)) := by
    rw [h.next _ le₁, next_eq (h.rst _ le₁), state₁]
  unfold State.start at next₂
  rw [if_neg other] at next₂
  have resting₁ := (h.sound_at le₁).level (state₁ ▸ nofun)
  have mosi₁ : (s (n + 1)).oMosi = (s n).oMosi := by rw [next]; rfl
  have mosi₂ : (s (n + 2)).oMosi = (s n).oMosi := by rw [next₂]; exact mosi₁
  refine ⟨turns_level ?_, (h.sound_at le₁).busy (state₁ ▸ nofun), by rw [next], ?_, ?_⟩
  · rw [← h.next n le, next, resting]
  · refine (turns_edge ?_).trans ?_
    · rw [← h.next _ le₁, next₂, resting₁]
    · rw [decide_eq_true resting₁, ← h.next _ le₁, mosi₁, mosi₂]
  · exact ⟨by rw [next₂], by rw [next₂]; rfl, mosi₂, by rw [next₂, State.read, next],
      by rw [next₂, State.read, next]⟩

/-- **A command taken** by a free master: what its sixteen edges carry. -/
theorem taken_phase (h : Runs p n₀ s i) (cpha : p.cpha = 1) (le : n₀ ≤ n)
    (free : (s n).oBusyWrite = false) (command : (i n).iCmdWrite = true) :
    ∃ m misos late log, misos.length = 7 ∧ Ends p s i n m log ∧
      driven log = (s n).oMosi :: top 7 (shiftIn (i n).iDataOut false) ∧
      held log = (s n).oMosi :: top 7 (shiftIn (i n).iDataOut false) ∧
      (∀ t ∈ log, t.leading = false → t.after = t.before) ∧
      samples log = misos ++ [late] ∧ (s m).oDataIn = misos.foldl shiftIn 0#8 := by
  obtain ⟨still, busy₁, low, first, begun⟩ := h.begin_phase cpha le free command
  have le₁ := Nat.le_succ_of_le le
  obtain ⟨m, misos, late, log, length, span, trails, done⟩ :=
    h.rest_phase cpha (Nat.le_succ_of_le le₁) begun.state (l := 7) (by rw [begun.step])
  rw [begun.mosi, begun.bufOut] at trails
  rw [begun.bufIn] at done
  have joined := span.cons busy₁
  rw [first] at joined
  have busy : ∀ k, n + 1 ≤ k → k ≤ m → (s k).oBusyWrite = true := by
    intro k above below
    rcases Nat.lt_or_eq_of_le below with inner | rfl
    · exact joined.during k above inner
    · exact done.busy
  refine ⟨m, misos, late, ⟨true, (s n).oMosi, (s n).oMosi, (i (n + 1)).iMiso⟩ :: log, length,
    ⟨joined.le, busy, ?_, congrArg (true :: ·) trails.kinds, h.waits le₁ low busy,
      done.dataReady⟩,
    congrArg ((s n).oMosi :: ·) trails.driven, trails.held, ?_, trails.samples, done.dataIn⟩
  · rw [joined.seen, ledger_succ, still, List.append_nil]
    rfl
  · intro t mem trailing
    rcases List.mem_cons.mp mem with rfl | mem
    · simp at trailing
    · exact trails.keeps t mem trailing

end Runs

/-! ## The byte -/

/-- A list of bits that is its own shift by a zero has no other bits. -/
theorem shifted_eq (l : List Bool) (x : Bool) :
    false :: l = l ++ [x] ↔ ∀ y ∈ l ++ [x], y = false := by
  induction l with
  | nil => simp [eq_comm]
  | cons y l ih =>
    rw [List.cons_append, List.cons.injEq, List.forall_mem_cons]
    constructor
    · rintro ⟨rfl, same⟩
      exact ⟨rfl, ih.mp same⟩
    · rintro ⟨rfl, none⟩
      exact ⟨rfl, ih.mpr none⟩

/-- Seven bits shifted in stand behind a zero. -/
theorem top_seven {misos : List Bool} (length : misos.length = 7) :
    top 8 (misos.foldl shiftIn 0#8) = false :: misos := by
  have zero : shiftIn 0#8 false = 0#8 := by decide
  have eight : (false :: misos).length = 8 := congrArg (· + 1) length
  have folded : (false :: misos).foldl shiftIn 0#8 = misos.foldl shiftIn 0#8 := by
    rw [List.foldl_cons, zero]
  rw [← folded, top_foldl eight]

/-- **When a byte with `CPHA = 1` is right.** After a reset, for every clock polarity, frequency and
speed, a command in a cycle with `O_busy_write` low is taken and makes its sixteen edges. They carry
its byte, and the byte received is what came in at the trailing edges, exactly when `O_mosi` stood
at the byte's top bit before the command and `I_miso` is low at every trailing edge. -/
theorem phase_iff {p : Params} (cpha : p.cpha = 1) (s : State) (input : ℕ → In) {r n : ℕ}
    (later : r < n) (reset : (input r).iRstN = false)
    (goes : ∀ k, n ≤ k → (input k).iRstN = true)
    (free : (states p s input n).oBusyWrite = false) (command : (input n).iCmdWrite = true) :
    ∃ m log, Ends p (states p s input) input n m log ∧
      (Phase (input n).iDataOut (states p s input m).oDataIn log ↔
        (states p s input n).oMosi = (input n).iDataOut.getMsbD 0 ∧
          ∀ x ∈ samples log, x = false) := by
  have h : Runs p n (states p s input) input := states_runs later reset goes
  obtain ⟨m, misos, late, log, length, ends, drives, holds, keeps, sampled, dataIn⟩ :=
    h.taken_phase cpha (Nat.le_refl n) free command
  have bits := top_succ (input n).iDataOut false (l := 7) (by decide)
  refine ⟨m, log, ends, ?_⟩
  constructor
  · intro phase
    have first := phase.drives
    have received := phase.collects
    rw [drives, bits] at first
    rw [dataIn, top_seven length, sampled, shifted_eq, ← sampled] at received
    exact ⟨(List.cons.inj first).1, received⟩
  · rintro ⟨first, none⟩
    rw [sampled, ← shifted_eq, ← sampled, ← top_seven length, ← dataIn] at none
    exact ⟨by rw [drives, bits, first], by rw [holds, bits, first], keeps, none⟩

/-- A sample is `I_miso` in the cycle of its edge. -/
theorem samples_input {s : ℕ → State} {i : ℕ → In} {n m : ℕ} {log : List Turn}
    (ends : Ends p s i n m log) : ∀ x ∈ samples log, ∃ k, x = (i k).iMiso := by
  intro x mem
  simp only [samples, List.mem_map, List.mem_filter] at mem
  obtain ⟨t, ⟨inside, -⟩, rfl⟩ := mem
  have seen : t ∈ ledger (turning p s i) m := by
    rw [ends.edges]
    exact List.mem_append_right _ inside
  obtain ⟨k, -, edge⟩ := mem_ledger.mp seen
  unfold turning turns at edge
  split_ifs at edge
  · exact absurd edge List.not_mem_nil
  · rw [List.mem_singleton.mp edge]
    exact ⟨k, rfl⟩

/-- A reset, and a command in every cycle behind it, with the given byte to send and the given level
of `I_miso`, at the highest speed. -/
def fastCommands (b : BitVec 8) (miso : Bool) (n : ℕ) : In := ⟨n ≠ 0, miso, false, true, 15#4, b⟩

/-- Registers before the reset. -/
def cold : State := ⟨true, true, 0#8, false, false, 0#8, 0#8, 0#32, 0#32, .idle, 0#5⟩

/-- A byte with a high top bit, while zeros come in, is right after a reset. -/
theorem phase_iff_high : ∃ m log,
    Ends ⟨48000000, 1, 0⟩ (states ⟨48000000, 1, 0⟩ cold (fastCommands 0xA5#8 false))
      (fastCommands 0xA5#8 false) 2 m log ∧
    Phase 0xA5#8 (states ⟨48000000, 1, 0⟩ cold (fastCommands 0xA5#8 false) m).oDataIn log := by
  obtain ⟨m, log, ends, right⟩ := phase_iff (p := ⟨48000000, 1, 0⟩) rfl cold
    (fastCommands 0xA5#8 false) (r := 0) (n := 2) (by decide) rfl
    (fun k le => decide_eq_true (by omega)) (by decide) rfl
  refine ⟨m, log, ends, right.mpr ⟨by decide, ?_⟩⟩
  intro x mem
  obtain ⟨k, rfl⟩ := samples_input ends x mem
  rfl

/-- **A byte of zeros** behind a reset, while ones come in: the first leading edge leaves `O_mosi`
high, and the byte received is `0x7f`. -/
theorem zeros_wrong : ∃ m log,
    Ends ⟨48000000, 1, 0⟩ (states ⟨48000000, 1, 0⟩ cold (fastCommands 0#8 true))
      (fastCommands 0#8 true) 2 m log ∧
    driven log = [true, false, false, false, false, false, false, false] ∧
    samples log = List.replicate 8 true ∧
    (states ⟨48000000, 1, 0⟩ cold (fastCommands 0#8 true) m).oDataIn = 0x7f#8 ∧
    ¬ Phase 0#8 (states ⟨48000000, 1, 0⟩ cold (fastCommands 0#8 true) m).oDataIn log := by
  let log : List Turn := ⟨true, true, true, true⟩ :: ⟨false, true, true, true⟩ ::
    ⟨true, true, false, true⟩ :: ⟨false, false, false, true⟩ ::
      (List.replicate 6 [⟨true, false, false, true⟩, ⟨false, false, false, true⟩]).flatten
  refine ⟨19, log, ⟨by decide, ?_, by decide, by decide, ?_, by decide⟩, by decide, by decide,
    by decide, ?_⟩
  · intro k above below
    interval_cases k <;> decide
  · intro k above below
    interval_cases k <;> decide
  · intro phase
    exact absurd phase.drives (by decide)

end Teres.Rtl.SpiMaster
