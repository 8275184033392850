import Teres.Rtl.Display

/-!
# The timing of the frame generator

After a reset the position at cycle `t` is `(t % 800, t / 800 % 525)` whatever is read
(`position`), and the flags follow at their own distances behind it. A frame is 420000 cycles, and
`O_sync` falls once in it, at its cycle 130 (`falls_iff`).

A read takes three cycles: it is requested at a position that is five modulo eight, the queue sees
it in the next cycle, and its word is in `data` at the end of the third (`data_next`). The three
never overlap, because the phases modulo eight differ, so each register of the pipeline is a
function of the cycle alone.
-/

namespace Teres.Rtl.Display

variable {s : State} {input : ℕ → In}

/-! ## One edge -/

theorem states_succ (s : State) (input : ℕ → In) (t : ℕ) :
    states s input (t + 1) = next (states s input t) (input t) := rfl

theorem next_run (s : State) {i : In} (run : i.iRstN = true) :
    (next s i).xposNext = (if s.xposNext = 799#10 then 0#10 else s.xposNext + 1#10) ∧
      (next s i).yposNext = (if s.xposNext = 799#10 then
        if s.yposNext = 524#10 then 0#10 else s.yposNext + 1#10 else s.yposNext) ∧
      (next s i).xpos = s.xposNext ∧ (next s i).ypos = s.yposNext := by
  simp [next, run]

theorem next_flags (s : State) {i : In} (run : i.iRstN = true) :
    (next s i).drawEnable = s.drawEnableNext ∧
      (next s i).drawEnableNext = decide (s.xposNext.toNat < 48 + 640 ∧
        s.yposNext.toNat < 33 + 480 ∧ 48 ≤ s.xposNext.toNat ∧ 33 ≤ s.yposNext.toNat) ∧
      (next s i).oSync = decide (s.ypos.toNat = 0 ∧ s.xpos.toNat < 128) ∧
      (next s i).colour = s.nextColour := by
  simp [next, run]

/-- A request that finds the queue filled is seen by the queue in the next cycle. -/
theorem next_oRead (s : State) {i : In} (run : i.iRstN = true) :
    (next s i).oRead = (s.requests && !i.iEmpty) := by
  simp [next, run]

/-- Away from a request, the word is awaited when the queue has seen the request. -/
theorem next_reading (s : State) {i : In} (run : i.iRstN = true) :
    (next s i).reading = if s.requests then s.reading else s.oRead := by
  simp only [next, run, Bool.not_true, Bool.false_eq_true, ↓reduceIte]
  cases s.requests <;> cases s.oRead <;> cases s.reading <;> rfl

/-- The word is taken where it is awaited, if neither another request nor a read is under way. -/
theorem next_data (s : State) {i : In} (run : i.iRstN = true)
    (filled : s.requests = true → i.iEmpty = false) :
    (next s i).data = if s.reading && !s.requests && !s.oRead then i.iData else s.data := by
  simp only [next, run, Bool.not_true, Bool.false_eq_true, ↓reduceIte]
  cases h : s.requests with
  | true => simp [filled h]
  | false => cases s.oRead <;> cases s.reading <;> rfl

/-! ## Every cycle of a run -/

section Run

variable (run : ∀ t, (input t).iRstN = true)
include run

/-- **The position.** -/
theorem position (t : ℕ) : (states s input t).xposNext.toNat = t % 800 ∧
    (states s input t).yposNext.toNat = t / 800 % 525 := by
  induction t with
  | zero => exact ⟨rfl, rfl⟩
  | succ t ih =>
    obtain ⟨x, y, _, _⟩ := next_run (states s input t) (run t)
    rw [states, Clocked.run_succ, ← states, x, y]
    have last : (states s input t).xposNext = 799#10 ↔ t % 800 = 799 := by
      rw [← BitVec.toNat_inj, ih.1]; rfl
    have bottom : (states s input t).yposNext = 524#10 ↔ t / 800 % 525 = 524 := by
      rw [← BitVec.toNat_inj, ih.2]; rfl
    simp only [last, bottom]
    split_ifs with h₁ h₂
    · exact ⟨by rw [BitVec.toNat_ofNat]; omega, by rw [BitVec.toNat_ofNat]; omega⟩
    · exact ⟨by rw [BitVec.toNat_ofNat]; omega,
        by rw [BitVec.toNat_add, ih.2, BitVec.toNat_ofNat]; omega⟩
    · exact ⟨by rw [BitVec.toNat_add, ih.1, BitVec.toNat_ofNat]; omega, by rw [ih.2]; omega⟩

/-- The copy of the position is one cycle behind. -/
theorem position_behind (t : ℕ) :
    (states s input (t + 1)).xpos = (states s input t).xposNext ∧
      (states s input (t + 1)).ypos = (states s input t).yposNext :=
  (next_run (states s input t) (run t)).2.2

/-- `draw_enable` is two cycles behind the position. -/
theorem drawEnable_eq (t : ℕ) : (states s input (t + 2)).drawEnable =
    decide (t % 800 < 48 + 640 ∧ t / 800 % 525 < 33 + 480 ∧ 48 ≤ t % 800 ∧ 33 ≤ t / 800 % 525) := by
  obtain ⟨x, y⟩ := position (s := s) run t
  have here := (next_flags (states s input t) (run t)).2.1
  rw [x, y] at here
  rw [← here]
  exact (next_flags (states s input (t + 1)) (run (t + 1))).1

/-- `O_sync` is two cycles behind the position. -/
theorem oSync_eq (t : ℕ) : (states s input (t + 2)).oSync =
    decide (t / 800 % 525 = 0 ∧ t % 800 < 128) := by
  obtain ⟨x, y⟩ := position (s := s) run t
  obtain ⟨x', y'⟩ := position_behind (s := s) run t
  rw [← x, ← y, ← x', ← y']
  exact (next_flags (states s input (t + 1)) (run (t + 1))).2.2.1

/-- The colour is two cycles behind the position, and one behind the word. -/
theorem colour_eq (t : ℕ) (off : t % 800 ≠ t / 800 % 525) :
    (states s input (t + 2)).colour =
      palette (nibble (states s input (t + 1)).data (t % 800 % 8)) := by
  obtain ⟨x, y⟩ := position (s := s) run t
  obtain ⟨x', y'⟩ := position_behind (s := s) run t
  have apart : (states s input (t + 1)).xpos ≠ (states s input (t + 1)).ypos := fun h => by
    rw [x', y'] at h
    exact off (by rw [← x, ← y, h])
  have here := (next_flags (states s input (t + 1)) (run (t + 1))).2.2.2
  refine here.trans ?_
  rw [State.nextColour, if_neg apart, State.pixel, x', x]

end Run

/-! ## The fall of `O_sync` -/

/-- `O_sync` last fell before cycle `t` at cycle `f`. -/
structure SyncFell (states : ℕ → State) (f t : ℕ) : Prop where
  before : f ≤ t
  fell : ∃ k, f = k + 1 ∧ (states k).oSync = true ∧ (states f).oSync = false
  last : ∀ k, f ≤ k → k < t → ¬ ((states k).oSync = true ∧ (states (k + 1)).oSync = false)

section Run

variable (run : ∀ t, (input t).iRstN = true)
include run

/-- `O_sync` falls at cycle 130 of a frame and nowhere else. -/
theorem falls_iff (k : ℕ) : ((states s input k).oSync = true ∧
    (states s input (k + 1)).oSync = false) ↔ k % 420000 = 129 := by
  rcases k with _ | _ | k
  · exact ⟨fun h => absurd h.1 Bool.false_ne_true, fun h => absurd h (by decide)⟩
  · rw [oSync_eq run 0]
    exact ⟨fun h => absurd h.2.symm Bool.false_ne_true, fun h => absurd h (by decide)⟩
  · rw [oSync_eq run k, oSync_eq run (k + 1), decide_eq_true_iff, decide_eq_false_iff_not]
    omega

/-- From cycle 128 of a frame on, the last fall is its own. -/
theorem syncFell_iff {f t : ℕ} (late : 128 ≤ t % 420000) :
    SyncFell (states s input) f (t + 2) ↔ f = 420000 * (t / 420000) + 130 := by
  constructor
  · rintro ⟨before, ⟨k, rfl, fell⟩, last⟩
    have here := (falls_iff run k).mp fell
    have own : ¬ k + 1 ≤ 420000 * (t / 420000) + 129 := fun earlier =>
      last _ earlier (by omega) ((falls_iff run _).mpr (by omega))
    omega
  · rintro rfl
    refine ⟨by omega, ⟨_, rfl, (falls_iff run _).mpr (by omega)⟩, fun k _ _ fell => ?_⟩
    have here := (falls_iff run k).mp fell
    omega

end Run

/-! ## Reads -/

/-- The positions of a request, by the cycle. -/
def asks (t : ℕ) : Bool :=
  decide (t % 8 = 5 ∧ 33 ≤ t / 800 % 525 ∧ t / 800 % 525 < 33 + 480 ∧
    (48 < t % 800 ∧ t % 800 ≤ 48 + 640 ∨
      t / 800 % 525 = 33 ∧ 48 - 8 < t % 800 ∧ t % 800 < 48))

theorem asks_phase {t : ℕ} (h : asks t = true) : t % 8 = 5 := (of_decide_eq_true h).1

section Run

variable (run : ∀ t, (input t).iRstN = true)
include run

theorem requests_eq (t : ℕ) : (states s input t).requests = asks t := by
  obtain ⟨x, y⟩ := position (s := s) run t
  rw [State.requests, x, y, asks, Bool.eq_iff_iff]
  cases t with
  | zero => simp
  | succ t =>
    obtain ⟨x', y'⟩ := position (s := s) run t
    have drawn := (next_flags (states s input t) (run t)).2.1
    rw [x', y', ← states_succ] at drawn
    rw [drawn]
    simp only [Bool.and_eq_true, Bool.or_eq_true, decide_eq_true_eq]
    omega

theorem oRead_eq (t : ℕ) : (states s input (t + 1)).oRead = (asks t && !(input t).iEmpty) := by
  rw [← requests_eq run t]
  exact next_oRead _ (run t)

theorem oRead_phase {t : ℕ} (h : (states s input (t + 1)).oRead = true) : t % 8 = 5 := by
  rw [oRead_eq run, Bool.and_eq_true] at h
  exact asks_phase h.1

/-- The word is awaited in the cycle after the queue saw the request. -/
theorem reading_eq (t : ℕ) :
    (states s input (t + 2)).reading = (states s input (t + 1)).oRead := by
  induction t with
  | zero =>
    have here := next_reading (states s input 1) (run 1)
    rw [requests_eq run] at here
    exact here
  | succ t ih =>
    have here := next_reading (states s input (t + 2)) (run (t + 2))
    rw [requests_eq run, ← states_succ] at here
    rw [here]
    split_ifs with ask
    · -- a request comes in no cycle that awaits a word or shows the queue a request
      have phase := asks_phase ask
      rw [ih, Bool.eq_iff_iff]
      exact ⟨fun h => by have := oRead_phase run h; omega,
        fun h => by have := oRead_phase run h; omega⟩
    · rfl

/-- **A read**: the word on the queue's output in the cycle after the queue saw the request is the
one that the pixels use. -/
theorem data_next (t : ℕ) (filled : (states s input (t + 2)).requests = true →
      (input (t + 2)).iEmpty = false) :
    (states s input (t + 3)).data = if (states s input (t + 1)).oRead then (input (t + 2)).iData
      else (states s input (t + 2)).data := by
  have here := next_data (states s input (t + 2)) (run (t + 2)) filled
  rw [← states_succ, reading_eq run, requests_eq run] at here
  rw [here]
  cases read : (states s input (t + 1)).oRead with
  | false => rfl
  | true =>
    have phase := oRead_phase run read
    have quiet : asks (t + 2) = false := Bool.eq_false_iff.mpr fun h => by
      have := asks_phase h
      omega
    have ended : (states s input (t + 2)).oRead = false := Bool.eq_false_iff.mpr fun h => by
      have := oRead_phase run h
      omega
    rw [quiet, ended]
    rfl

end Run

end Teres.Rtl.Display
