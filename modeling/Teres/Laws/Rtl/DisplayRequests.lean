import Teres.Laws.Rtl.DisplayTiming

/-!
# What a request brings

Requests are eight positions apart, and a read is over within three. So a request that finds the
queue empty leaves `data` black up to the next request (`data_missed`), and one that finds a word
leaves it there from the third edge on (`data_found`), whatever became of the requests before.
-/

namespace Teres.Rtl.Display

variable {s : State} {input : ℕ → In} (run : ∀ t, (input t).iRstN = true)
include run

/-- In a cycle without a request, `data` takes the word of a read that is under way. -/
theorem data_idle {t : ℕ} (quiet : asks (t + 2) = false) : (states s input (t + 3)).data =
    if (states s input (t + 1)).oRead then (input (t + 2)).iData
    else (states s input (t + 2)).data := by
  refine data_next run t fun asked => ?_
  rw [requests_eq run, quiet] at asked
  cases asked

theorem oRead_low {t : ℕ} (phase : t % 8 ≠ 5) : (states s input (t + 1)).oRead = false := by
  rw [← Bool.not_eq_true]
  exact fun read => phase (oRead_phase run read)

omit run in
theorem asks_low {t : ℕ} (phase : t % 8 ≠ 5) : asks t = false := by
  rw [← Bool.not_eq_true]
  exact fun ask => phase (asks_phase ask)

/-- **A request that finds nothing** makes eight cycles black. -/
theorem data_missed {v k : ℕ} (ask : asks v = true) (empty : (input v).iEmpty = true)
    (after : v < k) (before : k ≤ v + 8) : (states s input k).data = 0#32 := by
  have phase := asks_phase ask
  have requests := requests_eq (s := s) run v
  induction k, after using Nat.le_induction with
  | base =>
    rw [states_succ, next, run v]
    simp [requests, ask, empty]
  | succ k after ih =>
    obtain ⟨t, rfl⟩ : ∃ t, k = t + 2 := ⟨k - 2, by omega⟩
    have unread : (states s input (t + 1)).oRead = false := by
      rcases Decidable.em (t = v) with rfl | other
      · rw [oRead_eq run, empty, Bool.not_true, Bool.and_false]
      · exact oRead_low run (by omega)
    rw [data_idle run (asks_low (by omega)), unread, if_neg Bool.false_ne_true]
    exact ih (by omega)

/-- **A request that finds a word** shows it from the third edge on. -/
theorem data_found {v k : ℕ} (ask : asks v = true) (filled : (input v).iEmpty = false)
    (after : v + 3 ≤ k) (before : k ≤ v + 8) : (states s input k).data = (input (v + 2)).iData := by
  have phase := asks_phase ask
  induction k, after using Nat.le_induction with
  | base =>
    have read : (states s input (v + 1)).oRead = true := by
      rw [oRead_eq run, ask, filled]
      rfl
    rw [data_idle run (asks_low (by omega)), read, if_pos rfl]
  | succ k after ih =>
    obtain ⟨t, rfl⟩ : ∃ t, k = t + 2 := ⟨k - 2, by omega⟩
    rw [data_idle run (asks_low (by omega)), oRead_low run (by omega), if_neg Bool.false_ne_true]
    exact ih (by omega)

end Teres.Rtl.Display
