import Mathlib.Data.Nat.Notation
import Mathlib.Tactic.Conv

/-!
# Divided counters

A counter `e` that runs at full speed, seen as a slow counter `e / T` and a fast one `e % T`. The
two laws say how the pair moves when `e` does, by the one comparison that divided hardware makes.
-/

namespace Teres.Ticks

variable {T e : ℕ}

/-- On the last fast tick the slow counter moves. -/
theorem last (h : e % T + 1 = T) : (e + 1) / T = e / T + 1 ∧ (e + 1) % T = 0 := by
  have pos : 0 < T := by omega
  have split : e + 1 = T * (e / T + 1) := by
    have := Nat.div_add_mod e T
    rw [Nat.mul_add, Nat.mul_one]
    omega
  exact ⟨by rw [split, Nat.mul_div_cancel_left _ pos], by rw [split, Nat.mul_mod_right]⟩

/-- On every other tick it stays. -/
theorem inner (h : e % T + 1 < T) : (e + 1) / T = e / T ∧ (e + 1) % T = e % T + 1 := by
  have pos : 0 < T := by omega
  have split : e + 1 = e % T + 1 + T * (e / T) := by
    have := Nat.div_add_mod e T
    omega
  refine ⟨?_, ?_⟩
  · conv_lhs => rw [split, Nat.add_mul_div_left _ _ pos, Nat.div_eq_of_lt h, Nat.zero_add]
  · conv_lhs => rw [split, Nat.add_mul_mod_self_left, Nat.mod_eq_of_lt h]

/-- Reading the slow counter off a decomposition. -/
theorem div_eq {j k : ℕ} (hk : k < T) : (j * T + k) / T = j := by
  have pos : 0 < T := Nat.lt_of_le_of_lt (Nat.zero_le k) hk
  rw [Nat.mul_comm, Nat.mul_add_div pos, Nat.div_eq_of_lt hk, Nat.add_zero]

theorem mod_eq {j k : ℕ} (hk : k < T) : (j * T + k) % T = k := by
  rw [Nat.mul_comm, Nat.mul_add_mod, Nat.mod_eq_of_lt hk]

/-- The fast counter stays below its period. -/
theorem mod_succ_le (pos : 0 < T) : e % T + 1 ≤ T := Nat.mod_lt e pos

end Teres.Ticks
