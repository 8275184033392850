import Mathlib.Data.Nat.Nth
import Teres.Base.Clocked

/-!
# One clock among several

Where several clocks run, time is a sequence of instants, and each clock has its edges in some of
them. A machine on one of the clocks takes a step in those instants and holds its state in the
others. Counted by the edges of its own clock it is a clocked machine like any other
(`run_instant`), whose input is what it samples at its edges.

`instant` is where an edge falls, as far as a horizon. The edges behind the horizon fall on it: what
they would sample plays no part before it.
-/

namespace Teres.Domain

variable {σ ι α : Type*} {e : ℕ → Prop} [DecidablePred e]

/-- The instant of edge `k`, if that is before instant `N`. -/
noncomputable def instant (e : ℕ → Prop) [DecidablePred e] (N k : ℕ) : ℕ :=
  if k < Nat.count e N then Nat.nth e k else N

theorem instant_le (N k : ℕ) : instant e N k ≤ N := by
  unfold instant
  split
  · next before => exact (Nat.nth_lt_of_lt_count before).le
  · exact le_rfl

theorem instant_count {N m : ℕ} (lt : m < N) (here : e m) :
    instant e N (Nat.count e m) = m := by
  rw [instant, if_pos (Nat.count_strict_mono here lt), Nat.nth_count here]

theorem instant_horizon (N : ℕ) : instant e N (Nat.count e N) = N :=
  if_neg (Nat.lt_irrefl _)

/-- An edge before the horizon is the edge of some instant. -/
theorem exists_instant {N k : ℕ} (before : k < Nat.count e N) :
    ∃ m < N, e m ∧ Nat.count e m = k := by
  induction N with
  | zero => exact absurd before (Nat.not_lt_zero k)
  | succ N ih =>
    rw [Nat.count_succ] at before
    by_cases earlier : k < Nat.count e N
    · obtain ⟨m, lt, here⟩ := ih earlier
      exact ⟨m, Nat.lt_succ_of_lt lt, here⟩
    · by_cases here : e N
      · rw [if_pos here] at before
        exact ⟨N, Nat.lt_succ_self N, here, by omega⟩
      · rw [if_neg here] at before
        exact absurd before earlier

/-- What only changes at edges is the same at two instants with as many edges before them. -/
theorem held {a : ℕ → α} {m n : ℕ} (le : m ≤ n)
    (kept : ∀ k, m ≤ k → k < n → ¬e k → a (k + 1) = a k)
    (same : Nat.count e m = Nat.count e n) : a n = a m := by
  induction n, le using Nat.le_induction with
  | base => rfl
  | succ n le ih =>
    have grown : Nat.count e m ≤ Nat.count e n := Nat.count_monotone e le
    rw [Nat.count_succ] at same
    by_cases here : e n
    · rw [if_pos here] at same
      omega
    · rw [if_neg here] at same
      rw [kept n le (Nat.lt_succ_self n) here]
      exact ih (fun k low high => kept k low (Nat.lt_succ_of_lt high)) same

/-- **A machine on one clock**, counted by the edges of its clock. -/
theorem run_instant {step : σ → ι → σ} {s : ℕ → σ} {input : ℕ → ι} {N : ℕ}
    (edges : ∀ m < N, e m → s (m + 1) = step (s m) (input m))
    (kept : ∀ m < N, ¬e m → s (m + 1) = s m) {n : ℕ} (le : n ≤ N) :
    s n = Clocked.run step (s 0) (fun k => input (instant e N k)) (Nat.count e n) := by
  induction n with
  | zero => rw [Nat.count_zero, Clocked.run_zero]
  | succ n ih =>
    have lt : n < N := le
    rw [Nat.count_succ]
    by_cases here : e n
    · rw [if_pos here, Clocked.run_succ, instant_count lt here, ← ih lt.le, edges n lt here]
    · rw [if_neg here, kept n lt here]
      exact ih lt.le

/-- The machine holds its state up to the instant of its next edge. -/
theorem instant_succ {N m : ℕ} (lt : m < N) (here : e m) :
    m + 1 ≤ instant e N (Nat.count e m + 1) ∧
      Nat.count e (m + 1) = Nat.count e (instant e N (Nat.count e m + 1)) := by
  have next : Nat.count e (m + 1) = Nat.count e m + 1 := by rw [Nat.count_succ, if_pos here]
  have grown : Nat.count e (m + 1) ≤ Nat.count e N := Nat.count_monotone e lt
  have same : Nat.count e (instant e N (Nat.count e m + 1)) = Nat.count e m + 1 := by
    rcases Nat.lt_or_ge (Nat.count e m + 1) (Nat.count e N) with before | behind
    · obtain ⟨k, less, edge', count⟩ := exists_instant before
      rw [← count, instant_count less edge']
    · have last : Nat.count e m + 1 = Nat.count e N := by omega
      rw [last, instant_horizon]
  refine ⟨Nat.lt_of_count_lt_count (p := e) (by omega), by rw [next, same]⟩

end Teres.Domain
