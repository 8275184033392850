import Teres.Base.Clocked

/-!
# Spans of a run

A span is a stretch of edges of a run with everything observed in it, and something that holds in
front of every edge of it. Spans that meet join (`Span.trans`), so what a machine does in phases is
put together from what it does in each; a wait is a span without observations.
-/

namespace Teres.Clocked

variable {α β : Type*}

/-- From edge `n` to edge `m` exactly `log` is observed, with `P` in front of every edge between. -/
structure Span (seen : ℕ → List α) (P : ℕ → Prop) (n m : ℕ) (log : List α) : Prop where
  le : n ≤ m
  during : ∀ k, n ≤ k → k < m → P k
  seen : ledger seen m = ledger seen n ++ log

variable {seen : ℕ → List α} {P : ℕ → Prop} {n m l : ℕ} {log log' : List α}

theorem Span.refl (seen : ℕ → List α) (P : ℕ → Prop) (n : ℕ) : Span seen P n n [] :=
  ⟨Nat.le_refl n, fun _ above below => absurd below (Nat.not_lt.2 above), (List.append_nil _).symm⟩

/-- One edge. -/
theorem Span.edge (holds : P n) : Span seen P n (n + 1) (seen n) where
  le := Nat.le_succ n
  during _ above below := Nat.le_antisymm above (Nat.le_of_lt_succ below) ▸ holds
  seen := ledger_succ seen n

/-- **Spans that meet join.** -/
theorem Span.trans (first : Span seen P n m log) (second : Span seen P m l log') :
    Span seen P n l (log ++ log') where
  le := first.le.trans second.le
  during k above below := by
    rcases Nat.lt_or_ge k m with early | late
    · exact first.during k above early
    · exact second.during k late below
  seen := by
    rw [second.seen, first.seen, List.append_assoc]

/-- A span and one more edge. -/
theorem Span.snoc (first : Span seen P n m log) (holds : P m) :
    Span seen P n (m + 1) (log ++ seen m) := first.trans (.edge holds)

/-- One edge and a span. -/
theorem Span.cons (holds : P n) (rest : Span seen P (n + 1) m log) :
    Span seen P n m (seen n ++ log) := (Span.edge holds).trans rest

/-- A first edge with nothing observed. -/
theorem Span.skip (holds : P n) (quiet : seen n = []) (rest : Span seen P (n + 1) m log) :
    Span seen P n m log := by
  have joined := rest.cons holds
  rwa [quiet] at joined

/-- A last edge with nothing observed. -/
theorem Span.linger (first : Span seen P n m log) (holds : P m) (quiet : seen m = []) :
    Span seen P n (m + 1) log := by
  have joined := first.snoc holds
  rwa [quiet, List.append_nil] at joined

/-- A span without observations observes nothing at any edge. -/
theorem Span.quiet (h : Span seen P n m []) {k : ℕ} (above : n ≤ k) (below : k < m) :
    seen k = [] := by
  have before := ledger_prefix seen above
  have behind := ledger_prefix seen (Nat.succ_le_of_lt below)
  have longer := behind.length_le
  rw [h.seen, List.append_nil, ledger_succ, List.length_append] at longer
  have short := before.length_le
  exact List.eq_nil_of_length_eq_zero (by omega)

/-- What is observed in a span, seen another way. -/
theorem Span.image {f : List α → List β} (append : ∀ a b, f (a ++ b) = f a ++ f b)
    {seen' : ℕ → List β} {P' : ℕ → Prop} (h : Span seen P n m log)
    (same : ∀ k, n ≤ k → k < m → seen' k = f (seen k))
    (holds : ∀ k, n ≤ k → k < m → P' k) : Span seen' P' n m (f log) := by
  refine ⟨h.le, holds, ?_⟩
  obtain ⟨le, -, grown⟩ := h
  induction m, le using Nat.le_induction generalizing log with
  | base =>
    obtain rfl : log = [] := List.append_cancel_left (grown.symm.trans (List.append_nil _).symm)
    have twice : f [] ++ f [] = f [] ++ [] := (append [] []).symm.trans (List.append_nil _).symm
    rw [List.append_cancel_left twice, List.append_nil]
  | succ m le ih =>
    obtain ⟨earlier, before⟩ := ledger_prefix seen le
    have split : log = earlier ++ seen m := by
      rw [ledger_succ, ← before, List.append_assoc] at grown
      exact (List.append_cancel_left grown).symm
    rw [ledger_succ, ih (fun k above below => same k above (Nat.lt_succ_of_lt below))
      (fun k above below => holds k above (Nat.lt_succ_of_lt below)) before.symm,
      same m le (Nat.lt_succ_self m), split, append, List.append_assoc]

end Teres.Clocked
