import Mathlib.Data.List.Basic
import Mathlib.Data.List.Infix
import Mathlib.Data.Nat.Notation

/-!
# Clocked machines

A clocked machine is a step function from a state and an input to the next state; its run under an
input stream is the state before each edge. Observations made edge by edge are collected in a
ledger, the list of everything observed before an edge.

The rules are the two a safety proof uses: an invariant that survives one edge holds before every
edge (`run_induction`), and a ledger only ever grows at its end (`ledger_prefix`). An edge count
enters the invariant's statement because invariants about ledgers mention it.

Two kinds of register are told by the inputs alone: a sticky flag, which something sets and
something clears (`Since`), and a register that keeps what it loaded last (`Held`).
-/

namespace Teres.Clocked

variable {σ ι α : Type*}

/-- The state before edge `n`, from the state `s` before edge zero. -/
def run (step : σ → ι → σ) (s : σ) (input : ℕ → ι) : ℕ → σ
  | 0 => s
  | n + 1 => step (run step s input n) (input n)

@[simp] theorem run_zero (step : σ → ι → σ) (s : σ) (input : ℕ → ι) :
    run step s input 0 = s := rfl

@[simp] theorem run_succ (step : σ → ι → σ) (s : σ) (input : ℕ → ι) (n : ℕ) :
    run step s input (n + 1) = step (run step s input n) (input n) := rfl

/-- **The invariant rule.** What holds at the start and survives every edge of the run holds
before every edge. -/
theorem run_induction {step : σ → ι → σ} {s : σ} {input : ℕ → ι} {P : ℕ → σ → Prop}
    (start : P 0 s)
    (edge : ∀ n, P n (run step s input n) →
      P (n + 1) (step (run step s input n) (input n))) :
    ∀ n, P n (run step s input n)
  | 0 => start
  | n + 1 => edge n (run_induction start edge n)

/-- Everything observed before edge `n`, in order. -/
def ledger (seen : ℕ → List α) : ℕ → List α
  | 0 => []
  | n + 1 => ledger seen n ++ seen n

@[simp] theorem ledger_zero (seen : ℕ → List α) : ledger seen 0 = [] := rfl

@[simp] theorem ledger_succ (seen : ℕ → List α) (n : ℕ) :
    ledger seen (n + 1) = ledger seen n ++ seen n := rfl

/-- A ledger only grows at its end. -/
theorem ledger_prefix (seen : ℕ → List α) {m n : ℕ} (h : m ≤ n) :
    ledger seen m <+: ledger seen n := by
  induction n, h using Nat.le_induction with
  | base => exact List.prefix_rfl
  | succ n _ ih => exact ih.trans (List.prefix_append _ _)

/-- Nothing observed, nothing added. -/
theorem ledger_silent (seen : ℕ → List α) {m n : ℕ} (h : m ≤ n)
    (silent : ∀ k, m ≤ k → k < n → seen k = []) : ledger seen n = ledger seen m := by
  induction n, h using Nat.le_induction with
  | base => rfl
  | succ n hmn ih =>
    rw [ledger_succ, silent n hmn (Nat.lt_succ_self n), List.append_nil,
      ih fun k hk hkn => silent k hk (Nat.lt_succ_of_lt hkn)]

/-- What a ledger holds was observed before its edge. -/
theorem mem_ledger {seen : ℕ → List α} {n : ℕ} {a : α} :
    a ∈ ledger seen n ↔ ∃ k < n, a ∈ seen k := by
  induction n with
  | zero => simp only [ledger_zero, List.not_mem_nil, Nat.not_lt_zero, false_and, exists_false]
  | succ n ih =>
    rw [ledger_succ, List.mem_append, ih]
    constructor
    · rintro (⟨k, hk, ha⟩ | ha)
      · exact ⟨k, Nat.lt_succ_of_lt hk, ha⟩
      · exact ⟨n, Nat.lt_succ_self n, ha⟩
    · rintro ⟨k, hk, ha⟩
      rcases Nat.lt_succ_iff_lt_or_eq.mp hk with lt | rfl
      · exact .inl ⟨k, lt, ha⟩
      · exact .inr ha

/-! ## What a register holds -/

/-- Some edge before edge `n` set a flag, and no edge has cleared it since. -/
def Since (clear set : ι → Prop) (input : ℕ → ι) (n : ℕ) : Prop :=
  ∃ m < n, set (input m) ∧ ∀ k, m ≤ k → k < n → ¬ clear (input k)

theorem since_zero (clear set : ι → Prop) (input : ℕ → ι) : ¬ Since clear set input 0 :=
  fun ⟨_, h, _⟩ => absurd h (Nat.not_lt_zero _)

theorem since_succ {clear set : ι → Prop} {input : ℕ → ι} {n : ℕ} :
    Since clear set input (n + 1) ↔
      ¬ clear (input n) ∧ (set (input n) ∨ Since clear set input n) := by
  constructor
  · rintro ⟨m, hm, hset, kept⟩
    refine ⟨kept n (Nat.le_of_lt_succ hm) (Nat.lt_succ_self n), ?_⟩
    rcases Nat.lt_succ_iff_lt_or_eq.mp hm with lt | rfl
    · exact .inr ⟨m, lt, hset, fun k hk hkn => kept k hk (Nat.lt_succ_of_lt hkn)⟩
    · exact .inl hset
  · rintro ⟨last, hset | ⟨m, hm, hset, kept⟩⟩
    · refine ⟨n, Nat.lt_succ_self n, hset, ?_⟩
      intro k hk hkn
      obtain rfl : k = n := by omega
      exact last
    · refine ⟨m, Nat.lt_succ_of_lt hm, hset, ?_⟩
      intro k hk hkn
      rcases Nat.lt_succ_iff_lt_or_eq.mp hkn with lt | rfl
      · exact kept k hk lt
      · exact last

/-- A register that keeps what it loads holds `a` before edge `n`: it is what was loaded last, or
what it started with. -/
def Held (load : ι → Option α) (start : α) (input : ℕ → ι) (n : ℕ) (a : α) : Prop :=
  (∃ m < n, load (input m) = some a ∧ ∀ k, m < k → k < n → load (input k) = none) ∨
    (∀ m < n, load (input m) = none) ∧ a = start

theorem held_zero (load : ι → Option α) (start : α) (input : ℕ → ι) :
    Held load start input 0 start :=
  .inr ⟨fun _ h => absurd h (Nat.not_lt_zero _), rfl⟩

theorem held_succ {load : ι → Option α} {start : α} {input : ℕ → ι} {n : ℕ} {a : α}
    (held : Held load start input n a) :
    Held load start input (n + 1) ((load (input n)).getD a) := by
  cases h : load (input n) with
  | some b =>
    refine .inl ⟨n, Nat.lt_succ_self n, h, ?_⟩
    intro k hk hkn
    omega
  | none =>
    rcases held with ⟨m, hm, loaded, kept⟩ | ⟨never, start⟩
    · refine .inl ⟨m, Nat.lt_succ_of_lt hm, loaded, ?_⟩
      intro k hk hkn
      rcases Nat.lt_succ_iff_lt_or_eq.mp hkn with lt | rfl
      · exact kept k hk lt
      · exact h
    · refine .inr ⟨?_, start⟩
      intro m hm
      rcases Nat.lt_succ_iff_lt_or_eq.mp hm with lt | rfl
      · exact never m lt
      · exact h

/-- What was loaded and not loaded over is held. -/
theorem Held.eq_of_last {load : ι → Option α} {start : α} {input : ℕ → ι} {n m : ℕ} {a b : α}
    (held : Held load start input n a) (hm : m < n) (loaded : load (input m) = some b)
    (kept : ∀ k, m < k → k < n → load (input k) = none) : a = b := by
  rcases held with ⟨m', hm', loaded', kept'⟩ | ⟨never, -⟩
  · rcases Nat.lt_trichotomy m m' with lt | rfl | gt
    · rw [kept m' lt hm'] at loaded'
      exact absurd loaded' (by simp)
    · exact Option.some.inj (loaded'.symm.trans loaded)
    · rw [kept' m gt hm] at loaded
      exact absurd loaded (by simp)
  · rw [never m hm] at loaded
    exact absurd loaded (by simp)

/-- A register holds one value. -/
theorem Held.unique {load : ι → Option α} {start : α} {input : ℕ → ι} {n : ℕ} {a b : α}
    (ha : Held load start input n a) (hb : Held load start input n b) : a = b := by
  rcases hb with ⟨m, hm, loaded, kept⟩ | ⟨never, rfl⟩
  · exact ha.eq_of_last hm loaded kept
  · rcases ha with ⟨m, hm, loaded, -⟩ | ⟨-, same⟩
    · rw [never m hm] at loaded
      exact absurd loaded (by simp)
    · exact same

end Teres.Clocked
