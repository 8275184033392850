import Mathlib.Data.List.Basic
import Mathlib.Data.Int.Notation

/-!
# Calls in turn

A call takes a state and gives a status and a state, or nothing if it does not return. `inTurn`
makes the calls of a list one after the other and stops at the first whose status is not zero.

The rules follow the list: what comes before a call that stops is what matters.
-/

namespace Teres.InTurn

variable {α σ : Type*}

/-- The calls of a list in turn, up to the first failure. -/
def inTurn (call : α → σ → Option (ℤ × σ)) : List α → σ → Option (ℤ × σ)
  | [], s => some (0, s)
  | a :: l, s => do
    let (ret, s) ← call a s
    if ret ≠ 0 then some (ret, s) else inTurn call l s

variable {call : α → σ → Option (ℤ × σ)}

/-- A call that succeeds hands its state on. -/
theorem inTurn_cons_zero {a : α} {l : List α} {s s' : σ} (h : call a s = some (0, s')) :
    inTurn call (a :: l) s = inTurn call l s' := by
  rw [inTurn, h]
  rfl

/-- A call that fails is the last. -/
theorem inTurn_cons_fail {a : α} {l : List α} {s s' : σ} {ret : ℤ}
    (h : call a s = some (ret, s')) (fails : ret ≠ 0) :
    inTurn call (a :: l) s = some (ret, s') := by
  rw [inTurn, h]
  exact if_pos fails

/-- A call that does not return is the last. -/
theorem inTurn_cons_none {a : α} {l : List α} {s : σ} (h : call a s = none) :
    inTurn call (a :: l) s = none := by
  rw [inTurn, h]
  rfl

/-- Two lists in turn are the first, and the second if the first succeeds. -/
theorem inTurn_append (l l' : List α) (s : σ) : inTurn call (l ++ l') s =
    (inTurn call l s).bind fun r => if r.1 ≠ 0 then some r else inTurn call l' r.2 := by
  induction l generalizing s with
  | nil => rfl
  | cons a l ih =>
    cases h : call a s with
    | none => rw [List.cons_append, inTurn_cons_none h, inTurn_cons_none h]; rfl
    | some r =>
      obtain ⟨ret, s'⟩ := r
      rcases eq_or_ne ret 0 with rfl | fails
      · rw [List.cons_append, inTurn_cons_zero h, inTurn_cons_zero h, ih]
      · rw [List.cons_append, inTurn_cons_fail h fails, inTurn_cons_fail h fails]
        exact (if_pos fails).symm

/-- Calls that return no less give no less. -/
theorem inTurn_mono {call' : α → σ → Option (ℤ × σ)}
    (more : ∀ a s r, call a s = some r → call' a s = some r) {l : List α} {s : σ} {r : ℤ × σ}
    (run : inTurn call l s = some r) : inTurn call' l s = some r := by
  induction l generalizing s with
  | nil => exact run
  | cons a l ih =>
    cases here : call a s with
    | none =>
      rw [inTurn_cons_none here] at run
      cases run
    | some first =>
      obtain ⟨ret, s'⟩ := first
      have here' := more a s (ret, s') here
      rcases eq_or_ne ret 0 with rfl | fails
      · rw [inTurn_cons_zero here] at run
        rw [inTurn_cons_zero here']
        exact ih run
      · rw [inTurn_cons_fail here fails] at run
        rw [inTurn_cons_fail here' fails]
        exact run

/-- A call that succeeds, if it returns, and then keeps `I`. -/
def Quiet (I : σ → Prop) (result : Option (ℤ × σ)) : Prop :=
  ∀ ret s, result = some (ret, s) → ret = 0 ∧ I s

/-- **The rule for calls that succeed if they return.** -/
theorem inTurn_quiet {I : σ → Prop} {l : List α} (each : ∀ a ∈ l, ∀ s, I s → Quiet I (call a s))
    {s : σ} (h : I s) : Quiet I (inTurn call l s) := by
  induction l generalizing s with
  | nil =>
    rintro ret s' eq
    obtain ⟨rfl, rfl⟩ := Prod.mk.inj (Option.some.inj eq)
    exact ⟨rfl, h⟩
  | cons a l ih =>
    have here := each a List.mem_cons_self s h
    cases eq : call a s with
    | none =>
      rw [inTurn_cons_none eq]
      exact fun ret s' h => nomatch h
    | some r =>
      obtain ⟨ret, s'⟩ := r
      obtain ⟨rfl, h'⟩ := here ret s' eq
      rw [inTurn_cons_zero eq]
      exact ih (fun b hb => each b (List.mem_cons_of_mem a hb)) h'

/-- **The rule for a call that never returns**, after calls that succeed if they return. -/
theorem inTurn_stuck {I : σ → Prop} {pre post : List α} {c : α}
    (each : ∀ a ∈ pre, ∀ s, I s → Quiet I (call a s)) (stuck : ∀ s, I s → call c s = none)
    {s : σ} (h : I s) : inTurn call (pre ++ c :: post) s = none := by
  have quiet := inTurn_quiet each h
  rw [inTurn_append]
  cases eq : inTurn call pre s with
  | none => rfl
  | some r =>
    obtain ⟨ret, s'⟩ := r
    obtain ⟨rfl, h'⟩ := quiet ret s' eq
    exact inTurn_cons_none (stuck s' h')

end Teres.InTurn
