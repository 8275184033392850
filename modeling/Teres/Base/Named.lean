import Mathlib.Data.List.Forall2
import Mathlib.Data.List.Perm.Basic
import Mathlib.Data.List.Nodup

/-!
# Named values

A list of values with names, no name twice. It is read by name, and then the order of the list does
not matter (`lookup_perm`). What comes from one name alone comes from the value of that name
(`flatMap_lookup`), and values that are related under each name are found related
(`lookup_forall₂`).
-/

namespace Teres.Named

variable {κ α β : Type*} [BEq κ] [LawfulBEq κ] {l l' : List (κ × α)} {k : κ}

/-- A name has the value that stands with it. -/
theorem lookup_eq_some (distinct : (l.map Prod.fst).Nodup) {v : α} :
    l.lookup k = some v ↔ (k, v) ∈ l := by
  induction l with
  | nil => simp
  | cons x l ih =>
    obtain ⟨name, value⟩ := x
    rw [List.map_cons, List.nodup_cons] at distinct
    rw [List.lookup_cons, List.mem_cons]
    by_cases same : k = name
    · subst same
      have absent : (k, v) ∉ l := fun mem =>
        distinct.1 (List.mem_map.2 ⟨(k, v), mem, rfl⟩)
      simp [absent, eq_comm]
    · have other : (k == name) = false := beq_false_of_ne same
      rw [other]
      simp [ih distinct.2, same]

/-- **The order does not matter** to a list that is read by name. -/
theorem lookup_perm (perm : l.Perm l') (distinct : (l.map Prod.fst).Nodup) (k : κ) :
    l.lookup k = l'.lookup k := by
  have distinct' : (l'.map Prod.fst).Nodup := (perm.map Prod.fst).nodup_iff.1 distinct
  refine Option.ext fun v => ?_
  rw [lookup_eq_some distinct, lookup_eq_some distinct', perm.mem_iff]

omit [BEq κ] [LawfulBEq κ] in
theorem names_forall₂ {R : κ → α → β → Prop} {m : List (κ × β)}
    (related : List.Forall₂ (fun x y => x.1 = y.1 ∧ R x.1 x.2 y.2) l m) :
    l.map Prod.fst = m.map Prod.fst := by
  induction related with
  | nil => rfl
  | cons here _ ih => rw [List.map_cons, List.map_cons, here.1, ih]

/-- Lists with the same names, and values that are related under them, give related values. -/
theorem lookup_forall₂ {R : κ → α → β → Prop} {m : List (κ × β)}
    (related : List.Forall₂ (fun x y => x.1 = y.1 ∧ R x.1 x.2 y.2) l m) (k : κ) :
    Option.Rel (R k) (l.lookup k) (m.lookup k) := by
  induction related with
  | nil => exact .none
  | @cons x y l m here _ ih =>
    obtain ⟨name, value⟩ := x
    obtain ⟨name', value'⟩ := y
    obtain ⟨same, values⟩ := here
    dsimp only at same values
    subst same
    rw [List.lookup_cons, List.lookup_cons]
    by_cases found : k = name
    · subst found
      rw [beq_self_eq_true]
      exact .some values
    · have other : (k == name) = false := beq_false_of_ne found
      rw [other]
      exact ih

/-- **What comes from one name** comes from its value. -/
theorem flatMap_lookup (distinct : (l.map Prod.fst).Nodup) {g : κ × α → List β}
    (only : ∀ x ∈ l, x.1 ≠ k → g x = []) :
    l.flatMap g = (l.lookup k).elim [] fun v => g (k, v) := by
  induction l with
  | nil => rfl
  | cons x l ih =>
    obtain ⟨name, value⟩ := x
    rw [List.map_cons, List.nodup_cons] at distinct
    rw [List.flatMap_cons, List.lookup_cons,
      ih distinct.2 fun y mem => only y (List.mem_cons_of_mem _ mem)]
    by_cases same : k = name
    · subst same
      have absent : l.lookup k = none := by
        cases found : l.lookup k with
        | none => rfl
        | some v =>
          have mem := (lookup_eq_some distinct.2).1 found
          exact absurd (List.mem_map.2 ⟨(k, v), mem, rfl⟩) distinct.1
      rw [absent, beq_self_eq_true]
      exact List.append_nil _
    · have other : (k == name) = false := beq_false_of_ne same
      rw [other, only (name, value) List.mem_cons_self (Ne.symm same)]
      rfl

end Teres.Named
