import Mathlib.Data.List.GetD

/-!
# A buffer whose last place is used again

Values are written one behind the other into a buffer of `last + 1` places; at the last place the
index stays, so that each further value replaces the one before it. What a buffer holds after some
values is `slots`, and writing the next one is appending it to them (`set_slots`).
-/

namespace Teres.Slots

variable {α : Type*}

/-- The buffer after the values of a list, with `z` where none has come. -/
def slots (last : ℕ) (z : α) (l : List α) : List α :=
  (List.range (last + 1)).map fun i =>
    if i < last then l.getD i z else (l.drop last).getLast?.getD z

@[simp] theorem length_slots (last : ℕ) (z : α) (l : List α) :
    (slots last z l).length = last + 1 := by
  rw [slots, List.length_map, List.length_range]

theorem slots_nil (last : ℕ) (z : α) : slots last z [] = List.replicate (last + 1) z := by
  rw [List.eq_replicate_iff]
  refine ⟨length_slots last z [], fun b member => ?_⟩
  obtain ⟨i, -, rfl⟩ := List.mem_map.1 member
  simp

theorem getElem?_slots (last : ℕ) (z : α) (l : List α) {i : ℕ} (inside : i < last + 1) :
    (slots last z l)[i]? =
      some (if i < last then l.getD i z else (l.drop last).getLast?.getD z) := by
  rw [slots, List.getElem?_map, List.getElem?_range inside]
  rfl

/-- **The next value.** -/
theorem set_slots (last : ℕ) (z : α) (l : List α) (a : α) :
    (slots last z l).set (min l.length last) a = slots last z (l ++ [a]) := by
  refine List.ext_getElem? fun i => ?_
  rcases Nat.lt_or_ge i (last + 1) with inside | outside
  · rw [List.getElem?_set, getElem?_slots last z (l ++ [a]) inside, length_slots]
    by_cases here : min l.length last = i
    · rw [if_pos here, here, if_pos inside]
      congr 1
      split
      · -- a place of its own
        have place : l.length = i := by omega
        rw [← place, List.getD_append_right _ _ _ _ (Nat.le_refl _), Nat.sub_self]
        rfl
      · rw [List.drop_append_of_le_length (by omega), List.getLast?_append]
        rfl
    · rw [if_neg here, getElem?_slots last z l inside]
      congr 1
      split
      · rcases Nat.lt_or_ge i l.length with early | late
        · rw [List.getD_append _ _ _ _ early]
        · rw [List.getD_eq_default _ _ late, List.getD_eq_default]
          rw [List.length_append, List.length_singleton]
          omega
      · have none : ∀ m : List α, m.length ≤ last → m.drop last = [] :=
          fun m short => List.drop_eq_nil_of_le short
        rw [none l (by omega), none (l ++ [a])]
        rw [List.length_append, List.length_singleton]
        omega
  · rw [List.getElem?_eq_none, List.getElem?_eq_none]
    · rwa [length_slots]
    · rwa [List.length_set, length_slots]

/-- Where all values have places of their own, the buffer holds them and nothing else. -/
theorem slots_of_le {last : ℕ} (z : α) {l : List α} (fits : l.length ≤ last + 1) :
    slots last z l = l ++ List.replicate (last + 1 - l.length) z := by
  refine List.ext_getElem? fun i => ?_
  rcases Nat.lt_or_ge i (last + 1) with inside | outside
  · rw [getElem?_slots last z l inside]
    rcases Nat.lt_or_ge i l.length with early | late
    · rw [List.getElem?_append_left early, List.getElem?_eq_getElem early]
      congr 1
      split
      · exact List.getD_eq_getElem _ _ early
      · obtain rfl : i = last := by omega
        have one : l.drop i = [l[i]] := by
          rw [List.drop_eq_getElem_cons early, List.drop_eq_nil_of_le (by omega)]
        rw [one]
        rfl
    · rw [List.getElem?_append_right late, List.getElem?_replicate_of_lt (by omega)]
      congr 1
      split
      · exact List.getD_eq_default _ _ late
      · rw [List.drop_eq_nil_of_le (by omega)]
        rfl
  · rw [List.getElem?_eq_none, List.getElem?_eq_none]
    · rw [List.length_append, List.length_replicate]
      omega
    · rwa [length_slots]

end Teres.Slots
