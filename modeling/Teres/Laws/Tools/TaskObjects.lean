import Mathlib.Data.List.Flatten
import Mathlib.Data.List.Forall2
import Teres.Laws.Tools.JsonEntries
import Teres.Laws.Tools.TaskItems

/-!
# The task objects of a document

The items that a visit comes to are some of the items of the document, in the same order
(`items_sublist`), and all of them where no member is lost (`items_roomy`). A task is gathered for
each task object, and for each array in its place (`tasksItems_objects`, `objects_length`).
-/

namespace Teres.Tools.Json

open Bld (Str)

/-! ## What is seen -/

/-- All members are seen where none is lost. -/
theorem Members.Roomy.seen {members : Members} (roomy : members.Roomy) :
    members.seen = members.entries := by
  match members with
  | .nil _ => rfl
  | .last head v post =>
    have kept : v.lost post = false := by
      unfold Value.lost
      cases tight : v.tight with
      | false => rfl
      | true => simpa using roomy.2 tight
    rw [Members.seen, kept]
    rfl
  | .more head v post rest =>
    rw [Members.seen, Members.entries, Members.Roomy.seen roomy.2]

theorem Members.Roomy.entry {members : Members} (roomy : members.Roomy) :
    ∀ e ∈ members.entries, e.2.Roomy := by
  match members with
  | .nil _ => exact fun _ mem => absurd mem List.not_mem_nil
  | .last head v post =>
    intro e mem
    obtain rfl := List.mem_singleton.1 mem
    exact roomy.1
  | .more head v post rest =>
    intro e mem
    rcases List.mem_cons.1 mem with rfl | later
    · exact roomy.1
    · exact Members.Roomy.entry roomy.2 e later

theorem Value.Roomy.elements {v : Value} (roomy : v.Roomy) :
    v.elements Members.seen = v.elements Members.entries := by
  match v with
  | .node false members =>
    change members.seen.flatMap _ = members.entries.flatMap _
    rw [Members.Roomy.seen roomy]
  | .node true _ => rfl
  | .scalar _ _ => rfl
  | .string _ => rfl

theorem Value.Roomy.members {v : Value} (roomy : v.Roomy) :
    v.members Members.seen = v.members Members.entries ∧
      ∀ e ∈ v.members Members.entries, e.2.Roomy := by
  match v with
  | .node true members => exact ⟨Members.Roomy.seen roomy, Members.Roomy.entry roomy⟩
  | .node false _ => exact ⟨rfl, fun _ mem => absurd mem List.not_mem_nil⟩
  | .scalar _ _ => exact ⟨rfl, fun _ mem => absurd mem List.not_mem_nil⟩
  | .string _ => exact ⟨rfl, fun _ mem => absurd mem List.not_mem_nil⟩

theorem Value.elements_sublist (v : Value) :
    (v.elements Members.seen).Sublist (v.elements Members.entries) := by
  match v with
  | .node false members => exact members.seen_sublist.flatMap _
  | .node true _ => exact List.Sublist.refl _
  | .scalar _ _ => exact List.Sublist.refl _
  | .string _ => exact List.Sublist.refl _

theorem Value.members_sublist (v : Value) :
    (v.members Members.seen).Sublist (v.members Members.entries) := by
  match v with
  | .node true members => exact members.seen_sublist
  | .node false _ => exact List.Sublist.refl _
  | .scalar _ _ => exact List.Sublist.refl _
  | .string _ => exact List.Sublist.refl _

end Teres.Tools.Json

namespace Teres.Tools.Tasks

open Json (Value Members)
open Bld (Str ascii maxChildren)

section Items

theorem linuxItems_sublist (entry : Str × Value) :
    (linuxItems Members.seen entry).Sublist (linuxItems Members.entries entry) := by
  unfold linuxItems
  split
  · exact List.Sublist.refl _
  split
  · exact entry.2.elements_sublist.map _
  · exact List.Sublist.refl _

theorem entryItems_sublist (entry : Str × Value) :
    (entryItems Members.seen entry).Sublist (entryItems Members.entries entry) := by
  unfold entryItems
  split
  · exact List.Sublist.refl _
  split
  · exact (entry.2.members_sublist.flatMap _).trans
      (List.Sublist.flatMap_right _ fun e _ => linuxItems_sublist e)
  split
  · exact List.Sublist.refl _
  split
  · exact entry.2.elements_sublist.map _
  split
  · exact entry.2.elements_sublist.map _
  split
  · exact entry.2.members_sublist.flatMap _
  · exact List.Sublist.refl _

/-- **The items seen are some of the items.** -/
theorem items_sublist (members : Members) :
    (items Members.seen members).Sublist (items Members.entries members) :=
  (members.seen_sublist.flatMap _).trans
    (List.Sublist.flatMap_right _ fun e _ => entryItems_sublist e)

theorem linuxItems_roomy {entry : Str × Value} (roomy : entry.2.Roomy) :
    linuxItems Members.seen entry = linuxItems Members.entries entry := by
  unfold linuxItems
  rw [roomy.elements]

theorem entryItems_roomy {entry : Str × Value} (roomy : entry.2.Roomy) :
    entryItems Members.seen entry = entryItems Members.entries entry := by
  obtain ⟨members, inside⟩ := roomy.members
  unfold entryItems
  rw [roomy.elements, members]
  have linux : (entry.2.members Members.entries).flatMap (linuxItems Members.seen) =
      (entry.2.members Members.entries).flatMap (linuxItems Members.entries) :=
    List.flatMap_congr fun e mem => linuxItems_roomy (inside e mem)
  rw [linux]

/-- **All items are seen** where no member is lost. -/
theorem items_roomy {members : Members} (roomy : members.Roomy) :
    items Members.seen members = items Members.entries members := by
  unfold items
  rw [roomy.seen]
  exact List.flatMap_congr fun e mem => entryItems_roomy (roomy.entry e mem)

theorem elementItems_roomy {v : Value} (roomy : v.Roomy) :
    elementItems Members.seen v = elementItems Members.entries v := by
  match v with
  | .node brace members =>
    change (if members.seen.isEmpty then none else
      some (if brace then items Members.seen members else [])) = _
    rw [Members.Roomy.seen roomy, items_roomy roomy]
    rfl
  | .scalar _ _ => rfl
  | .string _ => rfl

theorem elements_roomy {root : Members} (roomy : root.Roomy) :
    elements Members.seen root = elements Members.entries root ∧
      ∀ v ∈ elements Members.entries root, v.Roomy := by
  constructor
  · unfold elements
    rw [roomy.seen]
    refine List.flatMap_congr fun e mem => ?_
    have inside := roomy.entry e mem
    obtain ⟨name, value⟩ := e
    match value with
    | .node false members =>
      dsimp only
      rw [Members.Roomy.seen inside]
    | .node true _ => rfl
    | .scalar _ _ => rfl
    | .string _ => rfl
  · intro v mem
    obtain ⟨⟨name, value⟩, within, at_⟩ := List.mem_flatMap.1 mem
    have inside := roomy.entry _ within
    match value with
    | .node false members =>
      dsimp only at at_
      split at at_
      · obtain ⟨e, member, rfl⟩ := List.mem_map.1 at_
        exact Members.Roomy.entry inside e member
      · exact absurd at_ List.not_mem_nil
    | .node true _ => exact absurd at_ List.not_mem_nil
    | .scalar _ _ => exact absurd at_ List.not_mem_nil
    | .string _ => exact absurd at_ List.not_mem_nil

theorem tasksItems_roomy {root : Members} (roomy : root.Roomy) :
    tasksItems Members.seen root = tasksItems Members.entries root := by
  obtain ⟨same, inside⟩ := elements_roomy roomy
  unfold tasksItems
  rw [same, List.filterMap_congr fun v mem => elementItems_roomy (inside v mem)]

end Items

/-! ## Task objects -/

section Objects

variable {root : Members}

/-- The items of an element are those of a task object, or it is an array. -/
theorem elementItems_eq_some {parts : Members → List (Str × Value)} {v : Value} {its : List Item}
    (some_ : elementItems parts v = some its) : ∃ brace members, v = .node brace members ∧
      parts members ≠ [] ∧ its = if brace then items parts members else [] := by
  match v with
  | .node brace members =>
    change (if (parts members).isEmpty then none else _) = _ at some_
    split at some_
    · cases some_
    next filled =>
      refine ⟨brace, members, rfl, fun empty => filled ?_, (Option.some.inj some_).symm⟩
      rw [empty]
      rfl
  | .scalar _ _ => cases some_
  | .string _ => cases some_

theorem taskObject_eq_some {v : Value} {members : Members} :
    taskObject v = some members ↔ v = .node true members ∧ members.entries ≠ [] := by
  match v with
  | .node true members' =>
    change (if members'.entries.isEmpty then none else some members') = some members ↔ _
    by_cases empty : members'.entries = []
    · simp only [empty, List.isEmpty_nil, if_true]
      constructor
      · intro h
        cases h
      · rintro ⟨same, filled⟩
        cases same
        exact absurd empty filled
    · have filled : members'.entries.isEmpty = false := by simpa using empty
      rw [filled, if_neg Bool.false_ne_true]
      constructor
      · intro h
        cases h
        exact ⟨rfl, empty⟩
      · rintro ⟨same, _⟩
        cases same
        rfl
  | .node false _ => exact ⟨fun h => (nomatch h), fun h => (nomatch h.1)⟩
  | .scalar _ _ => exact ⟨fun h => (nomatch h), fun h => (nomatch h.1)⟩
  | .string _ => exact ⟨fun h => (nomatch h), fun h => (nomatch h.1)⟩

/-- An array that is not empty, in the place of a task object. -/
def FilledArray (v : Value) : Prop := ∃ members, v = .node false members ∧ members.entries ≠ []

/-- What an element has items for. -/
theorem elementItems_entries (v : Value) :
    FilledArray v ∧ elementItems Members.entries v = some [] ∧ taskObject v = none ∨
      ¬FilledArray v ∧
        elementItems Members.entries v = (taskObject v).map (items Members.entries) := by
  have noArray {v : Value} (other : ∀ members, v ≠ .node false members) : ¬FilledArray v :=
    fun ⟨members, same, _⟩ => other members same
  match v with
  | .node false members =>
    by_cases empty : members.entries = []
    · refine .inr ⟨?_, ?_⟩
      · rintro ⟨members', same, filled⟩
        cases same
        exact filled empty
      · exact if_pos (List.isEmpty_iff.2 empty)
    · exact .inl ⟨⟨members, rfl, empty⟩, if_neg fun h => empty (List.isEmpty_iff.1 h), rfl⟩
  | .node true members =>
    refine .inr ⟨noArray fun _ h => (nomatch h), ?_⟩
    change (if members.entries.isEmpty then none else some (items Members.entries members)) =
      (if members.entries.isEmpty then none else some members).map _
    split <;> rfl
  | .scalar _ _ => exact .inr ⟨noArray fun _ h => (nomatch h), rfl⟩
  | .string _ => exact .inr ⟨noArray fun _ h => (nomatch h), rfl⟩

/-- There are at least as many tasks as task objects, and as many just where there is no array. -/
theorem objects_length (l : List Value) :
    (l.filterMap taskObject).length ≤ (l.filterMap (elementItems Members.entries)).length ∧
      ((l.filterMap (elementItems Members.entries)).length ≤ (l.filterMap taskObject).length →
        ∀ v ∈ l, ¬FilledArray v) := by
  induction l with
  | nil => exact ⟨Nat.le_refl _, fun _ _ mem => absurd mem List.not_mem_nil⟩
  | cons v l ih =>
    obtain ⟨le, none⟩ := ih
    rcases elementItems_entries v with ⟨_, items_, object⟩ | ⟨noArray, same⟩
    · rw [List.filterMap_cons_none object, List.filterMap_cons_some items_, List.length_cons]
      exact ⟨Nat.le_succ_of_le le, fun more => absurd more (by omega)⟩
    · cases object : taskObject v with
      | none =>
        rw [object] at same
        rw [List.filterMap_cons_none object, List.filterMap_cons_none same]
        refine ⟨le, fun more u mem => ?_⟩
        rcases List.mem_cons.1 mem with rfl | later
        · exact noArray
        · exact none more u later
      | some members =>
        rw [object] at same
        rw [List.filterMap_cons_some object, List.filterMap_cons_some same, List.length_cons,
          List.length_cons]
        refine ⟨Nat.succ_le_succ le, fun more u mem => ?_⟩
        rcases List.mem_cons.1 mem with rfl | later
        · exact noArray
        · exact none (Nat.le_of_succ_le_succ more) u later

/-- **Without arrays**, the tasks are those of the task objects. -/
theorem tasksItems_objects (noArray : ∀ v ∈ elements Members.entries root, ¬FilledArray v)
    (some_ : taskObjects root ≠ []) : tasksItems Members.entries root =
      (taskObjects root).map (items Members.entries) := by
  have same : (elements Members.entries root).filterMap (elementItems Members.entries) =
      (taskObjects root).map (items Members.entries) := by
    rw [taskObjects, List.map_filterMap]
    refine List.filterMap_congr fun v mem => ?_
    rcases elementItems_entries v with ⟨array, _⟩ | ⟨_, same⟩
    · exact absurd array (noArray v mem)
    · exact same
  unfold tasksItems
  rw [same]
  split
  next none => exact absurd (List.map_eq_nil_iff.1 none) some_
  next => rfl

theorem mem_elements {parts : Members → List (Str × Value)} {v : Value} :
    v ∈ elements parts root ↔ ∃ name members e, (name, Value.node false members) ∈ parts root ∧
      name = ascii "tasks" ∧ e ∈ parts members ∧ e.2 = v := by
  unfold elements
  rw [List.mem_flatMap]
  constructor
  · rintro ⟨⟨name, value⟩, within, at_⟩
    match value with
    | .node false members =>
      dsimp only at at_
      split at at_
      next tasks =>
        obtain ⟨e, member, same⟩ := List.mem_map.1 at_
        exact ⟨name, members, e, within, tasks, member, same⟩
      next => exact absurd at_ List.not_mem_nil
    | .node true _ => exact absurd at_ List.not_mem_nil
    | .scalar _ _ => exact absurd at_ List.not_mem_nil
    | .string _ => exact absurd at_ List.not_mem_nil
  · rintro ⟨name, members, e, within, tasks, member, rfl⟩
    refine ⟨_, within, ?_⟩
    dsimp only
    rw [if_pos tasks]
    exact List.mem_map_of_mem member

/-- What is seen of the elements is there. -/
theorem elements_seen {v : Value} (mem : v ∈ elements Members.seen root) :
    v ∈ elements Members.entries root := by
  obtain ⟨name, members, e, within, tasks, member, same⟩ := mem_elements.1 mem
  exact mem_elements.2 ⟨name, members, e, root.seen_sublist.subset within, tasks,
    members.seen_sublist.subset member, same⟩

/-- **The items of a task that is seen** are items of a task object. -/
theorem tasksItems_seen {its : List Item} (mem : its ∈ tasksItems Members.seen root) :
    its = [] ∨ ∃ members ∈ taskObjects root, its = items Members.seen members := by
  have element : its = [] ∨
      its ∈ (elements Members.seen root).filterMap (elementItems Members.seen) := by
    unfold tasksItems at mem
    split at mem
    · exact .inl (List.mem_singleton.1 mem)
    · exact .inr mem
  rcases element with empty | element
  · exact .inl empty
  · obtain ⟨v, within, some_⟩ := List.mem_filterMap.1 element
    obtain ⟨brace, members, rfl, filled, rfl⟩ := elementItems_eq_some some_
    cases brace with
    | false => exact .inl rfl
    | true =>
      refine .inr ⟨members, List.mem_filterMap.2 ⟨_, elements_seen within, ?_⟩, rfl⟩
      refine taskObject_eq_some.2 ⟨rfl, fun empty => filled ?_⟩
      exact List.sublist_nil.1 (empty ▸ members.seen_sublist)

/-- The task objects of a tasks.json. -/
theorem TasksJson.object (typed : TasksJson root) :
    ∀ members ∈ taskObjects root, TaskObject members := by
  intro members mem
  obtain ⟨v, element, object⟩ := List.mem_filterMap.1 mem
  obtain ⟨rfl, _⟩ := taskObject_eq_some.1 object
  obtain ⟨name, array, e, within, tasks, member, same⟩ := mem_elements.1 element
  obtain ⟨array', eq, objects⟩ := typed _ within tasks
  cases eq
  exact objects e member members same

end Objects

end Teres.Tools.Tasks
