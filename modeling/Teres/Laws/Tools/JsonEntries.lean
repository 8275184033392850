import Teres.Laws.Tools.JsonVisits
import Teres.Tools.TasksDocument

/-!
# Where the members of a document lie

The calls of a visit, member by member: each member that is seen has a place in the buffer, where
its name and its text are (`Members.placed_in`), and the calls of a container are those of its
members at their places (`Members.paths_placed`).
-/

namespace Teres.Tools.Json

open Bld (Str)

/-- A member at its place: the slice of its name, and where its value begins. -/
structure Entry where
  name : Str
  slice : ℕ × ℕ
  value : Value
  start : ℕ

/-- A member without its place. -/
abbrev Entry.named (x : Entry) : Str × Value := (x.name, x.value)

/-- The calls of a member in slot `e`. -/
def Entry.paths (front : List Core) (e : ℕ) (x : Entry) : List (List Core) :=
  x.value.paths front x.slice e x.start

/-- The members at offset `i` that are seen. -/
def Members.placed (i : ℕ) : Members → List Entry
  | .nil _ => []
  | .last head value post =>
    if value.lost post then [] else [⟨head.label, head.slice i, value, i + head.text.length⟩]
  | .more head value post rest =>
    ⟨head.label, head.slice i, value, i + head.text.length⟩ ::
      rest.placed (i + head.text.length + value.text.length + post.length + 1)

theorem Members.named_placed (members : Members) (i : ℕ) :
    (members.placed i).map Entry.named = members.seen := by
  match members with
  | .nil _ => rfl
  | .last head v post =>
    rw [Members.placed, Members.seen]
    cases v.lost post <;> rfl
  | .more head v post rest =>
    rw [Members.placed, Members.seen, List.map_cons, rest.named_placed]

theorem Members.paths_placed (members : Members) (front : List Core) (e i : ℕ) :
    members.paths front e i = (members.placed i).flatMap (Entry.paths front e) := by
  match members with
  | .nil _ => rfl
  | .last head v post =>
    rw [Members.paths, Members.placed]
    cases v.lost post with
    | true => rfl
    | false => exact (List.append_nil _).symm
  | .more head v post rest =>
    rw [Members.paths, Members.placed, List.flatMap_cons, rest.paths_placed]
    rfl

/-- A text at offset `i` of a buffer, without a NUL. -/
structure Lies (buf : List UInt8) (i : ℕ) (s : List UInt8) : Prop where
  here : s <+: buf.drop i
  noNul : 0 ∉ s

theorem Lies.left {buf : List UInt8} {i : ℕ} {a s : List UInt8} (lies : Lies buf i (a ++ s)) :
    Lies buf i a where
  here := (List.prefix_append a s).trans lies.here
  noNul mem := lies.noNul (List.mem_append_left s mem)

theorem Lies.right {buf : List UInt8} {i : ℕ} {a s : List UInt8} (lies : Lies buf i (a ++ s)) :
    Lies buf (i + a.length) s where
  here := by
    obtain ⟨rest, eq⟩ := lies.here
    rw [← List.drop_drop, ← eq, List.append_assoc, List.drop_left]
    exact List.prefix_append s rest
  noNul mem := lies.noNul (List.mem_append_right a mem)

/-- A member that lies at its place. -/
structure Entry.In (buf : List UInt8) (x : Entry) : Prop where
  name : ∃ start, Lies buf start x.name ∧ (x.slice = (start, start + x.name.length) ∨
    x.name = [] ∧ x.slice = (0, 0))
  value : Lies buf x.start x.value.text

theorem Head.label_lies {head : Head} {buf : List UInt8} {i : ℕ} (lies : Lies buf i head.text) :
    ∃ start, Lies buf start head.label ∧ (head.slice i = (start, start + head.label.length) ∨
      head.label = [] ∧ head.slice i = (0, 0)) := by
  obtain ⟨pre, name⟩ := head
  cases name with
  | none => exact ⟨i, ⟨List.nil_prefix, List.not_mem_nil⟩, .inr ⟨rfl, rfl⟩⟩
  | some n =>
    have inner : Lies buf (i + pre.length) ([quote] ++ (n.body ++ (quote :: (n.before ++
      0x3A :: n.after)))) := lies.right
    exact ⟨_, inner.right.left, .inl rfl⟩

theorem Members.placed_in {members : Members} {buf : List UInt8} {i : ℕ}
    (lies : Lies buf i members.text) : ∀ x ∈ members.placed i, x.In buf := by
  match members with
  | .nil _ => exact fun _ mem => absurd mem List.not_mem_nil
  | .last head v post =>
    rw [Members.placed]
    intro x mem
    split at mem
    · exact absurd mem List.not_mem_nil
    · obtain rfl := List.mem_singleton.1 mem
      exact ⟨Head.label_lies lies.left, lies.right.left⟩
  | .more head v post rest =>
    intro x mem
    rcases List.mem_cons.1 mem with rfl | later
    · exact ⟨Head.label_lies lies.left, lies.right.left⟩
    · have behind : Lies buf (i + head.text.length + v.text.length + post.length + 1) rest.text :=
        Lies.right (a := [0x2C]) lies.right.right.right
      exact rest.placed_in behind x later

/-- What is seen is there. -/
theorem Members.seen_sublist (members : Members) : members.seen.Sublist members.entries := by
  match members with
  | .nil _ => exact List.Sublist.refl _
  | .last head v post =>
    rw [Members.seen, Members.entries]
    split
    · exact List.nil_sublist _
    · exact List.Sublist.refl _
  | .more head v post rest => exact rest.seen_sublist.cons_cons _

theorem Members.placed_seen {members : Members} {i : ℕ} {x : Entry} (mem : x ∈ members.placed i) :
    x.named ∈ members.seen := by
  rw [← members.named_placed i]
  exact List.mem_map_of_mem mem

/-- The members of a container of the grammar. -/
theorem Members.WellFormed.entries {lexicon : Lexicon} {bare brace : Bool} {members : Members}
    (wf : members.WellFormed lexicon bare brace) :
    ∀ entry ∈ members.entries,
      entry.2.WellFormed lexicon bare ∧ (brace = false → entry.1 = []) := by
  have label {head : Head} (wf : head.WellFormed lexicon brace) :
      brace = false → head.label = [] := by
    rintro rfl
    obtain ⟨pre, name⟩ := head
    cases name with
    | none => rfl
    | some n => exact absurd wf.2.1 Bool.false_ne_true
  match members with
  | .nil _ => exact fun _ mem => absurd mem List.not_mem_nil
  | .last head v post =>
    intro entry mem
    obtain rfl := List.mem_singleton.1 mem
    exact ⟨wf.2.2.1, label wf.1⟩
  | .more head v post rest =>
    intro entry mem
    rcases List.mem_cons.1 mem with rfl | later
    · exact ⟨wf.2.2.1, label wf.1⟩
    · exact Members.WellFormed.entries wf.2.2.2.2 entry later

/-! ## Calls -/

/-- A call in the last of its slots. -/
def Own (path : List Core) : Prop := ∃ front x, path = front ++ [x] ∧ x.1 = front.length

theorem own_core (v : Value) (front : List Core) (name : ℕ × ℕ) (i : ℕ) :
    Own (front ++ [v.core name front.length i]) := by
  refine ⟨front, _, rfl, ?_⟩
  cases v <;> rfl

mutual

/-- The calls of a value are in its slot or above. -/
theorem Value.paths_own : ∀ (v : Value) (front : List Core) (name : ℕ × ℕ) (i : ℕ),
    ∀ path ∈ v.paths front name front.length i,
      (front ++ [v.core name front.length i]) <+: path ∧ Own path
  | .scalar type l, front, name, i, path, mem => by
    obtain rfl := List.mem_singleton.1 mem
    exact ⟨List.prefix_refl _, own_core _ _ _ _⟩
  | .string body, front, name, i, path, mem => by
    obtain rfl := List.mem_singleton.1 mem
    exact ⟨List.prefix_refl _, own_core _ _ _ _⟩
  | .node brace members, front, name, i, path, mem => by
    rcases List.mem_append.1 mem with inside | own
    · have length : front.length + 1 =
          (front ++ [(Value.node brace members).core name front.length i]).length := by
        rw [List.length_append]
        rfl
      rw [length] at inside
      exact members.paths_own _ _ path inside
    · obtain rfl := List.mem_singleton.1 own
      exact ⟨List.prefix_refl _, own_core _ _ _ _⟩

/-- The same of the members of a container. -/
theorem Members.paths_own : ∀ (members : Members) (front : List Core) (i : ℕ),
    ∀ path ∈ members.paths front front.length i, front <+: path ∧ Own path
  | .nil _, _, _, _, mem => absurd mem List.not_mem_nil
  | .last head v post, front, i, path, mem => by
    rw [Members.paths] at mem
    split at mem
    · exact absurd mem List.not_mem_nil
    · obtain ⟨prefix_, own⟩ := v.paths_own front _ _ path mem
      exact ⟨(List.prefix_append front _).trans prefix_, own⟩
  | .more head v post rest, front, i, path, mem => by
    rcases List.mem_append.1 mem with first | later
    · obtain ⟨prefix_, own⟩ := v.paths_own front _ _ path first
      exact ⟨(List.prefix_append front _).trans prefix_, own⟩
    · exact rest.paths_own front _ path later

end

theorem Value.paths_ne_nil (v : Value) (front : List Core) (name : ℕ × ℕ) (e i : ℕ) :
    v.paths front name e i ≠ [] := by
  cases v with
  | node => exact List.append_ne_nil_of_right_ne_nil _ (List.cons_ne_nil _ _)
  | _ => exact List.cons_ne_nil _ _

/-- There are calls for members just where some member is seen. -/
theorem Members.paths_eq_nil {members : Members} {front : List Core} {e i : ℕ} :
    members.paths front e i = [] ↔ members.seen = [] := by
  rw [members.paths_placed, ← members.named_placed i, List.map_eq_nil_iff]
  constructor
  · intro none
    refine List.eq_nil_iff_forall_not_mem.2 fun x mem => ?_
    exact x.value.paths_ne_nil _ _ _ _ (List.flatMap_eq_nil_iff.1 none x mem)
  · intro none
    rw [none]
    rfl

end Teres.Tools.Json
