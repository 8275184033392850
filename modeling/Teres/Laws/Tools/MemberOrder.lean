import Teres.Laws.Tools.Handed

/-!
# The order of members

What a task says is read off its members by name (`reading`), so it does not depend on their order
(`TaskReordered.reading_eq`). What is gathered does, in two ways: a visit loses an array or an
object that ends its container, and a string of 249 bytes ends the program unless a member before
it makes it of no account. Where both orders lose the same members and come to the same end, members
may stand in any order (`gathered_reordered`).
-/

namespace Teres.Tools.Tasks

open Json (Tree Value Members Lexicon)
open Bld (Str ascii maxChildren)

/-! ## What tasks say -/

/-- What a task says. -/
structure Reading where
  label : Str
  command : Str
  args : List Str
  dependsOn : List Str
  cwd : Str
deriving DecidableEq

/-- What items say. The command and the arguments under `"linux"` count if there are any, else the
generic ones. -/
def reading (its : List Item) : Reading where
  label := (labels its).getLast?.getD []
  command := (linuxCommands its).head?.getD ((commands its).head?.getD [])
  args := if linuxArgs its = [] then args its else linuxArgs its
  dependsOn := dependencies its
  cwd := (directories its).getLast?.getD []

/-- What the tasks say of which a visit comes to an item, and to nothing else. -/
def readings (root : Members) : List Reading := (tasksItems Members.seen root).map reading

/-- A reading in the fields of a task. -/
def Reading.built (r : Reading) : Bld.Task :=
  Fields.built ⟨r.label, r.command, r.cwd, r.dependsOn, r.args, false⟩

/-- What a task says as it stands in its fields. -/
def readBack (t : Bld.Task) : Reading where
  label := t.label
  command := t.command
  args := t.args.takeWhile (· ≠ [])
  dependsOn := t.dependsOn.takeWhile (· ≠ [])
  cwd := t.cwd

/-- Items of a task object with no empty string. -/
structure Proper (its : List Item) : Prop where
  declared : Declared its
  commands : (commands its).length ≤ 1
  linuxCommands : (linuxCommands its).length ≤ 1
  filled : ∀ item ∈ its, item.text ≠ []

section Proper

variable {its its' : List Item}

theorem Proper.nil : Proper [] where
  declared :=
    ⟨fun _ mem => absurd mem List.not_mem_nil, Nat.zero_le _, Nat.zero_le _, Nat.zero_le _⟩
  commands := Nat.zero_le _
  linuxCommands := Nat.zero_le _
  filled _ mem := absurd mem List.not_mem_nil

theorem Proper.sublist (proper : Proper its) (sub : its'.Sublist its) : Proper its' where
  declared := proper.declared.sublist sub
  commands := Nat.le_trans (sub.filterMap _).length_le proper.commands
  linuxCommands := Nat.le_trans (sub.filterMap _).length_le proper.linuxCommands
  filled item mem := proper.filled item (sub.subset mem)

/-- No string of a kind is empty. -/
theorem Proper.kind (proper : Proper its) {p : Item → Option Str}
    (text : ∀ item s, p item = some s → s = item.text) : [] ∉ its.filterMap p := by
  intro mem
  obtain ⟨item, within, some_⟩ := List.mem_filterMap.1 mem
  exact proper.filled item within (text item [] some_).symm

theorem Proper.args (proper : Proper its) : [] ∉ (reading its).args := by
  unfold reading
  dsimp only
  split
  · exact proper.kind fun item s => by cases item <;> simp [Item.text, eq_comm]
  · exact proper.kind fun item s => by cases item <;> simp [Item.text, eq_comm]

theorem Proper.dependsOn (proper : Proper its) : [] ∉ (reading its).dependsOn :=
  proper.kind fun item s => by cases item <;> simp [Item.text, eq_comm]

/-- **What items make is what they say.** -/
theorem Proper.built (proper : Proper its) : (made its).built = (reading its).built := by
  have overridden : ¬Overridden its := by
    rintro ⟨_, _, sub⟩
    exact proper.filled _ (sub.subset List.mem_cons_self) rfl
  have commands := (command_eq_iff proper.commands proper.linuxCommands).2 overridden
  have args : (made its).args = (reading its).args := filled_eq_self.2 proper.args
  have dependsOn : (made its).dependsOn = (reading its).dependsOn :=
    filled_eq_self.2 proper.dependsOn
  unfold Reading.built Fields.built
  rw [args, dependsOn]
  change Bld.Task.mk _ (command its) _ _ _ = _
  rw [commands]
  rfl

theorem padded_takeWhile {l : List Str} (tidy : Tidy l) :
    ((List.finRange (maxChildren + 1)).map fun slot => l.getD slot.val []).takeWhile (· ≠ []) =
      l := by
  have room := tidy.room
  have all : ∀ s ∈ l, decide (s ≠ []) = true := fun s mem =>
    decide_eq_true fun empty => tidy.filled (empty ▸ mem)
  rw [padded_eq tidy, List.takeWhile_append_of_pos all]
  obtain ⟨n, more⟩ := Nat.exists_eq_succ_of_ne_zero (Nat.sub_ne_zero_of_lt (Nat.lt_succ_of_le room))
  rw [more, List.replicate_succ]
  exact List.append_nil l

/-- A task says what its items say. -/
theorem Proper.readBack (proper : Proper its) : readBack (reading its).built = reading its := by
  have args : Tidy (reading its).args := by
    refine ⟨?_, proper.args⟩
    unfold reading
    dsimp only
    split
    · exact proper.declared.args
    · exact proper.declared.linuxArgs
  have dependsOn : Tidy (reading its).dependsOn := ⟨proper.declared.dependencies, proper.dependsOn⟩
  unfold Tasks.readBack Reading.built Fields.built
  dsimp only
  rw [padded_takeWhile args, padded_takeWhile dependsOn]

end Proper

/-! ## What is gathered -/

/-- A tasks.json with strings that are not empty, within the declared limits. -/
structure Regular (root : Members) : Prop where
  typed : TasksJson root
  declared : ∀ task ∈ taskObjects root, Declared (items Members.entries task)
  filled : ∀ task ∈ taskObjects root, ∀ item ∈ items Members.entries task, item.text ≠ []

/-- Tasks whose strings are all copied, or need not be. -/
def Copied (root : Members) : Prop := ∀ its ∈ tasksItems Members.seen root, Copyable its

section Gathered

variable {root : Members}

theorem Regular.proper (regular : Regular root) {task : Members} (mem : task ∈ taskObjects root) :
    Proper (items Members.entries task) := by
  have few := (regular.typed.object task mem).few
  exact ⟨regular.declared task mem, few.1, few.2, regular.filled task mem⟩

theorem Regular.seen (regular : Regular root) :
    ∀ its ∈ tasksItems Members.seen root, Proper its := by
  intro its mem
  rcases tasksItems_seen mem with rfl | ⟨task, object, rfl⟩
  · exact .nil
  · exact (regular.proper object).sublist (items_sublist task)

/-- **The tasks gathered say what is seen of them**, and the program exits where a string cannot be
copied. -/
theorem gathered_readings {lexicon : Lexicon} {space : List UInt8}
    (readable : Readable lexicon space root) (regular : Regular root) (rest : List UInt8)
    (memory : Tree) {fuel : ℕ} (enough : root.text.length + 2 ≤ fuel) :
    (Copied root → Build.gathered .linux fuel memory
      (space ++ ((Value.node true root).text ++ rest)) =
        .ok ((readings root).map Reading.built)) ∧
    (¬Copied root → Build.gathered .linux fuel memory
      (space ++ ((Value.node true root).text ++ rest)) = .error (.exit (-10) [])) := by
  have each := mapM_eq_some fun its mem f =>
    gatherAll_eq_some (regular.seen its mem).declared (regular.seen its mem).commands
      (regular.seen its mem).linuxCommands
  rw [gathered_document readable.blank readable.wf readable.deep readable.noNul regular.typed
    (declared_seen regular.declared) rest memory enough]
  unfold gatheredTasks
  constructor
  · intro copied
    have same : (tasksItems Members.seen root).map (Fields.built ∘ made) =
        (tasksItems Members.seen root).map (Reading.built ∘ reading) :=
      List.map_congr_left fun its mem => (regular.seen its mem).built
    rw [(each _).2 ⟨copied, rfl⟩, Option.map_some]
    dsimp only
    rw [List.map_map, same, readings, List.map_map]
  · intro stops
    cases all : (tasksItems Members.seen root).mapM Fields.empty.gatherAll with
    | none => rfl
    | some fs => exact absurd ((each fs).1 all).1 stops

/-- Tasks say what their items say. -/
theorem Regular.readBack (regular : Regular root) :
    (readings root).map (Tasks.readBack ∘ Reading.built) = readings root := by
  have same : ∀ its ∈ tasksItems Members.seen root,
      ((Tasks.readBack ∘ Reading.built) ∘ reading) its = reading its := fun its mem =>
    (regular.seen its mem).readBack
  rw [readings, List.map_map, List.map_congr_left same]

end Gathered

/-! ## Members in another order -/

section Reordered

variable (parts : Members → List (Str × Value))

/-- A member in another document: as it is, except that the members of a `"linux"` object may stand
in another order. -/
def EntryReordered (name : Str) (v w : Value) : Prop :=
  v = w ∨ name = ascii "linux" ∧ ∃ members members', v = .node true members ∧
    w = .node true members' ∧ (parts members).Perm (parts members')

/-- A task object with its members in another order. -/
def TaskReordered (task task' : Members) : Prop :=
  ∃ entries, (parts task).Perm entries ∧
    List.Forall₂ (fun x y => x.1 = y.1 ∧ EntryReordered parts x.1 x.2 y.2) entries (parts task')

/-- An element of `"tasks"`: as it is, or a task object with its members in another order. -/
def ElementReordered (v w : Value) : Prop :=
  v = w ∨ ∃ task task', v = .node true task ∧ w = .node true task' ∧ TaskReordered parts task task'

/-- A member of the root: as it is, or the array of the tasks. -/
def RootReordered (name : Str) (v w : Value) : Prop :=
  v = w ∨ name = ascii "tasks" ∧ ∃ members members', v = .node false members ∧
    w = .node false members' ∧
    List.Forall₂ (fun x y => x.1 = y.1 ∧ ElementReordered parts x.2 y.2) (parts members)
      (parts members')

/-- **Two documents that differ in the order of members alone**, in task objects and in their
`"linux"` objects, and in white space: all their members, or those that are seen. -/
def Reordered (root root' : Members) : Prop :=
  List.Forall₂ (fun x y => x.1 = y.1 ∧ RootReordered parts x.1 x.2 y.2) (parts root) (parts root')

variable {parts} {task task' root root' : Members}

theorem forall₂_mem_right {α β : Type} {R : α → β → Prop} {l : List α} {m : List β}
    (related : List.Forall₂ R l m) {b : β} (mem : b ∈ m) : ∃ a ∈ l, R a b := by
  induction related with
  | nil => exact absurd mem List.not_mem_nil
  | @cons a b' l m here _ ih =>
    rcases List.mem_cons.1 mem with rfl | later
    · exact ⟨a, List.mem_cons_self, here⟩
    · obtain ⟨a', within, there⟩ := ih later
      exact ⟨a', List.mem_cons_of_mem a within, there⟩

/-- Under any other name than `"linux"` there is no change. -/
theorem EntryReordered.same {name : Str} {v w : Value}
    (reordered : EntryReordered parts name v w) (other : name ≠ ascii "linux") : v = w := by
  rcases reordered with same | ⟨linux, _⟩
  · exact same
  · exact absurd linux other

theorem EntryReordered.members {v w : Value}
    (reordered : EntryReordered parts (ascii "linux") v w) :
    (v.members parts).Perm (w.members parts) := by
  rcases reordered with rfl | ⟨_, members, members', rfl, rfl, perm⟩
  · exact .refl _
  · exact perm

/-- A member gives the same items, in another order. -/
theorem EntryReordered.items_perm {name : Str} {v w : Value}
    (reordered : EntryReordered parts name v w) :
    (entryItems parts (name, v)).Perm (entryItems parts (name, w)) := by
  rcases reordered with rfl | ⟨rfl, members, members', rfl, rfl, perm⟩
  · exact .refl _
  · exact perm.flatMap_right _

/-- **The items of a task object** are the same, in another order. -/
theorem TaskReordered.items_perm (reordered : TaskReordered parts task task') :
    (items parts task).Perm (items parts task') := by
  obtain ⟨entries, perm, related⟩ := reordered
  refine (perm.flatMap_right _).trans ?_
  clear perm
  unfold items
  generalize parts task' = entries' at related
  induction related with
  | nil => exact .refl _
  | @cons x y l m here _ ih =>
    obtain ⟨name, v⟩ := x
    obtain ⟨name', w⟩ := y
    obtain ⟨same, reordered⟩ := here
    dsimp only at same reordered
    subst same
    rw [List.flatMap_cons, List.flatMap_cons]
    exact reordered.items_perm.append ih

theorem TaskReordered.names (reordered : TaskReordered parts task task') :
    ((parts task).map Prod.fst).Perm ((parts task').map Prod.fst) := by
  obtain ⟨entries, perm, related⟩ := reordered
  rw [← Named.names_forall₂ related]
  exact perm.map Prod.fst

/-- A name has the same value in both, but for the order under `"linux"`. -/
theorem TaskReordered.lookup (reordered : TaskReordered parts task task')
    (distinct : ((parts task).map Prod.fst).Nodup) (name : Str) :
    Option.Rel (EntryReordered parts name) ((parts task).lookup name)
      ((parts task').lookup name) := by
  obtain ⟨entries, perm, related⟩ := reordered
  rw [Named.lookup_perm perm distinct]
  exact Named.lookup_forall₂ related name

theorem TaskReordered.lookup_eq (reordered : TaskReordered parts task task')
    (distinct : ((parts task).map Prod.fst).Nodup) {name : Str} (other : name ≠ ascii "linux") :
    (parts task).lookup name = (parts task').lookup name := by
  have related := reordered.lookup distinct name
  generalize (parts task).lookup name = v, (parts task').lookup name = w at related
  cases related with
  | none => rfl
  | some same => rw [same.same other]

theorem TaskReordered.linux (reordered : TaskReordered parts task task')
    (distinct : ((parts task).map Prod.fst).Nodup) :
    (membersOf parts "linux" (parts task)).Perm (membersOf parts "linux" (parts task')) := by
  have related := reordered.lookup distinct (ascii "linux")
  unfold membersOf
  generalize (parts task).lookup (ascii "linux") = v, (parts task').lookup (ascii "linux") = w
    at related
  cases related with
  | none => exact .refl _
  | some same => exact same.members

theorem EntryReordered.entry {name : Str} {v w : Value}
    (reordered : EntryReordered Members.entries name v w) (entry : TaskEntry (name, v)) :
    TaskEntry (name, w) := by
  rcases reordered with rfl | ⟨rfl, members, members', rfl, rfl, perm⟩
  · exact entry
  · obtain ⟨distinct, linux⟩ := entry.linux rfl members rfl
    have names : ascii "linux" ≠ ascii "label" ∧ ascii "linux" ≠ ascii "command" ∧
        ascii "linux" ≠ ascii "args" ∧ ascii "linux" ≠ ascii "dependsOn" ∧
        ascii "linux" ≠ ascii "options" := by decide
    obtain ⟨label, command, args, dependsOn, options⟩ := names
    refine ⟨(absurd · label), (absurd · command), (absurd · args), (absurd · dependsOn), ?_,
      (absurd · options)⟩
    intro _ inner same
    cases same
    exact ⟨(perm.map Prod.fst).nodup_iff.1 distinct, fun e mem => linux e (perm.mem_iff.2 mem)⟩

/-- A task object in another order is a task object. -/
theorem TaskReordered.object (reordered : TaskReordered Members.entries task task')
    (object : TaskObject task) : TaskObject task' := by
  refine ⟨reordered.names.nodup_iff.1 object.distinct, ?_⟩
  obtain ⟨entries, perm, related⟩ := reordered
  intro e mem
  obtain ⟨⟨name, v⟩, within, same, here⟩ := forall₂_mem_right related mem
  obtain ⟨name', w⟩ := e
  dsimp only at same here
  subst same
  exact here.entry (object.entries _ (perm.mem_iff.2 within))

/-- The names in a task object and in its `"linux"` object are distinct. -/
def Distinct (parts : Members → List (Str × Value)) (task : Members) : Prop :=
  ((parts task).map Prod.fst).Nodup ∧ ((membersOf parts "linux" (parts task)).map Prod.fst).Nodup

theorem TaskObject.entries_distinct (object : TaskObject task) : Distinct Members.entries task :=
  ⟨object.distinct, object.linux_distinct⟩

/-- So are the names that are seen. -/
theorem TaskObject.seen_distinct (object : TaskObject task) : Distinct Members.seen task := by
  have distinct := (task.seen_sublist.map Prod.fst).nodup object.distinct
  refine ⟨distinct, ?_⟩
  have inner := object.linux_distinct
  unfold membersOf at inner ⊢
  cases found : task.seen.lookup (ascii "linux") with
  | none => exact List.nodup_nil
  | some v =>
    have mem := task.seen_sublist.subset ((Named.lookup_eq_some distinct).1 found)
    rw [(Named.lookup_eq_some object.distinct).2 mem] at inner
    exact (v.members_sublist.map Prod.fst).nodup inner

/-- **What a task object says** does not depend on the order. -/
theorem TaskReordered.reading_eq (reordered : TaskReordered parts task task')
    (distinct : Distinct parts task) :
    reading (items parts task) = reading (items parts task') := by
  obtain ⟨outer, inner⟩ := distinct
  have outer' := reordered.names.nodup_iff.1 outer
  have linux := reordered.linux outer
  have inner' := (linux.map Prod.fst).nodup_iff.1 inner
  have label : labels (items parts task) = labels (items parts task') := by
    rw [labels_items outer, labels_items outer', stringOf, stringOf,
      reordered.lookup_eq outer (by decide)]
  have command : commands (items parts task) = commands (items parts task') := by
    rw [commands_items outer, commands_items outer', stringOf, stringOf,
      reordered.lookup_eq outer (by decide)]
  have linuxCommand : linuxCommands (items parts task) = linuxCommands (items parts task') := by
    rw [linuxCommands_items outer inner, linuxCommands_items outer' inner', stringOf,
      stringOf, Named.lookup_perm linux inner]
  have arg : args (items parts task) = args (items parts task') := by
    rw [args_items outer, args_items outer', stringsOf, stringsOf,
      reordered.lookup_eq outer (by decide)]
  have linuxArg : linuxArgs (items parts task) = linuxArgs (items parts task') := by
    rw [linuxArgs_items outer inner, linuxArgs_items outer' inner', stringsOf,
      stringsOf, Named.lookup_perm linux inner]
  have dependsOn : dependencies (items parts task) = dependencies (items parts task') := by
    rw [dependencies_items outer, dependencies_items outer', stringsOf, stringsOf,
      reordered.lookup_eq outer (by decide)]
  have cwd : directories (items parts task) = directories (items parts task') := by
    rw [directories_items outer, directories_items outer', reordered.lookup_eq outer (by decide)]
  unfold reading
  rw [label, command, linuxCommand, arg, linuxArg, dependsOn, cwd]

/-! ## Documents in another order -/

theorem TaskReordered.refl (task : Members) : TaskReordered parts task task :=
  ⟨parts task, .refl _, List.forall₂_same.2 fun _ _ => ⟨rfl, .inl rfl⟩⟩

theorem TaskReordered.isEmpty (reordered : TaskReordered parts task task') :
    (parts task).isEmpty = (parts task').isEmpty := by
  obtain ⟨entries, perm, related⟩ := reordered
  have length := perm.length_eq.trans related.length_eq
  rw [Bool.eq_iff_iff, List.isEmpty_iff_length_eq_zero, List.isEmpty_iff_length_eq_zero, length]

/-- **The elements of `"tasks"`** are the same, but for the order in the objects. -/
theorem Reordered.elements_related (reordered : Reordered parts root root') :
    List.Forall₂ (ElementReordered parts) (elements parts root) (elements parts root') := by
  refine List.rel_flatMap reordered fun x y here => ?_
  obtain ⟨name, v⟩ := x
  obtain ⟨name', w⟩ := y
  obtain ⟨same, here⟩ := here
  dsimp only at same here
  subst same
  rcases here with rfl | ⟨rfl, members, members', rfl, rfl, related⟩
  · exact List.forall₂_same.2 fun v _ => .inl rfl
  · dsimp only
    rw [if_pos rfl, if_pos rfl, List.forall₂_map_left_iff, List.forall₂_map_right_iff]
    exact related.imp fun _ _ here => here.2

theorem Reordered.objects_related (reordered : Reordered Members.entries root root') :
    List.Forall₂ (TaskReordered Members.entries) (taskObjects root) (taskObjects root') := by
  refine List.rel_filterMap (fun v w here => ?_) reordered.elements_related
  rcases here with rfl | ⟨task, task', rfl, rfl, here⟩
  · cases taskObject v with
    | none => exact .none
    | some task => exact .some (.refl task)
  · change Option.Rel _ (if task.entries.isEmpty then none else some task)
      (if task'.entries.isEmpty then none else some task')
    rw [here.isEmpty]
    split
    · exact .none
    · exact .some here

/-- **A tasks.json in another order** is one again. -/
theorem Reordered.regular (reordered : Reordered Members.entries root root')
    (regular : Regular root) :
    Regular root' := by
  constructor
  · intro entry mem tasks
    obtain ⟨x, within, same, here⟩ := forall₂_mem_right reordered mem
    obtain ⟨members, node, objects⟩ := regular.typed x within (same.trans tasks)
    rcases here with value | ⟨_, members', members'', node', node'', related⟩
    · exact ⟨members, value.symm.trans node, objects⟩
    · obtain rfl : members = members' := by
        rw [node'] at node
        cases node
        rfl
      refine ⟨members'', node'', fun e mem' task' object => ?_⟩
      obtain ⟨y, within', _, element⟩ := forall₂_mem_right related mem'
      rcases element with value | ⟨task, task'', value, value', here⟩
      · exact objects y within' task' (value.trans object)
      · rw [object] at value'
        cases value'
        exact here.object (objects y within' task value)
  · intro task' mem
    obtain ⟨task, within, here⟩ := forall₂_mem_right reordered.objects_related mem
    exact (regular.declared task within).perm here.items_perm
  · intro task' mem item inside
    obtain ⟨task, within, here⟩ := forall₂_mem_right reordered.objects_related mem
    exact regular.filled task within item (here.items_perm.mem_iff.2 inside)

/-- **What the tasks say** does not depend on the order. -/
theorem Reordered.readings_eq (reordered : Reordered parts root root')
    (distinct : ∀ v ∈ elements parts root, ∀ task, v = .node true task → parts task ≠ [] →
      Distinct parts task) :
    (tasksItems parts root).map reading = (tasksItems parts root').map reading := by
  have tasks : List.Forall₂ (fun its its' => reading its = reading its')
      ((elements parts root).filterMap (elementItems parts))
      ((elements parts root').filterMap (elementItems parts)) := by
    refine List.rel_filterMap (fun v w here => ?_)
      ((List.forall₂_and_left _ _).2 ⟨distinct, reordered.elements_related⟩)
    obtain ⟨object, rfl | ⟨task, task', rfl, rfl, here⟩⟩ := here
    · cases elementItems parts v with
      | none => exact .none
      | some its => exact .some rfl
    · change Option.Rel _
        (if (parts task).isEmpty then none else some (items parts task))
        (if (parts task').isEmpty then none else some (items parts task'))
      rw [← here.isEmpty]
      split
      next => exact .none
      next filled =>
        refine .some (here.reading_eq (object task rfl fun empty => ?_))
        exact filled (List.isEmpty_iff.2 empty)
  have same : ((elements parts root).filterMap (elementItems parts)).map reading =
      ((elements parts root').filterMap (elementItems parts)).map reading := by
    rw [← List.forall₂_eq_eq_eq, List.forall₂_map_left_iff, List.forall₂_map_right_iff]
    exact tasks
  unfold tasksItems
  generalize (elements parts root).filterMap (elementItems parts) = l,
    (elements parts root').filterMap (elementItems parts) = l' at tasks same
  cases tasks with
  | nil => rfl
  | cons first rest => exact same

theorem Reordered.roomy (reordered : Reordered Members.entries root root') (typed : TasksJson root)
    (roomy : root.Roomy) (roomy' : root'.Roomy) : readings root = readings root' := by
  unfold readings
  rw [tasksItems_roomy roomy, tasksItems_roomy roomy']
  refine reordered.readings_eq fun v mem task node filled => ?_
  exact (typed.object task (List.mem_filterMap.2
    ⟨v, mem, taskObject_eq_some.2 ⟨node, filled⟩⟩)).entries_distinct

theorem Reordered.seen (reordered : Reordered Members.seen root root') (typed : TasksJson root) :
    readings root = readings root' := by
  refine reordered.readings_eq fun v mem task node filled => ?_
  have some : task.entries ≠ [] := fun none =>
    filled (List.sublist_nil.1 (none ▸ task.seen_sublist))
  exact (typed.object task (List.mem_filterMap.2
    ⟨v, elements_seen mem, taskObject_eq_some.2 ⟨node, some⟩⟩)).seen_distinct

theorem copied_of_fits
    (fits : ∀ task ∈ taskObjects root, ∀ item ∈ items Members.entries task, Fits item.text) :
    Copied root := by
  intro its mem before item behind eq
  rcases tasksItems_seen mem with rfl | ⟨task, object, rfl⟩
  · exact absurd eq.symm (List.append_ne_nil_of_right_ne_nil _ (List.cons_ne_nil _ _))
  · have inside : item ∈ items Members.seen task := by simp [eq]
    exact .inl (fits task object item ((items_sublist task).subset inside))

/-- **Two documents that lose alike**: the same members are lost in both, and a string that is too
long ends the program in both or in neither. -/
structure LoseAlike (root root' : Members) : Prop where
  lost : Reordered Members.seen root root'
  long : Copied root ↔ Copied root'

/-- **The order of members does not matter** where the two orders lose alike; so it does not matter
where no member is lost and no string is too long to be copied. If the program exits in one order
alone, it does. What is gathered is what the tasks say, with the command and the arguments under
`"linux"` in front of the generic ones. -/
theorem gathered_reordered {lexicon lexicon' : Lexicon} {space space' : List UInt8}
    (readable : Readable lexicon space root) (readable' : Readable lexicon' space' root')
    (regular : Regular root) (reordered : Reordered Members.entries root root')
    (rest rest' : List UInt8) (memory memory' : Tree) {fuel fuel' : ℕ}
    (enough : root.text.length + 2 ≤ fuel) (enough' : root'.text.length + 2 ≤ fuel') :
    (LoseAlike root root' →
      Build.gathered .linux fuel memory (space ++ ((Value.node true root).text ++ rest)) =
        Build.gathered .linux fuel' memory' (space' ++ ((Value.node true root').text ++ rest'))) ∧
    (root.Roomy → root'.Roomy →
      (∀ task ∈ taskObjects root, ∀ item ∈ items Members.entries task, Fits item.text) →
      Build.gathered .linux fuel memory (space ++ ((Value.node true root).text ++ rest)) =
        Build.gathered .linux fuel' memory' (space' ++ ((Value.node true root').text ++ rest'))) ∧
    (Build.gathered .linux fuel memory (space ++ ((Value.node true root).text ++ rest)) =
        Build.gathered .linux fuel' memory' (space' ++ ((Value.node true root').text ++ rest')) →
      (Copied root ↔ Copied root')) ∧
    ∀ tasks, Build.gathered .linux fuel memory
        (space ++ ((Value.node true root).text ++ rest)) = .ok tasks →
      tasks = (readings root).map Reading.built := by
  have regular' := reordered.regular regular
  obtain ⟨goes, stops⟩ := gathered_readings readable regular rest memory enough
  obtain ⟨goes', stops'⟩ := gathered_readings readable' regular' rest' memory' enough'
  have equal (long : Copied root ↔ Copied root') (said : readings root = readings root') :
      Build.gathered .linux fuel memory (space ++ ((Value.node true root).text ++ rest)) =
        Build.gathered .linux fuel' memory'
          (space' ++ ((Value.node true root').text ++ rest')) := by
    by_cases copied : Copied root
    · rw [goes copied, goes' (long.1 copied), said]
    · rw [stops copied, stops' fun copied' => copied (long.2 copied')]
  refine ⟨fun alike => equal alike.long (alike.lost.seen regular.typed),
    fun roomy roomy' fits => ?_, fun same => ⟨fun copied => ?_, fun copied' => ?_⟩,
    fun tasks gathered => ?_⟩
  · have copied' : Copied root' := by
      refine copied_of_fits fun task' mem item inside => ?_
      obtain ⟨task, within, here⟩ := forall₂_mem_right reordered.objects_related mem
      exact fits task within item (here.items_perm.mem_iff.2 inside)
    exact equal (iff_of_true (copied_of_fits fits) copied')
      (reordered.roomy regular.typed roomy roomy')
  · by_contra other
    rw [goes copied, stops' other] at same
    cases same
  · by_contra other
    rw [stops other, goes' copied'] at same
    cases same
  · by_cases copied : Copied root
    · exact (Except.ok.inj ((goes copied).symm.trans gathered)).symm
    · rw [stops copied] at gathered
      cases gathered

end Reordered

/-! ## A file in two orders -/

/-- The inside of `{"args":[…],"label":"x"}`. -/
def turned (l : List Str) : Members :=
  .more ⟨[], some ⟨ascii "args", [], []⟩⟩ (.node false (strings l)) []
    (.last ⟨[], some ⟨ascii "label", [], []⟩⟩ (.string (ascii "x")) [])

theorem turned_wellFormed {l : List Str} (quoted : ∀ s ∈ l, Json.Quoted s) :
    (turned l).WellFormed Lexicon.full false true := by
  have empty : Json.Blank [] := fun _ h => nomatch h
  have names : Json.Quoted (ascii "label") ∧ Json.Quoted (ascii "args") ∧
      Json.Quoted (ascii "x") := by decide
  obtain ⟨label, args, x⟩ := names
  refine ⟨⟨empty, rfl, args, empty, empty⟩, (nomatch ·), strings_wellFormed quoted, empty, ?_⟩
  exact ⟨⟨empty, rfl, label, empty, empty⟩, (nomatch ·), x, empty⟩

theorem turned_task (parts : Members → List (Str × Value)) {l : List Str} {post : List UInt8}
    (first : parts (oneTask l post) = (oneTask l post).entries)
    (second : parts (turned l) = (turned l).entries) :
    TaskReordered parts (oneTask l post) (turned l) := by
  refine ⟨(turned l).entries, ?_, ?_⟩
  · rw [first]
    exact .swap _ _ _
  · rw [second]
    exact List.forall₂_same.2 fun x _ => ⟨rfl, .inl rfl⟩

theorem file_reordered {task task' : Members}
    (reordered : TaskReordered Members.entries task task') :
    Reordered Members.entries (file task) (file task') :=
  .cons ⟨rfl, .inr ⟨rfl, _, _, rfl, rfl, .cons ⟨rfl, .inr ⟨_, _, rfl, rfl, reordered⟩⟩ .nil⟩⟩ .nil

theorem file_lost {task task' : Members} (reordered : TaskReordered Members.seen task task') :
    Reordered Members.seen (file task) (file task') :=
  .cons ⟨rfl, .inr ⟨rfl, _, _, rfl, rfl, .cons ⟨rfl, .inr ⟨_, _, rfl, rfl, reordered⟩⟩ .nil⟩⟩ .nil

theorem turned_reordered (l : List Str) (post : List UInt8) :
    Reordered Members.entries (file (oneTask l post)) (file (turned l)) :=
  file_reordered (turned_task Members.entries rfl rfl)

theorem file_regular {l : List Str} (post : List UInt8)
    (declared : Declared (items Members.entries (oneTask l post)))
    (filled : ∀ item ∈ items Members.entries (oneTask l post), item.text ≠ []) :
    Regular (file (oneTask l post)) := by
  refine ⟨file_typed (oneTask_object _ _), fun task mem => ?_, fun task mem => ?_⟩
  · obtain rfl := List.mem_singleton.1 mem
    exact declared
  · obtain rfl := List.mem_singleton.1 mem
    exact filled

/-- `"args"` may stand in front of `"label"` or behind it. -/
theorem gathered_reordered_turned :
    Build.gathered .linux 99 Json.zeroed
        ([] ++ ((Value.node true (file (oneTask [ascii "a", ascii "b"] [0x20]))).text ++ [])) =
      Build.gathered .linux 99 Json.zeroed
        ([] ++ ((Value.node true (file (turned [ascii "a", ascii "b"]))).text ++ [])) := by
  have quoted : ∀ s ∈ [ascii "a", ascii "b"], Json.Quoted s := by decide
  have empty : Json.Blank [] := fun _ h => nomatch h
  have readable : Readable Lexicon.full [] (file (oneTask [ascii "a", ascii "b"] [0x20])) :=
    ⟨empty, file_wellFormed (oneTask_wellFormed quoted (by decide)), by decide, by decide⟩
  have readable' : Readable Lexicon.full [] (file (turned [ascii "a", ascii "b"])) :=
    ⟨empty, file_wellFormed (turned_wellFormed quoted), by decide, by decide⟩
  have regular : Regular (file (oneTask [ascii "a", ascii "b"] [0x20])) :=
    file_regular _ ⟨by decide, by decide, by decide, by decide⟩ (by decide)
  have alike : LoseAlike (file (oneTask [ascii "a", ascii "b"] [0x20]))
      (file (turned [ascii "a", ascii "b"])) := by
    refine ⟨file_lost (turned_task Members.seen rfl rfl), iff_of_true ?_ ?_⟩
    · refine copied_of_fits fun task mem => ?_
      obtain rfl := List.mem_singleton.1 mem
      decide
    · refine copied_of_fits fun task mem => ?_
      obtain rfl := List.mem_singleton.1 mem
      decide
  exact (gathered_reordered readable readable' regular (turned_reordered _ _) [] []
    Json.zeroed Json.zeroed (by decide) (by decide)).1 alike

/-- Right in front of the closing bracket `"args"` is lost. -/
theorem last_args_lost :
    (Build.gathered .linux 99 Json.zeroed
        (Value.node true (file (oneTask [ascii "a"] []))).text).map
      (List.map fun t => handed t.argv) =
        .ok [[ascii "/usr/bin/env", ascii "-S", []]] ∧
    (Build.gathered .linux 99 Json.zeroed (Value.node true (file (turned [ascii "a"]))).text).map
      (List.map fun t => handed t.argv) =
        .ok [[ascii "/usr/bin/env", ascii "-S", [], ascii "a"]] ∧
    ¬∀ (lexicon : Lexicon) (space : List UInt8) (root root' : Members),
      Readable lexicon space root → Readable lexicon space root' → Regular root →
      Reordered Members.entries root root' → ∀ (rest : List UInt8) (memory : Tree) (fuel : ℕ),
        root.text.length + 2 ≤ fuel → root'.text.length + 2 ≤ fuel →
          Build.gathered .linux fuel memory (space ++ ((Value.node true root).text ++ rest)) =
            Build.gathered .linux fuel memory
              (space ++ ((Value.node true root').text ++ rest)) := by
  have lost : (Build.gathered .linux 99 Json.zeroed
      (Value.node true (file (oneTask [ascii "a"] []))).text).map
        (List.map fun t => handed t.argv) =
          .ok [[ascii "/usr/bin/env", ascii "-S", []]] := by
    decide +kernel
  have kept : (Build.gathered .linux 99 Json.zeroed
      (Value.node true (file (turned [ascii "a"]))).text).map
        (List.map fun t => handed t.argv) =
          .ok [[ascii "/usr/bin/env", ascii "-S", [], ascii "a"]] := by
    decide +kernel
  refine ⟨lost, kept, fun all => ?_⟩
  have quoted : ∀ s ∈ [ascii "a"], Json.Quoted s := by decide
  have empty : Json.Blank [] := fun _ h => nomatch h
  have same := all Lexicon.full [] (file (oneTask [ascii "a"] [])) (file (turned [ascii "a"]))
    ⟨empty, file_wellFormed (oneTask_wellFormed quoted empty), by decide, by decide⟩
    ⟨empty, file_wellFormed (turned_wellFormed quoted), by decide, by decide⟩
    (file_regular _ ⟨by decide, by decide, by decide, by decide⟩ (by decide))
    (turned_reordered _ _) [] Json.zeroed 99 (by decide) (by decide)
  rw [List.append_nil, List.append_nil, List.nil_append, List.nil_append] at same
  rw [same, kept] at lost
  exact absurd lost (by decide)

end Teres.Tools.Tasks
