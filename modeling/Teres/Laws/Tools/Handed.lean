import Teres.Laws.Tools.Gathered
import Teres.Laws.Tools.TaskObjects

/-!
# What is handed to a command

`bld__exec` ends the argument vector at the first free slot, and `bld__args` leaves a slot free for
an empty string. So the arguments are handed over complete just where none of them is empty
(`runs_iff`), and a tasks.json is run as it says just where this holds of each of its tasks, and
there is a task for each (`handed_iff`).
-/

namespace Teres.Tools.Tasks

open Json (Tree Value Members Lexicon)
open Bld (Str ascii maxChildren)

/-! ## The argument vector -/

/-- The strings of an argument vector, up to the first null pointer. -/
def handed (argv : List (Option Str)) : List Str := (argv.takeWhile Option.isSome).filterMap id

theorem handed_null (l : List Str) (rest : List (Option Str)) :
    handed (l.map some ++ none :: rest) = l := by
  unfold handed
  induction l with
  | nil => rfl
  | cons s l ih =>
    rw [List.map_cons, List.cons_append, List.takeWhile_cons_of_pos rfl]
    exact congrArg (s :: ·) ih

/-- An argument, if its slot is not free. -/
def slotArg : Option Str → Option Str
  | some (c :: p) => some (c :: p)
  | _ => none

theorem argv_eq (t : Bld.Task) : t.argv =
    [ascii "/usr/bin/env", ascii "-S", t.command].map some ++
      ((List.range maxChildren).map (fun i => slotArg t.args[i]?) ++ [none]) := by
  unfold Bld.Task.argv
  rw [List.append_assoc]
  rfl

theorem slots_built {f : Fields} (tidy : Tidy f.args) :
    (List.range maxChildren).map (fun i => slotArg f.built.args[i]?) =
      f.args.map some ++ List.replicate (maxChildren - f.args.length) none := by
  have room := tidy.room
  have table : f.built.args = f.args ++ List.replicate (maxChildren + 1 - f.args.length) [] :=
    padded_eq tidy
  rw [table]
  refine List.ext_getElem ?_ fun i inside inside' => ?_
  · simp only [List.length_map, List.length_range, List.length_append, List.length_replicate]
    omega
  · have within : i < maxChildren := by simpa using inside
    rw [List.getElem_map, List.getElem_range]
    by_cases filled : i < f.args.length
    · rw [List.getElem_append_left (by simpa using filled), List.getElem_map,
        List.getElem?_append_left filled, List.getElem?_eq_getElem filled]
      cases string : f.args[i] with
      | nil => exact absurd (string ▸ List.getElem_mem filled) tidy.filled
      | cons c p => rfl
    · have behind := Nat.le_of_not_lt filled
      rw [List.getElem_append_right (by simpa using behind), List.getElem_replicate,
        List.getElem?_append_right behind, List.getElem?_replicate, if_pos (by omega)]
      rfl

/-- **A table is handed over** up to its first free slot. -/
theorem handed_built {f : Fields} (tidy : Tidy f.args) : handed f.built.argv =
    [ascii "/usr/bin/env", ascii "-S", f.command] ++ f.args := by
  have first (rest : List (Option Str)) :
      handed ([ascii "/usr/bin/env", ascii "-S", f.command].map some ++
        (f.args.map some ++ none :: rest)) =
        [ascii "/usr/bin/env", ascii "-S", f.command] ++ f.args := by
    rw [← List.append_assoc, ← List.map_append]
    exact handed_null _ rest
  rw [argv_eq, slots_built tidy, List.append_assoc]
  cases maxChildren - f.args.length with
  | zero => exact first []
  | succ n => exact first (List.replicate n none ++ [none])

/-! ## One task -/

/-- A task that is run as its task object says: under its label, with its command, and with its
arguments in order and complete. -/
def Runs (t : Bld.Task) (members : Members) : Prop :=
  t.label = labelOf members.entries ∧ handed t.argv =
    [ascii "/usr/bin/env", ascii "-S", commandOf Members.entries members.entries] ++
      argsOf Members.entries members.entries

/-- Empty arguments under `"linux"`, and generic ones that are not empty. -/
def Displaced (members : Members) : Prop :=
  ∃ v, (membersOf Members.entries "linux" members.entries).lookup (ascii "args") = some v ∧
    v.elements Members.entries = [] ∧ ∃ s ∈ stringsOf Members.entries "args" members.entries, s ≠ []

/-- **A task object that is run as it says**: no argument is the empty string, empty arguments under
`"linux"` replace no others, and no generic command stands behind an empty one. -/
structure Plain (members : Members) : Prop where
  args : [] ∉ argsOf Members.entries members.entries
  linuxArgs : ¬Displaced members
  command : ¬Overridden (items Members.entries members)

section One

variable {members : Members}

theorem filled_eq_self {l : List Str} : filled l = l ↔ [] ∉ l := by
  unfold filled
  rw [List.filter_eq_self]
  constructor
  · intro all mem
    simpa using all [] mem
  · intro none s mem
    have some_ : s ≠ [] := fun empty => none (empty ▸ mem)
    simpa using some_

theorem filled_eq_nil {l : List Str} : filled l = [] ↔ ¬∃ s ∈ l, s ≠ [] := by
  unfold filled
  rw [List.filter_eq_nil_iff]
  simp

/-- The members under `"linux"` have distinct names. -/
theorem TaskObject.linux_distinct (object : TaskObject members) :
    ((membersOf Members.entries "linux" members.entries).map Prod.fst).Nodup := by
  unfold membersOf
  cases found : members.entries.lookup (ascii "linux") with
  | none => exact List.nodup_nil
  | some v =>
    have mem := (Named.lookup_eq_some object.distinct).1 found
    have typed := object.entries _ mem
    match v with
    | .node true inner => exact (typed.linux rfl inner rfl).1
    | .node false _ => exact List.nodup_nil
    | .scalar _ _ => exact List.nodup_nil
    | .string _ => exact List.nodup_nil

/-- A task object has one command at most, and one under `"linux"`. -/
theorem TaskObject.few (object : TaskObject members) :
    (commands (items Members.entries members)).length ≤ 1 ∧
      (linuxCommands (items Members.entries members)).length ≤ 1 := by
  rw [commands_items object.distinct, linuxCommands_items object.distinct object.linux_distinct]
  exact ⟨Option.length_toList_le, Option.length_toList_le⟩

/-- **What the arguments of a task become** is what its task object says. -/
theorem args_made_iff (object : TaskObject members) :
    (made (items Members.entries members)).args = argsOf Members.entries members.entries ↔
      [] ∉ argsOf Members.entries members.entries ∧ ¬Displaced members := by
  have generic : args (items Members.entries members) = _ := args_items object.distinct
  have linux : linuxArgs (items Members.entries members) = _ :=
    linuxArgs_items object.distinct object.linux_distinct
  unfold made Displaced argsOf
  dsimp only
  rw [generic, linux]
  unfold stringsOf
  cases (membersOf Members.entries "linux" members.entries).lookup (ascii "args") with
  | none =>
    rw [Option.elim_none, if_pos rfl, filled_eq_self]
    simp
  | some v =>
    rw [Option.elim_some]
    by_cases empty : v.elements Members.entries = []
    · dsimp only
      rw [empty, if_pos rfl, filled_eq_nil]
      simp [empty]
    · dsimp only
      rw [if_neg empty, filled_eq_self]
      simp [empty]

theorem tidy_args {its : List Item} (declared : Declared its) : Tidy (made its).args where
  room := by
    have sizes : (if linuxArgs its = [] then args its else linuxArgs its).length ≤ maxChildren := by
      split
      · exact declared.args
      · exact declared.linuxArgs
    exact Nat.le_trans (List.length_filter_le _ _) sizes
  filled mem := (mem_filled.1 mem).2 rfl

/-- **A task is run as its task object says** if and only if the task object is plain. -/
theorem runs_iff (object : TaskObject members)
    (declared : Declared (items Members.entries members)) :
    Runs (made (items Members.entries members)).built members ↔ Plain members := by
  have labels : labels (items Members.entries members) = _ := labels_items object.distinct
  have commands : commands (items Members.entries members) = _ := commands_items object.distinct
  have linux : linuxCommands (items Members.entries members) = _ :=
    linuxCommands_items object.distinct object.linux_distinct
  have label : (made (items Members.entries members)).built.label = labelOf members.entries := by
    change (Tasks.labels (items Members.entries members)).getLast?.getD [] = _
    rw [labels, labelOf]
    cases stringOf "label" members.entries <;> rfl
  have command : (made (items Members.entries members)).command =
      commandOf Members.entries members.entries ↔ ¬Overridden (items Members.entries members) := by
    have iff := command_eq_iff object.few.1 object.few.2
    rw [commands, linux, Option.head?_toList, Option.head?_toList] at iff
    exact iff
  have args := args_made_iff object
  unfold Runs
  rw [handed_built (tidy_args declared)]
  constructor
  · rintro ⟨_, same⟩
    simp only [List.cons_append, List.nil_append, List.cons.injEq, true_and] at same
    obtain ⟨command_, args_⟩ := same
    obtain ⟨filled, kept⟩ := args.1 args_
    exact ⟨filled, kept, command.1 command_⟩
  · intro plain
    rw [command.2 plain.command, args.2 ⟨plain.args, plain.linuxArgs⟩]
    exact ⟨label, rfl⟩

end One

/-! ## All tasks -/

/-- **A tasks.json that is run as it says**: it has a task object, no array stands in the place of
one, and each is plain and is copied. -/
structure Executable (root : Members) : Prop where
  some : taskObjects root ≠ []
  noArray : ∀ v ∈ elements Members.entries root, ¬FilledArray v
  copyable : ∀ members ∈ taskObjects root, Copyable (items Members.entries members)
  plain : ∀ members ∈ taskObjects root, Plain members

section All

variable {root : Members}

/-- There is a task for each task object just where no array stands among them. -/
theorem tasksItems_length (same : (tasksItems Members.entries root).length =
    (taskObjects root).length) :
    taskObjects root ≠ [] ∧ ∀ v ∈ elements Members.entries root, ¬FilledArray v := by
  obtain ⟨le, none⟩ := objects_length (elements Members.entries root)
  change (taskObjects root).length ≤ _ at le
  change _ ≤ (taskObjects root).length → _ at none
  unfold tasksItems at same
  split at same
  next empty =>
    rw [empty, List.length_nil] at le
    rw [List.length_singleton] at same
    omega
  next filled =>
    refine ⟨fun empty => filled ?_, none (Nat.le_of_eq same)⟩
    rw [empty] at same
    exact List.length_eq_zero_iff.1 same

theorem TaskObject.gatherAll {members : Members} (object : TaskObject members)
    (declared : Declared (items Members.entries members)) (f : Fields) :
    Fields.empty.gatherAll (items Members.entries members) = some f ↔
      Copyable (items Members.entries members) ∧ f = made (items Members.entries members) := by
  exact gatherAll_eq_some declared object.few.1 object.few.2

theorem mapM_length {α β : Type} {g : α → Option β} {l : List α} {bs : List β}
    (all : l.mapM g = some bs) : bs.length = l.length := by
  induction l generalizing bs with
  | nil => cases all; rfl
  | cons a l ih =>
    rw [List.mapM_cons] at all
    obtain ⟨b, _, all⟩ := Option.bind_eq_some_iff.1 all
    obtain ⟨bs', later, same⟩ := Option.bind_eq_some_iff.1 all
    rw [← Option.some.inj same, List.length_cons, List.length_cons, ih later]

/-- The tasks of what is gathered run as the task objects say, just where the file is executable. -/
theorem gatherAll_runs (typed : TasksJson root)
    (declared : ∀ members ∈ taskObjects root, Declared (items Members.entries members)) :
    (∃ fs, (tasksItems Members.entries root).mapM Fields.empty.gatherAll = some fs ∧
      List.Forall₂ Runs (fs.map Fields.built) (taskObjects root)) ↔ Executable root := by
  have each (members : Members) (mem : members ∈ taskObjects root) :=
    TaskObject.gatherAll (typed.object members mem) (declared members mem)
  have runs (members : Members) (mem : members ∈ taskObjects root) :=
    runs_iff (typed.object members mem) (declared members mem)
  have gathered (none : ∀ v ∈ elements Members.entries root, ¬FilledArray v)
      (some_ : taskObjects root ≠ []) (fs : List Fields) :
      (tasksItems Members.entries root).mapM Fields.empty.gatherAll = some fs ↔
        (∀ members ∈ taskObjects root, Copyable (items Members.entries members)) ∧
          fs = (taskObjects root).map fun members => made (items Members.entries members) := by
    rw [tasksItems_objects none some_, List.mapM_map]
    exact mapM_eq_some each fs
  constructor
  · rintro ⟨fs, gathers, all⟩
    have same : (tasksItems Members.entries root).length = (taskObjects root).length := by
      have length := all.length_eq
      rw [List.length_map] at length
      rw [← length]
      exact (mapM_length gathers).symm
    obtain ⟨some_, none⟩ := tasksItems_length same
    obtain ⟨copyable, rfl⟩ := (gathered none some_ fs).1 gathers
    refine ⟨some_, none, copyable, fun members mem => (runs members mem).1 ?_⟩
    rw [List.map_map, List.forall₂_map_left_iff, List.forall₂_same] at all
    exact all members mem
  · intro executable
    refine ⟨_, (gathered executable.noArray executable.some _).2 ⟨executable.copyable, rfl⟩, ?_⟩
    rw [List.map_map, List.forall₂_map_left_iff, List.forall₂_same]
    exact fun members mem => (runs members mem).2 (executable.plain members mem)

/-- The items that are seen are declared where those of the task objects are. -/
theorem declared_seen
    (declared : ∀ members ∈ taskObjects root, Declared (items Members.entries members)) :
    ∀ its ∈ tasksItems Members.seen root, ∀ item ∈ its, item.text.length < item.size := by
  intro its mem item within
  rcases tasksItems_seen mem with rfl | ⟨members, object, rfl⟩
  · exact absurd within List.not_mem_nil
  · exact (declared members object).size item ((items_sublist members).subset within)

/-- **The tasks of a tasks.json are run as it says** if and only if it is executable. -/
theorem handed_iff {lexicon : Lexicon} {space : List UInt8} {members : Members}
    (blank : Json.Blank space) (wf : (Value.node true members).WellFormed lexicon false)
    (deep : (Value.node true members).depth < Json.maxDepth)
    (noNul : 0 ∉ (Value.node true members).text) (roomy : members.Roomy)
    (typed : TasksJson members)
    (declared : ∀ task ∈ taskObjects members, Declared (items Members.entries task))
    (rest : List UInt8) (memory : Tree) {fuel : ℕ} (enough : members.text.length + 2 ≤ fuel) :
    (∃ tasks, Build.gathered .linux fuel memory
        (space ++ ((Value.node true members).text ++ rest)) = .ok tasks ∧
      List.Forall₂ Runs tasks (taskObjects members)) ↔ Executable members := by
  rw [gathered_document blank wf deep noNul typed (declared_seen declared) rest memory enough,
    ← gatherAll_runs typed declared]
  unfold gatheredTasks
  rw [tasksItems_roomy roomy]
  cases (tasksItems Members.entries members).mapM Fields.empty.gatherAll with
  | none => simp
  | some fs => simp

end All

/-! ## A file of one task -/

/-- The inside of an array of strings. -/
def strings : List Str → Members
  | [] => .nil []
  | [s] => .last ⟨[], none⟩ (.string s) []
  | s :: l => .more ⟨[], none⟩ (.string s) [] (strings l)

/-- The inside of `{"label":"x","args":[…]}`, with white space in front of the closing bracket. -/
def oneTask (l : List Str) (post : List UInt8) : Members :=
  .more ⟨[], some ⟨ascii "label", [], []⟩⟩ (.string (ascii "x")) []
    (.last ⟨[], some ⟨ascii "args", [], []⟩⟩ (.node false (strings l)) post)

/-- The inside of `{"tasks":[{…} ] }`. -/
def file (task : Members) : Members :=
  .last ⟨[], some ⟨ascii "tasks", [], []⟩⟩
    (.node false (.last ⟨[], none⟩ (.node true task) [0x20])) [0x20]

section File

variable {l : List Str} {post : List UInt8} {task : Members}

theorem strings_wellFormed (quoted : ∀ s ∈ l, Json.Quoted s) :
    (strings l).WellFormed Lexicon.full false false := by
  have empty : Json.Blank [] := fun _ h => nomatch h
  have bare {s : Str} (h : (Value.string s).isScalar = true) : false = true ∨ false = true :=
    nomatch h
  induction l with
  | nil => exact empty
  | cons s l ih =>
    have first := quoted s List.mem_cons_self
    cases l with
    | nil => exact ⟨⟨empty, rfl⟩, bare, first, empty⟩
    | cons s' l =>
      have rest := ih fun s mem => quoted s (List.mem_cons_of_mem _ mem)
      exact ⟨⟨empty, rfl⟩, bare, first, empty, rest⟩

theorem strings_entries (l : List Str) :
    (strings l).entries = l.map fun s => ([], Value.string s) := by
  induction l with
  | nil => rfl
  | cons s l ih =>
    cases l with
    | nil => rfl
    | cons s' l => exact congrArg _ ih

theorem strings_roomy (l : List Str) : (strings l).Roomy := by
  induction l with
  | nil => trivial
  | cons s l ih =>
    cases l with
    | nil => exact ⟨trivial, fun h => nomatch h⟩
    | cons s' l => exact ⟨trivial, ih⟩

theorem file_wellFormed (wf : task.WellFormed Lexicon.full false true) :
    (Value.node true (file task)).WellFormed Lexicon.full false := by
  have empty : Json.Blank [] := fun _ h => nomatch h
  have space : Json.Blank [0x20] := by decide
  have tasks : Json.Quoted (ascii "tasks") := by decide
  refine ⟨⟨empty, rfl, tasks, empty, empty⟩, (nomatch ·), ?_, space⟩
  exact ⟨⟨empty, rfl⟩, (nomatch ·), wf, space⟩

theorem oneTask_wellFormed (quoted : ∀ s ∈ l, Json.Quoted s) (blank : Json.Blank post) :
    (oneTask l post).WellFormed Lexicon.full false true := by
  have empty : Json.Blank [] := fun _ h => nomatch h
  have names : Json.Quoted (ascii "label") ∧ Json.Quoted (ascii "args") ∧
      Json.Quoted (ascii "x") := by decide
  obtain ⟨label, args, x⟩ := names
  refine ⟨⟨empty, rfl, label, empty, empty⟩, (nomatch ·), x, empty, ?_⟩
  exact ⟨⟨empty, rfl, args, empty, empty⟩, (nomatch ·), strings_wellFormed quoted, blank⟩

theorem file_roomy (roomy : task.Roomy) : (file task).Roomy :=
  ⟨⟨roomy, fun _ => List.cons_ne_nil _ _⟩, fun _ => List.cons_ne_nil _ _⟩

theorem oneTask_roomy (some_ : post ≠ []) : (oneTask l post).Roomy :=
  ⟨trivial, strings_roomy l, fun _ => some_⟩

theorem file_typed (object : TaskObject task) : TasksJson (file task) := by
  intro entry mem _
  obtain rfl := List.mem_singleton.1 mem
  refine ⟨_, rfl, fun e within task' same => ?_⟩
  obtain rfl := List.mem_singleton.1 within
  cases same
  exact object

theorem oneTask_object (l : List Str) (post : List UInt8) : TaskObject (oneTask l post) := by
  have inside : (oneTask l post).entries =
      [(ascii "label", .string (ascii "x")), (ascii "args", .node false (strings l))] := rfl
  have names : ascii "label" ≠ ascii "args" ∧ ascii "label" ≠ ascii "dependsOn" ∧
      ascii "args" ≠ ascii "label" ∧ ascii "args" ≠ ascii "command" ∧
      ascii "args" ≠ ascii "dependsOn" := by decide
  obtain ⟨labelArgs, labelDepends, argsLabel, argsCommand, argsDepends⟩ := names
  have texts : IsStrings (.node false (strings l)) := by
    refine ⟨_, rfl, fun e mem => ?_⟩
    rw [strings_entries] at mem
    obtain ⟨s, _, rfl⟩ := List.mem_map.1 mem
    exact ⟨s, rfl⟩
  constructor
  · rw [inside]
    change [ascii "label", ascii "args"].Nodup
    decide
  · intro e mem
    rw [inside, List.mem_pair] at mem
    rcases mem with rfl | rfl
    · exact {
        label _ := ⟨_, rfl⟩
        command _ := ⟨_, rfl⟩
        args name := absurd name labelArgs
        dependsOn name := absurd name labelDepends
        linux _ _ h := nomatch h
        options _ _ h := nomatch h }
    · exact {
        label name := absurd name argsLabel
        command name := absurd name argsCommand
        args _ := texts
        dependsOn name := absurd name argsDepends
        linux _ _ h := nomatch h
        options _ _ h := nomatch h }

end File

/-- The inside of `{"label":"x","args":["a","b"] }`. -/
def filledArgs : Members := oneTask [ascii "a", ascii "b"] [0x20]

/-- The arguments `"a"` and `"b"` are handed over. -/
theorem handed_iff_two : ∃ tasks, Build.gathered .linux 99 Json.zeroed
    ([] ++ ((Value.node true (file filledArgs)).text ++ [])) = .ok tasks ∧
      List.Forall₂ Runs tasks (taskObjects (file filledArgs)) := by
  have quoted : ∀ s ∈ [ascii "a", ascii "b"], Json.Quoted s := by decide
  have wf := file_wellFormed (oneTask_wellFormed quoted (by decide : Json.Blank [0x20]))
  have fits : ∀ item ∈ items Members.entries filledArgs,
      Fits item.text := by decide
  have executable : Executable (file filledArgs) := by
    refine ⟨by decide, ?_, ?_, ?_⟩
    · intro v mem
      obtain rfl := List.mem_singleton.1 mem
      rintro ⟨_, same, _⟩
      cases same
    · rintro task mem before item behind eq
      obtain rfl := List.mem_singleton.1 mem
      exact .inl (fits item (by rw [eq]; simp))
    · intro task mem
      obtain rfl := List.mem_singleton.1 mem
      refine ⟨by decide, ?_, ?_⟩
      · rintro ⟨_, found, _⟩
        cases found
      · rintro ⟨_, _, sub⟩
        exact absurd (sub.subset List.mem_cons_self) (by decide)
  have empty : Json.Blank [] := fun _ h => nomatch h
  refine (handed_iff empty wf (by decide) (by decide) (file_roomy (oneTask_roomy (by decide)))
    (file_typed (oneTask_object _ _)) ?_ [] Json.zeroed (by decide)).2 executable
  intro task mem
  obtain rfl := List.mem_singleton.1 mem
  exact ⟨by decide, by decide, by decide, by decide⟩

/-- The inside of `{"label":"x","args":["a","","b"] }`. -/
def emptyArg : Members := oneTask [ascii "a", [], ascii "b"] [0x20]

/-- Of the arguments `"a"`, `""` and `"b"` the empty one is dropped. -/
theorem argument_dropped :
    (Build.gathered .linux 99 Json.zeroed
        (Value.node true (file emptyArg)).text).map
      (List.map fun t => handed t.argv) =
        .ok [[ascii "/usr/bin/env", ascii "-S", [], ascii "a", ascii "b"]] ∧
    ¬∀ (lexicon : Lexicon) (space : List UInt8) (members : Members), Json.Blank space →
      (Value.node true members).WellFormed lexicon false →
      (Value.node true members).depth < Json.maxDepth → 0 ∉ (Value.node true members).text →
      members.Roomy → TasksJson members →
      (∀ task ∈ taskObjects members, Declared (items Members.entries task)) →
      ∀ (rest : List UInt8) (memory : Tree) (fuel : ℕ), members.text.length + 2 ≤ fuel →
        ∃ tasks, Build.gathered .linux fuel memory
          (space ++ ((Value.node true members).text ++ rest)) = .ok tasks ∧
            List.Forall₂ Runs tasks (taskObjects members) := by
  have runs : (Build.gathered .linux 99 Json.zeroed
      (Value.node true (file emptyArg)).text).map
        (List.map fun t => handed t.argv) =
          .ok [[ascii "/usr/bin/env", ascii "-S", [], ascii "a", ascii "b"]] := by
    decide +kernel
  refine ⟨runs, fun all => ?_⟩
  have quoted : ∀ s ∈ [ascii "a", [], ascii "b"], Json.Quoted s := by decide
  have wf : (Value.node true (file emptyArg)).WellFormed Lexicon.full false :=
    file_wellFormed (oneTask_wellFormed quoted (by decide))
  obtain ⟨tasks, gathered, as_said⟩ := all Lexicon.full [] _ (fun _ h => nomatch h) wf
    (by decide) (by decide) (file_roomy (oneTask_roomy (by decide)))
    (file_typed (oneTask_object _ _)) (fun task mem => by
      obtain rfl := List.mem_singleton.1 mem
      exact ⟨by decide, by decide, by decide, by decide⟩) [] Json.zeroed 99 (by decide)
  rw [List.append_nil, List.nil_append] at gathered
  rw [gathered] at runs
  obtain ⟨t, rest, ⟨_, said⟩, none, rfl⟩ := List.forall₂_cons_right_iff.1 as_said
  have dropped := (List.cons.inj (Except.ok.inj runs)).1
  exact absurd (said.symm.trans dropped) (by decide)

end Teres.Tools.Tasks
