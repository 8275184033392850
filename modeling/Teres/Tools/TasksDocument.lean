import Teres.Tools.Build
import Teres.Tools.JsonGrammar

/-!
# The tasks of a tasks.json

What a document says about its tasks, apart from any visit. A container has entries, each a name and
a value; a visit comes to those that are not lost. The items of a task object are its strings, in
document order, by what they are for. `Fields` is what the items make of a task, as strings instead
of memory.
-/

namespace Teres.Tools.Json

open Bld (Str)

/-- The bytes of the name of a member, none for an element. -/
def Head.label (h : Head) : Str := h.name.elim [] Name.body

/-- The members of a container, by their names. -/
def Members.entries : Members → List (Str × Value)
  | .nil _ => []
  | .last head value _ => [(head.label, value)]
  | .more head value _ rest => (head.label, value) :: rest.entries

/-- The members that a visit comes to. -/
def Members.seen : Members → List (Str × Value)
  | .nil _ => []
  | .last head value post => if value.lost post then [] else [(head.label, value)]
  | .more head value _ rest => (head.label, value) :: rest.seen

/-- The string of a value, if it is one. -/
def Value.strings : Value → List Str
  | .string body => [body]
  | _ => []

section Parts

variable (parts : Members → List (Str × Value))

/-- The strings of an array. -/
def Value.elements : Value → List Str
  | .node false members => (parts members).flatMap fun entry => entry.2.strings
  | _ => []

/-- The members of an object. -/
def Value.members : Value → List (Str × Value)
  | .node true members => parts members
  | _ => []

end Parts

end Teres.Tools.Json

namespace Teres.Tools.Tasks

open Json (Members Value)
open Bld (Str ascii maxChildren)

/-! ## Items -/

/-- A string of a task object, by what it is for. -/
inductive Item where
  | label (s : Str)
  | command (s : Str)
  | linuxCommand (s : Str)
  | arg (s : Str)
  | linuxArg (s : Str)
  | dependsOn (s : Str)
  | cwd (s : Str)
deriving DecidableEq

/-- The string of an item. -/
def Item.text : Item → Str
  | .label s | .command s | .linuxCommand s | .arg s | .linuxArg s | .dependsOn s | .cwd s => s

/-- The declared size of the field that an item is for. -/
def Item.size : Item → ℕ
  | .label _ | .dependsOn _ => maxLabel
  | _ => maxPath

section Items

variable (parts : Members → List (Str × Value))

/-- The items of a member of a `"linux"` object. -/
def linuxItems (entry : Str × Value) : List Item :=
  if entry.1 = ascii "command" then entry.2.strings.map .linuxCommand
  else if entry.1 = ascii "args" then (entry.2.elements parts).map .linuxArg
  else []

/-- The items of a member of an `"options"` object. -/
def optionItems (entry : Str × Value) : List Item :=
  if entry.1 = ascii "cwd" then entry.2.strings.map .cwd else []

/-- The items of a member of a task object. -/
def entryItems (entry : Str × Value) : List Item :=
  if entry.1 = ascii "command" then entry.2.strings.map .command
  else if entry.1 = ascii "linux" then (entry.2.members parts).flatMap (linuxItems parts)
  else if entry.1 = ascii "label" then entry.2.strings.map .label
  else if entry.1 = ascii "args" then (entry.2.elements parts).map .arg
  else if entry.1 = ascii "dependsOn" then (entry.2.elements parts).map .dependsOn
  else if entry.1 = ascii "options" then (entry.2.members parts).flatMap optionItems
  else []

/-- The items of a task object. -/
def items (members : Members) : List Item := (parts members).flatMap (entryItems parts)

/-- The elements of the arrays `"tasks"` of the root. -/
def elements (root : Members) : List Value :=
  (parts root).flatMap fun entry =>
    match entry.2 with
    | .node false members =>
      if entry.1 = ascii "tasks" then (parts members).map Prod.snd else []
    | _ => []

/-- The items of an element that has members. An array has none. -/
def elementItems : Value → Option (List Item)
  | .node brace members =>
    if (parts members).isEmpty then none else some (if brace then items parts members else [])
  | _ => none

/-- The items of all tasks; the root alone has none. -/
def tasksItems (root : Members) : List (List Item) :=
  match (elements parts root).filterMap (elementItems parts) with
  | [] => [[]]
  | tasks => tasks

end Items

/-! ## Documents of the format -/

/-- A string. -/
def IsString (v : Value) : Prop := ∃ s, v = .string s

/-- An array of strings. -/
def IsStrings (v : Value) : Prop :=
  ∃ members, v = .node false members ∧ ∀ entry ∈ members.entries, IsString entry.2

/-- A member of a `"linux"` object. -/
structure LinuxEntry (entry : Str × Value) : Prop where
  command : entry.1 = ascii "command" → IsString entry.2
  args : entry.1 = ascii "args" → IsStrings entry.2

/-- A member of a task object. Members of other names are whatever they are. -/
structure TaskEntry (entry : Str × Value) : Prop where
  label : entry.1 = ascii "label" → IsString entry.2
  command : entry.1 = ascii "command" → IsString entry.2
  args : entry.1 = ascii "args" → IsStrings entry.2
  dependsOn : entry.1 = ascii "dependsOn" → IsString entry.2 ∨ IsStrings entry.2
  linux : entry.1 = ascii "linux" → ∀ members, entry.2 = .node true members →
    (members.entries.map Prod.fst).Nodup ∧ ∀ e ∈ members.entries, LinuxEntry e
  options : entry.1 = ascii "options" → ∀ members, entry.2 = .node true members →
    ∀ e ∈ members.entries, e.1 = ascii "cwd" → IsString e.2

/-- The members of a task object, of distinct names. -/
structure TaskObject (members : Members) : Prop where
  distinct : (members.entries.map Prod.fst).Nodup
  entries : ∀ entry ∈ members.entries, TaskEntry entry

/-- The members of the root of a tasks.json: what is called `"tasks"` is an array, and the objects
in it are task objects. -/
def TasksJson (root : Members) : Prop :=
  ∀ entry ∈ root.entries, entry.1 = ascii "tasks" → ∃ members, entry.2 = .node false members ∧
    ∀ e ∈ members.entries, ∀ task, e.2 = .node true task → TaskObject task

/-- The strings of the items of one kind. -/
def labels (its : List Item) : List Str :=
  its.filterMap fun | .label s => some s | _ => none

@[inherit_doc labels]
def commands (its : List Item) : List Str :=
  its.filterMap fun | .command s => some s | _ => none

@[inherit_doc labels]
def linuxCommands (its : List Item) : List Str :=
  its.filterMap fun | .linuxCommand s => some s | _ => none

@[inherit_doc labels]
def args (its : List Item) : List Str :=
  its.filterMap fun | .arg s => some s | _ => none

@[inherit_doc labels]
def linuxArgs (its : List Item) : List Str :=
  its.filterMap fun | .linuxArg s => some s | _ => none

@[inherit_doc labels]
def dependencies (its : List Item) : List Str :=
  its.filterMap fun | .dependsOn s => some s | _ => none

@[inherit_doc labels]
def directories (its : List Item) : List Str :=
  its.filterMap fun | .cwd s => some s | _ => none

/-- Strings that are shorter than their fields, and no more of them than a table has slots. -/
structure Declared (its : List Item) : Prop where
  size : ∀ item ∈ its, item.text.length < item.size
  args : (args its).length ≤ maxChildren
  linuxArgs : (linuxArgs its).length ≤ maxChildren
  dependencies : (dependencies its).length ≤ maxChildren

/-! ## What a task object says -/

section Said

variable (parts : Members → List (Str × Value))

/-- The string of a name. -/
def stringOf (name : String) (entries : List (Str × Value)) : Option Str :=
  (entries.lookup (ascii name)).bind fun v => v.strings.head?

/-- The strings of a name. -/
def stringsOf (name : String) (entries : List (Str × Value)) : List Str :=
  (entries.lookup (ascii name)).elim [] (Value.elements parts)

/-- The members of a name. -/
def membersOf (name : String) (entries : List (Str × Value)) : List (Str × Value) :=
  (entries.lookup (ascii name)).elim [] (Value.members parts)

/-- The label of a task object. -/
def labelOf (entries : List (Str × Value)) : Str := (stringOf "label" entries).getD []

/-- The labels that a task object depends on: those of an array, or a single one. -/
def dependsOnOf (entries : List (Str × Value)) : List Str :=
  (entries.lookup (ascii "dependsOn")).elim [] fun v => v.strings ++ v.elements parts

/-- The command of a task object: the one under `"linux"` if it is present, else the generic one. -/
def commandOf (entries : List (Str × Value)) : Str :=
  (stringOf "command" (membersOf parts "linux" entries)).getD
    ((stringOf "command" entries).getD [])

/-- The arguments of a task object: those under `"linux"` if they are present, else the generic
ones. -/
def argsOf (entries : List (Str × Value)) : List Str :=
  match (membersOf parts "linux" entries).lookup (ascii "args") with
  | some v => v.elements parts
  | none => stringsOf parts "args" entries

end Said

/-- The members of an object, if it has any. -/
def taskObject : Value → Option Members
  | .node true members => if members.entries.isEmpty then none else some members
  | _ => none

/-- The objects with members in the arrays `"tasks"` of the root. -/
def taskObjects (root : Members) : List Members :=
  (elements Members.entries root).filterMap taskObject

/-! ## What the items make of a task -/

/-- A task as strings. The empty strings behind the last of a table are left out. -/
structure Fields where
  label : Str
  command : Str
  cwd : Str
  dependsOn : List Str
  args : List Str
  platformArgs : Bool

/-- A new task. -/
def Fields.empty : Fields := ⟨[], [], [], [], [], false⟩

/-- A string in the first free slot of a table; an empty one leaves it free. -/
def stored (table : List Str) (s : Str) : List Str := if s = [] then table else table ++ [s]

/-- A string that `json__copy_string` copies into `maxPath` bytes. -/
def Fits (s : Str) : Prop := s.length < maxPath - 1

instance (s : Str) : Decidable (Fits s) := inferInstanceAs (Decidable (_ < _))

/-- An item gathered, or nothing where the program exits. -/
def Fields.gather (f : Fields) : Item → Option Fields
  | .label s => some { f with label := s }
  | .command s =>
    if f.command ≠ [] then some f
    else if Fits s then some { f with command := s } else none
  | .linuxCommand s => if Fits s then some { f with command := s } else none
  | .arg s =>
    if f.platformArgs then some f
    else if f.args.length < maxChildren ∧ Fits s then
      some { f with args := stored f.args s }
    else none
  | .linuxArg s =>
    let args := if f.platformArgs then f.args else []
    if args.length < maxChildren ∧ Fits s then
      some { f with args := stored args s, platformArgs := true }
    else none
  | .dependsOn s =>
    if f.dependsOn.length < maxChildren then some { f with dependsOn := stored f.dependsOn s }
    else none
  | .cwd s => if Fits s then some { f with cwd := s } else none

/-- The items gathered in order. -/
def Fields.gatherAll (f : Fields) (items : List Item) : Option Fields :=
  items.foldlM Fields.gather f

/-- The task that `bld__make` reads. -/
def Fields.built (f : Fields) : Bld.Task where
  label := f.label
  command := f.command
  cwd := f.cwd
  dependsOn := (List.finRange (maxChildren + 1)).map fun slot => f.dependsOn.getD slot.val []
  args := (List.finRange (maxChildren + 1)).map fun slot => f.args.getD slot.val []

end Teres.Tools.Tasks
