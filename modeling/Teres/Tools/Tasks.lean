import Teres.Tools.Bld
import Teres.Tools.Json

/-!
# Gathering the tasks (`tools/build.c`, `bld__task_new` to `bld__gather_tasks`)

The character fields of `struct bld__task` lie next to each other, so they are one memory, and a
field is a range of it. The chain of `next` pointers from the root is a list. `bld__gather_tasks` is
the callback of `json__visitor`; where it exits, the visit ends.

`Gather.stores` is all that was copied into a task, in order; the code does not keep it.
-/

namespace Teres.Tools.Tasks

open Json (Tree)
open Bld (Str ascii maxChildren)

/-- `bld__MAX_PATH`. -/
def maxPath : ℕ := 250

/-- `bld__MAX_LABEL`. -/
def maxLabel : ℕ := 60

/-- Why a call does not return: `exit`, or a literal read behind its NUL. -/
inductive Halt where
  | exit
  | fault
deriving DecidableEq

abbrev M := Except Halt

/-! ## Tasks -/

/-- The character fields of `struct bld__task`. -/
inductive Field where
  | label
  | command
  | cwd
  | dependsOn (slot : Fin (maxChildren + 1))
  | args (slot : Fin (maxChildren + 1))
deriving DecidableEq

/-- The bytes of a field. -/
def Field.size : Field → ℕ
  | .label | .dependsOn _ => maxLabel
  | .command | .cwd | .args _ => maxPath

/-- Where a field begins, from `label` on. -/
def Field.offset : Field → ℕ
  | .label => 0
  | .command => maxLabel
  | .cwd => maxLabel + maxPath
  | .dependsOn slot => maxLabel + maxPath + maxPath + slot * maxLabel
  | .args slot => maxLabel + maxPath + maxPath + (maxChildren + 1) * maxLabel + slot * maxPath

/-- `struct bld__task`, with the memory of its character fields. -/
structure Task where
  id : ℕ
  chars : ℕ → UInt8
  platformArgs : Bool

/-- The first byte of a field. -/
def Task.first (t : Task) (field : Field) : UInt8 := t.chars field.offset

/-- `bld__task_new`. -/
def Task.new (id : ℕ) : Task := ⟨id, fun _ => 0, false⟩

/-- The loops that look for the first free slot of a table. The last slot is not looked at. -/
def Task.freeSlot (t : Task) (table : Fin (maxChildren + 1) → Field) :
    Option (Fin (maxChildren + 1)) :=
  (List.finRange (maxChildren + 1)).find? fun i => i.val < maxChildren && t.first (table i) = 0

/-- The loop that clears the generic arguments. -/
def Task.clearArgs (t : Task) : Task :=
  { t with
    chars := (List.finRange (maxChildren + 1)).foldl
      (fun chars (i : Fin (maxChildren + 1)) =>
        if i.val < maxChildren then Function.update chars (Field.args i).offset 0 else chars)
      t.chars }

/-! ## Strings of the document -/

/-- The loop of `json__copy_string`, with `*q` at the index `q`. -/
def copyLoop : List UInt8 → ℕ → (ℕ → UInt8) → ℕ → UInt8
  | [], q, chars => Function.update chars q 0
  | c :: s, q, chars => copyLoop s (q + 1) (Function.update chars q c)

/-- The bytes of the buffer from `start` to `stop`. Nothing is behind the buffer; no object reaches
there. -/
def slice (tree : Tree) (start stop : ℕ) : Str :=
  (List.range (stop - start)).map fun j => tree.buf.getD (start + j) 0

/-- `json__copy_string`. An end in front of the start is an unsigned difference beyond any size. -/
def copyString (tree : Tree) (start stop len q : ℕ) (chars : ℕ → UInt8) : M (ℕ → UInt8) :=
  let chars := Function.update chars q 0
  if stop < start ∨ len - 1 ≤ stop - start then .error .exit
  else .ok (copyLoop (slice tree start stop) q chars)

/-- The loop of `json__match`, from a byte of the literal and one of the name on. -/
def matchLoop : List UInt8 → List UInt8 → M Bool
  | [], _ => .error .fault
  | c :: _, [] => .ok (c = 0)
  | c :: p, r :: name => if c ≠ r then .ok false else matchLoop p name

/-- `json__match`, on a slot of the stack. -/
def jsonMatch (tree : Tree) (k : ℕ) (name : String) : M Bool :=
  matchLoop (ascii name ++ [0]) (slice tree (tree.stack k).nameStart (tree.stack k).nameEnd)

/-! ## One value stored -/

/-- A string copied into a field of a task, and the task before and behind it. -/
structure Copy where
  field : Field
  value : Str
  before : Task
  after : Task

/-- The value of an object copied into a field, with the limit that the caller gives. -/
def copyValue (tree : Tree) (obj limit : ℕ) (field : Field) (t : Task) : M (Option Copy) := do
  let chars ← copyString tree (tree.stack obj).valueStart (tree.stack obj).valueEnd limit
    field.offset t.chars
  .ok (some ⟨field, slice tree (tree.stack obj).valueStart (tree.stack obj).valueEnd, t,
    { t with chars := chars }⟩)

/-- The value of an object copied into the first free slot of a table. -/
def copySlot (tree : Tree) (obj : ℕ) (table : Fin (maxChildren + 1) → Field) (t : Task) :
    M (Option Copy) :=
  match t.freeSlot table with
  | none => .error .exit
  | some i => copyValue tree obj maxPath (table i) t

/-- `bld__args`. `t->args[0]` is an address, so it is no condition. -/
def bldArgs (tree : Tree) (obj : ℕ) (t : Task) (platform : Bool) : M (Option Copy) :=
  if t.platformArgs && !platform then .ok none
  else
    let t := if !t.platformArgs && platform then t.clearArgs else t
    copySlot tree obj .args { t with platformArgs := platform }

/-- The system that the program is built for. -/
inductive Platform where
  | windows
  | osx
  | linux
  | other
deriving DecidableEq

/-- Whether the member of a task is the one of the platform. -/
def Platform.isMember (platform : Platform) (tree : Tree) : M Bool :=
  match platform with
  | .windows => jsonMatch tree 4 "windows"
  | .osx => jsonMatch tree 4 "osx"
  | .linux => jsonMatch tree 4 "linux"
  | .other => .ok false

/-- A member of the platform's member. -/
def gatherPlatform (tree : Tree) (obj : ℕ) (t : Task) : M (Option Copy) := do
  if ← jsonMatch tree 5 "command" then copyValue tree obj maxPath .command t
  else if (tree.stack obj).depth > 5 then
    if ← jsonMatch tree 5 "args" then bldArgs tree obj t true else .ok none
  else .ok none

/-- The branches of `bld__gather_tasks` for the members of a task that are not deeper. -/
def gatherDeep (tree : Tree) (obj : ℕ) (t : Task) : M (Option Copy) := do
  if ← jsonMatch tree 4 "args" then bldArgs tree obj t false
  else if ← jsonMatch tree 4 "dependsOn" then copySlot tree obj .dependsOn t
  else if ← jsonMatch tree 4 "options" then
    if ← jsonMatch tree 5 "cwd" then copyValue tree obj maxPath .cwd t else .ok none
  else .ok none

/-- The branches of `bld__gather_tasks` for a value inside of a task. -/
def gatherMember (platform : Platform) (tree : Tree) (obj : ℕ) (t : Task) : M (Option Copy) := do
  let deep : Bool := (tree.stack obj).depth > 4
  if (← jsonMatch tree 4 "command") && t.first .command = 0 then
    copyValue tree obj maxPath .command t
  else if ← (if deep then platform.isMember tree else .ok false) then gatherPlatform tree obj t
  else if ← jsonMatch tree 4 "label" then copyValue tree obj 1024 .label t
  else if deep then gatherDeep tree obj t
  else .ok none

/-! ## The callback -/

/-- A string copied into a field of the task `task`, and the list before and behind it. -/
structure Store where
  task : ℕ
  field : Field
  value : Str
  before : List Task
  after : List Task

/-- The tasks gathered so far, all that was stored, and why the program stopped, if it did. -/
structure Gather where
  tasks : List Task
  stores : List Store
  halted : Option Halt

/-- The tasks before a visit: the root. -/
def rooted : Gather := ⟨[Task.new 0], [], none⟩

/-- The loop over the chain of tasks: those in front of the task with the id `id`, that task, and
those behind it. A task that is not there comes last. -/
def seek (id : ℕ) : List Task → List Task × Task × List Task
  | [] => ([], Task.new id, [])
  | t :: next => if t.id = id then ([], t, next) else
    let (before, found, after) := seek id next
    (t :: before, found, after)

/-- The task of the id `id`. The root has no id before the first. -/
def select (id : ℕ) : List Task → List Task × Task × List Task
  | [] => seek id []
  | t :: next => if t.id = 0 then ([], { t with id := id }, next) else seek id (t :: next)

/-- A value that is inside of a task. -/
def gatherValue (platform : Platform) (tree : Tree) (obj : ℕ) (s : Gather) : M Gather := do
  let (before, t, after) := select (tree.stack 3).valueStart s.tasks
  match ← gatherMember platform tree obj t with
  | none => .ok { s with tasks := before ++ t :: after }
  | some copy =>
    let store : Store := ⟨before.length, copy.field, copy.value,
      before ++ copy.before :: after, before ++ copy.after :: after⟩
    .ok { s with tasks := store.after, stores := s.stores ++ [store] }

/-- `bld__gather_tasks`. -/
def gatherTasks (platform : Platform) (tree : Tree) (obj : ℕ) (s : Gather) : M Gather := do
  if (tree.stack obj).depth < 3 then .ok s
  else if ← jsonMatch tree 2 "tasks" then
    if (tree.stack obj).depth > 3 then
      if ← jsonMatch tree 3 "" then gatherValue platform tree obj s else .ok s
    else .ok s
  else .ok s

/-- The callback as `json__visitor` calls it. -/
def callback (platform : Platform) (tree : Tree) (obj : ℕ) (s : Gather) : ℤ × Gather :=
  match gatherTasks platform tree obj s with
  | .ok s => (0, s)
  | .error halt => (1, { s with halted := some halt })

end Teres.Tools.Tasks
