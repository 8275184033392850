import Mathlib.Data.List.FinRange

/-!
# The build driver (`tools/build.c`, from `bld__exec` to `bld__make`)

Tasks are a list, as the chain of `next` pointers from `root` is; a task pointer is an index into
it. A string is its bytes up to the NUL. `State` holds what a run changes and what it does outside:
the `done` flags, the commands handed to `_spawnvp` in order, and the `bld__dep_tree` chain of every
call that looks at its dependencies.

`bld__depends` calls itself, so `depends` has fuel, and no result when the fuel runs out. The
status of a spawned command is given by its task: a task is spawned once.
-/

namespace Teres.Tools.Bld

/-- A C string. -/
abbrev Str := List UInt8

/-- The bytes of an ASCII literal. -/
def ascii (s : String) : Str := s.toList.map fun c => UInt8.ofNat c.toNat

/-- `bld__MAX_CHILDREN`. -/
def maxChildren : ℕ := 60

/-- `struct bld__task`. A slot of `dependsOn` or `args` beyond the list is empty. -/
structure Task where
  label : Str
  command : Str
  cwd : Str
  dependsOn : List Str
  args : List Str

/-- A pointer to a task of the list. -/
abbrev Ptr (tasks : List Task) := Fin tasks.length

/-- A command handed to `_spawnvp`: the argument vector with its null pointers, and the directory
changed to before it. -/
structure Spawn (tasks : List Task) where
  task : Ptr tasks
  argv : List (Option Str)
  directory : Option Str

/-- What a run changes. `trees` are the chains built, each from its own task up to the requested
one. -/
structure State (tasks : List Task) where
  done : Ptr tasks → Bool
  spawned : List (Spawn tasks)
  trees : List (List (Ptr tasks))

/-- The tasks after `bld__task_new`: none done. -/
def init (tasks : List Task) : State tasks where
  done _ := false
  spawned := []
  trees := []

/-- The tasks spawned, in order. -/
def State.ran {tasks : List Task} (s : State tasks) : List (Ptr tasks) := s.spawned.map Spawn.task

/-! ## `bld__exec` -/

/-- The argument vector: three fixed entries, a pointer or null for every slot, and a null. -/
def Task.argv (t : Task) : List (Option Str) :=
  [some (ascii "/usr/bin/env"), some (ascii "-S"), some t.command] ++
    (List.range maxChildren).map (fun i =>
      match t.args[i]? with
      | some (c :: p) => some (c :: p)
      | _ => none) ++
    [none]

/-- The directory to run in, if any, cut off by `snprintf` at 1019 bytes. -/
def Task.directory (t : Task) (workspace : Str) : Option Str :=
  let cwd :=
    if (ascii "$\x7bworkspaceFolder\x7d").isPrefixOf t.cwd then
      (workspace ++ t.cwd.drop 18).take 1019
    else t.cwd.take 1019
  if cwd = [] then none else some cwd

section Run

variable {tasks : List Task} (workspace : Str) (status : Ptr tasks → ℤ)

/-- `bld__exec`: a task that is done is a success, any other is spawned. -/
def exec (t : Ptr tasks) (s : State tasks) : ℤ × State tasks :=
  if s.done t then (0, s)
  else
    let s' := { s with
      done := Function.update s.done t true
      spawned := s.spawned ++ [⟨t, (tasks.get t).argv, (tasks.get t).directory workspace⟩] }
    if status t ≠ 0 then (-1, s') else (0, s')

/-! ## `bld__depends` -/

/-- The walk up the chain `p`, from `tr` on. -/
def meets (p : List (Ptr tasks)) (t : Ptr tasks) : List (Ptr tasks) → Bool
  | [] => false
  | _ :: parent => p.head? = some t || meets p t parent

/-- The loop over the tasks `cs` for the label `s`. -/
def eachTask (call : Ptr tasks → State tasks → Option (ℤ × State tasks)) (s : Str) :
    List (Ptr tasks) → State tasks → Option (ℤ × State tasks)
  | [], st => some (0, st)
  | c :: cs, st =>
    if s = (tasks.get c).label then do
      let (ret, st) ← call c st
      if ret ≠ 0 then some (ret, st) else eachTask call s cs st
    else eachTask call s cs st

/-- The loop over the slots of `depends_on`, up to the first empty one. -/
def eachLabel (call : Ptr tasks → State tasks → Option (ℤ × State tasks)) :
    List Str → State tasks → Option (ℤ × State tasks)
  | [], st => some (0, st)
  | s :: slots, st =>
    if s ≠ [] then do
      let (ret, st) ← eachTask call s (List.finRange tasks.length) st
      if ret ≠ 0 then some (ret, st) else eachLabel call slots st
    else some (0, st)

/-- `bld__depends`: the chain `p` above `t`, then the dependencies, then the task. -/
def depends : ℕ → List (Ptr tasks) → Ptr tasks → State tasks → Option (ℤ × State tasks)
  | 0, _, _, _ => none
  | fuel + 1, p, t, s =>
    if meets p t p then some (1, s)
    else do
      let (ret, s) ← eachLabel (depends fuel (t :: p)) ((tasks.get t).dependsOn.take maxChildren)
        { s with trees := s.trees ++ [t :: p] }
      if ret ≠ 0 then some (ret, s) else some (exec workspace status t s)

/-- `bld__make`: the first task with the label. -/
def make (fuel : ℕ) (name : Str) : Option (ℤ × State tasks) :=
  match (List.finRange tasks.length).find? (fun t => (tasks.get t).label = name) with
  | some t => depends workspace status fuel [] t (init tasks)
  | none => some (-1, init tasks)

end Run

end Teres.Tools.Bld
