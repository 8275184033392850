import Teres.Tools.Tasks

/-!
# The build program (`tools/build.c`, `main`)

The text of tasks.json is parsed and visited, and the tasks that are gathered are what `bld__make`
works on: a string of a task is what its memory holds up to the NUL. The command line is there, and
the file is read as it is. `status` is the exit status of a task's command, by the task's place in
the list.
-/

namespace Teres.Tools.Build

open Bld (Str)
open Tasks (Field Platform)

/-- How a run of the program ends: it exits, having spawned the commands of some tasks, it reads
what it must not, or the fuel runs out. -/
inductive Outcome where
  | exit (code : ℤ) (ran : List ℕ)
  | fault
  | fuel
deriving DecidableEq

/-- The bytes of all character fields of a task. -/
def charsSize : ℕ := (Field.args (Fin.last _)).offset + (Field.args (Fin.last _)).size

/-- The string that begins at the index `q`, of at most `n` bytes. -/
def cstr (chars : ℕ → UInt8) (q : ℕ) : ℕ → Str
  | 0 => []
  | n + 1 => if chars q = 0 then [] else chars q :: cstr chars (q + 1) n

/-- A field, read as a string. -/
def string (t : Tasks.Task) (field : Field) : Str := cstr t.chars field.offset charsSize

/-- A task as `bld__make` reads it. -/
def built (t : Tasks.Task) : Bld.Task where
  label := string t .label
  command := string t .command
  cwd := string t .cwd
  dependsOn := (List.finRange _).map fun slot => string t (.dependsOn slot)
  args := (List.finRange _).map fun slot => string t (.args slot)

/-- `main` up to `bld__make`: the tasks, or how the program ends without them. -/
def gathered (platform : Platform) (fuel : ℕ) (memory : Json.Tree) (text : List UInt8) :
    Except Outcome (List Bld.Task) :=
  if text = [] then .error (.exit (-1) [])
  else
    match Json.parse text memory with
    | .error .fault => .error .fault
    | .error .fuel => .error .fuel
    | .ok (_, none) => .error (.exit (-2) [])
    | .ok (t, some obj) =>
      match Json.visitor (Tasks.callback platform) fuel t obj Tasks.rooted with
      | .error .fault => .error .fault
      | .error .fuel => .error .fuel
      | .ok (_, _, s) =>
        match s.halted with
        | some .exit => .error (.exit (-10) [])
        | some .fault => .error .fault
        | none => .ok (s.tasks.map built)

/-- `main`. What `bld__make` returns is not looked at. -/
def main (platform : Platform) (fuel fuel' : ℕ) (memory : Json.Tree) (status : ℕ → ℤ)
    (text : List UInt8) (workspace name : Str) : Outcome :=
  match gathered platform fuel memory text with
  | .error outcome => outcome
  | .ok tasks =>
    match @Bld.make tasks workspace (fun t => status t) fuel' name with
    | none => .fuel
    | some (_, s) => .exit 0 (s.ran.map Fin.val)

end Teres.Tools.Build
