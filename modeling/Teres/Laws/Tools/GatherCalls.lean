import Teres.Laws.Tools.JsonEntries
import Teres.Laws.Tools.TaskFields

/-!
# What a call gathers

A call of `bld__gather_tasks` reads no slot behind its own (`Alike.gatherTasks`), so a visit makes
the calls of its document (`sees_callback`). Inside of a task a call is a step on that task, of
which the names in the slots decide the branch (`gatherMember_named`).
-/

namespace Teres.Tools.Tasks

open Json (Tree Obj Core Value Members Entry Lies Own)
open Bld (Str ascii maxChildren)

/-! ## What a call reads -/

/-- A slot of which no more than the fixed part is known. -/
def objOf (x : Core) : Obj where
  depth := x.1
  state := .init
  childNameS := 0
  childNameE := 0
  childType := .undefined
  type := x.2.1
  nameStart := x.2.2.1
  nameEnd := x.2.2.2.1
  valueStart := x.2.2.2.2.1
  valueEnd := x.2.2.2.2.2
  count := 0

/-- The tree of which no more than some slots is known. -/
def view (buf : List UInt8) (path : List Core) : Tree where
  buf := buf
  len := 0
  stack k := objOf (path.getD k (0, .undefined, 0, 0, 0, 0))
  printed := []

/-- Two trees with the same slots up to `n`. -/
structure Alike (n : ℕ) (tree tree' : Tree) : Prop where
  buf : tree.buf = tree'.buf
  core : ∀ k ≤ n, (tree.stack k).core = (tree'.stack k).core

section Alike

variable {n : ℕ} {tree tree' : Tree}

theorem Alike.depth (alike : Alike n tree tree') {k : ℕ} (le : k ≤ n) :
    (tree.stack k).depth = (tree'.stack k).depth :=
  congrArg Prod.fst (alike.core k le)

theorem Alike.slice (alike : Alike n tree tree') (start stop : ℕ) :
    slice tree start stop = slice tree' start stop := by
  unfold Tasks.slice
  rw [alike.buf]

theorem Alike.jsonMatch (alike : Alike n tree tree') {k : ℕ} (le : k ≤ n) (name : String) :
    jsonMatch tree k name = jsonMatch tree' k name := by
  have start : (tree.stack k).nameStart = (tree'.stack k).nameStart :=
    congrArg (fun x => x.2.2.1) (alike.core k le)
  have stop : (tree.stack k).nameEnd = (tree'.stack k).nameEnd :=
    congrArg (fun x => x.2.2.2.1) (alike.core k le)
  unfold Tasks.jsonMatch
  rw [start, stop, alike.slice]

theorem Alike.copyValue (alike : Alike n tree tree') (limit : ℕ) (field : Field) (t : Task) :
    copyValue tree n limit field t = copyValue tree' n limit field t := by
  have start : (tree.stack n).valueStart = (tree'.stack n).valueStart :=
    congrArg (fun x => x.2.2.2.2.1) (alike.core n (Nat.le_refl n))
  have stop : (tree.stack n).valueEnd = (tree'.stack n).valueEnd :=
    congrArg (fun x => x.2.2.2.2.2) (alike.core n (Nat.le_refl n))
  unfold Tasks.copyValue copyString
  rw [start, stop, alike.slice]

theorem Alike.copySlot (alike : Alike n tree tree') (slots : Fin (maxChildren + 1) → Field)
    (t : Task) : copySlot tree n slots t = copySlot tree' n slots t := by
  unfold Tasks.copySlot
  simp only [alike.copyValue]

theorem Alike.bldArgs (alike : Alike n tree tree') (t : Task) (platform : Bool) :
    bldArgs tree n t platform = bldArgs tree' n t platform := by
  unfold Tasks.bldArgs
  simp only [alike.copySlot]

/-- A call inside of a task reads no slot behind its own. -/
theorem Alike.gatherMember (alike : Alike n tree tree') (inside : 3 < n)
    (depth : (tree.stack n).depth = n) (platform : Platform) (t : Task) :
    gatherMember platform tree n t = gatherMember platform tree' n t := by
  have depth' : (tree'.stack n).depth = n := (alike.depth (Nat.le_refl n)).symm.trans depth
  have four (name : String) := alike.jsonMatch (k := 4) inside name
  by_cases deep : 4 < n
  · have five (name : String) := alike.jsonMatch (k := 5) deep name
    have member : platform.isMember tree = platform.isMember tree' := by
      cases platform <;> simp only [Platform.isMember, four]
    unfold Tasks.gatherMember gatherPlatform gatherDeep
    simp only [four, five, member, depth, depth', alike.copyValue, alike.copySlot, alike.bldArgs]
  · unfold Tasks.gatherMember
    simp only [four, depth, depth', deep, decide_false, Bool.false_eq_true, if_false,
      alike.copyValue]
    rfl

/-- **A call reads no slot behind its own.** -/
theorem Alike.gatherTasks (alike : Alike n tree tree') (depth : (tree.stack n).depth = n)
    (platform : Platform) (s : Gather) :
    gatherTasks platform tree n s = gatherTasks platform tree' n s := by
  have depth' : (tree'.stack n).depth = n := (alike.depth (Nat.le_refl n)).symm.trans depth
  unfold Tasks.gatherTasks
  rw [depth, depth']
  by_cases shallow : n < 3
  · rw [if_pos shallow, if_pos shallow]
  have two := alike.jsonMatch (k := 2) (by omega) "tasks"
  rw [if_neg shallow, if_neg shallow, two]
  by_cases inside : 3 < n
  · have start : (tree.stack 3).valueStart = (tree'.stack 3).valueStart :=
      congrArg (fun x => x.2.2.2.2.1) (alike.core 3 (Nat.le_of_lt inside))
    simp only [alike.jsonMatch (k := 3) (Nat.le_of_lt inside), gatherValue, start,
      alike.gatherMember inside depth]
  · simp only [inside, if_false]

end Alike

/-- The slots of a tree, and the tree of which no more than these is known. -/
theorem alike_view (tree : Tree) (n : ℕ) :
    Alike n tree (view tree.buf (Json.above tree (n + 1))) where
  buf := rfl
  core k le := by
    have lt : k < (Json.above tree (n + 1)).length := by
      simpa [Json.above] using Nat.lt_succ_of_le le
    have slot : (Json.above tree (n + 1)).getD k (0, .undefined, 0, 0, 0, 0) =
        (tree.stack k).core := by
      rw [List.getD_eq_getElem _ _ lt]
      simp [Json.above]
    change _ = (objOf ((Json.above tree (n + 1)).getD k (0, .undefined, 0, 0, 0, 0))).core
    rw [slot]
    rfl

/-- A call of the callback, by the slots that it reads. -/
def call (platform : Platform) (buf : List UInt8) (path : List Core) (s : Gather) :
    Except Gather Gather :=
  match gatherTasks platform (view buf path) (path.length - 1) s with
  | .ok s => .ok s
  | .error halt => .error { s with halted := some halt }

theorem sees_callback (platform : Platform) : Json.Sees (callback platform) (call platform) := by
  intro tree e s depth
  have length : (Json.above tree (e + 1)).length - 1 = e := by simp [Json.above]
  unfold callback call
  rw [(alike_view tree e).gatherTasks depth, length]
  cases gatherTasks platform (view tree.buf (Json.above tree (e + 1))) e s <;> rfl

/-! ## Names and values in the buffer -/

theorem slice_eq {tree : Tree} {s : Str} {i : ℕ} (lies : s <+: tree.buf.drop i) :
    slice tree i (i + s.length) = s := by
  obtain ⟨rest, eq⟩ := lies
  refine List.ext_getElem ?_ fun j inside inside' => ?_
  · rw [slice_length, Nat.add_sub_cancel_left]
  · have byte : tree.buf[i + j]? = some s[j] := by
      rw [← List.getElem?_drop, ← eq, List.getElem?_append_left inside']
      exact List.getElem?_eq_getElem inside'
    simp [slice, byte]

theorem matchLoop_eq {p : List UInt8} (noNul : 0 ∉ p) {name : List UInt8} (noNul' : 0 ∉ name) :
    matchLoop (p ++ [0]) name = .ok (decide (name = p)) := by
  induction p generalizing name with
  | nil =>
    cases name with
    | nil => rfl
    | cons r name =>
      have other : (0 : UInt8) ≠ r := fun zero => noNul' (zero ▸ List.mem_cons_self)
      exact if_pos other
  | cons c p ih =>
    cases name with
    | nil =>
      have other : c ≠ 0 := fun zero => noNul (zero ▸ List.mem_cons_self)
      change Except.ok (decide (c = 0)) = _
      simp [other]
    | cons r name =>
      change (if c ≠ r then Except.ok false else matchLoop (p ++ [0]) name) = _
      by_cases same : c = r
      · rw [if_neg (not_not.2 same), ih (fun mem => noNul (List.mem_cons_of_mem c mem))
          fun mem => noNul' (List.mem_cons_of_mem r mem)]
        simp [same]
      · rw [if_pos same]
        simp [Ne.symm same]

/-- A slot that has a name. -/
structure Named (tree : Tree) (k : ℕ) (name : Str) : Prop where
  slice : slice tree (tree.stack k).nameStart (tree.stack k).nameEnd = name
  noNul : 0 ∉ name

theorem Named.matches {tree : Tree} {k : ℕ} {name : Str} (named : Named tree k name)
    (literal : String) (noNul : 0 ∉ ascii literal) :
    jsonMatch tree k literal = .ok (decide (name = ascii literal)) := by
  unfold jsonMatch
  rw [named.slice, matchLoop_eq noNul named.noNul]

/-! ## The branches of a call -/

section Branches

variable {tree : Tree} {obj : ℕ} {t : Task} {name : Str}

theorem gatherDeep_named (named : Named tree 4 name) : gatherDeep tree obj t =
    if name = ascii "args" then bldArgs tree obj t false
    else if name = ascii "dependsOn" then copySlot tree obj .dependsOn t
    else if name = ascii "options" then do
      if ← jsonMatch tree 5 "cwd" then copyValue tree obj maxPath .cwd t else .ok none
    else .ok none := by
  have args := named.matches "args" (by decide)
  have dependsOn := named.matches "dependsOn" (by decide)
  have options := named.matches "options" (by decide)
  unfold gatherDeep
  simp only [args, dependsOn, options, decide_eq_true_eq, bind, Except.bind]

theorem gatherPlatform_named (named : Named tree 5 name) : gatherPlatform tree obj t =
    if name = ascii "command" then copyValue tree obj maxPath .command t
    else if 5 < (tree.stack obj).depth ∧ name = ascii "args" then bldArgs tree obj t true
    else .ok none := by
  have command := named.matches "command" (by decide)
  have args := named.matches "args" (by decide)
  unfold gatherPlatform
  by_cases deep : 5 < (tree.stack obj).depth
  · simp only [command, args, decide_eq_true_eq, bind, Except.bind, deep, true_and, if_true]
  · simp only [command, decide_eq_true_eq, bind, Except.bind, deep, false_and, if_false]

theorem gatherMember_named (named : Named tree 4 name) : gatherMember .linux tree obj t =
    if name = ascii "command" ∧ t.first .command = 0 then copyValue tree obj maxPath .command t
    else if 4 < (tree.stack obj).depth ∧ name = ascii "linux" then gatherPlatform tree obj t
    else if name = ascii "label" then copyValue tree obj 1024 .label t
    else if 4 < (tree.stack obj).depth then gatherDeep tree obj t
    else .ok none := by
  have command := named.matches "command" (by decide)
  have linux := named.matches "linux" (by decide)
  have label := named.matches "label" (by decide)
  unfold gatherMember Platform.isMember
  by_cases deep : 4 < (tree.stack obj).depth
  · simp only [command, linux, label, decide_eq_true_eq, bind, Except.bind, deep, true_and, if_true,
      Bool.and_eq_true, decide_true]
  · simp only [command, label, decide_eq_true_eq, bind, Except.bind, deep, false_and, if_false,
      Bool.and_eq_true, decide_false, Bool.false_eq_true]

end Branches

/-! ## Calls on a task -/

/-- A call inside of a task, as far as the task goes. -/
def step (buf : List UInt8) (t : Task) (path : List Core) : M Task :=
  result t <$> gatherMember .linux (view buf path) (path.length - 1) t

/-- Such calls one after another. -/
def steps (buf : List UInt8) (paths : List (List Core)) (t : Task) : M Task :=
  paths.foldlM (step buf) t

section Steps

variable {buf : List UInt8} {t : Task} {f : Fields}

theorem steps_append (paths paths' : List (List Core)) (t : Task) :
    steps buf (paths ++ paths') t = steps buf paths t >>= steps buf paths' :=
  List.foldlM_append

theorem steps_single (path : List Core) (t : Task) : steps buf [path] t = step buf t path := by
  rw [steps, List.foldlM_cons]
  exact bind_pure (step buf t path)

/-- Calls that leave every task as it is. -/
theorem steps_idle {paths : List (List Core)}
    (idle : ∀ path ∈ paths, ∀ t, step buf t path = .ok t) (t : Task) :
    steps buf paths t = .ok t := by
  induction paths with
  | nil => rfl
  | cons path paths ih =>
    rw [steps, List.foldlM_cons, idle path List.mem_cons_self]
    exact ih fun path mem => idle path (List.mem_cons_of_mem _ mem)

/-- **Part by part**, the calls do what the items do. -/
theorem refines_flatMap {ι : Type} {parts : List ι} {paths : ι → List (List Core)}
    {its : ι → List Item}
    (each : ∀ x ∈ parts, ∀ t f, Holds t f → Refines (steps buf (paths x) t) (f.gatherAll (its x)))
    (holds : Holds t f) :
    Refines (steps buf (parts.flatMap paths) t) (f.gatherAll (parts.flatMap its)) := by
  induction parts generalizing t f with
  | nil => exact holds
  | cons x parts ih =>
    rw [List.flatMap_cons, List.flatMap_cons, steps_append, gatherAll_append]
    refine (each x List.mem_cons_self t f holds).bind fun t f holds => ?_
    exact ih (fun y mem => each y (List.mem_cons_of_mem x mem)) holds

/-! ## The slots of a call -/

/-- A slot in the middle of a path. -/
theorem view_stack (buf : List UInt8) (front : List Core) (x : Core) (rest : List Core) :
    (view buf (front ++ x :: rest)).stack front.length = objOf x := by
  change objOf ((front ++ x :: rest).getD front.length _) = objOf x
  rw [List.getD_append_right _ _ _ _ (Nat.le_refl _), Nat.sub_self]
  rfl

theorem core_name (v : Value) (name : ℕ × ℕ) (e i : ℕ) :
    (v.core name e i).2.2.1 = name.1 ∧ (v.core name e i).2.2.2.1 = name.2 := by
  cases v <;> exact ⟨rfl, rfl⟩

/-- The name of a member in its slot. -/
theorem entry_named {x : Entry} (in_ : x.In buf) (front rest : List Core) :
    Named (view buf (front ++ x.value.core x.slice front.length x.start :: rest)) front.length
      x.name := by
  obtain ⟨start, lies, place⟩ := in_.name
  refine ⟨?_, lies.noNul⟩
  obtain ⟨first, last⟩ := core_name x.value x.slice front.length x.start
  rw [view_stack]
  change slice _ (x.value.core x.slice front.length x.start).2.2.1
    (x.value.core x.slice front.length x.start).2.2.2.1 = x.name
  rw [first, last]
  rcases place with place | ⟨empty, place⟩
  · rw [place]
    exact slice_eq lies.here
  · rw [place, empty]
    rfl

/-- The value of a string in its slot. -/
theorem entry_reads {x : Entry} (in_ : x.In buf) {s : Str} (string : x.value = .string s)
    (front : List Core) :
    Reads (view buf (front ++ [x.value.core x.slice front.length x.start])) front.length s := by
  have lies : Lies buf (x.start + 1) s := by
    have value := in_.value
    rw [string] at value
    exact (Lies.right (a := [Json.quote]) value).left
  refine ⟨?_, ?_, lies.noNul⟩
  · rw [view_stack, string]
    exact Nat.le_add_right _ _
  · rw [view_stack, string]
    exact slice_eq lies.here

theorem own_depth (front : List Core) (v : Value) (name : ℕ × ℕ) (i : ℕ) :
    ((view buf (front ++ [v.core name front.length i])).stack front.length).depth =
      front.length := by
  rw [view_stack]
  cases v <;> rfl

end Steps

end Teres.Tools.Tasks
