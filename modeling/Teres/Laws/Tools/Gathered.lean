import Teres.Laws.Tools.GatherTask

/-!
# The tasks that a document gathers
-/

namespace Teres.Tools.Tasks

open Json (Tree Core Value Members Entry Lies Lexicon Own)
open Bld (Str ascii maxChildren)

/-! ## The id of a task -/

section Id

variable {tree : Tree} {obj limit : ℕ} {t : Task} {c : Copy}

theorem copyValue_id {field : Field}
    (copied : copyValue tree obj limit field t = .ok (some c)) : c.after.id = t.id := by
  obtain ⟨c', eq, _, before, written, _⟩ := copyValue_spec copied
  obtain rfl := Option.some.inj eq
  rw [written.id, before]

theorem copySlot_id {slots : Fin (maxChildren + 1) → Field}
    (copied : copySlot tree obj slots t = .ok (some c)) : c.after.id = t.id := by
  unfold copySlot at copied
  split at copied
  · cases copied
  · exact copyValue_id copied

theorem bldArgs_id {platform : Bool} (copied : bldArgs tree obj t platform = .ok (some c)) :
    c.after.id = t.id := by
  unfold bldArgs at copied
  split at copied
  · cases copied
  · refine (copySlot_id copied).trans ?_
    dsimp only
    split <;> rfl

/-- **A call keeps the id of its task.** -/
theorem gatherMember_id {platform : Platform}
    (copied : gatherMember platform tree obj t = .ok (some c)) : c.after.id = t.id := by
  obtain ⟨command, _, copied⟩ := ok_of_bind copied
  split at copied
  · exact copyValue_id copied
  obtain ⟨generic, _, copied⟩ := ok_of_bind copied
  split at copied
  · obtain ⟨command, _, copied⟩ := ok_of_bind copied
    split at copied
    · exact copyValue_id copied
    split at copied
    · obtain ⟨args, _, copied⟩ := ok_of_bind copied
      split at copied
      · exact bldArgs_id copied
      · cases copied
    · cases copied
  obtain ⟨label, _, copied⟩ := ok_of_bind copied
  split at copied
  · exact copyValue_id copied
  split at copied
  · obtain ⟨args, _, copied⟩ := ok_of_bind copied
    split at copied
    · exact bldArgs_id copied
    obtain ⟨dependsOn, _, copied⟩ := ok_of_bind copied
    split at copied
    · exact copySlot_id copied
    obtain ⟨options, _, copied⟩ := ok_of_bind copied
    split at copied
    · obtain ⟨cwd, _, copied⟩ := ok_of_bind copied
      split at copied
      · exact copyValue_id copied
      · cases copied
    · cases copied
  · cases copied

end Id

theorem step_id {buf : List UInt8} {t t' : Task} {path : List Core}
    (stepped : step buf t path = .ok t') : t'.id = t.id := by
  unfold step at stepped
  cases gathered : gatherMember .linux (view buf path) (path.length - 1) t with
  | error halt =>
    rw [gathered] at stepped
    cases stepped
  | ok copy =>
    rw [gathered] at stepped
    cases copy with
    | none =>
      cases stepped
      rfl
    | some c =>
      cases stepped
      exact gatherMember_id gathered

theorem steps_id {buf : List UInt8} {paths : List (List Core)} {t t' : Task}
    (stepped : steps buf paths t = .ok t') : t'.id = t.id := by
  induction paths generalizing t with
  | nil =>
    cases stepped
    rfl
  | cons path paths ih =>
    rw [steps, List.foldlM_cons] at stepped
    obtain ⟨t₁, first, later⟩ := ok_of_bind stepped
    exact (ih later).trans (step_id first)

/-! ## The task of a call -/

/-- Tasks that have ids, and other ids than `id`. -/
def Apart (id : ℕ) (tasks : List Task) : Prop := ∀ t ∈ tasks, t.id ≠ 0 ∧ t.id ≠ id

theorem seek_last {id : ℕ} {tasks : List Task} (apart : Apart id tasks) {t : Task}
    (own : t.id = id) : seek id (tasks ++ [t]) = (tasks, t, []) := by
  induction tasks with
  | nil => exact if_pos own
  | cons u tasks ih =>
    have later := ih fun t mem => apart t (List.mem_cons_of_mem u mem)
    have other : u.id ≠ id := (apart u List.mem_cons_self).2
    rw [List.cons_append, seek, if_neg other, later]

theorem seek_new {id : ℕ} {tasks : List Task} (apart : Apart id tasks) :
    seek id tasks = (tasks, Task.new id, []) := by
  induction tasks with
  | nil => rfl
  | cons u tasks ih =>
    have later := ih fun t mem => apart t (List.mem_cons_of_mem u mem)
    have other : u.id ≠ id := (apart u List.mem_cons_self).2
    rw [seek, if_neg other, later]

/-- **The task of a call is the last one**, from the first call for it on. -/
theorem select_last {id : ℕ} (some : id ≠ 0) {tasks : List Task} (apart : Apart id tasks) {t : Task}
    (own : t.id = id) : select id (tasks ++ [t]) = (tasks, t, []) := by
  cases tasks with
  | nil =>
    have set : t.id ≠ 0 := own ▸ some
    change (if t.id = 0 then _ else _) = _
    rw [if_neg set]
    exact seek_last (fun _ mem => absurd mem List.not_mem_nil) own
  | cons u tasks =>
    have set : u.id ≠ 0 := (apart u List.mem_cons_self).1
    change (if u.id = 0 then _ else _) = _
    rw [if_neg set]
    exact seek_last apart own

/-- A call that is inside of an element of the tasks. -/
structure Inside (buf : List UInt8) (path : List Core) (id : ℕ) : Prop where
  own : ((view buf path).stack (path.length - 1)).depth = path.length - 1
  deep : 3 < path.length - 1
  tasks : Named (view buf path) 2 (ascii "tasks")
  element : Named (view buf path) 3 []
  id : ((view buf path).stack 3).valueStart = id

/-- What a call leaves of the tasks `before` and the task of the call. -/
def Leaves (before : List Task) : Except Gather Gather → M Task → Prop
  | .ok s, .ok t => s.halted = none ∧ s.tasks = before ++ [t]
  | .error s, .error halt => s.halted = some halt
  | _, _ => False

/-- **A call inside of a task is a step on it.** -/
theorem Inside.leaves {buf : List UInt8} {path : List Core} {id : ℕ} (inside : Inside buf path id)
    {s : Gather} {before : List Task} {t : Task} (going : s.halted = none)
    (selected : select id s.tasks = (before, t, [])) :
    Leaves before (call .linux buf path s) (step buf t path) := by
  have deep : 3 < ((view buf path).stack (path.length - 1)).depth := by
    rw [inside.own]
    exact inside.deep
  have gathered : gatherTasks .linux (view buf path) (path.length - 1) s =
      gatherValue .linux (view buf path) (path.length - 1) s :=
    gatherTasks_inTask ⟨deep,
      (inside.tasks.matches "tasks" (by decide)).trans rfl,
      (inside.element.matches "" (by decide)).trans rfl⟩
  unfold call step
  rw [gathered]
  unfold gatherValue
  rw [inside.id, selected]
  dsimp only
  cases gatherMember .linux (view buf path) (path.length - 1) t with
  | error halt => rfl
  | ok copy =>
    cases copy with
    | none => exact ⟨going, rfl⟩
    | some c => exact ⟨going, rfl⟩

/-- **The calls for an element are steps on its task.** -/
theorem inside_leaves {buf : List UInt8} {id : ℕ} (some : id ≠ 0) {before : List Task}
    (apart : Apart id before) {path : List Core} {paths : List (List Core)}
    (inside : ∀ p ∈ path :: paths, Inside buf p id) {s : Gather} {t : Task} (own : t.id = id)
    (going : s.halted = none) (selected : select id s.tasks = (before, t, [])) :
    Leaves before (Json.calls (call .linux) buf (path :: paths) s)
      (steps buf (path :: paths) t) := by
  induction paths generalizing path s t with
  | nil =>
    rw [Json.calls_single, steps_single]
    exact (inside path List.mem_cons_self).leaves going selected
  | cons next paths ih =>
    have first := (inside path List.mem_cons_self).leaves going selected
    rw [Json.calls, List.foldlM_cons, steps, List.foldlM_cons]
    cases called : call .linux buf path s with
    | error s' =>
      cases stepped : step buf t path with
      | error halt =>
        rw [called, stepped] at first
        exact first
      | ok t' =>
        rw [called, stepped] at first
        exact first.elim
    | ok s' =>
      cases stepped : step buf t path with
      | error halt =>
        rw [called, stepped] at first
        exact first.elim
      | ok t' =>
        rw [called, stepped] at first
        obtain ⟨going', tasks⟩ := first
        have own' : t'.id = id := (step_id stepped).trans own
        refine ih (fun p mem => inside p (List.mem_cons_of_mem path mem)) own' going' ?_
        rw [tasks]
        exact select_last some apart own'

/-! ## From element to element -/

/-- Between two elements: the tasks so far hold their strings, and their ids are below `bound`. The
root is the first of them, once there is one. -/
structure Rests (fs : List Fields) (bound : ℕ) (s : Gather) : Prop where
  going : s.halted = none
  tasks : ∃ tasks, List.Forall₂ Holds tasks fs ∧ (∀ t ∈ tasks, t.id ≠ 0 ∧ t.id < bound) ∧
    (tasks = [] ∧ s.tasks = [Task.new 0] ∨ tasks ≠ [] ∧ s.tasks = tasks)

theorem rests_rooted : Rests [] 1 rooted where
  going := rfl
  tasks := ⟨[], .nil, fun _ mem => absurd mem List.not_mem_nil, .inl ⟨rfl, rfl⟩⟩

theorem Rests.mono {fs : List Fields} {bound bound' : ℕ} {s : Gather} (rests : Rests fs bound s)
    (le : bound ≤ bound') : Rests fs bound' s where
  going := rests.going
  tasks := by
    obtain ⟨tasks, holds, ids, is⟩ := rests.tasks
    exact ⟨tasks, holds, fun t mem => ⟨(ids t mem).1, Nat.lt_of_lt_of_le (ids t mem).2 le⟩, is⟩

/-- The task of the next element is a new one. -/
theorem Rests.selects {fs : List Fields} {bound id : ℕ} {s : Gather} (rests : Rests fs bound s)
    (le : bound ≤ id) :
    ∃ tasks, List.Forall₂ Holds tasks fs ∧ (∀ t ∈ tasks, t.id ≠ 0 ∧ t.id < id) ∧
      select id s.tasks = (tasks, Task.new id, []) := by
  obtain ⟨tasks, holds, ids, is⟩ := (rests.mono le).tasks
  refine ⟨tasks, holds, ids, ?_⟩
  rcases is with ⟨rfl, is⟩ | ⟨filled, is⟩
  · rw [is]
    rfl
  · rw [is]
    cases tasks with
    | nil => exact absurd rfl filled
    | cons u tasks =>
      have set : u.id ≠ 0 := (ids u List.mem_cons_self).1
      change (if u.id = 0 then _ else _) = _
      rw [if_neg set]
      exact seek_new fun t mem => ⟨(ids t mem).1, Nat.ne_of_lt (ids t mem).2⟩

/-- What calls gather: tasks that hold their strings, or the program exits. -/
def Gathers (bound : ℕ) : Except Gather Gather → Option (List Fields) → Prop
  | .ok s, some fs => Rests fs bound s
  | .error s, none => s.halted = some .exit
  | _, _ => False

theorem Gathers.bind {bound bound' : ℕ} {r : Except Gather Gather} {o : Option (List Fields)}
    {k : Gather → Except Gather Gather} {k' : List Fields → Option (List Fields)}
    (gathers : Gathers bound r o)
    (next : ∀ s fs, Rests fs bound s → Gathers bound' (k s) (k' fs)) :
    Gathers bound' (r >>= k) (o >>= k') := by
  match r, o, gathers with
  | .ok s, some fs, rests => exact next s fs rests
  | .error s, none, halted => exact halted

theorem Gathers.idle {bound : ℕ} {r : Except Gather Gather} {o : Option (List Fields)}
    {k : Gather → Except Gather Gather} (gathers : Gathers bound r o)
    (idle : ∀ s, k s = .ok s) : Gathers bound (r >>= k) o := by
  match r, o, gathers with
  | .ok s, some fs, rests =>
    change Gathers bound (k s) (some fs)
    rw [idle]
    exact rests
  | .error s, none, halted => exact halted

/-- The items of one more task gathered. -/
def addTask (fs : List Fields) (its : List Item) : Option (List Fields) :=
  (Fields.empty.gatherAll its).map fun f => fs ++ [f]

/-- What a task holds behind the steps of its element. -/
theorem gathers_task {fs : List Fields} {its : List Item} {id : ℕ} {tasks : List Task}
    (holds : List.Forall₂ Holds tasks fs) (ids : ∀ t ∈ tasks, t.id ≠ 0 ∧ t.id < id)
    {r : Except Gather Gather} {m : M Task} (leaves : Leaves tasks r m)
    (refines : Refines m (Fields.empty.gatherAll its)) (own : ∀ t, m = .ok t → t.id = id)
    (some_ : id ≠ 0) : Gathers (id + 1) r (addTask fs its) := by
  unfold addTask
  match r, m, leaves with
  | .ok s, .ok t, ⟨going, is⟩ =>
    cases gathered : Fields.empty.gatherAll its with
    | none =>
      rw [gathered] at refines
      exact refines.elim
    | some f =>
      rw [gathered] at refines
      refine ⟨going, tasks ++ [t], List.rel_append holds (.cons refines .nil), ?_, .inr ⟨?_, is⟩⟩
      · intro u mem
        rcases List.mem_append.1 mem with before | last
        · exact ⟨(ids u before).1, Nat.lt_succ_of_lt (ids u before).2⟩
        · obtain rfl := List.mem_singleton.1 last
          rw [own u rfl]
          exact ⟨some_, Nat.lt_succ_self id⟩
      · exact List.append_ne_nil_of_right_ne_nil _ (List.cons_ne_nil _ _)
  | .error s, .error halt, halted =>
    cases gathered : Fields.empty.gatherAll its with
    | none =>
      rw [gathered] at refines
      cases halt with
      | exit => exact halted
      | fault => exact refines.elim
    | some f =>
      rw [gathered] at refines
      cases halt <;> exact refines.elim

/-! ## The calls of a document -/

theorem own_view {buf : List UInt8} {path : List Core} (own : Own path) :
    ((view buf path).stack (path.length - 1)).depth = path.length - 1 := by
  obtain ⟨front, c, rfl, depth⟩ := own
  rw [List.length_append, List.length_singleton, Nat.add_sub_cancel, view_stack]
  exact depth

section Document

variable {buf : List UInt8} {s : Gather} {front : List Core} {x : Entry}

/-- Calls that leave all as it is. -/
theorem calls_idle {paths : List (List Core)}
    (idle : ∀ path ∈ paths, ∀ s, call .linux buf path s = .ok s) (s : Gather) :
    Json.calls (call .linux) buf paths s = .ok s := by
  induction paths with
  | nil => rfl
  | cons path paths ih =>
    rw [Json.calls, List.foldlM_cons, idle path List.mem_cons_self]
    exact ih fun path mem => idle path (List.mem_cons_of_mem _ mem)

/-- The calls for the root and its members are for nothing. -/
theorem call_shallow {path : List Core} (own : Own path) (shallow : path.length ≤ 3) (s : Gather) :
    call .linux buf path s = .ok s := by
  have depth : ((view buf path).stack (path.length - 1)).depth < 3 := by
    rw [own_view own]
    omega
  unfold call gatherTasks
  rw [if_pos depth]

/-- The calls for an element of the tasks, and those in members of other names. -/
theorem call_outside {path : List Core} (own : Own path) {name : Str}
    (named : Named (view buf path) 2 name) (outside : name ≠ ascii "tasks" ∨ path.length ≤ 4)
    (s : Gather) : call .linux buf path s = .ok s := by
  have nothing : gatherTasks .linux (view buf path) (path.length - 1) s = .ok s := by
    unfold gatherTasks
    rw [own_view own, named.matches "tasks" (by decide)]
    split
    · rfl
    rcases outside with other | short
    · rw [decide_eq_false other]
      rfl
    · have shallow : ¬path.length - 1 > 3 := by omega
      rw [if_neg shallow]
      cases decide (name = ascii "tasks") <;> rfl
  unfold call
  rw [nothing]

theorem above_named (in_ : x.In buf) {n : ℕ} (length : front.length = n) (rest : List Core) :
    Named (view buf (front ++ slot front x :: rest)) n x.name := by
  have named := entry_named in_ front rest
  rw [length] at named
  rw [slot, length]
  exact named

/-- The calls in an element are inside of its task. -/
theorem element_inside (three : front.length = 3)
    (tasks : ∀ c rest, Named (view buf (front ++ c :: rest)) 2 (ascii "tasks")) (in_ : x.In buf)
    (unnamed : x.name = []) {brace : Bool} {members : Members}
    (node : x.value = .node brace members) :
    ∀ path ∈ members.paths (front ++ [slot front x]) (front ++ [slot front x]).length (x.start + 1),
      Inside buf path (x.start + 1) := by
  intro path mem
  obtain ⟨_, own⟩ := members.paths_own _ _ path mem
  rw [members.paths_placed] at mem
  obtain ⟨y, _, above⟩ := List.mem_flatMap.1 mem
  obtain ⟨rest, rfl⟩ := paths_above above
  have deep : 3 < (front ++ [slot front x] ++
      slot (front ++ [slot front x]) y :: rest).length - 1 := by
    simp only [List.length_append, List.length_cons, List.length_nil]
    omega
  have element := above_named in_ three (slot (front ++ [slot front x]) y :: rest)
  have start : ((view buf (front ++ slot front x :: slot (front ++ [slot front x]) y :: rest)).stack
      front.length).valueStart = x.start + 1 := by
    rw [view_stack]
    unfold slot
    rw [node]
    rfl
  rw [unnamed] at element
  rw [three] at start
  rw [← List.append_cons] at own deep ⊢
  exact ⟨own_view own, deep, tasks _ _, element, start⟩

/-- **An element** gathers what its items make of a new task, if it has members. -/
theorem gathers_element (three : front.length = 3)
    (tasks : ∀ c rest, Named (view buf (front ++ c :: rest)) 2 (ascii "tasks")) (in_ : x.In buf)
    (unnamed : x.name = []) {lexicon : Lexicon} (wf : x.value.WellFormed lexicon false)
    (typed : ∀ task, x.value = .node true task → TaskObject task)
    (declared : ∀ its, elementItems Members.seen x.value = some its →
      ∀ item ∈ its, item.text.length < item.size)
    {fs : List Fields} {bound : ℕ} (le : bound ≤ x.start + 1) (rests : Rests fs bound s) :
    Gathers (x.start + 2) (Json.calls (call .linux) buf (x.paths front front.length) s)
      ((elementItems Members.seen x.value).elim (some fs) (addTask fs)) := by
  have own (s : Gather) : Json.calls (call .linux) buf [front ++ [slot front x]] s = .ok s := by
    have short : (front ++ [slot front x]).length ≤ 4 := by
      rw [List.length_append, three]
      exact Nat.le_refl 4
    rw [Json.calls_single]
    exact call_outside (Json.own_core x.value front x.slice x.start) (tasks _ _) (.inr short) s
  have later : Rests fs (x.start + 2) s := rests.mono (Nat.le_succ_of_le le)
  by_cases leaf : ∀ brace members, x.value ≠ .node brace members
  · have none : elementItems Members.seen x.value = none := by
      cases value : x.value with
      | node brace members => exact absurd value (leaf brace members)
      | _ => rfl
    rw [none, paths_leaf leaf, own]
    exact later
  obtain ⟨brace, members, node⟩ : ∃ brace members, x.value = .node brace members := by
    by_contra none
    exact leaf fun brace members node => none ⟨brace, members, node⟩
  have inside := element_inside three tasks in_ unnamed node
  have lies := members_lie in_ node
  have four : (front ++ [slot front x]).length = 4 := by
    rw [List.length_append, three]
    rfl
  rw [node] at wf declared ⊢
  rw [paths_node node, Json.calls_append]
  refine Gathers.idle ?_ own
  cases paths : members.paths (front ++ [slot front x]) (front ++ [slot front x]).length
      (x.start + 1) with
  | nil =>
    have empty : members.seen.isEmpty = true :=
      List.isEmpty_iff.2 (Members.paths_eq_nil.1 paths)
    have none : elementItems Members.seen (.node brace members) = none := if_pos empty
    rw [none]
    exact later
  | cons path rest =>
    rw [paths] at inside
    have filled : ¬members.seen.isEmpty = true := by
      intro empty
      rw [Members.paths_eq_nil.2 (List.isEmpty_iff.1 empty)] at paths
      cases paths
    have items_ : elementItems Members.seen (.node brace members) =
        some (if brace then items Members.seen members else []) := if_neg filled
    rw [items_] at declared ⊢
    obtain ⟨before, holds, ids, selected⟩ := rests.selects le
    have refines : Refines (steps buf (path :: rest) (Task.new (x.start + 1)))
        (Fields.empty.gatherAll (if brace then items Members.seen members else [])) := by
      rw [← paths]
      cases brace with
      | true => exact refines_task four lies wf (typed members node) (declared _ rfl) (holds_new _)
      | false =>
        rw [steps_array four lies wf]
        exact holds_new _
    exact gathers_task holds ids (inside_leaves (Nat.succ_ne_zero _)
      (fun t mem => ⟨(ids t mem).1, Nat.ne_of_lt (ids t mem).2⟩) inside rfl rests.going selected)
      refines (fun t stepped => steps_id stepped) (Nat.succ_ne_zero _)

theorem Gathers.mono {bound bound' : ℕ} {r : Except Gather Gather} {o : Option (List Fields)}
    (gathers : Gathers bound r o) (le : bound ≤ bound') : Gathers bound' r o := by
  match r, o, gathers with
  | .ok s, some fs, rests => exact Rests.mono rests le
  | .error s, none, halted => exact halted

/-- **Member by member**, the tasks of a container are gathered. -/
theorem gathers_members {e : ℕ} {k : List Fields → Str × Value → Option (List Fields)} :
    ∀ {members : Members} {i : ℕ},
      (∀ x ∈ members.placed i, ∀ {s fs bound}, bound ≤ x.start + 1 → Rests fs bound s →
        Gathers (x.start + x.value.text.length + 1)
          (Json.calls (call .linux) buf (x.paths front e) s) (k fs x.named)) →
      ∀ {s : Gather} {fs : List Fields} {bound : ℕ}, bound ≤ i + 1 → Rests fs bound s →
      Gathers (i + members.text.length + 1)
        (Json.calls (call .linux) buf (members.paths front e i) s) (members.seen.foldlM k fs)
  | .nil _, i, _, s, fs, bound, le, rests => rests.mono (by omega)
  | .last head v post, i, each, s, fs, bound, le, rests => by
    have length : (Members.last head v post).text.length =
        head.text.length + (v.text.length + post.length) := by
      rw [Members.text, List.length_append, List.length_append]
    rw [Members.paths, Members.seen]
    rw [Members.placed] at each
    cases lost : v.lost post with
    | true => exact rests.mono (by omega)
    | false =>
      rw [lost] at each
      have gathers := each _ List.mem_cons_self (Nat.le_trans le (by dsimp only; omega)) rests
      rw [if_neg Bool.false_ne_true, if_neg Bool.false_ne_true, List.foldlM_cons]
      change Gathers _ _ (k fs (head.label, v) >>= pure)
      rw [bind_pure]
      exact gathers.mono (by dsimp only; omega)
  | .more head v post rest, i, each, s, fs, bound, le, rests => by
    have length : (Members.more head v post rest).text.length =
        head.text.length + (v.text.length + (post.length + 1 + rest.text.length)) := by
      simp only [Members.text, List.length_append, List.length_cons]
      omega
    have gathers := each _ List.mem_cons_self (Nat.le_trans le (by dsimp only; omega)) rests
    rw [Members.paths, Members.seen, Json.calls_append, List.foldlM_cons]
    refine Gathers.bind gathers fun s fs rests => ?_
    refine (gathers_members (fun x mem => each x (List.mem_cons_of_mem _ mem)) ?_ rests).mono ?_
    · dsimp only
      omega
    · omega

/-- The tasks of the elements gathered. -/
def addElement (fs : List Fields) (entry : Str × Value) : Option (List Fields) :=
  (elementItems Members.seen entry.2).elim (some fs) (addTask fs)

/-- The tasks of the root's members gathered. -/
def addMember (fs : List Fields) (entry : Str × Value) : Option (List Fields) :=
  match entry.2 with
  | .node false members =>
    if entry.1 = ascii "tasks" then members.seen.foldlM addElement fs else some fs
  | _ => some fs

/-- **The array of the tasks.** -/
theorem gathers_array (two : front.length = 2) (in_ : x.In buf) (name : x.name = ascii "tasks")
    {members : Members} (node : x.value = .node false members) {lexicon : Lexicon}
    (wf : members.WellFormed lexicon false false)
    (typed : ∀ e ∈ members.entries, ∀ task, e.2 = .node true task → TaskObject task)
    (declared : ∀ e ∈ members.seen, ∀ its, elementItems Members.seen e.2 = some its →
      ∀ item ∈ its, item.text.length < item.size)
    {fs : List Fields} {bound : ℕ} (le : bound ≤ x.start + 1) (rests : Rests fs bound s) :
    Gathers (x.start + x.value.text.length + 1)
      (Json.calls (call .linux) buf (x.paths front front.length) s)
      (members.seen.foldlM addElement fs) := by
  have length : x.value.text.length = members.text.length + 2 := by
    rw [node]
    simp only [Value.text, List.length_cons, List.length_append, List.length_nil]
  have three : (front ++ [slot front x]).length = 3 := by
    rw [List.length_append, two]
    rfl
  have lies := members_lie in_ node
  have named (c : Core) (rest : List Core) :
      Named (view buf (front ++ [slot front x] ++ c :: rest)) 2 (ascii "tasks") := by
    rw [← List.append_cons, ← name]
    exact above_named in_ two (c :: rest)
  rw [paths_node node, Json.calls_append]
  refine Gathers.idle (Gathers.mono (gathers_members (fun y mem s fs bound le rests => ?_)
    (Nat.le_succ_of_le le) rests) ?_) fun s => ?_
  · have seen := Members.placed_seen mem
    have entry := members.seen_sublist.subset seen
    obtain ⟨wfValue, unnamed⟩ := Json.Members.WellFormed.entries wf y.named entry
    have pos : 0 < y.value.text.length := Json.value_pos wfValue
    refine (gathers_element three named (Members.placed_in lies y mem) (unnamed rfl) wfValue
      (typed y.named entry) (declared y.named seen) le rests).mono ?_
    omega
  · omega
  · rw [Json.calls_single]
    refine call_shallow (Json.own_core x.value front x.slice x.start) ?_ s
    rw [List.length_append, two]
    exact Nat.le_refl 3

/-- **A member of the root** gathers its tasks, if it is called so. -/
theorem gathers_member (two : front.length = 2) (in_ : x.In buf) {lexicon : Lexicon}
    (wf : x.value.WellFormed lexicon false)
    (typed : x.name = ascii "tasks" → ∃ members, x.value = .node false members ∧
      ∀ e ∈ members.entries, ∀ task, e.2 = .node true task → TaskObject task)
    (declared : ∀ members, x.value = .node false members → x.name = ascii "tasks" →
      ∀ e ∈ members.seen, ∀ its, elementItems Members.seen e.2 = some its →
        ∀ item ∈ its, item.text.length < item.size)
    {fs : List Fields} {bound : ℕ} (le : bound ≤ x.start + 1) (rests : Rests fs bound s) :
    Gathers (x.start + x.value.text.length + 1)
      (Json.calls (call .linux) buf (x.paths front front.length) s) (addMember fs x.named) := by
  unfold addMember
  by_cases name : x.name = ascii "tasks"
  · obtain ⟨members, node, objects⟩ := typed name
    have gathers := gathers_array two in_ name node (by rw [node] at wf; exact wf) objects
      (declared members node name) le rests
    rw [show x.named.2 = _ from node]
    dsimp only
    rw [if_pos name]
    exact gathers
  · have nothing : addMember fs x.named = some fs := by
      unfold addMember
      split
      · exact if_neg name
      · rfl
    unfold addMember at nothing
    rw [nothing, calls_idle fun path mem s => ?_]
    · exact rests.mono (by omega)
    · obtain ⟨_, own⟩ := x.value.paths_own front x.slice x.start path mem
      obtain ⟨rest, rfl⟩ := paths_above mem
      exact call_outside own (above_named in_ two rest) (.inl name) s

end Document

/-! ## All tasks -/

theorem foldlM_filterMap {α β σ : Type} (g : α → Option β) (k : σ → β → Option σ) (l : List α)
    (s : σ) : (l.filterMap g).foldlM k s = l.foldlM (fun s a => (g a).elim (some s) (k s)) s := by
  induction l generalizing s with
  | nil => rfl
  | cons a l ih =>
    rw [List.foldlM_cons]
    cases some_ : g a with
    | none =>
      rw [List.filterMap_cons_none some_]
      exact ih s
    | some b =>
      rw [List.filterMap_cons_some some_, List.foldlM_cons]
      exact congrArg _ (funext ih)

theorem foldlM_flatMap {α β σ : Type} (g : α → List β) (k : σ → β → Option σ) (l : List α) (s : σ) :
    (l.flatMap g).foldlM k s = l.foldlM (fun s a => (g a).foldlM k s) s := by
  induction l generalizing s with
  | nil => rfl
  | cons a l ih =>
    rw [List.flatMap_cons, List.foldlM_append, List.foldlM_cons]
    exact congrArg _ (funext ih)

theorem mapM_eq_some {α β : Type} {g : α → Option β} {k : α → β} {P : α → Prop} {l : List α}
    (each : ∀ a ∈ l, ∀ b, g a = some b ↔ P a ∧ b = k a) (bs : List β) :
    l.mapM g = some bs ↔ (∀ a ∈ l, P a) ∧ bs = l.map k := by
  induction l generalizing bs with
  | nil => simp [eq_comm]
  | cons a l ih =>
    have first := each a List.mem_cons_self
    have rest := ih fun b mem => each b (List.mem_cons_of_mem a mem)
    rw [List.mapM_cons]
    constructor
    · intro all
      obtain ⟨b, here, all⟩ := Option.bind_eq_some_iff.1 all
      obtain ⟨bs', later, same⟩ := Option.bind_eq_some_iff.1 all
      obtain ⟨pa, rfl⟩ := (first b).1 here
      obtain ⟨pl, rfl⟩ := (rest bs').1 later
      exact ⟨List.forall_mem_cons.2 ⟨pa, pl⟩, (Option.some.inj same).symm⟩
    · rintro ⟨all, rfl⟩
      obtain ⟨pa, pl⟩ := List.forall_mem_cons.1 all
      rw [(first (k a)).2 ⟨pa, rfl⟩, (rest (l.map k)).2 ⟨pl, rfl⟩]
      rfl

/-- The tasks of a document, one after another. -/
theorem foldlM_addMember (root : Members) (fs : List Fields) :
    root.seen.foldlM addMember fs =
      ((elements Members.seen root).filterMap (elementItems Members.seen)).foldlM addTask fs := by
  rw [foldlM_filterMap, elements, foldlM_flatMap]
  refine congrArg (fun k => List.foldlM k fs root.seen) (funext fun fs => funext fun entry => ?_)
  obtain ⟨name, value⟩ := entry
  match value with
  | .node false members =>
    unfold addMember
    dsimp only
    split
    · rw [List.foldlM_map]
      rfl
    · rfl
  | .node true members => rfl
  | .string body => rfl
  | .scalar type lexeme => rfl

theorem foldlM_addTask (l : List (List Item)) (fs : List Fields) :
    l.foldlM addTask fs = (l.mapM Fields.empty.gatherAll).map (fs ++ ·) := by
  induction l generalizing fs with
  | nil => simp
  | cons its l ih =>
    rw [List.foldlM_cons, List.mapM_cons, addTask]
    cases Fields.empty.gatherAll its with
    | none => rfl
    | some f =>
      change l.foldlM addTask (fs ++ [f]) = _
      rw [ih]
      cases l.mapM Fields.empty.gatherAll with
      | none => rfl
      | some fs' => exact congrArg some (List.append_assoc fs [f] fs')

/-- The tasks of a document as `bld__make` reads them. -/
def gatheredTasks (root : Members) : Option (List Bld.Task) :=
  ((tasksItems Members.seen root).mapM Fields.empty.gatherAll).map (List.map Fields.built)

theorem Rests.built {fs : List Fields} {bound : ℕ} {s : Gather} (rests : Rests fs bound s) :
    s.tasks.map Build.built = (if fs = [] then [Fields.empty] else fs).map Fields.built := by
  have all {tasks : List Task} {fs : List Fields} (holds : List.Forall₂ Holds tasks fs) :
      tasks.map Build.built = fs.map Fields.built := by
    induction holds with
    | nil => rfl
    | cons first _ ih => rw [List.map_cons, List.map_cons, first.built, ih]
  obtain ⟨tasks, holds, _, ⟨rfl, is⟩ | ⟨filled, is⟩⟩ := rests.tasks
  · cases holds
    rw [is, if_pos rfl]
    exact congrArg (fun b => [b]) (holds_new 0).built
  · have some_ : fs ≠ [] := by
      rintro rfl
      cases holds
      exact filled rfl
    rw [is, if_neg some_]
    exact all holds

theorem mapM_tasksItems (root : Members) :
    (tasksItems Members.seen root).mapM Fields.empty.gatherAll =
      (((elements Members.seen root).filterMap (elementItems Members.seen)).mapM
        Fields.empty.gatherAll).map fun fs => if fs = [] then [Fields.empty] else fs := by
  unfold tasksItems
  split
  next none =>
    rw [none]
    rfl
  next some_ =>
    cases tasks : (elements Members.seen root).filterMap (elementItems Members.seen) with
    | nil => exact absurd tasks some_
    | cons its l =>
      rw [List.mapM_cons]
      cases Fields.empty.gatherAll its with
      | none => rfl
      | some f =>
        cases l.mapM Fields.empty.gatherAll with
        | none => rfl
        | some fs => rfl

theorem mem_tasksItems {root members : Members} {name : Str} {value : Value}
    {e : Str × Value} {its : List Item} (seen : (name, value) ∈ root.seen)
    (node : value = .node false members) (tasks : name = ascii "tasks") (within : e ∈ members.seen)
    (items_ : elementItems Members.seen e.2 = some its) : its ∈ tasksItems Members.seen root := by
  have element : e.2 ∈ elements Members.seen root := by
    refine List.mem_flatMap.2 ⟨(name, value), seen, ?_⟩
    rw [node]
    dsimp only
    rw [if_pos tasks]
    exact List.mem_map_of_mem within
  have mem := List.mem_filterMap.2 ⟨e.2, element, items_⟩
  unfold tasksItems
  split
  next none =>
    rw [none] at mem
    exact absurd mem List.not_mem_nil
  next => exact mem

/-- **The calls of a document** gather the items of its tasks. -/
theorem gathers_document {lexicon : Lexicon} {buf : List UInt8} {front : List Core}
    {members : Members} {start : ℕ} (one : front.length = 1)
    (lies : Lies buf (start + 1) members.text) (wf : members.WellFormed lexicon false true)
    (typed : TasksJson members) (declared : ∀ its ∈ tasksItems Members.seen members,
      ∀ item ∈ its, item.text.length < item.size) :
    ∃ bound, Gathers bound
      (Json.calls (call .linux) buf ((Value.node true members).paths front (0, 0) 1 start) rooted)
      (((elements Members.seen members).filterMap (elementItems Members.seen)).mapM
        Fields.empty.gatherAll) := by
  have two : (front ++ [(Value.node true members).core (0, 0) 1 start]).length = 2 := by
    rw [List.length_append, one]
    rfl
  have each : ∀ x ∈ members.placed (start + 1), ∀ {s fs bound}, bound ≤ x.start + 1 →
      Rests fs bound s → Gathers (x.start + x.value.text.length + 1)
        (Json.calls (call .linux) buf (x.paths (front ++
          [(Value.node true members).core (0, 0) 1 start]) 2) s) (addMember fs x.named) := by
    intro x mem s fs bound le rests
    have seen := Members.placed_seen mem
    have entry := members.seen_sublist.subset seen
    have gathers := gathers_member two (Members.placed_in lies x mem)
      (Json.Members.WellFormed.entries wf x.named entry).1 (typed x.named entry)
      (fun array node name e within its items_ item =>
        declared its (mem_tasksItems seen node name within items_) item) le rests
    rw [two] at gathers
    exact gathers
  have own (s : Gather) : Json.calls (call .linux) buf [front ++
      [(Value.node true members).core (0, 0) 1 start]] s = .ok s := by
    rw [Json.calls_single]
    refine call_shallow ⟨front, _, rfl, one.symm⟩ ?_ s
    rw [two]
    exact Nat.le_succ 2
  have all := Gathers.idle (gathers_members each (Nat.le_add_left _ _) rests_rooted) own
  rw [foldlM_addMember, foldlM_addTask, ← Json.calls_append] at all
  simp only [List.nil_append, Option.map_id'] at all
  exact ⟨_, all⟩

/-- A document that the parser reads. -/
structure Readable (lexicon : Lexicon) (space : List UInt8) (root : Members) : Prop where
  blank : Json.Blank space
  wf : (Value.node true root).WellFormed lexicon false
  deep : (Value.node true root).depth < Json.maxDepth
  noNul : 0 ∉ (Value.node true root).text

/-- **What a document gathers** is what the items of its tasks make of new tasks. -/
theorem gathered_document {lexicon : Lexicon} {space : List UInt8} {members : Members}
    (blank : Json.Blank space) (wf : (Value.node true members).WellFormed lexicon false)
    (deep : (Value.node true members).depth < Json.maxDepth)
    (noNul : 0 ∉ (Value.node true members).text) (typed : TasksJson members)
    (declared : ∀ its ∈ tasksItems Members.seen members, ∀ item ∈ its, item.text.length < item.size)
    (rest : List UInt8) (memory : Tree) {fuel : ℕ} (enough : members.text.length + 2 ≤ fuel) :
    Build.gathered .linux fuel memory (space ++ ((Value.node true members).text ++ rest)) =
      match gatheredTasks members with
      | some tasks => .ok tasks
      | none => .error (.exit (-10) []) := by
  obtain ⟨t, parsed, buf, visits⟩ :=
    Json.visits_document (sees_callback .linux) blank wf deep rest memory
  have one : (Json.above t 1).length = 1 := by simp [Json.above]
  have lies : Lies t.buf (space.length + 1) members.text := by
    have whole : Lies t.buf space.length (Value.node true members).text := by
      refine ⟨?_, noNul⟩
      rw [buf, List.append_assoc, List.append_assoc, List.drop_left]
      exact List.prefix_append _ _
    exact (Lies.right (a := [Json.openingByte true]) whole).left
  obtain ⟨bound, all⟩ := gathers_document one lies wf typed declared
  have ends := visits fuel enough rooted
  have text : space ++ ((Value.node true members).text ++ rest) ≠ [] := by
    simp [Value.text]
  unfold Build.gathered gatheredTasks
  rw [if_neg text, parsed]
  dsimp only
  rw [mapM_tasksItems]
  generalize Json.calls (call .linux) t.buf _ rooted = r at ends all
  cases gathered : ((elements Members.seen members).filterMap
      (elementItems Members.seen)).mapM Fields.empty.gatherAll with
  | none =>
    rw [gathered] at all
    cases r with
    | ok s => exact all.elim
    | error s =>
      obtain ⟨t', visited⟩ := ends
      have halted : s.halted = some .exit := all
      rw [visited]
      dsimp only
      rw [halted]
      rfl
  | some fs =>
    rw [gathered] at all
    cases r with
    | error s => exact all.elim
    | ok s =>
      obtain ⟨t', visited, _⟩ := ends
      have rests : Rests fs bound s := all
      rw [visited]
      dsimp only
      rw [rests.going, rests.built]
      rfl

end Teres.Tools.Tasks
