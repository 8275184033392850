import Teres.Laws.Tools.GatherCalls

/-!
# The items of a task object

What the calls for a task object do to its task is what its items do, member by member
(`refines_entry`): a member of another name is for nothing, an array has its strings
(`refines_array`) and an object its members (`refines_object`). The slots up to the task object are
`front`.
-/

namespace Teres.Tools.Tasks

open Json (Tree Core Value Members Entry Lies Lexicon)
open Bld (Str ascii maxChildren)

/-! ## Members of a task -/

section Entries

variable {buf : List UInt8} {t : Task} {f : Fields} {front : List Core} {x : Entry}

theorem step_concat (front : List Core) (c : Core) (t : Task) : step buf t (front ++ [c]) =
    result t <$> gatherMember .linux (view buf (front ++ [c])) front.length t := by
  unfold step
  rw [List.length_append, List.length_singleton, Nat.add_sub_cancel]

/-- The items of the members that are seen, at their places. -/
theorem seen_flatMap {α : Type} (members : Members) (i : ℕ) (g : Str × Value → List α) :
    members.seen.flatMap g = (members.placed i).flatMap fun x => g x.named := by
  rw [← members.named_placed i, List.flatMap_map]

/-- What is in a container. -/
theorem members_lie (in_ : x.In buf) {brace : Bool} {members : Members}
    (node : x.value = .node brace members) : Lies buf (x.start + 1) members.text := by
  have value := in_.value
  rw [node] at value
  exact (Lies.right (a := [Json.openingByte brace]) value).left

/-- The slot of a member above `front`. -/
def slot (front : List Core) (x : Entry) : Core := x.value.core x.slice front.length x.start

theorem paths_node {brace : Bool} {members : Members} (node : x.value = .node brace members)
    (front : List Core) : x.paths front front.length =
      members.paths (front ++ [slot front x]) (front ++ [slot front x]).length (x.start + 1) ++
        [front ++ [slot front x]] := by
  unfold Entry.paths slot
  rw [node, List.length_append]
  rfl

theorem paths_leaf (leaf : ∀ brace members, x.value ≠ .node brace members) (front : List Core) :
    x.paths front front.length = [front ++ [slot front x]] := by
  unfold Entry.paths slot
  cases value : x.value with
  | node brace members => exact absurd value (leaf brace members)
  | _ => rfl

theorem string_leaf {v : Value} (string : IsString v) :
    ∀ brace members, v ≠ .node brace members := by
  obtain ⟨s, rfl⟩ := string
  exact fun _ _ same => nomatch same

/-- **The strings of an array**, one item each. -/
theorem refines_strings {members : Members} {i : ℕ} (lies : Lies buf i members.text)
    (strings : ∀ entry ∈ members.entries, IsString entry.2) {item : Str → Item}
    (each : ∀ z : Entry, z.In buf → ∀ s ∈ members.seen.flatMap (fun e => e.2.strings),
      z.value = .string s → ∀ t f, Holds t f →
      Refines (step buf t (front ++ [slot front z])) (f.gather (item s)))
    (holds : Holds t f) :
    Refines (steps buf (members.paths front front.length i) t)
      (f.gatherAll ((members.seen.flatMap fun e => e.2.strings).map item)) := by
  rw [members.paths_placed, List.map_flatMap, seen_flatMap members i]
  refine refines_flatMap (fun z mem t f holds => ?_) holds
  have seen := Members.placed_seen mem
  have string := strings z.named (members.seen_sublist.subset seen)
  rw [paths_leaf (string_leaf string), steps_single]
  obtain ⟨s, string⟩ := string
  have strings : z.named.2.strings = [s] := by rw [string]; rfl
  rw [strings, List.map_singleton, gatherAll_single]
  refine each z (Members.placed_in lies z mem) s ?_ string t f holds
  exact List.mem_flatMap.2 ⟨z.named, seen, strings ▸ List.mem_singleton_self s⟩

section Slots

variable (four : front.length = 4)

include four

theorem named_four (in_ : x.In buf) (rest : List Core) :
    Named (view buf (front ++ slot front x :: rest)) 4 x.name := by
  have named := entry_named in_ front rest
  rw [four] at named
  rw [slot, four]
  exact named

/-- A member that is neither a command nor a label is nothing by itself. -/
theorem step_own (in_ : x.In buf) (command : x.name ≠ ascii "command")
    (label : x.name ≠ ascii "label") (t : Task) : step buf t (front ++ [slot front x]) = .ok t := by
  have depth : ((view buf (front ++ [slot front x])).stack front.length).depth = front.length :=
    own_depth front x.value x.slice x.start
  have shallow : ¬4 < front.length := by omega
  rw [step_concat, gatherMember_named (named_four four in_ []), depth, if_neg fun h => command h.1,
    if_neg fun h => shallow h.1, if_neg label, if_neg shallow]
  rfl

/-- **A command** is copied where there is none. -/
theorem refines_command (in_ : x.In buf) (name : x.name = ascii "command") {s : Str}
    (string : x.value = .string s) (size : s.length < maxPath) (holds : Holds t f) :
    Refines (step buf t (front ++ [slot front x])) (f.gather (.command s)) := by
  have depth : ((view buf (front ++ [slot front x])).stack front.length).depth = front.length :=
    own_depth front x.value x.slice x.start
  have shallow : ¬4 < front.length := by omega
  have none : t.first .command = 0 ↔ f.command = [] := (holds.text .command).first_eq_zero
  rw [step_concat, gatherMember_named (named_four four in_ []), depth, name]
  by_cases empty : f.command = []
  · rw [if_pos ⟨rfl, none.2 empty⟩, Fields.gather, if_neg (not_not.2 empty)]
    exact refines_linuxCommand holds (entry_reads in_ string front) size
  · rw [if_neg fun h => empty (none.1 h.2), if_neg fun h => shallow h.1, if_neg (by decide),
      if_neg shallow, Fields.gather, if_pos empty]
    exact holds

/-- **A label** is copied. -/
theorem refines_labelled (in_ : x.In buf) (name : x.name = ascii "label") {s : Str}
    (string : x.value = .string s) (size : s.length < maxLabel) (holds : Holds t f) :
    Refines (step buf t (front ++ [slot front x])) (f.gather (.label s)) := by
  have other : ascii "label" ≠ ascii "command" := by decide
  have shallow : ¬4 < front.length := by omega
  have depth : ((view buf (front ++ [slot front x])).stack front.length).depth = front.length :=
    own_depth front x.value x.slice x.start
  rw [step_concat, gatherMember_named (named_four four in_ []), depth, name,
    if_neg fun h => other h.1, if_neg fun h => shallow h.1, if_pos rfl]
  exact refines_label holds (entry_reads in_ string front) size

end Slots

/-! ## Members of members -/

/-- The slots below a member of a member called `name`. -/
structure Under (buf : List UInt8) (front : List Core) (name : Str) : Prop where
  length : front.length = 5
  named : ∀ c rest, Named (view buf (front ++ c :: rest)) 4 name

theorem under (four : front.length = 4) (in_ : x.In buf) :
    Under buf (front ++ [slot front x]) x.name where
  length := by
    rw [List.length_append, four]
    rfl
  named c rest := by
    rw [← List.append_cons]
    exact named_four four in_ (c :: rest)

section Under

variable {name : Str}

theorem Under.five (under : Under buf front name) (in_ : x.In buf) (rest : List Core) :
    Named (view buf (front ++ slot front x :: rest)) 5 x.name := by
  have named := entry_named in_ front rest
  rw [under.length] at named
  rw [slot, under.length]
  exact named

/-- A call for a member of a member. -/
theorem Under.step_eq (under : Under buf front name) (command : name ≠ ascii "command")
    (label : name ≠ ascii "label") (x : Entry) (t : Task) :
    step buf t (front ++ [slot front x]) = result t <$>
      if name = ascii "linux" then
        gatherPlatform (view buf (front ++ [slot front x])) front.length t
      else gatherDeep (view buf (front ++ [slot front x])) front.length t := by
  have depth : ((view buf (front ++ [slot front x])).stack front.length).depth = front.length :=
    own_depth front x.value x.slice x.start
  have deep : 4 < front.length := under.length ▸ Nat.lt_succ_self 4
  rw [step_concat, gatherMember_named (under.named _ _), depth, if_neg fun h => command h.1]
  simp only [deep, true_and, if_true, label, if_false]

end Under

/-- The calls of a member go on from its slot. -/
theorem paths_above {path : List Core} (mem : path ∈ x.paths front front.length) :
    ∃ rest, path = front ++ slot front x :: rest := by
  obtain ⟨⟨rest, eq⟩, _⟩ := x.value.paths_own front x.slice x.start path mem
  refine ⟨rest, ?_⟩
  rw [← eq, List.append_assoc]
  rfl

theorem step_none {path : List Core}
    (none : gatherMember .linux (view buf path) (path.length - 1) t = .ok none) :
    step buf t path = .ok t := by
  unfold step
  rw [none]
  rfl

/-- What a call for a member of a member is for: a member of `"linux"` that is no command and no
arguments is for nothing. -/
theorem linux_idle {tree : Tree} {obj : ℕ} (four : Named tree 4 (ascii "linux")) {name : Str}
    (five : Named tree 5 name) (command : name ≠ ascii "command") (args : name ≠ ascii "args") :
    gatherMember .linux tree obj t = .ok none := by
  have noCommand : ascii "linux" ≠ ascii "command" := by decide
  have noLabel : ascii "linux" ≠ ascii "label" := by decide
  rw [gatherMember_named four, if_neg fun h => noCommand h.1, if_neg noLabel]
  by_cases deep : 4 < (tree.stack obj).depth
  · rw [if_pos ⟨deep, rfl⟩, gatherPlatform_named five, if_neg command, if_neg fun h => args h.2]
  · rw [if_neg fun h => deep h.1, if_neg deep]

/-- A member of `"options"` that is no directory is for nothing. -/
theorem options_idle {tree : Tree} {obj : ℕ} (four : Named tree 4 (ascii "options")) {name : Str}
    (five : Named tree 5 name) (cwd : name ≠ ascii "cwd") :
    gatherMember .linux tree obj t = .ok none := by
  have noCommand : ascii "options" ≠ ascii "command" := by decide
  have noLinux : ascii "options" ≠ ascii "linux" := by decide
  have noLabel : ascii "options" ≠ ascii "label" := by decide
  rw [gatherMember_named four, if_neg fun h => noCommand h.1, if_neg fun h => noLinux h.2,
    if_neg noLabel]
  by_cases deep : 4 < (tree.stack obj).depth
  · rw [if_pos deep, gatherDeep_named four, if_neg (by decide), if_neg (by decide), if_pos rfl,
      five.matches "cwd" (by decide), decide_eq_false cwd]
    rfl
  · rw [if_neg deep]

/-- **An entry of `"args"` in `"linux"`.** -/
theorem Under.refines_linuxArgs {y : Entry} (under : Under buf front (ascii "linux"))
    (in_ : x.In buf) (args : x.name = ascii "args") (yIn : y.In buf) {s : Str}
    (string : y.value = .string s) (size : s.length < maxPath) (holds : Holds t f) :
    Refines (step buf t (front ++ [slot front x] ++ [slot (front ++ [slot front x]) y]))
      (f.gather (.linuxArg s)) := by
  have command : ascii "linux" ≠ ascii "command" := by decide
  have noCommand : ascii "args" ≠ ascii "command" := by decide
  have six : (front ++ [slot front x]).length = 6 := by
    rw [List.length_append, under.length]
    rfl
  have depth : ((view buf (front ++ [slot front x] ++ [slot (front ++ [slot front x]) y])).stack
      (front ++ [slot front x]).length).depth = (front ++ [slot front x]).length :=
    own_depth (front ++ [slot front x]) y.value y.slice y.start
  have five : Named (view buf (front ++ [slot front x] ++ [slot (front ++ [slot front x]) y])) 5
      x.name := by
    rw [← List.append_cons]
    exact under.five in_ _
  have four : Named (view buf (front ++ [slot front x] ++ [slot (front ++ [slot front x]) y])) 4
      (ascii "linux") := by
    rw [← List.append_cons]
    exact under.named _ _
  have deep : 4 < (front ++ [slot front x]).length := by omega
  have deeper : 5 < (front ++ [slot front x]).length := by omega
  rw [step_concat, gatherMember_named four, depth, if_neg fun h => command h.1, if_pos ⟨deep, rfl⟩,
    gatherPlatform_named five, depth, args, if_neg noCommand, if_pos ⟨deeper, rfl⟩]
  exact refines_linuxArg holds (entry_reads yIn string _) size

/-- **The members of `"linux"`.** -/
theorem refines_linuxEntry (under : Under buf front (ascii "linux")) (in_ : x.In buf)
    (typed : LinuxEntry x.named)
    (declared : ∀ item ∈ linuxItems Members.seen x.named, item.text.length < item.size)
    (holds : Holds t f) :
    Refines (steps buf (x.paths front front.length) t)
      (f.gatherAll (linuxItems Members.seen x.named)) := by
  have command : ascii "linux" ≠ ascii "command" := by decide
  have label : ascii "linux" ≠ ascii "label" := by decide
  unfold linuxItems at declared ⊢
  by_cases isCommand : x.name = ascii "command"
  · obtain ⟨s, string⟩ := typed.command isCommand
    have strings : x.value.strings = [s] := congrArg Value.strings string
    rw [if_pos isCommand, strings, List.map_singleton] at declared ⊢
    have size : s.length < maxPath := declared _ List.mem_cons_self
    rw [paths_leaf (string_leaf ⟨s, string⟩), steps_single, gatherAll_single,
      under.step_eq command label, if_pos rfl, gatherPlatform_named (under.five in_ []),
      if_pos isCommand]
    exact refines_linuxCommand holds (entry_reads in_ string front) size
  by_cases isArgs : x.name = ascii "args"
  · obtain ⟨members, node, strings⟩ := typed.args isArgs
    have elements : x.value.elements Members.seen =
        members.seen.flatMap fun e => e.2.strings :=
      congrArg (Value.elements Members.seen) node
    rw [if_neg isCommand, if_pos isArgs, elements] at declared ⊢
    rw [paths_node node, steps_append]
    refine Refines.idle (refines_strings (members_lie in_ node) strings ?_ holds) fun t => ?_
    · intro z zIn s mem string t f holds
      have size : s.length < maxPath := declared _ (List.mem_map_of_mem mem)
      exact under.refines_linuxArgs in_ isArgs zIn string size holds
    · have depth : ((view buf (front ++ [slot front x])).stack front.length).depth =
          front.length := own_depth front x.value x.slice x.start
      have shallow : ¬5 < front.length := under.length ▸ Nat.lt_irrefl 5
      rw [steps_single, under.step_eq command label, if_pos rfl,
        gatherPlatform_named (under.five in_ []), depth, if_neg isCommand,
        if_neg fun h => shallow h.1]
      rfl
  · rw [if_neg isCommand, if_neg isArgs]
    rw [steps_idle fun path mem t => ?_]
    · exact holds
    · obtain ⟨rest, rfl⟩ := paths_above mem
      exact step_none (linux_idle (under.named _ _) (under.five in_ rest) isCommand isArgs)

/-- **An entry of `"args"`.** -/
theorem Under.refines_args (under : Under buf front (ascii "args")) (in_ : x.In buf) {s : Str}
    (string : x.value = .string s) (size : s.length < maxPath) (holds : Holds t f) :
    Refines (step buf t (front ++ [slot front x])) (f.gather (.arg s)) := by
  rw [under.step_eq (by decide) (by decide), if_neg (by decide), gatherDeep_named (under.named _ _),
    if_pos rfl]
  exact refines_arg holds (entry_reads in_ string front) size

/-- **An entry of `"dependsOn"`.** -/
theorem Under.refines_dependsOn (under : Under buf front (ascii "dependsOn")) (in_ : x.In buf)
    {s : Str} (string : x.value = .string s) (size : s.length < maxLabel) (holds : Holds t f) :
    Refines (step buf t (front ++ [slot front x])) (f.gather (.dependsOn s)) := by
  rw [under.step_eq (by decide) (by decide), if_neg (by decide), gatherDeep_named (under.named _ _),
    if_neg (by decide), if_pos rfl]
  exact Tasks.refines_dependsOn holds (entry_reads in_ string front) size

/-- **The members of `"options"`.** -/
theorem refines_optionEntry (under : Under buf front (ascii "options")) (in_ : x.In buf)
    (typed : x.name = ascii "cwd" → IsString x.value)
    (declared : ∀ item ∈ optionItems x.named, item.text.length < item.size) (holds : Holds t f) :
    Refines (steps buf (x.paths front front.length) t) (f.gatherAll (optionItems x.named)) := by
  unfold optionItems at declared ⊢
  by_cases isCwd : x.name = ascii "cwd"
  · obtain ⟨s, string⟩ := typed isCwd
    have strings : x.value.strings = [s] := congrArg Value.strings string
    rw [if_pos isCwd, strings, List.map_singleton] at declared ⊢
    have size : s.length < maxPath := declared _ List.mem_cons_self
    rw [paths_leaf (string_leaf ⟨s, string⟩), steps_single, gatherAll_single,
      under.step_eq (by decide) (by decide), if_neg (by decide), gatherDeep_named (under.named _ _),
      if_neg (by decide), if_neg (by decide), if_pos rfl,
      (under.five in_ []).matches "cwd" (by decide), decide_eq_true isCwd]
    exact refines_cwd holds (entry_reads in_ string front) size
  · rw [if_neg isCwd, steps_idle fun path mem t => ?_]
    · exact holds
    · obtain ⟨rest, rfl⟩ := paths_above mem
      exact step_none (options_idle (under.named _ _) (under.five in_ rest) isCwd)

/-! ## The members of a task object -/

/-- A member of another name is for nothing. -/
theorem other_idle {tree : Tree} {obj : ℕ} {name : Str} (four : Named tree 4 name)
    (command : name ≠ ascii "command") (linux : name ≠ ascii "linux") (label : name ≠ ascii "label")
    (args : name ≠ ascii "args") (dependsOn : name ≠ ascii "dependsOn")
    (options : name ≠ ascii "options") : gatherMember .linux tree obj t = .ok none := by
  rw [gatherMember_named four, if_neg fun h => command h.1, if_neg fun h => linux h.2, if_neg label]
  split
  · rw [gatherDeep_named four, if_neg args, if_neg dependsOn, if_neg options]
  · rfl

/-- **A member that may be an object**: the members of the object, and nothing for other values. -/
theorem refines_object (four : front.length = 4) (in_ : x.In buf)
    (command : x.name ≠ ascii "command") (label : x.name ≠ ascii "label") {lexicon : Lexicon}
    (wf : x.value.WellFormed lexicon false) {its : Str × Value → List Item}
    (unnamed : ∀ y : Entry, y.In buf → y.name = [] → ∀ path ∈ y.paths (front ++ [slot front x])
      (front ++ [slot front x]).length, ∀ t, step buf t path = .ok t)
    (each : ∀ members, x.value = .node true members → ∀ y : Entry, y.In buf →
      y.named ∈ members.seen → ∀ t f, Holds t f → Refines (steps buf (y.paths
        (front ++ [slot front x]) (front ++ [slot front x]).length) t) (f.gatherAll (its y.named)))
    (holds : Holds t f) :
    Refines (steps buf (x.paths front front.length) t)
      (f.gatherAll ((x.value.members Members.seen).flatMap its)) := by
  have own (t : Task) : steps buf [front ++ [slot front x]] t = .ok t := by
    rw [steps_single, step_own four in_ command label]
  by_cases leaf : ∀ brace members, x.value ≠ .node brace members
  · have none : x.value.members Members.seen = [] := by
      cases value : x.value with
      | node brace members => exact absurd value (leaf brace members)
      | _ => rfl
    rw [none, paths_leaf leaf, own]
    exact holds
  obtain ⟨brace, members, node⟩ : ∃ brace members, x.value = .node brace members := by
    by_contra none
    exact leaf fun brace members node => none ⟨brace, members, node⟩
  have lies := members_lie in_ node
  rw [paths_node node, steps_append, members.paths_placed]
  cases brace with
  | true =>
    have seen : x.value.members Members.seen = members.seen :=
      congrArg (Value.members Members.seen) node
    rw [seen, seen_flatMap members (x.start + 1)]
    refine Refines.idle (refines_flatMap (fun y mem => ?_) holds) own
    exact each members node y (Members.placed_in lies y mem) (Members.placed_seen mem)
  | false =>
    have none : x.value.members Members.seen = [] := congrArg (Value.members Members.seen) node
    rw [node] at wf
    rw [none, steps_idle fun path mem => ?_]
    · change Refines (steps buf [front ++ [slot front x]] t) (some f)
      rw [own]
      exact holds
    · obtain ⟨y, placed, above⟩ := List.mem_flatMap.1 mem
      have seen := members.seen_sublist.subset (Members.placed_seen placed)
      have empty : y.name = [] := (Json.Members.WellFormed.entries wf y.named seen).2 rfl
      exact unnamed y (Members.placed_in lies y placed) empty path above

/-- **A member that is an array of strings**: an item each, and nothing for a string. -/
theorem refines_array (four : front.length = 4) (in_ : x.In buf)
    (command : x.name ≠ ascii "command") (label : x.name ≠ ascii "label")
    (typed : IsString x.value ∨ IsStrings x.value) {item : Str → Item}
    (each : ∀ z : Entry, z.In buf → ∀ s ∈ x.value.elements Members.seen, z.value = .string s →
      ∀ t f, Holds t f → Refines (step buf t (front ++ [slot front x] ++
        [slot (front ++ [slot front x]) z])) (f.gather (item s)))
    (holds : Holds t f) :
    Refines (steps buf (x.paths front front.length) t)
      (f.gatherAll ((x.value.elements Members.seen).map item)) := by
  have own (t : Task) : steps buf [front ++ [slot front x]] t = .ok t := by
    rw [steps_single, step_own four in_ command label]
  rcases typed with string | ⟨members, node, strings⟩
  · have leaf := string_leaf string
    obtain ⟨s, string⟩ := string
    have none : x.value.elements Members.seen = [] := congrArg (Value.elements Members.seen) string
    rw [none, paths_leaf leaf, own]
    exact holds
  · have elements : x.value.elements Members.seen =
        members.seen.flatMap fun e => e.2.strings := congrArg (Value.elements Members.seen) node
    rw [elements] at each ⊢
    rw [paths_node node, steps_append]
    exact Refines.idle (refines_strings (members_lie in_ node) strings each holds) own

/-- **The members of a task object** do what their items do. -/
theorem refines_entry (four : front.length = 4) (in_ : x.In buf) {lexicon : Lexicon}
    (wf : x.value.WellFormed lexicon false) (typed : TaskEntry x.named)
    (declared : ∀ item ∈ entryItems Members.seen x.named, item.text.length < item.size)
    (holds : Holds t f) :
    Refines (steps buf (x.paths front front.length) t)
      (f.gatherAll (entryItems Members.seen x.named)) := by
  have below := under four in_
  unfold entryItems at declared ⊢
  by_cases command : x.name = ascii "command"
  · obtain ⟨s, string⟩ := typed.command command
    have strings : x.value.strings = [s] := congrArg Value.strings string
    rw [if_pos command, strings, List.map_singleton] at declared ⊢
    rw [paths_leaf (string_leaf ⟨s, string⟩), steps_single, gatherAll_single]
    exact refines_command four in_ command string (declared _ List.mem_cons_self) holds
  rw [if_neg command] at declared ⊢
  by_cases linux : x.name = ascii "linux"
  · have label : x.name ≠ ascii "label" := by rw [linux]; decide
    rw [if_pos linux] at declared ⊢
    rw [linux] at below
    refine refines_object four in_ command label wf ?_ ?_ holds
    · intro y yIn empty path mem t
      obtain ⟨rest, rfl⟩ := paths_above mem
      exact step_none (linux_idle (below.named _ _) (below.five yIn rest) (by rw [empty]; decide)
        (by rw [empty]; decide))
    · intro members node y yIn seen t f holds
      have within := (typed.linux linux members node).2 y.named
        (members.seen_sublist.subset seen)
      refine refines_linuxEntry below yIn within (fun item mem => declared item ?_) holds
      rw [show x.named.2 = _ from node]
      exact List.mem_flatMap.2 ⟨y.named, seen, mem⟩
  rw [if_neg linux] at declared ⊢
  by_cases label : x.name = ascii "label"
  · obtain ⟨s, string⟩ := typed.label label
    have strings : x.value.strings = [s] := congrArg Value.strings string
    rw [if_pos label, strings, List.map_singleton] at declared ⊢
    rw [paths_leaf (string_leaf ⟨s, string⟩), steps_single, gatherAll_single]
    exact refines_labelled four in_ label string (declared _ List.mem_cons_self) holds
  rw [if_neg label] at declared ⊢
  by_cases args : x.name = ascii "args"
  · rw [if_pos args] at declared ⊢
    rw [args] at below
    refine refines_array four in_ command label (.inr (typed.args args)) ?_ holds
    intro z zIn s mem string t f holds
    exact below.refines_args zIn string (declared _ (List.mem_map_of_mem mem)) holds
  rw [if_neg args] at declared ⊢
  by_cases dependsOn : x.name = ascii "dependsOn"
  · rw [if_pos dependsOn] at declared ⊢
    rw [dependsOn] at below
    refine refines_array four in_ command label (typed.dependsOn dependsOn) ?_ holds
    intro z zIn s mem string t f holds
    exact below.refines_dependsOn zIn string (declared _ (List.mem_map_of_mem mem)) holds
  rw [if_neg dependsOn] at declared ⊢
  by_cases options : x.name = ascii "options"
  · rw [if_pos options] at declared ⊢
    rw [options] at below
    refine refines_object four in_ command label wf ?_ ?_ holds
    · intro y yIn empty path mem t
      obtain ⟨rest, rfl⟩ := paths_above mem
      exact step_none (options_idle (below.named _ _) (below.five yIn rest)
        (by rw [empty]; decide))
    · intro members node y yIn seen t f holds
      have within := typed.options options members node y.named (members.seen_sublist.subset seen)
      refine refines_optionEntry below yIn within (fun item mem => declared item ?_) holds
      rw [show x.named.2 = _ from node]
      exact List.mem_flatMap.2 ⟨y.named, seen, mem⟩
  rw [if_neg options, steps_idle fun path mem t => ?_]
  · exact holds
  · obtain ⟨rest, rfl⟩ := paths_above mem
    exact step_none (other_idle (named_four four in_ rest) command linux label args dependsOn
      options)

/-- **A task object** does what its items do. -/
theorem refines_task (four : front.length = 4) {members : Members} {i : ℕ}
    (lies : Lies buf i members.text) {lexicon : Lexicon}
    (wf : members.WellFormed lexicon false true) (typed : TaskObject members)
    (declared : ∀ item ∈ items Members.seen members, item.text.length < item.size)
    (holds : Holds t f) :
    Refines (steps buf (members.paths front front.length i) t)
      (f.gatherAll (items Members.seen members)) := by
  rw [members.paths_placed, items, seen_flatMap members i]
  refine refines_flatMap (fun x mem t f holds => ?_) holds
  have seen := Members.placed_seen mem
  have entry := members.seen_sublist.subset seen
  refine refines_entry four (Members.placed_in lies x mem)
    (Json.Members.WellFormed.entries wf x.named entry).1 (typed.entries x.named entry)
    (fun item within => declared item ?_) holds
  exact List.mem_flatMap.2 ⟨x.named, seen, within⟩

/-- **An array** in the place of a task object is for nothing. -/
theorem steps_array (four : front.length = 4) {members : Members} {i : ℕ}
    (lies : Lies buf i members.text) {lexicon : Lexicon}
    (wf : members.WellFormed lexicon false false) (t : Task) :
    steps buf (members.paths front front.length i) t = .ok t := by
  refine steps_idle (fun path mem t => ?_) t
  rw [members.paths_placed] at mem
  obtain ⟨x, placed, above⟩ := List.mem_flatMap.1 mem
  obtain ⟨rest, rfl⟩ := paths_above above
  have seen := members.seen_sublist.subset (Members.placed_seen placed)
  have empty : x.name = [] := (Json.Members.WellFormed.entries wf x.named seen).2 rfl
  have named := named_four four (Members.placed_in lies x placed) rest
  rw [empty] at named
  exact step_none (other_idle named (by decide) (by decide) (by decide) (by decide) (by decide)
    (by decide))

end Entries

end Teres.Tools.Tasks
