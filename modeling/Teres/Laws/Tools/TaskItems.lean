import Mathlib.Data.List.Induction
import Teres.Base.Named
import Teres.Tools.TasksDocument

/-!
# What the items of a task make

Gathered one after another, items make a task that depends on little of their order (`made`): an
empty string is left out, the arguments under `"linux"` replace the generic ones, and a command
gives way to one under `"linux"`, and to one behind an empty one (`command_eq_iff`). The program
exits at a string too long for `json__copy_string`, unless it is not copied (`gatherAll_eq_some`).
-/

namespace Teres.Tools.Tasks

open Json (Value Members)
open Bld (Str ascii maxChildren)

/-! ## Items in order -/

theorem gatherAll_append (f : Fields) (its its' : List Item) :
    f.gatherAll (its ++ its') = f.gatherAll its >>= fun f => f.gatherAll its' :=
  List.foldlM_append

theorem gatherAll_single (f : Fields) (item : Item) : f.gatherAll [item] = f.gather item := by
  rw [Fields.gatherAll, List.foldlM_cons]
  exact bind_pure (f.gather item)

/-- The command behind an item. -/
def nextCommand (c : Str) : Item → Str
  | .command s => if c = [] then s else c
  | .linuxCommand s => s
  | _ => c

/-- The command that items make. -/
def command (its : List Item) : Str := its.foldl nextCommand []

/-- The strings of a list that are not empty. -/
def filled (l : List Str) : List Str := l.filter (· ≠ [])

/-- The task that items make. -/
def made (its : List Item) : Fields where
  label := (labels its).getLast?.getD []
  command := command its
  cwd := (directories its).getLast?.getD []
  dependsOn := filled (dependencies its)
  args := filled (if linuxArgs its = [] then args its else linuxArgs its)
  platformArgs := linuxArgs its ≠ []

/-- A task with one more item. -/
def Fields.next (f : Fields) : Item → Fields
  | .label s => { f with label := s }
  | .command s => if f.command = [] then { f with command := s } else f
  | .linuxCommand s => { f with command := s }
  | .arg s => if f.platformArgs then f else { f with args := stored f.args s }
  | .linuxArg s =>
    { f with args := stored (if f.platformArgs then f.args else []) s, platformArgs := true }
  | .dependsOn s => { f with dependsOn := stored f.dependsOn s }
  | .cwd s => { f with cwd := s }

/-- An item behind others that is copied, or needs no copy. -/
def Passes (before : List Item) : Item → Prop
  | .command s => command before ≠ [] ∨ Fits s
  | .arg s => linuxArgs before ≠ [] ∨ Fits s
  | .linuxCommand s | .linuxArg s | .cwd s => Fits s
  | .label _ | .dependsOn _ => True

theorem mem_filled {l : List Str} {s : Str} : s ∈ filled l ↔ s ∈ l ∧ s ≠ [] := by
  simp [filled]

theorem filled_concat (l : List Str) (s : Str) : filled (l ++ [s]) = stored (filled l) s := by
  unfold filled stored
  rw [List.filter_append]
  by_cases empty : s = []
  · simp [empty]
  · simp [empty]

section Gather

variable {its : List Item} {item : Item}

theorem made_concat (its : List Item) (item : Item) :
    made (its ++ [item]) = (made its).next item := by
  have kinds : labels (its ++ [item]) = labels its ++ labels [item] ∧
      dependencies (its ++ [item]) = dependencies its ++ dependencies [item] ∧
      args (its ++ [item]) = args its ++ args [item] ∧
      linuxArgs (its ++ [item]) = linuxArgs its ++ linuxArgs [item] ∧
      directories (its ++ [item]) = directories its ++ directories [item] :=
    ⟨List.filterMap_append, List.filterMap_append, List.filterMap_append, List.filterMap_append,
      List.filterMap_append⟩
  have next : command (its ++ [item]) = nextCommand (command its) item := List.foldl_concat ..
  obtain ⟨labels_, dependencies_, args_, linuxArgs_, directories_⟩ := kinds
  unfold made
  rw [labels_, dependencies_, args_, linuxArgs_, directories_, next]
  cases item with
  | label s =>
    simp [Fields.next, labels, dependencies, args, linuxArgs, directories, nextCommand]
  | command s =>
    by_cases empty : command its = []
    · simp [Fields.next, labels, dependencies, args, linuxArgs, directories, nextCommand, empty]
    · simp [Fields.next, labels, dependencies, args, linuxArgs, directories, nextCommand, empty]
  | linuxCommand s =>
    simp [Fields.next, labels, dependencies, args, linuxArgs, directories, nextCommand]
  | arg s =>
    have one : args [.arg s] = [s] := rfl
    have none : linuxArgs [.arg s] = [] := rfl
    rw [one, none, List.append_nil]
    by_cases linux : linuxArgs its = []
    · simp [Fields.next, labels, dependencies, directories, nextCommand, linux, filled_concat]
    · simp [Fields.next, labels, dependencies, directories, nextCommand, linux]
  | linuxArg s =>
    have one : linuxArgs [.linuxArg s] = [s] := rfl
    rw [one]
    by_cases linux : linuxArgs its = []
    · have single : filled [s] = stored [] s := filled_concat [] s
      simp [Fields.next, labels, dependencies, directories, nextCommand, linux, single]
    · simp [Fields.next, labels, dependencies, directories, nextCommand, linux, filled_concat]
  | dependsOn s =>
    have one : dependencies [.dependsOn s] = [s] := rfl
    rw [one, filled_concat]
    simp [Fields.next, labels, args, linuxArgs, directories, nextCommand]
  | cwd s =>
    simp [Fields.next, labels, dependencies, args, linuxArgs, directories, nextCommand]

theorem made_platform (its : List Item) : (made its).platformArgs = true ↔ linuxArgs its ≠ [] :=
  decide_eq_true_iff

/-- There is a slot for one more string. -/
theorem filled_room {l : List Str} {s : Str} {n : ℕ} (le : (l ++ [s]).length ≤ n) :
    (filled l).length < n := by
  have some_ : l.length < n := by
    rw [List.length_append] at le
    exact le
  exact Nat.lt_of_le_of_lt (List.length_filter_le _ _) some_

/-- A table has a slot for one more item. -/
theorem made_room (declared : Declared (its ++ [item])) :
    (∀ s, item = .dependsOn s → (made its).dependsOn.length < maxChildren) ∧
    (∀ s, item = .arg s → linuxArgs its = [] → (made its).args.length < maxChildren) ∧
    ∀ s, item = .linuxArg s →
      (if (made its).platformArgs then (made its).args else []).length < maxChildren := by
  refine ⟨?_, ?_, ?_⟩
  · rintro s rfl
    have more : dependencies (its ++ [.dependsOn s]) = dependencies its ++ [s] :=
      List.filterMap_append
    have counts := declared.dependencies
    rw [more] at counts
    exact filled_room counts
  · rintro s rfl linux
    have more : args (its ++ [.arg s]) = args its ++ [s] := List.filterMap_append
    have counts := declared.args
    rw [more] at counts
    unfold made
    rw [if_pos linux]
    exact filled_room counts
  · rintro s rfl
    have more : linuxArgs (its ++ [.linuxArg s]) = linuxArgs its ++ [s] := List.filterMap_append
    have counts := declared.linuxArgs
    rw [more] at counts
    split
    next platform =>
      have linux := (made_platform its).1 platform
      unfold made
      rw [if_neg linux]
      exact filled_room counts
    next => exact Nat.zero_lt_succ _

/-- **An item that passes is gathered**, and the program exits at any other. -/
theorem gather_made (declared : Declared (its ++ [item])) :
    (Passes its item → (made its).gather item = some (made (its ++ [item]))) ∧
      (¬Passes its item → (made its).gather item = none) := by
  obtain ⟨dependsOn_, args_, linuxArgs_⟩ := made_room declared
  rw [made_concat]
  cases item with
  | label s => exact ⟨fun _ => rfl, fun stops => absurd trivial stops⟩
  | command s =>
    by_cases empty : (made its).command = []
    · have passes : Passes its (.command s) ↔ Fits s := or_iff_right (not_not.2 empty)
      rw [passes, Fields.gather, if_neg (not_not.2 empty), Fields.next, if_pos empty]
      exact ⟨fun fits => if_pos fits, fun long => if_neg long⟩
    · rw [Fields.gather, if_pos empty, Fields.next, if_neg empty]
      exact ⟨fun _ => rfl, fun stops => absurd (.inl empty) stops⟩
  | linuxCommand s => exact ⟨fun fits => if_pos fits, fun long => if_neg long⟩
  | arg s =>
    by_cases linux : linuxArgs its = []
    · have generic : ¬(made its).platformArgs = true := (made_platform its).not_left.2 linux
      have passes : Passes its (.arg s) ↔ Fits s := or_iff_right (not_not.2 linux)
      have room := args_ s rfl linux
      rw [passes, Fields.gather, if_neg generic, Fields.next, if_neg generic]
      exact ⟨fun fits => if_pos ⟨room, fits⟩, fun long => if_neg fun h => long h.2⟩
    · have platform := (made_platform its).2 linux
      rw [Fields.gather, if_pos platform, Fields.next, if_pos platform]
      exact ⟨fun _ => rfl, fun stops => absurd (.inl linux) stops⟩
  | linuxArg s =>
    have room := linuxArgs_ s rfl
    exact ⟨fun fits => if_pos ⟨room, fits⟩, fun long => if_neg fun h => long h.2⟩
  | dependsOn s =>
    have room := dependsOn_ s rfl
    exact ⟨fun _ => if_pos room, fun stops => absurd trivial stops⟩
  | cwd s => exact ⟨fun fits => if_pos fits, fun long => if_neg long⟩

theorem Declared.sublist {its' : List Item} (declared : Declared its) (sub : its'.Sublist its) :
    Declared its' where
  size item mem := declared.size item (sub.subset mem)
  args := Nat.le_trans (sub.filterMap _).length_le declared.args
  linuxArgs := Nat.le_trans (sub.filterMap _).length_le declared.linuxArgs
  dependencies := Nat.le_trans (sub.filterMap _).length_le declared.dependencies

theorem Declared.perm {its' : List Item} (declared : Declared its) (perm : its.Perm its') :
    Declared its' where
  size item mem := declared.size item (perm.mem_iff.2 mem)
  args := (perm.filterMap _).length_eq ▸ declared.args
  linuxArgs := (perm.filterMap _).length_eq ▸ declared.linuxArgs
  dependencies := (perm.filterMap _).length_eq ▸ declared.dependencies

/-- Items that pass, each behind those in front of it. -/
def AllPass (its : List Item) : Prop :=
  ∀ before item behind, its = before ++ item :: behind → Passes before item

theorem allPass_concat : AllPass (its ++ [item]) ↔ AllPass its ∧ Passes its item := by
  constructor
  · intro all
    refine ⟨fun before i behind eq => all before i (behind ++ [item]) ?_, all its item [] rfl⟩
    rw [eq, List.append_assoc]
    rfl
  · rintro ⟨all, last⟩ before i behind eq
    rcases List.eq_nil_or_concat behind with rfl | ⟨behind, j, rfl⟩
    · obtain ⟨rfl, same⟩ := List.append_inj' eq rfl
      obtain rfl := List.singleton_inj.1 same
      exact last
    · rw [List.concat_eq_append, ← List.cons_append, ← List.append_assoc] at eq
      exact all before i behind (List.append_inj' eq rfl).1

/-- **Items are gathered** if and only if all of them pass. -/
theorem gatherAll_eq (declared : Declared its) :
    (AllPass its → Fields.empty.gatherAll its = some (made its)) ∧
      (¬AllPass its → Fields.empty.gatherAll its = none) := by
  induction its using List.reverseRecOn with
  | nil =>
    refine ⟨fun _ => rfl, fun stops => absurd (fun before item behind eq => ?_) stops⟩
    exact absurd eq.symm (List.append_ne_nil_of_right_ne_nil _ (List.cons_ne_nil _ _))
  | append_singleton its item ih =>
    obtain ⟨goes, stops⟩ := ih (declared.sublist (List.sublist_append_left its [item]))
    obtain ⟨passes, exits⟩ := gather_made declared
    have run : Fields.empty.gatherAll (its ++ [item]) =
        (Fields.empty.gatherAll its).bind fun f => f.gather item := by
      rw [gatherAll_append]
      exact congrArg _ (funext fun f => gatherAll_single f item)
    rw [allPass_concat, run]
    by_cases all : AllPass its
    · rw [goes all]
      exact ⟨fun h => passes h.2, fun h => exits fun last => h ⟨all, last⟩⟩
    · rw [stops all]
      exact ⟨fun h => absurd h.1 all, fun _ => rfl⟩

end Gather

/-! ## Commands -/

/-- A generic command that takes the place of an empty one under `"linux"`. -/
def Overridden (its : List Item) : Prop :=
  ∃ s, s ≠ [] ∧ [Item.linuxCommand [], Item.command s].Sublist its

/-- A string that need not be copied, behind the items `before`. -/
def Spared (before : List Item) : Item → Prop
  | .command _ => ∃ c, c ≠ [] ∧ .linuxCommand c ∈ before
  | .arg _ => ∃ a, .linuxArg a ∈ before
  | _ => False

/-- Strings that `json__copy_string` takes, or that need not be copied. -/
def Copyable (its : List Item) : Prop :=
  ∀ before item behind, its = before ++ item :: behind → Fits item.text ∨ Spared before item

section Commands

variable {its : List Item}

theorem foldl_nextCommand (none : linuxCommands its = []) (c : Str) :
    its.foldl nextCommand c = (filled (c :: commands its)).headD [] := by
  induction its generalizing c with
  | nil =>
    by_cases empty : c = []
    · simp [filled, commands, empty]
    · simp [filled, commands, empty]
  | cons item its ih =>
    cases item with
    | linuxCommand s => exact absurd none (List.cons_ne_nil _ _)
    | command s =>
      have more : commands (.command s :: its) = s :: commands its := rfl
      rw [List.foldl_cons, ih none, more, nextCommand]
      by_cases empty : c = []
      · simp [filled, empty]
      · simp [filled, empty]
    | _ => exact ih none c

/-- The command behind the last one under `"linux"`. -/
theorem command_behind {before behind : List Item} {c : Str} (none : linuxCommands behind = []) :
    command (before ++ .linuxCommand c :: behind) = (filled (c :: commands behind)).headD [] := by
  rw [command, List.foldl_append, List.foldl_cons]
  exact foldl_nextCommand none c

theorem linuxCommands_eq_cons {c : Str} {l : List Str} (eq : linuxCommands its = c :: l) :
    ∃ before behind, its = before ++ .linuxCommand c :: behind ∧ linuxCommands before = [] ∧
      linuxCommands behind = l := by
  obtain ⟨before, item, behind, rfl, none, some_, rest⟩ := List.filterMap_eq_cons_iff.1 eq
  have same : item = .linuxCommand c := by
    cases item with
    | linuxCommand s => exact congrArg _ (Option.some.inj some_)
    | _ => cases some_
  exact ⟨before, behind, by rw [same], List.filterMap_eq_nil_iff.2 none, rest⟩

/-- The strings of one kind of items. -/
theorem mem_kind {p : Item → Option Str} {kind : Str → Item}
    (only : ∀ item s, p item = some s ↔ kind s = item) {s : Str} :
    s ∈ its.filterMap p ↔ kind s ∈ its := by
  rw [List.mem_filterMap]
  simp only [only, exists_eq_right']

theorem mem_commands {c : Str} : c ∈ commands its ↔ .command c ∈ its :=
  mem_kind fun item s => by cases item <;> simp [eq_comm]

theorem mem_linuxCommands {c : Str} : c ∈ linuxCommands its ↔ .linuxCommand c ∈ its :=
  mem_kind fun item s => by cases item <;> simp [eq_comm]

theorem mem_linuxArgs {a : Str} : a ∈ linuxArgs its ↔ .linuxArg a ∈ its :=
  mem_kind fun item s => by cases item <;> simp [eq_comm]

/-- A list that begins with what is not in a prefix begins behind it. -/
theorem sublist_behind {α : Type} {a : α} {l before behind : List α} (absent : a ∉ before)
    (sub : (a :: l).Sublist (before ++ behind)) : (a :: l).Sublist behind := by
  induction before with
  | nil => exact sub
  | cons b before ih =>
    rw [List.cons_append, List.cons_sublist_cons'] at sub
    rcases sub with later | ⟨same, _⟩
    · exact ih (fun mem => absent (List.mem_cons_of_mem b mem)) later
    · exact absurd (same ▸ List.mem_cons_self) absent

/-- The first string of a list that is not empty is in front if all others are empty, too. -/
theorem headD_filled {c : Str} {l : List Str} :
    (filled (c :: l)).headD [] = c ↔ (c = [] → filled l = []) := by
  by_cases empty : c = []
  · subst empty
    have skipped : filled ([] :: l) = filled l := by simp [filled]
    rw [skipped]
    cases rest : filled l with
    | nil => simp
    | cons s l' =>
      have some_ : s ≠ [] := (mem_filled.1 (rest ▸ List.mem_cons_self)).2
      simpa using some_
  · simp [filled, empty]

/-- What stands behind the only command under `"linux"`. -/
theorem overridden_iff {before behind : List Item} {c : Str}
    (noneBefore : linuxCommands before = []) (noneBehind : linuxCommands behind = []) :
    Overridden (before ++ .linuxCommand c :: behind) ↔ c = [] ∧ filled (commands behind) ≠ [] := by
  have absent {l : List Item} (none : linuxCommands l = []) (c : Str) :
      Item.linuxCommand c ∉ l := by
    rw [← mem_linuxCommands, none]
    exact List.not_mem_nil
  constructor
  · rintro ⟨s, some_, sub⟩
    have sub' := sublist_behind (absent noneBefore []) sub
    rw [List.cons_sublist_cons'] at sub'
    rcases sub' with later | ⟨same, later⟩
    · exact absurd (later.subset List.mem_cons_self) (absent noneBehind [])
    · have mem := mem_commands.2 (List.singleton_sublist.1 later)
      exact ⟨(Item.linuxCommand.inj same).symm, List.ne_nil_of_mem (mem_filled.2 ⟨mem, some_⟩)⟩
  · rintro ⟨rfl, filled_⟩
    obtain ⟨s, kept⟩ := List.exists_mem_of_ne_nil _ filled_
    obtain ⟨mem, some_⟩ := mem_filled.1 kept
    refine ⟨s, some_, List.Sublist.trans ?_ (List.sublist_append_right before _)⟩
    exact (List.singleton_sublist.2 (mem_commands.1 mem)).cons_cons _

/-- **The command under `"linux"` counts**, or the generic one where there is none, except for a
generic one behind an empty one. -/
theorem command_eq_iff (generic : (commands its).length ≤ 1)
    (linux : (linuxCommands its).length ≤ 1) :
    command its = (linuxCommands its).head?.getD ((commands its).head?.getD []) ↔
      ¬Overridden its := by
  cases found : linuxCommands its with
  | nil =>
    have not : ¬Overridden its := by
      rintro ⟨s, _, sub⟩
      have mem := mem_linuxCommands.2 (sub.subset List.mem_cons_self)
      rw [found] at mem
      exact List.not_mem_nil mem
    refine iff_of_true ?_ not
    rw [command, foldl_nextCommand found]
    match commands its, generic with
    | [], _ => rfl
    | [s], _ =>
      by_cases empty : s = []
      · simp [filled, empty]
      · simp [filled, empty]
  | cons c l =>
    obtain rfl : l = [] := by
      rw [found] at linux
      exact List.length_eq_zero_iff.1 (Nat.le_zero.1 (Nat.le_of_succ_le_succ linux))
    obtain ⟨before, behind, rfl, noneBefore, noneBehind⟩ := linuxCommands_eq_cons found
    rw [command_behind noneBehind, overridden_iff noneBefore noneBehind]
    change _ = c ↔ _
    rw [headD_filled, not_and_not_right]

/-- A command that stands alone gives way to one under `"linux"`. -/
theorem command_spared (generic : commands its = []) (linux : (linuxCommands its).length ≤ 1) :
    command its ≠ [] ↔ ∃ c, c ≠ [] ∧ Item.linuxCommand c ∈ its := by
  have not : ¬Overridden its := by
    rintro ⟨s, _, sub⟩
    have mem := mem_commands.2 (sub.subset (List.mem_cons_of_mem _ List.mem_cons_self))
    rw [generic] at mem
    exact List.not_mem_nil mem
  have few : (commands its).length ≤ 1 := by
    rw [generic]
    exact Nat.zero_le 1
  rw [(command_eq_iff few linux).2 not, generic]
  simp only [← mem_linuxCommands]
  match linuxCommands its, linux with
  | [], _ => simp
  | [c], _ => simp

/-- **Items pass** if and only if their strings can be copied, or need not be. -/
theorem allPass_iff (declared : Declared its) (generic : (commands its).length ≤ 1)
    (linux : (linuxCommands its).length ≤ 1) : AllPass its ↔ Copyable its := by
  refine forall_congr' fun before => forall_congr' fun item => forall_congr' fun behind =>
    forall_congr' fun eq => ?_
  have size : item.text.length < item.size := declared.size item (by rw [eq]; simp)
  cases item with
  | label s =>
    have short : s.length < maxLabel := size
    exact iff_of_true trivial (.inl (Nat.lt_trans short (by decide)))
  | dependsOn s =>
    have short : s.length < maxLabel := size
    exact iff_of_true trivial (.inl (Nat.lt_trans short (by decide)))
  | command s =>
    have alone : commands before = [] := by
      have split : commands its = commands before ++ s :: commands behind := by
        rw [eq]
        exact List.filterMap_append
      rw [split, List.length_append, List.length_cons] at generic
      exact List.length_eq_zero_iff.1 (by omega)
    have few : (linuxCommands before).length ≤ 1 := by
      rw [eq] at linux
      have sub : (linuxCommands before).Sublist (linuxCommands (before ++ .command s :: behind)) :=
        (List.sublist_append_left before _).filterMap _
      exact Nat.le_trans sub.length_le linux
    change _ ∨ _ ↔ _ ∨ _
    rw [command_spared alone few, or_comm]
    rfl
  | arg s =>
    have some_ : linuxArgs before ≠ [] ↔ ∃ a, Item.linuxArg a ∈ before := by
      simp only [← mem_linuxArgs]
      constructor
      · exact List.exists_mem_of_ne_nil _
      · rintro ⟨_, mem⟩
        exact List.ne_nil_of_mem mem
    change _ ∨ _ ↔ _ ∨ _
    rw [some_, or_comm]
    rfl
  | linuxCommand s => exact (or_iff_left id).symm
  | linuxArg s => exact (or_iff_left id).symm
  | cwd s => exact (or_iff_left id).symm

/-- **What items are gathered to** is what they make, where they can be copied. -/
theorem gatherAll_eq_some (declared : Declared its) (generic : (commands its).length ≤ 1)
    (linux : (linuxCommands its).length ≤ 1) {f : Fields} :
    Fields.empty.gatherAll its = some f ↔ Copyable its ∧ f = made its := by
  obtain ⟨goes, stops⟩ := gatherAll_eq declared
  have pass := allPass_iff declared generic linux
  by_cases copied : Copyable its
  · rw [goes (pass.2 copied)]
    simp [copied, eq_comm]
  · rw [stops fun all => copied (pass.1 all)]
    simp [copied]

end Commands

/-! ## Items by name -/

section Names

variable {parts : Members → List (Str × Value)} {members : Members}

/-- The member of a task object that an item is from. -/
def Item.member : Item → String
  | .label _ => "label"
  | .command _ => "command"
  | .linuxCommand _ | .linuxArg _ => "linux"
  | .arg _ => "args"
  | .dependsOn _ => "dependsOn"
  | .cwd _ => "options"

/-- The member of a `"linux"` object that an item is from. -/
def Item.inner : Item → String
  | .linuxCommand _ => "command"
  | .linuxArg _ => "args"
  | _ => ""

theorem linuxItems_inner {entry : Str × Value} {item : Item} (mem : item ∈ linuxItems parts entry) :
    entry.1 = ascii item.inner ∧ item.member = "linux" := by
  unfold linuxItems at mem
  split at mem
  next name =>
    obtain ⟨s, _, rfl⟩ := List.mem_map.1 mem
    exact ⟨name, rfl⟩
  split at mem
  next name =>
    obtain ⟨s, _, rfl⟩ := List.mem_map.1 mem
    exact ⟨name, rfl⟩
  next => exact absurd mem List.not_mem_nil

theorem entryItems_member {entry : Str × Value} {item : Item}
    (mem : item ∈ entryItems parts entry) : entry.1 = ascii item.member := by
  unfold entryItems at mem
  split at mem
  next name =>
    obtain ⟨s, _, rfl⟩ := List.mem_map.1 mem
    exact name
  split at mem
  next name =>
    obtain ⟨e, _, inside⟩ := List.mem_flatMap.1 mem
    rw [(linuxItems_inner inside).2]
    exact name
  split at mem
  next name =>
    obtain ⟨s, _, rfl⟩ := List.mem_map.1 mem
    exact name
  split at mem
  next name =>
    obtain ⟨s, _, rfl⟩ := List.mem_map.1 mem
    exact name
  split at mem
  next name =>
    obtain ⟨s, _, rfl⟩ := List.mem_map.1 mem
    exact name
  split at mem
  next name =>
    obtain ⟨e, _, inside⟩ := List.mem_flatMap.1 mem
    unfold optionItems at inside
    split at inside
    · obtain ⟨s, _, rfl⟩ := List.mem_map.1 inside
      exact name
    · exact absurd inside List.not_mem_nil
  next => exact absurd mem List.not_mem_nil

/-- **The items of a kind** are those of one name. -/
theorem kind_lookup {p : Item → Option Str} (name : String) {g : Value → List Str}
    (only : ∀ item s, p item = some s → item.member = name)
    (here : ∀ v, (entryItems parts (ascii name, v)).filterMap p = g v)
    (distinct : ((parts members).map Prod.fst).Nodup) :
    (items parts members).filterMap p = ((parts members).lookup (ascii name)).elim [] g := by
  have lookup := Named.flatMap_lookup (k := ascii name) distinct
    (g := fun x => (entryItems parts x).filterMap p) fun x _ other => by
      refine List.filterMap_eq_nil_iff.2 fun item mem => ?_
      by_contra some_
      obtain ⟨s, eq⟩ := Option.ne_none_iff_exists'.1 some_
      exact other ((entryItems_member mem).trans (congrArg ascii (only item s eq)))
  rw [items, List.filterMap_flatMap, lookup]
  exact congrArg _ (funext here)

/-- The items of a kind in a `"linux"` object. -/
theorem inner_lookup {p : Item → Option Str} (name : String) {g : Value → List Str}
    (only : ∀ item s, p item = some s → item.inner = name)
    (here : ∀ v, (linuxItems parts (ascii name, v)).filterMap p = g v)
    {entries : List (Str × Value)} (distinct : (entries.map Prod.fst).Nodup) :
    (entries.flatMap (linuxItems parts)).filterMap p =
      (entries.lookup (ascii name)).elim [] g := by
  have lookup := Named.flatMap_lookup (k := ascii name) distinct
    (g := fun x => (linuxItems parts x).filterMap p) fun x _ other => by
      refine List.filterMap_eq_nil_iff.2 fun item mem => ?_
      by_contra some_
      obtain ⟨s, eq⟩ := Option.ne_none_iff_exists'.1 some_
      exact other ((linuxItems_inner mem).1.trans (congrArg ascii (only item s eq)))
  rw [List.filterMap_flatMap, lookup]
  exact congrArg _ (funext here)

/-- A value has one string, if any. -/
theorem strings_head (v : Value) : v.strings = v.strings.head?.toList := by
  cases v <;> rfl

theorem stringOf_toList (name : String) (entries : List (Str × Value)) :
    (stringOf name entries).toList = (entries.lookup (ascii name)).elim [] Value.strings := by
  unfold stringOf
  cases entries.lookup (ascii name) with
  | none => rfl
  | some v => exact (strings_head v).symm

variable (distinct : ((parts members).map Prod.fst).Nodup)

include distinct

theorem labels_items : labels (items parts members) =
    (stringOf "label" (parts members)).toList := by
  rw [stringOf_toList]
  refine kind_lookup "label" (fun item s => ?_) (fun v => ?_) distinct
  · cases item <;> simp [Item.member]
  · have here : entryItems parts (ascii "label", v) = v.strings.map .label := by
      simp +decide [entryItems]
    rw [here, List.filterMap_map]
    exact List.filterMap_some

theorem commands_items : commands (items parts members) =
    (stringOf "command" (parts members)).toList := by
  rw [stringOf_toList]
  refine kind_lookup "command" (fun item s => ?_) (fun v => ?_) distinct
  · cases item <;> simp [Item.member]
  · have here : entryItems parts (ascii "command", v) = v.strings.map .command := if_pos rfl
    rw [here, List.filterMap_map]
    exact List.filterMap_some

theorem args_items : args (items parts members) = stringsOf parts "args" (parts members) := by
  refine kind_lookup "args" (fun item s => ?_) (fun v => ?_) distinct
  · cases item <;> simp [Item.member]
  · have here : entryItems parts (ascii "args", v) = (v.elements parts).map .arg := by
      simp +decide [entryItems]
    rw [here, List.filterMap_map]
    exact List.filterMap_some

theorem dependencies_items : dependencies (items parts members) =
    stringsOf parts "dependsOn" (parts members) := by
  refine kind_lookup "dependsOn" (fun item s => ?_) (fun v => ?_) distinct
  · cases item <;> simp [Item.member]
  · have here : entryItems parts (ascii "dependsOn", v) =
        (v.elements parts).map .dependsOn := by
      simp +decide [entryItems]
    rw [here, List.filterMap_map]
    exact List.filterMap_some

theorem directories_items : directories (items parts members) =
    ((parts members).lookup (ascii "options")).elim [] fun v =>
      directories ((v.members parts).flatMap optionItems) := by
  refine kind_lookup "options" (fun item s => ?_) (fun v => ?_) distinct
  · cases item <;> simp [Item.member]
  · have here : entryItems parts (ascii "options", v) = (v.members parts).flatMap optionItems := by
      simp +decide [entryItems]
    rw [here]
    rfl

/-- The items of a `"linux"` object are those of its members. -/
theorem linux_items {p : Item → Option Str}
    (only : ∀ item s, p item = some s → item.member = "linux") :
    (items parts members).filterMap p =
      ((membersOf parts "linux" (parts members)).flatMap (linuxItems parts)).filterMap p := by
  have here (v : Value) : entryItems parts (ascii "linux", v) =
      (v.members parts).flatMap (linuxItems parts) := by
    unfold entryItems
    dsimp only
    rw [if_neg (by decide), if_pos rfl]
  rw [kind_lookup "linux" only (fun v => congrArg _ (here v)) distinct, membersOf]
  cases (parts members).lookup (ascii "linux") <;> rfl

variable (linux : ((membersOf parts "linux" (parts members)).map Prod.fst).Nodup)

include linux

theorem linuxCommands_items : linuxCommands (items parts members) =
    (stringOf "command" (membersOf parts "linux" (parts members))).toList := by
  rw [stringOf_toList]
  refine (linux_items distinct fun item s => ?_).trans
    (inner_lookup "command" (fun item s => ?_) (fun v => ?_) linux)
  · cases item <;> simp [Item.member]
  · cases item <;> simp [Item.inner]
  · have here : linuxItems parts (ascii "command", v) = v.strings.map .linuxCommand := if_pos rfl
    rw [here, List.filterMap_map]
    exact List.filterMap_some

theorem linuxArgs_items : linuxArgs (items parts members) =
    stringsOf parts "args" (membersOf parts "linux" (parts members)) := by
  refine (linux_items distinct fun item s => ?_).trans
    (inner_lookup "args" (fun item s => ?_) (fun v => ?_) linux)
  · cases item <;> simp [Item.member]
  · cases item <;> simp [Item.inner]
  · have here : linuxItems parts (ascii "args", v) = (v.elements parts).map .linuxArg := by
      unfold linuxItems
      dsimp only
      rw [if_neg (by decide), if_pos rfl]
    rw [here, List.filterMap_map]
    exact List.filterMap_some

end Names

end Teres.Tools.Tasks
