import Teres.Laws.Tools.JsonLanguage
import Teres.Tools.Tasks

/-!
# What gathering stores where

`json__copy_string` keeps to the limit that its caller gives (`copyValue_spec`), and every caller
but two gives the size of the field (`gatherMember_sized`). A label is copied with room for 1024
bytes and an entry of `dependsOn` with that of a path, where the fields have sixty. So the fields of
the tasks do not run into each other if and only if no such string is longer than its field and
within the limit (`contained_iff`).
-/

namespace Teres.Tools.Tasks

open Json (Tree)
open Bld (Str ascii maxChildren)

/-! ## Copies -/

theorem ok_of_bind {α β ε : Type} {x : Except ε α} {f : α → Except ε β} {b : β}
    (h : (x >>= f) = .ok b) : ∃ a, x = .ok a ∧ f a = .ok b := by
  cases x with
  | error e => cases h
  | ok a => exact ⟨a, rfl, h⟩

/-- **What the loop writes**: the string, its NUL, and nothing else. -/
theorem copyLoop_outside (s : List UInt8) : ∀ {q : ℕ} {chars : ℕ → UInt8} {k : ℕ},
    k < q ∨ q + s.length < k → copyLoop s q chars k = chars k := by
  induction s with
  | nil =>
    intro q chars k outside
    exact Function.update_of_ne (by rw [List.length_nil] at outside; omega) ..
  | cons c s ih =>
    intro q chars k outside
    rw [List.length_cons] at outside
    rw [copyLoop, ih (by omega), Function.update_of_ne (by omega)]

theorem copyLoop_inside (s : List UInt8) : ∀ {q : ℕ} {chars : ℕ → UInt8} {k : ℕ},
    k ≤ s.length → copyLoop s q chars (q + k) = s.getD k 0 := by
  induction s with
  | nil =>
    intro q chars k inside
    obtain rfl := Nat.le_zero.1 inside
    exact Function.update_self ..
  | cons c s ih =>
    intro q chars k inside
    rw [copyLoop]
    cases k with
    | zero =>
      rw [copyLoop_outside s (.inl (by omega))]
      exact Function.update_self ..
    | succ k =>
      rw [Nat.add_comm k 1, ← Nat.add_assoc, ih (Nat.le_of_succ_le_succ inside), Nat.add_comm 1 k]
      rfl

theorem slice_length (tree : Tree) (start stop : ℕ) :
    (slice tree start stop).length = stop - start := by
  rw [slice, List.length_map, List.length_range]

/-- The number of bytes of an object's value. -/
def valueLength (tree : Tree) (obj : ℕ) : ℕ :=
  (tree.stack obj).valueEnd - (tree.stack obj).valueStart

/-- A task with a string written into a field: the string and its NUL, whatever the field's size. -/
structure Copy.Written (c : Copy) : Prop where
  id : c.after.id = c.before.id
  platformArgs : c.after.platformArgs = c.before.platformArgs
  inside : ∀ k ≤ c.value.length, c.after.chars (c.field.offset + k) = c.value.getD k 0
  outside : ∀ q, q < c.field.offset ∨ c.field.offset + c.value.length < q →
    c.after.chars q = c.before.chars q

/-- **A value is copied** if it is shorter than the limit by at least two, and the program exits
otherwise. -/
theorem copyValue_spec {tree : Tree} {obj limit : ℕ} {field : Field} {t : Task}
    {result : Option Copy} (copied : copyValue tree obj limit field t = .ok result) :
    ∃ c, result = some c ∧ c.field = field ∧ c.before = t ∧ c.Written ∧
      c.value.length = valueLength tree obj ∧ valueLength tree obj < limit - 1 := by
  obtain ⟨chars, bytes, eq⟩ := ok_of_bind copied
  injection eq with eq
  unfold copyString at bytes
  split_ifs at bytes with tooLong
  injection bytes with bytes
  obtain ⟨order, short⟩ := not_or.1 tooLong
  refine ⟨_, eq.symm, rfl, rfl, ⟨rfl, rfl, ?_, ?_⟩, slice_length .., Nat.lt_of_not_le short⟩
  · intro k inside
    rw [← bytes]
    exact copyLoop_inside _ inside
  · intro q outside
    rw [← bytes]
    change copyLoop _ field.offset _ q = t.chars q
    change q < field.offset ∨ field.offset + _ < q at outside
    rw [copyLoop_outside _ outside]
    exact Function.update_of_ne (by omega) ..

theorem copyValue_short {tree : Tree} {obj limit : ℕ} {field : Field} {t : Task}
    (some : 0 < valueLength tree obj) (short : valueLength tree obj < limit - 1) :
    ∃ c, copyValue tree obj limit field t = .ok (.some c) := by
  have fits : ¬((tree.stack obj).valueEnd < (tree.stack obj).valueStart ∨
      limit - 1 ≤ valueLength tree obj) :=
    not_or.2 ⟨by unfold valueLength at some; omega, Nat.not_le_of_lt short⟩
  obtain ⟨chars, bytes⟩ : ∃ chars, copyString tree (tree.stack obj).valueStart
      (tree.stack obj).valueEnd limit field.offset t.chars = .ok chars := ⟨_, if_neg fits⟩
  unfold copyValue
  rw [bytes]
  exact ⟨_, rfl⟩

/-! ## Names -/

/-- **A name matches a literal just when it is the literal**, where the match comes to an end. -/
theorem matchLoop_true {p name : List UInt8} (noNul : 0 ∉ p)
    (matches_ : matchLoop (p ++ [0]) name = .ok true) : name = p := by
  induction p generalizing name with
  | nil =>
    cases name with
    | nil => rfl
    | cons r name =>
      change (if 0 ≠ r then Except.ok false else Except.error Halt.fault) = _ at matches_
      split_ifs at matches_
      cases matches_
  | cons c p ih =>
    cases name with
    | nil =>
      injection matches_ with zero
      obtain rfl : c = 0 := of_decide_eq_true zero
      exact absurd List.mem_cons_self noNul
    | cons r name =>
      change (if c ≠ r then Except.ok false else matchLoop (p ++ [0]) name) = _ at matches_
      split_ifs at matches_ with same
      · injection matches_ with false_
        cases false_
      · rw [← not_not.1 same, ih (fun mem => noNul (List.mem_cons_of_mem _ mem)) matches_]

/-- What another literal makes of the same name. -/
theorem jsonMatch_other {tree : Tree} {k : ℕ} {name : String} (noNul : 0 ∉ ascii name)
    (named : jsonMatch tree k name = .ok true) (other : String) :
    jsonMatch tree k other = matchLoop (ascii other ++ [0]) (ascii name) :=
  congrArg (matchLoop (ascii other ++ [0])) (matchLoop_true noNul named)

theorem Platform.isMember_other {tree : Tree} {name : String} {platform : Platform}
    (noNul : 0 ∉ ascii name) (named : jsonMatch tree 4 name = .ok true)
    (generic : ∀ other ∈ ["windows", "osx", "linux"],
      matchLoop (ascii other ++ [0]) (ascii name) = .ok false) :
    platform.isMember tree = .ok false := by
  have no {other : String} (mem : other ∈ ["windows", "osx", "linux"]) :
      jsonMatch tree 4 other = .ok false :=
    (jsonMatch_other noNul named other).trans (generic other mem)
  cases platform with
  | windows => exact no (by decide)
  | osx => exact no (by decide)
  | linux => exact no (by decide)
  | other => rfl

/-! ## Members -/

section Members

variable {platform : Platform} {tree : Tree} {obj : ℕ} {t : Task}

/-- **A label is copied with room for 1024 bytes.** -/
theorem gatherMember_label (label : jsonMatch tree 4 "label" = .ok true) :
    gatherMember platform tree obj t = copyValue tree obj 1024 .label t := by
  have command : jsonMatch tree 4 "command" = .ok false :=
    (jsonMatch_other (by decide) label _).trans (by decide)
  have generic : platform.isMember tree = .ok false :=
    Platform.isMember_other (by decide) label (by decide)
  unfold gatherMember
  rw [command, generic, label]
  cases decide ((tree.stack obj).depth > 4) <;> rfl

/-- **An entry of `dependsOn` is copied with room for a path.** -/
theorem gatherMember_dependsOn (deep : 4 < (tree.stack obj).depth)
    (dependsOn : jsonMatch tree 4 "dependsOn" = .ok true) :
    gatherMember platform tree obj t = copySlot tree obj .dependsOn t := by
  have command : jsonMatch tree 4 "command" = .ok false :=
    (jsonMatch_other (by decide) dependsOn _).trans (by decide)
  have label : jsonMatch tree 4 "label" = .ok false :=
    (jsonMatch_other (by decide) dependsOn _).trans (by decide)
  have args : jsonMatch tree 4 "args" = .ok false :=
    (jsonMatch_other (by decide) dependsOn _).trans (by decide)
  have generic : platform.isMember tree = .ok false :=
    Platform.isMember_other (by decide) dependsOn (by decide)
  unfold gatherMember gatherDeep
  rw [command, generic, label, args, dependsOn, decide_eq_true deep]
  rfl

/-- A copy of a call's value into a field of the size that is the limit. -/
def Sized (tree : Tree) (obj : ℕ) (c : Copy) : Prop :=
  ∃ t, copyValue tree obj c.field.size c.field t = .ok (some c)

theorem copyValue_sized {field : Field} {limit : ℕ} {c : Copy}
    (copied : copyValue tree obj limit field t = .ok (some c)) (size : field.size = limit) :
    Sized tree obj c := by
  obtain ⟨c', eq, rfl, _⟩ := copyValue_spec copied
  obtain rfl := Option.some.inj eq
  rw [← size] at copied
  exact ⟨t, copied⟩

theorem bldArgs_sized {platformArgs : Bool} {c : Copy}
    (copied : bldArgs tree obj t platformArgs = .ok (some c)) : Sized tree obj c := by
  have slot {t : Task} (copied : copySlot tree obj .args t = .ok (some c)) : Sized tree obj c := by
    unfold copySlot at copied
    cases free : t.freeSlot .args with
    | none =>
      rw [free] at copied
      cases copied
    | some i =>
      rw [free] at copied
      exact copyValue_sized copied rfl
  unfold bldArgs at copied
  by_cases taken : (t.platformArgs && !platformArgs) = true
  · rw [if_pos taken] at copied
    cases copied
  · rw [if_neg taken] at copied
    exact slot copied

theorem gatherPlatform_sized {c : Copy} (copied : gatherPlatform tree obj t = .ok (some c)) :
    Sized tree obj c := by
  obtain ⟨command, _, copied⟩ := ok_of_bind copied
  split at copied
  · exact copyValue_sized copied rfl
  split at copied
  · obtain ⟨args, _, copied⟩ := ok_of_bind copied
    split at copied
    · exact bldArgs_sized copied
    · cases copied
  · cases copied

theorem gatherDeep_sized {c : Copy} (copied : gatherDeep tree obj t = .ok (some c))
    (other : jsonMatch tree 4 "dependsOn" ≠ .ok true) : Sized tree obj c := by
  obtain ⟨args, _, copied⟩ := ok_of_bind copied
  split at copied
  · exact bldArgs_sized copied
  obtain ⟨dependsOn, named, copied⟩ := ok_of_bind copied
  split at copied
  next depends => exact absurd (named.trans (congrArg _ depends)) other
  obtain ⟨options, _, copied⟩ := ok_of_bind copied
  split at copied
  · obtain ⟨cwd, _, copied⟩ := ok_of_bind copied
    split at copied
    · exact copyValue_sized copied rfl
    · cases copied
  · cases copied

/-- **Every other string is copied with the size of its field.** -/
theorem gatherMember_sized {c : Copy} (copied : gatherMember platform tree obj t = .ok (some c))
    (noLabel : jsonMatch tree 4 "label" ≠ .ok true)
    (noDependsOn : ¬(4 < (tree.stack obj).depth ∧ jsonMatch tree 4 "dependsOn" = .ok true)) :
    Sized tree obj c := by
  obtain ⟨command, _, copied⟩ := ok_of_bind copied
  split at copied
  · exact copyValue_sized copied rfl
  obtain ⟨generic, _, copied⟩ := ok_of_bind copied
  split at copied
  · exact gatherPlatform_sized copied
  obtain ⟨label, named, copied⟩ := ok_of_bind copied
  split at copied
  next isLabel => exact absurd (named.trans (congrArg _ isLabel)) noLabel
  split at copied
  next deep =>
    exact gatherDeep_sized copied fun named => noDependsOn ⟨of_decide_eq_true deep, named⟩
  · cases copied

/-- A string that is longer than its field, and shorter than the limit it is copied with. -/
inductive TooLong (tree : Tree) (obj : ℕ) (t : Task) : Prop where
  | label : jsonMatch tree 4 "label" = .ok true → maxLabel ≤ valueLength tree obj →
      valueLength tree obj < 1024 - 1 → TooLong tree obj t
  | dependsOn : 4 < (tree.stack obj).depth → jsonMatch tree 4 "dependsOn" = .ok true →
      (t.freeSlot .dependsOn).isSome → maxLabel ≤ valueLength tree obj →
      valueLength tree obj < maxPath - 1 → TooLong tree obj t

/-- A string too long is stored all the same. -/
theorem TooLong.stored (tooLong : TooLong tree obj t) (platform : Platform) :
    ∃ c, gatherMember platform tree obj t = .ok (some c) := by
  cases tooLong with
  | label named long short =>
    rw [gatherMember_label named]
    exact copyValue_short (Nat.lt_of_lt_of_le (by decide) long) short
  | dependsOn deep named free long short =>
    obtain ⟨i, slot⟩ := Option.isSome_iff_exists.1 free
    rw [gatherMember_dependsOn deep named, copySlot, slot]
    exact copyValue_short (Nat.lt_of_lt_of_le (by decide) long) short

theorem TooLong.long (tooLong : TooLong tree obj t) : maxLabel ≤ valueLength tree obj := by
  cases tooLong with
  | label _ long _ => exact long
  | dependsOn _ _ _ long _ => exact long

/-- **A stored string fits if it is not one of those too long.** -/
theorem gatherMember_fits {c : Copy} (copied : gatherMember platform tree obj t = .ok (some c)) :
    c.Written ∧ (c.value.length < c.field.size ↔ ¬TooLong tree obj t) := by
  by_cases label : jsonMatch tree 4 "label" = .ok true
  · rw [gatherMember_label label] at copied
    obtain ⟨_, eq, field, _, written, length, short⟩ := copyValue_spec copied
    obtain rfl := Option.some.inj eq
    rw [length, field]
    refine ⟨written, fun fits tooLong => Nat.not_le_of_lt fits tooLong.long, fun fits => ?_⟩
    exact Nat.lt_of_not_le fun long => fits (.label label long short)
  by_cases dependsOn : 4 < (tree.stack obj).depth ∧ jsonMatch tree 4 "dependsOn" = .ok true
  · obtain ⟨deep, named⟩ := dependsOn
    rw [gatherMember_dependsOn deep named] at copied
    unfold copySlot at copied
    cases free : t.freeSlot .dependsOn with
    | none =>
      rw [free] at copied
      cases copied
    | some i =>
      rw [free] at copied
      obtain ⟨_, eq, field, _, written, length, short⟩ := copyValue_spec copied
      obtain rfl := Option.some.inj eq
      rw [length, field]
      refine ⟨written, fun fits tooLong => Nat.not_le_of_lt fits tooLong.long, fun fits => ?_⟩
      refine Nat.lt_of_not_le fun long => fits (.dependsOn deep named ?_ long short)
      rw [free, Option.isSome_some]
  · obtain ⟨_, sized⟩ := gatherMember_sized copied label dependsOn
    obtain ⟨_, eq, _, _, written, length, short⟩ := copyValue_spec sized
    obtain rfl := Option.some.inj eq
    rw [length]
    refine ⟨written, fun _ tooLong => ?_, fun _ => Nat.lt_of_lt_of_le short (Nat.sub_le ..)⟩
    cases tooLong with
    | label named _ _ => exact label named
    | dependsOn deep named _ _ _ => exact dependsOn ⟨deep, named⟩

end Members

/-! ## Calls -/

/-- The ranges of two fields have no byte in common. -/
theorem Field.apart {f g : Field} (other : f ≠ g) :
    f.offset + f.size ≤ g.offset ∨ g.offset + g.size ≤ f.offset := by
  cases f <;> cases g <;> simp [Field.offset, Field.size, maxLabel, maxPath, maxChildren] at * <;>
    omega

/-- **A store that keeps to its field**: the string and its NUL are in it, and every other field and
every other task is as before. -/
structure Store.Contained (s : Store) : Prop where
  fits : s.value.length < s.field.size
  tasks : ∀ k, k ≠ s.task → s.after[k]? = s.before[k]?
  task : ∃ t t', s.before[s.task]? = some t ∧ s.after[s.task]? = some t' ∧ t'.id = t.id ∧
    t'.platformArgs = t.platformArgs ∧
    (∀ k ≤ s.value.length, t'.chars (s.field.offset + k) = s.value.getD k 0) ∧
    ∀ other : Field, other ≠ s.field → ∀ k < other.size,
      t'.chars (other.offset + k) = t.chars (other.offset + k)

/-- **A copy that fits is contained**, among whatever other tasks. -/
theorem Copy.Written.contained {c : Copy} (written : c.Written)
    (fits : c.value.length < c.field.size) (before after : List Task) :
    Store.Contained ⟨before.length, c.field, c.value, before ++ c.before :: after,
      before ++ c.after :: after⟩ where
  fits := fits
  tasks k other := by
    rcases Nat.lt_or_gt_of_ne other with front | behind
    · change (before ++ _)[k]? = (before ++ _)[k]?
      rw [List.getElem?_append_left front, List.getElem?_append_left front]
    · obtain ⟨j, rfl⟩ := Nat.exists_eq_add_of_lt behind
      change (before ++ _)[before.length + j + 1]? = (before ++ _)[before.length + j + 1]?
      rw [Nat.add_assoc, List.getElem?_append_right (Nat.le_add_right ..),
        List.getElem?_append_right (Nat.le_add_right ..), Nat.add_sub_cancel_left]
      rfl
  task := by
    have middle (t : Task) : (before ++ t :: after)[before.length]? = some t := by
      rw [List.getElem?_append_right (Nat.le_refl _), Nat.sub_self]
      rfl
    refine ⟨c.before, c.after, ?_, ?_, written.id, written.platformArgs, written.inside, ?_⟩
    · exact middle c.before
    · exact middle c.after
    · intro other apart k inside
      have ranges : other.offset + other.size ≤ c.field.offset ∨
        c.field.offset + c.field.size ≤ other.offset := Field.apart apart
      exact written.outside _ (by omega)

/-- A call of the callback, and the tasks in front of it. -/
structure Call where
  tree : Tree
  obj : ℕ
  tasks : List Task

/-- The object of a call is inside of an element of the tasks. -/
structure Call.InTask (call : Call) : Prop where
  deep : 3 < (call.tree.stack call.obj).depth
  tasks : jsonMatch call.tree 2 "tasks" = .ok true
  element : jsonMatch call.tree 3 "" = .ok true

/-- The task that a call is for. -/
def Call.task (call : Call) : Task := (select (call.tree.stack 3).valueStart call.tasks).2.1

/-- **A call with a string too long**: a label of a task from 60 to 1022 bytes, or an entry of its
`dependsOn`, with a slot free, from 60 to 248 bytes. -/
structure Call.Overlong (call : Call) : Prop where
  inTask : call.InTask
  tooLong : TooLong call.tree call.obj call.task

section Calls

variable {platform : Platform} {tree : Tree} {obj : ℕ} {s : Gather}

theorem gatherTasks_inTask (inTask : Call.InTask ⟨tree, obj, s.tasks⟩) :
    gatherTasks platform tree obj s = gatherValue platform tree obj s := by
  have shallow : ¬(tree.stack obj).depth < 3 := Nat.not_lt_of_lt inTask.deep
  unfold gatherTasks
  rw [if_neg shallow, inTask.tasks]
  change (if 3 < (tree.stack obj).depth then _ else _) = _
  rw [if_pos inTask.deep, inTask.element]
  rfl

/-- Outside of the tasks there is nothing to do. -/
theorem gatherTasks_outside {s' : Gather} (outside : ¬Call.InTask ⟨tree, obj, s.tasks⟩)
    (gathered : gatherTasks platform tree obj s = .ok s') : s' = s := by
  unfold gatherTasks at gathered
  split at gathered
  · cases gathered
    rfl
  obtain ⟨tasks, isTasks, gathered⟩ := ok_of_bind gathered
  split at gathered
  · split at gathered
    · next named deep =>
      obtain ⟨element, isElement, gathered⟩ := ok_of_bind gathered
      split at gathered
      · next unnamed =>
        exact absurd ⟨deep, isTasks.trans (congrArg _ named),
          isElement.trans (congrArg _ unnamed)⟩ outside
      · cases gathered
        rfl
    · cases gathered
      rfl
  · cases gathered
    rfl

/-- **What a call stores is contained if its string is not too long.** -/
theorem gatherTasks_stores {s' : Gather} (gathered : gatherTasks platform tree obj s = .ok s') :
    ∃ new, s'.stores = s.stores ++ new ∧
      ((∀ store ∈ new, store.Contained) ↔ ¬Call.Overlong ⟨tree, obj, s.tasks⟩) := by
  by_cases inTask : Call.InTask ⟨tree, obj, s.tasks⟩
  · rw [gatherTasks_inTask inTask] at gathered
    obtain ⟨copy, copied, gathered⟩ := ok_of_bind gathered
    cases copy with
    | none =>
      injection gathered with gathered
      refine ⟨[], ?_, fun _ overlong => ?_, fun _ _ mem => absurd mem List.not_mem_nil⟩
      · rw [← gathered, List.append_nil]
      · obtain ⟨c, stored⟩ := overlong.tooLong.stored platform
        cases copied.symm.trans stored
    | some c =>
      injection gathered with gathered
      obtain ⟨written, fits⟩ := gatherMember_fits copied
      refine ⟨[_], by rw [← gathered], fun contained overlong => ?_, fun short store mem => ?_⟩
      · exact fits.1 (contained _ List.mem_cons_self).fits overlong.tooLong
      · obtain rfl := List.mem_singleton.1 mem
        exact written.contained (fits.2 fun tooLong => short ⟨inTask, tooLong⟩) ..
  · rw [gatherTasks_outside inTask gathered]
    exact ⟨[], (List.append_nil _).symm, fun _ overlong => inTask overlong.inTask,
      fun _ _ mem => absurd mem List.not_mem_nil⟩

/-- A call with a string too long goes on. -/
theorem Call.Overlong.gathered (overlong : Call.Overlong ⟨tree, obj, s.tasks⟩)
    (platform : Platform) :
    ∃ s', gatherTasks platform tree obj s = .ok s' := by
  obtain ⟨c, stored⟩ := overlong.tooLong.stored platform
  rw [gatherTasks_inTask overlong.inTask]
  unfold gatherValue
  unfold Call.task at stored
  cases selected : select (tree.stack 3).valueStart s.tasks with
  | mk before found =>
    obtain ⟨t, after⟩ := found
    rw [selected] at stored
    change gatherMember platform tree obj t = _ at stored
    dsimp only
    rw [stored]
    exact ⟨_, rfl⟩

end Calls

/-! ## Visits -/

section Visits

variable {σ : Type} {cb : Tree → ℕ → σ → ℤ × σ} {I : σ → Prop}

theorem visitMembers_keeps {visit : Tree → ℕ → σ → Json.M (ℤ × Tree × σ)} {obj : ℕ}
    (keeps : ∀ {t k s r t' s'}, visit t k s = .ok (r, t', s') → I s → I s') (n : ℕ) :
    ∀ {child t s r t' s'}, Json.visitMembers visit obj n child t s = .ok (r, t', s') →
      I s → I s' := by
  induction n with
  | zero =>
    intro child t s r t' s' visited invariant
    cases child with
    | none =>
      cases visited
      exact invariant
    | some _ => cases visited
  | succ n ih =>
    intro child t s r t' s' visited invariant
    cases child with
    | none =>
      cases visited
      exact invariant
    | some child =>
      obtain ⟨⟨r₁, t₁, s₁⟩, first, visited⟩ := ok_of_bind visited
      have kept := keeps first invariant
      dsimp only at visited
      split at visited
      · cases visited
        exact kept
      · obtain ⟨⟨t₂, next⟩, _, visited⟩ := ok_of_bind visited
        exact ih visited kept

/-- **A visit keeps what every call of its callback keeps.** -/
theorem visitor_keeps (keeps : ∀ t obj s, I s → I (cb t obj s).2) (fuel : ℕ) :
    ∀ {t obj s r t' s'}, Json.visitor cb fuel t obj s = .ok (r, t', s') → I s → I s' := by
  induction fuel with
  | zero => exact fun visited => nomatch visited
  | succ fuel ih =>
    intro t obj s r t' s' visited invariant
    unfold Json.visitor at visited
    split at visited
    · cases visited
      exact keeps _ _ _ invariant
    · obtain ⟨⟨t₁, child⟩, _, visited⟩ := ok_of_bind visited
      obtain ⟨⟨r₂, t₂, s₂⟩, members, visited⟩ := ok_of_bind visited
      have kept := visitMembers_keeps ih fuel members invariant
      dsimp only at visited
      split at visited
      · cases visited
        exact kept
      · cases visited
        exact keeps _ _ _ kept

end Visits

/-- The callback with a list of its calls, and stopped after `n` of them. -/
def watched (platform : Platform) (n : ℕ) (tree : Tree) (obj : ℕ) (s : Gather × List Call) :
    ℤ × Gather × List Call :=
  if s.2.length = n then (1, s)
  else
    let (r, g) := callback platform tree obj s.1
    (r, g, s.2 ++ [⟨tree, obj, s.1.tasks⟩])

/-- The visit of a text that has been parsed, stopped after `n` calls. -/
def visitText (platform : Platform) (n fuel : ℕ) (text : List UInt8) (memory : Tree) :
    Json.M (Option (Gather × List Call)) := do
  match ← Json.parse text memory with
  | (_, none) => .ok none
  | (t, some obj) => do
    let (_, _, s) ← Json.visitor (watched platform n) fuel t obj (rooted, [])
    .ok (some s)

theorem watched_keeps {platform : Platform} {n : ℕ} (tree : Tree) (obj : ℕ)
    (s : Gather × List Call)
    (iff : (∀ store ∈ s.1.stores, store.Contained) ↔ ∀ call ∈ s.2, ¬call.Overlong) :
    (∀ store ∈ (watched platform n tree obj s).2.1.stores, store.Contained) ↔
      ∀ call ∈ (watched platform n tree obj s).2.2, ¬call.Overlong := by
  unfold watched
  split
  · exact iff
  unfold callback
  cases gathered : gatherTasks platform tree obj s.1 with
  | ok s' =>
    obtain ⟨new, stores, newIff⟩ := gatherTasks_stores gathered
    dsimp only
    rw [stores]
    simp only [List.mem_append, or_imp, forall_and, iff, newIff, List.mem_singleton, forall_eq]
  | error halt =>
    have short : ¬Call.Overlong ⟨tree, obj, s.1.tasks⟩ := by
      intro overlong
      obtain ⟨s', goes⟩ := overlong.gathered platform
      cases gathered.symm.trans goes
    dsimp only
    simp only [List.mem_append, or_imp, forall_and, iff, List.mem_singleton, forall_eq, short,
      not_false_eq_true, and_true]

/-- **The fields of the tasks do not run into each other if and only if** no string too long is
visited: up to any call of the visit of any text, every store is contained just when no call was
overlong. -/
theorem contained_iff {platform : Platform} {n fuel : ℕ} {text : List UInt8} {memory : Tree}
    {s : Gather} {calls : List Call}
    (visited : visitText platform n fuel text memory = .ok (some (s, calls))) :
    (∀ store ∈ s.stores, store.Contained) ↔ ∀ call ∈ calls, ¬call.Overlong := by
  obtain ⟨⟨t, obj⟩, _, visited⟩ := ok_of_bind visited
  cases obj with
  | none => cases visited
  | some obj =>
    obtain ⟨⟨r, t', s'⟩, run, visited⟩ := ok_of_bind visited
    injection visited with visited
    obtain rfl := Option.some.inj visited
    refine visitor_keeps (I := fun s : Gather × List Call =>
      (∀ store ∈ s.1.stores, store.Contained) ↔ ∀ call ∈ s.2, ¬call.Overlong)
      watched_keeps fuel run ?_
    exact ⟨fun _ _ mem => absurd mem List.not_mem_nil, fun _ _ mem => absurd mem List.not_mem_nil⟩

/-- A tasks.json of one task with a label of `k` bytes. -/
def labelled (k : ℕ) : List UInt8 :=
  ascii "\x7b\"tasks\":[\x7b\"label\":\"" ++ List.replicate k 0x61 ++ ascii "\" \x7d ] \x7d"

/-- What a visit has stored: the fields, and the number of bytes. -/
def sizes (visited : Json.M (Option (Gather × List Call))) : List (Field × ℕ) :=
  match visited with
  | .ok (some (s, _)) => s.stores.map fun store => (store.field, store.value.length)
  | _ => []

/-- A label of three bytes. -/
theorem contained_short : ∃ s calls,
    visitText .linux 9 9 (labelled 3) Json.zeroed = .ok (some (s, calls)) ∧
      ((∀ store ∈ s.stores, store.Contained) ↔ ∀ call ∈ calls, ¬call.Overlong) := by
  have stored : sizes (visitText .linux 9 9 (labelled 3) Json.zeroed) = [(.label, 3)] := by
    decide +kernel
  unfold sizes at stored
  split at stored
  · next s calls visited => exact ⟨s, calls, visited, contained_iff visited⟩
  · cases stored

/-- The NUL of a label of sixty bytes is the first byte of the command. -/
theorem label_overruns : ¬∀ (platform : Platform) (n fuel : ℕ) (text : List UInt8) (memory : Tree)
    (s : Gather) (calls : List Call),
    visitText platform n fuel text memory = .ok (some (s, calls)) →
      ∀ store ∈ s.stores, store.Contained := by
  intro all
  have stored : sizes (visitText .linux 9 9 (labelled 60) Json.zeroed) = [(.label, 60)] := by
    decide +kernel
  unfold sizes at stored
  split at stored
  · next s calls visited =>
    obtain ⟨store, mem, eq⟩ := List.mem_map.1 (stored ▸ List.mem_cons_self)
    have fits := (all _ _ _ _ _ _ _ visited store mem).fits
    obtain ⟨field, length⟩ := Prod.mk.inj eq
    rw [field, length] at fits
    exact Nat.lt_irrefl _ fits
  · cases stored

end Teres.Tools.Tasks
