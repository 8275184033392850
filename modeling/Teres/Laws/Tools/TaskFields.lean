import Mathlib.Data.List.GetD
import Teres.Laws.Tools.TaskItems
import Teres.Laws.Tools.Tasks

/-!
# Tasks as strings

The memory of a task holds one string for each field, up to its NUL (`Holds`). A string copied into
a field is held there, and every other field is as before, where the string is shorter than the
field (`Holds.copied`). So what a task is read as is what its strings are (`Holds.built`), and the
first free slot of a table is the one behind its strings (`freeSlot_eq`).
-/

namespace Teres.Tools.Tasks

open Json (Tree)
open Bld (Str ascii maxChildren)

/-! ## Strings in memory -/

/-- A field that holds a string and its NUL. -/
structure Stored (t : Task) (field : Field) (s : Str) : Prop where
  fits : s.length < field.size
  chars : ∀ k ≤ s.length, t.chars (field.offset + k) = s.getD k 0
  noNul : 0 ∉ s

theorem Stored.congr {t t' : Task} {field : Field} {s : Str} (stored : Stored t field s)
    (same : ∀ k < field.size, t'.chars (field.offset + k) = t.chars (field.offset + k)) :
    Stored t' field s where
  fits := stored.fits
  chars k inside := by
    rw [same k (Nat.lt_of_le_of_lt inside stored.fits)]
    exact stored.chars k inside
  noNul := stored.noNul

theorem Stored.first_eq_zero {t : Task} {field : Field} {s : Str} (stored : Stored t field s) :
    t.first field = 0 ↔ s = [] := by
  have first : t.first field = s.getD 0 0 := stored.chars 0 (Nat.zero_le _)
  rw [first]
  cases s with
  | nil => simp
  | cons c s =>
    have some : c ≠ 0 := by
      rintro rfl
      exact stored.noNul List.mem_cons_self
    simpa using some

/-- A string is read up to its NUL. -/
theorem cstr_eq {chars : ℕ → UInt8} {s : Str} (noNul : 0 ∉ s) :
    ∀ {q n : ℕ}, s.length < n → (∀ k ≤ s.length, chars (q + k) = s.getD k 0) →
      Build.cstr chars q n = s := by
  induction s with
  | nil =>
    intro q n room inside
    obtain ⟨n, rfl⟩ := Nat.exists_eq_succ_of_ne_zero (Nat.ne_of_gt room)
    exact if_pos (inside 0 (Nat.le_refl _))
  | cons c s ih =>
    intro q n room inside
    obtain ⟨n, rfl⟩ := Nat.exists_eq_succ_of_ne_zero (Nat.ne_of_gt (Nat.zero_lt_of_lt room))
    have first : chars q = c := inside 0 (Nat.zero_le _)
    have some : c ≠ 0 := fun zero => noNul (zero ▸ List.mem_cons_self)
    rw [Build.cstr, first, if_neg some]
    rw [ih (fun mem => noNul (List.mem_cons_of_mem c mem)) (Nat.lt_of_succ_lt_succ room)]
    intro k within
    rw [Nat.add_assoc, Nat.add_comm 1 k]
    exact inside (k + 1) (Nat.succ_le_succ within)

theorem Stored.string {t : Task} {field : Field} {s : Str} (stored : Stored t field s) :
    Build.string t field = s := by
  have size : field.size ≤ Build.charsSize := by
    cases field <;> simp [Field.size, Build.charsSize, Field.offset, maxLabel, maxPath]
  exact cstr_eq stored.noNul (Nat.lt_of_lt_of_le stored.fits size) stored.chars

/-! ## Tasks in memory -/

/-- The string of a field. -/
def Fields.text (f : Fields) : Field → Str
  | .label => f.label
  | .command => f.command
  | .cwd => f.cwd
  | .dependsOn slot => f.dependsOn.getD slot []
  | .args slot => f.args.getD slot []

/-- A table of strings, none of them empty, that leaves a slot free. -/
structure Tidy (table : List Str) : Prop where
  room : table.length ≤ maxChildren
  filled : [] ∉ table

/-- A table is its strings, and behind them free slots. -/
theorem padded_eq {table : List Str} (tidy : Tidy table) :
    (List.finRange (maxChildren + 1)).map (fun slot => table.getD slot.val []) =
      table ++ List.replicate (maxChildren + 1 - table.length) [] := by
  have room := tidy.room
  refine List.ext_getElem ?_ fun i inside inside' => ?_
  · simp only [List.length_map, List.length_finRange, List.length_append, List.length_replicate]
    omega
  · rw [List.getElem_map, List.getElem_finRange]
    change table.getD i [] = _
    by_cases filled : i < table.length
    · rw [List.getElem_append_left filled, List.getD_eq_getElem _ _ filled]
    · have behind := Nat.le_of_not_lt filled
      rw [List.getElem_append_right behind, List.getElem_replicate, List.getD_eq_default _ _ behind]

/-- A task that holds its strings. -/
structure Holds (t : Task) (f : Fields) : Prop where
  text : ∀ field, Stored t field (f.text field)
  platformArgs : t.platformArgs = f.platformArgs
  dependsOn : Tidy f.dependsOn
  args : Tidy f.args

theorem holds_new (id : ℕ) : Holds (Task.new id) Fields.empty where
  text field := by
    have empty : Fields.empty.text field = [] := by cases field <;> rfl
    rw [empty]
    refine ⟨?_, fun k inside => ?_, List.not_mem_nil⟩
    · cases field <;> exact Nat.zero_lt_succ _
    · rfl
  platformArgs := rfl
  dependsOn := ⟨Nat.zero_le _, List.not_mem_nil⟩
  args := ⟨Nat.zero_le _, List.not_mem_nil⟩

/-- **A task is read as the strings that it holds.** -/
theorem Holds.built {t : Task} {f : Fields} (holds : Holds t f) : Build.built t = f.built := by
  have string (field : Field) : Build.string t field = f.text field := (holds.text field).string
  unfold Build.built Fields.built
  simp only [string]
  rfl

/-! ## Copies -/

section Copies

variable {t : Task} {f f' : Fields} {c : Copy}

theorem Copy.Written.stored (written : c.Written) (fits : c.value.length < c.field.size)
    (noNul : 0 ∉ c.value) : Stored c.after c.field c.value :=
  ⟨fits, written.inside, noNul⟩

/-- **A copy that fits is held**, and every other string is held as before. -/
theorem Holds.copied (holds : Holds c.before f) (written : c.Written)
    (fits : c.value.length < c.field.size) (noNul : 0 ∉ c.value)
    (text : ∀ field, f'.text field = if field = c.field then c.value else f.text field)
    (platformArgs : f'.platformArgs = f.platformArgs) (dependsOn : Tidy f'.dependsOn)
    (args : Tidy f'.args) : Holds c.after f' where
  text field := by
    rw [text field]
    split
    next same =>
      rw [same]
      exact written.stored fits noNul
    next other =>
      refine (holds.text field).congr fun k inside => ?_
      have ranges := Field.apart other
      exact written.outside _ (by omega)
  platformArgs := by rw [written.platformArgs, holds.platformArgs, platformArgs]
  dependsOn := dependsOn
  args := args

/-- The value of an object. -/
structure Reads (tree : Tree) (obj : ℕ) (s : Str) : Prop where
  order : (tree.stack obj).valueStart ≤ (tree.stack obj).valueEnd
  slice : slice tree (tree.stack obj).valueStart (tree.stack obj).valueEnd = s
  noNul : 0 ∉ s

variable {tree : Tree} {obj limit : ℕ} {s : Str}

theorem Reads.valueLength (reads : Reads tree obj s) : valueLength tree obj = s.length := by
  rw [← reads.slice, slice_length]
  rfl

theorem Reads.copies (reads : Reads tree obj s) (fits : s.length < limit - 1) (field : Field)
    (t : Task) :
    ∃ c : Copy, copyValue tree obj limit field t = .ok (some c) ∧ c.field = field ∧ c.value = s ∧
      c.before = t ∧ c.Written := by
  have short : ¬((tree.stack obj).valueEnd < (tree.stack obj).valueStart ∨
      limit - 1 ≤ Tasks.valueLength tree obj) := by
    rw [reads.valueLength]
    exact not_or.2 ⟨Nat.not_lt_of_le reads.order, Nat.not_le_of_lt fits⟩
  obtain ⟨chars, bytes⟩ : ∃ chars, copyString tree (tree.stack obj).valueStart
      (tree.stack obj).valueEnd limit field.offset t.chars = .ok chars := ⟨_, if_neg short⟩
  have copied : copyValue tree obj limit field t =
      .ok (some ⟨field, s, t, { t with chars := chars }⟩) := by
    unfold copyValue
    rw [bytes, reads.slice]
    rfl
  obtain ⟨c, eq, _, _, written, _⟩ := copyValue_spec copied
  obtain rfl := Option.some.inj eq
  exact ⟨_, copied, rfl, rfl, rfl, written⟩

theorem Reads.exits (reads : Reads tree obj s) (long : ¬s.length < limit - 1) (field : Field)
    (t : Task) : copyValue tree obj limit field t = .error .exit := by
  have tooLong : (tree.stack obj).valueEnd < (tree.stack obj).valueStart ∨
      limit - 1 ≤ Tasks.valueLength tree obj := by
    rw [reads.valueLength]
    exact .inr (Nat.le_of_not_lt long)
  have exits : copyString tree (tree.stack obj).valueStart (tree.stack obj).valueEnd limit
      field.offset t.chars = .error .exit := if_pos tooLong
  unfold copyValue
  rw [exits]
  rfl

end Copies

/-! ## Tables -/

section Tables

variable {table : List Str} {s : Str}

theorem Tidy.stored (tidy : Tidy table) (room : table.length < maxChildren) (s : Str) :
    Tidy (stored table s) := by
  unfold Tasks.stored
  split
  · exact tidy
  · next some =>
    refine ⟨?_, ?_⟩
    · rw [List.length_append]
      exact room
    · rw [List.mem_append, List.mem_singleton]
      rintro (mem | rfl)
      · exact tidy.filled mem
      · exact some rfl

/-- A stored string is in the slot behind the table. -/
theorem getD_stored (table : List Str) (s : Str) (k : ℕ) :
    (stored table s).getD k [] = if k = table.length then s else table.getD k [] := by
  unfold Tasks.stored
  rcases lt_trichotomy k table.length with before | rfl | behind
  · rw [if_neg (Nat.ne_of_lt before)]
    split
    · rfl
    · exact List.getD_append _ _ _ _ before
  · rw [if_pos rfl]
    split
    next empty =>
      rw [empty]
      exact List.getD_eq_default _ _ (Nat.le_refl _)
    next =>
      rw [List.getD_append_right _ _ _ _ (Nat.le_refl _), Nat.sub_self]
      rfl
  · rw [if_neg (Nat.ne_of_gt behind)]
    split
    · rfl
    · have length : (table ++ [s]).length ≤ k := by
        rw [List.length_append]
        exact behind
      rw [List.getD_eq_default _ _ length, List.getD_eq_default _ _ (Nat.le_of_lt behind)]

theorem Tidy.getD_eq_nil (tidy : Tidy table) (k : ℕ) : table.getD k [] = [] ↔ table.length ≤ k := by
  constructor
  · intro empty
    by_contra inside
    have lt : k < table.length := Nat.lt_of_not_le inside
    rw [List.getD_eq_getElem _ _ lt] at empty
    exact tidy.filled (empty ▸ List.getElem_mem lt)
  · exact List.getD_eq_default _ _

/-- **The first free slot** is the one behind the table. -/
theorem freeSlot_eq {t : Task} {slots : Fin (maxChildren + 1) → Field} (tidy : Tidy table)
    (holds : ∀ slot, Stored t (slots slot) (table.getD slot [])) :
    t.freeSlot slots =
      if h : table.length < maxChildren then some ⟨table.length, Nat.lt_succ_of_lt h⟩
      else none := by
  have free (slot : Fin (maxChildren + 1)) :
      t.first (slots slot) = 0 ↔ table.length ≤ slot.val := by
    rw [(holds slot).first_eq_zero, tidy.getD_eq_nil]
  unfold Task.freeSlot
  split
  next room =>
    rw [List.find?_eq_some_iff_getElem]
    refine ⟨by simp [free, room], table.length, ?_, List.getElem_finRange _, fun j before => ?_⟩
    · rw [List.length_finRange]
      exact Nat.lt_succ_of_lt room
    · rw [List.getElem_finRange]
      simp [free, before]
  next full =>
    rw [List.find?_eq_none]
    intro slot _
    simp only [free, Bool.and_eq_true, decide_eq_true_eq, not_and]
    omega

end Tables

/-! ## Items gathered -/

/-- The task behind what may have been copied. -/
def result (t : Task) (copy : Option Copy) : Task := copy.elim t Copy.after

/-- A step on a task in memory does what the step on its strings does: both go on, or the program
exits. -/
def Refines : M Task → Option Fields → Prop
  | .ok t, some f => Holds t f
  | .error .exit, none => True
  | _, _ => False

theorem Refines.bind {r : M Task} {o : Option Fields} {k : Task → M Task}
    {k' : Fields → Option Fields} (refines : Refines r o)
    (next : ∀ t f, Holds t f → Refines (k t) (k' f)) : Refines (r >>= k) (o >>= k') := by
  match r, o, refines with
  | .ok t, some f, holds => exact next t f holds
  | .error .exit, none, _ => trivial

/-- A last step that leaves the task as it is. -/
theorem Refines.idle {r : M Task} {o : Option Fields} {k : Task → M Task} (refines : Refines r o)
    (idle : ∀ t, k t = .ok t) : Refines (r >>= k) o := by
  match r, o, refines with
  | .ok t, some f, holds =>
    change Refines (k t) (some f)
    rw [idle]
    exact holds
  | .error .exit, none, _ => trivial

section Items

variable {t t₀ : Task} {f : Fields} {tree : Tree} {obj : ℕ} {s : Str}

/-- **A value copied into a field.** -/
theorem refines_copyValue (holds : Holds t f) (reads : Reads tree obj s) {limit : ℕ} {field : Field}
    (size : s.length < field.size) {f' : Fields}
    (text : ∀ g, f'.text g = if g = field then s else f.text g)
    (platformArgs : f'.platformArgs = f.platformArgs) (dependsOn : Tidy f'.dependsOn)
    (args : Tidy f'.args) :
    Refines (result t₀ <$> copyValue tree obj limit field t)
      (if s.length < limit - 1 then some f' else none) := by
  split
  next fits =>
    obtain ⟨c, eq, rfl, rfl, rfl, written⟩ := reads.copies fits field t
    rw [eq]
    exact holds.copied written size reads.noNul text platformArgs dependsOn args
  next long =>
    rw [reads.exits long]
    trivial

/-- **A value copied into a table**, behind its strings. -/
theorem refines_copySlot (holds : Holds t f) (reads : Reads tree obj s)
    {slots : Fin (maxChildren + 1) → Field} (one : Function.Injective slots)
    (size : ∀ slot, s.length < (slots slot).size) {table : List Str} (tidy : Tidy table)
    (slot : ∀ slot, f.text (slots slot) = table.getD slot []) {f' : Fields}
    (slot' : ∀ slot, f'.text (slots slot) = (stored table s).getD slot [])
    (text : ∀ g, (∀ slot, g ≠ slots slot) → f'.text g = f.text g)
    (platformArgs : f'.platformArgs = f.platformArgs)
    (dependsOn : table.length < maxChildren → Tidy f'.dependsOn)
    (args : table.length < maxChildren → Tidy f'.args) :
    Refines (result t₀ <$> copySlot tree obj slots t)
      (if table.length < maxChildren ∧ Fits s then some f' else none) := by
  have free := freeSlot_eq tidy fun i => slot i ▸ holds.text (slots i)
  unfold copySlot
  rw [free]
  by_cases room : table.length < maxChildren
  · rw [dif_pos room]
    simp only [room, true_and]
    refine refines_copyValue holds reads (size _) (fun g => ?_) platformArgs (dependsOn room)
      (args room)
    by_cases other : ∀ i, g ≠ slots i
    · rw [text g other, if_neg (other _)]
    · obtain ⟨i, rfl⟩ := not_forall_not.1 other
      rw [slot', getD_stored, slot]
      simp only [one.eq_iff, Fin.ext_iff]
  · rw [dif_neg room, if_neg fun h => room h.1]
    trivial

theorem refines_label (holds : Holds t f) (reads : Reads tree obj s) (size : s.length < maxLabel) :
    Refines (result t₀ <$> copyValue tree obj 1024 .label t) (f.gather (.label s)) := by
  have fits : s.length < 1024 - 1 := Nat.lt_trans size (by decide)
  have refines : Refines (result t₀ <$> copyValue tree obj 1024 .label t)
      (if s.length < 1024 - 1 then some { f with label := s } else none) := by
    have inside : s.length < Field.label.size := size
    refine refines_copyValue holds reads inside (fun g => ?_) rfl holds.dependsOn holds.args
    cases g <;> rfl
  rw [if_pos fits] at refines
  exact refines

theorem refines_linuxCommand (holds : Holds t f) (reads : Reads tree obj s)
    (size : s.length < maxPath) :
    Refines (result t₀ <$> copyValue tree obj maxPath .command t) (f.gather (.linuxCommand s)) := by
  have inside : s.length < Field.command.size := size
  refine refines_copyValue holds reads inside (fun g => ?_) rfl holds.dependsOn holds.args
  cases g <;> rfl

theorem refines_cwd (holds : Holds t f) (reads : Reads tree obj s) (size : s.length < maxPath) :
    Refines (result t₀ <$> copyValue tree obj maxPath .cwd t) (f.gather (.cwd s)) := by
  have inside : s.length < Field.cwd.size := size
  refine refines_copyValue holds reads inside (fun g => ?_) rfl holds.dependsOn holds.args
  cases g <;> rfl

theorem refines_dependsOn (holds : Holds t f) (reads : Reads tree obj s)
    (size : s.length < maxLabel) :
    Refines (result t₀ <$> copySlot tree obj .dependsOn t) (f.gather (.dependsOn s)) := by
  have fits : Fits s := Nat.lt_trans size (by decide)
  have refines : Refines (result t₀ <$> copySlot tree obj .dependsOn t)
      (if f.dependsOn.length < maxChildren ∧ Fits s then
        some { f with dependsOn := stored f.dependsOn s } else none) := by
    refine refines_copySlot holds reads (fun _ _ => Field.dependsOn.inj) (fun _ => size)
      holds.dependsOn (fun _ => rfl) (fun _ => rfl) (fun g other => ?_) rfl
      (fun room => holds.dependsOn.stored room s) fun _ => holds.args
    cases g with
    | dependsOn slot => exact absurd rfl (other slot)
    | _ => rfl
  simp only [fits, and_true] at refines
  exact refines

/-- An argument behind those that are there. -/
theorem refines_args (holds : Holds t f) (reads : Reads tree obj s) (size : s.length < maxPath) :
    Refines (result t₀ <$> copySlot tree obj .args t)
      (if f.args.length < maxChildren ∧ Fits s then some { f with args := stored f.args s }
        else none) := by
  refine refines_copySlot holds reads (fun _ _ => Field.args.inj) (fun _ => size) holds.args
    (fun _ => rfl) (fun _ => rfl) (fun g other => ?_) rfl (fun _ => holds.dependsOn)
    fun room => holds.args.stored room s
  cases g with
  | args slot => exact absurd rfl (other slot)
  | _ => rfl

/-- The loop that clears the arguments changes the first byte of every slot but the last. -/
theorem cleared_chars (slots : List (Fin (maxChildren + 1))) (chars : ℕ → UInt8) (q : ℕ) :
    slots.foldl (fun chars i => if i.val < maxChildren then
        Function.update chars (Field.args i).offset 0 else chars) chars q =
      if ∃ i ∈ slots, i.val < maxChildren ∧ q = (Field.args i).offset then 0 else chars q := by
  induction slots generalizing chars with
  | nil => simp
  | cons i slots ih =>
    rw [List.foldl_cons, ih]
    by_cases here : i.val < maxChildren ∧ q = (Field.args i).offset
    · obtain ⟨inside, rfl⟩ := here
      simp [inside]
    · have same : (if i.val < maxChildren then Function.update chars (Field.args i).offset 0
          else chars) q = chars q := by
        split
        next inside => exact Function.update_of_ne (fun at_ => here ⟨inside, at_⟩) ..
        next => rfl
      simp only [same, List.mem_cons, exists_eq_or_imp, here, false_or]

/-- **Cleared arguments are gone**, and nothing else is. -/
theorem holds_cleared (holds : Holds t f) :
    Holds { t.clearArgs with platformArgs := true }
      { f with args := [], platformArgs := true } where
  text g := by
    have chars (q : ℕ) : t.clearArgs.chars q =
        if ∃ i ∈ List.finRange (maxChildren + 1), i.val < maxChildren ∧ q = (Field.args i).offset
        then 0 else t.chars q := cleared_chars _ _ q
    by_cases args : ∃ slot, g = .args slot
    · obtain ⟨slot, rfl⟩ := args
      refine ⟨Nat.zero_lt_succ _, fun k inside => ?_, List.not_mem_nil⟩
      obtain rfl := Nat.le_zero.1 inside
      rw [Nat.add_zero]
      dsimp only
      rw [chars]
      split
      · rfl
      · next kept =>
        have last : maxChildren ≤ slot.val :=
          Nat.le_of_not_lt fun inside => kept ⟨slot, List.mem_finRange slot, inside, rfl⟩
        refine (holds.text (.args slot)).first_eq_zero.2 ?_
        exact (holds.args.getD_eq_nil _).2 (Nat.le_trans holds.args.room last)
    · have other : Fields.text { f with args := [], platformArgs := true } g = f.text g := by
        cases g with
        | args slot => exact absurd ⟨slot, rfl⟩ args
        | _ => rfl
      rw [other]
      refine (holds.text g).congr fun k inside => ?_
      refine (chars _).trans (if_neg ?_)
      rintro ⟨i, _, _, at_⟩
      have apart : g ≠ .args i := fun same => args ⟨i, same⟩
      have positive : 0 < (Field.args i).size := Nat.zero_lt_succ _
      have ranges := Field.apart apart
      omega
  platformArgs := rfl
  dependsOn := holds.dependsOn
  args := ⟨Nat.zero_le _, List.not_mem_nil⟩

theorem holds_platform (holds : Holds t f) (platform : Bool) :
    Holds { t with platformArgs := platform } { f with platformArgs := platform } where
  text g := by
    have same : Fields.text { f with platformArgs := platform } g = f.text g := by cases g <;> rfl
    rw [same]
    exact (holds.text g).congr fun _ _ => rfl
  platformArgs := rfl
  dependsOn := holds.dependsOn
  args := holds.args

theorem refines_arg (holds : Holds t f) (reads : Reads tree obj s) (size : s.length < maxPath) :
    Refines (result t <$> bldArgs tree obj t false) (f.gather (.arg s)) := by
  unfold bldArgs Fields.gather
  rw [holds.platformArgs]
  cases platform : f.platformArgs with
  | true => exact holds
  | false =>
    have same : { f with platformArgs := false } = f := by rw [← platform]
    have refines : Refines
        (result t <$> copySlot tree obj .args { t with platformArgs := false }) _ :=
      refines_args (holds_platform holds false) reads size
    rw [same, platform] at refines
    exact refines

theorem refines_linuxArg (holds : Holds t f) (reads : Reads tree obj s)
    (size : s.length < maxPath) :
    Refines (result t <$> bldArgs tree obj t true) (f.gather (.linuxArg s)) := by
  unfold bldArgs Fields.gather
  rw [holds.platformArgs]
  cases platform : f.platformArgs with
  | true =>
    exact refines_args (holds_platform holds true) reads size
  | false =>
    exact refines_args (holds_cleared holds) reads size

end Items

end Teres.Tools.Tasks
