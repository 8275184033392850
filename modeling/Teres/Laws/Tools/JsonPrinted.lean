import Teres.Tools.JsonDump
import Teres.Tools.JsonGrammar

/-!
# The document that a dump prints

`Value.line` is what `json__dump` writes for a value, and it is the text of a document of the
grammar (`Value.line_eq`): the same values with other white space, less the members that the reading
loses. In that document nothing is lost any more, so it is printed as it is (`Value.line_shown`).
-/

namespace Teres.Tools.Json

/-! ## The bytes -/

/-- The name in a head. -/
def Head.called (h : Head) : Option (List UInt8) := h.name.map Name.body

/-- The blanks and the name in front of a value, and what stands between. -/
def tag (e : ℕ) (label : Option (List UInt8)) (gap : List UInt8) : List UInt8 :=
  spaces e ++ label.elim [] fun s => inQuotes s ++ 0x3A :: gap

/-- Whether a member is read at all. -/
def Members.shows : Members → Bool
  | .nil _ => false
  | .last _ value post => !value.lost post
  | .more _ _ _ _ => true

/-- A container is written on a line of its own. -/
def Value.gap (e : ℕ) : Value → List UInt8
  | .node _ _ => 0x0A :: spaces e
  | _ => []

mutual

/-- What is written for a value at depth `e`. -/
def Value.line (e : ℕ) (label : Option (List UInt8)) : Value → List UInt8
  | .scalar _ lexeme => tag e label [] ++ lexeme
  | .string body => tag e label [] ++ inQuotes body
  | .node brace members =>
    tag e label (0x0A :: spaces e) ++
      openingByte brace :: 0x0A :: (members.lines (e + 1) ++
        0x0A :: (spaces e ++ [closingByte brace]))

/-- What is written for the members of a container. -/
def Members.lines (e : ℕ) : Members → List UInt8
  | .nil _ => []
  | .last head value post => if value.lost post then [] else value.line e head.called
  | .more head value _ rest =>
    value.line e head.called ++ ((if rest.shows then [0x2C, 0x0A] else []) ++ rest.lines e)

end

/-! ## The document -/

/-- What is written in front of a value. -/
def Head.shown (e : ℕ) (v : Value) (h : Head) : Head where
  pre := 0x0A :: spaces e
  name := h.name.map fun n => ⟨n.body, [], v.gap e⟩

mutual

/-- The value that is written at depth `e`. -/
def Value.shown (e : ℕ) : Value → Value
  | .scalar type lexeme => .scalar type lexeme
  | .string body => .string body
  | .node brace members => .node brace (members.shown e)

/-- The members that are written of a container at depth `e`. -/
def Members.shown (e : ℕ) : Members → Members
  | .nil _ => .nil (0x0A :: 0x0A :: spaces e)
  | .last head value post =>
    if value.lost post then .nil (0x0A :: 0x0A :: spaces e)
    else .last (head.shown (e + 1) value) (value.shown (e + 1)) (0x0A :: spaces e)
  | .more head value _ rest =>
    if rest.shows then
      .more (head.shown (e + 1) value) (value.shown (e + 1)) [] (rest.shown e)
    else .last (head.shown (e + 1) value) (value.shown (e + 1)) (0x0A :: spaces e)

end

theorem Head.shown_text (e : ℕ) (v : Value) (h : Head) :
    (h.shown e v).text = 0x0A :: tag e h.called (v.gap e) := by
  obtain ⟨pre, name⟩ := h
  cases name with
  | none => rfl
  | some n => simp [Head.shown, Head.text, Head.called, tag, inQuotes, Name.text]

@[simp] theorem Head.called_shown (e : ℕ) (v : Value) (h : Head) :
    (h.shown e v).called = h.called := by
  obtain ⟨pre, name⟩ := h
  cases name <;> rfl

@[simp] theorem Value.gap_shown (e e' : ℕ) (v : Value) : (v.shown e).gap e' = v.gap e' := by
  cases v <;> rfl

/-- Members that are not read are not written. -/
theorem Members.lines_hidden {members : Members} (hidden : members.shows = false) (e : ℕ) :
    members.lines e = [] := by
  cases members with
  | nil space => rfl
  | last head v post =>
    rw [Members.shows, Bool.not_eq_false'] at hidden
    rw [Members.lines, if_pos hidden]
  | more head v post rest => exact absurd hidden (by simp [Members.shows])

mutual

/-- **What is written is the text of a document.** -/
theorem Value.line_eq : ∀ (v : Value) (e : ℕ) (label : Option (List UInt8)),
    v.line e label = tag e label (v.gap e) ++ (v.shown e).text
  | .scalar _ _, _, _ => rfl
  | .string _, _, _ => rfl
  | .node brace members, e, label => by
    rw [Value.line, Value.shown, Value.text, Members.shown_text, Value.gap]
    simp

/-- The same of the members of a container. -/
theorem Members.shown_text : ∀ (members : Members) (e : ℕ),
    (members.shown e).text = 0x0A :: (members.lines (e + 1) ++ 0x0A :: spaces e)
  | .nil _, _ => rfl
  | .last head v post, e => by
    rw [Members.shown, Members.lines]
    cases v.lost post with
    | true => rfl
    | false =>
      rw [if_neg Bool.false_ne_true, if_neg Bool.false_ne_true, Members.text, Head.shown_text,
        Value.line_eq]
      simp
  | .more head v post rest, e => by
    rw [Members.shown, Members.lines, Value.line_eq]
    cases shows : rest.shows with
    | true =>
      rw [if_pos rfl, if_pos rfl, Members.text, Head.shown_text, Members.shown_text]
      simp
    | false =>
      rw [if_neg Bool.false_ne_true, if_neg Bool.false_ne_true, Members.text, Head.shown_text,
        Members.lines_hidden shows]
      simp

end

/-! ## A document of the grammar -/

theorem blank_spaces (e : ℕ) : Blank (spaces e) := by
  intro c mem
  rw [List.eq_of_mem_replicate mem]
  decide

theorem blank_line (e : ℕ) : Blank (0x0A :: spaces e) := by
  intro c mem
  rcases List.mem_cons.1 mem with rfl | mem
  · decide
  · exact blank_spaces e c mem

theorem blank_empty (e : ℕ) : Blank (0x0A :: 0x0A :: spaces e) := by
  intro c mem
  rcases List.mem_cons.1 mem with rfl | mem
  · decide
  · exact blank_line e c mem

theorem Value.blank_gap (e : ℕ) (v : Value) : Blank (v.gap e) := by
  cases v with
  | node brace members => exact blank_line e
  | _ => exact fun _ mem => absurd mem List.not_mem_nil

@[simp] theorem Value.isScalar_shown (e : ℕ) (v : Value) : (v.shown e).isScalar = v.isScalar := by
  cases v <;> rfl

theorem Head.shown_wellFormed {lexicon : Lexicon} {brace : Bool} {h : Head}
    (wf : h.WellFormed lexicon brace) (e : ℕ) (v : Value) :
    (h.shown e v).WellFormed lexicon brace := by
  obtain ⟨pre, name⟩ := h
  refine ⟨blank_line e, ?_⟩
  cases name with
  | none => exact wf.2
  | some n =>
    obtain ⟨_, object, body, _⟩ := wf
    exact ⟨object, body, fun _ mem => absurd mem List.not_mem_nil, v.blank_gap e⟩

mutual

theorem Value.shown_wellFormed {lexicon : Lexicon} {bare : Bool} :
    ∀ {v : Value}, v.WellFormed lexicon bare → ∀ e : ℕ, (v.shown e).WellFormed lexicon bare
  | .scalar _ _, wf, _ => wf
  | .string _, wf, _ => wf
  | .node _ _, wf, e => Members.shown_wellFormed wf e

/-- **The document is one of the grammar.** -/
theorem Members.shown_wellFormed {lexicon : Lexicon} {bare brace : Bool} : ∀ {members : Members},
    members.WellFormed lexicon bare brace →
      ∀ e : ℕ, (members.shown e).WellFormed lexicon bare brace
  | .nil _, _, e => blank_empty e
  | .last head v post, wf, e => by
    obtain ⟨wfHead, place, wfValue, _⟩ := wf
    rw [Members.shown]
    cases v.lost post with
    | true => exact blank_empty e
    | false =>
      refine ⟨Head.shown_wellFormed wfHead _ _, ?_, Value.shown_wellFormed wfValue _, blank_line e⟩
      rwa [Value.isScalar_shown]
  | .more head v post rest, wf, e => by
    obtain ⟨wfHead, place, wfValue, _, wfRest⟩ := wf
    rw [Members.shown]
    have wfHead' := Head.shown_wellFormed wfHead (e + 1) v
    have wfValue' := Value.shown_wellFormed wfValue (e + 1)
    cases rest.shows with
    | true =>
      refine ⟨wfHead', ?_, wfValue', fun _ mem => absurd mem List.not_mem_nil,
        Members.shown_wellFormed wfRest e⟩
      rwa [Value.isScalar_shown]
    | false =>
      refine ⟨wfHead', ?_, wfValue', blank_line e⟩
      rwa [Value.isScalar_shown]

end

mutual

theorem Value.depth_shown : ∀ (v : Value) (e : ℕ), (v.shown e).depth ≤ v.depth
  | .scalar _ _, _ => Nat.le_refl 0
  | .string _, _ => Nat.le_refl 0
  | .node _ members, e => Nat.succ_le_succ (members.depth_shown e)

/-- It is no deeper. -/
theorem Members.depth_shown : ∀ (members : Members) (e : ℕ),
    (members.shown e).depth ≤ members.depth
  | .nil _, _ => Nat.le_refl 0
  | .last head v post, e => by
    rw [Members.shown]
    cases v.lost post with
    | true => exact Nat.zero_le _
    | false => exact v.depth_shown (e + 1)
  | .more head v post rest, e => by
    rw [Members.shown, Members.depth]
    cases rest.shows with
    | true =>
      exact Nat.max_le.2 ⟨Nat.le_trans (v.depth_shown (e + 1)) (Nat.le_max_left _ _),
        Nat.le_trans (rest.depth_shown e) (Nat.le_max_right _ _)⟩
    | false => exact Nat.le_trans (v.depth_shown (e + 1)) (Nat.le_max_left _ _)

end

/-! ## Nothing is lost any more -/

/-- White space behind a value keeps it from being lost. -/
theorem Value.lost_cons (v : Value) (c : UInt8) (s : List UInt8) : v.lost (c :: s) = false :=
  Bool.and_false _

@[simp] theorem Members.shows_shown (members : Members) (e : ℕ) :
    (members.shown e).shows = members.shows := by
  cases members with
  | nil space => rfl
  | last head v post =>
    rw [Members.shown, Members.shows]
    cases v.lost post with
    | true => rfl
    | false =>
      rw [if_neg Bool.false_ne_true, Members.shows, Value.lost_cons]
  | more head v post rest =>
    rw [Members.shown]
    cases rest.shows with
    | true => rfl
    | false =>
      rw [if_neg Bool.false_ne_true, Members.shows, Value.lost_cons]
      rfl

theorem Head.shown_shown (e e' : ℕ) (v : Value) (h : Head) :
    (h.shown e v).shown e (v.shown e') = h.shown e v := by
  obtain ⟨pre, name⟩ := h
  cases name with
  | none => rfl
  | some n => simp [Head.shown]

mutual

theorem Value.shown_shown : ∀ (v : Value) (e : ℕ), (v.shown e).shown e = v.shown e
  | .scalar _ _, _ => rfl
  | .string _, _ => rfl
  | .node brace members, e => congrArg (Value.node brace) (members.shown_shown e)

/-- **What is written is written as it is.** -/
theorem Members.shown_shown : ∀ (members : Members) (e : ℕ),
    (members.shown e).shown e = members.shown e
  | .nil _, _ => rfl
  | .last head v post, e => by
    rw [Members.shown]
    cases v.lost post with
    | true => rfl
    | false =>
      rw [if_neg Bool.false_ne_true, Members.shown, Value.lost_cons, if_neg Bool.false_ne_true,
        Head.shown_shown, v.shown_shown]
  | .more head v post rest, e => by
    rw [Members.shown]
    cases shows : rest.shows with
    | true =>
      rw [if_pos rfl, Members.shown, Members.shows_shown, shows, if_pos rfl, Head.shown_shown,
        v.shown_shown, rest.shown_shown]
    | false =>
      rw [if_neg Bool.false_ne_true, Members.shown, Value.lost_cons, if_neg Bool.false_ne_true,
        Head.shown_shown, v.shown_shown]

end

theorem Value.line_shown (v : Value) (e : ℕ) (label : Option (List UInt8)) :
    (v.shown e).line e label = v.line e label := by
  rw [Value.line_eq, Value.line_eq, Value.gap_shown, Value.shown_shown]

/-! ## No NUL is written -/

theorem spaces_noNul (e : ℕ) : 0 ∉ spaces e := by
  intro mem
  exact absurd (List.eq_of_mem_replicate mem) (by decide)

theorem Value.gap_noNul (e : ℕ) (v : Value) : 0 ∉ v.gap e := by
  cases v with
  | node brace members => simp [Value.gap, spaces_noNul]
  | _ => simp [Value.gap]

theorem Head.shown_noNul {h : Head} (noNul : 0 ∉ h.text) (e : ℕ) (v : Value) :
    0 ∉ (h.shown e v).text := by
  obtain ⟨pre, name⟩ := h
  rw [Head.shown_text]
  cases name with
  | none => simp [tag, Head.called, spaces_noNul]
  | some n =>
    have body : 0 ∉ n.body := by
      intro mem
      exact noNul (by simp [Head.text, Name.text, mem])
    simp [tag, Head.called, inQuotes, quote, spaces_noNul, body, v.gap_noNul]

theorem brackets_noNul (brace : Bool) : 0 ≠ openingByte brace ∧ 0 ≠ closingByte brace := by
  cases brace <;> decide

mutual

theorem Value.shown_noNul : ∀ {v : Value}, 0 ∉ v.text → ∀ e : ℕ, 0 ∉ (v.shown e).text
  | .scalar _ _, noNul, _ => noNul
  | .string _, noNul, _ => noNul
  | .node brace members, noNul, e => by
    have inner : 0 ∉ members.text := by
      intro mem
      exact noNul (by simp [Value.text, mem])
    have inside := Members.shown_noNul inner e
    simp [Value.shown, Value.text, inside, brackets_noNul brace]

/-- The document has a NUL only where there was one. -/
theorem Members.shown_noNul : ∀ {members : Members}, 0 ∉ members.text →
    ∀ e : ℕ, 0 ∉ (members.shown e).text
  | .nil _, _, e => by simp [Members.shown, Members.text, spaces_noNul]
  | .last head v post, noNul, e => by
    rw [Members.text, List.mem_append, List.mem_append, not_or, not_or] at noNul
    have inHead := Head.shown_noNul noNul.1 (e + 1) v
    have inValue := Value.shown_noNul noNul.2.1 (e + 1)
    rw [Members.shown]
    cases v.lost post with
    | true => simp [Members.text, spaces_noNul]
    | false => simp [Members.text, inHead, inValue, spaces_noNul]
  | .more head v post rest, noNul, e => by
    rw [Members.text, List.mem_append, List.mem_append, List.mem_append, List.mem_cons] at noNul
    simp only [not_or] at noNul
    have inHead := Head.shown_noNul noNul.1 (e + 1) v
    have inValue := Value.shown_noNul noNul.2.1 (e + 1)
    have inRest := Members.shown_noNul noNul.2.2.2.2 e
    rw [Members.shown]
    cases rest.shows with
    | true => simp [Members.text, inHead, inValue, inRest]
    | false => simp [Members.text, inHead, inValue, spaces_noNul]

end

/-! ## What a visit sees -/

/-- A value as a visit sees it: its depth, its type, the bytes of its name if it has one, and of a
string, a number or a keyword its own. -/
@[ext] structure Sight where
  depth : ℕ
  type : Ty
  name : Option (List UInt8)
  value : Option (List UInt8)
deriving DecidableEq

/-- The bytes that a dump copies for it. -/
def Sight.copies (x : Sight) : List (List UInt8) := x.name.toList ++ x.value.toList

mutual

/-- The values of a value at depth `e` that are seen, itself last. -/
def Value.sights (e : ℕ) (label : Option (List UInt8)) : Value → List Sight
  | .scalar type lexeme => [⟨e, type, label, some lexeme⟩]
  | .string body => [⟨e, .string, label, some body⟩]
  | .node brace members => members.sights (e + 1) ++ [⟨e, nodeType brace, label, none⟩]

def Members.sights (e : ℕ) : Members → List Sight
  | .nil _ => []
  | .last head value post => if value.lost post then [] else value.sights e head.called
  | .more head value _ rest => value.sights e head.called ++ rest.sights e

end

theorem Members.sights_hidden {members : Members} (hidden : members.shows = false) (e : ℕ) :
    members.sights e = [] := by
  cases members with
  | nil space => rfl
  | last head v post =>
    rw [Members.shows, Bool.not_eq_false'] at hidden
    rw [Members.sights, if_pos hidden]
  | more head v post rest => exact absurd hidden (by simp [Members.shows])

mutual

theorem Value.sights_shown : ∀ (v : Value) (e : ℕ) (label : Option (List UInt8)),
    (v.shown e).sights e label = v.sights e label
  | .scalar _ _, _, _ => rfl
  | .string _, _, _ => rfl
  | .node _ members, e, _ => congrArg (· ++ _) (members.sights_shown e)

/-- **The same is seen** of the document that is written. -/
theorem Members.sights_shown : ∀ (members : Members) (e : ℕ),
    (members.shown e).sights (e + 1) = members.sights (e + 1)
  | .nil _, _ => rfl
  | .last head v post, e => by
    rw [Members.shown, Members.sights]
    cases v.lost post with
    | true => rfl
    | false =>
      rw [if_neg Bool.false_ne_true, Members.sights, Value.lost_cons, if_neg Bool.false_ne_true,
        Head.called_shown, v.sights_shown]
      rfl
  | .more head v post rest, e => by
    rw [Members.shown, Members.sights]
    cases shows : rest.shows with
    | true =>
      rw [if_pos rfl, Members.sights, Head.called_shown, v.sights_shown, rest.sights_shown]
    | false =>
      rw [if_neg Bool.false_ne_true, Members.sights, Value.lost_cons, if_neg Bool.false_ne_true,
        Head.called_shown, v.sights_shown, Members.sights_hidden shows, List.append_nil]

end

end Teres.Tools.Json
