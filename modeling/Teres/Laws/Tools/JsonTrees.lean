import Teres.Laws.Tools.JsonLoose

/-!
# Syntax trees from derivations

A derivation in which every token is in its place has a syntax tree (`remains`). The induction is on
the derivation, and each state says what of a container is left there: members, the rest of a named
member, or what follows one.
-/

namespace Teres.Tools.Json

section Trees

variable (lexicon : Lexicon) (n : ℕ) (brace : Bool) (r : List UInt8)

/-- Members and the closing bracket are left. -/
def Body (s : List UInt8) : Prop :=
  ∃ members : Members, members.WellFormed lexicon false brace ∧ members.depth ≤ n ∧
    s = members.text ++ closingByte brace :: r

/-- What follows a member is left: the closing bracket, or a comma and then members. -/
def Tail (s : List UInt8) : Prop :=
  ∃ post s', Blank post ∧ s = post ++ s' ∧
    (s' = closingByte brace :: r ∨ ∃ s'', s' = 0x2C :: s'' ∧ Body lexicon n brace r s'')

/-- A value is left, and what follows the member. -/
def Behind (s : List UInt8) : Prop :=
  ∃ space s', ∃ v : Value, Blank space ∧ v.WellFormed lexicon false ∧ v.depth ≤ n ∧
    s = space ++ (v.text ++ s') ∧ Tail lexicon n true r s'

/-- A colon is left, and what is behind it. -/
def Named (s : List UInt8) : Prop :=
  ∃ before s', Blank before ∧ s = before ++ 0x3A :: s' ∧ Behind lexicon n r s'

/-- What each state leaves. -/
def Remains : St → List UInt8 → Prop
  | .objectBody => Body lexicon n true r
  | .objectAfterComma => Body lexicon n true r
  | .objectAfterName => Named lexicon n r
  | .objectAfterColon => Behind lexicon n r
  | .objectAfterMember => Tail lexicon n true r
  | .arrayBody => Body lexicon n false r
  | .arrayAfterComma => Body lexicon n false r
  | .arrayAfterMember => Tail lexicon n false r
  | .init => fun _ => False
  | .objectName => fun _ => False
  | .stateEnd => fun _ => False

end Trees

section Steps

variable {lexicon : Lexicon} {n : ℕ} {brace : Bool} {r s : List UInt8}

/-- White space in front of members. -/
theorem Body.blank {b : UInt8} (class_ : classify b = .blank) (h : Body lexicon n brace r s) :
    Body lexicon n brace r (b :: s) := by
  obtain ⟨members, wf, depth, rfl⟩ := h
  have more : ∀ {space}, Blank space → Blank (b :: space) := fun blank =>
    List.forall_mem_cons.mpr ⟨class_, blank⟩
  cases members with
  | nil space => exact ⟨.nil (b :: space), more wf, depth, rfl⟩
  | last head v post =>
    obtain ⟨⟨blank, named⟩, rest⟩ := wf
    exact ⟨.last ⟨b :: head.pre, head.name⟩ v post, ⟨⟨more blank, named⟩, rest⟩, depth, rfl⟩
  | more head v post members =>
    obtain ⟨⟨blank, named⟩, rest⟩ := wf
    exact ⟨.more ⟨b :: head.pre, head.name⟩ v post members, ⟨⟨more blank, named⟩, rest⟩, depth, rfl⟩

/-- White space changes no state. -/
theorem Remains.blank {b : UInt8} (class_ : classify b = .blank) {q : St}
    (h : Remains lexicon n r q s) : Remains lexicon n r q (b :: s) := by
  have more : ∀ {space}, Blank space → Blank (b :: space) := fun blank =>
    List.forall_mem_cons.mpr ⟨class_, blank⟩
  have tail : ∀ brace, Tail lexicon n brace r s → Tail lexicon n brace r (b :: s) := by
    rintro brace ⟨post, s', blank, rfl, rest⟩
    exact ⟨b :: post, s', more blank, rfl, rest⟩
  cases q with
  | objectBody => exact Body.blank class_ h
  | objectAfterComma => exact Body.blank class_ h
  | arrayBody => exact Body.blank class_ h
  | arrayAfterComma => exact Body.blank class_ h
  | objectAfterMember => exact tail true h
  | arrayAfterMember => exact tail false h
  | objectAfterName =>
    obtain ⟨before, s', blank, rfl, rest⟩ := h
    exact ⟨b :: before, s', more blank, rfl, rest⟩
  | objectAfterColon =>
    obtain ⟨space, s', v, blank, wf, depth, rfl, rest⟩ := h
    exact ⟨b :: space, s', v, more blank, wf, depth, rfl, rest⟩
  | init => exact h
  | objectName => exact h
  | stateEnd => exact h

/-- A member, and what follows it. -/
theorem Tail.member {head : Head} {v : Value} (wfHead : head.WellFormed lexicon brace)
    (named : v.isScalar = true → brace = true) (wf : v.WellFormed lexicon false)
    (depth : v.depth ≤ n) (h : Tail lexicon n brace r s) :
    Body lexicon n brace r (head.text ++ (v.text ++ s)) := by
  obtain ⟨post, s', blank, rfl, rfl | ⟨s'', rfl, members, wfRest, depth', rfl⟩⟩ := h
  · exact ⟨.last head v post, ⟨wfHead, fun h => .inl (named h), wf, blank⟩, depth,
      (last_append head v post _).symm⟩
  · exact ⟨.more head v post members, ⟨wfHead, fun h => .inl (named h), wf, blank, wfRest⟩,
      Nat.max_le.mpr ⟨depth, depth'⟩, (more_append head v post members _).symm⟩

/-- A value where one is expected. -/
theorem Remains.value {q q' : St} (moves : afterNode q = some q') {v : Value}
    (named : v.isScalar = true → q = .objectAfterColon) (wf : v.WellFormed lexicon false)
    (depth : v.depth ≤ n) (h : Remains lexicon n r q' s) : Remains lexicon n r q (v.text ++ s) := by
  have blank : Blank [] := by decide
  have head : Head.WellFormed lexicon false ⟨[], none⟩ := ⟨blank, rfl⟩
  have element : ¬ v.isScalar = true → Tail lexicon n false r s →
      Body lexicon n false r (v.text ++ s) := fun other h =>
    h.member head (fun scalar => absurd scalar other) wf depth
  cases q with
  | objectAfterColon =>
    obtain rfl := Option.some.inj moves
    exact ⟨[], s, v, blank, wf, depth, rfl, h⟩
  | arrayBody =>
    obtain rfl := Option.some.inj moves
    exact element (fun scalar => nomatch named scalar) h
  | arrayAfterComma =>
    obtain rfl := Option.some.inj moves
    exact element (fun scalar => nomatch named scalar) h
  | _ => exact nomatch moves

/-- A name where one is expected. -/
theorem Named.body {body : List UInt8} (quotes : lexicon.string body) (h : Named lexicon n r s) :
    Body lexicon n true r (quote :: (body ++ quote :: s)) := by
  obtain ⟨before, _, blank, rfl, space, s', v, blank', wf, depth, rfl, tail⟩ := h
  have empty : Blank [] := by decide
  have head : Head.WellFormed lexicon true ⟨[], some ⟨body, before, space⟩⟩ :=
    ⟨empty, rfl, quotes, blank, blank'⟩
  have member := tail.member head (fun _ => rfl) wf depth
  simpa only [Head.text, Option.elim_some, Name.text, List.nil_append, List.cons_append,
    List.append_assoc] using member

end Steps

/-- **A derivation with every token in its place** has a syntax tree. -/
theorem remains {lexicon : Lexicon} {n : ℕ} {q : St} {s r : List UInt8}
    (h : Loose (Placed lexicon) n q s r) : Remains lexicon n r q s := by
  have empty : Blank [] := by decide
  induction h with
  | @token n q q' s s' r k token here moves rest ih =>
    have lexeme := here k s' token
    cases k with
    | opening => cases moves
    | closing => cases moves
    | comma =>
      obtain ⟨b, rfl, class_⟩ := lex_byte token rfl
      obtain rfl := eq_comma class_
      cases q with
      | arrayAfterMember =>
        obtain rfl := Option.some.inj moves
        exact ⟨[], _, empty, rfl, .inr ⟨s', rfl, ih⟩⟩
      | objectAfterMember =>
        obtain rfl := Option.some.inj moves
        exact ⟨[], _, empty, rfl, .inr ⟨s', rfl, ih⟩⟩
      | _ => cases moves
    | colon =>
      obtain ⟨b, rfl, class_⟩ := lex_byte token rfl
      obtain rfl := eq_colon class_
      cases q with
      | objectAfterName =>
        obtain rfl := Option.some.inj moves
        exact ⟨[], s', empty, rfl, ih⟩
      | _ => cases moves
    | blank =>
      obtain ⟨b, rfl, class_⟩ := lex_byte token rfl
      obtain rfl := Option.some.inj moves
      exact ih.blank class_
    | string =>
      obtain ⟨body, rfl, quotes⟩ := lexeme
      have value : ∀ {q q'}, afterNode q = some q' → Remains lexicon n r q' s' →
          Remains lexicon n r q ((Value.string body).text ++ s') := fun moves h =>
        h.value moves (fun scalar => by cases scalar) quotes (Nat.zero_le n)
      rw [← string_append]
      cases q with
      | objectAfterColon => exact value moves ih
      | arrayBody => exact value moves ih
      | arrayAfterComma => exact value moves ih
      | objectBody =>
        obtain rfl := Option.some.inj moves
        rw [string_append]
        exact Named.body quotes ih
      | objectAfterComma =>
        obtain rfl := Option.some.inj moves
        rw [string_append]
        exact Named.body quotes ih
      | _ => cases moves
    | scalar type =>
      obtain ⟨rfl, l, rfl, scalar⟩ := lexeme
      obtain rfl := Option.some.inj moves
      exact ih.value (q := .objectAfterColon) (v := .scalar type l) rfl (fun _ => rfl) scalar
        (Nat.zero_le n)
  | @closing n q s r brace token closes =>
    obtain ⟨b, rfl, class_⟩ := lex_byte token rfl
    obtain rfl := eq_closing class_
    have body : Body lexicon n brace r (closingByte brace :: r) :=
      ⟨.nil [], empty, Nat.zero_le n, rfl⟩
    have tail : Tail lexicon n brace r (closingByte brace :: r) := ⟨[], _, empty, rfl, .inl rfl⟩
    cases brace with
    | true =>
      cases q with
      | objectBody => exact body
      | objectAfterComma => exact body
      | objectAfterMember => exact tail
      | _ => cases closes
    | false =>
      cases q with
      | arrayBody => exact body
      | arrayAfterComma => exact body
      | arrayAfterMember => exact tail
      | _ => cases closes
  | @nested n q q' s s' m r brace token moves inside rest ihInside ihRest =>
    obtain ⟨b, rfl, class_⟩ := lex_byte token rfl
    have body : Body lexicon n brace m s' := by cases brace <;> exact ihInside
    obtain ⟨members, wf, depth, rfl⟩ := body
    rw [eq_opening class_, ← node_append]
    exact ihRest.value moves (fun scalar => by cases scalar) wf (Nat.succ_le_succ depth)

end Teres.Tools.Json
