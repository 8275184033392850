import Teres.Laws.Tools.JsonLex

/-!
# The grammar inside the larger language

`lex` is a function, so a derivation of `Loose` is read off its text token by token
(`loose_token`, `loose_closing`, `loose_opening`). A container of the grammar is in the larger
language exactly if none of its arrays holds a number or a keyword, and the derivation then ends
with the container (`loose_members`): behind such an element an array is read as an object, and its
closing bracket is not (`not_loose_array`).
-/

namespace Teres.Tools.Json

/-! ## Token by token -/

section Tokens

variable {proper : St → List UInt8 → Prop} {n : ℕ} {q : St} {s s' r : List UInt8}

theorem loose_token {k : Token} (token : lex s = some (k, s')) (unopened : ∀ b, k ≠ .opening b)
    (unclosed : ∀ b, k ≠ .closing b) :
    Loose proper n q s r ↔
      proper q s ∧ ∃ q', move k q = some q' ∧ Loose proper n q' s' r := by
  constructor
  · intro h
    cases h with
    | token token' here moves rest =>
      obtain ⟨rfl, rfl⟩ := Prod.mk.inj (Option.some.inj (token.symm.trans token'))
      exact ⟨here, _, moves, rest⟩
    | closing token' _ =>
      obtain ⟨rfl, _⟩ := Prod.mk.inj (Option.some.inj (token.symm.trans token'))
      exact absurd rfl (unclosed _)
    | nested token' _ _ _ =>
      obtain ⟨rfl, _⟩ := Prod.mk.inj (Option.some.inj (token.symm.trans token'))
      exact absurd rfl (unopened _)
  · rintro ⟨here, q', moves, rest⟩
    exact .token token here moves rest

theorem loose_closing {brace : Bool} (token : lex s = some (.closing brace, s')) :
    Loose proper n q s r ↔ closable brace q = true ∧ r = s' := by
  constructor
  · intro h
    cases h with
    | token token' _ moves _ =>
      obtain ⟨rfl, _⟩ := Prod.mk.inj (Option.some.inj (token.symm.trans token'))
      exact nomatch moves
    | closing token' closes =>
      obtain ⟨same, rfl⟩ := Prod.mk.inj (Option.some.inj (token.symm.trans token'))
      rw [Token.closing.inj same]
      exact ⟨closes, rfl⟩
    | nested token' _ _ _ =>
      exact nomatch (Prod.mk.inj (Option.some.inj (token.symm.trans token'))).1
  · rintro ⟨closes, rfl⟩
    exact .closing token closes

theorem loose_opening {brace : Bool} (token : lex s = some (.opening brace, s')) :
    Loose proper n q s r ↔ ∃ n' q' m, n = n' + 1 ∧ afterNode q = some q' ∧
      Loose proper n' (bodyState brace) s' m ∧ Loose proper n q' m r := by
  constructor
  · intro h
    cases h with
    | token token' _ moves _ =>
      obtain ⟨rfl, _⟩ := Prod.mk.inj (Option.some.inj (token.symm.trans token'))
      exact nomatch moves
    | closing token' _ => exact nomatch (Prod.mk.inj (Option.some.inj (token.symm.trans token'))).1
    | nested token' moves inside rest =>
      obtain ⟨same, rfl⟩ := Prod.mk.inj (Option.some.inj (token.symm.trans token'))
      rw [Token.opening.inj same]
      exact ⟨_, _, _, rfl, moves, inside, rest⟩
  · rintro ⟨n', q', m, rfl, moves, inside, rest⟩
    exact .nested token moves inside rest

end Tokens

theorem lex_blank {c : UInt8} (h : classify c = .blank) (s : List UInt8) :
    lex (c :: s) = some (.blank, s) := by
  simp only [lex, h]

theorem lex_openingByte (brace : Bool) (s : List UInt8) :
    lex (openingByte brace :: s) = some (.opening brace, s) := by
  simp only [lex, classify_openingByte]

theorem lex_closingByte (brace : Bool) (s : List UInt8) :
    lex (closingByte brace :: s) = some (.closing brace, s) := by
  simp only [lex, classify_closingByte]

/-! The text of a member in front of what follows. -/

theorem last_append (head : Head) (value : Value) (post k : List UInt8) :
    (Members.last head value post).text ++ k = head.text ++ (value.text ++ (post ++ k)) := by
  simp only [Members.text, List.append_assoc]

theorem more_append (head : Head) (value : Value) (post : List UInt8) (rest : Members)
    (k : List UInt8) : (Members.more head value post rest).text ++ k =
      head.text ++ (value.text ++ (post ++ 0x2C :: (rest.text ++ k))) := by
  simp only [Members.text, List.append_assoc, List.cons_append]

theorem string_append (body k : List UInt8) :
    (Value.string body).text ++ k = quote :: (body ++ quote :: k) := by
  simp only [Value.text, List.cons_append, List.append_assoc, List.nil_append]

theorem node_append (brace : Bool) (members : Members) (k : List UInt8) :
    (Value.node brace members).text ++ k =
      openingByte brace :: (members.text ++ closingByte brace :: k) := by
  simp only [Value.text, List.cons_append, List.append_assoc, List.nil_append]

/-! ## White space, strings and names -/

/-- The state behind a comma. -/
def commaState (brace : Bool) : St := if brace then .objectAfterComma else .arrayAfterComma

/-- The state in front of a value, in a container that was in the state `q`. -/
def valueState (brace : Bool) (q : St) : St := if brace then .objectAfterColon else q

/-- The state behind a member. -/
def memberState (brace : Bool) : St := if brace then .objectAfterMember else .arrayAfterMember

/-- The state behind a value. -/
def afterValue : Value → St → Option St
  | .scalar _ _, _ => some .objectAfterMember
  | .string _, q => afterString q
  | .node _ _, q => afterNode q

/-- The states in which a member may begin. -/
def Starts (brace : Bool) (q : St) : Prop := q = bodyState brace ∨ q = commaState brace

/-! What is read where it is `Placed`, with the lexicon's numbers and strings. -/

section Placed

variable {lexicon : Lexicon} {q : St} {s s' : List UInt8}

theorem placed_byte {k : Token} (token : lex s = some (k, s')) {byte : Byte}
    (single : k.byte = some byte) : Placed lexicon q s := by
  intro k' s'' token'
  obtain ⟨rfl, _⟩ := Prod.mk.inj (Option.some.inj (token.symm.trans token'))
  cases k with
  | string => exact nomatch single
  | scalar => exact nomatch single
  | _ => exact trivial

theorem placed_string {body : List UInt8} (quotes : lexicon.string body) :
    Placed lexicon q (quote :: (body ++ quote :: s)) := by
  intro k s' token
  obtain ⟨rfl, rfl⟩ :=
    Prod.mk.inj (Option.some.inj ((lex_string (lexicon.quoted _ quotes) s).symm.trans token))
  exact ⟨body, rfl, quotes⟩

theorem placed_scalar {type : Ty} {l : List UInt8} (h : lexicon.Scalar type l) (ends : Ends s) :
    Placed lexicon .objectAfterColon (l ++ s) := by
  intro k s' token
  obtain ⟨rfl, rfl⟩ := Prod.mk.inj (Option.some.inj ((lex_scalar h ends).symm.trans token))
  exact ⟨rfl, l, rfl, h⟩

end Placed

section Pieces

variable {lexicon : Lexicon} {proper : St → List UInt8 → Prop}
  (fits : ∀ q s, Placed lexicon q s → proper q s) {n : ℕ} {q : St} {s r : List UInt8}
include fits

theorem loose_blanks {space : List UInt8} (blank : Blank space) :
    Loose proper n q (space ++ s) r ↔ Loose proper n q s r := by
  induction space with
  | nil => exact Iff.rfl
  | cons c space ih =>
    have token := lex_blank (blank c List.mem_cons_self) (space ++ s)
    rw [← ih fun d hd => blank d (List.mem_cons_of_mem c hd), List.cons_append,
      loose_token token (fun _ h => by cases h) (fun _ h => by cases h)]
    constructor
    · rintro ⟨_, q', moves, rest⟩
      obtain rfl := Option.some.inj moves
      exact rest
    · exact fun rest => ⟨fits _ _ (placed_byte token rfl), q, rfl, rest⟩

theorem loose_string {body : List UInt8} (quotes : lexicon.string body) :
    Loose proper n q (quote :: (body ++ quote :: s)) r ↔
      ∃ q', afterString q = some q' ∧ Loose proper n q' s r := by
  rw [loose_token (lex_string (lexicon.quoted _ quotes) s) (fun _ h => by cases h)
    (fun _ h => by cases h)]
  exact and_iff_right (fits _ _ (placed_string quotes))

omit fits in
theorem loose_scalar {type : Ty} {l : List UInt8} (h : lexicon.Scalar type l) (ends : Ends s) :
    Loose proper n q (l ++ s) r ↔ proper q (l ++ s) ∧ Loose proper n .objectAfterMember s r := by
  rw [loose_token (lex_scalar h ends) (fun _ h => by cases h) (fun _ h => by cases h)]
  constructor
  · rintro ⟨here, q', moves, rest⟩
    obtain rfl := Option.some.inj moves
    exact ⟨here, rest⟩
  · exact fun ⟨here, rest⟩ => ⟨here, _, rfl, rest⟩

theorem loose_comma : Loose proper n q (0x2C :: s) r ↔
    ∃ q', move .comma q = some q' ∧ Loose proper n q' s r := by
  have token : lex (0x2C :: s) = some (.comma, s) := by
    have class_ : classify 0x2C = .comma := by decide
    simp only [lex, class_]
  rw [loose_token token (fun _ h => by cases h) (fun _ h => by cases h)]
  exact and_iff_right (fits _ _ (placed_byte token rfl))

theorem loose_colon : Loose proper n .objectAfterName (0x3A :: s) r ↔
    Loose proper n .objectAfterColon s r := by
  have token : lex (0x3A :: s) = some (.colon, s) := by
    have class_ : classify 0x3A = .colon := by decide
    simp only [lex, class_]
  rw [loose_token token (fun _ h => by cases h) (fun _ h => by cases h)]
  constructor
  · rintro ⟨_, q', moves, rest⟩
    obtain rfl := Option.some.inj moves
    exact rest
  · exact fun rest => ⟨fits _ _ (placed_byte token rfl), _, rfl, rest⟩

/-- What stands before a value leads to the state in front of it. -/
theorem loose_head {brace : Bool} {h : Head} (wf : h.WellFormed lexicon brace)
    (starts : Starts brace q) :
    Loose proper n q (h.text ++ s) r ↔ Loose proper n (valueState brace q) s r := by
  obtain ⟨pre, name⟩ := h
  obtain ⟨blank, named⟩ := wf
  rw [Head.text, List.append_assoc, loose_blanks fits blank]
  cases name with
  | none =>
    obtain rfl : brace = false := named
    exact Iff.rfl
  | some name =>
    obtain ⟨rfl, quotes, before, after⟩ := named
    have behind : afterString q = some .objectAfterName := by
      rcases starts with rfl | rfl <;> rfl
    have text : (some name).elim [] Name.text ++ s =
        quote :: (name.body ++ quote :: (name.before ++ 0x3A :: (name.after ++ s))) := by
      simp only [Option.elim_some, Name.text, List.cons_append, List.append_assoc]
    have read : Loose proper n .objectAfterName (name.before ++ 0x3A :: (name.after ++ s)) r ↔
        Loose proper n .objectAfterColon s r := by
      rw [loose_blanks fits before, loose_colon fits, loose_blanks fits after]
    rw [text, loose_string fits quotes, behind]
    constructor
    · rintro ⟨q', moves, rest⟩
      obtain rfl := Option.some.inj moves
      exact read.mp rest
    · exact fun rest => ⟨_, rfl, read.mpr rest⟩

/-- The end of a container, behind a member. -/
theorem loose_end {brace : Bool} {post r' : List UInt8} (blank : Blank post) :
    Loose proper n q (post ++ closingByte brace :: r) r' ↔ closable brace q = true ∧ r' = r := by
  rw [loose_blanks fits blank, loose_closing (lex_closingByte brace r)]

/-- Behind a member, a comma. -/
theorem loose_next (brace : Bool) {post : List UInt8} (blank : Blank post) :
    Loose proper n (memberState brace) (post ++ 0x2C :: s) r ↔
      Loose proper n (commaState brace) s r := by
  have moves : move .comma (memberState brace) = some (commaState brace) := by cases brace <;> rfl
  rw [loose_blanks fits blank, loose_comma fits, moves]
  constructor
  · rintro ⟨q', moves, rest⟩
    obtain rfl := Option.some.inj moves
    exact rest
  · exact fun rest => ⟨_, rfl, rest⟩

end Pieces

/-! ## Members and values -/

/-- Behind the white space of a member, a number has ended. -/
theorem ends_blank {post : List UInt8} (blank : Blank post) {c : UInt8}
    (h : classify c = .comma ∨ ∃ brace, classify c = .closing brace) (k : List UInt8) :
    Ends (post ++ c :: k) := by
  intro d hd
  cases inside : inNumber d with
  | false => rfl
  | true =>
    obtain ⟨notBlank, notComma, notClosing⟩ := inNumber_of_classify d inside
    cases post with
    | nil =>
      obtain rfl : c = d := Option.some.inj hd
      obtain comma | ⟨brace, closing⟩ := h
      · exact absurd comma notComma
      · exact absurd closing (notClosing brace)
    | cons e post =>
      obtain rfl : e = d := Option.some.inj hd
      exact absurd (blank e List.mem_cons_self) notBlank

theorem ends_comma {post : List UInt8} (blank : Blank post) (k : List UInt8) :
    Ends (post ++ 0x2C :: k) :=
  ends_blank blank (.inl (by decide)) k

theorem ends_closing {post : List UInt8} (blank : Blank post) (brace : Bool) (k : List UInt8) :
    Ends (post ++ closingByte brace :: k) :=
  ends_blank blank (.inr ⟨brace, classify_closingByte brace⟩) k

/-- The state behind a member that is no number or keyword in an array. -/
theorem afterValue_member {brace : Bool} {q : St} (starts : Starts brace q) {v : Value}
    (named : v.isScalar = true → brace = true) :
    afterValue v (valueState brace q) = some (memberState brace) := by
  cases brace with
  | true => cases v <;> rfl
  | false =>
    cases v with
    | scalar => exact nomatch named rfl
    | string => rcases starts with rfl | rfl <;> rfl
    | node => rcases starts with rfl | rfl <;> rfl

section Members

variable {lexicon : Lexicon} {proper : St → List UInt8 → Prop}
  (fits : ∀ q s, Placed lexicon q s → proper q s)
include fits

/-- Where an array goes on as an object would behind a comma, no array ends. -/
theorem not_loose_array {n : ℕ} {members : Members} {r r' : List UInt8}
    (wf : members.WellFormed lexicon true false) :
    ¬ Loose proper n .objectAfterComma (members.text ++ closingByte false :: r) r' := by
  have value : ∀ {head : Head} {v : Value} {s : List UInt8}, head.WellFormed lexicon false →
      v.WellFormed lexicon true → Ends s →
      Loose proper n .objectAfterComma (head.text ++ (v.text ++ s)) r' →
        Loose proper n .objectAfterMember s r' ∨ Loose proper n .objectAfterName s r' :=
    fun {head v s} wfHead wfValue ends h => by
      obtain ⟨pre, name⟩ := head
      obtain ⟨blank, unnamed⟩ := wfHead
      cases name with
      | some name => exact nomatch unnamed.1
      | none =>
        rw [Head.text, List.append_assoc, loose_blanks fits blank] at h
        cases v with
        | scalar type l => exact .inl ((loose_scalar wfValue ends).mp h).2
        | string body =>
          rw [Option.elim_none, List.nil_append, string_append, loose_string fits wfValue] at h
          obtain ⟨q', moves, rest⟩ := h
          obtain rfl := Option.some.inj moves
          exact .inr rest
        | node brace inside =>
          rw [Option.elim_none, List.nil_append, node_append,
            loose_opening (lex_openingByte brace _)] at h
          obtain ⟨_, _, _, _, moves, _⟩ := h
          exact nomatch moves
  induction members using Members.rec (motive_1 := fun _ => True) with
  | scalar | string | node => trivial
  | nil space =>
    intro h
    exact nomatch ((loose_end fits wf).mp h).1
  | last head v post _ =>
    intro h
    obtain ⟨wfHead, _, wfValue, blank⟩ := wf
    rw [last_append] at h
    rcases value wfHead wfValue (ends_closing blank false r) h with h | h
    · exact nomatch ((loose_end fits blank).mp h).1
    · exact nomatch ((loose_end fits blank).mp h).1
  | more head v post rest _ ih =>
    intro h
    obtain ⟨wfHead, _, wfValue, blank, wfRest⟩ := wf
    rw [more_append] at h
    rcases value wfHead wfValue (ends_comma blank _) h with h | h
    · exact ih wfRest ((loose_next fits true blank).mp h)
    · rw [loose_blanks fits blank, loose_comma fits] at h
      obtain ⟨_, moves, _⟩ := h
      exact nomatch moves

/-- The scalars of an object are in their place. -/
theorem value_placed {v : Value} (wf : v.WellFormed lexicon true) {brace : Bool}
    (named : v.isScalar = true → brace = true) {q : St} {s : List UInt8} (ends : Ends s) :
    v.isScalar = true → proper (valueState brace q) (v.text ++ s) := by
  intro scalar
  obtain rfl := named scalar
  cases v with
  | scalar type l => exact fits _ _ (placed_scalar wf ends)
  | _ => exact nomatch scalar

mutual

/-- A value is read where one is expected, and leads to the state behind it. -/
theorem loose_value : ∀ {v : Value}, v.WellFormed lexicon true →
    ∀ {n : ℕ} {q : St} {s r : List UInt8}, (v.isScalar = true → Ends s) →
      (Loose proper n q (v.text ++ s) r ↔ v.WellFormed lexicon false ∧ v.depth ≤ n ∧
        (v.isScalar = true → proper q (v.text ++ s)) ∧
        ∃ q', afterValue v q = some q' ∧ Loose proper n q' s r)
  | .scalar type l, wf, n, q, s, r, ends => by
    rw [Value.text, loose_scalar wf (ends rfl)]
    constructor
    · exact fun ⟨here, rest⟩ => ⟨wf, Nat.zero_le n, fun _ => here, _, rfl, rest⟩
    · rintro ⟨_, _, here, q', moves, rest⟩
      obtain rfl := Option.some.inj moves
      exact ⟨here rfl, rest⟩
  | .string body, wf, n, q, s, r, _ => by
    rw [string_append, loose_string fits wf]
    exact ⟨fun h => ⟨wf, Nat.zero_le n, fun h => (nomatch h), h⟩, fun h => h.2.2.2⟩
  | .node brace members, wf, n, q, s, r, _ => by
    rw [node_append, loose_opening (lex_openingByte brace _), Value.depth]
    constructor
    · rintro ⟨n', q', m, rfl, moves, inside, rest⟩
      obtain ⟨wf', depth, rfl⟩ := (loose_members wf (.inl rfl)).mp inside
      exact ⟨wf', Nat.succ_le_succ depth, fun h => (nomatch h), q', moves, rest⟩
    · rintro ⟨wf', depth, _, q', moves, rest⟩
      obtain ⟨n', rfl⟩ : ∃ n', n = n' + 1 := ⟨n - 1, by omega⟩
      exact ⟨n', q', s, rfl, moves,
        (loose_members wf (.inl rfl)).mpr ⟨wf', Nat.le_of_succ_le_succ depth, rfl⟩, rest⟩

/-- **The members of a container** are read up to its bracket, if no array holds a number or a
keyword. -/
theorem loose_members : ∀ {members : Members} {brace : Bool},
    members.WellFormed lexicon true brace → ∀ {n : ℕ} {q : St} {r r' : List UInt8},
      Starts brace q → (Loose proper n q (members.text ++ closingByte brace :: r) r' ↔
        members.WellFormed lexicon false brace ∧ members.depth ≤ n ∧ r' = r)
  | .nil space, brace, wf, n, q, r, r', starts => by
    have closes : closable brace q = true := by
      rcases starts with rfl | rfl <;> cases brace <;> rfl
    rw [Members.text, loose_end fits wf]
    exact ⟨fun h => ⟨wf, Nat.zero_le n, h.2⟩, fun h => ⟨closes, h.2.2⟩⟩
  | .last head value post, brace, wf, n, q, r, r', starts => by
    obtain ⟨wfHead, _, wfValue, blank⟩ := wf
    rw [last_append, loose_head fits wfHead starts,
      loose_value wfValue fun _ => ends_closing blank brace r]
    constructor
    · rintro ⟨wf', depth, _, q', after, rest⟩
      obtain ⟨closes, rfl⟩ := (loose_end fits blank).mp rest
      refine ⟨⟨wfHead, fun scalar => .inl ?_, wf', blank⟩, depth, rfl⟩
      cases brace with
      | true => rfl
      | false =>
        cases value with
        | scalar =>
          obtain rfl := Option.some.inj after
          exact nomatch closes
        | _ => exact nomatch scalar
    · rintro ⟨⟨_, named, wf', _⟩, depth, rfl⟩
      have named' : value.isScalar = true → brace = true :=
        fun h => (named h).resolve_right (by decide)
      exact ⟨wf', depth, value_placed fits wfValue named' (ends_closing blank brace r'), _,
        afterValue_member starts named', (loose_end fits blank).mpr ⟨by cases brace <;> rfl, rfl⟩⟩
  | .more head value post rest, brace, wf, n, q, r, r', starts => by
    obtain ⟨wfHead, _, wfValue, blank, wfRest⟩ := wf
    rw [more_append, loose_head fits wfHead starts, loose_value wfValue fun _ => ends_comma blank _,
      Members.depth, Nat.max_le]
    constructor
    · rintro ⟨wf', depth, _, q', after, next⟩
      have named : value.isScalar = true → brace = true := fun scalar => by
        cases brace with
        | true => rfl
        | false =>
          cases value with
          | scalar =>
            obtain rfl := Option.some.inj after
            exact absurd ((loose_next fits true blank).mp next) (not_loose_array fits wfRest)
          | _ => exact nomatch scalar
      rw [afterValue_member starts named] at after
      obtain rfl := Option.some.inj after
      obtain ⟨wfRest', depth', rfl⟩ :=
        (loose_members wfRest (.inr rfl)).mp ((loose_next fits brace blank).mp next)
      exact ⟨⟨wfHead, fun h => .inl (named h), wf', blank, wfRest'⟩, ⟨depth, depth'⟩, rfl⟩
    · rintro ⟨⟨_, named, wf', _, wfRest'⟩, ⟨depth, depth'⟩, rfl⟩
      have named' : value.isScalar = true → brace = true :=
        fun h => (named h).resolve_right (by decide)
      exact ⟨wf', depth, value_placed fits wfValue named' (ends_comma blank _), _,
        afterValue_member starts named', (loose_next fits brace blank).mpr
        ((loose_members wfRest (.inr rfl)).mpr ⟨wfRest', depth', rfl⟩)⟩

end

end Members

mutual

/-- Without numbers and keywords in arrays, a value is one of the grammar. -/
theorem Value.WellFormed.bare {lexicon : Lexicon} : ∀ {v : Value}, v.WellFormed lexicon false →
    v.WellFormed lexicon true
  | .scalar _ _, wf => wf
  | .string _, wf => wf
  | .node _ _, wf => Members.WellFormed.bare wf

/-- The same of members. -/
theorem Members.WellFormed.bare {lexicon : Lexicon} : ∀ {members : Members} {brace : Bool},
    members.WellFormed lexicon false brace → members.WellFormed lexicon true brace
  | .nil _, _, wf => wf
  | .last _ _ _, _, ⟨head, _, value, blank⟩ =>
    ⟨head, fun _ => .inr rfl, Value.WellFormed.bare value, blank⟩
  | .more _ _ _ _, _, ⟨head, _, value, blank, rest⟩ =>
    ⟨head, fun _ => .inr rfl, Value.WellFormed.bare value, blank, Members.WellFormed.bare rest⟩

end

end Teres.Tools.Json
