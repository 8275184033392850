import Teres.Laws.Tools.JsonParse
import Teres.Laws.Tools.JsonTrees

/-!
# The language of the JSON parser

`json__parse` returns an object exactly for the texts of the larger language (`accepts_iff`), in
which a number or a keyword is taken in every state, and what follows it is read as in an object.
Where each stands behind a colon, the text is one of the grammar, without numbers and keywords in
arrays (`placed_iff`). So the parser has the language of the grammar on just the texts that do not
begin with a number or a keyword, have none in an array, and have none read in another place
(`language_iff`).
-/

namespace Teres.Tools.Json

/-- A root of the type `json__object`. -/
def ReturnsObject (r : M (Tree × Option ℕ)) : Prop :=
  ∃ t k, r = .ok (t, some k) ∧ (t.stack k).type = .object

/-- The undefined object `stack[0]`, or no object. -/
def ReturnsNothing (r : M (Tree × Option ℕ)) : Prop :=
  ∃ t, (t.stack 0).type = .undefined ∧ (r = .ok (t, some 0) ∨ r = .ok (t, none))

/-- The language of the grammar, kept by a parse. -/
def ParsesLanguage (lexicon : Lexicon) (text : List UInt8) (memory : Tree) : Prop :=
  (ReturnsObject (parse text memory) ↔ Grammatical lexicon true text) ∧
    (¬ Grammatical lexicon true text → ReturnsNothing (parse text memory))

/-- A text has one white space in front. -/
theorem blank_unique {space space' s s' : List UInt8} {b b' : UInt8}
    (blank : Blank space) (blank' : Blank space') (solid : classify b ≠ .blank)
    (solid' : classify b' ≠ .blank) (eq : space ++ b :: s = space' ++ b' :: s') :
    space = space' ∧ b :: s = b' :: s' := by
  induction space generalizing space' with
  | nil =>
    cases space' with
    | nil => exact ⟨rfl, eq⟩
    | cons c space' =>
      obtain rfl := (List.cons.inj eq).1
      exact absurd (blank' b List.mem_cons_self) solid
  | cons c space ih =>
    cases space' with
    | nil =>
      obtain rfl := (List.cons.inj eq).1
      exact absurd (blank c List.mem_cons_self) solid'
    | cons c' space' =>
      obtain ⟨rfl, tails⟩ := List.cons.inj eq
      obtain ⟨rfl, rest⟩ := ih (fun d h => blank d (List.mem_cons_of_mem c h))
        (fun d h => blank' d (List.mem_cons_of_mem c h)) tails
      exact ⟨rfl, rest⟩

/-! ## Grammar and larger language -/

section Grammar

variable {lexicon : Lexicon} {text : List UInt8}

theorem grammatical_bare (h : Grammatical lexicon false text) : Grammatical lexicon true text := by
  obtain ⟨space, members, rest, eq, blank, wf, depth⟩ := h
  exact ⟨space, members, rest, eq, blank, wf.bare, depth⟩

/-- Documents without numbers and keywords in arrays are tolerated, with every token in place. -/
theorem grammatical_tolerated {proper : St → List UInt8 → Prop}
    (fits : ∀ q s, Placed lexicon q s → proper q s) (h : Grammatical lexicon false text) :
    Tolerated proper text := by
  obtain ⟨space, members, rest, rfl, blank, wf, depth⟩ := h
  rw [Value.depth] at depth
  refine ⟨space, members.text ++ closingByte true :: rest, rest, ?_, blank, ?_⟩
  · rw [node_append]
    rfl
  · exact (loose_members fits (Members.WellFormed.bare wf) (.inl rfl)).mpr
      ⟨wf, Nat.le_pred_of_lt depth, rfl⟩

/-- **With every token in its place**, a text of the larger language is one of the grammar. -/
theorem placed_iff : Tolerated (Placed lexicon) text ↔ Grammatical lexicon false text := by
  refine ⟨?_, grammatical_tolerated fun _ _ h => h⟩
  rintro ⟨space, s, r, rfl, blank, loose⟩
  obtain ⟨members, wf, depth, rfl⟩ := remains loose
  refine ⟨space, members, r, ?_, blank, wf, Nat.succ_le_succ depth⟩
  rw [node_append]
  rfl

/-- A document that is tolerated has no numbers and keywords in arrays. -/
theorem tolerated_wellFormed {space rest : List UInt8} {members : Members} (blank : Blank space)
    (wf : (Value.node true members).WellFormed lexicon true)
    (h : Tolerated Anywhere (space ++ ((Value.node true members).text ++ rest))) :
    (Value.node true members).WellFormed lexicon false := by
  obtain ⟨space', s, r, eq, blank', loose⟩ := h
  rw [node_append] at eq
  obtain ⟨rfl, same⟩ := blank_unique blank' blank (by decide) (by decide) eq.symm
  obtain ⟨_, rfl⟩ := List.cons.inj same
  exact ((loose_members (fun _ _ _ => trivial) wf (.inl rfl)).mp loose).1

theorem tolerated_grammatical (h : Tolerated Anywhere text) (doc : Grammatical lexicon true text) :
    Grammatical lexicon false text := by
  obtain ⟨space, members, rest, rfl, blank, wf, depth⟩ := doc
  exact ⟨space, members, rest, rfl, blank, tolerated_wellFormed blank wf h, depth⟩

end Grammar

/-! ## What is accepted -/

section Accepted

variable (text : List UInt8) (memory : Tree)

/-- A text that begins with a number or a keyword has it returned. -/
theorem scalar_returned (h : StartsScalar text) :
    ¬ ReturnsObject (parse text memory) ∧ ¬ ReturnsNothing (parse text memory) := by
  obtain ⟨space, s, type, s', rfl, blank, token⟩ := h
  obtain ⟨t, eq, returned⟩ := parse_scalar blank token memory
  rw [eq]
  constructor
  · rintro ⟨t', k, same, object⟩
    obtain ⟨rfl, slot⟩ := Prod.mk.inj (Except.ok.inj same)
    obtain rfl := Option.some.inj slot
    rw [returned] at object
    rcases lex_type token with h | h | h | h <;> exact nomatch h.symm.trans object
  · rintro ⟨t', _, same | same⟩
    · exact nomatch Option.some.inj (Prod.mk.inj (Except.ok.inj same)).2
    · exact nomatch (Prod.mk.inj (Except.ok.inj same)).2

/-- **What is accepted** is the larger language. -/
theorem accepts_iff : ReturnsObject (parse text memory) ↔ Tolerated Anywhere text := by
  constructor
  · intro object
    by_contra other
    by_cases scalar : StartsScalar text
    · exact (scalar_returned text memory scalar).1 object
    · obtain ⟨t, undefined, eq | eq⟩ := parse_rejects other scalar memory
      · obtain ⟨t', k, same, object⟩ := object
        obtain ⟨rfl, slot⟩ := Prod.mk.inj (Except.ok.inj (eq.symm.trans same))
        obtain rfl := Option.some.inj slot
        exact nomatch undefined.symm.trans object
      · obtain ⟨t', k, same, _⟩ := object
        exact nomatch (Prod.mk.inj (Except.ok.inj (eq.symm.trans same))).2
  · rintro ⟨space, s, r, rfl, blank, loose⟩
    obtain ⟨t, eq, _, _, _, core, _⟩ := parse_object blank loose memory
    exact ⟨t, 1, eq, type_of_core core⟩

/-- **The language of the grammar** is kept on a text that does not begin with a number or a
keyword, has none in an array if it is an object of the grammar, and has every token in its place if
it is one of the larger language. -/
theorem language_iff (lexicon : Lexicon) :
    ParsesLanguage lexicon text memory ↔ ¬ StartsScalar text ∧
      (Grammatical lexicon true text → Grammatical lexicon false text) ∧
      (Tolerated Anywhere text → Tolerated (Placed lexicon) text) := by
  unfold ParsesLanguage
  rw [accepts_iff, placed_iff]
  constructor
  · rintro ⟨same, others⟩
    refine ⟨fun scalar => ?_, fun doc => ?_, fun loose => ?_⟩
    · have returned := scalar_returned text memory scalar
      have doc : ¬ Grammatical lexicon true text := fun doc =>
        returned.1 ((accepts_iff text memory).mpr (same.mpr doc))
      exact returned.2 (others doc)
    · exact tolerated_grammatical (same.mpr doc) doc
    · exact tolerated_grammatical loose (same.mp loose)
  · rintro ⟨scalar, named, placed⟩
    have same : Tolerated Anywhere text ↔ Grammatical lexicon true text :=
      ⟨fun loose => grammatical_bare (placed loose),
        fun doc => grammatical_tolerated (fun _ _ _ => trivial) (named doc)⟩
    exact ⟨same, fun doc => parse_rejects (fun h => doc (same.mp h)) scalar memory⟩

end Accepted

/-- Memory that is all zero. -/
def zeroed : Tree where
  buf := []
  len := 0
  stack _ := ⟨0, .init, 0, 0, .undefined, .undefined, 0, 0, 0, 0, 0⟩
  printed := []

/-- `{"a":[1]}` is an object of the grammar, and an error to the parser. -/
theorem array_of_numbers : ¬ ParsesLanguage Lexicon.full
    [0x7B, 0x22, 0x61, 0x22, 0x3A, 0x5B, 0x31, 0x5D, 0x7D] zeroed := by
  intro kept
  have doc : Grammatical Lexicon.full true
      [0x7B, 0x22, 0x61, 0x22, 0x3A, 0x5B, 0x31, 0x5D, 0x7D] := by
    refine ⟨[], .last ⟨[], some ⟨[0x61], [], []⟩⟩
      (.node false (.last ⟨[], none⟩ (.scalar .number [0x31]) [])) [], [], rfl, by decide, ?_,
      by decide⟩
    have one : Numeral [0x31] := ⟨by decide, by decide, 0x31, [], rfl, by decide⟩
    have name : Quoted [0x61] := by unfold Quoted; decide
    have empty : Blank [] := by decide
    exact ⟨⟨empty, rfl, name, empty, empty⟩, fun h => (nomatch h),
      ⟨⟨empty, rfl⟩, fun _ => .inr rfl, .inl ⟨rfl, one⟩, empty⟩, empty⟩
  obtain ⟨t, k, eq, object⟩ := kept.1.mpr doc
  have undefined : (parse [0x7B, 0x22, 0x61, 0x22, 0x3A, 0x5B, 0x31, 0x5D, 0x7D] zeroed).map
      (fun r => r.2.map fun k => (r.1.stack k).type) = .ok (some .undefined) := by decide +kernel
  rw [eq] at undefined
  exact nomatch object.symm.trans (Option.some.inj (Except.ok.inj undefined))

end Teres.Tools.Json
