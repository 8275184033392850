import Teres.Laws.Tools.JsonRejects

/-!
# What `json__parse` returns

The three ends of a parse, by what the text begins with behind its white space: an object of the
larger language is returned as slot 1 (`parse_object`), so is a number or a keyword
(`parse_scalar`), and everything else is rejected (`parse_rejects`).
-/

namespace Teres.Tools.Json

/-- The loop as `json__parse` enters it, at the byte `i` behind white space. -/
structure Start (text : List UInt8) (c : Loop) (s : List UInt8) : Prop where
  at_ : At c 0 .init s
  buf : c.tree.buf = text ++ [0]
  len : c.tree.len = text.length
  valueEnd : (c.tree.stack 0).valueEnd = text.length
  type : (c.tree.stack 0).type = .undefined
  childType : (c.tree.stack 0).childType = .undefined
  count : (c.tree.stack 0).count = 0

/-- Up to the first byte that is not white space, there is nothing to return. -/
theorem parse_start {space s : List UInt8} (blank : Blank space) (memory : Tree) :
    ∃ c, Start (space ++ s) c s ∧ c.i = space.length ∧
      ∀ r, Runs 0 (space ++ s).length c r → parse (space ++ s) memory = r := by
  obtain ⟨t, eq, buf, len, slot⟩ : ∃ t, parse (space ++ s) memory = get t 0 none ∧
      t.buf = space ++ s ++ [0] ∧ t.len = (space ++ s).length ∧
      ∃ o : Obj, t.stack 0 = { o with
        valueEnd := (space ++ s).length
        valueStart := 0
        depth := 0
        type := .undefined
        state := .init
        nameStart := 0
        nameEnd := 0
        childType := .undefined
        count := 0 } := ⟨_, rfl, rfl, rfl, memory.stack 0, set_stack _ 0 _⟩
  obtain ⟨o, slot⟩ := slot
  have root : (t.set 0 { t.stack 0 with count := 0 }).stack 0 = t.stack 0 := by
    rw [set_stack, slot]
  have start : Start (space ++ s)
      ⟨t.set 0 { t.stack 0 with count := 0 }, 0, 0 + space.length, s ++ [0], 0, 0⟩ s := by
    refine ⟨⟨rfl, rfl, ?_, ?_, ?_, fun k hk => ?_⟩, buf, len, ?_, ?_, ?_, ?_⟩
    · change 0 + space.length + s.length = t.len
      rw [len, List.length_append, Nat.zero_add]
    · exact (congrArg Obj.state root).trans (congrArg Obj.state slot)
    · refine .of_undefined ((congrArg Obj.childType root).trans (congrArg Obj.childType slot)) ?_
      rintro (h | h | h) <;> exact nomatch h
    · obtain rfl := Nat.le_zero.mp hk
      exact (congrArg Obj.depth root).trans (congrArg Obj.depth slot)
    · exact (congrArg Obj.valueEnd root).trans (congrArg Obj.valueEnd slot)
    · exact (congrArg Obj.type root).trans (congrArg Obj.type slot)
    · exact (congrArg Obj.childType root).trans (congrArg Obj.childType slot)
    · exact (congrArg Obj.count root).trans (congrArg Obj.count slot)
  refine ⟨_, start, Nat.zero_add _, fun r h => ?_⟩
  have valueEnd : (t.stack 0).valueEnd = (space ++ s).length := congrArg Obj.valueEnd slot
  have begins_ : begins t 0 none = 0 := congrArg Obj.valueStart slot
  have depth : (t.stack 0).depth = 0 := congrArg Obj.depth slot
  rw [eq]
  refine get_runs depth (by decide) ?_
  unfold entry
  rw [begins_, valueEnd]
  refine Runs.blanks blank ?_ ?_ ?_ h
  · change t.buf.drop 0 = space ++ (s ++ [0])
    rw [buf, List.drop_zero, List.append_assoc]
  · change 0 + space.length ≤ _
    rw [List.length_append]
    omega
  · have going := check_own start.at_ start.count (by decide)
    exact going

/-- **An object of the larger language** is returned, with its value from behind its opening
bracket to in front of its closing one. -/
theorem parse_object {proper : St → List UInt8 → Prop} {space s r : List UInt8}
    (blank : Blank space) (loose : Loose proper (maxDepth - 1) .objectBody s r) (memory : Tree) :
    ∃ t, parse (space ++ 0x7B :: s) memory = .ok (t, some 1) ∧
      t.buf = space ++ 0x7B :: s ++ [0] ∧ t.len = (space ++ 0x7B :: s).length ∧
      (t.stack 0).depth = 0 ∧
      (t.stack 1).core = (1, .object, 0, 0, space.length + 1, t.len - r.length - 2) ∧
      (t.stack 1).childType = .undefined := by
  obtain ⟨c, start, i, parsed⟩ := parse_start (s := 0x7B :: s) blank memory
  have place := start.at_.i
  have len := start.len
  rw [List.length_cons] at place
  have short := loose_length loose
  obtain ⟨c₁, name, eq, opened, _, named⟩ :=
    opening_ok start.at_ rfl true (by decide : 0 < maxDepth) rfl
  obtain rfl := named start.childType
  have step : branch 0 0 (space ++ 0x7B :: s).length c = .ok (.go c₁) := by
    rw [branch_cons start.at_.p]
    exact eq
  have len₁ := opened.kept.len
  have place₁ := opened.at_.i
  obtain ⟨c₂, _, closed, _, runs⟩ := reads_loose (Nat.zero_le 0) loose opened.at_ (by decide)
    (opened.kept.valueEnd.trans start.valueEnd) (by omega) (by omega)
    (inner_bodyState true)
  have at₂ : At c₂ 0 .objectAfterMember r :=
    closed.at_ opened.state opened.calm (opened.kept.depths start.at_.depths)
  have count : (c₂.tree.stack 0).count = 1 := by
    rw [closed.below 0 (Nat.le_refl 0), opened.count, start.count]
  refine ⟨c₂.tree, parsed _ (runs_before (by omega) step (by omega) opened.at_
    (inner_bodyState true) _ (runs _ ?_)), ?_, ?_, at₂.depth, ?_, ?_⟩
  · unfold Checks
    rw [check_found at₂ count]
  · rw [closed.buf, opened.kept.buf, start.buf]
  · rw [closed.len, len₁, start.len]
  · have end_ := closed.i
    have valueEnd : c₂.i - 2 = c₂.tree.len - r.length - 2 := by
      rw [closed.len, ← end_, Nat.add_sub_cancel]
    rw [closed.node opened, i, valueEnd]
    rfl
  · obtain ⟨_, _, calm⟩ := closed.calm
    exact calm.object (type_of_core (closed.node opened))

/-- A number or a keyword is returned. -/
theorem parse_scalar {space s s' : List UInt8} (blank : Blank space) {type : Ty}
    (token : lex s = some (.scalar type, s')) (memory : Tree) :
    ∃ t, parse (space ++ s) memory = .ok (t, some 1) ∧ (t.stack 1).type = type := by
  obtain ⟨c, start, _, parsed⟩ := parse_start (s := s) blank memory
  have place := start.at_.i
  have len := start.len
  have shorter := lex_length token
  have fits : c.Fits 0 .init := start.childType
  obtain ⟨c', branched, at', added⟩ :=
    scalar_ok start.at_ (Nat.zero_le _) fits token 0 0 (space ++ s).length
  have place' := at'.i
  have len' := added.kept.len
  have count : (c'.tree.stack 0).count = 1 := by rw [added.count, start.count]
  refine ⟨c'.tree, parsed _ (Runs.step (by omega) branched (by omega) ?_),
    type_of_core added.member⟩
  unfold Checks
  rw [check_found at' count]

/-- The white space in front of a text. -/
theorem blank_split (text : List UInt8) : ∃ space s, text = space ++ s ∧ Blank space ∧
    ∀ s', lex s ≠ some (.blank, s') := by
  induction text with
  | nil => exact ⟨[], [], rfl, fun _ h => (nomatch h), fun _ h => nomatch h⟩
  | cons b text ih =>
    by_cases class_ : classify b = .blank
    · obtain ⟨space, s, rfl, blank, solid⟩ := ih
      exact ⟨b :: space, s, rfl, List.forall_mem_cons.mpr ⟨class_, blank⟩, solid⟩
    · refine ⟨[], b :: text, rfl, fun _ h => (nomatch h), fun s' token => ?_⟩
      obtain ⟨b', eq, class'⟩ := lex_byte token rfl
      rw [(List.cons.inj eq).1] at class_
      exact class_ class'

/-- **Every other text is rejected**: slot 0 is returned, or nothing. -/
theorem parse_rejects {text : List UInt8} (object : ¬ Tolerated Anywhere text)
    (scalar : ¬ StartsScalar text) (memory : Tree) : ∃ t, (t.stack 0).type = .undefined ∧
      (parse text memory = .ok (t, some 0) ∨ parse text memory = .ok (t, none)) := by
  obtain ⟨space, s, rfl, blank, solid⟩ := blank_split text
  obtain ⟨c, start, _, parsed⟩ := parse_start (s := s) blank memory
  have place := start.at_.i
  have len := start.len
  suffices rejects : Rejects (space ++ s).length c by
    obtain ⟨t, kept, returned⟩ := rejects
    refine ⟨t, kept.type.trans start.type, ?_⟩
    exact returned.imp (parsed _) (parsed _)
  obtain ⟨k, s₁, q₁, token, moves⟩ | ⟨brace, s₁, token, closes⟩ |
    ⟨brace, s₁, q₁, token, room, opens_⟩ | stuck := token_or_stuck 0 .init s
  · cases k with
    | scalar type => exact absurd ⟨space, s, type, s₁, rfl, blank, token⟩ scalar
    | blank => exact absurd token (solid s₁)
    | _ => exact nomatch moves
  · cases brace <;> exact nomatch closes
  · cases brace with
    | false => exact nomatch opens_
    | true =>
      obtain ⟨b, rfl, class_⟩ := lex_byte token rfl
      obtain rfl : b = 0x7B := eq_opening class_
      obtain ⟨c₁, _, eq, opened, _⟩ := opening_ok start.at_ rfl true room opens_
      rw [List.length_cons] at place
      have step : branch 0 0 (space ++ 0x7B :: s₁).length c = .ok (.go c₁) := by
        rw [branch_cons start.at_.p]
        exact eq
      have place₁ := opened.at_.i
      have len₁ := opened.kept.len
      have valueEnd := opened.kept.valueEnd.trans start.valueEnd
      rcases loose_or_rejects opened.at_ (by decide : 0 + 1 + 19 = maxDepth) valueEnd (by omega)
        (by omega) (inner_bodyState true) with rejects | ⟨r, loose⟩
      · exact rejects.before opened.kept
          (runs_before (by omega) step (by omega) opened.at_ (inner_bodyState true))
      · exact absurd ⟨space, s₁, r, rfl, blank, loose⟩ object
  · by_cases more : s = []
    · have notFound : found 0 c = none := by
        rw [found_eq, start.at_.ret, start.count]
        exact if_neg fun h => nomatch h.2
      rw [more, List.length_nil] at place
      refine ⟨c.tree, Kept.refl 0 c.tree, .inr ?_⟩
      rw [← notFound]
      exact Runs.done (by omega)
    · have some := List.length_pos_iff.mpr more
      obtain ⟨t, eq, kept⟩ | ⟨_, _, _, moves, _⟩ :=
        branch_stuck start.at_ stuck (Nat.zero_le _) 0 start.valueEnd len.symm more
      · exact ⟨t, kept, .inl (Runs.error (by omega) eq)⟩
      · exact nomatch moves

end Teres.Tools.Json
