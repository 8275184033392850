import Teres.Laws.Tools.JsonLoose
import Teres.Laws.Tools.JsonRuns

/-!
# One member of a container

`json__get` inside slot `e`: from where the last member ended, through white space, a comma and a
name to the next value, which is then in slot `e + 1` (`value_found`). The value that stands
directly in front of the closing bracket is not found if it is a container or takes one byte, as the
range that `json__pop` has stored ends one byte early (`value_lost`).
-/

namespace Teres.Tools.Json

variable {stop : ℕ}

/-! ## What the scan for a member leaves -/

/-- A slot in which nothing has been added. -/
structure Idle (e : ℕ) (t t' : Tree) : Prop where
  kept : Kept e t t'
  count : (t'.stack e).count = (t.stack e).count
  childType : (t'.stack e).childType = (t.stack e).childType
  childName : ((t'.stack e).childNameS, (t'.stack e).childNameE) =
    ((t.stack e).childNameS, (t.stack e).childNameE)

theorem Idle.refl (e : ℕ) (t : Tree) : Idle e t t := ⟨Kept.refl e t, rfl, rfl, rfl⟩

theorem Idle.trans {e : ℕ} {t t' t'' : Tree} (h : Idle e t t') (h' : Idle e t' t'') :
    Idle e t t'' where
  kept := h.kept.trans h'.kept
  count := h'.count.trans h.count
  childType := h'.childType.trans h.childType
  childName := h'.childName.trans h.childName

theorem idle_setState (e : ℕ) (t : Tree) (q : St) : Idle e t (t.setState e q) := by
  refine ⟨kept_setState e t q, ?_, ?_, ?_⟩ <;> rw [Tree.setState, set_stack]

/-- The loop at slot `e` where a member of it is looked for, `k` bytes behind `c`. -/
structure Scans (c c' : Loop) (e k stop : ℕ) (q : St) (s : List UInt8) : Prop where
  at_ : At c' e q s
  i : c'.i = c.i + k
  idle : Idle e c.tree c'.tree
  runs : ∀ r, Runs e stop c' r → Runs e stop c r

theorem Scans.trans {c c' c'' : Loop} {e k k' : ℕ} {q q' : St} {s s' : List UInt8}
    (h : Scans c c' e k stop q s) (h' : Scans c' c'' e k' stop q' s') :
    Scans c c'' e (k + k') stop q' s' where
  at_ := h'.at_
  i := by rw [h'.i, h.i, Nat.add_assoc]
  idle := h.idle.trans h'.idle
  runs r hr := h.runs r (h'.runs r hr)

/-! ## Up to the value -/

section Scan

variable {c : Loop} {e : ℕ} {q : St} {s : List UInt8} (count : (c.tree.stack e).count = 0)
include count

/-- White space. -/
theorem scans_blanks {space : List UInt8} (at_ : At c e q (space ++ s)) (blank : Blank space)
    (inside : c.i + space.length ≤ stop) (going : q ≠ .stateEnd) :
    ∃ c', Scans c c' e space.length stop q s ∧ c'.nameStart = c.nameStart ∧
      c'.nameEnd = c.nameEnd := by
  have place := at_.i
  rw [List.length_append] at place
  have p : c.p = space ++ (s ++ [0]) := by rw [at_.p, List.append_assoc]
  refine ⟨{ c with i := c.i + space.length, p := s ++ [0] },
    ⟨⟨at_.ret, rfl, by change c.i + space.length + s.length = c.tree.len; omega, at_.state,
      at_.calm, at_.depths⟩, rfl, Idle.refl e c.tree, fun r h => ?_⟩, rfl, rfl⟩
  exact h.blanks blank p inside (check_own at_ count going)

/-- One round that adds nothing. -/
theorem scans_round {c' : Loop} {k : ℕ} {q' : St} {s' : List UInt8} (at_ : At c' e q' s')
    (i : c'.i = c.i + k) (pos : 0 < k) (idle : Idle e c.tree c'.tree) (below : c.i < stop)
    (eq : branch e e stop c = .ok (.go c')) (going : q' ≠ .stateEnd) :
    Scans c c' e k stop q' s' := by
  refine ⟨at_, i, idle, fun r h => Runs.step below eq (by omega) ?_⟩
  unfold Checks
  rw [check_own at_ (idle.count.trans count) going]
  exact h

/-- A comma. -/
theorem scans_comma {brace : Bool} (at_ : At c e (memberState brace) (0x2C :: s))
    (below : c.i < stop) : ∃ c', Scans c c' e 1 stop (commaState brace) s := by
  have class_ : classify 0x2C = .comma := by decide
  have step : branch e e stop c =
      .ok (.go (c.on (s ++ [0]) (c.tree.setState e (commaState brace)))) := by
    rw [branch_cons at_.p, class_]
    simp only [switch, comma, at_.loop_state, at_.ret]
    cases brace <;> rfl
  have idle := idle_setState e c.tree (commaState brace)
  have at' : At (c.on (s ++ [0]) (c.tree.setState e (commaState brace))) e (commaState brace) s :=
    at_.next at_.ret rfl (by rw [List.length_cons]; exact Nat.add_right_comm c.i 1 s.length)
      idle.kept (setState_state c.tree e _) (at_.calm.setState fun h => by
        cases brace with
        | true => exact absurd h (not_inArray (.inr (.inr (.inr (.inl rfl)))))
        | false => exact .inr (.inr rfl))
  refine ⟨_, scans_round count at' rfl Nat.one_pos idle below step ?_⟩
  cases brace <;> decide

/-- A string that is a name. -/
theorem scans_quotes {body : List UInt8} (at_ : At c e q (quote :: (body ++ quote :: s)))
    (starts : Starts true q) (quotes : Quoted body) (vend : (c.tree.stack e).valueEnd = stop)
    (inside : c.i + body.length + 2 ≤ stop) :
    ∃ c', Scans c c' e (body.length + 2) stop .objectAfterName s ∧ c'.nameStart = c.i + 1 ∧
      c'.nameEnd = c.i + 1 + body.length := by
  have place := at_.i
  rw [List.length_cons, List.length_append, List.length_cons] at place
  have prepared : c.prepared .string = c.tree := by
    refine if_neg ?_
    rw [at_.loop_state]
    rcases starts with rfl | rfl <;> decide
  have step : branch e e stop c = .ok (.go ⟨c.tree.setState e .objectAfterName, e,
      c.i + 1 + body.length + 1, s ++ [0], c.i + 1, c.i + 1 + body.length⟩) := by
    rw [branch_string at_.p at_.i vend quotes rfl (by omega) e, prepared]
    unfold stringRead
    rw [at_.loop_state, at_.ret]
    rcases starts with rfl | rfl <;> rfl
  have idle := idle_setState e c.tree .objectAfterName
  have outside : ¬ St.InArray .objectAfterName := not_inArray (.inr (.inr (.inl rfl)))
  refine ⟨_, scans_round count ⟨rfl, rfl, ?_, setState_state c.tree e _,
    at_.calm.setState fun h => absurd h outside, idle.kept.depths at_.depths⟩ ?_ (Nat.succ_pos _)
    idle (by omega) step (by decide), rfl, rfl⟩
  · change c.i + 1 + body.length + 1 + s.length = c.tree.len
    omega
  · change c.i + 1 + body.length + 1 = c.i + (body.length + 2)
    omega

/-- A colon. -/
theorem scans_colon (at_ : At c e .objectAfterName (0x3A :: s)) (below : c.i < stop) :
    ∃ c', Scans c c' e 1 stop .objectAfterColon s ∧ c'.nameStart = c.nameStart ∧
      c'.nameEnd = c.nameEnd := by
  have class_ : classify 0x3A = .colon := by decide
  have step : branch e e stop c =
      .ok (.go (c.on (s ++ [0]) (c.tree.setState e .objectAfterColon))) := by
    rw [branch_cons at_.p, class_]
    simp only [switch, colon, at_.loop_state, at_.ret]
    rfl
  have idle := idle_setState e c.tree .objectAfterColon
  have at' : At (c.on (s ++ [0]) (c.tree.setState e .objectAfterColon)) e .objectAfterColon s :=
    at_.next at_.ret rfl (by rw [List.length_cons]; exact Nat.add_right_comm c.i 1 s.length)
      idle.kept (setState_state c.tree e _)
      (at_.calm.setState fun h => absurd h (not_inArray (.inl rfl)))
  exact ⟨_, scans_round count at' rfl Nat.one_pos idle below step (by decide), rfl, rfl⟩

/-- A name and its colon. -/
theorem scans_name {name : Name} (at_ : At c e q (name.text ++ s)) (starts : Starts true q)
    (quotes : Quoted name.body) (before : Blank name.before) (after : Blank name.after)
    (vend : (c.tree.stack e).valueEnd = stop) (inside : c.i + name.text.length ≤ stop) :
    ∃ c', Scans c c' e name.text.length stop .objectAfterColon s ∧ c'.nameStart = c.i + 1 ∧
      c'.nameEnd = c.i + 1 + name.body.length := by
  have text : name.text ++ s =
      quote :: (name.body ++ quote :: (name.before ++ 0x3A :: (name.after ++ s))) := by
    simp only [Name.text, List.cons_append, List.append_assoc]
  have length : name.text.length =
      name.body.length + 2 + name.before.length + 1 + name.after.length := by
    simp only [Name.text, List.length_cons, List.length_append]
    omega
  rw [text] at at_
  rw [length] at inside ⊢
  obtain ⟨c₁, scans₁, start₁, end₁⟩ :=
    scans_quotes count at_ starts quotes vend (by omega)
  have i₁ := scans₁.i
  obtain ⟨c₂, scans₂, start₂, end₂⟩ : ∃ c₂, Scans c₁ c₂ e name.before.length stop .objectAfterName
      (0x3A :: (name.after ++ s)) ∧ c₂.nameStart = c₁.nameStart ∧ c₂.nameEnd = c₁.nameEnd :=
    scans_blanks (scans₁.idle.count.trans count) scans₁.at_ before (by omega) (by decide)
  have i₂ := scans₂.i
  have idle₂ := scans₁.idle.trans scans₂.idle
  obtain ⟨c₃, scans₃, start₃, end₃⟩ : ∃ c₃, Scans c₂ c₃ e 1 stop .objectAfterColon
      (name.after ++ s) ∧ c₃.nameStart = c₂.nameStart ∧ c₃.nameEnd = c₂.nameEnd :=
    scans_colon (idle₂.count.trans count) scans₂.at_ (by omega)
  have i₃ := scans₃.i
  have idle₃ := idle₂.trans scans₃.idle
  obtain ⟨c₄, scans₄, start₄, end₄⟩ : ∃ c₄, Scans c₃ c₄ e name.after.length stop .objectAfterColon
      s ∧ c₄.nameStart = c₃.nameStart ∧ c₄.nameEnd = c₃.nameEnd :=
    scans_blanks (idle₃.count.trans count) scans₃.at_ after (by omega) (by decide)
  exact ⟨c₄, ((scans₁.trans scans₂).trans scans₃).trans scans₄,
    start₄.trans (start₃.trans (start₂.trans start₁)),
    end₄.trans (end₃.trans (end₂.trans end₁))⟩

end Scan

/-- In an array, there is no name. -/
theorem head_unnamed {lexicon : Lexicon} {head : Head} (wf : head.WellFormed lexicon false)
    (i : ℕ) :
    head.slice i = (0, 0) := by
  obtain ⟨pre, name⟩ := head
  cases name with
  | none => rfl
  | some name => exact nomatch wf.2.1

/-- A container at slot `e`, where a member of it is looked for. -/
structure Ready (t : Tree) (e : ℕ) (brace : Bool) (stop : ℕ) : Prop where
  valueEnd : (t.stack e).valueEnd = stop
  type : (t.stack e).type = nodeType brace
  childType : (t.stack e).childType = .undefined
  childName : brace = false → ((t.stack e).childNameS, (t.stack e).childNameE) = (0, 0)

/-- The loop in front of a value, which has its name. -/
structure Ahead (c c' : Loop) (e : ℕ) (brace : Bool) (q : St) (head : Head) (stop : ℕ)
    (s : List UInt8) : Prop where
  scans : Scans c c' e head.text.length stop (valueState brace q) s
  count : (c'.tree.stack e).count = 0
  valueEnd : (c'.tree.stack e).valueEnd = stop
  fits : c'.Fits e (valueState brace q)
  name : c'.name e (valueState brace q) = head.slice c.i
  unnamed : brace = false → c'.name e (valueState brace q) = (0, 0)

/-- **What stands before a value** in a container. -/
theorem scans_head {lexicon : Lexicon} {c : Loop} {e : ℕ} {brace : Bool} {q : St} {head : Head}
    {s : List UInt8} (at_ : At c e q (head.text ++ s)) (wf : head.WellFormed lexicon brace)
    (starts : Starts brace q) (count : (c.tree.stack e).count = 0)
    (ready : Ready c.tree e brace stop) (inside : c.i + head.text.length ≤ stop) :
    ∃ c', Ahead c c' e brace q head stop s := by
  obtain ⟨pre, name⟩ := head
  obtain ⟨(blank : Blank pre), named⟩ := wf
  have going : q ≠ .stateEnd := by rcases starts with rfl | rfl <;> cases brace <;> decide
  simp only [Head.text, List.append_assoc] at at_
  simp only [Head.text, List.length_append] at inside
  have room : c.i + pre.length ≤ stop := by omega
  obtain ⟨c₁, scans₁, _, _⟩ := scans_blanks count at_ blank room going
  have i₁ := scans₁.i
  have idle := scans₁.idle
  have count₁ := idle.count.trans count
  have vend₁ := idle.kept.valueEnd.trans ready.valueEnd
  cases name with
  | none =>
    obtain rfl : brace = false := named
    have array : q ≠ .objectAfterColon := by rcases starts with rfl | rfl <;> decide
    have unnamed : c₁.name e q = (0, 0) := by
      unfold Loop.name
      rw [if_neg array, idle.childName]
      exact ready.childName rfl
    have fits : c₁.Fits e q := by
      unfold Loop.Fits
      rw [if_neg array, idle.childType]
      exact ready.childType
    have text : Head.text ⟨pre, none⟩ = pre := List.append_nil pre
    refine ⟨c₁, ?_, count₁, vend₁, fits, unnamed, fun _ => unnamed⟩
    rw [text]
    exact scans₁
  | some name =>
    obtain ⟨rfl, quotes, before, after⟩ := named
    simp only [Option.elim_some] at inside scans₁
    obtain ⟨c₂, scans₂, start, end_⟩ :=
      scans_name count₁ scans₁.at_ starts (lexicon.quoted _ quotes) before after vend₁ (by omega)
    have idle₂ := idle.trans scans₂.idle
    have text : (Head.text ⟨pre, some name⟩).length = pre.length + name.text.length :=
      List.length_append
    refine ⟨c₂, ?_, idle₂.count.trans count,
      idle₂.kept.valueEnd.trans ready.valueEnd, ?_, ?_,
      fun h => by cases h⟩
    · rw [text]
      exact scans₁.trans scans₂
    · exact idle₂.kept.type.trans ready.type
    · change (c₂.nameStart, c₂.nameEnd) = _
      rw [start, end_, i₁]
      rfl

/-! ## The value -/

/-- What is fixed of the slot of a value at offset `i`. -/
def Value.core (name : ℕ × ℕ) (e i : ℕ) : Value → ℕ × Ty × ℕ × ℕ × ℕ × ℕ
  | .scalar type lexeme => (e, type, name.1, name.2, i, i + lexeme.length)
  | .string body => (e, .string, name.1, name.2, i + 1, i + 1 + body.length)
  | .node brace members => (e, nodeType brace, name.1, name.2, i + 1, i + members.text.length)

/-- A container of which nothing is in preparation. -/
structure Settled (o : Obj) (brace : Bool) : Prop where
  childType : o.childType = .undefined
  childName : brace = false → (o.childNameS, o.childNameE) = (0, 0)

/-- The bracket that closes a container is of its kind. -/
theorem Closed.settled {c c₁ c' : Loop} {e : ℕ} {q : St} {brace last : Bool} {name : ℕ × ℕ}
    {m s : List UInt8} (opened : Opened c c₁ e q brace name (m ++ closingByte brace :: s))
    (closed : Closed c₁ c' e last s)
    (ends : closingByte last :: s <:+ m ++ closingByte brace :: s) :
    Settled (c'.tree.stack (e + 1)) brace := by
  have same : closingByte last :: s = closingByte brace :: s :=
    (List.suffix_of_suffix_length_le ends (List.suffix_append m _) (Nat.le_refl _)).eq_of_length rfl
  have kind : last = brace := by
    have bytes := (List.cons.inj same).1
    cases last <;> cases brace <;> first | rfl | exact absurd bytes (by decide)
  obtain ⟨q', closes, calm⟩ := closed.calm
  subst kind
  have type := type_of_core (closed.node opened)
  cases last with
  | true => exact ⟨calm.object type, fun h => by cases h⟩
  | false =>
    have array : q'.InArray := by
      cases q' with
      | arrayBody => exact .inl rfl
      | arrayAfterComma => exact .inr (.inl rfl)
      | arrayAfterMember => exact .inr (.inr rfl)
      | _ => cases closes
    exact ⟨(calm.array array).1, fun _ => (calm.array array).2⟩

/-- The value `v` at offset `i` is found in slot `e + 1`, and slot `e` is behind it. -/
structure Found (t t' : Tree) (e : ℕ) (brace : Bool) (v : Value) (name : ℕ × ℕ) (i : ℕ) : Prop where
  kept : Kept e t t'
  state : (t'.stack e).state = memberState brace
  childType : (t'.stack e).childType = .undefined
  childName : ((t'.stack e).childNameS, (t'.stack e).childNameE) = name
  member : (t'.stack (e + 1)).core = v.core name (e + 1) i
  settled : ∀ inner members, v = .node inner members → Settled (t'.stack (e + 1)) inner

/-- A number or a keyword has at least one byte. -/
theorem scalar_pos {lexicon : Lexicon} {type : Ty} {l : List UInt8} (h : lexicon.Scalar type l) :
    0 < l.length := by
  rcases h with ⟨_, number⟩ | ⟨c, tail, rfl, _⟩
  · obtain ⟨_, _, c, s, rfl, _⟩ := lexicon.numeral l number
    exact Nat.succ_pos _
  · exact Nat.succ_pos _

/-- Where a value is expected, a string or a container leads behind it. -/
theorem afterNode_value {brace : Bool} {q : St} (starts : Starts brace q) :
    afterNode (valueState brace q) = some (memberState brace) := by
  cases brace with
  | true => rfl
  | false => rcases starts with rfl | rfl <;> rfl

section Values

variable {lexicon : Lexicon} {c : Loop} {e : ℕ} {brace : Bool} {q : St} {s : List UInt8}
  (count : (c.tree.stack e).count = 0) (starts : Starts brace q)
  (vend : (c.tree.stack e).valueEnd = stop) (fits : c.Fits e (valueState brace q))
  (unnamed : brace = false → c.name e (valueState brace q) = (0, 0))

section Node

variable {inner : Bool} {members : Members}
  (at_ : At c e (valueState brace q) ((Value.node inner members).text ++ s))
  (wf : members.WellFormed lexicon false inner) (room : e + (members.depth + 1) ≤ maxDepth)
include starts fits unnamed at_ wf room

/-- The opening bracket of a container, and a derivation for the rest of it. -/
theorem opens_value (below : c.i < stop) :
    ∃ c', Opened c c' e (memberState brace) inner (c.name e (valueState brace q))
        (members.text ++ closingByte inner :: s) ∧
      ((c'.tree.stack e).childNameS, (c'.tree.stack e).childNameE) =
        c.name e (valueState brace q) ∧
      Loose (Placed lexicon) (maxDepth - (e + 1)) (bodyState inner)
        (members.text ++ closingByte inner :: s) s ∧
      ∀ r, Runs e stop c' r → Runs e stop c r := by
  have inside : (valueState brace q).Inner := by
    rcases starts with rfl | rfl <;> cases brace <;> exact ⟨by decide, by decide⟩
  rw [node_append] at at_
  obtain ⟨c', name, eq, opened, child, named⟩ := opening_ok at_ rfl inner (by omega)
    ((opens_inner inside inner).trans (afterNode_value starts))
  have same : name = c.name e (valueState brace q) := by
    rw [named fits]
    cases brace with
    | true => rfl
    | false =>
      have array : q ≠ .objectAfterColon := by rcases starts with rfl | rfl <;> decide
      exact (if_neg array).trans (unnamed rfl).symm
  obtain rfl := same
  have step : branch e e stop c = .ok (.go c') := by
    rw [branch_cons at_.p, classify_openingByte]
    exact eq
  have place := at_.i
  have place' := opened.at_.i
  have len := opened.kept.len
  rw [List.length_cons] at place
  refine ⟨c', opened, child, ?_, fun r h => Runs.step below step (by omega) ?_⟩
  · exact (loose_members (fun _ _ h => h) (Members.WellFormed.bare wf) (.inl rfl)).mpr
      ⟨wf, by omega, rfl⟩
  · unfold Checks
    rw [check_deep opened.at_ (Nat.lt_succ_self e) (inner_bodyState inner).2]
    exact h

include count vend

/-- A container that ends within the range is found. -/
theorem node_found (inside : c.i + (Value.node inner members).text.length ≤ stop) :
    ∃ t, Runs e stop c (.ok (t, some (e + 1))) ∧
      Found c.tree t e brace (.node inner members) (c.name e (valueState brace q)) c.i := by
  have length : (Value.node inner members).text.length = members.text.length + 2 := by
    simp only [Value.text, List.length_cons, List.length_append, List.length_nil]
  have place := at_.i
  rw [List.length_append] at place
  have below : c.i < stop := by omega
  obtain ⟨c₁, opened, child, loose, runs⟩ :=
    opens_value starts fits unnamed at_ wf room below
  have place₁ := opened.at_.i
  have len₁ := opened.kept.len
  rw [List.length_append, List.length_cons] at place₁
  have vend₁ : (c₁.tree.stack e).valueEnd = stop := opened.kept.valueEnd.trans vend
  obtain ⟨c₂, last, closed, ends, runs'⟩ := reads_loose (Nat.le_refl e) loose opened.at_ (by omega)
    vend₁ (by omega) (by omega) (inner_bodyState inner)
  have at₂ : At c₂ e (memberState brace) s :=
    closed.at_ opened.state opened.calm (opened.kept.depths at_.depths)
  have slot := closed.below e (Nat.le_refl e)
  have count₂ : (c₂.tree.stack e).count = 1 := by rw [slot, opened.count, count]
  have checks : Checks e stop c₂ (.ok (c₂.tree, some (e + 1))) := by
    unfold Checks
    rw [check_found at₂ count₂]
  refine ⟨c₂.tree, runs _ (runs' _ checks), opened.kept.trans closed.kept, at₂.state, ?_, ?_, ?_,
    ?_⟩
  · rw [slot, opened.childType]
  · rw [slot, child]
  · have place₂ := closed.i
    have valueEnd : c₂.i - 2 = c.i + members.text.length := by omega
    rw [closed.node opened, valueEnd]
    rfl
  · intro inner' members' same
    obtain ⟨rfl, rfl⟩ := Value.node.inj same
    exact Closed.settled opened closed ends

omit count in
/-- A container that ends with the closing bracket next to it is not. -/
theorem node_lost (tight : c.i + (Value.node inner members).text.length = stop + 1) :
    ∃ t, Runs e stop c (.ok (t, none)) ∧ Kept e c.tree t := by
  have length : (Value.node inner members).text.length = members.text.length + 2 := by
    simp only [Value.text, List.length_cons, List.length_append, List.length_nil]
  have place := at_.i
  rw [List.length_append] at place
  have below : c.i < stop := by omega
  obtain ⟨c₁, opened, _, loose, runs⟩ :=
    opens_value starts fits unnamed at_ wf room below
  have place₁ := opened.at_.i
  have len₁ := opened.kept.len
  rw [List.length_append, List.length_cons] at place₁
  have vend₁ : (c₁.tree.stack e).valueEnd = stop := opened.kept.valueEnd.trans vend
  obtain ⟨c₂, _, ⟨⟨_, at₂, _⟩, kept, _⟩, _, runs'⟩ := reads_inside (Nat.le_refl e) loose
    opened.at_ (by omega) vend₁ (by omega) (by omega) (inner_bodyState inner)
  have place₂ := at₂.i
  have len₂ := kept.len
  rw [List.length_cons] at place₂
  have notFound : found e c₂ = none := by
    rw [found_eq, at₂.ret, at₂.depth]
    exact if_neg fun h => Nat.succ_ne_self e h.1
  refine ⟨c₂.tree, runs _ (runs' _ ?_), opened.kept.trans (kept.lower (Nat.lt_succ_self e))⟩
  rw [← notFound]
  exact Runs.done (by omega)

end Node

include count starts vend

/-- A string is found. -/
theorem string_found {body : List UInt8}
    (at_ : At c e (valueState brace q) ((Value.string body).text ++ s)) (quotes : Quoted body)
    (fits : c.Fits e (valueState brace q)) (room : e ≤ maxDepth)
    (inside : c.i + (Value.string body).text.length ≤ stop + 1) :
    ∃ t, Runs e stop c (.ok (t, some (e + 1))) ∧
      Found c.tree t e brace (.string body) (c.name e (valueState brace q)) c.i := by
  have length : (Value.string body).text.length = body.length + 2 := by
    simp only [Value.text, List.length_cons, List.length_append, List.length_nil]
  have place := at_.i
  rw [List.length_append] at place
  rw [string_append] at at_
  obtain ⟨c', eq, at', added⟩ :=
    string_ok at_ room fits (afterNode_value starts) vend quotes rfl (by omega) e
  have place' := at'.i
  have len := added.kept.len
  refine ⟨c'.tree, Runs.step (by omega) eq (by omega) ?_, added.kept, added.state, added.childType,
    added.childName, added.member, fun _ _ h => nomatch h⟩
  unfold Checks
  rw [check_found at' (by rw [added.count, count])]

omit starts vend in
/-- A number or a keyword of an object is found, if it begins within the range. -/
theorem scalar_found {type : Ty} {l : List UInt8} (at_ : At c e .objectAfterColon (l ++ s))
    (wf : lexicon.Scalar type l) (ends : Ends s) (fits : c.Fits e .objectAfterColon)
    (room : e ≤ maxDepth) (below : c.i < stop) :
    ∃ t, Runs e stop c (.ok (t, some (e + 1))) ∧
      Found c.tree t e true (.scalar type l) (c.name e .objectAfterColon) c.i := by
  have place := at_.i
  have pos := scalar_pos wf
  rw [List.length_append] at place
  obtain ⟨c', eq, at', added⟩ := scalar_ok at_ room fits (lex_scalar wf ends) e e stop
  have place' := at'.i
  have len := added.kept.len
  have i : c'.i = c.i + l.length := by omega
  refine ⟨c'.tree, Runs.step below eq (by omega) ?_, added.kept, added.state, added.childType,
    added.childName, ?_, fun _ _ h => nomatch h⟩
  · unfold Checks
    rw [check_found at' (by rw [added.count, count])]
  · rw [added.member, i]
    rfl

variable {v : Value} (at_ : At c e (valueState brace q) (v.text ++ s))
  (wf : v.WellFormed lexicon false) (fits : c.Fits e (valueState brace q))
  (unnamed : brace = false → c.name e (valueState brace q) = (0, 0)) (room : e < maxDepth)
  (deep : e + v.depth ≤ maxDepth)
include at_ wf fits unnamed room deep

/-- **A value is found**, if it is not tight or does not end at the closing bracket. -/
theorem value_found (named : v.isScalar = true → brace = true) (ends : v.isScalar = true → Ends s)
    (inside : c.i + v.text.length ≤ stop + 1)
    (visible : v.tight = true → c.i + v.text.length ≤ stop) :
    ∃ t, Runs e stop c (.ok (t, some (e + 1))) ∧
      Found c.tree t e brace v (c.name e (valueState brace q)) c.i := by
  cases v with
  | scalar type l =>
    obtain rfl := named rfl
    have pos := scalar_pos wf
    have below : c.i < stop := by
      by_cases one : l.length = 1
      · have whole : c.i + l.length ≤ stop := visible (decide_eq_true one)
        omega
      · have whole : c.i + l.length ≤ stop + 1 := inside
        omega
    exact scalar_found count at_ wf (ends rfl) fits (Nat.le_of_lt room) below
  | string body =>
    exact string_found count starts vend at_ (lexicon.quoted _ wf) fits (Nat.le_of_lt room) inside
  | node inner members =>
    exact node_found count starts vend fits unnamed at_ wf deep (visible rfl)

omit room in
/-- **A value is lost**, if it is tight and ends at the closing bracket. -/
theorem value_lost (tight : v.tight = true) (end_ : c.i + v.text.length = stop + 1) :
    ∃ t, Runs e stop c (.ok (t, none)) ∧ Kept e c.tree t := by
  cases v with
  | scalar type l =>
    have one : l.length = 1 := of_decide_eq_true tight
    have whole : c.i + l.length = stop + 1 := end_
    have notFound : found e c = none := by
      rw [found_eq, at_.ret, count]
      exact if_neg fun h => nomatch h.2
    refine ⟨c.tree, ?_, Kept.refl e c.tree⟩
    rw [← notFound]
    exact Runs.done (by omega)
  | string body => exact nomatch tight
  | node inner members => exact node_lost starts vend fits unnamed at_ wf deep end_

end Values

/-! ## The members -/

/-- The range ends in white space, one byte before it does. -/
theorem blanks_end {c : Loop} {e : ℕ} {q : St} {post s : List UInt8} (at_ : At c e q (post ++ s))
    (blank : Blank post) (count : (c.tree.stack e).count = 0) (going : q ≠ .stateEnd)
    (end_ : c.i + post.length = stop + 1) :
    ∃ t, Runs e stop c (.ok (t, none)) ∧ Kept e c.tree t := by
  have notFound : ∀ {c' : Loop} {s'}, At c' e q s' → Idle e c.tree c'.tree → found e c' = none :=
    fun at' idle => by
      rw [found_eq, at'.ret, idle.count, count]
      exact if_neg fun h => nomatch h.2
  rcases List.eq_nil_or_concat' post with rfl | ⟨space, b, rfl⟩
  · refine ⟨c.tree, ?_, Kept.refl e c.tree⟩
    rw [← notFound at_ (Idle.refl e c.tree)]
    exact Runs.done (by rw [List.length_nil] at end_; omega)
  · rw [List.length_append, List.length_singleton] at end_
    rw [List.append_assoc] at at_
    have inside : c.i + space.length ≤ stop := by omega
    obtain ⟨c', scans, _⟩ :=
      scans_blanks count at_ (fun d h => blank d (List.mem_append_left _ h)) inside going
    have i := scans.i
    refine ⟨c'.tree, scans.runs _ ?_, scans.idle.kept⟩
    rw [← notFound scans.at_ scans.idle]
    exact Runs.done (by omega)

/-- The first member that is found, with its name and its offset. -/
def Members.first (i : ℕ) : Members → Option (Value × (ℕ × ℕ) × ℕ)
  | .nil _ => none
  | .last head v post => if v.lost post then none else some (v, head.slice i, i + head.text.length)
  | .more head v _ _ => some (v, head.slice i, i + head.text.length)

/-- What `json__get` returns where the members at offset `i` are ahead. -/
def Scanned (t t' : Tree) (e : ℕ) (brace : Bool) (i : ℕ) (members : Members) (o : Option ℕ) :
    Prop :=
  match members.first i with
  | none => o = none ∧ Kept e t t'
  | some (v, name, j) => o = some (e + 1) ∧ Found t t' e brace v name j

theorem Scanned.kept {t t' : Tree} {e i : ℕ} {brace : Bool} {members : Members} {o : Option ℕ}
    (h : Scanned t t' e brace i members o) : Kept e t t' := by
  unfold Scanned at h
  cases first : members.first i with
  | none =>
    rw [first] at h
    exact h.2
  | some member =>
    rw [first] at h
    exact h.2.kept

theorem value_pos {lexicon : Lexicon} {bare : Bool} {v : Value} (wf : v.WellFormed lexicon bare) :
    0 < v.text.length := by
  cases v with
  | scalar type l => exact scalar_pos wf
  | string => exact Nat.succ_pos _
  | node => exact Nat.succ_pos _

/-- **The next member**, or none, from anywhere in front of one. -/
theorem scans_members {lexicon : Lexicon} {c : Loop} {e : ℕ} {brace : Bool} {q : St}
    {members : Members} {k : List UInt8}
    (at_ : At c e q (members.text ++ closingByte brace :: k)) (starts : Starts brace q)
    (wf : members.WellFormed lexicon false brace) (count : (c.tree.stack e).count = 0)
    (ready : Ready c.tree e brace stop)
    (room : e < maxDepth) (deep : e + members.depth ≤ maxDepth)
    (end_ : c.i + members.text.length = stop + 1) :
    ∃ t o, Runs e stop c (.ok (t, o)) ∧ Scanned c.tree t e brace c.i members o := by
  have going : q ≠ .stateEnd := by rcases starts with rfl | rfl <;> cases brace <;> decide
  have member : ∀ {head : Head} {v : Value} {s : List UInt8},
      At c e q (head.text ++ (v.text ++ s)) → head.WellFormed lexicon brace →
      v.WellFormed lexicon false → (v.isScalar = true → brace = true) →
      (v.isScalar = true → Ends s) → e + v.depth ≤ maxDepth →
      c.i + head.text.length + v.text.length ≤ stop + 1 →
      (v.tight = true → c.i + head.text.length + v.text.length ≤ stop) →
      ∃ t, Runs e stop c (.ok (t, some (e + 1))) ∧
        Found c.tree t e brace v (head.slice c.i) (c.i + head.text.length) :=
    fun {head v s} at_ wfHead wf named ends deep inside visible => by
      have pos := value_pos wf
      obtain ⟨c', ahead⟩ := scans_head at_ wfHead starts count ready (by omega)
      have i := ahead.scans.i
      rw [← i] at inside visible
      obtain ⟨t, runs, found⟩ := value_found ahead.count starts ahead.valueEnd ahead.fits
        ahead.unnamed ahead.scans.at_ wf room deep named ends inside visible
      rw [ahead.name, i] at found
      exact ⟨t, ahead.scans.runs _ runs, ahead.scans.idle.kept.trans found.kept, found.state,
        found.childType, found.childName, found.member, found.settled⟩
  cases members with
  | nil space =>
    obtain ⟨t, runs, kept⟩ := blanks_end at_ wf count going end_
    exact ⟨t, none, runs, rfl, kept⟩
  | last head v post =>
    obtain ⟨wfHead, named, wfValue, blank⟩ := wf
    have named' := fun h => (named h).resolve_right (by decide)
    have pos := value_pos wfValue
    have length : (Members.last head v post).text.length =
        head.text.length + (v.text.length + post.length) := by
      rw [Members.text, List.length_append, List.length_append]
    rw [length] at end_
    rw [last_append] at at_
    cases lost : v.lost post with
    | false =>
      have visible : v.tight = true → 0 < post.length := fun tight => by
        unfold Value.lost at lost
        rw [tight, Bool.true_and] at lost
        exact List.length_pos_iff.mpr fun h => by rw [h] at lost; exact nomatch lost
      obtain ⟨t, runs, found⟩ := member at_ wfHead wfValue named'
        (fun _ => ends_closing blank brace k) deep (by omega)
        (fun tight => by have := visible tight; omega)
      refine ⟨t, some (e + 1), runs, ?_⟩
      simp only [Scanned, Members.first, lost]
      exact ⟨trivial, found⟩
    | true =>
      obtain ⟨tight, empty⟩ := Bool.and_eq_true_iff.mp lost
      rw [List.isEmpty_iff.mp empty] at end_ at_
      rw [List.length_nil] at end_
      obtain ⟨c', ahead⟩ := scans_head at_ wfHead starts count ready (by omega)
      have i := ahead.scans.i
      obtain ⟨t, runs, kept⟩ := value_lost ahead.count starts ahead.valueEnd ahead.fits
        ahead.unnamed ahead.scans.at_ wfValue deep tight (by omega)
      refine ⟨t, none, ahead.scans.runs _ runs, ?_⟩
      simp only [Scanned, Members.first, lost]
      exact ⟨trivial, ahead.scans.idle.kept.trans kept⟩
  | more head v post rest =>
    obtain ⟨wfHead, named, wfValue, blank, _⟩ := wf
    have named' := fun h => (named h).resolve_right (by decide)
    have length : (Members.more head v post rest).text.length =
        head.text.length + (v.text.length + (post.length + 1 + rest.text.length)) := by
      simp only [Members.text, List.length_append, List.length_cons]
      omega
    rw [length] at end_
    rw [more_append] at at_
    rw [Members.depth] at deep
    obtain ⟨t, runs, found⟩ := member at_ wfHead wfValue named' (fun _ => ends_comma blank _)
      (by omega) (by omega) (fun _ => by omega)
    exact ⟨t, some (e + 1), runs, rfl, found⟩

end Teres.Tools.Json
