import Teres.Laws.Tools.JsonLex

/-!
# One round of the JSON parser's loop

`At c e q s` places the loop: the current object is slot `e` in state `q`, and `s` is the text that
is left. `Kept e t t'` is the frame of what the loop does at slot `e`: the slots below are as they
were, and of its own slot only the state, the count and the member in preparation may change.

Every round is then one of four: a token that stays in its container (`branch_move`), an opening
bracket (`opening_ok`), a closing one (`closing_ok`), or nothing that the state expects, and then an
error or a string that is cut off by the end of the text (`branch_stuck`). The last sections say
where `json__get` and `json__get_next` enter the loop, and what `json__visitor` does with them.
-/

namespace Teres.Tools.Json

/-! ## Slots -/

/-- The types with members. -/
def Ty.Container (type : Ty) : Prop := type = .object ∨ type = .objectArray

instance (type : Ty) : Decidable type.Container := inferInstanceAs (Decidable (_ ∨ _))

theorem string_leaf : ¬Ty.Container .string := by decide

theorem Ty.Scalar.leaf {type : Ty} (scalar : type.Scalar) : ¬type.Container := by
  rcases scalar with rfl | rfl | rfl | rfl <;> decide

theorem resume_container {o : Obj} (type : o.type.Container) : resume o = o.valueEnd + 2 :=
  if_pos type

theorem resume_scalar {o : Obj} (type : o.type.Scalar) : resume o = o.valueEnd :=
  (if_neg type.leaf).trans (if_pos type)

theorem resume_string {o : Obj} (type : o.type = .string) : resume o = o.valueEnd + 1 := by
  unfold resume
  rw [type]
  rfl

/-- What of an object is fixed while its members are read. -/
def Obj.core (o : Obj) : ℕ × Ty × ℕ × ℕ × ℕ × ℕ :=
  (o.depth, o.type, o.nameStart, o.nameEnd, o.valueStart, o.valueEnd)

section Core

variable {o : Obj} {x : ℕ × Ty × ℕ × ℕ × ℕ × ℕ}

theorem type_of_core (core : o.core = x) : o.type = x.2.1 := congrArg (fun o => o.2.1) core

theorem valueStart_of_core (core : o.core = x) : o.valueStart = x.2.2.2.2.1 :=
  congrArg (fun o => o.2.2.2.2.1) core

theorem valueEnd_of_core (core : o.core = x) : o.valueEnd = x.2.2.2.2.2 :=
  congrArg (fun o => o.2.2.2.2.2) core

end Core

theorem resume_same {o o' : Obj} (core : o'.core = o.core) : resume o' = resume o := by
  have type : o'.type = o.type := type_of_core core
  have valueEnd : o'.valueEnd = o.valueEnd := valueEnd_of_core core
  unfold resume
  rw [type, valueEnd]

/-- The frame of the loop at slot `e`. -/
structure Kept (e : ℕ) (t t' : Tree) : Prop where
  buf : t'.buf = t.buf
  len : t'.len = t.len
  below : ∀ k < e, t'.stack k = t.stack k
  core : (t'.stack e).core = (t.stack e).core

theorem Kept.type {e : ℕ} {t t' : Tree} (h : Kept e t t') :
    (t'.stack e).type = (t.stack e).type := type_of_core h.core

theorem Kept.valueEnd {e : ℕ} {t t' : Tree} (h : Kept e t t') :
    (t'.stack e).valueEnd = (t.stack e).valueEnd := valueEnd_of_core h.core

theorem Kept.refl (e : ℕ) (t : Tree) : Kept e t t := ⟨rfl, rfl, fun _ _ => rfl, rfl⟩

theorem Kept.trans {e : ℕ} {t t' t'' : Tree} (h : Kept e t t') (h' : Kept e t' t'') :
    Kept e t t'' where
  buf := h'.buf.trans h.buf
  len := h'.len.trans h.len
  below k hk := (h'.below k hk).trans (h.below k hk)
  core := h'.core.trans h.core

/-- What is kept at a slot is kept below it. -/
theorem Kept.lower {e k : ℕ} {t t' : Tree} (h : Kept e t t') (hk : k < e) : Kept k t t' where
  buf := h.buf
  len := h.len
  below j hj := h.below j (Nat.lt_trans hj hk)
  core := by rw [h.below k hk]

theorem Kept.depths {e : ℕ} {t t' : Tree} (h : Kept e t t')
    (depths : ∀ k ≤ e, (t.stack k).depth = k) : ∀ k ≤ e, (t'.stack k).depth = k := by
  intro k hk
  rcases Nat.lt_or_eq_of_le hk with below | rfl
  · rw [h.below k below]
    exact depths k hk
  · have same : (t'.stack k).depth = (t.stack k).depth := congrArg Prod.fst h.core
    rw [same]
    exact depths k hk

theorem set_stack_eq (t : Tree) (k j : ℕ) (o : Obj) :
    (t.set k o).stack j = if j = k then o else t.stack j := Function.update_apply ..

@[simp] theorem set_stack (t : Tree) (k : ℕ) (o : Obj) : (t.set k o).stack k = o := by
  unfold Tree.set
  exact Function.update_self k o t.stack

theorem set_stack_of_ne (t : Tree) {j k : ℕ} (h : j ≠ k) (o : Obj) :
    (t.set k o).stack j = t.stack j := by
  unfold Tree.set
  exact Function.update_of_ne h o t.stack

theorem setState_stack (t : Tree) (k : ℕ) (q : St) :
    (t.setState k q).stack k = { t.stack k with state := q } := set_stack t k _

@[simp] theorem setState_state (t : Tree) (k : ℕ) (q : St) :
    ((t.setState k q).stack k).state = q := by
  rw [Tree.setState, set_stack]

/-- A write to a slot keeps it, if the core is the same. -/
theorem kept_set {e : ℕ} {t : Tree} {o : Obj} (h : o.core = (t.stack e).core) :
    Kept e t (t.set e o) where
  buf := rfl
  len := rfl
  below k hk := set_stack_of_ne t (Nat.ne_of_lt hk) o
  core := by rw [set_stack, h]

/-- A write to a slot above keeps everything. -/
theorem kept_set_above {e k : ℕ} (h : e < k) (t : Tree) (o : Obj) : Kept e t (t.set k o) where
  buf := rfl
  len := rfl
  below j hj := set_stack_of_ne t (Nat.ne_of_lt (Nat.lt_trans hj h)) o
  core := by rw [set_stack_of_ne t (Nat.ne_of_lt h)]

theorem kept_setState (e : ℕ) (t : Tree) (q : St) : Kept e t (t.setState e q) := kept_set rfl

theorem kept_error (e : ℕ) (t : Tree) (offset : ℕ) (message : String) :
    Kept e t (t.error offset message) := ⟨rfl, rfl, fun _ _ => rfl, rfl⟩

theorem kept_prepare (e : ℕ) (t : Tree) (type : Ty) (i j : ℕ) :
    Kept e t (prepareMember t e type i j) := kept_set rfl

/-- A write that leaves the core of its slot leaves every core. -/
theorem set_core {t : Tree} {k : ℕ} {o : Obj} (core : o.core = (t.stack k).core) (j : ℕ) :
    ((t.set k o).stack j).core = (t.stack j).core := by
  rw [set_stack_eq]
  split_ifs with same
  · rw [same, core]
  · rfl

theorem slot_ok (t : Tree) {k : ℕ} (h : k < maxDepth + 2) : t.slot k = .ok k := if_pos h

/-- A member without members of its own, added to slot `e`. -/
structure Added (t t' : Tree) (e : ℕ) (q : St) (type : Ty) (name value : ℕ × ℕ) : Prop where
  kept : Kept e t t'
  state : (t'.stack e).state = q
  count : (t'.stack e).count = (t.stack e).count + 1
  childType : (t'.stack e).childType = .undefined
  childName : ((t'.stack e).childNameS, (t'.stack e).childNameE) = name
  member : (t'.stack (e + 1)).core = (e + 1, type, name.1, name.2, value.1, value.2)

theorem Added.setState {t t' : Tree} {e : ℕ} {q : St} {type : Ty} {name value : ℕ × ℕ}
    (h : Added t t' e q type name value) (q' : St) :
    Added t (t'.setState e q') e q' type name value where
  kept := h.kept.trans (kept_setState e t' q')
  state := setState_state t' e q'
  count := by rw [Tree.setState, set_stack]; exact h.count
  childType := by rw [Tree.setState, set_stack]; exact h.childType
  childName := by rw [Tree.setState, set_stack]; exact h.childName
  member := by
    rw [Tree.setState, set_stack_of_ne t' (Nat.ne_of_gt (Nat.lt_succ_self e))]
    exact h.member

/-- A member of the type `type` may be added: it is the one in preparation, or there is none. -/
def Obj.Takes (o : Obj) (type : Ty) : Prop :=
  o.childType = .undefined ∨ o.childType = type ∧ o.type = .object

/-- What adding a member does, if it may be added. -/
theorem addMember_ok {t : Tree} {e : ℕ} (depth : (t.stack e).depth = e) (bound : e ≤ maxDepth)
    {type : Ty} (fits : (t.stack e).Takes type) (i j : ℕ) :
    ∃ t' q, addMember t e type i j = .ok (t', 0) ∧
      Added t t' e q type ((t.stack e).childNameS, (t.stack e).childNameE) (i, j) := by
  have fits' : ¬ ((t.stack e).childType ≠ .undefined ∧
      ((t.stack e).childType ≠ type ∨ (t.stack e).type ≠ .object)) := by
    rintro ⟨some, other⟩
    rcases fits with none | ⟨same, object⟩
    · exact some none
    · exact other.elim (fun h => h same) (fun h => h object)
  have above := Nat.lt_succ_self e
  have other := Nat.ne_of_lt above
  unfold addMember
  simp only [depth]
  rw [if_neg fits', slot_ok t (by omega)]
  refine ⟨_, if (t.stack e).state = .arrayBody ∨ (t.stack e).state = .arrayAfterComma then
    .arrayAfterMember else .objectAfterMember, rfl, ⟨rfl, rfl, fun k hk => ?_, ?_⟩, ?_, ?_, ?_, ?_,
    ?_⟩
  · rw [set_stack_of_ne _ (Nat.ne_of_lt hk),
      set_stack_of_ne _ (Nat.ne_of_lt (Nat.lt_trans hk above))]
  · rw [set_stack]
    simp only [Obj.core, depth]
  · rw [set_stack]
  · rw [set_stack]
  · rw [set_stack]
  · rw [set_stack]
  · rw [set_stack_of_ne _ other.symm, set_stack]
    rfl

/-- A member that may not be added is an error. -/
theorem addMember_refused {t : Tree} {e : ℕ} {type : Ty} (other : ¬(t.stack e).Takes type)
    (i j : ℕ) : addMember t e type i j = .ok (t.error i "data mismatch", -1) := by
  refine if_pos ⟨fun none => other (.inl none), ?_⟩
  by_contra same
  exact other (.inr ⟨not_not.mp fun h => same (.inl h), not_not.mp fun h => same (.inr h)⟩)

/-- A member without members may have been counted at slot `e`, with the loop going on at `i`. -/
def Counts (e i : ℕ) (t t' : Tree) : Prop :=
  (t'.stack e).count = (t.stack e).count ∨
    (t'.stack e).count = (t.stack e).count + 1 ∧ ¬(t'.stack (e + 1)).type.Container ∧
      resume (t'.stack (e + 1)) = i

/-! ## Where the loop is -/

/-- The states of an array. -/
def St.InArray (q : St) : Prop := q = .arrayBody ∨ q = .arrayAfterComma ∨ q = .arrayAfterMember

/-- Between two members nothing is in preparation, and in the states of an array there is no
name. -/
structure Calm (o : Obj) (q : St) : Prop where
  array : q.InArray → o.childType = .undefined ∧ (o.childNameS, o.childNameE) = (0, 0)
  object : o.type = .object → o.childType = .undefined

theorem Calm.of_undefined {o : Obj} {q : St} (none : o.childType = .undefined)
    (names : q.InArray → (o.childNameS, o.childNameE) = (0, 0)) : Calm o q :=
  ⟨fun array => ⟨none, names array⟩, fun _ => none⟩

theorem Calm.setState {t : Tree} {e : ℕ} {q q' : St} (h : Calm (t.stack e) q)
    (still : q'.InArray → q.InArray) : Calm ((t.setState e q').stack e) q' := by
  rw [Tree.setState, set_stack]
  exact ⟨fun array => h.array (still array), h.object⟩

theorem not_inArray {q : St} (h : q = .objectAfterColon ∨ q = .objectAfterMember ∨
    q = .objectAfterName ∨ q = .objectAfterComma ∨ q = .objectBody) : ¬ q.InArray := by
  rintro (rfl | rfl | rfl) <;> simp_all

/-- The loop is at slot `e` in state `q` and `s` is left of the text. -/
structure At (c : Loop) (e : ℕ) (q : St) (s : List UInt8) : Prop where
  ret : c.ret = e
  p : c.p = s ++ [0]
  i : c.i + s.length = c.tree.len
  state : (c.tree.stack e).state = q
  calm : Calm (c.tree.stack e) q
  depths : ∀ k ≤ e, (c.tree.stack k).depth = k

theorem At.loop_state {c : Loop} {e : ℕ} {q : St} {s : List UInt8} (h : At c e q s) :
    c.state = q := by
  rw [Loop.state, h.ret, h.state]

theorem At.depth {c : Loop} {e : ℕ} {q : St} {s : List UInt8} (h : At c e q s) :
    (c.tree.stack e).depth = e := h.depths e (Nat.le_refl e)

/-- The same, whatever is in preparation. -/
structure Place (c : Loop) (e : ℕ) (q : St) (s : List UInt8) : Prop where
  ret : c.ret = e
  p : c.p = s ++ [0]
  i : c.i + s.length = c.tree.len
  state : (c.tree.stack e).state = q
  depths : ∀ k ≤ e, (c.tree.stack k).depth = k

theorem At.place {c : Loop} {e : ℕ} {q : St} {s : List UInt8} (h : At c e q s) : Place c e q s :=
  ⟨h.ret, h.p, h.i, h.state, h.depths⟩

theorem Place.loop_state {c : Loop} {e : ℕ} {q : St} {s : List UInt8} (h : Place c e q s) :
    c.state = q := by
  rw [Loop.state, h.ret, h.state]

/-- The loop after a branch that stays at its slot. -/
theorem At.next {c c' : Loop} {e : ℕ} {q q' : St} {s s' : List UInt8} (h : At c e q s)
    (ret : c'.ret = e) (p : c'.p = s' ++ [0]) (i : c'.i + s'.length = c.i + s.length)
    (kept : Kept e c.tree c'.tree) (state : (c'.tree.stack e).state = q')
    (calm : Calm (c'.tree.stack e) q') : At c' e q' s' where
  ret := ret
  p := p
  i := by rw [i, h.i, kept.len]
  state := state
  calm := calm
  depths := kept.depths h.depths

/-- The `switch` on the first byte. -/
theorem branch_cons {c : Loop} {byte : UInt8} {p : List UInt8} (h : c.p = byte :: p)
    (obj od stop : ℕ) : branch obj od stop c = switch obj od stop c p (classify byte) := by
  simp only [branch, h]

/-! ## Tokens that stay in their container -/

theorem kept_prepared (c : Loop) (type : Ty) : Kept c.ret c.tree (c.prepared type) := by
  unfold Loop.prepared
  split_ifs
  · exact kept_prepare c.ret c.tree type c.nameStart c.nameEnd
  · exact Kept.refl c.ret c.tree

/-- What is prepared is no part of a value's end. -/
theorem prepared_valueEnd (c : Loop) (type : Ty) (obj : ℕ) :
    ((c.prepared type).stack obj).valueEnd = (c.tree.stack obj).valueEnd := by
  unfold Loop.prepared
  split_ifs
  · unfold prepareMember
    rcases eq_or_ne obj c.ret with rfl | other
    · rw [set_stack]
    · rw [set_stack_of_ne _ other]
  · rfl

/-- Preparing a member does not count it. -/
theorem prepared_count (c : Loop) (type : Ty) (e : ℕ) :
    ((c.prepared type).stack e).count = (c.tree.stack e).count := by
  unfold Loop.prepared
  split_ifs
  · unfold prepareMember
    rcases eq_or_ne e c.ret with rfl | other
    · rw [set_stack]
    · rw [set_stack_of_ne _ other]
  · rfl

/-- The name of the next member: the one read before a colon, or else the one prepared. -/
def Loop.name (c : Loop) (e : ℕ) (q : St) : ℕ × ℕ :=
  if q = .objectAfterColon then (c.nameStart, c.nameEnd)
  else ((c.tree.stack e).childNameS, (c.tree.stack e).childNameE)

theorem Place.prepared_name {c : Loop} {e : ℕ} {q : St} {s : List UInt8} (h : Place c e q s)
    (type : Ty) : (((c.prepared type).stack e).childNameS,
      ((c.prepared type).stack e).childNameE) = c.name e q := by
  unfold Loop.prepared Loop.name
  rw [h.loop_state, h.ret]
  split_ifs
  · rw [prepareMember, set_stack]
  · rfl

theorem Place.prepared_type {c : Loop} {e : ℕ} {q : St} {s : List UInt8} (h : Place c e q s)
    (type : Ty) : ((c.prepared type).stack e).childType =
      if q = .objectAfterColon then type else (c.tree.stack e).childType := by
  unfold Loop.prepared
  rw [h.loop_state, h.ret]
  split_ifs
  · rw [prepareMember, set_stack]
  · rfl

/-- In the states of an array, a member has no name. -/
theorem Calm.name {c : Loop} {e : ℕ} {q : St} (calm : Calm (c.tree.stack e) q)
    (array : q.InArray) : c.name e q = (0, 0) :=
  (if_neg fun h => not_inArray (.inl h) array).trans (calm.array array).2

/-- A container leads to a state of an array only from one. -/
theorem afterNode_array {q q' : St} (moves : afterNode q = some q') (array : q'.InArray) :
    q.InArray := by
  cases q with
  | objectAfterColon =>
    obtain rfl := Option.some.inj moves
    exact absurd array (not_inArray (.inr (.inl rfl)))
  | arrayBody => exact .inl rfl
  | arrayAfterComma => exact .inr (.inl rfl)
  | _ => exact nomatch moves

section Text

variable {c : Loop} {s : List UInt8}

/-- A string that closes within bounds is read whole. -/
theorem branch_string (at_ : c.p = s ++ [0]) (place : c.i + s.length = c.tree.len)
    {obj stop : ℕ} (vend : (c.tree.stack obj).valueEnd = stop)
    {body u : List UInt8} (quotes : Quoted body) (text : s = quote :: (body ++ quote :: u))
    (inside : c.tree.len ≤ stop + u.length + 1) (od : ℕ) :
    branch obj od stop c =
      stringRead c (c.prepared .string) (c.i + 1) (c.i + 1 + body.length) (u ++ [0]) := by
  rw [text, List.length_cons, List.length_append, List.length_cons] at place
  have p : c.p = quote :: (body ++ quote :: (u ++ [0])) := by
    rw [at_, text, List.cons_append, List.append_assoc, List.cons_append]
  have class_ : classify quote = .quote := by decide
  have closed : ¬ ((c.prepared .string).stack obj).valueEnd < c.i + 1 + body.length := by
    rw [prepared_valueEnd, vend]
    omega
  have read : skipString stop (c.i + 1) (body ++ quote :: (u ++ [0])) =
      .ok (c.i + 1 + body.length, quote :: (u ++ [0])) :=
    skipString_quoted quotes (u ++ [0]) (c.i + 1) (by omega)
  rw [branch_cons p, class_]
  simp only [switch, string]
  rw [read]
  exact if_neg closed

/-- A number or a keyword is a scalar, in every state. -/
theorem branch_scalar (at_ : c.p = s ++ [0]) {type : Ty} {s' : List UInt8}
    (token : lex s = some (.scalar type, s')) (obj od stop : ℕ) :
    ∃ i' n, branch obj od stop c = scalar type c i' (s' ++ [0]) n ∧
      i' + s'.length = c.i + s.length := by
  obtain ⟨byte, u, rfl, lexed⟩ := lex_lexed token
  have p : c.p = byte :: (u ++ [0]) := at_
  rw [branch_cons p]
  cases lexed with
  | byte same => exact nomatch same
  | @keyword _ tail _ class_ text =>
    subst text
    refine ⟨c.i + 1 + tail.length, c.nameStart, ?_, ?_⟩
    · have matches' : tail.isPrefixOf (tail ++ s') = true :=
        List.isPrefixOf_iff_prefix.mpr (List.prefix_append tail s')
      rw [class_]
      simp only [switch, keyword]
      rw [matches_eq (keyword_tail class_), matches', List.append_assoc, List.drop_left]
      rfl
    · simp only [List.length_cons, List.length_append]
      omega
  | number class_ sign =>
    obtain ⟨i', read, place⟩ := skipNumber_eq c.i (byte :: u)
    have whole : ¬ (i' = c.i + 1 ∧ c.p.head? = some 0x2D) := by
      rintro ⟨one, head⟩
      rw [at_] at head
      refine sign ⟨(restNumber_suffix class_ u).eq_of_length ?_, Option.some.inj head⟩
      rw [List.length_cons] at place
      omega
    refine ⟨i', c.i, ?_, place⟩
    rw [class_]
    simp only [switch, number]
    rw [at_, read, ← at_]
    exact if_neg whole

end Text

/-- What a token that stays in slot `e` does to it, up to the byte `i`. -/
structure Moved (e i : ℕ) (q q' : St) (t t' : Tree) : Prop where
  kept : Kept e t t'
  state : (t'.stack e).state = q'
  counts : Counts e i t t'
  calm : Calm (t.stack e) q → Calm (t'.stack e) q'

theorem moved_setState (e i : ℕ) {q q' : St} (t : Tree) (still : q'.InArray → q.InArray) :
    Moved e i q q' t (t.setState e q') :=
  ⟨kept_setState e t q', setState_state t e q', .inl (by rw [setState_stack]),
    fun calm => calm.setState still⟩

section Moves

variable {c : Loop} {e : ℕ} {q q' : St} {s s' : List UInt8} (place : Place c e q s)
  (bound : e ≤ maxDepth)
include place

/-- The loop after a branch that stays at its slot. -/
theorem Place.next {c' : Loop} (ret : c'.ret = e) (p : c'.p = s' ++ [0])
    (i : c'.i + s'.length = c.i + s.length) (moved : Moved e c'.i q q' c.tree c'.tree) :
    Place c' e q' s' where
  ret := ret
  p := p
  i := by rw [i, place.i, moved.kept.len]
  state := moved.state
  depths := moved.kept.depths place.depths

/-- A byte that only moves the state. -/
theorem Place.on {b : UInt8} (text : s = b :: s') (still : q'.InArray → q.InArray) :
    Place (c.on (s' ++ [0]) (c.tree.setState e q')) e q' s' ∧
      Moved e (c.i + 1) q q' c.tree (c.tree.setState e q') := by
  have moved : Moved e (c.i + 1) q q' c.tree (c.tree.setState e q') :=
    moved_setState e (c.i + 1) c.tree still
  refine ⟨place.next place.ret rfl ?_ moved, moved⟩
  rw [text, List.length_cons]
  exact Nat.add_right_comm c.i 1 s'.length

theorem Place.plain (type : Ty) (colon : q ≠ .objectAfterColon) : c.prepared type = c.tree :=
  if_neg fun eq => colon (place.loop_state.symm.trans eq)

include bound

/-- **Whatever is added** is counted or refused, and nothing is in preparation behind it if it was
not in front of it. -/
theorem Place.adds {type : Ty} (leaf : ¬type.Container) (i j : ℕ) {j' : ℕ}
    (resumes : ∀ o : Obj, o.type = type → o.valueEnd = j → resume o = j') :
    ∃ t r, addMember (c.prepared type) e type i j = .ok (t, r) ∧
      ∀ {q' : St}, (q'.InArray → q.InArray) → Moved e j' q q' c.tree (t.setState e q') := by
  have prepared := kept_prepared c type
  rw [place.ret] at prepared
  have depth := prepared.depths place.depths e (Nat.le_refl e)
  have inPreparation := place.prepared_type type
  by_cases takes : ((c.prepared type).stack e).Takes type
  · obtain ⟨t, _, eq, added⟩ := addMember_ok depth bound takes i j
    refine ⟨t, 0, eq, fun {q'} still => ?_⟩
    have all := added.setState q'
    have type' : ((t.setState e q').stack (e + 1)).type = type := type_of_core all.member
    have valueEnd : ((t.setState e q').stack (e + 1)).valueEnd = j := valueEnd_of_core all.member
    refine ⟨prepared.trans all.kept, all.state, .inr ⟨?_, type' ▸ leaf, resumes _ type' valueEnd⟩,
      fun calm => .of_undefined all.childType fun array => ?_⟩
    · rw [all.count, prepared_count]
    · exact all.childName.trans ((place.prepared_name type).trans (calm.name (still array)))
  · have kept := prepared.trans (kept_error e (c.prepared type) i "data mismatch")
    refine ⟨_, _, addMember_refused takes i j, fun {q'} still => ?_⟩
    have all := kept.trans (kept_setState e _ q')
    refine ⟨all, setState_state _ e q', .inl ?_, fun calm => ⟨fun array => ?_, fun object => ?_⟩⟩
    · rw [setState_stack]
      exact prepared_count c type e
    · have array' := still array
      have colon : q ≠ .objectAfterColon := fun h => not_inArray (.inl h) array'
      rw [if_neg colon, (calm.array array').1] at inPreparation
      exact absurd (.inl inPreparation) takes
    · have object' : (c.tree.stack e).type = .object :=
        all.type.symm.trans object
      split_ifs at inPreparation with colon
      · have same := prepared.type.trans object'
        exact absurd (.inr ⟨inPreparation, same⟩) takes
      · rw [calm.object object'] at inPreparation
        exact absurd (.inl inPreparation) takes

/-- A number or a keyword makes the current object one behind a member. -/
theorem Place.scalar {type : Ty} (kind : type.Scalar) {i' n : ℕ}
    (i : i' + s'.length = c.i + s.length) :
    ∃ c', Json.scalar type c i' (s' ++ [0]) n = .ok (.go c') ∧ Place c' e .objectAfterMember s' ∧
      Moved e c'.i q .objectAfterMember c.tree c'.tree := by
  obtain ⟨t, r, eq, added⟩ := place.adds bound kind.leaf c.i i' fun o type end_ =>
    (resume_scalar (type ▸ kind)).trans end_
  have moved : Moved e i' q .objectAfterMember c.tree (t.setState e .objectAfterMember) :=
    added fun h => absurd h (not_inArray (.inr (.inl rfl)))
  refine ⟨⟨t.setState e .objectAfterMember, e, i', s' ++ [0], n, c.nameEnd⟩, ?_,
    place.next rfl rfl i moved, moved⟩
  rw [Json.scalar, place.ret, eq]
  rfl

/-- A string is a name or a value where the state expects one. -/
theorem Place.stringRead {i' n : ℕ} (p : List UInt8) (moves : afterString q = some q') :
    ∃ t, Json.stringRead c (c.prepared .string) n i' p = .ok (.go ⟨t, e, i' + 1, p, n, i'⟩) ∧
      Moved e (i' + 1) q q' c.tree t := by
  obtain ⟨t, r, eq, added⟩ := place.adds bound string_leaf n i' fun o type end_ =>
    (resume_string type).trans (congrArg (· + 1) end_)
  have named (still : q'.InArray → q.InArray) :
      Moved e (i' + 1) q q' c.tree (c.tree.setState e q') := moved_setState e _ c.tree still
  unfold Json.stringRead
  rw [place.loop_state, place.ret, eq]
  cases q with
  | objectAfterColon =>
    obtain rfl := Option.some.inj moves
    exact ⟨_, rfl, added fun h => absurd h (not_inArray (.inr (.inl rfl)))⟩
  | objectAfterComma =>
    obtain rfl := Option.some.inj moves
    rw [place.plain .string nofun]
    exact ⟨_, rfl, named fun h => absurd h (not_inArray (.inr (.inr (.inl rfl))))⟩
  | arrayBody =>
    obtain rfl := Option.some.inj moves
    exact ⟨_, rfl, added fun _ => .inl rfl⟩
  | arrayAfterComma =>
    obtain rfl := Option.some.inj moves
    exact ⟨_, rfl, added fun _ => .inr (.inl rfl)⟩
  | objectBody =>
    obtain rfl := Option.some.inj moves
    rw [place.plain .string nofun]
    exact ⟨_, rfl, named fun h => absurd h (not_inArray (.inr (.inr (.inl rfl))))⟩
  | _ => exact nomatch moves

/-- **A token that stays in its container** moves the state, if the state expects it. -/
theorem Place.move {obj od stop : ℕ} (vend : (c.tree.stack obj).valueEnd = stop) {k : Token}
    (token : lex s = some (k, s')) (inside : c.tree.len ≤ stop + s'.length + 1)
    (moves : move k q = some q') :
    ∃ c', branch obj od stop c = .ok (.go c') ∧ Place c' e q' s' ∧
      Moved e c'.i q q' c.tree c'.tree := by
  cases k with
  | opening brace => exact nomatch moves
  | closing brace => exact nomatch moves
  | comma =>
    obtain ⟨b, rfl, class_⟩ := lex_byte token rfl
    rw [branch_cons place.p, class_]
    simp only [switch, comma, place.loop_state, place.ret]
    cases q with
    | arrayAfterMember =>
      obtain rfl := Option.some.inj moves
      exact ⟨_, rfl, place.on rfl fun _ => .inr (.inr rfl)⟩
    | objectAfterMember =>
      obtain rfl := Option.some.inj moves
      exact ⟨_, rfl, place.on rfl fun h => absurd h (not_inArray (.inr (.inr (.inr (.inl rfl)))))⟩
    | _ => exact nomatch moves
  | colon =>
    obtain ⟨b, rfl, class_⟩ := lex_byte token rfl
    rw [branch_cons place.p, class_]
    simp only [switch, colon, place.loop_state, place.ret]
    cases q with
    | objectAfterName =>
      obtain rfl := Option.some.inj moves
      exact ⟨_, rfl, place.on rfl fun h => absurd h (not_inArray (.inl rfl))⟩
    | _ => exact nomatch moves
  | blank =>
    obtain ⟨b, rfl, class_⟩ := lex_byte token rfl
    rw [branch_cons place.p, class_]
    obtain rfl := Option.some.inj moves
    have moved : Moved e (c.i + 1) q q c.tree c.tree :=
      ⟨Kept.refl e c.tree, place.state, .inl rfl, id⟩
    refine ⟨c.on (s' ++ [0]) c.tree, rfl, place.next place.ret rfl ?_ moved, moved⟩
    exact Nat.add_right_comm c.i 1 s'.length
  | string =>
    obtain ⟨body, rfl, quotes⟩ := lex_quotes token
    obtain ⟨t, eq, moved⟩ := place.stringRead bound (s' ++ [0]) moves
    rw [branch_string place.p place.i vend quotes rfl inside od]
    refine ⟨_, eq, place.next rfl rfl ?_ moved, moved⟩
    simp only [List.length_cons, List.length_append]
    omega
  | scalar type =>
    obtain rfl := Option.some.inj moves
    obtain ⟨i', n, eq, end_⟩ := branch_scalar place.p token obj od stop
    rw [eq]
    exact place.scalar bound (lex_type token) end_

end Moves

section Branch

variable {c : Loop} {e : ℕ} {q : St} {s : List UInt8} (at_ : At c e q s) (bound : e ≤ maxDepth)
include at_

include bound

theorem branch_move {obj od stop : ℕ} (vend : (c.tree.stack obj).valueEnd = stop) {k : Token}
    {s' : List UInt8} (token : lex s = some (k, s')) (inside : c.tree.len ≤ stop + s'.length)
    {q' : St} (moves : move k q = some q') :
    ∃ c', branch obj od stop c = .ok (.go c') ∧ At c' e q' s' ∧ Kept e c.tree c'.tree := by
  obtain ⟨c', eq, place, moved⟩ :=
    at_.place.move bound vend token (Nat.le_succ_of_le inside) moves
  exact ⟨c', eq, ⟨place.ret, place.p, place.i, place.state, moved.calm at_.calm, place.depths⟩,
    moved.kept⟩

/-! Where the member in preparation fits, a value is added under its name. -/

/-- The type that an object has in front of a value, or else what it has prepared. -/
def Loop.Fits (c : Loop) (e : ℕ) (q : St) : Prop :=
  if q = .objectAfterColon then (c.tree.stack e).type = .object
  else (c.tree.stack e).childType = .undefined

theorem added_ok (fits : c.Fits e q) (type : Ty) (i j : ℕ) :
    ∃ t q', addMember (c.prepared type) e type i j = .ok (t, 0) ∧
      Added c.tree t e q' type (c.name e q) (i, j) := by
  have kept := kept_prepared c type
  rw [at_.ret] at kept
  have prepared := at_.place.prepared_type type
  have takes : ((c.prepared type).stack e).Takes type := by
    unfold Loop.Fits at fits
    split_ifs at fits prepared with colon
    · have same : ((c.prepared type).stack e).type = (c.tree.stack e).type := kept.type
      exact .inr ⟨prepared, same.trans fits⟩
    · exact .inl (prepared.trans fits)
  obtain ⟨t, q', eq, added⟩ :=
    addMember_ok (kept.depths at_.depths e (Nat.le_refl e)) bound takes i j
  rw [at_.place.prepared_name] at added
  exact ⟨t, q', eq, kept.trans added.kept, added.state,
    added.count.trans (congrArg (· + 1) (prepared_count c type e)), added.childType,
    added.childName, added.member⟩

omit bound in
theorem added_calm {t : Tree} {q' : St} {type : Ty} {value : ℕ × ℕ}
    (added : Added c.tree t e q' type (c.name e q) value) (still : q'.InArray → q.InArray) :
    Calm (t.stack e) q' :=
  .of_undefined added.childType fun array => added.childName.trans (at_.calm.name (still array))

/-- A number or a keyword that fits. -/
theorem scalar_ok (fits : c.Fits e q) {type : Ty} {s' : List UInt8}
    (token : lex s = some (.scalar type, s')) (obj od stop : ℕ) :
    ∃ c', branch obj od stop c = .ok (.go c') ∧ At c' e .objectAfterMember s' ∧
      Added c.tree c'.tree e .objectAfterMember type (c.name e q) (c.i, c'.i) := by
  obtain ⟨i', n, branched, place⟩ := branch_scalar at_.p token obj od stop
  obtain ⟨t, q', eq, added⟩ := added_ok at_ bound fits type c.i i'
  have all := added.setState .objectAfterMember
  refine ⟨⟨t.setState e .objectAfterMember, e, i', s' ++ [0], n, c.nameEnd⟩, ?_, ?_, all⟩
  · rw [branched, scalar, at_.ret, eq]
    rfl
  · exact at_.next rfl rfl place all.kept all.state
      (added_calm at_ all fun h => absurd h (not_inArray (.inr (.inl rfl))))

/-- A string that is a value and fits. -/
theorem string_ok (fits : c.Fits e q) {q' : St} (moves : afterNode q = some q') {obj stop : ℕ}
    (vend : (c.tree.stack obj).valueEnd = stop) {body u : List UInt8} (quotes : Quoted body)
    (text : s = quote :: (body ++ quote :: u)) (inside : c.tree.len ≤ stop + u.length + 1)
    (od : ℕ) : ∃ c', branch obj od stop c = .ok (.go c') ∧ At c' e q' u ∧
      Added c.tree c'.tree e q' .string (c.name e q) (c.i + 1, c.i + 1 + body.length) := by
  obtain ⟨t, _, eq, added⟩ := added_ok at_ bound fits .string (c.i + 1) (c.i + 1 + body.length)
  have all := added.setState q'
  refine ⟨⟨t.setState e q', e, c.i + 1 + body.length + 1, u ++ [0], c.i + 1,
    c.i + 1 + body.length⟩, ?_, at_.next rfl rfl ?_ all.kept all.state
      (added_calm at_ all (afterNode_array moves)), all⟩
  · rw [branch_string at_.p at_.i vend quotes text inside od]
    unfold stringRead
    rw [at_.loop_state, at_.ret, eq]
    cases q with
    | objectAfterColon =>
      obtain rfl := Option.some.inj moves
      rfl
    | arrayBody =>
      obtain rfl := Option.some.inj moves
      rfl
    | arrayAfterComma =>
      obtain rfl := Option.some.inj moves
      rfl
    | _ => exact nomatch moves
  · rw [text, List.length_cons, List.length_append, List.length_cons]
    change c.i + 1 + body.length + 1 + u.length = _
    omega

end Branch

/-! ## Brackets -/

/-- A slot that a push has just taken: its depth, its name and where it starts. -/
structure Fresh (o : Obj) (depth : ℕ) (name : ℕ × ℕ) (start : ℕ) : Prop where
  depth : o.depth = depth
  name : (o.nameStart, o.nameEnd) = name
  start : o.valueStart = start
  count : o.count = 0
  childName : (o.childNameS, o.childNameE) = (0, 0)
  childType : o.childType = .undefined

/-- A slot that has handed the member in preparation to the slot above. -/
structure Pushing (o o' : Obj) : Prop where
  state : o'.state = o.state
  count : o'.count = o.count + 1
  childType : o'.childType = .undefined
  childName : (o'.childNameS, o'.childNameE) = (o.childNameS, o.childNameE)

theorem push_ok {t : Tree} {e : ℕ} (depth : (t.stack e).depth = e) (room : e < maxDepth) (i : ℕ) :
    ∃ t', push t e i = .ok (t', some (e + 1)) ∧ Kept e t t' ∧
      Pushing (t.stack e) (t'.stack e) ∧
      Fresh (t'.stack (e + 1)) (e + 1) (if (t.stack e).childType = .undefined then (0, 0)
        else ((t.stack e).childNameS, (t.stack e).childNameE)) (i + 1) := by
  have above := Nat.lt_succ_self e
  have other := Nat.ne_of_lt above
  unfold push
  simp only [depth]
  rw [if_neg (Nat.not_le.mpr room), slot_ok t (by omega)]
  by_cases none : (t.stack e).childType = .undefined
  · rw [if_pos none]
    refine ⟨_, if_neg (not_not.mpr none), ⟨rfl, rfl, fun k hk => ?_, ?_⟩, ⟨?_, ?_, ?_, ?_⟩, ?_⟩
    · rw [set_stack_of_ne _ (by omega), set_stack_of_ne _ (by omega)]
    · rw [set_stack_of_ne _ other, set_stack]
      simp only [Obj.core, depth]
    · rw [set_stack_of_ne _ other, set_stack]
    · rw [set_stack_of_ne _ other, set_stack]
    · rw [set_stack_of_ne _ other, set_stack]
      exact none
    · rw [set_stack_of_ne _ other, set_stack]
    · rw [set_stack]
      exact ⟨rfl, rfl, rfl, rfl, rfl, rfl⟩
  · rw [if_neg none]
    refine ⟨_, if_pos none, ⟨rfl, rfl, fun k hk => ?_, ?_⟩, ⟨?_, ?_, ?_, ?_⟩, ?_⟩
    · rw [set_stack_of_ne _ (by omega), set_stack_of_ne _ (by omega), set_stack_of_ne _ (by omega)]
    · rw [set_stack, set_stack_of_ne _ other, set_stack]
      simp only [Obj.core, depth]
    · rw [set_stack, set_stack_of_ne _ other, set_stack]
    · rw [set_stack, set_stack_of_ne _ other, set_stack]
    · rw [set_stack]
    · rw [set_stack, set_stack_of_ne _ other, set_stack]
    · rw [set_stack_of_ne _ other.symm, set_stack]
      exact ⟨rfl, rfl, rfl, rfl, rfl, rfl⟩

/-- The loop behind an opening bracket at slot `e`: one slot higher, in a fresh object. -/
structure Opened (c c' : Loop) (e : ℕ) (q : St) (brace : Bool) (name : ℕ × ℕ) (s : List UInt8) :
    Prop where
  at_ : At c' (e + 1) (bodyState brace) s
  kept : Kept e c.tree c'.tree
  state : (c'.tree.stack e).state = q
  count : (c'.tree.stack e).count = (c.tree.stack e).count + 1
  childType : (c'.tree.stack e).childType = .undefined
  calm : Calm (c'.tree.stack e) q
  fresh : Fresh (c'.tree.stack (e + 1)) (e + 1) name (c.i + 1)
  type : (c'.tree.stack (e + 1)).type = nodeType brace

/-- The state of the parent behind an opening bracket, where one is expected. -/
def opens (brace : Bool) : St → Option St
  | .init => if brace then some .objectAfterMember else none
  | q => afterNode q

/-- The loop behind an opening bracket at slot `e`, pushed in the tree `t`. -/
structure Entered (c c' : Loop) (t : Tree) (e : ℕ) (q : St) (brace : Bool) (s : List UInt8) :
    Prop where
  at_ : At c' (e + 1) (bodyState brace) s
  kept : Kept e c.tree c'.tree
  state : (c'.tree.stack e).state = q
  count : (c'.tree.stack e).count = (t.stack e).count + 1
  childType : (c'.tree.stack e).childType = .undefined
  childName : ((c'.tree.stack e).childNameS, (c'.tree.stack e).childNameE) =
    ((t.stack e).childNameS, (t.stack e).childNameE)
  fresh : Fresh (c'.tree.stack (e + 1)) (e + 1)
    (if (t.stack e).childType = .undefined then (0, 0)
      else ((t.stack e).childNameS, (t.stack e).childNameE)) (c.i + 1)
  type : (c'.tree.stack (e + 1)).type = nodeType brace

section Opening

variable {c : Loop} {e : ℕ} {q q' : St} {s s' : List UInt8} {b : UInt8}

/-- The push, from a tree in which the parent's state is written. -/
theorem opened_ok (place : Place c e q s) (text : s = b :: s') (brace : Bool) {t : Tree}
    (kept : Kept e c.tree t) (room : e < maxDepth) (q' : St) :
    ∃ c', opened brace c (s' ++ [0]) (t.setState e q') = .ok (.go c') ∧
      Entered c c' t e q' brace s' := by
  have other := Nat.ne_of_lt (Nat.lt_succ_self e)
  have kept := kept.trans (kept_setState e t q')
  obtain ⟨t', eq, kept', pushing, fresh⟩ :=
    push_ok (kept.depths place.depths e (Nat.le_refl e)) room c.i
  have all := kept.trans kept'
  rw [setState_stack] at pushing fresh
  unfold opened
  rw [place.ret, eq]
  refine ⟨_, rfl, ⟨rfl, rfl, ?_, ?_, ?_, fun k hk => ?_⟩, ?_, ?_, ?_, ?_, ?_, ?_, ?_⟩
  · have end_ := place.i
    rw [text, List.length_cons] at end_
    change c.i + 1 + s'.length = t'.len
    rw [all.len]
    omega
  · exact congrArg Obj.state (set_stack t' (e + 1) _)
  · change Calm ((t'.set (e + 1) _).stack (e + 1)) _
    rw [set_stack]
    exact .of_undefined fresh.childType fun _ => fresh.childName
  · change ((t'.set (e + 1) _).stack k).depth = k
    rcases Nat.lt_or_eq_of_le hk with below | rfl
    · rw [set_stack_of_ne t' (Nat.ne_of_lt below)]
      exact all.depths place.depths k (Nat.le_of_lt_succ below)
    · rw [set_stack]
      exact fresh.depth
  · exact all.trans (kept_set_above (Nat.lt_succ_self e) t' _)
  · change ((t'.set (e + 1) _).stack e).state = q'
    rw [set_stack_of_ne t' other, pushing.state]
  · change ((t'.set (e + 1) _).stack e).count = _
    rw [set_stack_of_ne t' other, pushing.count]
  · change ((t'.set (e + 1) _).stack e).childType = _
    rw [set_stack_of_ne t' other, pushing.childType]
  · change (((t'.set (e + 1) _).stack e).childNameS, ((t'.set (e + 1) _).stack e).childNameE) = _
    rw [set_stack_of_ne t' other, pushing.childName]
  · change Fresh ((t'.set (e + 1) _).stack (e + 1)) _ _ _
    rw [set_stack]
    exact ⟨fresh.depth, fresh.name, fresh.start, fresh.count, fresh.childName, fresh.childType⟩
  · exact congrArg Obj.type (set_stack t' (e + 1) _)

/-- **An opening bracket** is a push where the state expects a value and there is a slot. -/
theorem Place.opening (place : Place c e q s) (text : s = b :: s') (brace : Bool)
    (room : e < maxDepth) (moves : opens brace q = some q') :
    ∃ c', Json.opening brace c (s' ++ [0]) = .ok (.go c') ∧
      Entered c c' (c.prepared (nodeType brace)) e q' brace s' := by
  have kept := kept_prepared c (nodeType brace)
  rw [place.ret] at kept
  obtain ⟨c', eq, entered⟩ := opened_ok place text brace kept room q'
  have plain := place.plain (nodeType brace)
  refine ⟨c', Eq.trans ?_ eq, entered⟩
  unfold Json.opening
  rw [place.loop_state, place.ret]
  cases q with
  | init =>
    cases brace with
    | false => exact nomatch moves
    | true =>
      obtain rfl := Option.some.inj moves
      rw [plain nofun]
      rfl
  | objectAfterColon =>
    obtain rfl := Option.some.inj moves
    rfl
  | arrayBody =>
    obtain rfl := Option.some.inj moves
    rw [plain nofun]
    rfl
  | arrayAfterComma =>
    obtain rfl := Option.some.inj moves
    rw [plain nofun]
    rfl
  | _ => exact nomatch moves

/-- An opening bracket leads to a state of an array only from one. -/
theorem opens_array {brace : Bool} (moves : opens brace q = some q') (array : q'.InArray) :
    q.InArray := by
  cases q with
  | init =>
    cases brace with
    | false => exact nomatch moves
    | true =>
      obtain rfl := Option.some.inj moves
      exact absurd array (not_inArray (.inr (.inl rfl)))
  | _ => exact afterNode_array moves array

/-- **A container is named** by what is read before a colon, and not where nothing is in
preparation. -/
theorem opening_ok (at_ : At c e q s) (text : s = b :: s') (brace : Bool) (room : e < maxDepth)
    (moves : opens brace q = some q') :
    ∃ c' name, opening brace c (s' ++ [0]) = .ok (.go c') ∧ Opened c c' e q' brace name s' ∧
      ((c'.tree.stack e).childNameS, (c'.tree.stack e).childNameE) = c.name e q ∧
      (c.Fits e q → name = if q = .objectAfterColon then (c.nameStart, c.nameEnd) else (0, 0)) := by
  obtain ⟨c', eq, entered⟩ := at_.place.opening text brace room moves
  have child := entered.childName.trans (at_.place.prepared_name (nodeType brace))
  refine ⟨c', _, eq, ⟨entered.at_, entered.kept, entered.state, ?_, entered.childType, ?_,
    entered.fresh, entered.type⟩, child, fun fits => ?_⟩
  · rw [entered.count, prepared_count]
  · exact .of_undefined entered.childType fun array =>
      child.trans (at_.calm.name (opens_array moves array))
  · have type : nodeType brace ≠ .undefined := by cases brace <;> decide
    rw [at_.place.prepared_name, at_.place.prepared_type]
    unfold Loop.Fits at fits
    unfold Loop.name
    split_ifs at fits ⊢ with colon
    · rfl
    · rfl

end Opening

/-- The loop behind the closing bracket of slot `d + 1`: back at slot `d`, which is as it was. -/
structure Closed (c c' : Loop) (d : ℕ) (brace : Bool) (s : List UInt8) : Prop where
  ret : c'.ret = d
  p : c'.p = s ++ [0]
  i : c'.i + s.length = c.tree.len
  buf : c'.tree.buf = c.tree.buf
  len : c'.tree.len = c.tree.len
  below : ∀ k ≤ d, c'.tree.stack k = c.tree.stack k
  core : (c'.tree.stack (d + 1)).core =
    { c.tree.stack (d + 1) with valueEnd := c'.i - 2 }.core
  calm : ∃ q, closable brace q = true ∧ Calm (c'.tree.stack (d + 1)) q

/-- A container that has been opened and closed: its type, its name and its value. -/
theorem Closed.node {c c₁ c' : Loop} {e : ℕ} {q : St} {brace last : Bool} {name : ℕ × ℕ}
    {s s' : List UInt8} (opened : Opened c c₁ e q brace name s) (closed : Closed c₁ c' e last s') :
    (c'.tree.stack (e + 1)).core =
      (e + 1, nodeType brace, name.1, name.2, c.i + 1, c'.i - 2) := by
  have fresh := opened.fresh
  have core := closed.core
  obtain ⟨i, j⟩ := name
  obtain ⟨nameStart, nameEnd⟩ := Prod.mk.inj fresh.name
  simp only [Obj.core, fresh.depth, opened.type, nameStart, nameEnd, fresh.start] at core
  exact core

/-- **A closing bracket** of the kind that the state expects is a pop. -/
theorem closing_ok {c : Loop} {d od : ℕ} {q : St} {s s' : List UInt8} (at_ : At c (d + 1) q s)
    {b : UInt8} (text : s = b :: s') {brace : Bool} (closes : closable brace q = true)
    (pos : 0 < c.i) (bound : d ≤ maxDepth) (above : od ≤ d) :
    ∃ c', closing brace od c (s' ++ [0]) = .ok (.go c') ∧ Closed c c' d brace s' := by
  have depth := at_.depth
  have other := Nat.ne_of_lt (Nat.lt_succ_self d)
  have popped : pop c.tree (d + 1) c.i = .ok (c.tree.set (d + 1)
      { c.tree.stack (d + 1) with valueEnd := c.i - 1 }, some d) := by
    unfold pop
    simp only [depth]
    rw [if_neg (by omega), if_neg (Nat.ne_of_gt pos), Nat.add_sub_cancel, slot_ok _ (by omega)]
    rfl
  have place := at_.i
  rw [text, List.length_cons] at place
  have own : ∀ o, (c.tree.set (d + 1) o).stack d = c.tree.stack d := set_stack_of_ne c.tree other
  unfold closing
  rw [at_.loop_state, at_.ret, popped, closes]
  refine ⟨{ c.on (s' ++ [0]) (c.tree.set (d + 1)
    { c.tree.stack (d + 1) with valueEnd := c.i - 1 }) with ret := d }, ?_, rfl, rfl, ?_, rfl, rfl,
    fun k hk => ?_, ?_, q, closes, ?_⟩
  · have deep : ¬ ((c.tree.set (d + 1)
        { c.tree.stack (d + 1) with valueEnd := c.i - 1 }).stack d).depth < od := by
      rw [own, at_.depths d (Nat.le_succ d)]
      exact Nat.not_lt.mpr above
    refine (if_neg (by decide)).trans ?_
    change Except.ok (Next.go { c.on (s' ++ [0]) (ite _ _ _) with ret := d }) = _
    rw [if_neg deep]
  · change c.i + 1 + s'.length = c.tree.len
    omega
  · exact set_stack_of_ne c.tree (by omega) _
  · exact congrArg Obj.core (set_stack c.tree (d + 1) _)
  · change Calm ((c.tree.set (d + 1) _).stack (d + 1)) q
    rw [set_stack]
    exact ⟨at_.calm.array, at_.calm.object⟩

/-! ## Where the loop is entered -/

/-- Where `json__get` begins. -/
def begins (t : Tree) (obj : ℕ) : Option ℕ → ℕ
  | some child => resume (t.stack child)
  | none => (t.stack obj).valueStart

/-- The loop as `json__get` enters it. -/
def entry (t : Tree) (obj : ℕ) (child : Option ℕ) : Loop :=
  ⟨t.set obj { t.stack obj with count := 0 }, obj, begins t obj child,
    t.buf.drop (begins t obj child), 0, 0⟩

/-- The tree that `json__get_next` hands on. -/
def prime (t : Tree) (obj : ℕ) (child : Option ℕ) : Tree :=
  t.set obj { t.stack obj with
    state :=
      if child.isSome then (t.stack obj).state
      else if (t.stack obj).type = .objectArray then .arrayBody
      else if (t.stack obj).type = .object then .objectBody
      else .init
    count := 0 }

theorem begins_prime (t : Tree) (e : ℕ) (child : Option ℕ) :
    begins (prime t e child) e child = begins t e child := by
  have cores (j : ℕ) : ((prime t e child).stack j).core = (t.stack j).core := by
    refine set_core ?_ j
    rfl
  cases child with
  | none => exact valueStart_of_core (cores e)
  | some k => exact resume_same (cores k)

section Round

variable {obj od stop n : ℕ} {c c' : Loop}

/-- One round that ends in an error. -/
theorem rounds_error {t : Tree} (below : c.i < stop)
    (eq : branch obj od stop c = .ok (.error t)) :
    rounds obj od stop (n + 1) c = .ok (t, some 0) := by
  rw [rounds, if_pos below, eq]
  rfl

/-- One round behind which the checks end the loop. -/
theorem rounds_checked {result : Option ℕ} (below : c.i < stop)
    (eq : branch obj od stop c = .ok (.go c')) (checked : check od c' = some result) :
    rounds obj od stop (n + 1) c = .ok (c'.tree, result) := by
  rw [rounds, if_pos below, eq]
  simp only [bind, Except.bind, checked]

/-- One round behind which the loop goes on. -/
theorem rounds_go (below : c.i < stop) (eq : branch obj od stop c = .ok (.go c'))
    (checked : check od c' = none) :
    rounds obj od stop (n + 1) c = rounds obj od stop n c' := by
  rw [rounds, if_pos below, eq]
  simp only [bind, Except.bind, checked]

end Round

/-- `json__get` is the loop from there. -/
theorem get_entry {t : Tree} {d : ℕ} (depth : (t.stack d).depth = d) (room : d < maxDepth)
    (child : Option ℕ) :
    get t d child = rounds d d (t.stack d).valueEnd
      ((t.stack d).valueEnd - begins t d child) (entry t d child) := by
  have shallow : ¬maxDepth ≤ (t.stack d).depth := by
    rw [depth]
    exact Nat.not_le.2 room
  cases child with
  | none =>
    exact (if_neg shallow).trans
      (congrArg (fun od => rounds d od (t.stack d).valueEnd _ _) depth)
  | some child =>
    exact (if_neg shallow).trans
      (congrArg (fun od => rounds d od (t.stack d).valueEnd _ _) depth)

/-! ## The visitor -/

/-- A container is known by its type. -/
theorem node_type (brace : Bool) : (nodeType brace).Container := by
  cases brace
  · exact .inr rfl
  · exact .inl rfl

section Visitor

variable {σ : Type} {cb : Tree → ℕ → σ → ℤ × σ} {fuel k : ℕ} {t t' : Tree} {u : σ}

/-- The visit of what is no container calls back. -/
theorem visitor_leaf (leaf : ¬(t.stack k).type.Container) :
    visitor cb (fuel + 1) t k u = .ok ((cb t k u).1, t, (cb t k u).2) := by
  unfold Ty.Container at leaf
  unfold visitor
  rw [if_pos (not_or.1 leaf)]

/-- The visit of a container, behind the search for its first member. -/
theorem visitor_container {result : Option ℕ} (type : (t.stack k).type.Container)
    (first : getNext t k none = .ok (t', result)) :
    visitor cb (fuel + 1) t k u = (do
      let (r, t, s) ← visitMembers (visitor cb fuel) k fuel result t' u
      if r ≠ 0 then .ok (r, t, s) else .ok ((cb t k s).1, t, (cb t k s).2)) := by
  have members : ¬((t.stack k).type ≠ .object ∧ (t.stack k).type ≠ .objectArray) :=
    fun leaf => type.elim leaf.1 leaf.2
  rw [visitor, if_neg members, first]
  rfl

end Visitor

/-- The end of a loop over members. -/
theorem visitMembers_none {σ : Type} {e n : ℕ} {t : Tree} {log : σ}
    (visit : Tree → ℕ → σ → M (ℤ × Tree × σ)) :
    visitMembers visit e n none t log = .ok (0, t, log) := by
  cases n <;> rfl

/-- One member visited, and the next one looked for. -/
theorem visitMembers_some {σ : Type} {e n child : ℕ} {t t' t'' : Tree} {log log' : σ}
    {o : Option ℕ} {visit : Tree → ℕ → σ → M (ℤ × Tree × σ)}
    (visited : visit t child log = .ok (0, t', log'))
    (next : getNext t' e (some child) = .ok (t'', o)) :
    visitMembers visit e (n + 1) (some child) t log = visitMembers visit e n o t'' log' := by
  rw [visitMembers, visited]
  simp only [bind, Except.bind, ne_eq, not_true_eq_false, if_false, next]

/-- A member whose visit runs out of fuel. -/
theorem visitMembers_out {σ : Type} {e child : ℕ} {t : Tree} {log : σ}
    {visit : Tree → ℕ → σ → M (ℤ × Tree × σ)} (out : visit t child log = .error .fuel) (n : ℕ) :
    visitMembers visit e n (some child) t log = .error .fuel := by
  cases n with
  | zero => rfl
  | succ n =>
    rw [visitMembers, out]
    rfl

end Teres.Tools.Json
