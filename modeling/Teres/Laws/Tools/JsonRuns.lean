import Teres.Laws.Tools.JsonScan

/-!
# Reading containers

`Runs c r` says that the loop at `c` has the result `r`, whatever number of rounds it is given
beyond what it needs. The rules follow one round (`Runs.step`, `Runs.done`), and `reads_loose` the
derivations of `Loose`: a container of the larger language is read whole, and the loop is where
`Closed` says, at the slot below. `loose_or_rejects` is the converse: a loop inside a container
reads the rest of one, or returns an error or nothing.
-/

namespace Teres.Tools.Json

variable {od stop : ℕ}

/-! ## The loop without its count -/

/-- The loop at `c` has the result `r`. -/
def Runs (od stop : ℕ) (c : Loop) (r : M (Tree × Option ℕ)) : Prop :=
  ∀ n, stop ≤ c.i + n → rounds od od stop n c = r

/-- The checks at `c`, and the loop if they let it go on, have the result `r`. -/
def Checks (od stop : ℕ) (c : Loop) (r : M (Tree × Option ℕ)) : Prop :=
  match check od c with
  | some result => r = .ok (c.tree, result)
  | none => Runs od stop c r

/-- The loop stops at the end of its range. -/
theorem Runs.done {c : Loop} (h : stop ≤ c.i) : Runs od stop c (.ok (c.tree, found od c)) := by
  intro n _
  cases n with
  | zero => rfl
  | succ n => exact if_neg (Nat.not_lt.mpr h)

/-- One round that goes on. -/
theorem Runs.step {c c' : Loop} {r : M (Tree × Option ℕ)} (below : c.i < stop)
    (eq : branch od od stop c = .ok (.go c')) (later : c.i < c'.i) (h : Checks od stop c' r) :
    Runs od stop c r := by
  intro n bound
  cases n with
  | zero => exact absurd bound (Nat.not_le.mpr below)
  | succ n =>
    unfold Checks at h
    cases checked : check od c' with
    | some result =>
      rw [checked] at h
      exact (rounds_checked below eq checked).trans h.symm
    | none =>
      rw [checked] at h
      exact (rounds_go below eq checked).trans (h n (by omega))

/-- One round that ends in an error. -/
theorem Runs.error {c : Loop} {t : Tree} (below : c.i < stop)
    (eq : branch od od stop c = .ok (.error t)) : Runs od stop c (.ok (t, some 0)) := by
  intro n bound
  cases n with
  | zero => exact absurd bound (Nat.not_le.mpr below)
  | succ n => exact rounds_error below eq

/-- White space is passed over, where the checks let the loop go on. -/
theorem Runs.blanks {space k : List UInt8} (blank : Blank space) {c : Loop} (p : c.p = space ++ k)
    (inside : c.i + space.length ≤ stop) (going : check od c = none) {r : M (Tree × Option ℕ)}
    (h : Runs od stop { c with i := c.i + space.length, p := k } r) : Runs od stop c r := by
  induction space generalizing c with
  | nil =>
    obtain rfl : c.p = k := p
    exact h
  | cons b space ih =>
    have class_ := blank b List.mem_cons_self
    have step : branch od od stop c = .ok (.go (c.on (space ++ k) c.tree)) := by
      rw [branch_cons p, class_]
      rfl
    rw [List.length_cons] at inside h
    refine Runs.step (by omega) step (Nat.lt_succ_self c.i) ?_
    have going' : check od (c.on (space ++ k) c.tree) = none := going
    unfold Checks
    rw [going']
    refine ih (fun d hd => blank d (List.mem_cons_of_mem b hd)) rfl ?_ going' ?_
    · change c.i + 1 + space.length ≤ stop
      omega
    · rw [Nat.add_comm space.length 1, ← Nat.add_assoc] at h
      exact h

theorem found_eq (c : Loop) : found od c =
    if (c.tree.stack c.ret).depth = od ∧ (c.tree.stack c.ret).count = 1 then
      some ((c.tree.stack c.ret).depth + 1)
    else none := rfl

/-- Above the slot that is read, the checks let the loop go on. -/
theorem check_deep {c : Loop} {e : ℕ} {q : St} {s : List UInt8} (at_ : At c e q s) (deep : od < e)
    (going : q ≠ .stateEnd) : check od c = none := by
  have notFound : found od c = none := by
    rw [found_eq, at_.ret, at_.depth]
    exact if_neg fun h => Nat.ne_of_gt deep h.1
  unfold check
  rw [notFound, at_.loop_state, at_.ret, at_.depth]
  rw [if_neg (by decide), if_neg (Nat.not_lt.mpr (Nat.le_of_lt deep)), if_neg going]

/-- At the slot that is read, the checks let the loop go on without a member. -/
theorem Place.own {c : Loop} {e : ℕ} {q : St} {s : List UInt8} (place : Place c e q s)
    (count : (c.tree.stack e).count = 0) (going : q ≠ .stateEnd) : check e c = none := by
  have notFound : found e c = none := by
    rw [found_eq, place.ret, count]
    exact if_neg fun h => nomatch h.2
  unfold check
  rw [notFound, place.loop_state, place.ret, place.depths e (Nat.le_refl e)]
  rw [if_neg (by decide), if_neg (Nat.lt_irrefl e), if_neg going]

/-- With the first member, they return it. -/
theorem Place.first {c : Loop} {e : ℕ} {q : St} {s : List UInt8} (place : Place c e q s)
    (count : (c.tree.stack e).count = 1) : check e c = some (some (e + 1)) := by
  have isFound : found e c = some (e + 1) := by
    rw [found_eq, place.ret, count, place.depths e (Nat.le_refl e)]
    exact if_pos ⟨rfl, rfl⟩
  unfold check
  rw [isFound]
  rfl

theorem check_own {c : Loop} {e : ℕ} {q : St} {s : List UInt8} (at_ : At c e q s)
    (count : (c.tree.stack e).count = 0) (going : q ≠ .stateEnd) : check e c = none :=
  at_.place.own count going

theorem check_found {c : Loop} {e : ℕ} {q : St} {s : List UInt8} (at_ : At c e q s)
    (count : (c.tree.stack e).count = 1) : check e c = some (some (e + 1)) :=
  at_.place.first count

/-- The states of a container. -/
def St.Inner (q : St) : Prop := q ≠ .init ∧ q ≠ .stateEnd

theorem inner_bodyState (brace : Bool) : (bodyState brace).Inner := by
  cases brace <;> exact ⟨by decide, by decide⟩

/-- A token leads from a state of a container to another. -/
theorem move_inner {k : Token} {q q' : St} (h : move k q = some q') (inner : q.Inner) :
    q'.Inner := by
  unfold St.Inner at inner ⊢
  cases k <;> cases q <;> simp_all [move, afterString] <;> (subst h; decide)

theorem afterNode_inner {q q' : St} (h : afterNode q = some q') : q'.Inner := by
  unfold St.Inner
  cases q <;> simp_all [afterNode] <;> (subst h; decide)

/-- Inside a container, brackets open where `afterNode` says. -/
theorem opens_inner {q : St} (inner : q.Inner) (brace : Bool) : opens brace q = afterNode q := by
  cases q with
  | init => exact absurd rfl inner.1
  | _ => rfl

/-- `json__get` is the loop from where it is entered. -/
theorem get_runs {t : Tree} {e : ℕ} {child : Option ℕ} (depth : (t.stack e).depth = e)
    (room : e < maxDepth) {r : M (Tree × Option ℕ)}
    (h : Runs e (t.stack e).valueEnd (entry t e child) r) : get t e child = r := by
  refine (get_entry depth room child).trans (h _ ?_)
  change _ ≤ begins t e child + _
  omega

/-- So is `json__get_next`, with the state of the object written. -/
theorem getNext_enters {t : Tree} {e : ℕ} (depth : (t.stack e).depth = e) (room : e < maxDepth)
    (child : Option ℕ) : ∃ c : Loop, c.ret = e ∧ c.i = begins t e child ∧
      c.p = t.buf.drop (begins t e child) ∧ Kept e t c.tree ∧
      c.tree.stack e =
        { t.stack e with state := ((prime t e child).stack e).state, count := 0 } ∧
      ∀ {r}, Runs e (t.stack e).valueEnd c r → getNext t e child = r := by
  have primed : Kept e t (prime t e child) := kept_set rfl
  have slot : (prime t e child).stack e =
      { t.stack e with state := ((prime t e child).stack e).state, count := 0 } := by
    unfold prime
    rw [set_stack]
  have same := begins_prime t e child
  refine ⟨entry (prime t e child) e child, rfl, same, ?_, primed.trans (kept_set rfl), ?_,
    fun {r} runs => ?_⟩
  · change (prime t e child).buf.drop (begins (prime t e child) e child) = _
    rw [same, primed.buf]
  · refine (set_stack ..).trans ?_
    rw [slot]
  · have depth' : ((prime t e child).stack e).depth = e :=
      (congrArg Obj.depth slot).trans depth
    rw [← primed.valueEnd] at runs
    exact get_runs depth' room runs

/-! ## Containers -/

/-- A derivation takes at least its closing bracket. -/
theorem loose_length {proper : St → List UInt8 → Prop} {n : ℕ} {q : St} {s r : List UInt8}
    (h : Loose proper n q s r) :
    r.length < s.length := by
  induction h with
  | token token _ _ _ ih => exact Nat.lt_trans ih (lex_length token)
  | closing token _ => exact lex_length token
  | nested token _ _ _ inner outer =>
    exact Nat.lt_trans outer (Nat.lt_trans inner (lex_length token))

theorem core_valueEnd {o o' : Obj} (h : o'.core = o.core) (i : ℕ) :
    { o' with valueEnd := i }.core = { o with valueEnd := i }.core := by
  simp only [Obj.core, Prod.mk.injEq] at h ⊢
  exact ⟨h.1, h.2.1, h.2.2.1, h.2.2.2.1, h.2.2.2.2.1, trivial⟩

/-- What is closed after something was kept is closed. -/
theorem Closed.of_kept {c c₁ c' : Loop} {d : ℕ} {brace : Bool} {s : List UInt8}
    (kept : Kept (d + 1) c.tree c₁.tree) (h : Closed c₁ c' d brace s) : Closed c c' d brace s where
  ret := h.ret
  p := h.p
  i := h.i.trans kept.len
  buf := h.buf.trans kept.buf
  len := h.len.trans kept.len
  below k hk := (h.below k hk).trans (kept.below k (Nat.lt_succ_of_le hk))
  core := h.core.trans (core_valueEnd kept.core _)
  calm := h.calm

/-- What is closed above a slot leaves the slot. -/
theorem Closed.kept {c c' : Loop} {d : ℕ} {brace : Bool} {s : List UInt8}
    (h : Closed c c' d brace s) : Kept d c.tree c'.tree where
  buf := h.buf
  len := h.len
  below k hk := h.below k (Nat.le_of_lt hk)
  core := congrArg Obj.core (h.below d (Nat.le_refl d))

/-- Behind a container, the loop goes on in its parent. -/
theorem Closed.at_ {c c' : Loop} {d : ℕ} {q : St} {brace : Bool} {s : List UInt8}
    (h : Closed c c' d brace s) (state : (c.tree.stack d).state = q)
    (calm : Calm (c.tree.stack d) q) (depths : ∀ k ≤ d, (c.tree.stack k).depth = k) :
    At c' d q s where
  ret := h.ret
  p := h.p
  i := h.i.trans h.len.symm
  state := by rw [h.below d (Nat.le_refl d), state]
  calm := by rw [h.below d (Nat.le_refl d)]; exact calm
  depths := h.kept.depths depths

/-- The loop inside slot `d + 1`, in front of the bracket that closes it. -/
structure AtClosing (c c' : Loop) (d : ℕ) (brace : Bool) (s : List UInt8) : Prop where
  at_ : ∃ q, At c' (d + 1) q (closingByte brace :: s) ∧ closable brace q = true
  kept : Kept (d + 1) c.tree c'.tree
  later : c.i ≤ c'.i

section Containers

variable {proper : St → List UInt8 → Prop} {c : Loop} {d : ℕ} {q : St} {s s' : List UInt8}
  (above : od ≤ d)
include above

/-- From the closing bracket on, one round. -/
theorem closes_step (bound : d ≤ maxDepth) {c₁ : Loop} {brace : Bool}
    (h : AtClosing c c₁ d brace s') (pos : 0 < c.i) (inside : c.tree.len ≤ stop + s'.length) :
    ∃ c', Closed c c' d brace s' ∧ c₁.i < c'.i ∧
      ∀ r, Checks od stop c' r → Runs od stop c₁ r := by
  obtain ⟨⟨q, at₁, closes⟩, kept, later⟩ := h
  have place := at₁.i
  have len := kept.len
  rw [List.length_cons] at place
  obtain ⟨c', eq, closed⟩ := closing_ok at₁ rfl closes (by omega) bound above
  have place' := closed.i
  have step : branch od od stop c₁ = .ok (.go c') := by
    rw [branch_cons at₁.p, classify_closingByte]
    exact eq
  exact ⟨c', closed.of_kept kept, by omega, fun r h => Runs.step (by omega) step (by omega) h⟩

/-- **A container is read up to its closing bracket**, wherever a derivation of the larger language
reads it. -/
theorem reads_inside {n : ℕ} (h : Loose proper n q s s') (at_ : At c (d + 1) q s)
    (room : d + 1 + n ≤ maxDepth) (vend : (c.tree.stack od).valueEnd = stop)
    (inside : c.tree.len ≤ stop + s'.length + 1) (pos : 0 < c.i) (inner : q.Inner) :
    ∃ c' brace, AtClosing c c' d brace s' ∧ closingByte brace :: s' <:+ s ∧
      ∀ r, Runs od stop c' r → Runs od stop c r := by
  induction h generalizing c d with
  | @token n q q' s s₁ r k token _ moves rest ih =>
    have short := loose_length rest
    have shorter := lex_length token
    have place := at_.i
    obtain ⟨c₁, eq, at₁, kept⟩ : ∃ c₁, branch od od stop c = .ok (.go c₁) ∧ At c₁ (d + 1) q' s₁ ∧
        Kept (d + 1) c.tree c₁.tree :=
      branch_move at_ (by omega) vend token (by omega) moves
    have place₁ := at₁.i
    have len := kept.len
    have inner' := move_inner moves inner
    obtain ⟨c', last, h, ends, runs⟩ := ih above at₁ room
      (by rw [kept.below od (Nat.lt_succ_of_le above)]; exact vend) (by rw [len]; exact inside)
      (by omega) inner'
    refine ⟨c', last, ⟨h.at_, kept.trans h.kept, by have := h.later; omega⟩,
      ends.trans (lex_suffix token), fun result h => ?_⟩
    refine Runs.step (by omega) eq (by omega) ?_
    unfold Checks
    rw [check_deep at₁ (Nat.lt_succ_of_le above) inner'.2]
    exact runs result h
  | @closing n q s r brace token closes =>
    obtain ⟨b, rfl, class_⟩ := lex_byte token rfl
    obtain rfl := eq_closing class_
    exact ⟨c, brace, ⟨⟨q, at_, closes⟩, Kept.refl _ _, Nat.le_refl _⟩, List.suffix_refl _,
      fun _ h => h⟩
  | @nested n q q' s s₁ m r brace token moves inside' rest ihInside ihRest =>
    obtain ⟨b, rfl, class_⟩ := lex_byte token rfl
    have short := loose_length rest
    have shorter := loose_length inside'
    have place := at_.i
    rw [List.length_cons] at place
    obtain ⟨c₁, name, eq, opened, _⟩ :=
      opening_ok at_ rfl brace (by omega) ((opens_inner inner brace).trans moves)
    have p : c.p = b :: (s₁ ++ [0]) := at_.p
    have step : branch od od stop c = .ok (.go c₁) := by
      rw [branch_cons p, class_]
      exact eq
    have place₁ := opened.at_.i
    have len := opened.kept.len
    have body := inner_bodyState brace
    obtain ⟨c₂, _, h₂, ends₂, runs₂⟩ := ihInside (by omega) opened.at_ (by omega)
      (by rw [opened.kept.below od (Nat.lt_succ_of_le above)]; exact vend) (by omega) (by omega)
      body
    have wide : c₁.tree.len ≤ stop + m.length := by omega
    obtain ⟨c₃, closed, later, runs₃⟩ :=
      closes_step (Nat.le_succ_of_le above) (by omega) h₂ (by omega) wide
    have inner' := afterNode_inner moves
    have kept := opened.kept.trans closed.kept
    have at₃ : At c₃ (d + 1) q' m :=
      closed.at_ opened.state opened.calm (opened.kept.depths at_.depths)
    have place₃ := at₃.i
    have len₃ := kept.len
    obtain ⟨c', last, h, ends, runs⟩ := ihRest above at₃ room
      (by rw [kept.below od (Nat.lt_succ_of_le above)]; exact vend) (by omega) (by omega) inner'
    have behind : closingByte last :: r <:+ b :: s₁ :=
      (ends.trans ((List.suffix_cons _ m).trans ends₂)).trans (List.suffix_cons b s₁)
    refine ⟨c', last, ⟨h.at_, kept.trans h.kept, by have := h.later; omega⟩, behind,
      fun result h => ?_⟩
    refine Runs.step (by omega) step (by omega) ?_
    unfold Checks
    rw [check_deep opened.at_ (by omega) body.2]
    refine runs₂ result (runs₃ result ?_)
    unfold Checks
    rw [check_deep at₃ (by omega) inner'.2]
    exact runs result h

/-- **A container is read whole**, and the loop is back in its parent. -/
theorem reads_loose {n : ℕ} (h : Loose proper n q s s') (at_ : At c (d + 1) q s)
    (room : d + 1 + n ≤ maxDepth) (vend : (c.tree.stack od).valueEnd = stop)
    (inside : c.tree.len ≤ stop + s'.length) (pos : 0 < c.i) (inner : q.Inner) :
    ∃ c' brace, Closed c c' d brace s' ∧ closingByte brace :: s' <:+ s ∧
      ∀ r, Checks od stop c' r → Runs od stop c r := by
  obtain ⟨c₁, brace, h₁, ends, runs⟩ := reads_inside above h at_ room vend (by omega) pos inner
  obtain ⟨c', closed, _, runs'⟩ := closes_step above (by omega) h₁ pos inside
  exact ⟨c', brace, closed, ends, fun r h => runs r (runs' r h)⟩

end Containers

end Teres.Tools.Json
