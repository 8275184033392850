import Teres.Laws.Tools.JsonBounds
import Teres.Laws.Tools.JsonVisits

/-!
# Whether a visit ends

A visit reads a container again, member by member: what `json__get` gives is the first member of
what is left (`scans`), up to the last byte in front of the closing bracket. A container in the last
slot has no end of members: `json__get` refuses it with the undefined object, which the visitor
takes for a member, again and again (`last_never`).
-/

namespace Teres.Tools.Json

variable {n d : ℕ} {q : St} {s r : List UInt8}

/-! ## What a visit comes to -/

theorem Seen.loose (h : Seen n q s r d) : Loose Anywhere n q s r := by
  induction h with
  | token token moves _ ih => exact .token token trivial moves ih
  | closing token closable => exact .closing token closable
  | nested token moves _ _ _ inside rest => exact .nested token moves inside rest
  | hidden token moves _ closes closable inside =>
    exact .nested token moves inside (.closing closes closable)

/-- Every container of the larger language has such a depth. -/
theorem Loose.seen {proper : St → List UInt8 → Prop} (h : Loose proper n q s r) :
    ∃ d, Seen n q s r d := by
  induction h with
  | token token _ moves _ ih =>
    obtain ⟨d, seen⟩ := ih
    exact ⟨d, .token token moves seen⟩
  | closing token closable => exact ⟨0, .closing token closable⟩
  | @nested _ _ _ _ _ m r _ token moves _ rest inside outer =>
    obtain ⟨d, inside⟩ := inside
    obtain ⟨d', outer⟩ := outer
    by_cases closes : ∃ last m', lex m = some (.closing last, m')
    · obtain ⟨last, m', closes⟩ := closes
      cases rest with
      | token token' _ moves' =>
        obtain ⟨rfl, rfl⟩ := Prod.mk.inj (Option.some.inj (closes.symm.trans token'))
        cases moves'
      | closing token' closable => exact ⟨0, .hidden token moves inside token' closable⟩
      | nested token' => exact nomatch closes.symm.trans token'
    · exact ⟨_, .nested token moves inside outer fun last m' eq => closes ⟨last, m', eq⟩⟩

theorem Seen.suffix (h : Seen n q s r d) : r <:+ s := by
  induction h with
  | token token _ _ ih => exact ih.trans (lex_suffix token)
  | closing token _ => exact lex_suffix token
  | nested token _ _ _ _ inside rest => exact (rest.trans inside).trans (lex_suffix token)
  | hidden token _ _ closes _ inside =>
    exact ((lex_suffix closes).trans inside).trans (lex_suffix token)

/-- Each container that a visit comes to has two brackets. -/
theorem Seen.length (h : Seen n q s r d) : r.length + 2 * d + 1 ≤ s.length := by
  induction h with
  | token token _ _ ih => exact Nat.le_trans ih (Nat.le_of_lt (lex_length token))
  | closing token => exact lex_length token
  | nested token _ _ _ _ inside rest =>
    have first := lex_length token
    omega
  | hidden token _ inside closes =>
    have first := lex_length token
    have second := loose_length inside.loose
    have third := lex_length closes
    omega

/-- With one byte in front of the closing bracket, there is nothing to come to. -/
theorem Seen.short (h : Seen n q s r d) (short : s.length ≤ r.length + 2) : d = 0 := by
  have long := h.length
  omega

/-! ## One scan -/

/-- Slot `k` holds a container, with the text `s` behind its opening bracket and the text `r` behind
its closing one. -/
structure Holds (text : List UInt8) (t : Tree) (k : ℕ) (brace : Bool) (s r : List UInt8) :
    Prop where
  buf : t.buf = text ++ [0]
  len : t.len = text.length
  root : (t.stack 0).type = .undefined
  depths : ∀ j ≤ k, (t.stack j).depth = j
  type : (t.stack k).type = nodeType brace
  start : (t.stack k).valueStart + s.length = text.length
  pos : 0 < (t.stack k).valueStart
  ends : (t.stack k).valueEnd + r.length + 2 = text.length
  suffix : s <:+ text

variable {text : List UInt8}

theorem Holds.kept {t t' : Tree} {k : ℕ} {brace : Bool} (h : Holds text t k brace s r)
    (kept : Kept k t t') : Holds text t' k brace s r := by
  have core := kept.core
  simp only [Obj.core, Prod.mk.injEq] at core
  obtain ⟨_, type, _, _, valueStart, valueEnd⟩ := core
  refine ⟨kept.buf.trans h.buf, kept.len.trans h.len, ?_, kept.depths h.depths,
    type.trans h.type, valueStart ▸ h.start, valueStart ▸ h.pos, valueEnd ▸ h.ends, h.suffix⟩
  rcases Nat.eq_zero_or_pos k with rfl | pos
  · exact type.trans h.root
  · rw [kept.below 0 pos]
    exact h.root

/-- Behind a container, the text goes on with what stands behind its closing bracket. -/
theorem Holds.resumes {t : Tree} {k : ℕ} {brace : Bool} (h : Holds text t k brace s r) :
    resume (t.stack k) + r.length = text.length := by
  have ends := h.ends
  rw [resume_container (h.type ▸ node_type brace)]
  omega

/-- What a scan of slot `e` from the text `s` on comes to: nothing, a member without members, or a
container; and what is left behind it. -/
inductive Comes (text : List UInt8) (e : ℕ) (s r : List UInt8) (t : Tree) :
    ℕ → ℕ → Option ℕ → Prop where
  | none {n : ℕ} : Comes text e s r t n 0 none
  | leaf {n d : ℕ} {q' : St} {s' : List UInt8} (type : ¬(t.stack (e + 1)).type.Container)
      (state : (t.stack e).state = q') (inner : q'.Inner)
      (place : resume (t.stack (e + 1)) + s'.length = text.length) (suffix : s' <:+ s)
      (shorter : s'.length < s.length) (rest : Seen n q' s' r d) :
      Comes text e s r t n d (some (e + 1))
  | node {n d d' : ℕ} {q' : St} {brace : Bool} {s' m : List UInt8}
      (holds : Holds text t (e + 1) brace s' m) (inside : Seen n (bodyState brace) s' m d)
      (state : (t.stack e).state = q') (inner : q'.Inner) (suffix : m <:+ s)
      (shorter : m.length < s.length) (rest : Seen (n + 1) q' m r d') :
      Comes text e s r t (n + 1) (max (d + 1) d') (some (e + 1))

theorem Comes.longer {e n d : ℕ} {s' : List UInt8} {t : Tree} {result : Option ℕ}
    (h : Comes text e s' r t n d result) (suffix : s' <:+ s) : Comes text e s r t n d result := by
  have le := suffix.length_le
  cases h with
  | none => exact .none
  | leaf type state inner place suffix' shorter rest =>
    exact .leaf type state inner place (suffix'.trans suffix) (Nat.lt_of_lt_of_le shorter le) rest
  | node holds inside state inner suffix' shorter rest =>
    exact .node holds inside state inner (suffix'.trans suffix) (Nat.lt_of_lt_of_le shorter le) rest

/-- Where no closing bracket comes first, two bytes are left. -/
theorem Seen.apart (h : Seen n q s r d) (apart : ∀ last m, lex s ≠ some (.closing last, m)) :
    r.length + 2 ≤ s.length := by
  cases h with
  | token token _ rest =>
    have first := lex_length token
    have second := loose_length rest.loose
    omega
  | closing token => exact absurd token (apart _ _)
  | nested token _ inside rest =>
    have first := lex_length token
    have second := loose_length inside.loose
    have third := loose_length rest.loose
    omega
  | hidden token _ inside closes =>
    have first := lex_length token
    have second := loose_length inside.loose
    have third := lex_length closes
    omega

section Scan

variable {e : ℕ} {c : Loop} {brace : Bool} {s₀ : List UInt8} (place : Place c e q s)
  (holds : Holds text c.tree e brace s₀ r) (count : (c.tree.stack e).count = 0)
include place

include count in
/-- At the end of the range there is nothing. -/
theorem scans_end (ended : (c.tree.stack e).valueEnd ≤ c.i) : ∃ t result,
    Runs e (c.tree.stack e).valueEnd c (.ok (t, result)) ∧ Kept e c.tree t ∧
      Comes text e s r t n 0 result := by
  have done : Runs e (c.tree.stack e).valueEnd c (.ok (c.tree, found e c)) := Runs.done ended
  have notFound : found e c = none := by
    rw [found_eq, place.ret, count]
    exact if_neg fun h => nomatch h.2
  rw [notFound] at done
  exact ⟨c.tree, none, done, Kept.refl e c.tree, .none⟩

include holds in
/-- Where the range of the scan ends. -/
theorem scan_place : c.i + s.length = (c.tree.stack e).valueEnd + r.length + 2 := by
  rw [place.i, holds.len, holds.ends]

/-- What a container that is entered takes. -/
theorem scan_enters {s' : List UInt8} {q' : St} {kind : Bool}
    (token : lex s = some (.opening kind, s')) (below : e < maxDepth) (inner : q.Inner)
    (moves : afterNode q = some q') :
    ∃ c₁, branch e e (c.tree.stack e).valueEnd c = .ok (.go c₁) ∧ check e c₁ = none ∧
      c.i < c₁.i ∧ Entered c c₁ (c.prepared (nodeType kind)) e q' kind s' := by
  obtain ⟨b, rfl, class_⟩ := lex_byte token rfl
  obtain ⟨c₁, eq, entered⟩ :=
    place.opening rfl kind below ((opens_inner inner kind).trans moves)
  refine ⟨c₁, ?_, check_deep entered.at_ (Nat.lt_succ_self e) (inner_bodyState kind).2, ?_,
    entered⟩
  · rw [branch_cons place.p, class_]
    exact eq
  · have end_ := place.i
    have end₁ := entered.at_.i
    have len := entered.kept.len
    rw [List.length_cons] at end_
    omega

end Scan

/-- **A scan** comes to the first member of what is left. -/
theorem scans (h : Seen n q s r d) {e : ℕ} {c : Loop} {brace : Bool} {s₀ : List UInt8}
    (place : Place c e q s) (holds : Holds text c.tree e brace s₀ r) (suffix : s <:+ text)
    (count : (c.tree.stack e).count = 0) (pos : 0 < c.i) (inner : q.Inner) (below : e < maxDepth)
    (room : e + n ≤ maxDepth) : ∃ t result,
      Runs e (c.tree.stack e).valueEnd c (.ok (t, result)) ∧ Kept e c.tree t ∧
        Comes text e s r t n d result := by
  induction h generalizing c with
  | @token n d q q' s s' r k token moves rest ih =>
    have range := scan_place place holds
    by_cases ended : (c.tree.stack e).valueEnd ≤ c.i
    · obtain rfl := (Seen.token token moves rest).short (by omega)
      exact scans_end place count ended
    have shorter := lex_length token
    have left := loose_length rest.loose
    have inner' := move_inner moves inner
    have suffix' := lex_suffix token
    have end_ := place.i
    obtain ⟨c', eq, place', moved⟩ : ∃ c', branch e e (c.tree.stack e).valueEnd c = .ok (.go c') ∧
        Place c' e q' s' ∧ Moved e c'.i q q' c.tree c'.tree :=
      place.move (Nat.le_of_lt below) rfl token (by omega) moves
    have kept := moved.kept
    have later : c.i < c'.i := by
      have end' := place'.i
      have len := kept.len
      omega
    have valueEnd : (c'.tree.stack e).valueEnd = (c.tree.stack e).valueEnd := kept.valueEnd
    rcases moved.counts with same | ⟨one, leaf, resumes⟩
    · obtain ⟨t, result, runs, kept', comes⟩ := ih place' (holds.kept kept) (suffix'.trans suffix)
        (same.trans count) (by omega) inner' room
      rw [valueEnd] at runs
      refine ⟨t, result, Runs.step (by omega) eq later ?_, kept.trans kept', comes.longer suffix'⟩
      unfold Checks
      rw [place'.own (same.trans count) inner'.2]
      exact runs
    · refine ⟨c'.tree, some (e + 1), Runs.step (by omega) eq later ?_, kept,
        .leaf leaf place'.state inner' ?_ suffix' shorter rest⟩
      · unfold Checks
        rw [place'.first (by rw [one, count])]
      · rw [resumes, place'.i, kept.len, holds.len]
  | closing token closable =>
    have range := scan_place place holds
    obtain ⟨b, rfl, _⟩ := lex_byte token rfl
    rw [List.length_cons] at range
    exact scans_end place count (by omega)
  | @nested n d d' q q' s s' m r kind token moves inside rest apart _ _ =>
    have range := scan_place place holds
    have end_ := place.i
    have first := lex_length token
    have second := loose_length inside.loose
    have third := rest.apart apart
    obtain ⟨c₁, eq, going, later, entered⟩ := scan_enters place token below inner moves
    have at₁ := entered.at_
    have kept := entered.kept
    have start := entered.fresh.start
    have end₁ := at₁.i
    have len := kept.len
    have valueEnd : (c₁.tree.stack e).valueEnd = (c.tree.stack e).valueEnd := kept.valueEnd
    obtain ⟨c', last, closed, ends, runs⟩ := reads_loose (Nat.le_refl e) inside.loose at₁ (by omega)
      valueEnd (by omega) (by omega) (inner_bodyState kind)
    have slot := closed.below e (Nat.le_refl e)
    have place' : Place c' e q' m :=
      ⟨closed.ret, closed.p, closed.i.trans closed.len.symm,
        (congrArg Obj.state slot).trans entered.state,
        closed.kept.depths (kept.depths place.depths)⟩
    have all := kept.trans closed.kept
    have core := closed.core
    simp only [Obj.core, Prod.mk.injEq] at core
    obtain ⟨depth', type', _, _, start', end'⟩ := core
    have behind := closed.i
    have holds' := holds.kept all
    have inner' : (c'.tree.stack (e + 1)).valueEnd + m.length + 2 = text.length := by
      rw [end']
      have := holds.len
      omega
    refine ⟨c'.tree, some (e + 1), Runs.step (by omega) eq later ?_, all,
      .node ⟨holds'.buf, holds'.len, holds'.root, ?_, type'.trans entered.type, ?_, ?_, inner',
        (lex_suffix token).trans suffix⟩ inside place'.state (afterNode_inner moves)
        (inside.suffix.trans (lex_suffix token)) (by omega) rest⟩
    · unfold Checks
      rw [going]
      refine runs _ ?_
      unfold Checks
      rw [place'.first (by rw [slot, entered.count, prepared_count, count])]
    · intro j hj
      rcases Nat.lt_or_eq_of_le hj with inner | rfl
      · exact place'.depths j (Nat.le_of_lt_succ inner)
      · exact depth'.trans at₁.depth
    · obtain ⟨b, rfl, _⟩ := lex_byte token rfl
      rw [List.length_cons] at end_
      rw [start', start, ← holds.len]
      omega
    · rw [start', start]
      exact Nat.succ_pos _
  | @hidden n d q q' s s' m r kind last token moves inside closes closable _ =>
    have range := scan_place place holds
    have end_ := place.i
    have first := lex_length token
    have second := loose_length inside.loose
    obtain ⟨b, rfl, _⟩ := lex_byte closes rfl
    rw [List.length_cons] at second
    obtain ⟨c₁, eq, going, later, entered⟩ := scan_enters place token below inner moves
    have at₁ := entered.at_
    have kept := entered.kept
    have len := kept.len
    have valueEnd : (c₁.tree.stack e).valueEnd = (c.tree.stack e).valueEnd := kept.valueEnd
    obtain ⟨c', kind', ⟨⟨q₂, at', _⟩, kept', _⟩, _, runs⟩ :=
      reads_inside (Nat.le_refl e) inside.loose at₁ (by omega) valueEnd
        (by rw [List.length_cons]; omega) (by omega) (inner_bodyState kind)
    have end' := at'.i
    have len' := kept'.len
    rw [List.length_cons, List.length_cons] at end'
    have done : Runs e (c.tree.stack e).valueEnd c' (.ok (c'.tree, found e c')) :=
      Runs.done (by omega)
    have notFound : found e c' = none := by
      rw [found_eq, at'.ret, at'.depth]
      exact if_neg fun h => Nat.succ_ne_self e h.1
    rw [notFound] at done
    refine ⟨c'.tree, none, Runs.step (by omega) eq later ?_,
      kept.trans (kept'.lower (Nat.lt_succ_self e)), .none⟩
    unfold Checks
    rw [going]
    exact runs _ done

/-! ## Visits -/

/-- `json__get_next` is the loop in front of what is left. -/
theorem Holds.getNext {t : Tree} {e : ℕ} {brace : Bool} {s₀ : List UInt8}
    (holds : Holds text t e brace s₀ r) (below : e < maxDepth) {child : Option ℕ}
    (state : ((prime t e child).stack e).state = q) (suffix : s <:+ text)
    (start : begins t e child + s.length = text.length) :
    ∃ c, Place c e q s ∧ c.i = begins t e child ∧ (c.tree.stack e).count = 0 ∧ Kept e t c.tree ∧
      ∀ result, Runs e (t.stack e).valueEnd c result → Json.getNext t e child = result := by
  obtain ⟨c, ret, i, p, kept, slot, runs⟩ :=
    getNext_enters (holds.depths e (Nat.le_refl e)) below child
  refine ⟨c, ⟨ret, ?_, ?_, ?_, kept.depths holds.depths⟩, i, ?_, kept, fun result => runs⟩
  · have rest : text.drop (begins t e child) = s :=
      drop_suffix List.drop_zero suffix (by rw [start, Nat.zero_add])
    rw [p, holds.buf, List.drop_append_of_le_length (by omega), rest]
  · rw [i, start, kept.len, holds.len]
  · rw [slot, ← state]
  · rw [slot]

section Visitor

variable {σ : Type} {cb : Tree → ℕ → σ → ℤ × σ}

/-- A run that ends if `ends` holds, with slots up to `k` as they were, and never does otherwise. -/
def Settles (k : ℕ) (t : Tree) (ends : Prop) (run : ℕ → ℕ → M (ℤ × Tree × σ)) : Prop :=
  (ends ∧ ∃ t' u', Kept k t t' ∧
      (∀ fuel m, run fuel m = .ok (0, t', u') ∨ run fuel m = .error .fuel) ∧
      ∃ n, ∀ fuel m, n ≤ fuel → n ≤ m → run fuel m = .ok (0, t', u')) ∨
    (¬ends ∧ ∀ fuel m, run fuel m = .error .fuel)

/-- What is no container is visited at once. -/
theorem visitor_quiet (quiet : ∀ t k s, (cb t k s).1 = 0) {t : Tree} {k fuel : ℕ} {u : σ}
    (leaf : ¬(t.stack k).type.Container) (pos : 0 < fuel) :
    visitor cb fuel t k u = .ok (0, t, (cb t k u).2) := by
  cases fuel with
  | zero => exact absurd pos (Nat.lt_irrefl 0)
  | succ fuel => rw [visitor_leaf leaf, quiet]

/-- A member whose visit ends, and the loop behind it. -/
theorem Settles.member {e child : ℕ} {ends : Prop} {t t₁ t₂ t₃ : Tree} {u u₂ : σ}
    {result : Option ℕ} (kept : Kept e t t₂)
    (visited : ∀ fuel, visitor cb fuel t₁ child u = .ok (0, t₂, u₂) ∨
      visitor cb fuel t₁ child u = .error .fuel)
    (enough : ∃ n, ∀ fuel, n ≤ fuel → visitor cb fuel t₁ child u = .ok (0, t₂, u₂))
    (next : Json.getNext t₂ e (some child) = .ok (t₃, result))
    (settles : Settles e t₂ ends fun fuel m => visitMembers (visitor cb fuel) e m result t₃ u₂) :
    Settles e t ends fun fuel m => visitMembers (visitor cb fuel) e m (some child) t₁ u := by
  have goes {fuel m : ℕ} (ok : visitor cb fuel t₁ child u = .ok (0, t₂, u₂)) :
      visitMembers (visitor cb fuel) e (m + 1) (some child) t₁ u =
        visitMembers (visitor cb fuel) e m result t₃ u₂ := visitMembers_some ok next
  rcases settles with ⟨ends, t', u', kept', either, n, runs⟩ | ⟨never, runs⟩
  · refine .inl ⟨ends, t', u', kept.trans kept', fun fuel m => ?_, ?_⟩
    · rcases visited fuel with ok | out
      · cases m with
        | zero => exact .inr rfl
        | succ m => exact (either fuel m).imp (goes ok).trans (goes ok).trans
      · exact .inr (visitMembers_out out m)
    · obtain ⟨n', ok⟩ := enough
      refine ⟨max n' (n + 1), fun fuel m more more' => ?_⟩
      cases m with
      | zero => omega
      | succ m => exact (goes (ok fuel (by omega))).trans (runs fuel m (by omega) (by omega))
  · refine .inr ⟨never, fun fuel m => ?_⟩
    rcases visited fuel with ok | out
    · cases m with
      | zero => rfl
      | succ m => exact (goes ok).trans (runs fuel m)
    · exact visitMembers_out out m

/-- In the last slot `json__get` refuses, with the undefined object. -/
theorem last_refuses {t : Tree} (depth : (t.stack maxDepth).depth = maxDepth)
    (child : Option ℕ) : ∃ t', Json.getNext t maxDepth child = .ok (t', some 0) ∧
      (t'.stack maxDepth).depth = maxDepth ∧ t'.stack 0 = t.stack 0 := by
  have depth' : ((prime t maxDepth child).stack maxDepth).depth = maxDepth := by
    unfold prime
    rw [set_stack]
    exact depth
  have other : (prime t maxDepth child).stack 0 = t.stack 0 := by
    unfold prime
    exact set_stack_of_ne t (by decide) _
  exact ⟨_, if_pos (Nat.le_of_eq depth'.symm), depth', other⟩

/-- **In the last slot** the undefined object is a member, again and again. -/
theorem last_never (quiet : ∀ t k s, (cb t k s).1 = 0) (fuel m : ℕ) {t : Tree} (u : σ)
    (depth : (t.stack maxDepth).depth = maxDepth) (root : (t.stack 0).type = .undefined) :
    visitMembers (visitor cb fuel) maxDepth m (some 0) t u = .error .fuel := by
  have leaf : ¬Ty.Container .undefined := by decide
  induction m generalizing t u with
  | zero => rfl
  | succ m ih =>
    cases fuel with
    | zero => rfl
    | succ fuel =>
      obtain ⟨t', eq, depth', same⟩ := last_refuses depth (some 0)
      have visited : visitor cb (fuel + 1) t 0 u = .ok (0, t, (cb t 0 u).2) :=
        visitor_quiet quiet (root ▸ leaf) (Nat.succ_pos fuel)
      rw [visitMembers_some visited eq]
      exact ih _ depth' (same ▸ root)

/-- The loop over the members, behind the search for the first or the next one. -/
theorem members_settle (quiet : ∀ t k s, (cb t k s).1 = 0) {e x : ℕ} (last : e + (x + 1) = maxDepth)
    (visits : ∀ {t : Tree} {brace : Bool} {s r : List UInt8} {n d : ℕ} (u : σ),
      Holds text t (e + 1) brace s r → Seen n (bodyState brace) s r d → e + 1 + n ≤ maxDepth →
        Settles (e + 1) t (d < x) fun fuel _ => visitor cb fuel t (e + 1) u)
    {t : Tree} {brace : Bool} {s₀ : List UInt8} (holds : Holds text t e brace s₀ r) (u : σ)
    (h : Seen n q s r d) (room : e + n ≤ maxDepth) (inner : q.Inner) (suffix : s <:+ text)
    (shorter : s.length < text.length) (child : Option ℕ)
    (state : ((prime t e child).stack e).state = q)
    (start : begins t e child + s.length = text.length) :
    ∃ t₁ result, Json.getNext t e child = .ok (t₁, result) ∧ Kept e t t₁ ∧
      Settles e t (d < x + 1) fun fuel m => visitMembers (visitor cb fuel) e m result t₁ u := by
  have below : e < maxDepth := by omega
  induction length : s.length using Nat.strongRecOn generalizing t n d q s u child with
  | ind l ih =>
    subst length
    obtain ⟨c, place, i, count, kept, runs⟩ := holds.getNext below state suffix start
    obtain ⟨t₁, result, scan, kept₁, comes⟩ :=
      scans h place (holds.kept kept) suffix count (by omega) inner below room
    have valueEnd : (c.tree.stack e).valueEnd = (t.stack e).valueEnd := kept.valueEnd
    rw [valueEnd] at scan
    have all := kept.trans kept₁
    refine ⟨t₁, result, runs _ scan, all, ?_⟩
    cases comes with
    | none =>
      exact .inl ⟨Nat.succ_pos x, t₁, u, all, fun _ _ => .inl (visitMembers_none _), 0,
        fun _ _ _ _ => visitMembers_none _⟩
    | @leaf n d q' s' type state' inner' place' suffix' shorter' rest =>
      obtain ⟨t₂, result₂, next, kept₂, settles⟩ := ih _ shorter' (holds.kept all)
        (cb t₁ (e + 1) u).2 rest room inner' (suffix'.trans suffix)
        (Nat.lt_trans shorter' shorter) (some (e + 1))
        (by unfold prime; rw [set_stack]; exact state') place' rfl
      refine Settles.member all (fun fuel => ?_) ⟨1, fun fuel => visitor_quiet quiet type⟩ next
        settles
      rcases Nat.eq_zero_or_pos fuel with rfl | pos
      · exact .inr rfl
      · exact .inl (visitor_quiet quiet type pos)
    | @node n d d' q' kind s' m holds' inside state' inner' suffix' shorter' rest =>
      rcases visits u holds' inside (by omega) with
        ⟨ends, t₂, u₂, kept₂, either, n', runs'⟩ | ⟨never, runs'⟩
      · have slot := kept₂.below e (Nat.lt_succ_self e)
        have kept' := kept₂.lower (Nat.lt_succ_self e)
        obtain ⟨t₃, result₃, next, kept₃, settles⟩ := ih _ shorter'
          (holds.kept (all.trans kept')) u₂ rest room inner' (suffix'.trans suffix)
          (Nat.lt_trans shorter' shorter) (some (e + 1))
          (by unfold prime; rw [set_stack]; exact (congrArg Obj.state slot).trans state')
          (holds'.kept kept₂).resumes rfl
        have same : (max (d + 1) d' < x + 1) = (d' < x + 1) := propext (by omega)
        rw [same]
        exact Settles.member (all.trans kept') (fun fuel => either fuel 0)
          ⟨n', fun fuel more => runs' fuel n' more (Nat.le_refl n')⟩ next settles
      · exact .inr ⟨by omega, fun fuel => visitMembers_out (runs' fuel 0)⟩

/-- The visit of a container whose loop over the members settles. -/
theorem Settles.visit (quiet : ∀ t k s, (cb t k s).1 = 0) {e : ℕ} {ends : Prop} {t t₁ : Tree}
    {u : σ} {result : Option ℕ} (type : (t.stack e).type.Container)
    (first : Json.getNext t e none = .ok (t₁, result))
    (settles : Settles e t ends fun fuel m => visitMembers (visitor cb fuel) e m result t₁ u) :
    Settles e t ends fun fuel _ => visitor cb fuel t e u := by
  have ok {fuel : ℕ} {t' : Tree} {u' : σ}
      (members : visitMembers (visitor cb fuel) e fuel result t₁ u = .ok (0, t', u')) :
      visitor cb (fuel + 1) t e u = .ok (0, t', (cb t' e u').2) := by
    rw [visitor_container type first, members]
    exact congrArg (fun r => Except.ok (r, t', (cb t' e u').2)) (quiet t' e u')
  have out {fuel : ℕ}
      (members : visitMembers (visitor cb fuel) e fuel result t₁ u = .error .fuel) :
      visitor cb (fuel + 1) t e u = .error .fuel := by
    rw [visitor_container type first, members]
    rfl
  rcases settles with ⟨ends, t', u', kept', either, n, runs⟩ | ⟨never, runs⟩
  · refine .inl ⟨ends, t', (cb t' e u').2, kept', fun fuel _ => ?_, n + 1,
      fun fuel _ more _ => ?_⟩
    · cases fuel with
      | zero => exact .inr rfl
      | succ fuel => exact (either fuel fuel).imp ok out
    · cases fuel with
      | zero => exact absurd more (Nat.not_succ_le_zero n)
      | succ fuel =>
        have enough := Nat.le_of_succ_le_succ more
        exact ok (runs fuel fuel enough enough)
  · refine .inr ⟨never, fun fuel _ => ?_⟩
    cases fuel with
    | zero => rfl
    | succ fuel => exact out (runs fuel fuel)

/-- **A visit settles**: it ends if what it comes to is not nested up to the last slot. -/
theorem visits_settle (quiet : ∀ t k s, (cb t k s).1 = 0) {e x : ℕ} (last : e + x = maxDepth)
    {t : Tree} {brace : Bool} (u : σ) (holds : Holds text t e brace s r)
    (h : Seen n (bodyState brace) s r d) (room : e + n ≤ maxDepth) :
    Settles e t (d < x) fun fuel _ => visitor cb fuel t e u := by
  have type : (t.stack e).type.Container := by
    rw [holds.type]
    exact node_type brace
  induction x generalizing e t brace s r n d u with
  | zero =>
    obtain rfl : e = maxDepth := last
    have depth := holds.depths maxDepth (Nat.le_refl _)
    obtain ⟨t', first, depth', root⟩ := last_refuses depth none
    refine .inr ⟨Nat.not_lt_zero d, fun fuel _ => ?_⟩
    cases fuel with
    | zero => rfl
    | succ fuel =>
      refine (visitor_container type first).trans ?_
      rw [last_never quiet fuel fuel u depth' (root ▸ holds.root)]
      rfl
  | succ x ih =>
    have start := holds.start
    have pos := holds.pos
    obtain ⟨t₁, result, first, _, settles⟩ := members_settle quiet last
      (fun u holds seen room => ih (by omega) u holds seen room (holds.type ▸ node_type _))
      holds u h room (inner_bodyState brace) holds.suffix (by omega) none
      (by
        unfold prime
        rw [set_stack, holds.type]
        cases brace <;> rfl) start
    exact settles.visit quiet type first

/-! ## From a parse on -/

/-- The visit of an object returns zero, with fuel enough. -/
def Terminates (cb : Tree → ℕ → σ → ℤ × σ) (t : Tree) (obj : ℕ) (u : σ) : Prop :=
  ∃ n t' u', ∀ fuel, n ≤ fuel → visitor cb fuel t obj u = .ok (0, t', u')

theorem Settles.terminates {t : Tree} {ends : Prop} {k obj : ℕ} {u : σ}
    (h : Settles k t ends fun fuel _ => visitor cb fuel t obj u) :
    Terminates cb t obj u ↔ ends := by
  rcases h with ⟨ends, t', u', _, _, n, runs⟩ | ⟨never, runs⟩
  · exact iff_of_true ⟨n, t', u', fun fuel more => runs fuel fuel more more⟩ ends
  · refine iff_of_false ?_ never
    rintro ⟨n, t', u', ok⟩
    exact nomatch (runs n 0).symm.trans (ok n (Nat.le_refl n))

/-- A member without members is visited at once. -/
theorem leaf_terminates (quiet : ∀ t k s, (cb t k s).1 = 0) {t : Tree} {obj : ℕ} (u : σ)
    (leaf : ¬(t.stack obj).type.Container) : Terminates cb t obj u :=
  ⟨1, t, (cb t obj u).2, fun _ => visitor_quiet quiet leaf⟩

/-- A parse leaves the undefined object in slot 0. -/
theorem parse_root {memory t : Tree} {result : Option ℕ}
    (parsed : parse text memory = .ok (t, result)) : (t.stack 0).type = .undefined := by
  obtain ⟨t', result', eq, left⟩ : ∃ t' result',
      get (rooted text memory) 0 none = .ok (t', result') ∧
      Left text 0 (rooted text memory) t' result' :=
    (rooted_inOrder text memory).get (Nat.zero_le _) nofun
  have same : get (rooted text memory) 0 none = .ok (t, result) := parsed
  obtain ⟨rfl, _⟩ := Prod.mk.inj (Except.ok.inj (eq.symm.trans same))
  exact left.inOrder.root

/-- The object that a parse returns holds what stands between its brackets. -/
theorem parse_holds {proper : St → List UInt8 → Prop} {space : List UInt8} (blank : Blank space)
    (loose : Loose proper (maxDepth - 1) .objectBody s r) (memory : Tree) :
    ∃ t, parse (space ++ 0x7B :: s) memory = .ok (t, some 1) ∧
      Holds (space ++ 0x7B :: s) t 1 true s r := by
  obtain ⟨t, parsed, buf, len, depth, core, _⟩ := parse_object blank loose memory
  have length : (space ++ 0x7B :: s).length = space.length + (s.length + 1) := List.length_append
  have short := loose_length loose
  simp only [Obj.core, Prod.mk.injEq] at core
  obtain ⟨depth', type, _, _, start, end_⟩ := core
  refine ⟨t, parsed, buf, len, parse_root parsed, fun j le => ?_, type, ?_, ?_, ?_, ?_⟩
  · rcases Nat.le_one_iff_eq_zero_or_eq_one.mp le with rfl | rfl
    · exact depth
    · exact depth'
  · omega
  · rw [start]
    exact Nat.succ_pos _
  · omega
  · exact ⟨space ++ [0x7B], by rw [List.append_assoc]; rfl⟩

/-- **The visit of an object ends** if none of its containers that the visit comes to is in the last
slot. -/
theorem object_settles (quiet : ∀ t k s, (cb t k s).1 = 0) {space : List UInt8}
    (blank : Blank space) (seen : Seen (maxDepth - 1) .objectBody s r d) (memory : Tree) (u : σ) :
    ∃ t, parse (space ++ 0x7B :: s) memory = .ok (t, some 1) ∧
      Settles 1 t (d < maxDepth - 1) fun fuel _ => visitor cb fuel t 1 u := by
  obtain ⟨t, parsed, holds⟩ := parse_holds blank seen.loose memory
  exact ⟨t, parsed, visits_settle quiet rfl u holds seen (by decide)⟩

/-- What is not an object of the larger language has no members. -/
theorem parsed_leaf {memory t : Tree} {obj : ℕ} (parsed : parse text memory = .ok (t, some obj))
    (other : ¬Tolerated Anywhere text) : ¬(t.stack obj).type.Container := by
  by_cases scalar : StartsScalar text
  · obtain ⟨space, s, type, s', rfl, blank, token⟩ := scalar
    obtain ⟨t', parsed', slot⟩ := parse_scalar blank token memory
    obtain ⟨rfl, same⟩ := Prod.mk.inj (Except.ok.inj (parsed'.symm.trans parsed))
    obtain rfl := Option.some.inj same
    rw [slot]
    exact (lex_type token).leaf
  · obtain ⟨t', undefined, rejected | rejected⟩ := parse_rejects other scalar memory
    · obtain ⟨rfl, same⟩ := Prod.mk.inj (Except.ok.inj (rejected.symm.trans parsed))
      obtain rfl := Option.some.inj same
      rw [undefined]
      decide
    · exact nomatch (Prod.mk.inj (Except.ok.inj (rejected.symm.trans parsed))).2

/-- **A visit of what a parse returns ends** if and only if the text does not begin with an object
in which it comes to a container in the last slot. -/
theorem terminates_iff {memory t : Tree} {obj : ℕ} (parsed : parse text memory = .ok (t, some obj))
    (cb : Tree → ℕ → σ → ℤ × σ) (quiet : ∀ t k s, (cb t k s).1 = 0) (u : σ) :
    Terminates cb t obj u ↔ ¬SeenTooDeep text := by
  constructor
  · rintro ends ⟨space, s, r, d, rfl, blank, seen, deep⟩
    obtain ⟨t', parsed', settles⟩ := object_settles quiet blank seen memory u
    obtain ⟨rfl, same⟩ := Prod.mk.inj (Except.ok.inj (parsed'.symm.trans parsed))
    obtain rfl := Option.some.inj same
    exact absurd (settles.terminates.mp ends) (Nat.not_lt.mpr deep)
  · intro shallow
    by_cases object : Tolerated Anywhere text
    · obtain ⟨space, s, r, rfl, blank, loose⟩ := object
      obtain ⟨d, seen⟩ := loose.seen
      obtain ⟨t', parsed', settles⟩ := object_settles quiet blank seen memory u
      obtain ⟨rfl, same⟩ := Prod.mk.inj (Except.ok.inj (parsed'.symm.trans parsed))
      obtain rfl := Option.some.inj same
      refine settles.terminates.mpr ?_
      by_contra deep
      exact shallow ⟨space, s, r, d, rfl, blank, seen, Nat.not_lt.mp deep⟩
    · exact leaf_terminates quiet u (parsed_leaf parsed object)

end Visitor

/-- A callback that does nothing. -/
def pass (_ : Tree) (_ : ℕ) (u : Unit) : ℤ × Unit := (0, u)

theorem pass_quiet (t : Tree) (k : ℕ) (u : Unit) : (pass t k u).1 = 0 := rfl

/-- A visit of `{"a":["x",{"b":12} ],"c":true}` ends. -/
theorem nested_terminates : ∃ t, parse (Value.node true nested).text zeroed = .ok (t, some 1) ∧
    Terminates pass t 1 () := by
  have blank : Blank [] := fun _ h => nomatch h
  obtain ⟨t, parsed, _⟩ := parse_document blank nested_wellFormed (by decide) [] zeroed
  rw [List.nil_append, List.append_nil] at parsed
  refine ⟨t, parsed, (terminates_iff parsed pass pass_quiet ()).mpr ?_⟩
  rintro ⟨space, s, r, d, eq, _, seen, deep⟩
  have length : 30 = space.length + (s.length + 1) :=
    (congrArg List.length eq).trans List.length_append
  have brackets := seen.length
  have most : maxDepth = 20 := rfl
  omega

/-- The inside of an array with `n` more in it, each with a space behind its closing bracket. -/
def spacedArrays : ℕ → List UInt8
  | 0 => []
  | n + 1 => 0x5B :: (spacedArrays n ++ [0x5D, 0x20])

/-- A visit comes to each of them. -/
theorem arrays_seen (n : ℕ) (r : List UInt8) :
    Seen n .arrayBody (spacedArrays n ++ 0x5D :: r) r n := by
  induction n generalizing r with
  | zero => exact .closing rfl rfl
  | succ n ih =>
    have text : spacedArrays (n + 1) ++ 0x5D :: r =
        0x5B :: (spacedArrays n ++ 0x5D :: 0x20 :: 0x5D :: r) := by
      simp only [spacedArrays, List.cons_append, List.append_assoc, List.nil_append]
    have rest : Seen (n + 1) .arrayAfterMember (0x20 :: 0x5D :: r) r 0 :=
      .token rfl rfl (.closing rfl rfl)
    rw [text]
    exact .nested rfl rfl (ih (0x20 :: 0x5D :: r)) rest nofun

/-- The text `{"":`, 19 arrays in one another, a space behind each, and `}`. -/
def deepText : List UInt8 :=
  0x7B :: 0x22 :: 0x22 :: 0x3A :: (spacedArrays (maxDepth - 1) ++ [0x7D])

theorem deepText_seen : SeenTooDeep deepText := by
  have inside := arrays_seen (maxDepth - 2) [0x20, 0x7D]
  have rest : Seen (maxDepth - 1) .objectAfterMember [0x20, 0x7D] [] 0 :=
    .token rfl rfl (.closing rfl rfl)
  have value : Seen (maxDepth - 1) .objectAfterColon
      (0x5B :: (spacedArrays (maxDepth - 2) ++ [0x5D, 0x20, 0x7D])) [] (maxDepth - 1) :=
    .nested rfl rfl inside rest nofun
  have text : spacedArrays (maxDepth - 1) ++ [0x7D] =
      0x5B :: (spacedArrays (maxDepth - 2) ++ [0x5D, 0x20, 0x7D]) := by
    change 0x5B :: (spacedArrays (maxDepth - 2) ++ [0x5D, 0x20]) ++ [0x7D] = _
    rw [List.cons_append, List.append_assoc]
    rfl
  rw [← text] at value
  have string (s : List UInt8) : lex (0x22 :: 0x22 :: s) = some (.string, s) := by
    have empty : quoted (0x22 :: s) = some s := by
      unfold quoted
      rfl
    exact congrArg (Option.map fun r => (Token.string, r)) empty
  exact ⟨[], _, [], maxDepth - 1, rfl, fun _ mem => absurd mem List.not_mem_nil,
    .token (string _) rfl (.token rfl rfl value), Nat.le_refl _⟩

/-- The visit of that text never ends. -/
theorem deepText_never : ∃ t, parse deepText zeroed = .ok (t, some 1) ∧
    (∀ fuel, visitor pass fuel t 1 () = .error .fuel) ∧ ¬Terminates pass t 1 () := by
  obtain ⟨space, s, r, d, text, blank, seen, deep⟩ := deepText_seen
  obtain ⟨t, parsed, settles⟩ := object_settles pass_quiet blank seen zeroed ()
  rw [← text] at parsed
  have never : ¬d < maxDepth - 1 := Nat.not_lt.mpr deep
  refine ⟨t, parsed, ?_, fun ends => never (settles.terminates.mp ends)⟩
  rcases settles with ⟨ends, _⟩ | ⟨_, runs⟩
  · exact absurd ends never
  · exact fun fuel => runs fuel 0

end Teres.Tools.Json
