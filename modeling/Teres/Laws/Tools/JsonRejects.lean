import Teres.Laws.Tools.JsonRuns

/-!
# What the JSON parser rejects

A text is `Stuck` where it goes on with no token that the state expects. The loop then returns an
error, or reads a string up to the end of the text and returns nothing (`branch_stuck`). So inside a
container, either the rest of one follows, as `Loose` says, or the whole read is rejected
(`loose_or_rejects`).
-/

namespace Teres.Tools.Json

/-! ## A round that reads no token -/

/-- The text goes on with nothing that is expected at slot `e` in state `q`. -/
structure Stuck (e : ℕ) (q : St) (s : List UInt8) : Prop where
  moves : ∀ k s', lex s = some (k, s') → move k q = none
  closes : ∀ brace s', lex s = some (.closing brace, s') → closable brace q = false
  opens : ∀ brace s', lex s = some (.opening brace, s') → e < maxDepth → opens brace q = none

/-- A text goes on with a token that is expected, or it is stuck. -/
theorem token_or_stuck (e : ℕ) (q : St) (s : List UInt8) :
    (∃ k s' q', lex s = some (k, s') ∧ move k q = some q') ∨
      (∃ brace s', lex s = some (.closing brace, s') ∧ closable brace q = true) ∨
      (∃ brace s' q', lex s = some (.opening brace, s') ∧ e < maxDepth ∧
        opens brace q = some q') ∨ Stuck e q s := by
  by_contra none
  obtain ⟨moves, rest⟩ := not_or.mp none
  obtain ⟨closes, rest⟩ := not_or.mp rest
  obtain ⟨opens, stuck⟩ := not_or.mp rest
  refine stuck ⟨fun k s' token => ?_, fun brace s' token => ?_, fun brace s' token room => ?_⟩
  · exact Option.eq_none_iff_forall_ne_some.mpr fun q' h => moves ⟨k, s', q', token, h⟩
  · exact Bool.eq_false_iff.mpr fun h => closes ⟨brace, s', token, h⟩
  · exact Option.eq_none_iff_forall_ne_some.mpr fun q' h => opens ⟨brace, s', q', token, room, h⟩

section Branch

variable {c : Loop} {e : ℕ} {q : St} {s : List UInt8} (at_ : At c e q s)
include at_

/-- An opening bracket that is not expected, or for which there is no slot, is an error. -/
theorem opening_stuck {brace : Bool} (h : e < maxDepth → opens brace q = none) (p : List UInt8) :
    ∃ t, opening brace c p = .ok (.error t) ∧ Kept e c.tree t := by
  have full : ∀ t, ¬ e < maxDepth → Kept e c.tree t →
      ∃ t', opened brace c p t = .ok (.error t') ∧ Kept e c.tree t' := fun t full kept => by
    have deep : maxDepth ≤ (t.stack c.ret).depth := by
      rw [at_.ret, kept.depths at_.depths e (Nat.le_refl e)]
      exact Nat.not_lt.mp full
    have none : push t c.ret c.i = .ok (t.error c.i "too many nested level of objects", none) :=
      if_pos deep
    unfold opened
    rw [none]
    exact ⟨_, rfl, kept.trans (kept_error e t c.i _)⟩
  have parent := kept_setState e c.tree
  have report := kept_error e c.tree c.i
  unfold opening
  rw [at_.loop_state, at_.ret]
  by_cases room : e < maxDepth
  · have none := h room
    cases q with
    | init =>
      cases brace with
      | false => exact ⟨_, rfl, report _⟩
      | true => exact nomatch none
    | objectAfterColon => exact nomatch none
    | arrayBody => exact nomatch none
    | arrayAfterComma => exact nomatch none
    | _ => exact ⟨_, rfl, report _⟩
  · cases q with
    | init =>
      cases brace with
      | false => exact ⟨_, rfl, report _⟩
      | true => exact full _ room (parent _)
    | objectAfterColon =>
      have prepared := kept_prepared c (if brace then .object else .objectArray)
      rw [at_.ret] at prepared
      exact full _ room (prepared.trans (kept_setState e _ _))
    | arrayBody => exact full _ room (parent _)
    | arrayAfterComma => exact full _ room (parent _)
    | _ => exact ⟨_, rfl, report _⟩

/-- A string where none is expected is an error. -/
theorem stringRead_error (none : afterString q = none) (n i : ℕ) (p : List UInt8) :
    ∃ t, stringRead c (c.prepared .string) n i p = .ok (.error t) ∧ Kept e c.tree t := by
  have prepared := kept_prepared c .string
  rw [at_.ret] at prepared
  unfold stringRead
  rw [at_.loop_state]
  cases q with
  | objectAfterColon => exact nomatch none
  | objectAfterComma => exact nomatch none
  | arrayBody => exact nomatch none
  | arrayAfterComma => exact nomatch none
  | objectBody => exact nomatch none
  | _ => exact ⟨_, rfl, prepared.trans (kept_error e _ i _)⟩

/-- **No token that is expected**: the branch is an error, or a string up to the end of the text. -/
theorem branch_stuck (stuck : Stuck e q s) (bound : e ≤ maxDepth) {obj stop : ℕ}
    (od : ℕ) (vend : (c.tree.stack obj).valueEnd = stop) (whole : stop = c.tree.len)
    (more : s ≠ []) :
    (∃ t, branch obj od stop c = .ok (.error t) ∧ Kept e c.tree t) ∨
      ∃ c' q', branch obj od stop c = .ok (.go c') ∧ afterString q = some q' ∧ stop < c'.i ∧
        c'.ret = e ∧ Kept e c.tree c'.tree ∧ c'.state = q' := by
  cases s with
  | nil => exact absurd rfl more
  | cons byte u =>
    have p : c.p = byte :: (u ++ [0]) := at_.p
    have place := at_.i
    rw [List.length_cons] at place
    have report := kept_error e c.tree c.i
    rw [branch_cons p]
    cases class_ : classify byte with
    | opening brace =>
      have token : lex (byte :: u) = some (.opening brace, u) := by simp only [lex, class_]
      exact .inl (opening_stuck at_ (stuck.opens brace u token) _)
    | closing brace =>
      have token : lex (byte :: u) = some (.closing brace, u) := by simp only [lex, class_]
      have open_ : closable brace c.state = false := by
        rw [at_.loop_state]
        exact stuck.closes brace u token
      exact .inl ⟨_, if_pos open_, report _⟩
    | comma =>
      have token : lex (byte :: u) = some (.comma, u) := by simp only [lex, class_]
      have none := stuck.moves .comma u token
      simp only [switch, comma, at_.loop_state, at_.ret]
      cases q with
      | arrayAfterMember => cases none
      | objectAfterMember => cases none
      | _ => exact .inl ⟨_, rfl, report _⟩
    | colon =>
      have token : lex (byte :: u) = some (.colon, u) := by simp only [lex, class_]
      have none := stuck.moves .colon u token
      simp only [switch, colon, at_.loop_state, at_.ret]
      cases q with
      | objectAfterName => cases none
      | _ => exact .inl ⟨_, rfl, report _⟩
    | blank =>
      have token : lex (byte :: u) = some (.blank, u) := by simp only [lex, class_]
      cases stuck.moves .blank u token
    | quote =>
      obtain rfl := eq_quote class_
      cases closes : quoted u with
      | some r =>
        have token : lex (quote :: u) = some (.string, r) := by
          simp only [lex, class_, closes, Option.map_some]
        obtain ⟨body, rfl, quotes⟩ := quoted_split closes
        rw [← class_, ← branch_cons p, branch_string at_.p at_.i vend quotes rfl (by omega) od]
        exact .inl (stringRead_error at_ (stuck.moves .string r token) _ _ _)
      | none =>
        have read : skipString stop (c.i + 1) (u ++ [0]) = .ok (stop, [0]) :=
          skipString_open closes (by omega)
        have eq : string obj stop c (u ++ [0]) =
            stringRead c (c.prepared .string) (c.i + 1) stop [] := by
          unfold string
          rw [read]
          refine if_neg ?_
          rw [prepared_valueEnd, vend]
          exact Nat.lt_irrefl stop
        simp only [switch]
        rw [eq]
        cases moves : afterString q with
        | none => exact .inl (stringRead_error at_ moves _ _ _)
        | some q' =>
          obtain ⟨t, eq, moved⟩ := at_.place.stringRead bound [] moves
          exact .inr ⟨_, q', eq, rfl, Nat.lt_succ_self stop, rfl, moved.kept, moved.state⟩
    | keyword type tail =>
      have other : tail.isPrefixOf u = false := by
        refine Bool.eq_false_iff.mpr fun h => ?_
        have token : lex (byte :: u) = some (.scalar type, u.drop tail.length) := by
          simp only [lex, class_]
          exact if_pos h
        cases stuck.moves _ _ token
      have prepared := kept_prepared c type
      rw [at_.ret] at prepared
      simp only [switch, keyword]
      rw [matches_eq (keyword_tail class_), other]
      exact .inl ⟨_, rfl, prepared.trans (kept_error e _ c.i _)⟩
    | number =>
      have sign : restNumber (byte :: u) = u ∧ byte = 0x2D := by
        by_contra h
        have token : lex (byte :: u) = some (.scalar .number, restNumber (byte :: u)) := by
          simp only [lex, class_]
          exact if_neg h
        cases stuck.moves _ _ token
      obtain ⟨i', read, place'⟩ := skipNumber_eq c.i (byte :: u)
      rw [sign.1, List.length_cons] at place'
      have alone : i' = c.i + 1 ∧ c.p.head? = some 0x2D := by
        refine ⟨by omega, ?_⟩
        rw [p, sign.2]
        rfl
      have prepared := kept_prepared c .number
      rw [at_.ret] at prepared
      simp only [switch, number]
      rw [at_.p, read, ← at_.p]
      exact .inl ⟨_, if_pos alone, prepared.trans (kept_error e _ i' _)⟩
    | other => exact .inl ⟨_, rfl, report _⟩

end Branch

/-! ## Reading on -/

/-- The loop at `c` returns the undefined object or nothing. -/
def Rejects (stop : ℕ) (c : Loop) : Prop :=
  ∃ t, Kept 0 c.tree t ∧ (Runs 0 stop c (.ok (t, some 0)) ∨ Runs 0 stop c (.ok (t, none)))

/-- What is rejected behind a round is rejected. -/
theorem Rejects.before {stop : ℕ} {c c' : Loop} (kept : Kept 0 c.tree c'.tree)
    (steps : ∀ r, Runs 0 stop c' r → Runs 0 stop c r) (h : Rejects stop c') : Rejects stop c := by
  obtain ⟨t, kept', error | none⟩ := h
  · exact ⟨t, kept.trans kept', .inl (steps _ error)⟩
  · exact ⟨t, kept.trans kept', .inr (steps _ none)⟩

/-- Inside a container, one round and then the loop. -/
theorem runs_before {stop : ℕ} {c c' : Loop} {d : ℕ} {q : St} {s : List UInt8} (below : c.i < stop)
    (eq : branch 0 0 stop c = .ok (.go c')) (later : c.i < c'.i) (at_ : At c' (d + 1) q s)
    (inner : q.Inner) (r : M (Tree × Option ℕ)) (h : Runs 0 stop c' r) : Runs 0 stop c r := by
  refine Runs.step below eq later ?_
  unfold Checks
  rw [check_deep at_ (Nat.succ_pos d) inner.2]
  exact h

/-- A stuck container is rejected. -/
theorem stuck_rejects {c : Loop} {d : ℕ} {q : St} {s : List UInt8} (at_ : At c (d + 1) q s)
    (stuck : Stuck (d + 1) q s) (bound : d + 1 ≤ maxDepth) {stop : ℕ}
    (vend : (c.tree.stack 0).valueEnd = stop) (whole : stop = c.tree.len) (inner : q.Inner) :
    Rejects stop c := by
  have place := at_.i
  have notFound : ∀ c' : Loop, c'.ret = d + 1 → Kept (d + 1) c.tree c'.tree → found 0 c' = none :=
    fun c' ret kept => by
      rw [found_eq, ret, kept.depths at_.depths (d + 1) (Nat.le_refl _)]
      exact if_neg fun h => Nat.succ_ne_zero d h.1
  by_cases more : s = []
  · rw [more, List.length_nil] at place
    refine ⟨c.tree, Kept.refl 0 c.tree, .inr ?_⟩
    rw [← notFound c at_.ret (Kept.refl _ _)]
    exact Runs.done (by omega)
  · have some := List.length_pos_iff.mpr more
    have below : c.i < stop := by omega
    obtain ⟨t, eq, kept⟩ | ⟨c', q', eq, moves, past, ret, kept, state⟩ :=
      branch_stuck at_ stuck bound 0 vend whole more
    · exact ⟨t, kept.lower (Nat.succ_pos d), .inl (Runs.error below eq)⟩
    · have inner' : q'.Inner := move_inner (k := Token.string) moves inner
      have going : check 0 c' = none := by
        unfold check
        rw [notFound c' ret kept, state, ret]
        rw [if_neg (by decide), if_neg (Nat.not_lt_zero _), if_neg inner'.2]
      refine ⟨c'.tree, kept.lower (Nat.succ_pos d), .inr (Runs.step below eq (by omega) ?_)⟩
      unfold Checks
      rw [going, ← notFound c' ret kept]
      exact Runs.done (by omega)

/-- **Inside a container**, the rest of one follows, or the read is rejected. -/
theorem loose_or_rejects {c : Loop} {d : ℕ} {q : St} {s : List UInt8} (at_ : At c (d + 1) q s)
    {n : ℕ} (room : d + 1 + n = maxDepth) {stop : ℕ} (vend : (c.tree.stack 0).valueEnd = stop)
    (whole : stop = c.tree.len) (pos : 0 < c.i) (inner : q.Inner) :
    Rejects stop c ∨ ∃ s', Loose Anywhere n q s s' := by
  -- the text left gets shorter, in the same container or in one above it
  induction size : s.length using Nat.strongRecOn generalizing c d q s n with
  | ind length ih =>
    subst size
    have place := at_.i
    obtain ⟨k, s₁, q₁, token, moves⟩ | ⟨brace, s₁, token, closes⟩ |
      ⟨brace, s₁, q₁, token, deep, opens_⟩ | stuck := token_or_stuck (d + 1) q s
    · have shorter := lex_length token
      obtain ⟨c₁, eq, at₁, kept⟩ : ∃ c₁, branch 0 0 stop c = .ok (.go c₁) ∧ At c₁ (d + 1) q₁ s₁ ∧
          Kept (d + 1) c.tree c₁.tree :=
        branch_move at_ (by omega) vend token (by omega) moves
      have len := kept.len
      have place₁ := at₁.i
      have inner' := move_inner moves inner
      have vend₁ : (c₁.tree.stack 0).valueEnd = stop := by
        rw [kept.below 0 (Nat.succ_pos d)]
        exact vend
      rcases ih s₁.length shorter at₁ room vend₁ (by omega) (by omega) inner' rfl with
        rejects | ⟨s', loose⟩
      · exact .inl (rejects.before (kept.lower (Nat.succ_pos d))
          (runs_before (by omega) eq (by omega) at₁ inner'))
      · exact .inr ⟨s', .token token trivial moves loose⟩
    · exact .inr ⟨s₁, .closing token closes⟩
    · obtain ⟨m, rfl⟩ : ∃ m, n = m + 1 := ⟨n - 1, by omega⟩
      rw [opens_inner inner] at opens_
      have shorter := lex_length token
      obtain ⟨b, rfl, class_⟩ := lex_byte token rfl
      obtain ⟨c₁, name, eq, opened, _⟩ :=
        opening_ok at_ rfl brace deep ((opens_inner inner brace).trans opens_)
      have p : c.p = b :: (s₁ ++ [0]) := at_.p
      have step : branch 0 0 stop c = .ok (.go c₁) := by
        rw [branch_cons p, class_]
        exact eq
      have len := opened.kept.len
      have place₁ := opened.at_.i
      have body := inner_bodyState brace
      have vend₁ : (c₁.tree.stack 0).valueEnd = stop := by
        rw [opened.kept.below 0 (Nat.succ_pos d)]
        exact vend
      have steps := runs_before (by omega) step (by omega) opened.at_ body
      have room₁ : d + 1 + 1 + m = maxDepth := by omega
      rcases ih s₁.length shorter opened.at_ room₁ vend₁ (by omega) (by omega) body rfl with
        rejects | ⟨s₂, loose⟩
      · exact .inl (rejects.before (opened.kept.lower (Nat.succ_pos d)) steps)
      · have shorter' := loose_length loose
        obtain ⟨c₂, _, closed, _, runs⟩ := reads_loose (Nat.zero_le _) loose opened.at_ (by omega)
          vend₁ (by omega) (by omega) body
        have kept := opened.kept.trans closed.kept
        have inner' := afterNode_inner opens_
        have at₂ : At c₂ (d + 1) q₁ s₂ :=
          closed.at_ opened.state opened.calm (opened.kept.depths at_.depths)
        have len₂ := kept.len
        have place₂ := at₂.i
        have vend₂ : (c₂.tree.stack 0).valueEnd = stop := by
          rw [kept.below 0 (Nat.succ_pos d)]
          exact vend
        rcases ih s₂.length (by omega) at₂ room vend₂ (by omega) (by omega) inner' rfl with
          rejects | ⟨s', loose'⟩
        · refine .inl (rejects.before (kept.lower (Nat.succ_pos d)) fun r h => steps r (runs r ?_))
          unfold Checks
          rw [check_deep at₂ (Nat.succ_pos d) inner'.2]
          exact h
        · exact .inr ⟨s', .nested token opens_ loose loose'⟩
    · exact .inl (stuck_rejects at_ stuck (by omega) vend whole inner)

end Teres.Tools.Json
