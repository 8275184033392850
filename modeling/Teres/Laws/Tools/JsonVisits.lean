import Teres.Laws.Tools.JsonMembers
import Teres.Laws.Tools.JsonLanguage

/-!
# What the JSON visitor sees

`json__visitor` walks a document by reading every container again, member by member. It sees each
value once, in document order and behind its own members, with its type, its name and its value,
except for the members that the second reading loses (`visits_members`). So it sees the whole
document if and only if no such member stands at a closing bracket (`visits_iff`).
-/

namespace Teres.Tools.Json

/-! ## Seen values -/

/-- What a callback reads of an object. -/
def Obj.event (o : Obj) : Event where
  type := o.type
  name := (o.nameStart, o.nameEnd)
  value :=
    if o.type = .object ∨ o.type = .objectArray then none else some (o.valueStart, o.valueEnd)

/-- A callback that writes down what it reads. -/
def record (t : Tree) (obj : ℕ) (log : List Event) : ℤ × List Event :=
  (0, log ++ [(t.stack obj).event])

/-- What is fixed of a slot while its members are visited. -/
abbrev Core := ℕ × Ty × ℕ × ℕ × ℕ × ℕ

/-- The slots below `e`. -/
def above (t : Tree) (e : ℕ) : List Core := (List.range e).map fun k => (t.stack k).core

/-- What a callback returns: an error stops the visit. -/
def returned {σ : Type} : Except σ σ → ℤ × σ
  | .ok s => (0, s)
  | .error s => (1, s)

/-- A callback that reads of the tree what is fixed of the slots down to its object. -/
def Sees {σ : Type} (cb : Tree → ℕ → σ → ℤ × σ) (act : List UInt8 → List Core → σ → Except σ σ) :
    Prop :=
  ∀ (t : Tree) (e : ℕ) (s : σ), (t.stack e).depth = e →
    cb t e s = returned (act t.buf (above t (e + 1)) s)

/-- How a visit ends whose calls come to `r`: it keeps the slots up to `e` if it is not stopped. -/
def Outcome {σ : Type} (e : ℕ) (t : Tree) (m : M (ℤ × Tree × σ)) : Except σ σ → Prop
  | .ok s => ∃ t', m = .ok (0, t', s) ∧ Kept e t t'
  | .error s => ∃ t', m = .ok (1, t', s)

mutual

/-- The slots at every callback of a value in slot `e` at offset `i`, its own last. -/
def Value.paths (front : List Core) (name : ℕ × ℕ) (e i : ℕ) : Value → List (List Core)
  | .scalar type lexeme => [front ++ [(Value.scalar type lexeme).core name e i]]
  | .string body => [front ++ [(Value.string body).core name e i]]
  | .node brace members =>
    members.paths (front ++ [(Value.node brace members).core name e i]) (e + 1) (i + 1) ++
      [front ++ [(Value.node brace members).core name e i]]

/-- The slots at every callback of the members that are seen. -/
def Members.paths (front : List Core) (e i : ℕ) : Members → List (List Core)
  | .nil _ => []
  | .last head value post =>
    if value.lost post then [] else value.paths front (head.slice i) e (i + head.text.length)
  | .more head value post rest =>
    value.paths front (head.slice i) e (i + head.text.length) ++
      rest.paths front e (i + head.text.length + value.text.length + post.length + 1)

end

mutual

/-- The values of a value that are seen, itself last. -/
def Value.visited (name : ℕ × ℕ) (i : ℕ) : Value → List Event
  | .scalar type lexeme => [⟨type, name, some (i, i + lexeme.length)⟩]
  | .string body => [⟨.string, name, some (i + 1, i + 1 + body.length)⟩]
  | .node brace members => members.visited (i + 1) ++ [⟨nodeType brace, name, none⟩]

/-- The values of the members that are seen. -/
def Members.visited (i : ℕ) : Members → List Event
  | .nil _ => []
  | .last head value post =>
    if value.lost post then [] else value.visited (head.slice i) (i + head.text.length)
  | .more head value post rest =>
    value.visited (head.slice i) (i + head.text.length) ++
      rest.visited (i + head.text.length + value.text.length + post.length + 1)

end

/-- The type of a number or a keyword of the grammar. -/
theorem scalar_type {lexicon : Lexicon} {type : Ty} {l : List UInt8} (h : lexicon.Scalar type l) :
    type.Scalar := by
  rcases h with ⟨rfl, _⟩ | ⟨c, tail, _, class_⟩
  · exact .inr (.inr (.inr rfl))
  · exact keyword_type class_

/-- Where the scan goes on behind a value. -/
theorem resume_core {lexicon : Lexicon} {v : Value} (wf : v.WellFormed lexicon false) {o : Obj}
    {name : ℕ × ℕ} {e i : ℕ} (core : o.core = v.core name e i) : resume o = i + v.text.length := by
  have type := type_of_core core
  have end_ := valueEnd_of_core core
  cases v with
  | scalar type' l => exact (resume_scalar (type ▸ scalar_type wf)).trans end_
  | string body =>
    rw [resume_string type, end_]
    simp only [Value.text, Value.core, List.length_cons, List.length_append, List.length_nil]
    omega
  | node brace members =>
    rw [resume_container (type ▸ node_type brace), end_]
    simp only [Value.text, Value.core, List.length_cons, List.length_append, List.length_nil]
    omega

theorem above_succ (t : Tree) (e : ℕ) : above t (e + 1) = above t e ++ [(t.stack e).core] := by
  simp [above, List.range_succ]

theorem Kept.above {e : ℕ} {t t' : Tree} (kept : Kept e t t') :
    Json.above t' (e + 1) = Json.above t (e + 1) := by
  have below : Json.above t' e = Json.above t e := by
    refine List.map_congr_left fun k mem => ?_
    rw [kept.below k (List.mem_range.mp mem)]
  rw [above_succ, above_succ, below, kept.core]

/-- One call after another. -/
def calls {σ : Type} (act : List UInt8 → List Core → σ → Except σ σ) (buf : List UInt8)
    (paths : List (List Core)) (s : σ) : Except σ σ :=
  paths.foldlM (fun s path => act buf path s) s

section Visits

variable {σ : Type} {cb : Tree → ℕ → σ → ℤ × σ} {act : List UInt8 → List Core → σ → Except σ σ}
  {buf : List UInt8}

theorem calls_single (path : List Core) (s : σ) : calls act buf [path] s = act buf path s := by
  rw [calls, List.foldlM_cons]
  exact bind_pure (act buf path s)

theorem calls_append (paths paths' : List (List Core)) (s : σ) :
    calls act buf (paths ++ paths') s = calls act buf paths s >>= calls act buf paths' :=
  List.foldlM_append

/-- The end of a visit is what its last call returns. -/
theorem ends_call (sees : Sees cb act) {t₀ t : Tree} {e : ℕ} {s : σ} {m : M (ℤ × Tree × σ)}
    (depth : (t.stack e).depth = e) (kept : Kept e t₀ t)
    (call : m = .ok ((cb t e s).1, t, (cb t e s).2)) :
    Outcome e t₀ m (act t.buf (above t (e + 1)) s) := by
  rw [sees t e s depth] at call
  cases returns : act t.buf (above t (e + 1)) s with
  | ok s' =>
    rw [returns] at call
    exact ⟨t, call, kept⟩
  | error s' =>
    rw [returns] at call
    exact ⟨t, call⟩

/-- A visit of a value that is no container calls back. -/
theorem visits_leaf (sees : Sees cb act) {t : Tree} {e fuel : ℕ} {x : Core} {s : σ}
    (core : (t.stack e).core = x) (depth : x.1 = e) (leaf : ¬x.2.1.Container) (pos : 0 < fuel) :
    Outcome e t (visitor cb fuel t e s) (calls act t.buf [above t e ++ [x]] s) := by
  obtain ⟨fuel, rfl⟩ : ∃ n, fuel = n + 1 := ⟨fuel - 1, by omega⟩
  have type : (t.stack e).type = x.2.1 := type_of_core core
  have own : (t.stack e).depth = e := (congrArg Prod.fst core).trans depth
  rw [calls_single, ← core, ← above_succ]
  exact ends_call sees own (Kept.refl e t) (visitor_leaf (type ▸ leaf))

/-- What was kept before is kept throughout. -/
theorem Outcome.before {e : ℕ} {t t' : Tree} {m : M (ℤ × Tree × σ)} {r : Except σ σ}
    (ends : Outcome e t' m r) (kept : Kept e t t') : Outcome e t m r := by
  cases r with
  | error s => exact ends
  | ok s =>
    obtain ⟨t'', eq, kept'⟩ := ends
    exact ⟨t'', eq, kept.trans kept'⟩

/-- A visit that is stopped at a member. -/
theorem visitMembers_stopped {visit : Tree → ℕ → σ → M (ℤ × Tree × σ)} {e n child : ℕ}
    {t t' : Tree} {s s' : σ} (stopped : visit t child s = .ok (1, t', s')) :
    visitMembers visit e (n + 1) (some child) t s = .ok (1, t', s') := by
  rw [visitMembers, stopped]
  rfl

end Visits

/-! ## From member to member -/

/-- The text from offset `i` on. -/
structure Reads (t : Tree) (i : ℕ) (s : List UInt8) : Prop where
  buf : t.buf.drop i = s ++ [0]
  len : i + s.length = t.len

theorem Reads.behind {t : Tree} {i : ℕ} {a s : List UInt8} (h : Reads t i (a ++ s)) :
    Reads t (i + a.length) s where
  buf := by
    rw [← List.drop_drop, h.buf, List.append_assoc, List.drop_left]
  len := by
    rw [← h.len, List.length_append, Nat.add_assoc]

theorem Reads.kept {e i : ℕ} {t t' : Tree} {s : List UInt8} (h : Reads t i s) (kept : Kept e t t') :
    Reads t' i s :=
  ⟨by rw [kept.buf, h.buf], by rw [kept.len, h.len]⟩

section Next

variable {t : Tree} {e stop : ℕ} {brace : Bool} {s : List UInt8}

/-- `json__get_next` is the loop at the container, in front of `s`. -/
theorem getNext_runs (ready : Ready t e brace stop) (depths : ∀ k ≤ e, (t.stack k).depth = k)
    (room : e < maxDepth) {start : ℕ} (reads : Reads t start s) {child : Option ℕ} {q : St}
    (at_ : child = none ∧ start = (t.stack e).valueStart ∧ q = bodyState brace ∨
      child = some (e + 1) ∧ start = resume (t.stack (e + 1)) ∧ q = memberState brace ∧
        (t.stack e).state = q) :
    ∃ c, At c e q s ∧ c.i = start ∧ (c.tree.stack e).count = 0 ∧ Ready c.tree e brace stop ∧
      Kept e t c.tree ∧ ∀ r, Runs e stop c r → getNext t e child = r := by
  have state : (if child.isSome then (t.stack e).state
      else if (t.stack e).type = .objectArray then .arrayBody
      else if (t.stack e).type = .object then .objectBody else .init) = q := by
    rcases at_ with ⟨rfl, _, rfl⟩ | ⟨rfl, _, _, same⟩
    · rw [ready.type]
      cases brace <;> rfl
    · exact same
  have kind : q.InArray → brace = false := fun array => by
    cases brace with
    | false => rfl
    | true =>
      rcases at_ with ⟨_, _, rfl⟩ | ⟨_, _, rfl, _⟩
      · exact absurd array (not_inArray (.inr (.inr (.inr (.inr rfl)))))
      · exact absurd array (not_inArray (.inr (.inl rfl)))
  have begins_ : begins t e child = start := by
    rcases at_ with ⟨rfl, rfl, _⟩ | ⟨rfl, rfl, _⟩ <;> rfl
  obtain ⟨c, ret, i, p, kept, slot, runs⟩ :=
    getNext_enters (depths e (Nat.le_refl e)) room child
  have primed : ((prime t e child).stack e).state = q := by
    unfold prime
    rw [set_stack]
    exact state
  rw [begins_] at i p
  rw [primed] at slot
  have none := (congrArg Obj.childType slot).trans ready.childType
  have names : brace = false → _ := fun h =>
    (congrArg (fun o => (o.childNameS, o.childNameE)) slot).trans (ready.childName h)
  refine ⟨c, ⟨ret, p.trans reads.buf, i ▸ reads.len.trans kept.len.symm, congrArg Obj.state slot,
      .of_undefined none fun h => names (kind h), kept.depths depths⟩, i,
    congrArg Obj.count slot, ⟨kept.valueEnd.trans ready.valueEnd, kept.type.trans ready.type, none,
      names⟩, kept, fun r h => runs ?_⟩
  rw [ready.valueEnd]
  exact h

/-- Behind a value that has been found and visited, the scan goes on. -/
theorem Found.next {t₀ t₂ : Tree} {v : Value} {name : ℕ × ℕ} {i : ℕ} {lexicon : Lexicon}
    (found : Found t₀ t e brace v name i) (wf : v.WellFormed lexicon false)
    (ready : Ready t₀ e brace stop) (depths : ∀ k ≤ e, (t₀.stack k).depth = k) (room : e < maxDepth)
    (reads : Reads t₀ i (v.text ++ s)) (unnamed : brace = false → name = (0, 0))
    (kept : Kept (e + 1) t t₂) :
    ∃ c, At c e (memberState brace) s ∧ c.i = i + v.text.length ∧ (c.tree.stack e).count = 0 ∧
      Ready c.tree e brace stop ∧ Kept e t c.tree ∧
      ∀ r, Runs e stop c r → getNext t₂ e (some (e + 1)) = r := by
  have slot : t₂.stack e = t.stack e := kept.below e (Nat.lt_succ_self e)
  have below : Kept e t t₂ := kept.lower (Nat.lt_succ_self e)
  have all := found.kept.trans below
  have ready₂ : Ready t₂ e brace stop := by
    refine ⟨all.valueEnd.trans ready.valueEnd,
      all.type.trans ready.type, ?_, fun h => ?_⟩
    · rw [slot, found.childType]
    · rw [slot, found.childName, unnamed h]
  have member : (t₂.stack (e + 1)).core = v.core name (e + 1) i := kept.core.trans found.member
  have resumes := resume_core wf member
  obtain ⟨c, at_, i_, count, ready_, kept_, runs⟩ := getNext_runs ready₂ (all.depths depths) room
    (reads.behind.kept all) (.inr ⟨rfl, resumes.symm, rfl, by rw [slot, found.state]⟩)
  exact ⟨c, at_, i_, count, ready_, below.trans kept_, runs⟩

end Next

/-! ## The whole document -/

theorem Ready.idle {e stop : ℕ} {brace : Bool} {t t' : Tree} (ready : Ready t e brace stop)
    (idle : Idle e t t') : Ready t' e brace stop where
  valueEnd := idle.kept.valueEnd.trans ready.valueEnd
  type := idle.kept.type.trans ready.type
  childType := idle.childType.trans ready.childType
  childName h := idle.childName.trans (ready.childName h)

/-- Where there is no text, there is nothing to see. -/
theorem Members.WellFormed.unseen {lexicon : Lexicon} {bare brace : Bool} {members : Members}
    (wf : members.WellFormed lexicon bare brace) (empty : members.text.length = 0)
    {front : List Core} {e i : ℕ} : members.paths front e i = [] := by
  cases members with
  | nil => rfl
  | last head v post =>
    have pos := value_pos wf.2.2.1
    simp only [Members.text, List.length_append] at empty
    omega
  | more head v post rest =>
    have pos := value_pos wf.2.2.1
    simp only [Members.text, List.length_append] at empty
    omega

section Comma

variable {c : Loop} {e stop : ℕ} {brace : Bool} {post s : List UInt8}

/-- A comma next to the closing bracket stands behind the end of the range. -/
theorem comma_end (at_ : At c e (memberState brace) (post ++ s)) (blank : Blank post)
    (count : (c.tree.stack e).count = 0) (end_ : c.i + post.length = stop) :
    ∃ t, Runs e stop c (.ok (t, none)) ∧ Kept e c.tree t := by
  have going : memberState brace ≠ .stateEnd := by cases brace <;> decide
  obtain ⟨c', scans, _⟩ := scans_blanks count at_ blank (Nat.le_of_eq end_) going
  have i' := scans.i
  have notFound : Json.found e c' = none := by
    rw [found_eq, scans.at_.ret, scans.idle.count, count]
    exact if_neg fun h => nomatch h.2
  refine ⟨c'.tree, scans.runs _ ?_, scans.idle.kept⟩
  rw [← notFound]
  exact Runs.done (by omega)

/-- Behind any other comma the scan comes to the next member. -/
theorem comma_next {lexicon : Lexicon} {rest : Members} {k : List UInt8}
    (at_ : At c e (memberState brace) (post ++ 0x2C :: (rest.text ++ closingByte brace :: k)))
    (blank : Blank post) (count : (c.tree.stack e).count = 0) (ready : Ready c.tree e brace stop)
    (wf : rest.WellFormed lexicon false brace) (room : e < maxDepth)
    (deep : e + rest.depth ≤ maxDepth)
    (end_ : c.i + post.length + 1 + rest.text.length = stop + 1) (filled : 0 < rest.text.length) :
    ∃ t t' o, Runs e stop c (.ok (t', o)) ∧ Kept e c.tree t ∧ Ready t e brace stop ∧
      (∀ k ≤ e, (t.stack k).depth = k) ∧
      Scanned t t' e brace (c.i + post.length + 1) rest o := by
  have going : memberState brace ≠ .stateEnd := by cases brace <;> decide
  have inside : c.i + post.length ≤ stop := by omega
  obtain ⟨c₁, scans₁, _⟩ := scans_blanks count at_ blank inside going
  have i₁ := scans₁.i
  have below : c₁.i < stop := by omega
  obtain ⟨c₂, scans₂⟩ := scans_comma (scans₁.idle.count.trans count) scans₁.at_ below
  have i₂ := scans₂.i
  have idle := scans₁.idle.trans scans₂.idle
  have next : c₂.i = c.i + post.length + 1 := by omega
  obtain ⟨t', o, found, scanned⟩ := scans_members scans₂.at_ (.inr rfl) wf
    (idle.count.trans count) (ready.idle idle) room deep (by omega)
  rw [next] at scanned
  exact ⟨c₂.tree, t', o, scans₁.runs _ (scans₂.runs _ found), idle.kept, ready.idle idle,
    scans₂.at_.depths, scanned⟩

end Comma

section Behind

variable {t₀ t t₁ : Tree} {e stop i : ℕ} {brace : Bool} {v : Value} {name : ℕ × ℕ}
  {lexicon : Lexicon} {post k : List UInt8} (found : Found t₀ t e brace v name i)
  (wf : v.WellFormed lexicon false) (ready : Ready t₀ e brace stop)
  (depths : ∀ k ≤ e, (t₀.stack k).depth = k) (unnamed : brace = false → name = (0, 0))
  (kept : Kept (e + 1) t t₁) (blank : Blank post)
include found wf ready depths unnamed kept blank

/-- Behind the last member there is none. -/
theorem Found.after_last (room : e < maxDepth)
    (reads : Reads t₀ i (v.text ++ (post ++ closingByte brace :: k)))
    (end_ : i + v.text.length + post.length = stop + 1) :
    ∃ t₂, getNext t₁ e (some (e + 1)) = .ok (t₂, none) ∧ Kept e t t₂ := by
  obtain ⟨c, at_, i_, count, ready', kept', runs⟩ :=
    found.next wf ready depths room reads unnamed kept
  have going : memberState brace ≠ .stateEnd := by cases brace <;> decide
  have behind : c.i + post.length = stop + 1 := by omega
  obtain ⟨t₂, ended, kept₂⟩ := blanks_end at_ blank count going behind
  exact ⟨t₂, runs _ ended, kept'.trans kept₂⟩

/-- Behind any other member the scan comes to the next, or to the end behind a last comma. -/
theorem Found.after_more {rest : Members} (wfRest : rest.WellFormed lexicon false brace)
    (reads : Reads t₀ i (v.text ++ (post ++ 0x2C :: (rest.text ++ closingByte brace :: k))))
    (deep : e + (rest.depth + 1) ≤ maxDepth)
    (end_ : i + v.text.length + post.length + 1 + rest.text.length = stop + 1) :
    ∃ t₂ o, getNext t₁ e (some (e + 1)) = .ok (t₂, o) ∧ Kept e t t₂ ∧
      (rest.text.length = 0 ∧ o = none ∨ 0 < rest.text.length ∧ ∃ t', Kept e t₀ t' ∧
        Ready t' e brace stop ∧ (∀ k ≤ e, (t'.stack k).depth = k) ∧
        Reads t' (i + v.text.length + post.length + 1) (rest.text ++ closingByte brace :: k) ∧
        Scanned t' t₂ e brace (i + v.text.length + post.length + 1) rest o) := by
  obtain ⟨c, at_, i_, count, ready', kept', runs⟩ :=
    found.next wf ready depths (by omega) reads unnamed kept
  rcases Nat.eq_zero_or_pos rest.text.length with empty | filled
  · have atEnd : c.i + post.length = stop := by omega
    obtain ⟨t₂, ended, kept₂⟩ := comma_end at_ blank count atEnd
    exact ⟨t₂, none, runs _ ended, kept'.trans kept₂, .inl ⟨empty, rfl⟩⟩
  · obtain ⟨t', t₂, o, ran, kept₂, ready₂, depths₂, scanned⟩ :=
      comma_next at_ blank count ready' wfRest (by omega) (by omega) (by omega) filled
    have all : Kept e t₀ t' := found.kept.trans (kept'.trans kept₂)
    rw [i_] at scanned
    exact ⟨t₂, o, runs _ ran, kept'.trans (kept₂.trans scanned.kept), .inr ⟨filled, t', all, ready₂,
      depths₂, Reads.kept (Reads.behind (a := [0x2C]) reads.behind.behind) all, scanned⟩⟩

end Behind

mutual

/-- **A value is visited** in its slot. -/
theorem visits_value {σ : Type} {cb : Tree → ℕ → σ → ℤ × σ}
    {act : List UInt8 → List Core → σ → Except σ σ} (sees : Sees cb act) {lexicon : Lexicon} :
    ∀ {v : Value}, v.WellFormed lexicon false →
    ∀ {t : Tree} {e i : ℕ} {name : ℕ × ℕ} {k : List UInt8} (fuel : ℕ) (s : σ),
      (t.stack e).core = v.core name e i →
      (∀ inner members, v = .node inner members → Settled (t.stack e) inner) →
      (∀ k < e, (t.stack k).depth = k) →
      Reads t i (v.text ++ k) → e + v.depth ≤ maxDepth → v.text.length ≤ fuel →
      Outcome e t (visitor cb fuel t e s) (calls act t.buf (v.paths (above t e) name e i) s)
  | .scalar type l, wf, t, e, i, name, k, fuel, s, core, _, _, _, _, enough =>
    visits_leaf sees core rfl (scalar_type wf).leaf (Nat.lt_of_lt_of_le (scalar_pos wf) enough)
  | .string body, wf, t, e, i, name, k, fuel, s, core, _, _, _, _, enough =>
    have pos : 0 < (Value.string body).text.length := Nat.succ_pos _
    visits_leaf sees core rfl string_leaf (Nat.lt_of_lt_of_le pos enough)
  | .node brace members, wf, t, e, i, name, k, fuel, s, core, settled, depths, reads, deep,
      enough => by
    have length : (Value.node brace members).text.length = members.text.length + 2 := by
      simp only [Value.text, List.length_cons, List.length_append, List.length_nil]
    rw [length] at enough
    rw [Value.depth] at deep
    obtain ⟨fuel, rfl⟩ : ∃ n, fuel = n + 1 := ⟨fuel - 1, by omega⟩
    have type : (t.stack e).type = nodeType brace := type_of_core core
    have start : (t.stack e).valueStart = i + 1 := valueStart_of_core core
    have ready : Ready t e brace (i + members.text.length) :=
      ⟨valueEnd_of_core core, type, (settled brace members rfl).childType,
        (settled brace members rfl).childName⟩
    have depths' : ∀ k ≤ e, (t.stack k).depth = k := fun k hk =>
      (Nat.lt_or_eq_of_le hk).elim (depths k) fun h => h ▸ congrArg Prod.fst core
    rw [node_append] at reads
    have inside : Reads t (i + 1) (members.text ++ closingByte brace :: k) :=
      Reads.behind (a := [openingByte brace]) reads
    obtain ⟨c, at_, i_, count, ready', kept, runs⟩ := getNext_runs ready depths' (by omega) inside
      (.inl ⟨rfl, start.symm, rfl⟩)
    have room : e < maxDepth := by omega
    have end_ : c.i + members.text.length = i + members.text.length + 1 := by
      rw [i_]
      omega
    obtain ⟨t₁, o, found, scanned⟩ :=
      scans_members at_ (.inl rfl) wf count ready' room (by omega) end_
    rw [i_] at scanned
    have visited := visits_members sees wf fuel fuel s scanned ready' (kept.depths depths')
      (inside.kept kept) (by omega) deep (by omega) (by omega)
    rw [kept.above, kept.buf] at visited
    -- the members, then the container itself
    rw [Value.paths, ← core, ← above_succ, calls_append]
    rw [visitor_container (type ▸ node_type brace) (runs _ found)]
    cases members_ : calls act t.buf (members.paths (above t (e + 1)) (e + 1) (i + 1)) s with
    | error s₁ =>
      rw [members_] at visited
      obtain ⟨t₂, stopped⟩ := visited
      exact ⟨t₂, by rw [stopped]; rfl⟩
    | ok s₁ =>
      rw [members_] at visited
      obtain ⟨t₂, visited, kept'⟩ := visited
      have all : Kept e t t₂ := kept.trans (scanned.kept.trans kept')
      change Outcome e t _ (calls act t.buf [above t (e + 1)] s₁)
      rw [visited, calls_single, ← all.above, ← all.buf]
      exact ends_call sees (all.depths depths' e (Nat.le_refl e)) all rfl

/-- **The members are visited** that the scan finds. -/
theorem visits_members {σ : Type} {cb : Tree → ℕ → σ → ℤ × σ}
    {act : List UInt8 → List Core → σ → Except σ σ} (sees : Sees cb act) {lexicon : Lexicon} :
    ∀ {members : Members} {brace : Bool}, members.WellFormed lexicon false brace →
    ∀ {t₀ t : Tree} {e i stop : ℕ} {o : Option ℕ} {k : List UInt8} (n fuel : ℕ) (s : σ),
      Scanned t₀ t e brace i members o → Ready t₀ e brace stop →
      (∀ k ≤ e, (t₀.stack k).depth = k) →
      Reads t₀ i (members.text ++ closingByte brace :: k) →
      i + members.text.length = stop + 1 → e + (members.depth + 1) ≤ maxDepth →
      members.text.length ≤ fuel → members.text.length ≤ n →
      Outcome e t (visitMembers (visitor cb fuel) e n o t s)
        (calls act t₀.buf (members.paths (above t₀ (e + 1)) (e + 1) i) s)
  | .nil space, brace, wf, t₀, t, e, i, stop, o, k, n, fuel, s, scanned, _, _, _, _, _, _, _ => by
    obtain ⟨rfl, _⟩ := scanned
    exact ⟨t, visitMembers_none _, Kept.refl e t⟩
  | .last head v post, brace, wf, t₀, t, e, i, stop, o, k, n, fuel, s, scanned, ready, depths,
      reads, end_, deep, enough, enough' => by
    obtain ⟨wfHead, _, wfValue, blank⟩ := wf
    rw [last_append] at reads
    have length : (Members.last head v post).text.length =
        head.text.length + (v.text.length + post.length) := by
      rw [Members.text, List.length_append, List.length_append]
    rw [length] at end_ enough enough'
    rw [Members.depth] at deep
    rw [Members.paths]
    simp only [Scanned, Members.first] at scanned
    cases lost : v.lost post with
    | true =>
      rw [lost] at scanned
      obtain ⟨rfl, _⟩ := scanned
      exact ⟨t, visitMembers_none _, Kept.refl e t⟩
    | false =>
      rw [lost] at scanned
      obtain ⟨rfl, found⟩ := scanned
      rw [if_neg Bool.false_ne_true, ← found.kept.above, ← found.kept.buf]
      have pos := value_pos wfValue
      obtain ⟨n, rfl⟩ : ∃ m, n = m + 1 := ⟨n - 1, by omega⟩
      have unnamed : brace = false → head.slice i = (0, 0) := fun h =>
        head_unnamed (h ▸ wfHead) i
      have at_value := reads.behind
      have ends := visits_value sees wfValue fuel s found.member
        found.settled (fun k hk => found.kept.depths depths k (Nat.le_of_lt_succ hk))
        (at_value.kept found.kept) (by omega) (by omega)
      generalize calls act t.buf _ s = r at ends ⊢
      cases r with
      | error s₁ =>
        obtain ⟨t₁, stopped⟩ := ends
        exact ⟨t₁, visitMembers_stopped stopped⟩
      | ok s₁ =>
      obtain ⟨t₁, visited, kept⟩ := ends
      obtain ⟨t₂, next, kept₂⟩ := found.after_last wfValue ready depths unnamed kept blank
        (by omega) at_value (by omega)
      refine ⟨t₂, ?_, kept₂⟩
      rw [visitMembers_some visited next, visitMembers_none]
  | .more head v post rest, brace, wf, t₀, t, e, i, stop, o, k, n, fuel, s, scanned, ready,
      depths, reads, end_, deep, enough, enough' => by
    obtain ⟨wfHead, _, wfValue, blank, wfRest⟩ := wf
    rw [more_append] at reads
    have length : (Members.more head v post rest).text.length =
        head.text.length + (v.text.length + (post.length + 1 + rest.text.length)) := by
      simp only [Members.text, List.length_append, List.length_cons]
      omega
    rw [length] at end_ enough enough'
    rw [Members.depth] at deep
    obtain ⟨rfl, found⟩ := scanned
    rw [Members.paths, calls_append]
    have pos := value_pos wfValue
    obtain ⟨n, rfl⟩ : ∃ m, n = m + 1 := ⟨n - 1, by omega⟩
    have unnamed : brace = false → head.slice i = (0, 0) := fun h => head_unnamed (h ▸ wfHead) i
    have at_value := reads.behind
    have ends := visits_value sees wfValue fuel s found.member
      found.settled (fun k hk => found.kept.depths depths k (Nat.le_of_lt_succ hk))
      (at_value.kept found.kept) (by omega) (by omega)
    rw [found.kept.above, found.kept.buf] at ends
    generalize calls act t₀.buf (v.paths _ _ _ _) s = r at ends ⊢
    cases r with
    | error s₁ =>
      obtain ⟨t₁, stopped⟩ := ends
      exact ⟨t₁, visitMembers_stopped stopped⟩
    | ok s₁ =>
    obtain ⟨t₁, visited, kept⟩ := ends
    change Outcome e t _ (calls act t₀.buf (rest.paths _ _ _) s₁)
    obtain ⟨t₂, o, next, kept₂, ⟨empty, rfl⟩ | ⟨_, t', all, ready', depths', behind, scanned⟩⟩ :=
      found.after_more wfValue ready depths unnamed kept blank wfRest at_value (by omega) (by omega)
    · rw [wfRest.unseen empty]
      refine ⟨t₂, ?_, kept₂⟩
      rw [visitMembers_some visited next, visitMembers_none]
    · have later := visits_members sees wfRest n fuel s₁ scanned ready' depths' behind (by omega)
        (by omega) (by omega) (by omega)
      rw [all.above, all.buf] at later
      rw [visitMembers_some visited next]
      exact later.before kept₂

end

/-! ## All of the document -/

/-- What a callback reads of the fixed part of its slot. -/
def event (x : Core) : Event where
  type := x.2.1
  name := (x.2.2.1, x.2.2.2.1)
  value := if x.2.1.Container then none else some (x.2.2.2.2.1, x.2.2.2.2.2)

/-- What `record` writes down. -/
def logged (path : List Core) : List Event := (path.getLast?.map event).toList

theorem logged_concat (front : List Core) (x : Core) : logged (front ++ [x]) = [event x] := by
  rw [logged, List.getLast?_concat]
  rfl

theorem sees_record : Sees record fun _ path log => .ok (log ++ logged path) := by
  intro t e log _
  change _ = (0, log ++ logged (above t (e + 1)))
  rw [above_succ, logged_concat]
  rfl

/-- A callback that writes down something of its slots. -/
theorem calls_logged {β : Type} (g : List UInt8 → List Core → List β) (buf : List UInt8)
    (paths : List (List Core)) (log : List β) :
    calls (fun buf path log => .ok (log ++ g buf path)) buf paths log =
      .ok (log ++ paths.flatMap (g buf)) := by
  induction paths generalizing log with
  | nil => exact congrArg Except.ok (List.append_nil log).symm
  | cons path paths ih =>
    rw [List.flatMap_cons, ← List.append_assoc]
    exact ih (log ++ g buf path)

mutual

/-- `record` writes down the values that are seen. -/
theorem Value.logged_paths {lexicon : Lexicon} : ∀ {v : Value}, v.WellFormed lexicon false →
    ∀ (front : List Core) (name : ℕ × ℕ) (e i : ℕ),
      (v.paths front name e i).flatMap logged = v.visited name i
  | .scalar type l, wf, front, name, e, i => by
    have leaf : ¬type.Container := (scalar_type wf).leaf
    rw [Value.paths, List.flatMap_singleton, logged_concat, Value.visited]
    simp [event, Value.core, leaf]
  | .string body, _, front, name, e, i => by
    rw [Value.paths, List.flatMap_singleton, logged_concat, Value.visited]
    rfl
  | .node brace members, wf, front, name, e, i => by
    have container : (nodeType brace).Container := node_type brace
    rw [Value.paths, Value.visited, List.flatMap_append, Members.logged_paths wf,
      List.flatMap_singleton, logged_concat]
    simp [event, Value.core, container]

/-- The same of the members of a container. -/
theorem Members.logged_paths {lexicon : Lexicon} : ∀ {members : Members} {brace : Bool},
    members.WellFormed lexicon false brace → ∀ (front : List Core) (e i : ℕ),
      (members.paths front e i).flatMap logged = members.visited i
  | .nil _, _, _, _, _, _ => rfl
  | .last head v post, _, wf, front, e, i => by
    rw [Members.paths, Members.visited]
    cases v.lost post with
    | true => rfl
    | false => exact Value.logged_paths wf.2.2.1 _ _ _ _
  | .more head v post rest, _, wf, front, e, i => by
    rw [Members.paths, Members.visited, List.flatMap_append, Value.logged_paths wf.2.2.1,
      Members.logged_paths wf.2.2.2.2]

end

theorem Value.events_ne_nil (name : ℕ × ℕ) (i : ℕ) (v : Value) : v.events name i ≠ [] := by
  cases v with
  | node => exact List.append_ne_nil_of_right_ne_nil _ (List.cons_ne_nil _ _)
  | _ => exact List.cons_ne_nil _ _

mutual

/-- What is seen of a value is there, in the same order. -/
theorem Value.visited_sublist : ∀ (v : Value) (name : ℕ × ℕ) (i : ℕ),
    (v.visited name i).Sublist (v.events name i)
  | .scalar _ _, _, _ => List.Sublist.refl _
  | .string _, _, _ => List.Sublist.refl _
  | .node _ members, _, i => (members.visited_sublist (i + 1)).append (List.Sublist.refl _)

/-- The same of the members of a container. -/
theorem Members.visited_sublist : ∀ (members : Members) (i : ℕ),
    (members.visited i).Sublist (members.events i)
  | .nil _, _ => List.Sublist.refl _
  | .last head v post, i => by
    rw [Members.visited, Members.events]
    cases v.lost post with
    | true => exact List.nil_sublist _
    | false => exact v.visited_sublist _ _
  | .more head v post rest, i => by
    rw [Members.visited, Members.events]
    exact (v.visited_sublist _ _).append (rest.visited_sublist _)

end

/-- Two parts of a list are whole if both together are. -/
theorem append_eq_iff {α : Type} {a a' b b' : List α} (h : a.Sublist a') (h' : b.Sublist b') :
    a ++ b = a' ++ b' ↔ a = a' ∧ b = b' := by
  constructor
  · intro eq
    have lengths := congrArg List.length eq
    rw [List.length_append, List.length_append] at lengths
    have le := h.length_le
    have le' := h'.length_le
    exact ⟨h.eq_of_length (by omega), h'.eq_of_length (by omega)⟩
  · rintro ⟨rfl, rfl⟩
    rfl

mutual

/-- A value is seen with all that it holds if and only if no member of it is lost. -/
theorem Value.visited_eq : ∀ (v : Value) (name : ℕ × ℕ) (i : ℕ),
    v.visited name i = v.events name i ↔ v.Roomy
  | .scalar _ _, _, _ => iff_of_true rfl trivial
  | .string _, _, _ => iff_of_true rfl trivial
  | .node _ members, _, i => by
    rw [Value.visited, Value.events, List.append_cancel_right_eq, Value.Roomy]
    exact members.visited_eq (i + 1)

/-- The same of the members of a container. -/
theorem Members.visited_eq : ∀ (members : Members) (i : ℕ),
    members.visited i = members.events i ↔ members.Roomy
  | .nil _, _ => iff_of_true rfl trivial
  | .last head v post, i => by
    rw [Members.visited, Members.events, Members.Roomy]
    cases lost : v.lost post with
    | true =>
      obtain ⟨tight, empty⟩ := Bool.and_eq_true_iff.mp lost
      refine iff_of_false (fun h => v.events_ne_nil _ _ h.symm) ?_
      rintro ⟨_, space⟩
      exact space tight (List.isEmpty_iff.mp empty)
    | false =>
      have space : v.tight = true → post ≠ [] := by
        rintro tight rfl
        rw [Value.lost, tight] at lost
        exact nomatch lost
      rw [if_neg (by decide), v.visited_eq]
      exact (and_iff_left space).symm
  | .more head v post rest, i => by
    rw [Members.visited, Members.events, Members.Roomy,
      append_eq_iff (v.visited_sublist _ _) (rest.visited_sublist _), v.visited_eq, rest.visited_eq]

end

/-- A tree in which a document has been read: its root is in slot 1. -/
structure Parsed (t : Tree) (space : List UInt8) (members : Members) (rest : List UInt8) :
    Prop where
  buf : t.buf = space ++ ((Value.node true members).text ++ rest) ++ [0]
  root : (t.stack 0).depth = 0
  core : (t.stack 1).core = (Value.node true members).core (0, 0) 1 space.length
  settled : Settled (t.stack 1) true
  reads : Reads t space.length ((Value.node true members).text ++ rest)

/-- **A document is read as an object.** -/
theorem parse_document {lexicon : Lexicon} {space : List UInt8} {members : Members}
    (blank : Blank space) (wf : (Value.node true members).WellFormed lexicon false)
    (deep : (Value.node true members).depth < maxDepth) (rest : List UInt8) (memory : Tree) :
    ∃ t, parse (space ++ ((Value.node true members).text ++ rest)) memory = .ok (t, some 1) ∧
      Parsed t space members rest := by
  have length : (Value.node true members).text.length = members.text.length + 2 := by
    simp only [Value.text, List.length_cons, List.length_append, List.length_nil]
  rw [Value.depth] at deep
  have loose : Loose (Placed lexicon) (maxDepth - 1) .objectBody
      (members.text ++ closingByte true :: rest) rest :=
    (loose_members (fun _ _ h => h) (Members.WellFormed.bare wf) (.inl rfl)).mpr
      ⟨wf, Nat.le_pred_of_lt (Nat.lt_of_succ_lt deep), rfl⟩
  obtain ⟨t, parsed, buf, len, root, core, child⟩ := parse_object blank loose memory
  have text : space ++ ((Value.node true members).text ++ rest) =
      space ++ 0x7B :: (members.text ++ closingByte true :: rest) := by
    rw [node_append]
    rfl
  rw [← text] at parsed buf len
  have reads : Reads t space.length ((Value.node true members).text ++ rest) := by
    refine ⟨?_, ?_⟩
    · rw [buf, List.append_assoc, List.drop_left]
    · rw [len]
      exact List.length_append.symm
  have size := reads.len
  rw [List.length_append, length] at size
  have valueEnd : t.len - rest.length - 2 = space.length + members.text.length := by omega
  rw [valueEnd] at core
  exact ⟨t, parsed, buf, root, core, ⟨child, fun h => nomatch h⟩, reads⟩

/-- The conditions on the slots of the root. -/
theorem Parsed.slots {t : Tree} {space rest : List UInt8} {members : Members}
    (parsed : Parsed t space members rest) :
    (∀ inner inside, Value.node true members = .node inner inside → Settled (t.stack 1) inner) ∧
      ∀ k < 1, (t.stack k).depth = k := by
  refine ⟨fun inner _ same => ?_, fun k hk => ?_⟩
  · obtain ⟨rfl, _⟩ := Value.node.inj same
    exact parsed.settled
  · obtain rfl := Nat.lt_one_iff.mp hk
    exact parsed.root

/-- **A document is visited**: a visit of it makes the calls that are seen. -/
theorem visits_document {σ : Type} {cb : Tree → ℕ → σ → ℤ × σ}
    {act : List UInt8 → List Core → σ → Except σ σ} (sees : Sees cb act) {lexicon : Lexicon}
    {space : List UInt8} {members : Members} (blank : Blank space)
    (wf : (Value.node true members).WellFormed lexicon false)
    (deep : (Value.node true members).depth < maxDepth) (rest : List UInt8) (memory : Tree) :
    ∃ t, parse (space ++ ((Value.node true members).text ++ rest)) memory = .ok (t, some 1) ∧
      t.buf = space ++ ((Value.node true members).text ++ rest) ++ [0] ∧
      ∀ fuel ≥ members.text.length + 2, ∀ s, Outcome 1 t (visitor cb fuel t 1 s)
        (calls act t.buf
          ((Value.node true members).paths (above t 1) (0, 0) 1 space.length) s) := by
  obtain ⟨t, parsed, document⟩ := parse_document blank wf deep rest memory
  obtain ⟨settled, depths⟩ := document.slots
  have length : (Value.node true members).text.length = members.text.length + 2 := by
    simp only [Value.text, List.length_cons, List.length_append, List.length_nil]
  refine ⟨t, parsed, document.buf, fun fuel enough s => ?_⟩
  exact visits_value (v := .node true members) sees wf fuel s document.core settled depths
    document.reads (by omega) (by omega)

/-- The text is read as an object, and a visit calls back for each of its values. -/
def VisitsAll (space : List UInt8) (members : Members) (rest : List UInt8) (memory : Tree) : Prop :=
  ∃ t, parse (space ++ ((Value.node true members).text ++ rest)) memory = .ok (t, some 1) ∧
    ∀ fuel ≥ members.text.length + 2, ∃ t', visitor record fuel t 1 [] =
      .ok (0, t', (Value.node true members).events (0, 0) space.length)

/-- **A visit sees the whole document** if and only if none of its containers ends with a container
or a number of one byte that stands next to the closing bracket. -/
theorem visits_iff {lexicon : Lexicon} {space : List UInt8} {members : Members}
    (blank : Blank space) (wf : (Value.node true members).WellFormed lexicon false)
    (deep : (Value.node true members).depth < maxDepth) (rest : List UInt8) (memory : Tree) :
    VisitsAll space members rest memory ↔ members.Roomy := by
  obtain ⟨t, parsed, _, visits⟩ := visits_document sees_record blank wf deep rest memory
  have seen : ∀ fuel ≥ members.text.length + 2, ∃ t', visitor record fuel t 1 [] =
      .ok (0, t', (Value.node true members).visited (0, 0) space.length) := by
    intro fuel enough
    have ends := visits fuel enough []
    rw [calls_logged fun _ => logged, Value.logged_paths wf, List.nil_append] at ends
    obtain ⟨t', visited, _⟩ := ends
    exact ⟨t', visited⟩
  rw [← members.visited_eq (space.length + 1), ← List.append_cancel_right_eq _
    [⟨nodeType true, (0, 0), none⟩]]
  change _ ↔ (Value.node true members).visited (0, 0) space.length =
    (Value.node true members).events (0, 0) space.length
  constructor
  · rintro ⟨t', parsed', all⟩
    obtain ⟨rfl, _⟩ := Prod.mk.inj (Except.ok.inj (parsed.symm.trans parsed'))
    obtain ⟨_, all⟩ := all _ (Nat.le_refl _)
    obtain ⟨_, some_⟩ := seen _ (Nat.le_refl _)
    exact (Prod.mk.inj (Prod.mk.inj (Except.ok.inj (some_.symm.trans all))).2).2
  · intro same
    exact ⟨t, parsed, fun fuel enough => same ▸ seen fuel enough⟩

/-- The inside of `{"a":1}`, with white space in front of the closing bracket. -/
def loneNumber (post : List UInt8) : Members :=
  .last ⟨[], some ⟨[0x61], [], []⟩⟩ (.scalar .number [0x31]) post

theorem loneNumber_wellFormed {post : List UInt8} (blank : Blank post) :
    (Value.node true (loneNumber post)).WellFormed Lexicon.full false := by
  have one : Numeral [0x31] := ⟨by decide, by decide, 0x31, [], rfl, by decide⟩
  have name : Quoted [0x61] := by decide
  have empty : Blank [] := fun _ h => nomatch h
  exact ⟨⟨empty, rfl, name, empty, empty⟩, fun _ => .inl rfl, .inl ⟨rfl, one⟩, blank⟩

/-- The inside of `{"a":["x",{"b":12} ],"c":true}`. -/
def nested : Members :=
  .more ⟨[], some ⟨[0x61], [], []⟩⟩
    (.node false (.more ⟨[], none⟩ (.string [0x78]) []
      (.last ⟨[], none⟩ (.node true
        (.last ⟨[], some ⟨[0x62], [], []⟩⟩ (.scalar .number [0x31, 0x32]) [])) [0x20]))) []
    (.last ⟨[], some ⟨[0x63], [], []⟩⟩ (.scalar .booleanTrue [0x74, 0x72, 0x75, 0x65]) [])

theorem nested_wellFormed : (Value.node true nested).WellFormed Lexicon.full false := by
  have empty : Blank [] := fun _ h => nomatch h
  have number : Numeral [0x31, 0x32] := ⟨by decide, by decide, 0x31, [0x32], rfl, by decide⟩
  have keyword : Lexicon.full.Scalar .booleanTrue [0x74, 0x72, 0x75, 0x65] :=
    .inr ⟨_, _, rfl, rfl⟩
  have head (c : UInt8) (name : Quoted [c]) :
      Head.WellFormed Lexicon.full true ⟨[], some ⟨[c], [], []⟩⟩ :=
    ⟨empty, rfl, name, empty, empty⟩
  have unnamed : Head.WellFormed Lexicon.full false ⟨[], none⟩ := ⟨empty, rfl⟩
  have string : Quoted [0x78] := by decide
  have inner : Members.WellFormed Lexicon.full false true
      (.last ⟨[], some ⟨[0x62], [], []⟩⟩ (.scalar .number [0x31, 0x32]) []) :=
    ⟨head 0x62 (by decide), fun _ => .inl rfl, .inl ⟨rfl, number⟩, empty⟩
  have array : Members.WellFormed Lexicon.full false false
      (.more ⟨[], none⟩ (.string [0x78]) [] (.last ⟨[], none⟩ (.node true
        (.last ⟨[], some ⟨[0x62], [], []⟩⟩ (.scalar .number [0x31, 0x32]) [])) [0x20])) :=
    ⟨unnamed, nofun, string, empty, unnamed, nofun, inner, by decide⟩
  exact ⟨head 0x61 (by decide), nofun, array, empty, head 0x63 (by decide), fun _ => .inl rfl,
    keyword, empty⟩

/-- There all six values are seen. -/
theorem visits_nested : VisitsAll [] nested [] zeroed :=
  have empty : Blank [] := fun _ h => nomatch h
  (visits_iff empty nested_wellFormed (by decide) [] zeroed).mpr
    ⟨⟨trivial, ⟨trivial, nofun⟩, fun _ => List.cons_ne_nil _ _⟩, trivial, nofun⟩

/-- In `{"a":1}` it is not: the object alone is seen. -/
theorem last_number_lost : (Value.node true (loneNumber [])).WellFormed Lexicon.full false ∧
    (Value.node true (loneNumber [])).text = [0x7B, 0x22, 0x61, 0x22, 0x3A, 0x31, 0x7D] ∧
    ¬ VisitsAll [] (loneNumber []) [] zeroed := by
  refine ⟨loneNumber_wellFormed fun _ h => (nomatch h), rfl, ?_⟩
  rintro ⟨t, parsed, all⟩
  have log : (parse [0x7B, 0x22, 0x61, 0x22, 0x3A, 0x31, 0x7D] zeroed >>= fun r =>
      (visitor record 7 r.1 1 []).map fun r => r.2.2) = .ok [⟨.object, (0, 0), none⟩] := by
    decide +kernel
  obtain ⟨t', visited⟩ := all 7 (Nat.le_refl 7)
  have parsed' : parse [0x7B, 0x22, 0x61, 0x22, 0x3A, 0x31, 0x7D] zeroed = .ok (t, some 1) := parsed
  rw [parsed'] at log
  change (visitor record 7 t 1 []).map _ = _ at log
  rw [visited] at log
  exact nomatch Except.ok.inj log

end Teres.Tools.Json
