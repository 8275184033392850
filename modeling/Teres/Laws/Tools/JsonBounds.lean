import Teres.Laws.Tools.JsonScan

/-!
# What the JSON parser touches

The loop keeps to the text and its NUL, and to the slots of the stack: `Held` is what holds of the
tree at every round, and one round keeps it whatever the byte is (`Loop.Sound.branch`). So no call
of `json__get` reads or writes out of bounds, in a parse and in the visits of what it returns
(`in_bounds`).
-/

namespace Teres.Tools.Json

variable {text : List UInt8}

/-! ## Bytes -/

theorem drop_cons {i : ℕ} {c : UInt8} {s : List UInt8} (at_ : text.drop i = c :: s) :
    text.drop (i + 1) = s ∧ i < text.length := by
  constructor
  · rw [← List.drop_drop, at_]
    rfl
  · refine Nat.lt_of_not_le fun ended => ?_
    rw [List.drop_eq_nil_of_le ended] at at_
    cases at_

/-- **The loop over a string stays in the text.** -/
theorem skipString_within {stop : ℕ} (inside : stop ≤ text.length) {s : List UInt8} {i : ℕ}
    (at_ : text.drop i = s) : i ≤ text.length → ∃ i',
      skipString stop i (s ++ [0]) = .ok (i', text.drop i' ++ [0]) ∧ i ≤ i' ∧ i' ≤ text.length := by
  have here {i : ℕ} {s : List UInt8} (at_ : text.drop i = s) (bound : i ≤ text.length) {c : UInt8}
      {p : List UInt8} (eq : s ++ [0] = c :: p) (ends : ¬(c ≠ quote ∧ i < stop)) : ∃ i',
        skipString stop i (s ++ [0]) = .ok (i', text.drop i' ++ [0]) ∧ i ≤ i' ∧
          i' ≤ text.length := by
    refine ⟨i, ?_, Nat.le_refl i, bound⟩
    rw [at_, eq]
    exact skipString_stop ends p
  induction s using quoted.induct generalizing i with
  | case1 =>
    intro bound
    have end_ : text.length ≤ i := List.drop_eq_nil_iff.1 at_
    exact here at_ bound rfl fun more => absurd more.2 (by omega)
  | case2 s =>
    intro bound
    exact here at_ bound rfl fun more => more.1 rfl
  | case3 =>
    intro bound
    obtain ⟨next, _⟩ := drop_cons at_
    by_cases below : i < stop
    · have end_ : text.length ≤ i + 1 := List.drop_eq_nil_iff.1 next
      obtain ⟨i', read, later, bound'⟩ :=
        here next (by omega) (c := 0) rfl fun more => absurd more.2 (by omega)
      exact ⟨i', (skipString_lone (by decide) below []).trans read, by omega, bound'⟩
    · exact here at_ bound rfl fun more => below more.2
  | case4 d s esc _ ih =>
    intro bound
    obtain ⟨next, _⟩ := drop_cons at_
    obtain ⟨next', _⟩ := drop_cons next
    by_cases below : i < stop
    · obtain ⟨i', read, later, bound'⟩ := ih next' (by omega)
      exact ⟨i', (skipString_escape esc below _).trans read, by omega, bound'⟩
    · exact here at_ bound rfl fun more => below more.2
  | case5 d s lone _ ih =>
    intro bound
    obtain ⟨next, _⟩ := drop_cons at_
    by_cases below : i < stop
    · obtain ⟨i', read, later, bound'⟩ := ih next (by omega)
      exact ⟨i', (skipString_lone lone below _).trans read, by omega, bound'⟩
    · exact here at_ bound rfl fun more => below more.2
  | case6 c s h₁ h₂ ih =>
    intro bound
    obtain ⟨next, _⟩ := drop_cons at_
    by_cases below : i < stop
    · obtain ⟨i', read, later, bound'⟩ := ih next (by omega)
      exact ⟨i', (skipString_plain h₁ h₂ below _).trans read, by omega, bound'⟩
    · exact here at_ bound rfl fun more => below more.2

/-- The rest of a text from the byte on that it begins with. -/
theorem drop_suffix {i i' : ℕ} {s s' : List UInt8} (at_ : text.drop i = s) (suffix : s' <:+ s)
    (place : i' + s'.length = i + s.length) : text.drop i' = s' := by
  obtain ⟨l, rfl⟩ := suffix
  rw [List.length_append] at place
  obtain rfl : i' = i + l.length := by omega
  rw [← List.drop_drop, at_, List.drop_left]

/-! ## Slots -/

/-- A slot in order: at its own depth, with an end in the text, and read from behind a byte. -/
structure Slot (text : List UInt8) (k : ℕ) (o : Obj) : Prop where
  depth : o.depth = k
  valueEnd : o.valueEnd ≤ text.length
  begins : o.type.Container → 0 < o.valueStart
  resumes : 0 < resume o

theorem Slot.of_core {k : ℕ} {o o' : Obj} (h : Slot text k o) (core : o'.core = o.core) :
    Slot text k o' := by
  have same := resume_same core
  simp only [Obj.core, Prod.mk.injEq] at core
  obtain ⟨depth, type, _, _, valueStart, valueEnd⟩ := core
  refine ⟨depth.trans h.depth, ?_, fun container => ?_, same ▸ h.resumes⟩
  · rw [valueEnd]
    exact h.valueEnd
  · rw [valueStart]
    exact h.begins (type ▸ container)

/-- A scalar or a string that ends behind a byte is in order. -/
theorem Slot.leaf {k : ℕ} {o : Obj} (depth : o.depth = k) (bound : o.valueEnd ≤ text.length)
    (pos : 0 < o.valueEnd) (leaf : ¬o.type.Container) : Slot text k o := by
  refine ⟨depth, bound, fun container => absurd container leaf, ?_⟩
  unfold Ty.Container at leaf
  unfold resume
  rw [if_neg leaf]
  split_ifs
  · exact pos
  · exact Nat.succ_pos _

/-- A container is in order from its opening bracket on. -/
theorem Slot.container {k : ℕ} {o : Obj} (depth : o.depth = k) (bound : o.valueEnd ≤ text.length)
    (type : o.type.Container) (begins : 0 < o.valueStart) : Slot text k o := by
  refine ⟨depth, bound, fun _ => begins, ?_⟩
  rw [resume_container type]
  exact Nat.succ_pos _

/-- **What holds of the tree while slot `d` is read**, with the current object in slot `e`: the
slots up to both are in order, so is the slot above one that has members, those between hold
containers, and below slot `d` no object is read anew. -/
structure Held (text : List UInt8) (d : ℕ) (t₀ : Tree) (e : ℕ) (t : Tree) : Prop where
  buf : t.buf = text ++ [0]
  len : t.len = text.length
  root : (t.stack 0).type = .undefined
  slots : ∀ k ≤ max d e, Slot text k (t.stack k)
  members : ∀ k ≤ e, d ≤ k → 0 < (t.stack k).count → Slot text (k + 1) (t.stack (k + 1))
  types : ∀ k ≤ max d e, d ≤ k → 0 < k → (t.stack k).type.Container
  below : ∀ k < d, (t.stack k).core = (t₀.stack k).core

section Held

variable {d e : ℕ} {t₀ t : Tree}

/-- A write that leaves the core, at a slot that has a member in order if it has any. -/
theorem Held.write (h : Held text d t₀ e t) {k : ℕ} {o : Obj} (core : o.core = (t.stack k).core)
    (members : k ≤ e → d ≤ k → 0 < o.count → Slot text (k + 1) (t.stack (k + 1))) :
    Held text d t₀ e (t.set k o) := by
  have cores := set_core core
  have types (j : ℕ) : ((t.set k o).stack j).type = (t.stack j).type := type_of_core (cores j)
  refine ⟨h.buf, h.len, (types 0).trans h.root,
    fun j bound => (h.slots j bound).of_core (cores j), ?_, ?_, ?_⟩
  · intro j bound above more
    refine Slot.of_core ?_ (cores (j + 1))
    rw [set_stack_eq] at more
    split_ifs at more with same
    · subst same
      exact members bound above more
    · exact h.members j bound above more
  · intro j bound above pos
    rw [types]
    exact h.types j bound above pos
  · exact fun j bound => (cores j).trans (h.below j bound)

/-- A write of an object in order, above the slots that are kept. -/
theorem Held.put (h : Held text d t₀ e t) {k : ℕ} {o : Obj} (above : d ≤ k) (pos : 0 < k)
    (order : Slot text k o) (type : k ≤ max d e → o.type.Container)
    (members : k ≤ e → 0 < o.count → Slot text (k + 1) (t.stack (k + 1))) :
    Held text d t₀ e (t.set k o) := by
  have slot {j : ℕ} (before : Slot text j (t.stack j)) : Slot text j ((t.set k o).stack j) := by
    rw [set_stack_eq]
    split_ifs with same
    · exact same ▸ order
    · exact before
  refine ⟨h.buf, h.len, ?_, fun j bound => slot (h.slots j bound), ?_, ?_, ?_⟩
  · rw [set_stack_eq, if_neg (Nat.ne_of_lt pos)]
    exact h.root
  · intro j bound above' more
    refine slot ?_
    rw [set_stack_eq] at more
    split_ifs at more with same
    · subst same
      exact members bound more
    · exact h.members j bound above' more
  · intro j bound above' pos'
    rw [set_stack_eq]
    split_ifs with same
    · subst same
      exact type bound
    · exact h.types j bound above' pos'
  · intro j bound
    rw [set_stack_eq, if_neg (by omega)]
    exact h.below j bound

/-- The current object may be one below. -/
theorem Held.down (h : Held text d t₀ (e + 1) t) : Held text d t₀ e t where
  buf := h.buf
  len := h.len
  root := h.root
  slots k bound := h.slots k (by omega)
  members k bound := h.members k (Nat.le_succ_of_le bound)
  types k bound := h.types k (by omega)
  below := h.below

theorem Held.setState (h : Held text d t₀ e t) (k : ℕ) (q : St) :
    Held text d t₀ e (t.setState k q) := h.write rfl (h.members k)

theorem Held.error (h : Held text d t₀ e t) (offset : ℕ) (message : String) :
    Held text d t₀ e (t.error offset message) :=
  ⟨h.buf, h.len, h.root, h.slots, h.members, h.types, h.below⟩

theorem Held.prepared {c : Loop} (h : Held text d t₀ e c.tree) (type : Ty) :
    Held text d t₀ e (c.prepared type) := by
  unfold Loop.prepared
  split_ifs
  · exact h.write rfl (h.members c.ret)
  · exact h

theorem Held.depth (h : Held text d t₀ e t) : (t.stack e).depth = e :=
  (h.slots e (Nat.le_max_right d e)).depth

/-- **A member added** is in order. -/
theorem Held.addMember (h : Held text d t₀ e t) (above : d ≤ e) (bound : e ≤ maxDepth) {type : Ty}
    (leaf : ¬type.Container) {j : ℕ} (i : ℕ) (pos : 0 < j) (inside : j ≤ text.length) :
    ∃ t' r, Json.addMember t e type i j = .ok (t', r) ∧ Held text d t₀ e t' := by
  have other : e ≠ e + 1 := by omega
  unfold Json.addMember
  simp only [h.depth]
  by_cases mismatch : (t.stack e).childType ≠ .undefined ∧
      ((t.stack e).childType ≠ type ∨ (t.stack e).type ≠ .object)
  · rw [if_pos mismatch]
    exact ⟨_, _, rfl, h.error _ _⟩
  · rw [if_neg mismatch, slot_ok t (by omega)]
    refine ⟨_, _, rfl, (h.put (by omega) (Nat.succ_pos e) (Slot.leaf rfl inside pos leaf)
      (fun ended => absurd ended (by omega)) fun ended => absurd ended (by omega)).write ?_
      fun _ _ _ => ?_⟩
    · rw [set_stack_of_ne t other]
      simp only [Obj.core, h.depth]
    · rw [set_stack]
      exact Slot.leaf rfl inside pos leaf

/-- The object above is filled anew. -/
theorem Held.fill (h : Held text d t₀ e t) (above : d ≤ e) {t' : Tree} {o : Obj}
    (buf : t'.buf = t.buf) (len : t'.len = t.len)
    (same : ∀ k ≤ e, (t'.stack k).core = (t.stack k).core)
    (counts : ∀ k < e, (t'.stack k).count = (t.stack k).count)
    (order : Slot text (e + 1) o) (type : o.type.Container) (none : o.count = 0) :
    Held text d t₀ (e + 1) (t'.set (e + 1) o) := by
  have slot {k : ℕ} (before : k ≤ e → Slot text k (t.stack k)) (bound : k ≤ e + 1) :
      Slot text k ((t'.set (e + 1) o).stack k) := by
    rw [set_stack_eq]
    split_ifs with top
    · exact top ▸ order
    · exact (before (by omega)).of_core (same k (by omega))
  refine ⟨buf.trans h.buf, len.trans h.len, ?_, fun k bound => ?_, ?_, ?_, ?_⟩
  · rw [set_stack_eq, if_neg (by omega)]
    exact (type_of_core (same 0 (Nat.zero_le e))).trans h.root
  · exact slot (fun le => h.slots k (by omega)) (by omega)
  · intro k bound above' more
    rw [set_stack_eq] at more
    split_ifs at more with top
    · rw [none] at more
      exact absurd more (Nat.lt_irrefl 0)
    · refine slot (fun le => ?_) (by omega)
      rw [counts k (by omega)] at more
      exact h.members k (by omega) above' more
  · intro k bound above' pos
    rw [set_stack_eq]
    split_ifs with top
    · exact type
    · have type' : (t'.stack k).type = (t.stack k).type := type_of_core (same k (by omega))
      rw [type']
      exact h.types k (by omega) above' pos
  · intro k bound
    rw [set_stack_eq, if_neg (by omega)]
    exact (same k (by omega)).trans (h.below k bound)

/-- A push leaves no end of a value. -/
theorem push_valueEnd {k i : ℕ} {t' : Tree} (depth : (t.stack e).depth = e)
    (pushed : Json.push t e i = .ok (t', some k)) : (t'.stack k).valueEnd = 0 := by
  unfold Json.push at pushed
  simp only [depth] at pushed
  by_cases full : maxDepth ≤ e
  · rw [if_pos full] at pushed
    cases pushed
  · have room : e + 1 < maxDepth + 2 := by omega
    rw [if_neg full, slot_ok t room] at pushed
    by_cases named : (t.stack e).childType ≠ .undefined
    · simp only [if_pos named] at pushed
      cases pushed
      rw [set_stack_of_ne _ (by omega), set_stack]
    · simp only [if_neg named] at pushed
      cases pushed
      rw [set_stack]

/-- **A push** for a bracket, with its type and its state. -/
theorem Held.opened {c : Loop} (h : Held text d t₀ c.ret t) (above : d ≤ c.ret) (brace : Bool)
    (p : List UInt8) :
    (∃ t', Json.opened brace c p t = .ok (.error t') ∧ Held text d t₀ c.ret t') ∨
      ∃ t', Json.opened brace c p t = .ok (.go { c.on p t' with ret := c.ret + 1 }) ∧
        c.ret < maxDepth ∧ Held text d t₀ (c.ret + 1) t' := by
  have type : (if brace then Ty.object else Ty.objectArray).Container := by
    cases brace
    · exact .inr rfl
    · exact .inl rfl
  by_cases room : c.ret < maxDepth
  · obtain ⟨t', pushed, kept, _, fresh⟩ := push_ok h.depth room c.i
    have end_ := push_valueEnd h.depth pushed
    unfold Json.opened
    rw [pushed]
    refine .inr ⟨_, rfl, room, h.fill above kept.buf kept.len (fun k le => ?_) (fun k below => ?_)
      (Slot.container fresh.depth ?_ type ?_) type fresh.count⟩
    · rcases Nat.lt_or_eq_of_le le with below | rfl
      · rw [kept.below k below]
      · exact kept.core
    · rw [kept.below k below]
    · exact end_.trans_le (Nat.zero_le _)
    · exact fresh.start ▸ Nat.succ_pos c.i
  · have full : push t c.ret c.i =
        .ok (t.error c.i "too many nested level of objects", none) := by
      unfold push
      simp only [h.depth]
      rw [if_pos (Nat.le_of_not_lt room)]
    unfold Json.opened
    rw [full]
    exact .inl ⟨_, rfl, h.error _ _⟩

/-- **An opening bracket.** -/
theorem Held.opening {c : Loop} (h : Held text d t₀ c.ret c.tree) (above : d ≤ c.ret)
    (brace : Bool) (p : List UInt8) :
    (∃ t', Json.opening brace c p = .ok (.error t') ∧ Held text d t₀ c.ret t') ∨
      ∃ t', Json.opening brace c p = .ok (.go { c.on p t' with ret := c.ret + 1 }) ∧
        c.ret < maxDepth ∧ Held text d t₀ (c.ret + 1) t' := by
  unfold Json.opening
  by_cases root : c.state = .init ∧ brace = false
  · rw [if_pos root]
    exact .inl ⟨_, rfl, h.error _ _⟩
  by_cases init : c.state = .init
  · rw [if_neg root, if_pos init]
    exact (h.setState c.ret _).opened above brace p
  by_cases colon : c.state = .objectAfterColon
  · rw [if_neg root, if_neg init, if_pos colon]
    exact ((h.prepared _).setState c.ret _).opened above brace p
  rw [if_neg root, if_neg init, if_neg colon]
  by_cases array : c.state = .arrayAfterComma ∨ c.state = .arrayBody
  · rw [if_pos array]
    exact (h.setState c.ret _).opened above brace p
  · rw [if_neg array]
    exact .inl ⟨_, rfl, h.error _ _⟩

/-- **A closing bracket**, at a byte behind the first. -/
theorem Held.closing {c : Loop} (h : Held text d t₀ c.ret c.tree) (above : d ≤ c.ret)
    (bound : c.ret ≤ maxDepth) (pos : 0 < c.ret → 0 < c.i) (inside : c.i ≤ text.length)
    (brace : Bool) (p : List UInt8) :
    (∃ t', Json.closing brace d c p = .ok (.error t') ∧ Held text d t₀ c.ret t') ∨
      ∃ t' e, Json.closing brace d c p = .ok (.go { c.on p t' with ret := e }) ∧
        c.ret = e + 1 ∧ Held text d t₀ e t' := by
  unfold Json.closing
  by_cases open_ : closable brace c.state = false
  · rw [if_pos open_]
    exact .inl ⟨_, rfl, h.error _ _⟩
  rw [if_neg open_]
  obtain root | ⟨e, ret⟩ : c.ret = 0 ∨ ∃ e, c.ret = e + 1 := by
    cases c.ret with
    | zero => exact .inl rfl
    | succ e => exact .inr ⟨e, rfl⟩
  · have unmatched : Json.pop c.tree c.ret c.i =
        .ok (c.tree.error c.i "unmatched \x7d", none) := by
      unfold Json.pop
      rw [if_pos (by rw [h.depth, root]; exact Nat.one_pos)]
    rw [unmatched]
    exact .inl ⟨_, rfl, h.error _ _⟩
  have popped : Json.pop c.tree c.ret c.i =
      .ok (c.tree.set c.ret { c.tree.stack c.ret with valueEnd := c.i - 1 }, some e) := by
    have below : c.tree.slot ((c.tree.stack c.ret).depth - 1) = .ok e := by
      rw [h.depth, ret, Nat.add_sub_cancel]
      exact slot_ok _ (by omega)
    unfold Json.pop
    rw [if_neg (by rw [h.depth]; omega), if_neg (by omega), below]
    rfl
  have slot := h.slots c.ret (Nat.le_max_right d c.ret)
  have type := h.types c.ret (Nat.le_max_right d c.ret) above (by omega)
  have held : Held text d t₀ (e + 1)
      (c.tree.set c.ret { c.tree.stack c.ret with valueEnd := c.i - 1 }) := by
    rw [← ret]
    refine h.put above (by omega) (Slot.container slot.depth ?_ type (slot.begins type))
      (fun _ => type) fun le => h.members c.ret le above
    exact Nat.le_trans (Nat.sub_le ..) inside
  rw [popped]
  refine .inr ⟨_, e, rfl, ret, ?_⟩
  split_ifs
  · exact held.down.setState e _
  · exact held.down

end Held

/-! ## Rounds -/

/-- **What holds of the loop** in front of every round. -/
structure Loop.Sound (text : List UInt8) (d : ℕ) (t₀ : Tree) (c : Loop) : Prop where
  held : Held text d t₀ c.ret c.tree
  bound : c.ret ≤ maxDepth
  p : c.p = (text ++ [0]).drop c.i
  pos : 0 < c.ret → 0 < c.i

/-- What holds behind a round from the byte `i`. -/
def Next.Sound (text : List UInt8) (d : ℕ) (t₀ : Tree) (i : ℕ) : Next → Prop
  | .error t => ∃ e, Held text d t₀ e t
  | .go c => c.Sound text d t₀ ∧ i < c.i

section Rounds

variable {d : ℕ} {t₀ : Tree} {c : Loop}

/-- In the text, the pointer is at the rest of it and its NUL. -/
theorem Loop.Sound.rest (h : c.Sound text d t₀) (inside : c.i < text.length) :
    ∃ byte s, text.drop c.i = byte :: s ∧ c.p = byte :: (s ++ [0]) := by
  obtain ⟨byte, s, eq⟩ := List.exists_cons_of_length_pos (l := text.drop c.i)
    (by rw [List.length_drop]; omega)
  refine ⟨byte, s, eq, ?_⟩
  rw [h.p, List.drop_append_of_le_length (Nat.le_of_lt inside), eq]
  rfl

/-- The loop at the next byte. -/
theorem Held.on {byte : UInt8} {s : List UInt8} (at_ : text.drop c.i = byte :: s) {t : Tree}
    {e : ℕ} (held : Held text d t₀ e t) (bound : e ≤ maxDepth) :
    Loop.Sound text d t₀ { c.on (s ++ [0]) t with ret := e } where
  held := held
  bound := bound
  p := by
    obtain ⟨next, inside⟩ := drop_cons at_
    change s ++ [0] = (text ++ [0]).drop (c.i + 1)
    rw [List.drop_append_of_le_length inside, next]
  pos _ := Nat.succ_pos c.i

/-- A number or a keyword, up to the byte `i`. -/
theorem Loop.Sound.scalar (h : c.Sound text d t₀) (above : d ≤ c.ret) {type : Ty}
    (leaf : ¬type.Container) {i : ℕ} (later : c.i < i) (inside : i ≤ text.length) {p : List UInt8}
    (at_ : p = (text ++ [0]).drop i) (n : ℕ) :
    ∃ next, Json.scalar type c i p n = .ok next ∧ next.Sound text d t₀ c.i := by
  obtain ⟨t', r, added, held⟩ :=
    (h.held.prepared type).addMember above h.bound leaf c.i (by omega) inside
  unfold Json.scalar
  rw [added]
  exact ⟨_, rfl, ⟨held.setState c.ret _, h.bound, at_, fun _ => Nat.zero_lt_of_lt later⟩, later⟩

/-- A string read, up to its quote at the byte `i`. -/
theorem Loop.Sound.stringRead (h : c.Sound text d t₀) (above : d ≤ c.ret) {i : ℕ}
    (later : c.i < i) (inside : i ≤ text.length) {p : List UInt8}
    (at_ : p = (text ++ [0]).drop (i + 1)) (n : ℕ) :
    ∃ next, Json.stringRead c (c.prepared .string) n i p = .ok next ∧
      next.Sound text d t₀ c.i := by
  have prepared := h.held.prepared .string
  obtain ⟨t', r, added, held⟩ :=
    prepared.addMember above h.bound string_leaf n (by omega) inside
  have go {t : Tree} (held : Held text d t₀ c.ret t) :
      Next.Sound text d t₀ c.i (.go ⟨t, c.ret, i + 1, p, n, i⟩) :=
    ⟨⟨held, h.bound, at_, fun _ => Nat.succ_pos i⟩, Nat.lt_succ_of_lt later⟩
  unfold Json.stringRead
  rw [added]
  by_cases colon : c.state = .objectAfterColon
  · rw [if_pos colon]
    exact ⟨_, rfl, go (held.setState c.ret _)⟩
  by_cases comma : c.state = .objectAfterComma
  · rw [if_neg colon, if_pos comma]
    exact ⟨_, rfl, go (prepared.setState c.ret _)⟩
  by_cases array : c.state = .arrayBody ∨ c.state = .arrayAfterComma
  · rw [if_neg colon, if_neg comma, if_pos array]
    exact ⟨_, rfl, go (held.setState c.ret _)⟩
  rw [if_neg colon, if_neg comma, if_neg array]
  by_cases body : c.state = .objectBody
  · rw [if_pos body]
    exact ⟨_, rfl, go (prepared.setState c.ret _)⟩
  · rw [if_neg body]
    exact ⟨_, rfl, c.ret, prepared.error _ _⟩

/-- **A round keeps what holds**, whatever the byte is. -/
theorem Loop.Sound.branch (h : c.Sound text d t₀) (above : d ≤ c.ret) {stop : ℕ}
    (below : c.i < stop) (inside : stop ≤ text.length) :
    ∃ next, Json.branch d d stop c = .ok next ∧ next.Sound text d t₀ c.i := by
  obtain ⟨byte, s, at_, p⟩ := h.rest (by omega)
  obtain ⟨next, short⟩ := drop_cons at_
  have on {t : Tree} (held : Held text d t₀ c.ret t) :
      Next.Sound text d t₀ c.i (.go (c.on (s ++ [0]) t)) :=
    ⟨held.on at_ h.bound, Nat.lt_succ_self c.i⟩
  rw [branch_cons p]
  cases class_ : classify byte with
  | opening brace =>
    obtain ⟨t', eq, held⟩ | ⟨t', eq, room, held⟩ := h.held.opening above brace (s ++ [0])
    · exact ⟨_, eq, c.ret, held⟩
    · exact ⟨_, eq, held.on at_ room, Nat.lt_succ_self c.i⟩
  | closing brace =>
    obtain ⟨t', eq, held⟩ | ⟨t', e, eq, ret, held⟩ :=
      h.held.closing above h.bound h.pos (Nat.le_of_lt short) brace (s ++ [0])
    · exact ⟨_, eq, c.ret, held⟩
    · have bound := h.bound
      exact ⟨_, eq, held.on at_ (by omega), Nat.lt_succ_self c.i⟩
  | comma =>
    simp only [switch, comma]
    split_ifs
    · exact ⟨_, rfl, on (h.held.setState c.ret _)⟩
    · exact ⟨_, rfl, on (h.held.setState c.ret _)⟩
    · exact ⟨_, rfl, c.ret, h.held.error _ _⟩
  | colon =>
    simp only [switch, colon]
    split_ifs
    · exact ⟨_, rfl, c.ret, h.held.error _ _⟩
    · exact ⟨_, rfl, on (h.held.setState c.ret _)⟩
  | quote =>
    obtain ⟨i, read, later, bound⟩ := skipString_within inside next short
    have rest : (text.drop i ++ [0]).tail = (text ++ [0]).drop (i + 1) := by
      rw [← List.drop_append_of_le_length bound, List.tail_drop]
    simp only [switch, string]
    rw [read]
    by_cases open_ : ((c.prepared .string).stack d).valueEnd < i
    · exact ⟨_, if_pos open_, c.ret, (h.held.prepared _).error _ _⟩
    · obtain ⟨next, eq, sound⟩ := h.stringRead above later bound rest (c.i + 1)
      exact ⟨next, (if_neg open_).trans eq, sound⟩
  | blank => exact ⟨_, rfl, on h.held⟩
  | keyword type tail =>
    have leaf := (keyword_type class_).leaf
    simp only [switch, keyword]
    rw [matches_eq (keyword_tail class_)]
    by_cases whole : tail.isPrefixOf s = true
    · obtain ⟨u, rfl⟩ := List.isPrefixOf_iff_prefix.1 whole
      have length := congrArg List.length next
      rw [List.length_drop, List.length_append] at length
      have rest : (tail ++ u ++ [0]).drop tail.length =
          (text ++ [0]).drop (c.i + 1 + tail.length) := by
        rw [← List.drop_drop, List.drop_append_of_le_length short, next]
      obtain ⟨next, eq, sound⟩ :=
        h.scalar above leaf (by omega) (by omega) rest c.nameStart
      exact ⟨next, (if_pos whole).trans eq, sound⟩
    · exact ⟨_, if_neg whole, c.ret, (h.held.prepared _).error _ _⟩
  | number =>
    have leaf : ¬Ty.Container .number := by decide
    obtain ⟨i, read, place⟩ := skipNumber_eq c.i (byte :: s)
    have suffix := restNumber_suffix class_ s
    have shorter := suffix.length_le
    have rest : text.drop i = restNumber (byte :: s) :=
      drop_suffix at_ (suffix.trans (List.suffix_cons byte s)) place
    have length := congrArg List.length at_
    rw [List.length_drop, List.length_cons] at length
    rw [List.length_cons] at place
    simp only [switch, number]
    rw [p, ← List.cons_append, read]
    by_cases sign : i = c.i + 1 ∧ (byte :: s ++ [0]).head? = some 0x2D
    · exact ⟨_, if_pos sign, c.ret, (h.held.prepared _).error _ _⟩
    · have rest' : restNumber (byte :: s) ++ [0] = (text ++ [0]).drop i := by
        rw [List.drop_append_of_le_length (by omega), rest]
      obtain ⟨next, eq, sound⟩ := h.scalar above leaf (by omega) (by omega) rest' c.i
      exact ⟨next, (if_neg sign).trans eq, sound⟩
  | other => exact ⟨_, rfl, c.ret, h.held.error _ _⟩

/-- The loops that `json__get` passes through, from `c` on. -/
inductive Passes (d stop : ℕ) (c : Loop) : Loop → Prop where
  | start : Passes d stop c c
  | round {c₁ c₂ : Loop} : Passes d stop c c₁ → c₁.i < stop →
      Json.branch d d stop c₁ = .ok (.go c₂) → check d c₂ = none → Passes d stop c c₂

/-- Where the checks let the loop go on, the current object is not below the one that is read. -/
theorem Loop.Sound.checked (h : c.Sound text d t₀) (going : check d c = none) : d ≤ c.ret := by
  by_contra under
  have above : (c.tree.stack c.ret).depth < d := by
    rw [h.held.depth]
    exact Nat.lt_of_not_le under
  unfold check at going
  rw [if_pos above] at going
  split at going <;> cases going

theorem Passes.sound {stop : ℕ} (inside : stop ≤ text.length) {c' : Loop}
    (passes : Passes d stop c c') (h : c.Sound text d t₀) (above : d ≤ c.ret) :
    c'.Sound text d t₀ ∧ d ≤ c'.ret := by
  induction passes with
  | start => exact ⟨h, above⟩
  | round _ below step going ih =>
    obtain ⟨sound, above'⟩ := ih
    obtain ⟨next, eq, sound'⟩ := sound.branch above' below inside
    obtain rfl := Except.ok.inj (step.symm.trans eq)
    exact ⟨sound'.1, sound'.1.checked going⟩

/-- A tree in which slot `d` may be read: it and those below are in order. -/
structure InOrder (text : List UInt8) (d : ℕ) (t : Tree) : Prop where
  buf : t.buf = text ++ [0]
  len : t.len = text.length
  root : (t.stack 0).type = .undefined
  slots : ∀ k ≤ d, Slot text k (t.stack k)
  type : 0 < d → (t.stack d).type.Container

/-- What a run of the loop leaves: a tree in order, and if there is a member, it is the undefined
object or one in order in the slot above. -/
structure Left (text : List UInt8) (d : ℕ) (t₀ t : Tree) (result : Option ℕ) : Prop where
  inOrder : InOrder text d t
  below : ∀ k < d, (t.stack k).core = (t₀.stack k).core
  member : ∀ k, result = some k → k = 0 ∨ k = d + 1 ∧ d < maxDepth ∧ Slot text k (t.stack k)

theorem Held.left {e : ℕ} {t : Tree} (h : Held text d t₀ e t) {result : Option ℕ}
    (member : ∀ k, result = some k → k = 0 ∨ k = d + 1 ∧ d < maxDepth ∧ Slot text k (t.stack k)) :
    Left text d t₀ t result :=
  ⟨⟨h.buf, h.len, h.root, fun k le => h.slots k (by omega),
    h.types d (Nat.le_max_left d e) (Nat.le_refl d)⟩, h.below, member⟩

theorem Loop.Sound.found (h : c.Sound text d t₀) (room : d < maxDepth) :
    Left text d t₀ c.tree (Json.found d c) := by
  refine h.held.left fun k isFound => ?_
  unfold Json.found at isFound
  dsimp only at isFound
  rw [h.held.depth] at isFound
  split_ifs at isFound with one
  obtain ⟨ret, count⟩ := one
  obtain rfl := Option.some.inj isFound
  refine .inr ⟨congrArg (· + 1) ret, room,
    h.held.members c.ret (Nat.le_refl _) (Nat.le_of_eq ret.symm) ?_⟩
  rw [count]
  exact Nat.one_pos

/-- The checks return the member that has been found, or none. -/
theorem Loop.Sound.stopped (h : c.Sound text d t₀) (room : d < maxDepth) {result : Option ℕ}
    (stopped : check d c = some result) : Left text d t₀ c.tree result := by
  unfold check at stopped
  split_ifs at stopped
  · obtain rfl := Option.some.inj stopped
    exact h.found room
  · obtain rfl := Option.some.inj stopped
    exact h.held.left nofun
  · obtain rfl := Option.some.inj stopped
    exact h.held.left nofun

/-- **The loop returns.** -/
theorem Loop.Sound.rounds {stop : ℕ} (inside : stop ≤ text.length) (room : d < maxDepth)
    (n : ℕ) {c : Loop} (h : c.Sound text d t₀) (above : d ≤ c.ret) : ∃ t result,
      Json.rounds d d stop n c = .ok (t, result) ∧ Left text d t₀ t result := by
  induction n generalizing c with
  | zero => exact ⟨_, _, rfl, h.found room⟩
  | succ n ih =>
    by_cases below : c.i < stop
    · obtain ⟨next, eq, sound⟩ := h.branch above below inside
      cases next with
      | error t =>
        obtain ⟨e, held⟩ := sound
        exact ⟨_, _, rounds_error below eq,
          held.left fun k root => .inl (Option.some.inj root).symm⟩
      | go c' =>
        cases checked : check d c' with
        | none =>
          obtain ⟨t, result, eq', left⟩ := ih sound.1 (sound.1.checked checked)
          exact ⟨t, result, (rounds_go below eq checked).trans eq', left⟩
        | some result =>
          exact ⟨c'.tree, result, rounds_checked below eq checked,
            sound.1.stopped room checked⟩
    · exact ⟨_, _, if_neg below, h.found room⟩

end Rounds

/-! ## Calls -/

/-- The current object of a loop is where it may be. -/
def Loop.Within (c : Loop) : Prop := c.ret ≤ maxDepth ∧ (c.tree.stack c.ret).depth = c.ret

/-- **A call of `json__get` is in bounds**: it returns, so no byte is read behind the NUL, no slot
is used above the last and no end lies in front of the text; and the loops that it passes through
have the pointer at the index and the current object where it may be, also behind their last
round. -/
structure GetInBounds (text : List UInt8) (t : Tree) (obj : ℕ) (child : Option ℕ) : Prop where
  object : obj ≤ maxDepth ∧ (t.stack obj).depth = obj
  member : ∀ k, child = some k → k ≤ maxDepth
  returns : ∃ t' result, get t obj child = .ok (t', result)
  loops : (t.stack obj).depth < maxDepth → ∀ c,
    Passes obj (t.stack obj).valueEnd (entry t obj child) c →
      c.p = (text ++ [0]).drop c.i ∧ c.Within ∧ (c.i < (t.stack obj).valueEnd →
        c.i < text.length ∧ ∃ next, branch obj obj (t.stack obj).valueEnd c = .ok next ∧
          ∀ c', next = .go c' → c'.Within)

section Calls

variable {d : ℕ} {t : Tree}

theorem InOrder.write (h : InOrder text d t) {k : ℕ} {o : Obj} (core : o.core = (t.stack k).core) :
    InOrder text d (t.set k o) := by
  have cores := set_core core
  have types (j : ℕ) : ((t.set k o).stack j).type = (t.stack j).type := type_of_core (cores j)
  refine ⟨h.buf, h.len, (types 0).trans h.root,
    fun j bound => (h.slots j bound).of_core (cores j), fun pos => ?_⟩
  rw [types]
  exact h.type pos

/-- The loop is entered as it should be. -/
theorem InOrder.entry (h : InOrder text d t) (room : d ≤ maxDepth) {child : Option ℕ}
    (resumes : ∀ k, child = some k → 0 < resume (t.stack k)) :
    Loop.Sound text d t (Json.entry t d child) := by
  have same : (t.set d { t.stack d with count := 0 }).stack d = { t.stack d with count := 0 } :=
    set_stack ..
  have primed : InOrder text d (t.set d { t.stack d with count := 0 }) := h.write rfl
  have own {k : ℕ} (le : k ≤ max d d) : k ≤ d := Nat.max_self d ▸ le
  refine ⟨⟨h.buf, h.len, primed.root, fun k le => primed.slots k (own le), ?_, ?_, ?_⟩, room, ?_,
    ?_⟩
  · intro k le above more
    obtain rfl : k = d := Nat.le_antisymm le above
    change 0 < ((t.set k { t.stack k with count := 0 }).stack k).count at more
    rw [same] at more
    exact absurd more (Nat.lt_irrefl 0)
  · intro k le above pos
    obtain rfl : k = d := Nat.le_antisymm (own le) above
    exact primed.type pos
  · intro k below
    change ((t.set d { t.stack d with count := 0 }).stack k).core = _
    rw [set_stack_of_ne t (Nat.ne_of_lt below)]
  · change t.buf.drop _ = _
    rw [h.buf]
    rfl
  · intro pos
    change 0 < begins t d child
    cases child with
    | none => exact (h.slots d (Nat.le_refl d)).begins (h.type pos)
    | some k => exact resumes k rfl

/-- **A call of `json__get`** leaves a tree in order, with a member that is in order. -/
theorem InOrder.get (h : InOrder text d t) (room : d ≤ maxDepth) {child : Option ℕ}
    (resumes : ∀ k, child = some k → 0 < resume (t.stack k)) :
    ∃ t' result, Json.get t d child = .ok (t', result) ∧ Left text d t t' result := by
  have slot := h.slots d (Nat.le_refl d)
  rcases Nat.lt_or_eq_of_le room with below | full
  · rw [get_entry slot.depth below]
    exact (h.entry room resumes).rounds slot.valueEnd below _ (Nat.le_refl d)
  · have deep : maxDepth ≤ (t.stack d).depth := Nat.le_of_eq (slot.depth.trans full).symm
    exact ⟨_, _, if_pos deep, ⟨h.buf, h.len, h.root, h.slots, h.type⟩, fun _ _ => rfl,
      fun k root => .inl (Option.some.inj root).symm⟩

theorem Loop.Sound.within {t₀ : Tree} {c : Loop} (h : c.Sound text d t₀) : c.Within :=
  ⟨h.bound, h.held.depth⟩

/-- **A call of `json__get` is in bounds**, in a tree in order. -/
theorem InOrder.inBounds (h : InOrder text d t) (room : d ≤ maxDepth) {child : Option ℕ}
    (bound : ∀ k, child = some k → k ≤ maxDepth)
    (resumes : ∀ k, child = some k → 0 < resume (t.stack k)) : GetInBounds text t d child where
  object := ⟨room, (h.slots d (Nat.le_refl d)).depth⟩
  member := bound
  returns := by
    obtain ⟨t', result, eq, _⟩ := h.get room resumes
    exact ⟨t', result, eq⟩
  loops _ c passes := by
    have inside := (h.slots d (Nat.le_refl d)).valueEnd
    obtain ⟨sound, above⟩ := passes.sound inside (h.entry room resumes) (Nat.le_refl d)
    refine ⟨sound.p, sound.within, fun below => ⟨Nat.lt_of_lt_of_le below inside, ?_⟩⟩
    obtain ⟨next, eq, sound'⟩ := sound.branch above below inside
    refine ⟨next, eq, fun c' go => ?_⟩
    subst go
    exact sound'.1.within

theorem InOrder.prime (h : InOrder text d t) (child : Option ℕ) :
    InOrder text d (Json.prime t d child) := h.write rfl

end Calls

/-! ## Visits -/

section Visits

variable {σ : Type} (cb : Tree → ℕ → σ → ℤ × σ)

/-- The loop of the visit of an object is at a member, in a tree. -/
inductive AtMember (t : Tree) (obj : ℕ) (s : σ) : ℕ → Tree → σ → Prop where
  | first {child : ℕ} {t' : Tree} : (t.stack obj).type.Container →
      getNext t obj none = .ok (t', some child) → AtMember t obj s child t' s
  | next {child child' fuel : ℕ} {t₁ t₂ t₃ : Tree} {s₁ s₂ : σ} : AtMember t obj s child t₁ s₁ →
      visitor cb fuel t₁ child s₁ = .ok (0, t₂, s₂) →
      getNext t₂ obj (some child) = .ok (t₃, some child') → AtMember t obj s child' t₃ s₂

/-- The calls of `json__get` that the visit of an object makes, finished or not. -/
inductive Calls : Tree → ℕ → σ → Tree × ℕ × Option ℕ → Prop where
  | first {t : Tree} {obj : ℕ} {s : σ} : (t.stack obj).type.Container →
      Calls t obj s (prime t obj none, obj, none)
  | member {t t₁ : Tree} {obj child : ℕ} {s s₁ : σ} {call : Tree × ℕ × Option ℕ} :
      AtMember cb t obj s child t₁ s₁ → Calls t₁ child s₁ call → Calls t obj s call
  | next {t t₁ t₂ : Tree} {obj child fuel : ℕ} {s s₁ s₂ : σ} :
      AtMember cb t obj s child t₁ s₁ → visitor cb fuel t₁ child s₁ = .ok (0, t₂, s₂) →
      Calls t obj s (prime t₂ obj (some child), obj, some child)

variable {d : ℕ} {t₀ t : Tree}

theorem Left.bound {result : Option ℕ} (h : Left text d t₀ t result) :
    ∀ k, result = some k → k ≤ maxDepth := by
  intro k member
  rcases h.member k member with rfl | ⟨rfl, room, _⟩
  · exact Nat.zero_le _
  · exact room

theorem Left.resumes {result : Option ℕ} (h : Left text d t₀ t result) :
    ∀ k, result = some k → 0 < resume (t.stack k) := by
  intro k member
  rcases h.member k member with rfl | ⟨rfl, _, slot⟩
  · exact (h.inOrder.slots 0 (Nat.zero_le d)).resumes
  · exact slot.resumes

/-- What a write that leaves the cores leaves. -/
theorem Left.write {result : Option ℕ} (h : Left text d t₀ t result) {k : ℕ} {o : Obj}
    (core : o.core = (t.stack k).core) : Left text d t₀ (t.set k o) result := by
  have cores := set_core core
  refine ⟨h.inOrder.write core, fun j below => (cores j).trans (h.below j below),
    fun j member => ?_⟩
  exact (h.member j member).imp id fun ⟨above, room, slot⟩ => ⟨above, room, slot.of_core (cores j)⟩

theorem Left.prime {child : Option ℕ} (h : Left text d t₀ t child) :
    Left text d t₀ (Json.prime t d child) child := h.write rfl

/-- **The next member**, from a tree in order. -/
theorem Left.getNext {child : Option ℕ} (h : Left text d t₀ t child) (room : d ≤ maxDepth) :
    ∃ t' result, Json.getNext t d child = .ok (t', result) ∧ Left text d t₀ t' result := by
  have primed := h.prime
  obtain ⟨t', result, eq, left⟩ := primed.inOrder.get room primed.resumes
  exact ⟨t', result, eq, left.inOrder,
    fun k below => (left.below k below).trans (primed.below k below), left.member⟩

/-- A tree in order, before the first member. -/
theorem InOrder.left (h : InOrder text d t) : Left text d t t none :=
  ⟨h, fun _ _ => rfl, nofun⟩

/-- What a visit gives: no fault, and a tree in order. -/
def Visits (text : List UInt8) (d : ℕ) (t : Tree) (result : M (ℤ × Tree × σ)) : Prop :=
  match result with
  | .ok (_, t', _) => Left text d t t' none
  | .error stop => stop = .fuel

/-- The slot below one that has been visited is as it was. -/
theorem Left.inside {t' : Tree} (h : Left text d t₀ t (some (d + 1))) (room : d < maxDepth)
    (visited : Left text (d + 1) t t' none) : Left text d t₀ t' (some (d + 1)) := by
  have cores {k : ℕ} (le : k ≤ d) : (t'.stack k).core = (t.stack k).core :=
    visited.below k (Nat.lt_succ_of_le le)
  refine ⟨⟨visited.inOrder.buf, visited.inOrder.len, visited.inOrder.root, fun k le => ?_,
    fun pos => ?_⟩, fun k below => ?_, fun k member => ?_⟩
  · exact visited.inOrder.slots k (Nat.le_succ_of_le le)
  · have type : (t'.stack d).type = (t.stack d).type := type_of_core (cores (Nat.le_refl d))
    rw [type]
    exact h.inOrder.type pos
  · exact (cores (Nat.le_of_lt below)).trans (h.below k below)
  · obtain rfl := Option.some.inj member
    exact .inr ⟨rfl, room, visited.inOrder.slots (d + 1) (Nat.le_refl _)⟩

/-- A member that is a container is in the slot above. -/
theorem Left.container {k : ℕ} (h : Left text d t₀ t (some k)) (type : (t.stack k).type.Container) :
    k = d + 1 ∧ d < maxDepth ∧ InOrder text k t := by
  rcases h.member k rfl with rfl | ⟨rfl, room, slot⟩
  · rw [h.inOrder.root] at type
    exact absurd type (by decide)
  · refine ⟨rfl, room, h.inOrder.buf, h.inOrder.len, h.inOrder.root, fun k le => ?_, fun _ => type⟩
    rcases Nat.lt_or_eq_of_le le with below | rfl
    · exact h.inOrder.slots k (Nat.le_of_lt_succ below)
    · exact slot

/-- The visit of a member leaves its container in order, if it leaves itself in order. -/
theorem Left.visit (fuel : ℕ) {k : ℕ} (s : σ) (h : Left text d t₀ t (some k))
    (visits : InOrder text k t → (t.stack k).type.Container → k ≤ maxDepth →
      Visits text k t (visitor cb fuel t k s)) :
    (∃ r t' s', visitor cb fuel t k s = .ok (r, t', s') ∧ Left text d t₀ t' (some k)) ∨
      visitor cb fuel t k s = .error .fuel := by
  by_cases type : (t.stack k).type.Container
  · obtain ⟨rfl, room, inOrder⟩ := h.container type
    have visited := visits inOrder type room
    unfold Visits at visited
    split at visited
    case _ r t' s' eq => exact .inl ⟨r, t', s', eq, h.inside room visited⟩
    case _ stop eq => exact .inr (visited ▸ eq)
  · cases fuel with
    | zero => exact .inr rfl
    | succ fuel => exact .inl ⟨_, _, _, visitor_leaf type, h⟩

/-- The loop over the members. -/
theorem Left.visitMembers {fuel : ℕ} (room : d ≤ maxDepth)
    (visits : ∀ {k t s}, InOrder text k t → (t.stack k).type.Container → k ≤ maxDepth →
      Visits text k t (visitor cb fuel t k s)) (n : ℕ) {child : Option ℕ} {t : Tree} (s : σ)
    (h : Left text d t₀ t child) :
    (∃ r t' s', Json.visitMembers (visitor cb fuel) d n child t s = .ok (r, t', s') ∧
      Left text d t₀ t' none) ∨
      Json.visitMembers (visitor cb fuel) d n child t s = .error .fuel := by
  have ends {t : Tree} {result : Option ℕ} (h : Left text d t₀ t result) : Left text d t₀ t none :=
    ⟨h.inOrder, h.below, fun _ none => by cases none⟩
  induction n generalizing child t s with
  | zero =>
    cases child with
    | none => exact .inl ⟨_, _, _, rfl, h⟩
    | some k => exact .inr rfl
  | succ n ih =>
    cases child with
    | none => exact .inl ⟨_, _, _, rfl, h⟩
    | some k =>
      obtain ⟨r, t', s', eq, left⟩ | out := h.visit cb fuel s visits
      · by_cases stops : r ≠ 0
        · unfold Json.visitMembers
          rw [eq]
          exact .inl ⟨r, t', s', if_pos stops, ends left⟩
        · obtain rfl := not_ne_iff.mp stops
          obtain ⟨t'', next, eq', left'⟩ := left.getNext room
          rw [visitMembers_some eq eq']
          exact ih s' left'
      · exact .inr (visitMembers_out out _)

/-- **A visit makes no fault**, whatever its fuel is, and leaves a tree in order. -/
theorem InOrder.visits (fuel : ℕ) (s : σ) (h : InOrder text d t)
    (type : (t.stack d).type.Container) (room : d ≤ maxDepth) :
    Visits text d t (visitor cb fuel t d s) := by
  induction fuel generalizing d t s with
  | zero => exact rfl
  | succ fuel ih =>
    have ends {r : ℤ} {t' : Tree} {s' : σ} (left : Left text d t t' none) :
        Visits text d t (if r ≠ 0 then .ok (r, t', s')
          else .ok ((cb t' d s').1, t', (cb t' d s').2)) := by
      split_ifs
      · exact left
      · exact left
    obtain ⟨t₁, child, eq, left⟩ := h.left.getNext room
    rw [visitor_container type eq]
    obtain ⟨r, t', s', eq', left'⟩ | out := left.visitMembers cb room (ih _) fuel s
    · rw [eq']
      exact ends left'
    · rw [out]
      rfl

variable {cb} {child : ℕ} {t' : Tree} {s s' : σ}

/-- What a visit of a member that has returned leaves. -/
theorem Left.visited {fuel k : ℕ} {r : ℤ} (h : Left text d t₀ t (some k))
    (returned : visitor cb fuel t k s = .ok (r, t', s')) : Left text d t₀ t' (some k) := by
  obtain ⟨_, _, _, eq, left⟩ | out :=
    h.visit cb fuel s fun h type room => h.visits cb fuel s type room
  · obtain ⟨-, rfl, -⟩ := Prod.mk.inj (Except.ok.inj (eq.symm.trans returned))
    exact left
  · rw [out] at returned
    cases returned

/-- **At every member** of a visit the tree is in order. -/
theorem AtMember.left (at_ : AtMember cb t d s child t' s') (h : InOrder text d t)
    (room : d ≤ maxDepth) : Left text d t t' (some child) := by
  induction at_ with
  | first _ next =>
    obtain ⟨_, _, eq, left⟩ := h.left.getNext room
    obtain ⟨rfl, rfl⟩ := Prod.mk.inj (Except.ok.inj (eq.symm.trans next))
    exact left
  | next _ visited next ih =>
    obtain ⟨_, _, eq, left⟩ := (ih.visited visited).getNext room
    obtain ⟨rfl, rfl⟩ := Prod.mk.inj (Except.ok.inj (eq.symm.trans next))
    exact left

theorem AtMember.container {obj : ℕ} (at_ : AtMember cb t obj s child t' s') :
    (t.stack obj).type.Container := by
  induction at_ with
  | first type => exact type
  | next _ _ _ ih => exact ih

theorem Calls.container {obj : ℕ} {call : Tree × ℕ × Option ℕ} (calls : Calls cb t obj s call) :
    (t.stack obj).type.Container := by
  cases calls with
  | first type => exact type
  | member at_ => exact at_.container
  | next at_ => exact at_.container

/-- **Every call of a visit is in bounds.** -/
theorem Calls.inBounds {call : Tree × ℕ × Option ℕ} (calls : Calls cb t d s call)
    (h : InOrder text d t) (room : d ≤ maxDepth) :
    GetInBounds text call.1 call.2.1 call.2.2 := by
  induction calls with
  | first _ =>
    exact (h.prime none).inBounds room nofun nofun
  | member at_ inner ih =>
    obtain ⟨rfl, below, inOrder⟩ := (at_.left h room).container inner.container
    exact ih inOrder below
  | next at_ visited =>
    have primed := ((at_.left h room).visited visited).prime
    exact primed.inOrder.inBounds room primed.bound primed.resumes

end Visits

/-! ## From a parse on -/

/-- The tree in which `json__parse` calls `json__get`. -/
def rooted (text : List UInt8) (memory : Tree) : Tree :=
  { memory with buf := text ++ [0], len := text.length }.set 0
    { memory.stack 0 with
      valueEnd := text.length
      valueStart := 0
      depth := 0
      type := .undefined
      state := .init
      nameStart := 0
      nameEnd := 0
      childType := .undefined
      count := 0 }

/-- The trees that visits of the object `obj` leave, one after the other. -/
inductive Visited (obj : ℕ) (t : Tree) : Tree → Prop where
  | start : Visited obj t t
  | visit {σ : Type} {cb : Tree → ℕ → σ → ℤ × σ} {fuel : ℕ} {s s' : σ} {r : ℤ} {t₁ t₂ : Tree} :
      Visited obj t t₁ → visitor cb fuel t₁ obj s = .ok (r, t₂, s') → Visited obj t t₂

theorem rooted_inOrder (text : List UInt8) (memory : Tree) :
    InOrder text 0 (rooted text memory) where
  buf := rfl
  len := rfl
  root := rfl
  slots k le := by
    obtain rfl := Nat.le_zero.1 le
    refine ⟨rfl, Nat.le_refl _, fun container => ?_, Nat.succ_pos _⟩
    have type : ((rooted text memory).stack 0).type = .undefined := rfl
    rw [type] at container
    exact absurd container (by decide)
  type pos := absurd pos (Nat.lt_irrefl 0)

theorem Visited.left {t₀ t t' : Tree} {obj : ℕ} (visited : Visited obj t t')
    (h : Left text 0 t₀ t (some obj)) : Left text 0 t₀ t' (some obj) := by
  induction visited with
  | start => exact h
  | visit _ returned ih => exact ih.visited returned

/-- **Nothing is out of bounds**, in a parse of any text and in any visits of the object that it
returns. -/
theorem in_bounds (text : List UInt8) (memory : Tree) :
    GetInBounds text (rooted text memory) 0 none ∧
      ∃ t result, parse text memory = .ok (t, result) ∧ ∀ obj, result = some obj →
        ∀ (σ : Type) (cb : Tree → ℕ → σ → ℤ × σ) (s : σ) (t' : Tree), Visited obj t t' →
          (∀ call, Calls cb t' obj s call → GetInBounds text call.1 call.2.1 call.2.2) ∧
            ∀ fuel, visitor cb fuel t' obj s ≠ .error .fault := by
  have root := rooted_inOrder text memory
  refine ⟨root.inBounds (Nat.zero_le _) nofun nofun, ?_⟩
  obtain ⟨t, result, eq, left⟩ : ∃ t' result, get (rooted text memory) 0 none = .ok (t', result) ∧
      Left text 0 (rooted text memory) t' result := root.get (Nat.zero_le _) nofun
  refine ⟨t, result, eq, fun obj found σ cb s t' visited => ?_⟩
  subst found
  have left' := visited.left left
  refine ⟨fun call calls => ?_, fun fuel fault => ?_⟩
  · obtain ⟨rfl, below, inOrder⟩ := left'.container calls.container
    exact calls.inBounds inOrder below
  · obtain ⟨_, _, _, eq, _⟩ | out :=
      left'.visit cb fuel s fun h type room => h.visits cb fuel s type room
    · rw [eq] at fault
      cases fault
    · rw [out] at fault
      cases fault

end Teres.Tools.Json
