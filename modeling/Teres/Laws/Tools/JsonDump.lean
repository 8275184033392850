import Mathlib.Data.List.TakeWhile
import Teres.Laws.Tools.JsonEntries
import Teres.Laws.Tools.JsonPrinted

/-!
# What the JSON dump writes

`json__dump` reads a document as the visitor does and writes what it reads. If everything that it
copies is shorter than its buffer by two bytes, it writes the document of `Value.shown`, and
otherwise the program exits (`dumps_value`). The text that is written is read again, and a visit
sees the same in it (`round_trips_iff`).
-/

namespace Teres.Tools.Json

variable {len : ℕ}

/-! ## Runs that may exit -/

/-- How a part of a dump ends: with a result if what it copies fits, and without one otherwise. -/
structure Dumps {α : Type} (fits : Prop) (m : D α) (P : α → Prop) : Prop where
  done : fits → ∃ a, m = .ok a ∧ P a
  halts : ¬ fits → ∃ err, m = .error err

theorem Dumps.ok {α : Type} {a : α} {P : α → Prop} (h : P a) : Dumps True (.ok a) P :=
  ⟨fun _ => ⟨a, rfl, h⟩, fun no => absurd trivial no⟩

theorem Dumps.congr {α : Type} {p q : Prop} {m : D α} {P : α → Prop} (h : Dumps p m P)
    (same : q ↔ p) : Dumps q m P :=
  ⟨fun fits => h.done (same.1 fits), fun no => h.halts fun fits => no (same.2 fits)⟩

theorem Dumps.mono {α : Type} {p : Prop} {m : D α} {P Q : α → Prop} (h : Dumps p m P)
    (more : ∀ a, P a → Q a) : Dumps p m Q where
  done fits := by
    obtain ⟨a, eq, here⟩ := h.done fits
    exact ⟨a, eq, more a here⟩
  halts := h.halts

/-- One part after another. -/
theorem Dumps.bind {α β : Type} {p q : Prop} {m : D α} {f : α → D β} {P : α → Prop}
    {Q : β → Prop} (h : Dumps p m P) (next : ∀ a, P a → Dumps q (f a) Q) :
    Dumps (p ∧ q) (m >>= f) Q := by
  constructor
  · rintro ⟨fits, fits'⟩
    obtain ⟨a, eq, here⟩ := h.done fits
    rw [eq]
    exact (next a here).done fits'
  · intro no
    by_cases fits : p
    · obtain ⟨a, eq, here⟩ := h.done fits
      rw [eq]
      exact (next a here).halts fun fits' => no ⟨fits, fits'⟩
    · obtain ⟨err, eq⟩ := h.halts fits
      rw [eq]
      exact ⟨err, rfl⟩

/-! ## Copies -/

/-- What is copied of the values that are seen is shorter than the buffer by two bytes. -/
def Fit (len : ℕ) (xs : List Sight) : Prop := ∀ x ∈ xs, ∀ s ∈ x.copies, s.length + 1 < len

instance (len : ℕ) (xs : List Sight) : Decidable (Fit len xs) :=
  inferInstanceAs (Decidable (∀ x ∈ xs, ∀ s ∈ x.copies, s.length + 1 < len))

theorem fit_append (xs ys : List Sight) : Fit len (xs ++ ys) ↔ Fit len xs ∧ Fit len ys := by
  simp only [Fit, List.mem_append]
  exact ⟨fun h => ⟨fun x mem => h x (.inl mem), fun x mem => h x (.inr mem)⟩,
    fun h x mem => mem.elim (h.1 x) (h.2 x)⟩

theorem fit_nil : Fit len [] ↔ True := by simp [Fit]

/-- Of one value, the name and the value. -/
theorem fit_single (e : ℕ) (type : Ty) (name value : Option (List UInt8)) :
    Fit len [⟨e, type, name, value⟩] ↔
      (∀ s ∈ name, s.length + 1 < len) ∧ ∀ s ∈ value, s.length + 1 < len := by
  simp [Fit, Sight.copies, or_imp, forall_and]

/-- **A string is copied** that is shorter than the buffer by two bytes. -/
theorem copyString_dumps {t : Tree} {start : ℕ} {s : List UInt8} (lies : Lies t.buf start s) :
    Dumps (s.length + 1 < len) (copyString t start (start + s.length) len) (· = s) := by
  have part : (t.buf.drop start).take s.length = s := (List.prefix_iff_eq_take.1 lies.here).symm
  have inside : s.length ≤ t.buf.length - start := by
    have := lies.here.length_le
    rwa [List.length_drop] at this
  unfold copyString
  constructor
  · intro fits
    refine ⟨s, ?_, rfl⟩
    rw [if_neg (by omega), if_neg (by omega), if_neg (by omega), Nat.add_sub_cancel_left, part,
      List.takeWhile_eq_self_iff.2]
    intro c mem
    rw [decide_eq_true_iff]
    exact fun nul => lies.noNul (nul ▸ mem)
  · intro no
    by_cases none : len = 0
    · rw [if_pos none]
      exact ⟨_, rfl⟩
    · rw [if_neg none, if_pos (by omega)]
      exact ⟨_, rfl⟩

/-- The slice `name` is where the name `label` lies, if there is one. -/
def Labelled (buf : List UInt8) (name : ℕ × ℕ) : Option (List UInt8) → Prop
  | none => name = (0, 0)
  | some s => ∃ start, 0 < start ∧ Lies buf start s ∧ name = (start, start + s.length)

theorem Head.labelled {head : Head} {buf : List UInt8} {i : ℕ} (lies : Lies buf i head.text) :
    Labelled buf (head.slice i) head.called := by
  obtain ⟨pre, name⟩ := head
  cases name with
  | none => rfl
  | some n =>
    have inner : Lies buf (i + pre.length) ([quote] ++ (n.body ++ (quote :: (n.before ++
      0x3A :: n.after)))) := lies.right
    exact ⟨_, Nat.succ_pos _, inner.right.left, rfl⟩

/-- An object has a name where its slice does not end at zero. -/
theorem Labelled.pos {buf : List UInt8} {name : ℕ × ℕ} {label : Option (List UInt8)}
    (labelled : Labelled buf name label) : 0 < name.2 ↔ label.isSome = true := by
  cases label with
  | none =>
    obtain rfl : name = (0, 0) := labelled
    simp
  | some s =>
    obtain ⟨start, pos, _, rfl⟩ := labelled
    simp only [Option.isSome_some, iff_true]
    omega

/-- The name is written behind its blanks. -/
theorem dumpName_dumps {t : Tree} {e : ℕ} {name : ℕ × ℕ} {label : Option (List UInt8)}
    (labelled : Labelled t.buf name label) (depth : (t.stack e).depth = e)
    (slot : ((t.stack e).nameStart, (t.stack e).nameEnd) = name) :
    Dumps (∀ s ∈ label, s.length + 1 < len) (dumpName t e len)
      (· = if label.isSome then tag e label [] else []) := by
  have end_ : (t.stack e).nameEnd = name.2 := congrArg Prod.snd slot
  have start_ : (t.stack e).nameStart = name.1 := congrArg Prod.fst slot
  have pos := labelled.pos
  rw [← end_] at pos
  unfold dumpName
  cases label with
  | none =>
    rw [if_neg (by simpa using pos)]
    exact Dumps.congr (p := True) (.ok (by simp)) (by simp)
  | some s =>
    obtain ⟨start, _, lies, rfl⟩ := labelled
    rw [if_pos (by simpa using pos), start_, end_, depth]
    refine ((copyString_dumps lies).bind (q := True) fun buf eq => .ok ?_).congr (by simp)
    rw [eq]
    rfl

/-! ## One value -/

theorem dump_plain {t : Tree} {e : ℕ} (plain : (t.stack e).type.plain = true) (fuel : ℕ) :
    dump len (fuel + 1) t e = (do
      let name ← dumpName t e len
      let value ← dumpPlain t e len
      .ok (t, name ++ value)) := by
  rw [dump]
  simp only [plain, if_true]

/-- A string, a number or a keyword is written, behind its blanks if it has no name. -/
theorem dumpPlain_dumps {t : Tree} {e : ℕ} {s : List UInt8} {named : Bool}
    (pos : 0 < (t.stack e).nameEnd ↔ named = true) (depth : (t.stack e).depth = e)
    (end_ : (t.stack e).valueEnd = (t.stack e).valueStart + s.length)
    (lies : Lies t.buf (t.stack e).valueStart s) :
    Dumps (s.length + 1 < len) (dumpPlain t e len)
      (· = (if named then [] else spaces e) ++
        if (t.stack e).type = .string then inQuotes s else s) := by
  unfold dumpPlain
  dsimp only
  rw [end_, depth]
  refine ((copyString_dumps lies).bind (q := True) fun buf eq => .ok ?_).congr (by simp)
  rw [eq]
  simp only [pos]

/-- **A value that is no container is written** on its line. -/
theorem dumps_leaf {t : Tree} {e fuel : ℕ} {name : ℕ × ℕ} {label : Option (List UInt8)}
    {s value : List UInt8} (labelled : Labelled t.buf name label) (depth : (t.stack e).depth = e)
    (slot : ((t.stack e).nameStart, (t.stack e).nameEnd) = name)
    (end_ : (t.stack e).valueEnd = (t.stack e).valueStart + s.length)
    (lies : Lies t.buf (t.stack e).valueStart s) (plain : (t.stack e).type.plain = true)
    (written : (if (t.stack e).type = .string then inQuotes s else s) = value)
    (pos : 0 < fuel) :
    Dumps (Fit len [⟨e, (t.stack e).type, label, some s⟩]) (dump len fuel t e)
      (fun r => r.2 = tag e label [] ++ value ∧ Kept e t r.1) := by
  obtain ⟨fuel, rfl⟩ : ∃ n, fuel = n + 1 := ⟨fuel - 1, by omega⟩
  have has : 0 < (t.stack e).nameEnd ↔ label.isSome = true := by
    rw [← labelled.pos, ← slot]
  rw [dump_plain plain]
  refine Dumps.congr ((dumpName_dumps labelled depth slot).bind fun n eqName =>
    (dumpPlain_dumps has depth end_ lies).bind (q := True) fun v eqValue => .ok ⟨?_, .refl e t⟩) ?_
  · rw [eqName, eqValue, written]
    cases label with
    | none => simp [tag]
    | some l => simp [tag]
  · rw [fit_single]
    simp

/-- What a container is written with. -/
theorem dump_container {t t₁ : Tree} {e : ℕ} {brace : Bool} {o : Option ℕ}
    (type : (t.stack e).type = nodeType brace) (next : getNext t e none = .ok (t₁, o))
    (fuel : ℕ) :
    dump len (fuel + 1) t e = (do
      let name ← dumpName t e len
      let r ← dumpMembers (dump len fuel) e fuel o t₁
      let o' := r.1.stack e
      let closing : List UInt8 :=
        if o'.type = .object then [0x7D] else if o'.type = .objectArray then [0x5D] else []
      .ok (r.1, name ++ ((if 0 < (t.stack e).nameEnd then [0x0A] else []) ++
        (spaces (t.stack e).depth ++ openingByte brace :: 0x0A ::
          (r.2 ++ 0x0A :: (spaces o'.depth ++ closing)))))) := by
  rw [dump, next]
  cases brace with
  | true => simp [type, nodeType, Ty.plain, D.parser, Except.mapError, openingByte]; rfl
  | false => simp [type, nodeType, Ty.plain, D.parser, Except.mapError, openingByte]; rfl

theorem dumpMembers_none (d : Tree → ℕ → D (Tree × List UInt8)) (e n : ℕ) (t : Tree) :
    dumpMembers d e n none t = .ok (t, []) := by
  cases n <;> rfl

/-- A member, and then those that are found behind it. -/
theorem dumpMembers_some {d : Tree → ℕ → D (Tree × List UInt8)} {e n child : ℕ} {t : Tree}
    {p q : Prop} {P Q : Tree × List UInt8 → Prop} (here : Dumps p (d t child) P)
    (next : ∀ r, P r → ∃ t₂ o, getNext r.1 e (some child) = .ok (t₂, o) ∧
      Dumps q (dumpMembers d e n o t₂) fun r' =>
        Q (r'.1, r.2 ++ ((if o.isSome then [0x2C, 0x0A] else []) ++ r'.2))) :
    Dumps (p ∧ q) (dumpMembers d e (n + 1) (some child) t) Q := by
  rw [dumpMembers]
  refine here.bind fun r is => ?_
  obtain ⟨t₂, o, found, rest⟩ := next r is
  have parsed : D.parser (getNext r.1 e (some child)) = .ok (t₂, o) := by rw [found]; rfl
  dsimp only
  rw [parsed]
  exact (rest.bind (q := True) fun r' is' => .ok is').congr (and_true q).symm.to_iff

theorem Scanned.isSome {t t' : Tree} {e i : ℕ} {brace : Bool} {members : Members} {o : Option ℕ}
    (scanned : Scanned t t' e brace i members o) : o.isSome = members.shows := by
  cases members with
  | nil space =>
    obtain ⟨rfl, _⟩ := scanned
    rfl
  | last head v post =>
    simp only [Scanned, Members.first] at scanned
    rw [Members.shows]
    cases lost : v.lost post with
    | true =>
      rw [lost] at scanned
      obtain ⟨rfl, _⟩ := scanned
      rfl
    | false =>
      rw [lost] at scanned
      obtain ⟨rfl, _⟩ := scanned
      rfl
  | more head v post rest =>
    obtain ⟨rfl, _⟩ := scanned
    rfl

/-! ## The whole document -/

theorem plain_scalar {type : Ty} (scalar : type.Scalar) :
    type.plain = true ∧ type ≠ .string := by
  rcases scalar with rfl | rfl | rfl | rfl <;> decide

/-- The members that stay unread are unwritten and need no room. -/
theorem Members.WellFormed.unwritten {lexicon : Lexicon} {bare brace : Bool} {members : Members}
    (wf : members.WellFormed lexicon bare brace) (empty : members.text.length = 0) :
    members.shows = false := by
  cases members with
  | nil => rfl
  | last head v post =>
    have pos := value_pos wf.2.2.1
    simp only [Members.text, List.length_append] at empty
    omega
  | more head v post rest =>
    have pos := value_pos wf.2.2.1
    simp only [Members.text, List.length_append] at empty
    omega

theorem nodeType_closing (brace : Bool) :
    (if nodeType brace = .object then [0x7D] else if nodeType brace = .objectArray then [0x5D]
      else []) = [closingByte brace] := by
  cases brace <;> rfl

mutual

/-- **A value is written** in its slot. -/
theorem dumps_value {lexicon : Lexicon} : ∀ {v : Value}, v.WellFormed lexicon false →
    ∀ {t : Tree} {e i : ℕ} {name : ℕ × ℕ} {label : Option (List UInt8)} {k : List UInt8}
      (fuel : ℕ), (t.stack e).core = v.core name e i →
      (∀ inner members, v = .node inner members → Settled (t.stack e) inner) →
      (∀ k < e, (t.stack k).depth = k) →
      Reads t i (v.text ++ k) → Lies t.buf i v.text → Labelled t.buf name label →
      e + v.depth ≤ maxDepth → v.text.length ≤ fuel →
      Dumps (Fit len (v.sights e label)) (dump len fuel t e)
        (fun r => r.2 = v.line e label ∧ Kept e t r.1)
  | .scalar type l, wf, t, e, i, name, label, k, fuel, core, _, _, _, lies, labelled, _,
      enough => by
    obtain ⟨plain, other⟩ := plain_scalar (scalar_type wf)
    have type_ : (t.stack e).type = type := type_of_core core
    have start : (t.stack e).valueStart = i := valueStart_of_core core
    have end_ : (t.stack e).valueEnd = i + l.length := valueEnd_of_core core
    have depth : (t.stack e).depth = e := congrArg Prod.fst core
    have slot : ((t.stack e).nameStart, (t.stack e).nameEnd) = name :=
      congrArg (fun x : Core => (x.2.2.1, x.2.2.2.1)) core
    rw [Value.sights, ← type_]
    exact dumps_leaf labelled depth slot (by rw [start, end_]) (start ▸ lies) (type_ ▸ plain)
      (if_neg (type_ ▸ other)) (Nat.lt_of_lt_of_le (scalar_pos wf) enough)
  | .string body, wf, t, e, i, name, label, k, fuel, core, _, _, _, lies, labelled, _, enough => by
    have type_ : (t.stack e).type = .string := type_of_core core
    have start : (t.stack e).valueStart = i + 1 := valueStart_of_core core
    have end_ : (t.stack e).valueEnd = i + 1 + body.length := valueEnd_of_core core
    have depth : (t.stack e).depth = e := congrArg Prod.fst core
    have slot : ((t.stack e).nameStart, (t.stack e).nameEnd) = name :=
      congrArg (fun x : Core => (x.2.2.1, x.2.2.2.1)) core
    have inner : Lies t.buf (i + 1) body := Lies.left (Lies.right (a := [quote]) lies)
    have pos : 0 < (Value.string body).text.length := Nat.succ_pos _
    rw [Value.sights, ← type_]
    exact dumps_leaf labelled depth slot (by rw [start, end_]) (start ▸ inner) (by rw [type_]; rfl)
      (if_pos type_) (Nat.lt_of_lt_of_le pos enough)
  | .node brace members, wf, t, e, i, name, label, k, fuel, core, settled, depths, reads, lies,
      labelled, deep, enough => by
    have length : (Value.node brace members).text.length = members.text.length + 2 := by
      simp only [Value.text, List.length_cons, List.length_append, List.length_nil]
    rw [length] at enough
    rw [Value.depth] at deep
    obtain ⟨fuel, rfl⟩ : ∃ n, fuel = n + 1 := ⟨fuel - 1, by omega⟩
    have type : (t.stack e).type = nodeType brace := type_of_core core
    have start : (t.stack e).valueStart = i + 1 := valueStart_of_core core
    have depth : (t.stack e).depth = e := congrArg Prod.fst core
    have slot : ((t.stack e).nameStart, (t.stack e).nameEnd) = name :=
      congrArg (fun x : Core => (x.2.2.1, x.2.2.2.1)) core
    have has : 0 < (t.stack e).nameEnd ↔ label.isSome = true := by
      rw [← labelled.pos, ← slot]
    have ready : Ready t e brace (i + members.text.length) :=
      ⟨valueEnd_of_core core, type, (settled brace members rfl).childType,
        (settled brace members rfl).childName⟩
    have depths' : ∀ k ≤ e, (t.stack k).depth = k := fun k hk =>
      (Nat.lt_or_eq_of_le hk).elim (depths k) fun h => h ▸ depth
    rw [node_append] at reads
    have inside : Reads t (i + 1) (members.text ++ closingByte brace :: k) :=
      Reads.behind (a := [openingByte brace]) reads
    have inner : Lies t.buf (i + 1) members.text :=
      Lies.left (Lies.right (a := [openingByte brace]) lies)
    obtain ⟨c, at_, i_, count, ready', kept, runs⟩ := getNext_runs ready depths' (by omega) inside
      (.inl ⟨rfl, start.symm, rfl⟩)
    have room : e < maxDepth := by omega
    have end_ : c.i + members.text.length = i + members.text.length + 1 := by
      rw [i_]
      omega
    obtain ⟨t₁, o, found, scanned⟩ :=
      scans_members at_ (.inl rfl) wf count ready' room (by omega) end_
    rw [i_] at scanned
    have written := dumps_members wf fuel fuel scanned ready' (kept.depths depths')
      (inside.kept kept) (kept.buf ▸ inner) (by omega) deep (by omega) (by omega)
    rw [dump_container type (runs _ found)]
    refine Dumps.congr ((dumpName_dumps labelled depth slot).bind fun n eqName =>
      written.bind (q := True) fun r here => .ok ?_) ?_
    · obtain ⟨eqMembers, kept'⟩ := here
      have all : Kept e t r.1 := kept.trans (scanned.kept.trans kept')
      have type' : (r.1.stack e).type = nodeType brace := all.type.trans type
      have depth' : (r.1.stack e).depth = e := all.depths depths' e (Nat.le_refl e)
      refine ⟨?_, all⟩
      simp only [eqName, eqMembers, type', depth', depth, has, nodeType_closing, Value.line]
      cases label with
      | none => simp [tag]
      | some l => simp [tag]
    · rw [Value.sights, fit_append, fit_single]
      simp [and_comm]

/-- **The members are written** that the scan finds. -/
theorem dumps_members {lexicon : Lexicon} : ∀ {members : Members} {brace : Bool},
    members.WellFormed lexicon false brace →
    ∀ {t₀ t : Tree} {e i stop : ℕ} {o : Option ℕ} {k : List UInt8} (n fuel : ℕ),
      Scanned t₀ t e brace i members o → Ready t₀ e brace stop →
      (∀ k ≤ e, (t₀.stack k).depth = k) →
      Reads t₀ i (members.text ++ closingByte brace :: k) → Lies t₀.buf i members.text →
      i + members.text.length = stop + 1 → e + (members.depth + 1) ≤ maxDepth →
      members.text.length ≤ fuel → members.text.length ≤ n →
      Dumps (Fit len (members.sights (e + 1))) (dumpMembers (dump len fuel) e n o t)
        (fun r => r.2 = members.lines (e + 1) ∧ Kept e t r.1)
  | .nil space, brace, wf, t₀, t, e, i, stop, o, k, n, fuel, scanned, _, _, _, _, _, _, _, _ => by
    obtain ⟨rfl, _⟩ := scanned
    rw [dumpMembers, Members.sights]
    exact (Dumps.ok ⟨rfl, .refl e t⟩).congr fit_nil
  | .last head v post, brace, wf, t₀, t, e, i, stop, o, k, n, fuel, scanned, ready, depths, reads,
      lies, end_, deep, enough, enough' => by
    obtain ⟨wfHead, _, wfValue, blank⟩ := wf
    rw [last_append] at reads
    have length : (Members.last head v post).text.length =
        head.text.length + (v.text.length + post.length) := by
      rw [Members.text, List.length_append, List.length_append]
    rw [length] at end_ enough enough'
    rw [Members.depth] at deep
    rw [Members.sights, Members.lines]
    simp only [Scanned, Members.first] at scanned
    cases lost : v.lost post with
    | true =>
      rw [lost] at scanned
      obtain ⟨rfl, _⟩ := scanned
      rw [dumpMembers]
      exact (Dumps.ok ⟨rfl, .refl e t⟩).congr fit_nil
    | false =>
      rw [lost] at scanned
      obtain ⟨rfl, found⟩ := scanned
      rw [if_neg Bool.false_ne_true, if_neg Bool.false_ne_true]
      have pos := value_pos wfValue
      obtain ⟨n, rfl⟩ : ∃ m, n = m + 1 := ⟨n - 1, by omega⟩
      have unnamed : brace = false → head.slice i = (0, 0) := fun h =>
        head_unnamed (h ▸ wfHead) i
      have at_value := reads.behind
      have labelled := Head.labelled lies.left
      have written := dumps_value wfValue fuel found.member found.settled
        (fun k hk => found.kept.depths depths k (Nat.le_of_lt_succ hk)) (at_value.kept found.kept)
        (found.kept.buf ▸ lies.right.left) (found.kept.buf ▸ labelled) (by omega) (by omega)
      refine (dumpMembers_some (q := True) written fun r here => ?_).congr (by simp)
      obtain ⟨eq, kept⟩ := here
      obtain ⟨t₂, next, kept₂⟩ := found.after_last wfValue ready depths unnamed kept blank
        (by omega) at_value (by omega)
      refine ⟨t₂, none, next, ?_⟩
      rw [dumpMembers_none]
      exact .ok ⟨by rw [eq]; exact List.append_nil _, kept₂⟩
  | .more head v post rest, brace, wf, t₀, t, e, i, stop, o, k, n, fuel, scanned, ready, depths,
      reads, lies, end_, deep, enough, enough' => by
    obtain ⟨wfHead, _, wfValue, blank, wfRest⟩ := wf
    rw [more_append] at reads
    have length : (Members.more head v post rest).text.length =
        head.text.length + (v.text.length + (post.length + 1 + rest.text.length)) := by
      simp only [Members.text, List.length_append, List.length_cons]
      omega
    rw [length] at end_ enough enough'
    rw [Members.depth] at deep
    obtain ⟨rfl, found⟩ := scanned
    have pos := value_pos wfValue
    obtain ⟨n, rfl⟩ : ∃ m, n = m + 1 := ⟨n - 1, by omega⟩
    have unnamed : brace = false → head.slice i = (0, 0) := fun h => head_unnamed (h ▸ wfHead) i
    have at_value := reads.behind
    have labelled := Head.labelled lies.left
    have written := dumps_value wfValue fuel found.member found.settled
      (fun k hk => found.kept.depths depths k (Nat.le_of_lt_succ hk)) (at_value.kept found.kept)
      (found.kept.buf ▸ lies.right.left) (found.kept.buf ▸ labelled) (by omega) (by omega)
    rw [Members.sights, Members.lines]
    refine (dumpMembers_some written fun r here => ?_).congr (fit_append _ _)
    obtain ⟨eq, kept⟩ := here
    obtain ⟨t₂, o, next, kept₂, ⟨empty, rfl⟩ | ⟨_, t', all, ready', depths', behind, scanned⟩⟩ :=
      found.after_more wfValue ready depths unnamed kept blank wfRest at_value (by omega) (by omega)
    · refine ⟨t₂, none, next, ?_⟩
      have hidden := wfRest.unwritten empty
      rw [dumpMembers_none, Members.sights_hidden hidden, Members.lines_hidden hidden, hidden, eq]
      exact (Dumps.ok ⟨rfl, kept₂⟩).congr fit_nil
    · refine ⟨t₂, o, next, ?_⟩
      have inner : Lies t'.buf (i + head.text.length + v.text.length + post.length + 1) rest.text :=
        all.buf ▸ Lies.right (a := [0x2C]) lies.right.right.right
      have later := dumps_members wfRest n fuel scanned ready' depths' behind inner (by omega)
        (by omega) (by omega) (by omega)
      rw [scanned.isSome, eq]
      refine later.mono fun r' here => ?_
      obtain ⟨eq', kept'⟩ := here
      exact ⟨by rw [eq'], kept₂.trans kept'⟩

end

/-! ## What a visit sees -/

/-- The bytes of a slice. -/
def slice (buf : List UInt8) (start stop : ℕ) : List UInt8 := (buf.drop start).take (stop - start)

/-- What a callback sees of an object: its fields and the bytes that they point to. -/
def Obj.sight (buf : List UInt8) (o : Obj) : Sight where
  depth := o.depth
  type := o.type
  name := if o.nameEnd = 0 then none else some (slice buf o.nameStart o.nameEnd)
  value :=
    if o.type = .object ∨ o.type = .objectArray then none
    else some (slice buf o.valueStart o.valueEnd)

/-- A callback that writes down what it sees. -/
def look (t : Tree) (obj : ℕ) (log : List Sight) : ℤ × List Sight :=
  (0, log ++ [(t.stack obj).sight t.buf])

/-- The same of the fixed part of a slot. -/
def sight (buf : List UInt8) (x : Core) : Sight where
  depth := x.1
  type := x.2.1
  name := if x.2.2.2.1 = 0 then none else some (slice buf x.2.2.1 x.2.2.2.1)
  value := if x.2.1.Container then none else some (slice buf x.2.2.2.2.1 x.2.2.2.2.2)

/-- What `look` writes down. -/
def looked (buf : List UInt8) (path : List Core) : List Sight :=
  (path.getLast?.map (sight buf)).toList

theorem looked_concat (buf : List UInt8) (front : List Core) (x : Core) :
    looked buf (front ++ [x]) = [sight buf x] := by
  rw [looked, List.getLast?_concat]
  rfl

theorem sees_look : Sees look fun buf path log => .ok (log ++ looked buf path) := by
  intro t e log _
  change _ = (0, log ++ looked t.buf (above t (e + 1)))
  rw [above_succ, looked_concat]
  rfl

theorem slice_lies {buf s : List UInt8} {start : ℕ} (lies : Lies buf start s) :
    slice buf start (start + s.length) = s := by
  rw [slice, Nat.add_sub_cancel_left]
  exact (List.prefix_iff_eq_take.1 lies.here).symm

theorem Labelled.sight {buf : List UInt8} {name : ℕ × ℕ} {label : Option (List UInt8)}
    (labelled : Labelled buf name label) :
    (if name.2 = 0 then none else some (slice buf name.1 name.2)) = label := by
  cases label with
  | none =>
    obtain rfl : name = (0, 0) := labelled
    rfl
  | some s =>
    obtain ⟨start, pos, lies, rfl⟩ := labelled
    rw [if_neg (by simp only; omega), slice_lies lies]

mutual

/-- `look` writes down the values that are seen. -/
theorem Value.looked_paths {lexicon : Lexicon} {buf : List UInt8} :
    ∀ {v : Value}, v.WellFormed lexicon false →
    ∀ (front : List Core) {name : ℕ × ℕ} {label : Option (List UInt8)} (e : ℕ) {i : ℕ},
      Lies buf i v.text → Labelled buf name label →
      (v.paths front name e i).flatMap (looked buf) = v.sights e label
  | .scalar type l, wf, front, name, label, e, i, lies, labelled => by
    have leaf : ¬type.Container := (scalar_type wf).leaf
    rw [Value.paths, List.flatMap_singleton, looked_concat, Value.sights]
    exact congrArg ([·]) (Sight.ext rfl rfl labelled.sight
      ((if_neg leaf).trans (congrArg some (slice_lies lies))))
  | .string body, wf, front, name, label, e, i, lies, labelled => by
    have inner : Lies buf (i + 1) body := Lies.left (Lies.right (a := [quote]) lies)
    rw [Value.paths, List.flatMap_singleton, looked_concat, Value.sights]
    exact congrArg ([·]) (Sight.ext rfl rfl labelled.sight (congrArg some (slice_lies inner)))
  | .node brace members, wf, front, name, label, e, i, lies, labelled => by
    have inner : Lies buf (i + 1) members.text :=
      Lies.left (Lies.right (a := [openingByte brace]) lies)
    have container : (nodeType brace).Container := node_type brace
    rw [Value.paths, Value.sights, List.flatMap_append, Members.looked_paths wf _ _ inner,
      List.flatMap_singleton, looked_concat]
    exact congrArg (_ ++ [·]) (Sight.ext rfl rfl labelled.sight (if_pos container))

/-- The same of the members of a container. -/
theorem Members.looked_paths {lexicon : Lexicon} {buf : List UInt8} :
    ∀ {members : Members} {brace : Bool}, members.WellFormed lexicon false brace →
    ∀ (front : List Core) (e : ℕ) {i : ℕ}, Lies buf i members.text →
      (members.paths front e i).flatMap (looked buf) = members.sights e
  | .nil _, _, _, _, _, _, _ => rfl
  | .last head v post, _, wf, front, e, i, lies => by
    rw [Members.paths, Members.sights]
    cases v.lost post with
    | true => rfl
    | false => exact Value.looked_paths wf.2.2.1 _ _ lies.right.left (Head.labelled lies.left)
  | .more head v post rest, _, wf, front, e, i, lies => by
    have inner : Lies buf (i + head.text.length + v.text.length + post.length + 1) rest.text :=
      Lies.right (a := [0x2C]) lies.right.right.right
    rw [Members.paths, Members.sights, List.flatMap_append,
      Value.looked_paths wf.2.2.1 _ _ lies.right.left (Head.labelled lies.left),
      Members.looked_paths wf.2.2.2.2 _ _ inner]

end

/-! ## The law -/

/-- What a read document is: it is dumped as `out`, and a visit of it sees `log`. -/
structure Read (len : ℕ) (t : Tree) (size : ℕ) (out : List UInt8) (log : List Sight) : Prop where
  dumped : ∀ fuel ≥ size, ∃ t', dump len fuel t 1 = .ok (t', out)
  visited : ∀ fuel ≥ size, ∃ t', visitor look fuel t 1 [] = .ok (0, t', log)

/-- **The text that is written is read again**, as a document in which a visit sees the same, and
which is written as the same text. -/
def RoundTrips (len : ℕ) (space : List UInt8) (members : Members) (rest : List UInt8)
    (memory memory' : Tree) : Prop :=
  ∃ t out log, parse (space ++ ((Value.node true members).text ++ rest)) memory = .ok (t, some 1) ∧
    Read len t (members.text.length + 2) out log ∧
    ∃ t', parse out memory' = .ok (t', some 1) ∧ Read len t' out.length out log

/-- A document that is read is dumped if everything fits, and a visit sees what is seen. -/
theorem document_dumps {lexicon : Lexicon} {space : List UInt8} {members : Members}
    (blank : Blank space) (wf : (Value.node true members).WellFormed lexicon false)
    (deep : (Value.node true members).depth < maxDepth)
    (noNul : 0 ∉ (Value.node true members).text) (rest : List UInt8) (memory : Tree) (len : ℕ) :
    ∃ t, parse (space ++ ((Value.node true members).text ++ rest)) memory = .ok (t, some 1) ∧
      (∀ fuel ≥ members.text.length + 2,
        Dumps (Fit len ((Value.node true members).sights 1 none)) (dump len fuel t 1)
          (fun r => r.2 = (Value.node true members).line 1 none ∧ Kept 1 t r.1)) ∧
      ∀ fuel ≥ members.text.length + 2, ∃ t', visitor look fuel t 1 [] =
        .ok (0, t', (Value.node true members).sights 1 none) := by
  obtain ⟨t, parsed, _, visits⟩ := visits_document sees_look blank wf deep rest memory
  obtain ⟨t', same, document⟩ := parse_document blank wf deep rest memory
  obtain ⟨rfl, _⟩ := Prod.mk.inj (Except.ok.inj (same.symm.trans parsed))
  obtain ⟨settled, depths⟩ := document.slots
  have lies : Lies t'.buf space.length (Value.node true members).text := by
    refine ⟨?_, noNul⟩
    rw [document.buf, List.append_assoc, List.drop_left, List.append_assoc]
    exact List.prefix_append _ _
  have unnamed : Labelled t'.buf (0, 0) none := rfl
  have length : (Value.node true members).text.length = members.text.length + 2 := by
    simp only [Value.text, List.length_cons, List.length_append, List.length_nil]
  refine ⟨t', parsed, fun fuel enough => ?_, fun fuel enough => ?_⟩
  · exact dumps_value wf fuel document.core settled depths document.reads lies unnamed (by omega)
      (by omega)
  · have ends := visits fuel enough []
    rw [calls_logged looked, Value.looked_paths wf _ _ lies unnamed, List.nil_append] at ends
    obtain ⟨t'', visited, _⟩ := ends
    exact ⟨t'', visited⟩

/-- **When the dump of a document is read as the document**: the names, strings, numbers and
keywords that a visit sees are shorter than the buffer by two bytes. -/
theorem round_trips_iff {lexicon : Lexicon} {space : List UInt8} {members : Members}
    {rest : List UInt8} {memory : Tree} (blank : Blank space)
    (wf : (Value.node true members).WellFormed lexicon true)
    (deep : (Value.node true members).depth < maxDepth)
    (noNul : 0 ∉ (Value.node true members).text)
    (accepted : ReturnsObject (parse (space ++ ((Value.node true members).text ++ rest)) memory))
    (len : ℕ) (memory' : Tree) :
    RoundTrips len space members rest memory memory' ↔
      ∀ x ∈ (Value.node true members).sights 1 none, ∀ s ∈ x.copies, s.length + 1 < len := by
  have named := tolerated_wellFormed blank wf ((accepts_iff _ memory).1 accepted)
  obtain ⟨t, parsed, dumps, visited⟩ := document_dumps blank named deep noNul rest memory len
  change _ ↔ Fit len _
  constructor
  · rintro ⟨t', out, log, parsed', read, _⟩
    obtain ⟨rfl, _⟩ := Prod.mk.inj (Except.ok.inj (parsed.symm.trans parsed'))
    by_contra no
    obtain ⟨err, halts⟩ := (dumps _ (Nat.le_refl _)).halts no
    obtain ⟨t'', done⟩ := read.dumped _ (Nat.le_refl _)
    rw [halts] at done
    cases done
  · intro fits
    have written : (Value.node true members).line 1 none =
        spaces 1 ++ ((Value.node true (members.shown 1)).text ++ []) := by
      rw [Value.line_eq, List.append_nil]
      rfl
    obtain ⟨t', parsed', dumps', visited'⟩ := document_dumps (blank_spaces 1)
      (Value.shown_wellFormed named 1)
      (Nat.lt_of_le_of_lt ((Value.node true members).depth_shown 1) deep)
      (Value.shown_noNul noNul 1) [] memory' len
    have seen : (Value.node true (members.shown 1)).sights 1 none =
        (Value.node true members).sights 1 none :=
      (Value.node true members).sights_shown 1 none
    have again : (Value.node true (members.shown 1)).line 1 none =
        (Value.node true members).line 1 none :=
      (Value.node true members).line_shown 1 none
    rw [seen, again] at dumps'
    rw [seen] at visited'
    have size : (members.shown 1).text.length + 2 ≤
        ((Value.node true members).line 1 none).length := by
      rw [written]
      simp [Value.text]
    refine ⟨t, (Value.node true members).line 1 none, _, parsed, ⟨fun fuel enough => ?_, visited⟩,
      t', by rw [written]; exact parsed', fun fuel enough => ?_, fun fuel enough => ?_⟩
    · obtain ⟨⟨t₁, out⟩, done, rfl, _⟩ := (dumps fuel enough).done fits
      exact ⟨t₁, done⟩
    · obtain ⟨⟨t₁, out⟩, done, eq, _⟩ := (dumps' fuel (Nat.le_trans size enough)).done fits
      obtain rfl : out = _ := eq
      exact ⟨t₁, done⟩
    · exact visited' fuel (Nat.le_trans size enough)

theorem blank_nil : Blank [] := fun _ mem => absurd mem List.not_mem_nil

theorem loneNumber_spaced : (Value.node true (loneNumber [0x20])).WellFormed Lexicon.full true :=
  Members.WellFormed.bare (loneNumber_wellFormed (by decide))

/-- `{"a":1 }` is read as an object. -/
theorem loneNumber_accepted :
    ReturnsObject (parse ([] ++ ((Value.node true (loneNumber [0x20])).text ++ [])) zeroed) := by
  have wf : (Value.node true (loneNumber [0x20])).WellFormed Lexicon.full false :=
    loneNumber_wellFormed (by decide)
  have document : Grammatical Lexicon.full false
      ([] ++ ((Value.node true (loneNumber [0x20])).text ++ [])) :=
    ⟨[], _, [], rfl, blank_nil, wf, by decide⟩
  exact (accepts_iff _ zeroed).2 (grammatical_tolerated (fun _ _ _ => trivial) document)

/-- The dump of `{"a":["x",{"b":12} ],"c":true}` is read as the document, with a buffer of six
bytes. -/
theorem round_trips_nested : RoundTrips 6 [] nested [] zeroed zeroed := by
  have document : Grammatical Lexicon.full false ([] ++ ((Value.node true nested).text ++ [])) :=
    ⟨[], _, [], rfl, blank_nil, nested_wellFormed, by decide⟩
  have accepted : ReturnsObject (parse ([] ++ ((Value.node true nested).text ++ [])) zeroed) :=
    (accepts_iff _ zeroed).2 (grammatical_tolerated (fun _ _ _ => trivial) document)
  exact (round_trips_iff blank_nil (Members.WellFormed.bare nested_wellFormed) (by decide)
    (by decide) accepted 6 zeroed).2 (by decide)

/-- With a buffer of two bytes, which hold the name and its NUL and the number and its NUL, the
dump of `{"a":1 }` is not. -/
theorem fitting_refused : (Value.node true (loneNumber [0x20])).WellFormed Lexicon.full true ∧
    ReturnsObject (parse ([] ++ ((Value.node true (loneNumber [0x20])).text ++ [])) zeroed) ∧
    (∀ x ∈ (Value.node true (loneNumber [0x20])).sights 1 none, ∀ s ∈ x.copies,
      (s ++ [0]).length ≤ 2) ∧
    ¬ RoundTrips 2 [] (loneNumber [0x20]) [] zeroed zeroed := by
  refine ⟨loneNumber_spaced, loneNumber_accepted, by decide, ?_⟩
  rintro ⟨t, out, log, parsed, read, _⟩
  have halts : (parse [0x7B, 0x22, 0x61, 0x22, 0x3A, 0x31, 0x20, 0x7D] zeroed).toOption.map
      (fun r => (dump 2 8 r.1 1).toOption.isSome) = some false := by
    decide +kernel
  have parsed' : parse [0x7B, 0x22, 0x61, 0x22, 0x3A, 0x31, 0x20, 0x7D] zeroed =
      .ok (t, some 1) := parsed
  obtain ⟨t', done⟩ := read.dumped 8 (by decide)
  rw [parsed'] at halts
  change some (dump 2 8 t 1).toOption.isSome = some false at halts
  rw [done] at halts
  exact nomatch Option.some.inj halts

end Teres.Tools.Json
