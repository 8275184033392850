import Mathlib.Data.List.Basic
import Mathlib.Order.Basic
import Teres.Tools.JsonGrammar

/-!
# Tokens

`lex` takes the first token off a text. The laws here say what it leaves: less than there was
(`lex_length`), and the rest of the text behind a string, a number or a keyword of the grammar
(`lex_string`, `lex_scalar`). A number ends where a byte follows that is none of a number's
(`restNumber_append`).

The second half says that the loops of the code read exactly those tokens in a text that its NUL
ends (`skipString_quoted`, `skipNumber_eq`, `matches_eq`).
-/

namespace Teres.Tools.Json

/-! ## Strings -/

theorem quoted_quote (s : List UInt8) : quoted (quote :: s) = some s := by
  unfold quoted
  exact if_pos rfl

theorem quoted_escape {d : UInt8} (h : d = quote ∨ d = backslash) (s : List UInt8) :
    quoted (backslash :: d :: s) = quoted s := by
  rw [quoted.eq_def]
  exact if_pos h

theorem quoted_lone {d : UInt8} (h : ¬ (d = quote ∨ d = backslash)) (s : List UInt8) :
    quoted (backslash :: d :: s) = quoted (d :: s) := by
  rw [quoted.eq_def]
  exact if_neg h

theorem quoted_plain {c : UInt8} (h : c ≠ quote) (h' : c ≠ backslash) (s : List UInt8) :
    quoted (c :: s) = quoted s := by
  rw [quoted.eq_def]
  exact (if_neg h).trans (if_neg h')

/-- A string that closes does so behind a `Quoted` inside. -/
theorem quoted_split {s r : List UInt8} (h : quoted s = some r) :
    ∃ l, s = l ++ quote :: r ∧ Quoted l := by
  unfold Quoted
  induction s using quoted.induct with
  | case1 => exact nomatch h
  | case2 s =>
    rw [quoted_quote] at h
    obtain rfl := Option.some.inj h
    exact ⟨[], rfl, quoted_quote []⟩
  | case3 => exact nomatch h
  | case4 d s esc _ ih =>
    rw [quoted_escape esc] at h
    obtain ⟨l, rfl, inside⟩ := ih h
    exact ⟨backslash :: d :: l, rfl, (quoted_escape esc (l ++ [quote])).trans inside⟩
  | case5 d s lone _ ih =>
    rw [quoted_lone lone] at h
    obtain ⟨l, eq, inside⟩ := ih h
    obtain ⟨l, rfl⟩ : ∃ l', l = d :: l' := by
      cases l with
      | nil => exact absurd (.inl (List.cons.inj eq).1) lone
      | cons d' l => exact ⟨l, by rw [(List.cons.inj eq).1]⟩
    exact ⟨backslash :: d :: l, by rw [eq]; rfl, (quoted_lone lone (l ++ [quote])).trans inside⟩
  | case6 c s h₁ h₂ ih =>
    rw [quoted_plain h₁ h₂] at h
    obtain ⟨l, rfl, inside⟩ := ih h
    exact ⟨c :: l, rfl, (quoted_plain h₁ h₂ (l ++ [quote])).trans inside⟩

/-- The rule for the inside of a string: it is empty, or it goes on behind a pair or a byte. -/
theorem Quoted.rec_on {P : List UInt8 → Prop} {l : List UInt8} (h : Quoted l) (nil : P [])
    (escape : ∀ d l, (d = quote ∨ d = backslash) → P l → P (backslash :: d :: l))
    (lone : ∀ d l, ¬ (d = quote ∨ d = backslash) → P (d :: l) → P (backslash :: d :: l))
    (plain : ∀ c l, c ≠ quote → c ≠ backslash → P l → P (c :: l)) : P l := by
  unfold Quoted at h
  induction l using quoted.induct with
  | case1 => exact nil
  | case2 s =>
    rw [List.cons_append, quoted_quote] at h
    exact absurd (Option.some.inj h) (List.append_ne_nil_of_right_ne_nil s (List.cons_ne_nil _ _))
  | case3 => exact absurd h (by decide)
  | case4 d s esc _ ih =>
    rw [List.cons_append, List.cons_append, quoted_escape esc] at h
    exact escape d s esc (ih h)
  | case5 d s one _ ih =>
    rw [List.cons_append, List.cons_append, quoted_lone one] at h
    exact lone d s one (ih h)
  | case6 c s h₁ h₂ ih =>
    rw [List.cons_append, quoted_plain h₁ h₂] at h
    exact plain c s h₁ h₂ (ih h)

/-- Behind a `Quoted` inside, the next quote closes. -/
theorem quoted_close {l : List UInt8} (h : Quoted l) (k : List UInt8) :
    quoted (l ++ quote :: k) = some k := by
  refine h.rec_on (P := fun l => quoted (l ++ quote :: k) = some k) (quoted_quote k) ?_ ?_ ?_
  · exact fun d l esc ih => (quoted_escape esc _).trans ih
  · exact fun d l lone ih => (quoted_lone lone _).trans ih
  · exact fun c l h₁ h₂ ih => (quoted_plain h₁ h₂ _).trans ih

/-! The same steps of the code's own loop. -/

section Skip

variable {stop i : ℕ}

theorem skipString_stop {c : UInt8} (h : ¬ (c ≠ quote ∧ i < stop)) (p : List UInt8) :
    skipString stop i (c :: p) = .ok (i, c :: p) := by
  rw [skipString.eq_def]
  exact if_neg h

theorem skipString_escape {d : UInt8} (h : d = quote ∨ d = backslash) (below : i < stop)
    (p : List UInt8) :
    skipString stop i (backslash :: d :: p) = skipString stop (i + 2) p := by
  have inside : backslash ≠ quote ∧ i < stop := ⟨by decide, below⟩
  rw [skipString.eq_def]
  exact (if_pos inside).trans ((if_pos rfl).trans (if_pos h))

theorem skipString_lone {d : UInt8} (h : ¬ (d = quote ∨ d = backslash)) (below : i < stop)
    (p : List UInt8) :
    skipString stop i (backslash :: d :: p) = skipString stop (i + 1) (d :: p) := by
  have inside : backslash ≠ quote ∧ i < stop := ⟨by decide, below⟩
  rw [skipString.eq_def]
  exact (if_pos inside).trans ((if_pos rfl).trans (if_neg h))

theorem skipString_plain {c : UInt8} (h : c ≠ quote) (h' : c ≠ backslash) (below : i < stop)
    (p : List UInt8) : skipString stop i (c :: p) = skipString stop (i + 1) p := by
  have inside : c ≠ quote ∧ i < stop := ⟨h, below⟩
  rw [skipString.eq_def]
  exact (if_pos inside).trans (if_neg h')

end Skip

/-- The loop of the code stops at that quote, if the bytes before it are within bounds. -/
theorem skipString_quoted {l : List UInt8} (h : Quoted l) (k : List UInt8) {stop : ℕ} (i : ℕ)
    (bound : i + l.length ≤ stop) :
    skipString stop i (l ++ quote :: k) = .ok (i + l.length, quote :: k) := by
  refine h.rec_on (P := fun l => ∀ i, i + l.length ≤ stop →
    skipString stop i (l ++ quote :: k) = .ok (i + l.length, quote :: k)) ?_ ?_ ?_ ?_ i bound
  · intro i _
    exact skipString_stop (fun h => h.1 rfl) k
  · intro d l esc ih i bound
    simp only [List.length_cons] at bound ⊢
    rw [List.cons_append, List.cons_append, skipString_escape esc (by omega),
      ih (i + 2) (by omega), Nat.add_assoc, Nat.add_comm 2]
  · intro d l lone ih i bound
    simp only [List.length_cons] at bound ih ⊢
    refine (skipString_lone lone (by omega) _).trans ((ih (i + 1) (by omega)).trans ?_)
    rw [Nat.add_assoc, Nat.add_comm 1]
  · intro c l h₁ h₂ ih i bound
    rw [List.length_cons] at bound ⊢
    rw [List.cons_append, skipString_plain h₁ h₂ (by omega), ih (i + 1) (by omega), Nat.add_assoc,
      Nat.add_comm 1]

/-- A string that does not close ends at the NUL. -/
theorem skipString_open {s : List UInt8} (h : quoted s = none) {i stop : ℕ}
    (bound : i + s.length = stop) : skipString stop i (s ++ [0]) = .ok (stop, [0]) := by
  induction s using quoted.induct generalizing i with
  | case1 =>
    obtain rfl : i = stop := bound
    exact skipString_stop (fun h => Nat.lt_irrefl _ h.2) []
  | case2 s => rw [quoted_quote] at h; exact nomatch h
  | case3 =>
    rw [List.length_singleton] at bound
    refine (skipString_lone (by decide) (by omega) []).trans ?_
    rw [← bound]
    exact skipString_stop (fun h => Nat.lt_irrefl _ h.2) []
  | case4 d s esc _ ih =>
    rw [quoted_escape esc] at h
    simp only [List.length_cons] at bound
    exact (skipString_escape esc (by omega) _).trans (ih h (by omega))
  | case5 d s lone _ ih =>
    rw [quoted_lone lone] at h
    simp only [List.length_cons] at bound ih
    exact (skipString_lone lone (by omega) _).trans (ih h (by omega))
  | case6 c s h₁ h₂ ih =>
    rw [quoted_plain h₁ h₂] at h
    rw [List.length_cons] at bound
    exact (skipString_plain h₁ h₂ (by omega) _).trans (ih h (by omega))

/-! ## Numbers and keywords -/

/-- A byte that can stand in a number behind its first. -/
def inNumber (c : UInt8) : Bool :=
  isDigit c || c = 0x2D || c = 0x2E || c = 0x65 || c = 0x45 || c = 0x2B

/-- No byte of a number comes first. -/
def Ends (k : List UInt8) : Prop := ∀ c ∈ k.head?, inNumber c = false

/-- What the bytes of a class are. -/
def Byte.Holds (c : UInt8) : Byte → Prop
  | .opening brace => c = openingByte brace
  | .closing brace => c = closingByte brace
  | .comma => c = 0x2C
  | .colon => c = 0x3A
  | .quote => c = Json.quote
  | .blank => c = 0x0A ∨ c = 0x20 ∨ c = 0x09 ∨ c = 0x0D
  | .keyword type tail =>
    (type = .booleanTrue ∨ type = .booleanFalse ∨ type = .objectNull) ∧ 0 ∉ tail
  | .number => c = 0x2D ∨ isDigit c = true
  | .other => True

/-- **What `classify` tells of a byte.** -/
theorem classify_holds (c : UInt8) : (classify c).Holds c := by
  unfold classify
  repeat' refine iteInduction (motive := Byte.Holds c) ?_ fun _ => ?_
  all_goals first | exact id | exact fun _ => ⟨by decide, by decide⟩ | exact trivial

theorem holds_of_classify {c : UInt8} {byte : Byte} (h : classify c = byte) : byte.Holds c :=
  h ▸ classify_holds c

theorem eq_quote {c : UInt8} (h : classify c = .quote) : c = quote := holds_of_classify h

theorem eq_comma {c : UInt8} (h : classify c = .comma) : c = 0x2C := holds_of_classify h

theorem eq_colon {c : UInt8} (h : classify c = .colon) : c = 0x3A := holds_of_classify h

theorem eq_opening {c : UInt8} {brace : Bool} (h : classify c = .opening brace) :
    c = openingByte brace := holds_of_classify h

theorem eq_closing {c : UInt8} {brace : Bool} (h : classify c = .closing brace) :
    c = closingByte brace := holds_of_classify h

/-- The first byte of a number. -/
theorem first_of_number {c : UInt8} (h : classify c = .number) : c = 0x2D ∨ isDigit c = true :=
  holds_of_classify h

/-- The keywords hold no NUL. -/
theorem keyword_tail {c : UInt8} {type : Ty} {tail : List UInt8}
    (h : classify c = .keyword type tail) : 0 ∉ tail := (holds_of_classify h).2

/-- White space, commas and brackets end a number. -/
theorem inNumber_of_classify (c : UInt8) (inside : inNumber c = true) :
    classify c ≠ .blank ∧ classify c ≠ .comma ∧ ∀ brace, classify c ≠ .closing brace := by
  refine ⟨fun class_ => ?_, fun class_ => ?_, fun brace class_ => ?_⟩
  · rcases holds_of_classify class_ with rfl | rfl | rfl | rfl <;> exact absurd inside (by decide)
  · obtain rfl := eq_comma class_
    exact absurd inside (by decide)
  · obtain rfl := eq_closing class_
    cases brace <;> exact absurd inside (by decide)

theorem classify_openingByte (brace : Bool) : classify (openingByte brace) = .opening brace := by
  cases brace <;> decide

theorem classify_closingByte (brace : Bool) : classify (closingByte brace) = .closing brace := by
  cases brace <;> decide

theorem restNumber_eq (s : List UInt8) : restNumber s =
    (restOne (fun c => c = 0x2D || c = 0x2B) (restOne (fun c => c = 0x65 || c = 0x45)
      ((restOne (fun c => c = 0x2E)
        ((restOne (fun c => c = 0x2D) s).dropWhile isDigit)).dropWhile isDigit))).dropWhile
          isDigit := rfl

theorem restOne_append {f : UInt8 → Bool} {k : List UInt8} (ends : ∀ c ∈ k.head?, f c = false)
    (l : List UInt8) : restOne f (l ++ k) = restOne f l ++ k := by
  cases l with
  | nil =>
    cases k with
    | nil => rfl
    | cons c k => exact if_neg (by rw [ends c rfl]; decide)
  | cons c l =>
    simp only [List.cons_append, restOne]
    split <;> rfl

theorem dropWhile_ends {f : UInt8 → Bool} {k : List UInt8} (ends : ∀ c ∈ k.head?, f c = false)
    (l : List UInt8) : (l ++ k).dropWhile f = l.dropWhile f ++ k := by
  have own : k.dropWhile f = k := by
    cases k with
    | nil => rfl
    | cons c k => exact List.dropWhile_cons_of_neg (by rw [ends c rfl]; decide)
  rw [List.dropWhile_append, own]
  split_ifs with empty
  · rw [List.isEmpty_iff.mp empty, List.nil_append]
  · rfl

/-- **A number ends** where a byte comes that can stand in none. -/
theorem restNumber_append {k : List UInt8} (ends : Ends k) (l : List UInt8) :
    restNumber (l ++ k) = restNumber l ++ k := by
  have stops : ∀ f : UInt8 → Bool, (∀ c, f c = true → inNumber c = true) →
      ∀ c ∈ k.head?, f c = false := fun f within c hc => by
    cases h : f c with
    | false => rfl
    | true => exact absurd ((within c h).symm.trans (ends c hc)) (by decide)
  have digits := stops isDigit fun c h => by simp [inNumber, h]
  have minus := stops (fun c => c = 0x2D) fun c h => by simp_all [inNumber]
  have point := stops (fun c => c = 0x2E) fun c h => by simp_all [inNumber]
  have expo := stops (fun c => c = 0x65 || c = 0x45) fun c h => by
    simp only [Bool.or_eq_true, decide_eq_true_eq] at h
    rcases h with rfl | rfl <;> decide
  have sign := stops (fun c => c = 0x2D || c = 0x2B) fun c h => by
    simp only [Bool.or_eq_true, decide_eq_true_eq] at h
    rcases h with rfl | rfl <;> decide
  simp only [restNumber_eq, restOne_append minus, dropWhile_ends digits, restOne_append point,
    restOne_append expo, restOne_append sign]

theorem restOne_suffix (f : UInt8 → Bool) (s : List UInt8) : restOne f s <:+ s := by
  cases s with
  | nil => exact List.suffix_refl []
  | cons c s =>
    rw [restOne]
    split_ifs
    · exact List.suffix_cons c s
    · exact List.suffix_refl _

/-- What follows the first byte of a number, read on. -/
theorem restNumber_suffix {c : UInt8} (h : classify c = .number) (s : List UInt8) :
    restNumber (c :: s) <:+ s := by
  have first : (restOne (fun c => c = 0x2D) (c :: s)).dropWhile isDigit <:+ s := by
    rw [restOne]
    split_ifs with minus
    · exact List.dropWhile_suffix isDigit
    · have digit := (first_of_number h).resolve_left fun h => minus (decide_eq_true h)
      rw [List.dropWhile_cons_of_pos digit]
      exact List.dropWhile_suffix isDigit
  rw [restNumber_eq]
  refine (List.dropWhile_suffix isDigit).trans ((restOne_suffix _ _).trans ?_)
  refine (restOne_suffix _ _).trans ((List.dropWhile_suffix isDigit).trans ?_)
  exact (restOne_suffix _ _).trans first

/-- One byte skipped by the code. -/
theorem skipOne_eq {f : UInt8 → Bool} (nul : f 0 = false) (i : ℕ) (s : List UInt8) :
    ∃ i', skipOne f i (s ++ [0]) = .ok (i', restOne f s ++ [0]) ∧
      i' + (restOne f s).length = i + s.length := by
  cases s with
  | nil => exact ⟨i, if_neg (by rw [nul]; decide), rfl⟩
  | cons c s =>
    rw [restOne]
    split_ifs with h
    · exact ⟨i + 1, if_pos h, by rw [List.length_cons]; omega⟩
    · exact ⟨i, if_neg h, rfl⟩

/-- Digits skipped by the code. -/
theorem skipDigits_eq (i : ℕ) (s : List UInt8) :
    ∃ i', skipDigits i (s ++ [0]) = .ok (i', s.dropWhile isDigit ++ [0]) ∧
      i' + (s.dropWhile isDigit).length = i + s.length := by
  induction s generalizing i with
  | nil => exact ⟨i, if_neg (by decide), rfl⟩
  | cons c s ih =>
    cases h : isDigit c with
    | true =>
      obtain ⟨i', eq, len⟩ := ih (i + 1)
      rw [List.dropWhile_cons_of_pos h]
      exact ⟨i', (if_pos h).trans eq, by rw [len, List.length_cons]; omega⟩
    | false =>
      rw [List.dropWhile_cons_of_neg (by rw [h]; decide)]
      exact ⟨i, if_neg (by rw [h]; decide), rfl⟩

/-- **A number skipped by the code.** -/
theorem skipNumber_eq (i : ℕ) (s : List UInt8) :
    ∃ i', skipNumber i (s ++ [0]) = .ok (i', restNumber s ++ [0]) ∧
      i' + (restNumber s).length = i + s.length := by
  unfold skipNumber
  rw [restNumber_eq]
  obtain ⟨i₁, e₁, l₁⟩ := skipOne_eq (f := fun c => c = 0x2D) (by decide) i s
  obtain ⟨i₂, e₂, l₂⟩ := skipDigits_eq i₁ (restOne (fun c => c = 0x2D) s)
  obtain ⟨i₃, e₃, l₃⟩ := skipOne_eq (f := fun c => c = 0x2E) (by decide) i₂
    ((restOne (fun c => c = 0x2D) s).dropWhile isDigit)
  obtain ⟨i₄, e₄, l₄⟩ := skipDigits_eq i₃
    (restOne (fun c => c = 0x2E) ((restOne (fun c => c = 0x2D) s).dropWhile isDigit))
  generalize (restOne (fun c => c = 0x2E)
    ((restOne (fun c => c = 0x2D) s).dropWhile isDigit)).dropWhile isDigit = m at *
  obtain ⟨i₅, e₅, l₅⟩ := skipOne_eq (f := fun c => c = 0x65 || c = 0x45) (by decide) i₄ m
  obtain ⟨i₆, e₆, l₆⟩ := skipOne_eq (f := fun c => c = 0x2D || c = 0x2B) (by decide) i₅
    (restOne (fun c => c = 0x65 || c = 0x45) m)
  obtain ⟨i₇, e₇, l₇⟩ := skipDigits_eq i₆ (restOne (fun c => c = 0x2D || c = 0x2B)
    (restOne (fun c => c = 0x65 || c = 0x45) m))
  refine ⟨i₇, ?_, by omega⟩
  simp only [e₁, e₂, e₃, e₄, e₅, e₆, e₇, bind, Except.bind]

/-- A keyword compared by the code. -/
theorem matches_eq {tail : List UInt8} (nul : 0 ∉ tail) (s : List UInt8) :
    matches_ tail (s ++ [0]) = .ok (tail.isPrefixOf s) := by
  induction tail generalizing s with
  | nil => cases s <;> rfl
  | cons w tail ih =>
    cases s with
    | nil =>
      have other : (0 : UInt8) ≠ w := List.ne_of_not_mem_cons nul
      exact if_neg other
    | cons c s =>
      rw [List.cons_append, matches_, List.isPrefixOf]
      split_ifs with same
      · rw [ih (List.not_mem_of_not_mem_cons nul) s, same]
        simp
      · have other : ¬ w = c := fun h => same h.symm
        simp [other]

/-! ## The first token -/

/-- The class of a token of one byte. -/
def Token.byte : Token → Option Byte
  | .opening brace => some (.opening brace)
  | .closing brace => some (.closing brace)
  | .comma => some .comma
  | .colon => some .colon
  | .blank => some .blank
  | .string => none
  | .scalar _ => none

/-- The types of numbers and keywords. -/
def Ty.Scalar (type : Ty) : Prop :=
  type = .booleanTrue ∨ type = .booleanFalse ∨ type = .objectNull ∨ type = .number

theorem keyword_type {c : UInt8} {type : Ty} {tail : List UInt8}
    (h : classify c = .keyword type tail) : type.Scalar := by
  rcases (holds_of_classify h).1 with true_ | false_ | null
  · exact .inl true_
  · exact .inr (.inl false_)
  · exact .inr (.inr (.inl null))

/-- What `lex` can take from behind the byte `b`. -/
inductive Lexed (b : UInt8) (u : List UInt8) : Token → List UInt8 → Prop where
  | byte {k : Token} : k.byte = some (classify b) → Lexed b u k u
  | string {s' : List UInt8} : b = quote → quoted u = some s' → Lexed b u .string s'
  | keyword {type : Ty} {tail s' : List UInt8} : classify b = .keyword type tail →
      u = tail ++ s' → Lexed b u (.scalar type) s'
  | number : classify b = .number → ¬(restNumber (b :: u) = u ∧ b = 0x2D) →
      Lexed b u (.scalar .number) (restNumber (b :: u))

/-- **A token takes its first byte and then what it needs.** -/
theorem lexed {b : UInt8} {u s' : List UInt8} {k : Token} (h : lex (b :: u) = some (k, s')) :
    Lexed b u k s' := by
  rw [lex] at h
  cases class_ : classify b with
  | quote =>
    simp only [class_] at h
    obtain ⟨r, closes, pair⟩ := Option.map_eq_some_iff.mp h
    obtain ⟨rfl, rfl⟩ := Prod.mk.inj pair
    exact .string (eq_quote class_) closes
  | keyword type tail =>
    simp only [class_] at h
    split_ifs at h with matches'
    obtain ⟨rfl, rfl⟩ := Prod.mk.inj (Option.some.inj h)
    obtain ⟨r, rfl⟩ := List.isPrefixOf_iff_prefix.mp matches'
    rw [List.drop_left]
    exact .keyword class_ rfl
  | number =>
    simp only [class_] at h
    split_ifs at h with sign
    obtain ⟨rfl, rfl⟩ := Prod.mk.inj (Option.some.inj h)
    exact .number class_ sign
  | other =>
    simp only [class_] at h
    exact nomatch h
  | _ =>
    simp only [class_] at h
    obtain ⟨rfl, rfl⟩ := Prod.mk.inj (Option.some.inj h)
    exact .byte (congrArg some class_.symm)

theorem lex_lexed {s s' : List UInt8} {k : Token} (h : lex s = some (k, s')) :
    ∃ b u, s = b :: u ∧ Lexed b u k s' := by
  cases s with
  | nil => exact nomatch h
  | cons b u => exact ⟨b, u, rfl, lexed h⟩

theorem Lexed.suffix {b : UInt8} {u s' : List UInt8} {k : Token} (h : Lexed b u k s') :
    s' <:+ u := by
  cases h with
  | byte => exact List.suffix_refl u
  | string _ closes =>
    obtain ⟨l, rfl, _⟩ := quoted_split closes
    exact ⟨l ++ [quote], by rw [List.append_assoc]; rfl⟩
  | keyword _ text => exact ⟨_, text.symm⟩
  | number class_ _ => exact restNumber_suffix class_ u

theorem lex_suffix {s s' : List UInt8} {k : Token} (h : lex s = some (k, s')) : s' <:+ s := by
  obtain ⟨b, u, rfl, token⟩ := lex_lexed h
  exact token.suffix.trans (List.suffix_cons b u)

theorem lex_length {s s' : List UInt8} {k : Token} (h : lex s = some (k, s')) :
    s'.length < s.length := by
  obtain ⟨b, u, rfl, token⟩ := lex_lexed h
  exact Nat.lt_succ_of_le token.suffix.length_le

/-- Brackets, commas, colons and white space are tokens by themselves. -/
theorem lex_byte {s s' : List UInt8} {k : Token} (h : lex s = some (k, s')) {byte : Byte}
    (single : k.byte = some byte) : ∃ b, s = b :: s' ∧ classify b = byte := by
  obtain ⟨b, u, rfl, token⟩ := lex_lexed h
  cases token with
  | byte same => exact ⟨b, rfl, Option.some.inj (same.symm.trans single)⟩
  | string => exact nomatch single
  | keyword => exact nomatch single
  | number => exact nomatch single

/-- A token that is a string has a quote on both sides. -/
theorem lex_quotes {s s' : List UInt8} (h : lex s = some (.string, s')) :
    ∃ body, s = quote :: (body ++ quote :: s') ∧ Quoted body := by
  obtain ⟨b, u, rfl, token⟩ := lex_lexed h
  cases token with
  | byte same => exact nomatch same
  | string first closes =>
    obtain ⟨body, rfl, quotes⟩ := quoted_split closes
    rw [first]
    exact ⟨body, rfl, quotes⟩

theorem lex_type {s s' : List UInt8} {type : Ty} (h : lex s = some (.scalar type, s')) :
    type.Scalar := by
  obtain ⟨b, u, rfl, token⟩ := lex_lexed h
  cases token with
  | byte same => exact nomatch same
  | keyword class_ => exact keyword_type class_
  | number => exact .inr (.inr (.inr rfl))

/-- A string of the grammar is a token. -/
theorem lex_string {body : List UInt8} (h : Quoted body) (k : List UInt8) :
    lex (quote :: (body ++ quote :: k)) = some (.string, k) := by
  have class_ : classify quote = .quote := by decide
  rw [lex]
  simp only [class_]
  rw [quoted_close h]
  rfl

/-- A number or a keyword of the grammar is a token, if it ends. -/
theorem lex_scalar {lexicon : Lexicon} {type : Ty} {l : List UInt8} (h : lexicon.Scalar type l)
    {k : List UInt8} (ends : Ends k) : lex (l ++ k) = some (.scalar type, k) := by
  rcases h with ⟨rfl, number⟩ | ⟨c, tail, rfl, class_⟩
  · obtain ⟨whole, sign, c, s, rfl, class_⟩ := lexicon.numeral l number
    have rest : restNumber (c :: (s ++ k)) = k := by
      rw [← List.cons_append, restNumber_append ends, whole, List.nil_append]
    have other : ¬ (k = s ++ k ∧ c = 0x2D) := by
      rintro ⟨same, rfl⟩
      have empty : s = [] := List.self_eq_append_left.mp same
      exact sign (by rw [empty])
    rw [List.cons_append, lex]
    simp only [class_, rest]
    exact if_neg other
  · rw [List.cons_append, lex]
    simp only [class_]
    rw [if_pos (List.isPrefixOf_iff_prefix.mpr (List.prefix_append tail k)), List.drop_left]

end Teres.Tools.Json
