import Teres.Tools.Json

/-!
# The documents of the JSON parser

A document is a syntax tree that keeps its white space, so that it has one text and every value of
it one place. `WellFormed` is the grammar: named members in objects, unnamed ones in arrays, one
trailing comma tolerated in both. What is a number and what is a string is left to a `Lexicon`,
which may be any part of what the parser's own loops read.

`Loose` is a second, larger language. It reads the tokens of a container up to its closing bracket
in the states of the parser; a number or a keyword is taken in every state, and what follows it is
read as the rest of an object.
-/

namespace Teres.Tools.Json

/-! ## Tokens -/

/-- White space. -/
def Blank (s : List UInt8) : Prop := ∀ c ∈ s, classify c = .blank

instance (s : List UInt8) : Decidable (Blank s) := List.decidableBAll _ s

/-- What follows a string whose opening quote has been read. -/
def quoted : List UInt8 → Option (List UInt8)
  | [] => none
  | c :: s =>
    if c = quote then some s
    else if c = backslash then
      match s with
      | [] => none
      | d :: s' => if d = quote ∨ d = backslash then quoted s' else quoted (d :: s')
    else quoted s

/-- What follows a byte of `f`, if there is one. -/
def restOne (f : UInt8 → Bool) : List UInt8 → List UInt8
  | [] => []
  | c :: s => if f c then s else c :: s

/-- What follows a number. -/
def restNumber (s : List UInt8) : List UInt8 :=
  let s := (restOne (· = 0x2D) s).dropWhile isDigit
  let s := (restOne (· = 0x2E) s).dropWhile isDigit
  (restOne (fun c => c = 0x2D || c = 0x2B) (restOne (fun c => c = 0x65 || c = 0x45) s)).dropWhile
    isDigit

/-- The tokens. -/
inductive Token where
  | opening (brace : Bool)
  | closing (brace : Bool)
  | comma
  | colon
  | string
  | scalar (type : Ty)
  | blank
deriving DecidableEq

/-- The first token of a text and what follows it. -/
def lex : List UInt8 → Option (Token × List UInt8)
  | [] => none
  | c :: s =>
    match classify c with
    | .opening brace => some (.opening brace, s)
    | .closing brace => some (.closing brace, s)
    | .comma => some (.comma, s)
    | .colon => some (.colon, s)
    | .quote => (quoted s).map fun r => (.string, r)
    | .blank => some (.blank, s)
    | .keyword type tail =>
      if tail.isPrefixOf s then some (.scalar type, s.drop tail.length) else none
    | .number =>
      if restNumber (c :: s) = s ∧ c = 0x2D then none
      else some (.scalar .number, restNumber (c :: s))
    | .other => none

/-! ## Documents -/

/-- A number as the parser reads it: no byte is left, and it is not a sign alone. -/
def Numeral (l : List UInt8) : Prop :=
  restNumber l = [] ∧ l ≠ [0x2D] ∧ ∃ c s, l = c :: s ∧ classify c = .number

/-- The inside of a string as the parser reads it: the quote behind it is the first to close it. -/
def Quoted (body : List UInt8) : Prop := quoted (body ++ [quote]) = some []

instance (body : List UInt8) : Decidable (Quoted body) := inferInstanceAs (Decidable (_ = _))

/-- The numbers and strings of a grammar, among those that the parser reads. -/
structure Lexicon where
  number : List UInt8 → Prop
  string : List UInt8 → Prop
  numeral : ∀ l, number l → Numeral l
  quoted : ∀ l, string l → Quoted l

/-- All that the parser reads. -/
def Lexicon.full : Lexicon where
  number := Numeral
  string := Quoted
  numeral _ h := h
  quoted _ h := h

/-- The numbers and keywords, with their types. -/
def Lexicon.Scalar (lexicon : Lexicon) (type : Ty) (l : List UInt8) : Prop :=
  (type = .number ∧ lexicon.number l) ∨
    ∃ c tail, l = c :: tail ∧ classify c = .keyword type tail

/-- The name of a member, with the white space around its colon. -/
structure Name where
  body : List UInt8
  before : List UInt8
  after : List UInt8

/-- What stands before a value: white space, and in an object the name. -/
structure Head where
  pre : List UInt8
  name : Option Name

mutual

/-- A value. -/
inductive Value where
  | scalar (type : Ty) (lexeme : List UInt8)
  | string (body : List UInt8)
  | node (brace : Bool) (members : Members)

/-- The inside of a container: members, each with the white space behind it. -/
inductive Members where
  | nil (space : List UInt8)
  | last (head : Head) (value : Value) (post : List UInt8)
  | more (head : Head) (value : Value) (post : List UInt8) (rest : Members)

end

/-! ## The text -/

/-- The text of a name and its colon. -/
def Name.text (n : Name) : List UInt8 :=
  quote :: (n.body ++ quote :: (n.before ++ 0x3A :: n.after))

/-- The text of what stands before a value. -/
def Head.text (h : Head) : List UInt8 := h.pre ++ (h.name.elim [] Name.text)

def openingByte (brace : Bool) : UInt8 := if brace then 0x7B else 0x5B

def closingByte (brace : Bool) : UInt8 := if brace then 0x7D else 0x5D

mutual

/-- The text of a value. -/
def Value.text : Value → List UInt8
  | .scalar _ lexeme => lexeme
  | .string body => quote :: (body ++ [quote])
  | .node brace members => openingByte brace :: (members.text ++ [closingByte brace])

/-- The text between two brackets. -/
def Members.text : Members → List UInt8
  | .nil space => space
  | .last head value post => head.text ++ (value.text ++ post)
  | .more head value post rest => head.text ++ (value.text ++ (post ++ 0x2C :: rest.text))

end

/-! ## The grammar -/

/-- A name where there is one, in an object and nowhere else. -/
def Head.WellFormed (lexicon : Lexicon) (brace : Bool) (h : Head) : Prop :=
  Blank h.pre ∧
    match h.name with
    | none => brace = false
    | some n => brace = true ∧ lexicon.string n.body ∧ Blank n.before ∧ Blank n.after

/-- Whether a value is a number or a keyword. -/
def Value.isScalar : Value → Bool
  | .scalar _ _ => true
  | _ => false

mutual

/-- A value of the grammar; `bare` allows numbers and keywords as elements of arrays. -/
def Value.WellFormed (lexicon : Lexicon) (bare : Bool) : Value → Prop
  | .scalar type lexeme => lexicon.Scalar type lexeme
  | .string body => lexicon.string body
  | .node brace members => members.WellFormed lexicon bare brace

/-- The inside of an object or an array of the grammar. -/
def Members.WellFormed (lexicon : Lexicon) (bare brace : Bool) : Members → Prop
  | .nil space => Blank space
  | .last head value post =>
    head.WellFormed lexicon brace ∧ (value.isScalar = true → brace = true ∨ bare = true) ∧
      value.WellFormed lexicon bare ∧ Blank post
  | .more head value post rest =>
    head.WellFormed lexicon brace ∧ (value.isScalar = true → brace = true ∨ bare = true) ∧
      value.WellFormed lexicon bare ∧ Blank post ∧ rest.WellFormed lexicon bare brace

end

mutual

/-- How deep containers are nested in a value. -/
def Value.depth : Value → ℕ
  | .node _ members => members.depth + 1
  | _ => 0

/-- How deep containers are nested in the members. -/
def Members.depth : Members → ℕ
  | .nil _ => 0
  | .last _ value _ => value.depth
  | .more _ value _ rest => max value.depth rest.depth

end

/-! ## What a visit is to see -/

/-- What a callback reads of a value: its type, the slice of its name, and of a string, a number or
a keyword the slice of its value. -/
structure Event where
  type : Ty
  name : ℕ × ℕ
  value : Option (ℕ × ℕ)
deriving DecidableEq

/-- The type of a container. -/
def nodeType (brace : Bool) : Ty := if brace then .object else .objectArray

/-- The slice of the name in a head at offset `i`. -/
def Head.slice (h : Head) (i : ℕ) : ℕ × ℕ :=
  h.name.elim (0, 0) fun n => (i + h.pre.length + 1, i + h.pre.length + 1 + n.body.length)

mutual

/-- The values of a value at offset `i`, itself last. -/
def Value.events (name : ℕ × ℕ) (i : ℕ) : Value → List Event
  | .scalar type lexeme => [⟨type, name, some (i, i + lexeme.length)⟩]
  | .string body => [⟨.string, name, some (i + 1, i + 1 + body.length)⟩]
  | .node brace members => members.events (i + 1) ++ [⟨nodeType brace, name, none⟩]

/-- The values of the members at offset `i`, in document order. -/
def Members.events (i : ℕ) : Members → List Event
  | .nil _ => []
  | .last head value _ => value.events (head.slice i) (i + head.text.length)
  | .more head value post rest =>
    value.events (head.slice i) (i + head.text.length) ++
      rest.events (i + head.text.length + value.text.length + post.length + 1)

end

/-- A value that the parser finds only if a byte stands between it and the closing bracket. -/
def Value.tight : Value → Bool
  | .scalar _ lexeme => lexeme.length = 1
  | .string _ => false
  | .node _ _ => true

/-- A value that the scan of its container loses. -/
def Value.lost (v : Value) (post : List UInt8) : Bool := v.tight && post.isEmpty

mutual

/-- Every container or number of one byte that is the last of its container is followed by white
space. -/
def Value.Roomy : Value → Prop
  | .node _ members => members.Roomy
  | _ => True

/-- The same of the members of a container. -/
def Members.Roomy : Members → Prop
  | .nil _ => True
  | .last _ value post => value.Roomy ∧ (value.tight = true → post ≠ [])
  | .more _ value _ rest => value.Roomy ∧ rest.Roomy

end

/-! ## The larger language -/

/-- The state behind a string. -/
def afterString : St → Option St
  | .objectAfterColon => some .objectAfterMember
  | .objectAfterComma => some .objectAfterName
  | .arrayBody => some .arrayAfterMember
  | .arrayAfterComma => some .arrayAfterMember
  | .objectBody => some .objectAfterName
  | _ => none

/-- The state behind a container. -/
def afterNode : St → Option St
  | .objectAfterColon => some .objectAfterMember
  | .arrayBody => some .arrayAfterMember
  | .arrayAfterComma => some .arrayAfterMember
  | _ => none

/-- The state behind a token that opens and closes nothing. -/
def move : Token → St → Option St
  | .comma, .arrayAfterMember => some .arrayAfterComma
  | .comma, .objectAfterMember => some .objectAfterComma
  | .colon, .objectAfterName => some .objectAfterColon
  | .string, q => afterString q
  | .scalar _, _ => some .objectAfterMember
  | .blank, q => some q
  | _, _ => none

/-- The state in which a container begins. -/
def bodyState (brace : Bool) : St := if brace then .objectBody else .arrayBody

/-- `Loose proper n q s r`: read in state `q`, the text `s` goes on with the rest of a container,
closing bracket included, and then with `r`; further containers are nested `n` deep at most, and
every other token is read where it is `proper`. -/
inductive Loose (proper : St → List UInt8 → Prop) : ℕ → St → List UInt8 → List UInt8 → Prop
  | token {n : ℕ} {q q' : St} {s s' r : List UInt8} {k : Token} (token : lex s = some (k, s'))
      (here : proper q s) (moves : move k q = some q') (rest : Loose proper n q' s' r) :
      Loose proper n q s r
  | closing {n : ℕ} {q : St} {s r : List UInt8} {brace : Bool}
      (token : lex s = some (.closing brace, r)) (closable : closable brace q = true) :
      Loose proper n q s r
  | nested {n : ℕ} {q q' : St} {s s' m r : List UInt8} {brace : Bool}
      (token : lex s = some (.opening brace, s')) (moves : afterNode q = some q')
      (inside : Loose proper n (bodyState brace) s' m) (rest : Loose proper (n + 1) q' m r) :
      Loose proper (n + 1) q s r

/-- Tokens are taken wherever they stand, as the parser does. -/
def Anywhere (_ : St) (_ : List UInt8) : Prop := True

/-- `Seen n q s r d`: the text `s` goes on with the rest of a container and then with `r`, as for
`Loose`, and the containers in it that a visit comes to are nested `d` deep. A visit does not come
to a container whose closing bracket stands right in front of its parent's. -/
inductive Seen : ℕ → St → List UInt8 → List UInt8 → ℕ → Prop
  | token {n d : ℕ} {q q' : St} {s s' r : List UInt8} {k : Token} (token : lex s = some (k, s'))
      (moves : move k q = some q') (rest : Seen n q' s' r d) : Seen n q s r d
  | closing {n : ℕ} {q : St} {s r : List UInt8} {brace : Bool}
      (token : lex s = some (.closing brace, r)) (closable : closable brace q = true) :
      Seen n q s r 0
  | nested {n d d' : ℕ} {q q' : St} {s s' m r : List UInt8} {brace : Bool}
      (token : lex s = some (.opening brace, s')) (moves : afterNode q = some q')
      (inside : Seen n (bodyState brace) s' m d) (rest : Seen (n + 1) q' m r d')
      (apart : ∀ last m', lex m ≠ some (.closing last, m')) : Seen (n + 1) q s r (max (d + 1) d')
  | hidden {n d : ℕ} {q q' : St} {s s' m r : List UInt8} {brace last : Bool}
      (token : lex s = some (.opening brace, s')) (moves : afterNode q = some q')
      (inside : Seen n (bodyState brace) s' m d) (closes : lex m = some (.closing last, r))
      (closable : closable last q' = true) : Seen (n + 1) q s r 0

/-- Numbers and keywords stand behind a colon, and numbers and strings are those of the lexicon. -/
def Placed (lexicon : Lexicon) (q : St) (s : List UInt8) : Prop :=
  ∀ k s', lex s = some (k, s') →
    match k with
    | .scalar type => q = .objectAfterColon ∧ ∃ l, s = l ++ s' ∧ lexicon.Scalar type l
    | .string => ∃ body, s = quote :: (body ++ quote :: s') ∧ lexicon.string body
    | _ => True

/-! ## Texts -/

/-- The text begins with an object of the grammar. -/
def Grammatical (lexicon : Lexicon) (bare : Bool) (t : List UInt8) : Prop :=
  ∃ space members rest, t = space ++ ((Value.node true members).text ++ rest) ∧ Blank space ∧
    (Value.node true members).WellFormed lexicon bare ∧
    (Value.node true members).depth ≤ maxDepth

/-- The text begins with an object of the larger language. -/
def Tolerated (proper : St → List UInt8 → Prop) (t : List UInt8) : Prop :=
  ∃ space s r, t = space ++ 0x7B :: s ∧ Blank space ∧
    Loose proper (maxDepth - 1) .objectBody s r

/-- The text begins with an object in which a visit comes to a container as deep as there are
slots. -/
def SeenTooDeep (t : List UInt8) : Prop :=
  ∃ space s r d, t = space ++ 0x7B :: s ∧ Blank space ∧
    Seen (maxDepth - 1) .objectBody s r d ∧ maxDepth - 1 ≤ d

/-- The text begins with a number or a keyword. -/
def StartsScalar (t : List UInt8) : Prop :=
  ∃ space s type r, t = space ++ s ∧ Blank space ∧ lex s = some (.scalar type, r)

end Teres.Tools.Json
