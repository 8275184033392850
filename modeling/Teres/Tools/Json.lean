import Mathlib.Data.Nat.Notation
import Mathlib.Data.Int.Notation
import Mathlib.Logic.Function.Basic

/-!
# The JSON pull parser (`tools/build.c`, up to `json__visitor`)

The buffer is the text and its terminating NUL. A pointer into it is an index and the bytes from it
on, which the code keeps in step (`i` and `p`); reading where nothing is left is a fault, as is a
stack index above `json__MAX_DEPTH + 1` and `offset - 1` at offset zero. A pointer to an object is
its index in `tree->stack`, and the stack before a parse is whatever was in memory.

`json__get` is a loop over the bytes with one branch for each kind of byte, each a definition of its
own. A branch hands on where the loop goes on, after its `p++` and `i++`, or the error that the code
returns. `json__visitor` has fuel for its recursion and its loop.
-/

namespace Teres.Tools.Json

/-- Why a run has no result: a read or an index out of bounds, or no fuel. -/
inductive Stop where
  | fault
  | fuel
deriving DecidableEq

abbrev M := Except Stop

/-- `json__MAX_DEPTH`. -/
def maxDepth : ℕ := 20

/-- The JSON object types. -/
inductive Ty where
  | undefined
  | objectNull
  | boolean
  | booleanTrue
  | booleanFalse
  | number
  | bigint
  | string
  | symbol
  | function
  | object
  | objectArray
deriving DecidableEq

/-- The JSON state machine. -/
inductive St where
  | init
  | objectBody
  | objectName
  | objectAfterName
  | objectAfterColon
  | objectAfterComma
  | objectAfterMember
  | arrayBody
  | arrayAfterComma
  | arrayAfterMember
  | stateEnd
deriving DecidableEq

/-- `struct json__object`, without the pointer to its tree. -/
structure Obj where
  depth : ℕ
  state : St
  childNameS : ℕ
  childNameE : ℕ
  childType : Ty
  type : Ty
  nameStart : ℕ
  nameEnd : ℕ
  valueStart : ℕ
  valueEnd : ℕ
  count : ℕ

/-- A line that `json__error` prints. -/
structure Report where
  line : ℕ
  col : ℕ
  message : String

/-- `struct json__tree`, and what has been printed. `buf` holds the text and the NUL behind it. -/
structure Tree where
  buf : List UInt8
  len : ℕ
  stack : ℕ → Obj
  printed : List Report

namespace Tree

/-- A stack slot written. -/
def set (t : Tree) (k : ℕ) (o : Obj) : Tree := { t with stack := Function.update t.stack k o }

/-- The state of a slot written. -/
def setState (t : Tree) (k : ℕ) (q : St) : Tree := t.set k { t.stack k with state := q }

/-- A stack index that is in bounds. -/
def slot (_ : Tree) (k : ℕ) : M ℕ := if k < maxDepth + 2 then .ok k else .error .fault

/-- The line and the column that `json__error` counts to. -/
def position (t : Tree) (offset : ℕ) : ℕ × ℕ :=
  ((t.buf.take t.len).take offset).foldl
    (fun (at_ : ℕ × ℕ) (c : UInt8) =>
      if c = 0x0A then (at_.1 + 1, 1) else (at_.1, at_.2 + 1)) (1, 1)

/-- `json__error`: it prints, and the caller returns `tree->stack`, the undefined object. -/
def error (t : Tree) (offset : ℕ) (message : String) : Tree :=
  { t with printed := t.printed ++
      [⟨(t.position offset).1, (t.position offset).2, message⟩] }

end Tree

/-! ## The stack -/

/-- `json__push`: the new current object, or none after an error. -/
def push (t : Tree) (obj offset : ℕ) : M (Tree × Option ℕ) :=
  let o := t.stack obj
  if maxDepth ≤ o.depth then
    .ok (t.error offset "too many nested level of objects", none)
  else do
    let k ← t.slot (o.depth + 1)
    let t := t.set obj { o with count := o.count + 1 }
    let ret := { t.stack k with
      depth := o.depth + 1
      valueStart := offset + 1
      valueEnd := 0
      count := 0
      childNameS := 0
      childNameE := 0
      childType := .undefined }
    if o.childType ≠ .undefined then
      let t := t.set k { ret with
        nameStart := o.childNameS, nameEnd := o.childNameE, type := o.childType }
      .ok (t.set obj { t.stack obj with childType := .undefined }, some k)
    else
      .ok (t.set k { ret with type := .undefined, nameStart := 0, nameEnd := 0 }, some k)

/-- `json__pop`: the parent, or none after an error. -/
def pop (t : Tree) (obj offset : ℕ) : M (Tree × Option ℕ) :=
  let o := t.stack obj
  if o.depth < 1 then .ok (t.error offset "unmatched \x7d", none)
  else if offset = 0 then .error .fault
  else do
    let k ← t.slot (o.depth - 1)
    .ok (t.set obj { o with valueEnd := offset - 1 }, some k)

/-- `json__prepare_member`. -/
def prepareMember (t : Tree) (ret : ℕ) (type : Ty) (nameStart nameEnd : ℕ) : Tree :=
  t.set ret { t.stack ret with
    childNameS := nameStart, childNameE := nameEnd, childType := type }

/-- `json__add_member`, with its result. -/
def addMember (t : Tree) (ret : ℕ) (type : Ty) (valueStart valueEnd : ℕ) : M (Tree × ℤ) :=
  let o := t.stack ret
  if o.childType ≠ .undefined ∧ (o.childType ≠ type ∨ o.type ≠ .object) then
    .ok (t.error valueStart "data mismatch", -1)
  else do
    let k ← t.slot (o.depth + 1)
    let t := t.set k { t.stack k with
      depth := o.depth + 1
      nameStart := o.childNameS
      nameEnd := o.childNameE
      type := type
      valueStart := valueStart
      valueEnd := valueEnd }
    .ok (t.set ret { o with
      childType := .undefined
      count := o.count + 1
      state :=
        if o.state = .arrayBody ∨ o.state = .arrayAfterComma then .arrayAfterMember
        else .objectAfterMember }, 0)

/-! ## The bytes -/

/-- The cases of the `switch` on a byte. -/
inductive Byte where
  | opening (brace : Bool)
  | closing (brace : Bool)
  | comma
  | colon
  | quote
  | blank
  | keyword (type : Ty) (tail : List UInt8)
  | number
  | other
deriving DecidableEq

def isDigit (c : UInt8) : Bool := 0x30 ≤ c && c ≤ 0x39

/-- The byte of a double quote. -/
def quote : UInt8 := 0x22

/-- The byte of a backslash. -/
def backslash : UInt8 := 0x5C

/-- The case of a byte. A keyword is told by its first letter. -/
def classify (c : UInt8) : Byte :=
  if c = 0x7B then .opening true
  else if c = 0x5B then .opening false
  else if c = 0x7D then .closing true
  else if c = 0x5D then .closing false
  else if c = 0x2C then .comma
  else if c = 0x3A then .colon
  else if c = quote then .quote
  else if c = 0x0A ∨ c = 0x20 ∨ c = 0x09 ∨ c = 0x0D then .blank
  else if c = 0x6E then .keyword .objectNull [0x75, 0x6C, 0x6C]
  else if c = 0x74 then .keyword .booleanTrue [0x72, 0x75, 0x65]
  else if c = 0x66 then .keyword .booleanFalse [0x61, 0x6C, 0x73, 0x65]
  else if c = 0x2D ∨ isDigit c then .number
  else .other

/-- Whether the bytes at a pointer are those of `tail`, read up to the first that is not. -/
def matches_ : List UInt8 → List UInt8 → M Bool
  | [], _ => .ok true
  | _ :: _, [] => .error .fault
  | w :: tail, c :: p => if c = w then matches_ tail p else .ok false

/-- The loop over a string, up to a quote or to `stop`. -/
def skipString (stop : ℕ) : ℕ → List UInt8 → M (ℕ × List UInt8)
  | _, [] => .error .fault
  | i, c :: p =>
    if c ≠ quote ∧ i < stop then
      if c = backslash then
        match p with
        | [] => .error .fault
        | d :: p' =>
          if d = quote ∨ d = backslash then skipString stop (i + 2) p'
          else skipString stop (i + 1) (d :: p')
      else skipString stop (i + 1) p
    else .ok (i, c :: p)

/-- One byte skipped, if it is one of `f`. -/
def skipOne (f : UInt8 → Bool) : ℕ → List UInt8 → M (ℕ × List UInt8)
  | _, [] => .error .fault
  | i, c :: p => if f c then .ok (i + 1, p) else .ok (i, c :: p)

/-- The loop over digits. -/
def skipDigits : ℕ → List UInt8 → M (ℕ × List UInt8)
  | _, [] => .error .fault
  | i, c :: p => if isDigit c then skipDigits (i + 1) p else .ok (i, c :: p)

/-- The bytes of a number: sign, digits, point, digits, exponent, sign and digits, all optional. -/
def skipNumber (i : ℕ) (p : List UInt8) : M (ℕ × List UInt8) := do
  let (i, p) ← skipOne (· = 0x2D) i p
  let (i, p) ← skipDigits i p
  let (i, p) ← skipOne (· = 0x2E) i p
  let (i, p) ← skipDigits i p
  let (i, p) ← skipOne (fun c => c = 0x65 || c = 0x45) i p
  let (i, p) ← skipOne (fun c => c = 0x2D || c = 0x2B) i p
  skipDigits i p

/-! ## The branches of `json__get` -/

/-- The variables of the loop: `ret`, `i`, `p`, `name_start` and `name_end`. -/
structure Loop where
  tree : Tree
  ret : ℕ
  i : ℕ
  p : List UInt8
  nameStart : ℕ
  nameEnd : ℕ

/-- How a branch ends: with an error that is returned, or in the loop. -/
inductive Next where
  | error (tree : Tree)
  | go (loop : Loop)

/-- The state of the current object. -/
def Loop.state (c : Loop) : St := (c.tree.stack c.ret).state

/-- The loop at the next byte, with another tree. -/
def Loop.on (c : Loop) (p : List UInt8) (tree : Tree) : Loop :=
  { c with tree := tree, i := c.i + 1, p := p }

/-- The tree in which a value of the type `type` is prepared, if the state is behind a colon. -/
def Loop.prepared (c : Loop) (type : Ty) : Tree :=
  if c.state = .objectAfterColon then prepareMember c.tree c.ret type c.nameStart c.nameEnd
  else c.tree

/-- The push behind an opening bracket, and the type and state of the new object. -/
def opened (brace : Bool) (c : Loop) (p : List UInt8) (tree : Tree) : M Next := do
  match ← push tree c.ret c.i with
  | (tree, none) => .ok (.error tree)
  | (tree, some k) =>
    let tree := tree.set k { tree.stack k with
      type := if brace then .object else .objectArray
      state := if brace then .objectBody else .arrayBody }
    .ok (.go { c.on p tree with ret := k })

/-- The case of an opening bracket: the parent's state, then the push. -/
def opening (brace : Bool) (c : Loop) (p : List UInt8) : M Next :=
  if c.state = .init ∧ brace = false then
    .ok (.error (c.tree.error c.i "\x7b expected at root"))
  else if c.state = .init then
    opened brace c p (c.tree.setState c.ret .objectAfterMember)
  else if c.state = .objectAfterColon then
    opened brace c p ((c.prepared (if brace then .object else .objectArray)).setState c.ret
      .objectAfterMember)
  else if c.state = .arrayAfterComma ∨ c.state = .arrayBody then
    opened brace c p (c.tree.setState c.ret .arrayAfterMember)
  else .ok (.error (c.tree.error c.i (if brace then "unexpected \x7b" else "unexpected [")))

/-- The states in which a closing bracket is expected. -/
def closable (brace : Bool) (q : St) : Bool :=
  if brace then q = .objectBody || q = .objectAfterMember || q = .objectAfterComma
  else q = .arrayBody || q = .arrayAfterMember || q = .arrayAfterComma

/-- The case of a closing bracket; `od` is the depth of the object that is read. -/
def closing (brace : Bool) (od : ℕ) (c : Loop) (p : List UInt8) : M Next :=
  if closable brace c.state = false then
    .ok (.error (c.tree.error c.i (if brace then "unexpeced \x7d" else "unexpeced ]")))
  else do
    match ← pop c.tree c.ret c.i with
    | (tree, none) => .ok (.error tree)
    | (tree, some k) =>
      let tree := if (tree.stack k).depth < od then tree.setState k .stateEnd else tree
      .ok (.go { c.on p tree with ret := k })

/-- The case of a comma. -/
def comma (c : Loop) (p : List UInt8) : M Next :=
  if c.state = .arrayAfterMember then
    .ok (.go (c.on p (c.tree.setState c.ret .arrayAfterComma)))
  else if c.state = .objectAfterMember then
    .ok (.go (c.on p (c.tree.setState c.ret .objectAfterComma)))
  else .ok (.error (c.tree.error c.i " unexpected , "))

/-- The case of a colon. -/
def colon (c : Loop) (p : List UInt8) : M Next :=
  if c.state ≠ .objectAfterName then .ok (.error (c.tree.error c.i " unexpected : "))
  else .ok (.go (c.on p (c.tree.setState c.ret .objectAfterColon)))

/-- What a string from `nameStart` to `i` is, by the state: a name or a value. -/
def stringRead (c : Loop) (tree : Tree) (nameStart i : ℕ) (p : List UInt8) : M Next :=
  let go (tree : Tree) : Next := .go ⟨tree, c.ret, i + 1, p, nameStart, i⟩
  if c.state = .objectAfterColon then do
    let (tree, _) ← addMember tree c.ret .string nameStart i
    .ok (go (tree.setState c.ret .objectAfterMember))
  else if c.state = .objectAfterComma then .ok (go (tree.setState c.ret .objectAfterName))
  else if c.state = .arrayBody ∨ c.state = .arrayAfterComma then do
    let (tree, _) ← addMember tree c.ret .string nameStart i
    .ok (go (tree.setState c.ret .arrayAfterMember))
  else if c.state = .objectBody then .ok (go (tree.setState c.ret .objectAfterName))
  else .ok (.error (tree.error i " unexpected string "))

/-- The case of a string: the value is prepared under the name before it, and `i` and `p` go on
behind the closing quote. -/
def string (obj stop : ℕ) (c : Loop) (p : List UInt8) : M Next := do
  let tree := c.prepared .string
  let (i, p) ← skipString stop (c.i + 1) p
  if (tree.stack obj).valueEnd < i then
    .ok (.error (tree.error (c.i + 1) "unterminated quote"))
  else stringRead c tree (c.i + 1) i p.tail

/-- A scalar of the type `type` from `c.i` to `i` taken as a member, whatever the state is. -/
def scalar (type : Ty) (c : Loop) (i : ℕ) (p : List UInt8) (nameStart : ℕ) : M Next := do
  let (tree, _) ← addMember (c.prepared type) c.ret type c.i i
  .ok (.go ⟨tree.setState c.ret .objectAfterMember, c.ret, i, p, nameStart, c.nameEnd⟩)

/-- The case of the first letter of a keyword. -/
def keyword (type : Ty) (tail : List UInt8) (c : Loop) (p : List UInt8) : M Next := do
  if ← matches_ tail p then
    scalar type c (c.i + 1 + tail.length) (p.drop tail.length) c.nameStart
  else
    .ok (.error ((c.prepared type).error c.i " unexpected keyword "))

/-- The case of a minus sign or a digit. The code steps back by one byte behind the number, as the
loop steps on by one. -/
def number (c : Loop) : M Next := do
  let (i, p) ← skipNumber c.i c.p
  if i = c.i + 1 ∧ c.p.head? = some 0x2D then
    .ok (.error ((c.prepared .number).error i " unexpected - "))
  else scalar .number c i p c.i

/-- The `switch` of `json__get`; `p` is what follows the byte. -/
def switch (obj od stop : ℕ) (c : Loop) (p : List UInt8) : Byte → M Next
  | .opening brace => opening brace c p
  | .closing brace => closing brace od c p
  | .comma => comma c p
  | .colon => colon c p
  | .quote => string obj stop c p
  | .blank => .ok (.go (c.on p c.tree))
  | .keyword type tail => keyword type tail c p
  | .number => number c
  | .other => .ok (.error (c.tree.error c.i " unexpected character "))

/-- One byte read and switched on. -/
def branch (obj od stop : ℕ) (c : Loop) : M Next :=
  match c.p with
  | [] => .error .fault
  | byte :: p => switch obj od stop c p (classify byte)

/-! ## `json__get` and its callers -/

/-- The member that has been read at depth `od`, if any. -/
def found (od : ℕ) (c : Loop) : Option ℕ :=
  let o := c.tree.stack c.ret
  if o.depth = od ∧ o.count = 1 then some (o.depth + 1) else none

/-- The checks behind the `switch`: the result to return, if any. -/
def check (od : ℕ) (c : Loop) : Option (Option ℕ) :=
  if (found od c).isSome then some (found od c)
  else if (c.tree.stack c.ret).depth < od then some none
  else if c.state = .stateEnd then some none
  else none

/-- The loop over the bytes up to `stop`, for at most the given number of rounds. -/
def rounds (obj od stop : ℕ) : ℕ → Loop → M (Tree × Option ℕ)
  | 0, c => .ok (c.tree, found od c)
  | n + 1, c =>
    if c.i < stop then do
      match ← branch obj od stop c with
      | .error tree => .ok (tree, some 0)
      | .go c =>
        match check od c with
        | some result => .ok (c.tree, result)
        | none => rounds obj od stop n c
    else .ok (c.tree, found od c)

/-- Where `json__get` goes on behind a member. -/
def resume (child : Obj) : ℕ :=
  if child.type = .object ∨ child.type = .objectArray then child.valueEnd + 2
  else if child.type = .booleanTrue ∨ child.type = .booleanFalse ∨ child.type = .objectNull ∨
      child.type = .number then child.valueEnd
  else child.valueEnd + 1

/-- `json__get`: the next member of `obj` behind `child`, the undefined object after an error. -/
def get (t : Tree) (obj : ℕ) (child : Option ℕ) : M (Tree × Option ℕ) :=
  let o := t.stack obj
  let start := match child with
    | some child => resume (t.stack child)
    | none => o.valueStart
  if maxDepth ≤ o.depth then .ok (t.error start "too many nested elements", some 0)
  else
    let t := t.set obj { o with count := 0 }
    rounds obj o.depth o.valueEnd (o.valueEnd - start) ⟨t, obj, start, t.buf.drop start, 0, 0⟩

/-- `json__get_next`. -/
def getNext (t : Tree) (obj : ℕ) (child : Option ℕ) : M (Tree × Option ℕ) :=
  let o := t.stack obj
  let state :=
    if child.isSome then o.state
    else if o.type = .objectArray then .arrayBody
    else if o.type = .object then .objectBody
    else .init
  get (t.set obj { o with state := state, count := 0 }) obj child

/-- `json__parse`, in a tree of any content. -/
def parse (text : List UInt8) (memory : Tree) : M (Tree × Option ℕ) :=
  let t := { memory with buf := text ++ [0], len := text.length }
  get (t.set 0 { t.stack 0 with
    valueEnd := text.length
    valueStart := 0
    depth := 0
    type := .undefined
    state := .init
    nameStart := 0
    nameEnd := 0
    childType := .undefined
    count := 0 }) 0 none

section Visitor

variable {σ : Type} (cb : Tree → ℕ → σ → ℤ × σ)

/-- The loop of `json__visitor` over the members of `obj`. -/
def visitMembers (visit : Tree → ℕ → σ → M (ℤ × Tree × σ)) (obj : ℕ) :
    ℕ → Option ℕ → Tree → σ → M (ℤ × Tree × σ)
  | _, none, t, s => .ok (0, t, s)
  | 0, some _, _, _ => .error .fuel
  | n + 1, some child, t, s => do
    let (r, t, s) ← visit t child s
    if r ≠ 0 then .ok (r, t, s)
    else do
      let (t, next) ← getNext t obj (some child)
      visitMembers visit obj n next t s

/-- `json__visitor`: the members, then the object itself. -/
def visitor : ℕ → Tree → ℕ → σ → M (ℤ × Tree × σ)
  | 0, _, _, _ => .error .fuel
  | fuel + 1, t, obj, s =>
    if (t.stack obj).type ≠ .object ∧ (t.stack obj).type ≠ .objectArray then
      let (r, s) := cb t obj s
      .ok (r, t, s)
    else do
      let (t, child) ← getNext t obj none
      let (r, t, s) ← visitMembers (visitor fuel) obj fuel child t s
      if r ≠ 0 then .ok (r, t, s)
      else
        let (r, s) := cb t obj s
        .ok (r, t, s)

end Visitor

end Teres.Tools.Json
