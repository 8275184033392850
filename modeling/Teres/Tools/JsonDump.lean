import Teres.Tools.Json

/-!
# Writing JSON (`tools/build.c`, `json__dump`)

`json__dump` writes an object while it reads it: the members come one after the other from
`json__get_next`, and each is written before the next is looked for. Names and values go through a
buffer of `len` bytes, and where one does not fit the program exits.

The file is the list of the bytes that are written. What has been written before an `exit` is not
kept.
-/

namespace Teres.Tools.Json

/-- Why a dump has no result: the program exits, or the parser stops. -/
inductive Halt where
  | exit
  | stop (s : Stop)
deriving DecidableEq

abbrev D := Except Halt

/-- A call of the parser. -/
def D.parser {α : Type} (m : M α) : D α := m.mapError Halt.stop

/-- `json__copy_string` into a buffer of `len` bytes, and the string that is then in it. An end in
front of the start is an unsigned difference beyond any size. -/
def copyString (t : Tree) (start stop len : ℕ) : D (List UInt8) :=
  if len = 0 then .error (.stop .fault)
  else if stop < start ∨ len - 1 ≤ stop - start then .error .exit
  else if start < stop ∧ t.buf.length < stop then .error (.stop .fault)
  else .ok (((t.buf.drop start).take (stop - start)).takeWhile (· ≠ 0))

/-- The loops that write a blank for each level. -/
def spaces (depth : ℕ) : List UInt8 := List.replicate depth 0x20

/-- `"%s"`, quotes included. -/
def inQuotes (s : List UInt8) : List UInt8 := quote :: (s ++ [quote])

/-- The name of an object and its colon, if it has one. -/
def dumpName (t : Tree) (obj len : ℕ) : D (List UInt8) :=
  let o := t.stack obj
  if 0 < o.nameEnd then do
    let buf ← copyString t o.nameStart o.nameEnd len
    .ok (spaces o.depth ++ (inQuotes buf ++ [0x3A]))
  else .ok []

/-- The types that are written as they are. -/
def Ty.plain (type : Ty) : Bool :=
  type = .string || type = .objectNull || type = .booleanTrue || type = .booleanFalse ||
    type = .number

/-- A string, a number or a keyword. -/
def dumpPlain (t : Tree) (obj len : ℕ) : D (List UInt8) := do
  let o := t.stack obj
  let buf ← copyString t o.valueStart o.valueEnd len
  .ok ((if 0 < o.nameEnd then [] else spaces o.depth) ++
    if o.type = .string then inQuotes buf else buf)

/-- The loop of `json__dump` over the members of `obj`. -/
def dumpMembers (dump : Tree → ℕ → D (Tree × List UInt8)) (obj : ℕ) :
    ℕ → Option ℕ → Tree → D (Tree × List UInt8)
  | _, none, t => .ok (t, [])
  | 0, some _, _ => .error (.stop .fuel)
  | n + 1, some child, t => do
    let (t, fp) ← dump t child
    let (t, next) ← D.parser (getNext t obj (some child))
    let (t, fp') ← dumpMembers dump obj n next t
    .ok (t, fp ++ ((if next.isSome then [0x2C, 0x0A] else []) ++ fp'))

/-- `json__dump`. -/
def dump (len : ℕ) : ℕ → Tree → ℕ → D (Tree × List UInt8)
  | 0, _, _ => .error (.stop .fuel)
  | fuel + 1, t, obj => do
    let o := t.stack obj
    let name ← dumpName t obj len
    if o.type.plain then
      let value ← dumpPlain t obj len
      .ok (t, name ++ value)
    else if o.type ≠ .object ∧ o.type ≠ .objectArray then .error .exit
    else
      let opening : UInt8 := if o.type = .object then 0x7B else 0x5B
      let (t, child) ← D.parser (getNext t obj none)
      let (t, members) ← dumpMembers (dump len fuel) obj fuel child t
      let o' := t.stack obj
      let closing : List UInt8 :=
        if o'.type = .object then [0x7D] else if o'.type = .objectArray then [0x5D] else []
      .ok (t, name ++ ((if 0 < o.nameEnd then [0x0A] else []) ++ (spaces o.depth ++
        opening :: 0x0A :: (members ++ 0x0A :: (spaces o'.depth ++ closing)))))

end Teres.Tools.Json
