import Installer.Json.Reader

/-! # Objects of a known form

An object whose members are known is read in one pass, so that the first fault in the order of the
text decides. A value of the wrong kind is a misfit as soon as its kind can be told, and nothing
behind it is looked at.
-/

/-! ## Passing over values

A value that nobody asks for is passed over. It must be well formed, but no more: a number may be
beyond every double, a string may hold half of a surrogate pair, and arrays and objects may stand
inside one another without limit.
-/

namespace Installer.Json.Reader

/-- The rest of the text behind the inside of a string and its closing quote. -/
def skipString? : List Char → Option (List Char)
  | [] => none
  | '"' :: rest => some rest
  | '\\' :: 'u' :: a :: b :: c :: d :: rest =>
    if (Text.Hex.toNat? [a, b, c, d]).isSome then skipString? rest else none
  | '\\' :: c :: rest => if (escaped? c).isSome then skipString? rest else none
  | c :: rest => if c.toNat < 0x20 then none else skipString? rest

/-- The rest of the text behind the name of a member and its colon. -/
def skipName? (s : List Char) : Option (List Char) :=
  match skipBlanks s with
  | '"' :: rest =>
    match (skipString? rest).map skipBlanks with
    | some (':' :: rest) => some rest
    | _ => none
  | _ => none

mutual

def skipValue? : Nat → List Char → Option (List Char)
  | 0, _ => none
  | fuel + 1, s =>
    match skipBlanks s with
    | '"' :: rest => skipString? rest
    | 'n' :: rest => expect? "ull" rest
    | 't' :: rest => expect? "rue" rest
    | 'f' :: rest => expect? "alse" rest
    | '[' :: rest =>
      match skipBlanks rest with
      | ']' :: rest => some rest
      | rest => skipItems? fuel rest
    | '{' :: rest =>
      match skipBlanks rest with
      | '}' :: rest => some rest
      | rest => skipMembers? fuel rest
    | rest => (numberParts? (sign rest).2).map Prod.snd

def skipItems? : Nat → List Char → Option (List Char)
  | 0, _ => none
  | fuel + 1, s =>
    match (skipValue? fuel s).map skipBlanks with
    | some (']' :: rest) => some rest
    | some (',' :: rest) => skipItems? fuel rest
    | _ => none

def skipMembers? : Nat → List Char → Option (List Char)
  | 0, _ => none
  | fuel + 1, s =>
    match ((skipName? s).bind (skipValue? fuel)).map skipBlanks with
    | some ('}' :: rest) => some rest
    | some (',' :: rest) => skipMembers? fuel rest
    | _ => none

end

end Installer.Json.Reader

/-! ## Known members -/

namespace Installer.Json

open Reader

inductive Shape where
  /-- Any value. -/
  | any
  /-- An array of any values. -/
  | list
  | text
  | flag
  /-- A text or null. -/
  | textOrNull
  /-- One of some names, which may also stand as the only member of an object whose value is null.
  -/
  | choice (names : List String)
  /-- Any value, which is passed over. -/
  | ignored

/-- What was read, where a text that does not go on as the grammar wants is malformed. -/
def wellFormed {α : Type} (read : Option α) : Except Fault α :=
  match read with
  | some found => .ok found
  | none => .error .malformed

namespace Shape

/-- The fault of a value of the wrong kind. What stands in brackets and braces is not looked at. -/
def wrongKind {α : Type} (s : List Char) : Except Fault (α × List Char) :=
  match s with
  | '[' :: _ | '{' :: _ => .error .misfit
  | s => .error (if (value? 0 1 s).isSome then .misfit else .malformed)

def readText (s : List Char) : Except Fault (Value × List Char) :=
  match skipBlanks s with
  | '"' :: rest => (wellFormed (string? rest)).map fun (content, rest) => (.string content, rest)
  | s => wrongKind s

def readNull (s : List Char) : Except Fault (Value × List Char) :=
  wellFormed ((expect? "ull" s).map fun rest => (.null, rest))

/-- The rest of the text behind a mark. -/
def readMark (mark : Char) (s : List Char) : Except Fault (List Char) :=
  match skipBlanks s with
  | c :: rest => if c = mark then .ok rest else .error .malformed
  | [] => .error .malformed

/-- Reads one of some names behind the opening quote. -/
def readName (names : List String) (s : List Char) : Except Fault (Value × List Char) := do
  let (name, rest) ← wellFormed (string? s)
  if name ∈ names then .ok (.string name, rest) else .error .misfit

/-- Reads one of some names as the only member of an object, behind the opening brace. -/
def readMarkedName (names : List String) (s : List Char) : Except Fault (Value × List Char) := do
  let (name, rest) ← readName names (← readMark '"' s)
  match skipBlanks (← readMark ':' rest) with
  | 'n' :: rest =>
    let (_, rest) ← readNull rest
    return (name, ← readMark '}' rest)
  | rest => wrongKind rest

def read (shape : Shape) (s : List Char) : Except Fault (Value × List Char) :=
  match shape with
  | .any => wellFormed (value? (maxDepth - 1) (s.length + 1) s)
  | .list =>
    match skipBlanks s with
    | '[' :: rest => wellFormed (value? (maxDepth - 1) (rest.length + 2) ('[' :: rest))
    | s => wrongKind s
  | .text => readText s
  | .flag =>
    match skipBlanks s with
    | 't' :: rest => wellFormed ((expect? "rue" rest).map fun rest => (.bool true, rest))
    | 'f' :: rest => wellFormed ((expect? "alse" rest).map fun rest => (.bool false, rest))
    | s => wrongKind s
  | .textOrNull =>
    match skipBlanks s with
    | 'n' :: rest => readNull rest
    | s => readText s
  | .choice names =>
    match skipBlanks s with
    | '"' :: rest => readName names rest
    | '{' :: rest => readMarkedName names rest
    | _ => .error .malformed
  | .ignored => wellFormed ((skipValue? (s.length + 1) s).map fun rest => (.null, rest))

end Shape

/-- What an object may hold: the members it may have, and the shape of all others. -/
structure Record where
  fields : List (String × Shape)
  others : Shape

namespace Record

/-- Reads the members of an object up to its closing brace; `seen` holds the names of the fields
that were there before. -/
def readMembers (record : Record) :
    Nat → List String → List Char → Except Fault (List (Key × Value) × List Char)
  | 0, _, _ => .error .malformed
  | fuel + 1, seen, s => do
    let (name, rest) ← match skipBlanks s with
      | '"' :: rest => wellFormed (string? rest)
      | _ => .error .malformed
    if name ∈ seen then .error .misfit
    else
      let rest ← Shape.readMark ':' rest
      let field := record.fields.lookup name
      let (v, rest) ← (field.getD record.others).read rest
      match skipBlanks rest with
      | '}' :: rest => return ([(.name name, v)], rest)
      | ',' :: rest =>
        let seen := if field.isSome then name :: seen else seen
        let (members, rest) ← record.readMembers fuel seen rest
        return ((.name name, v) :: members, rest)
      | _ => .error .malformed

/-- Reads the values of the fields in their order, up to the end of an array. Fields at the end may
be missing. -/
def readItems : List (String × Shape) → List Char → Except Fault (List (Key × Value) × List Char)
  | [], s => (Shape.readMark ']' s).map fun rest => ([], rest)
  | (name, shape) :: fields, s => do
    let (v, rest) ← shape.read s
    match skipBlanks rest with
    | ']' :: rest => return ([(.name name, v)], rest)
    | ',' :: rest =>
      if fields.isEmpty then .error .malformed
      else
        let (members, rest) ← readItems fields rest
        return ((.name name, v) :: members, rest)
    | _ => .error .malformed

def readObject (record : Record) (s : List Char) : Except Fault (List (Key × Value) × List Char) :=
  match skipBlanks s with
  | '{' :: rest =>
    match skipBlanks rest with
    | '}' :: rest => .ok ([], rest)
    | rest => record.readMembers (rest.length + 1) [] rest
  | s => Shape.wrongKind s

/-- Reads the members of an object, or of an array that lists their values alone. -/
def readListed (record : Record) (s : List Char) : Except Fault (List (Key × Value) × List Char) :=
  match skipBlanks s with
  | '[' :: rest =>
    match skipBlanks rest with
    | ']' :: rest => .ok ([], rest)
    | rest => readItems record.fields rest
  | s => record.readObject s

end Record

/-- Nothing but blanks follows what was read. -/
def readEnd (s : List Char) : Except Fault Unit :=
  if (skipBlanks s).isEmpty then .ok () else .error .malformed

end Installer.Json
