import Installer.Json.Value
import Installer.Text.Hex

/-! # Reading JSON

Each function reads one part of the grammar from the front of a text and returns what it read with
the rest, or `none` where the text does not go on as the grammar wants. Nesting is limited, and the
functions that call one another also count down `fuel`, which the length of the text bounds.
-/

namespace Installer.Json

/-- Why a text gives no value of the wanted type. -/
inductive Fault where
  /-- The text is not well formed. -/
  | malformed
  /-- The text is well formed but its value does not fit. -/
  | misfit
deriving DecidableEq, Repr

namespace Reader

/-! ## Blanks, words and numbers -/

def skipBlanks (s : List Char) : List Char :=
  s.dropWhile fun c => c == ' ' || c == '\t' || c == '\n' || c == '\r'

/-- The rest of the text behind a word. -/
def expect? (word : String) (s : List Char) : Option (List Char) :=
  if word.toList.isPrefixOf s then some (s.drop word.length) else none

def digitsToNat (digits : List Char) : Nat :=
  digits.foldl (fun n c => 10 * n + (c.toNat - '0'.toNat)) 0

/-- The digits at the front of a text, of which there is at least one, and the rest. -/
def digits? (s : List Char) : Option (List Char × List Char) :=
  match s.takeWhile Char.isDigit with
  | [] => none
  | digits => some (digits, s.dropWhile Char.isDigit)

/-- The digits of a fraction, none where there is no fraction. -/
def fraction? : List Char → Option (List Char × List Char)
  | '.' :: rest => digits? rest
  | s => some ([], s)

def signedExponent? : List Char → Option (Int × List Char)
  | '-' :: rest => (digits? rest).map fun (digits, rest) => (-(digitsToNat digits : Int), rest)
  | '+' :: rest => (digits? rest).map fun (digits, rest) => ((digitsToNat digits : Int), rest)
  | s => (digits? s).map fun (digits, rest) => ((digitsToNat digits : Int), rest)

/-- The exponent of a number, `none` inside where there is none. -/
def exponent? : List Char → Option (Option Int × List Char)
  | 'e' :: rest | 'E' :: rest => (signedExponent? rest).map fun (n, rest) => (some n, rest)
  | s => some (none, s)

/-- The whole part of a number: a zero alone, or digits that begin with another one. -/
def whole? (s : List Char) : Option (List Char × List Char) :=
  match digits? s with
  | some ('0' :: _ :: _, _) => none
  | read => read

/-- The digits of a number before and behind its point, and its exponent if it has one. -/
structure NumberParts where
  whole : List Char
  fraction : List Char
  exponent : Option Int

def numberParts? (s : List Char) : Option (NumberParts × List Char) := do
  let (whole, s) ← whole? s
  let (fraction, s) ← fraction? s
  let (exponent, s) ← exponent? s
  return (⟨whole, fraction, exponent⟩, s)

/-- The sign of a number, true for a minus, and what follows it. -/
def sign : List Char → Bool × List Char
  | '-' :: rest => (true, rest)
  | s => (false, s)

/-- The number that `n` becomes when digits are written behind it, with the digits from the first
one on that would carry it beyond 64 bits. -/
def absorb (n : Nat) : List Char → Nat × List Char
  | [] => (n, [])
  | c :: rest =>
    let longer := 10 * n + (c.toNat - '0'.toNat)
    if longer < UInt64.size then absorb longer rest else (n, c :: rest)

/-- A whole number as a value: kept as such where it fits a machine word of 64 bits. Minus zero and
numbers beyond are decimals. -/
def wholeValue (negative : Bool) (n : Nat) : Value :=
  if !negative || (0 < n && 2 * n ≤ UInt64.size) then .integer negative n
  else .decimal true (Double.nearest n 1)

/-- The value of a number, `none` for one beyond every double. A decimal keeps the digits before the
point that fit 64 bits, then those behind the point that still do. -/
def numberValue? (negative : Bool) (parts : NumberParts) : Option Value :=
  let (whole, dropped) := absorb 0 parts.whole
  match parts.fraction, parts.exponent, dropped with
  | [], none, [] => some (wholeValue negative whole)
  | _, _, _ =>
    let (significand, cut) := absorb whole parts.fraction
    let point : Int := dropped.length + cut.length - parts.fraction.length
    (Double.inSteps? significand (point + parts.exponent.getD 0)).map (Value.decimal negative)

def number? (s : List Char) : Option (Value × List Char) := do
  let (negative, s) := sign s
  let (parts, s) ← numberParts? s
  return (← numberValue? negative parts, s)

/-! ## Strings -/

/-- The character that a letter stands for behind a backslash. -/
def escaped? : Char → Option Char
  | '"' => some '"'
  | '\\' => some '\\'
  | '/' => some '/'
  | 'b' => some '\x08'
  | 'f' => some '\x0c'
  | 'n' => some '\n'
  | 'r' => some '\r'
  | 't' => some '\t'
  | _ => none

/-- The character of two halves of a surrogate pair. -/
def ofSurrogates? (high low : Nat) : Option Char :=
  if 0xD800 ≤ high ∧ high < 0xDC00 ∧ 0xDC00 ≤ low ∧ low < 0xE000 then
    some (Char.ofNat (0x10000 + (high - 0xD800) * 0x400 + (low - 0xDC00)))
  else none

/-- The character with a number that is no surrogate. -/
def ofCode? (n : Nat) : Option Char :=
  if n.isValidChar then some (Char.ofNat n) else none

/-- Reads the inside of a string up to its closing quote; `done` holds what was read, the last
character first. -/
def stringFrom (done : List Char) : List Char → Option (String × List Char)
  | [] => none
  | '"' :: rest => some (String.ofList done.reverse, rest)
  | '\\' :: 'u' :: a :: b :: c :: d :: rest =>
    match Text.Hex.toNat? [a, b, c, d] with
    | none => none
    | some n =>
      match ofCode? n, rest with
      | some x, rest => stringFrom (x :: done) rest
      | none, '\\' :: 'u' :: e :: f :: g :: h :: rest =>
        match (Text.Hex.toNat? [e, f, g, h]).bind (ofSurrogates? n) with
        | some x => stringFrom (x :: done) rest
        | none => none
      | none, _ => none
  | '\\' :: c :: rest =>
    match escaped? c with
    | some x => stringFrom (x :: done) rest
    | none => none
  | c :: rest => if c.toNat < 0x20 then none else stringFrom (c :: done) rest

/-- The inside of a string with the rest behind its closing quote. -/
def string? (s : List Char) : Option (String × List Char) :=
  stringFrom [] s

/-- The name of a member with the rest behind its colon. -/
def memberName? (s : List Char) : Option (String × List Char) :=
  match skipBlanks s with
  | '"' :: rest =>
    match string? rest with
    | some (name, rest) =>
      match skipBlanks rest with
      | ':' :: rest => some (name, rest)
      | _ => none
    | none => none
  | _ => none

/-! ## Values -/

mutual

/-- A value, in which at most `depth` arrays and objects stand inside one another. -/
def value? (depth : Nat) : Nat → List Char → Option (Value × List Char)
  | 0, _ => none
  | fuel + 1, s =>
    match skipBlanks s with
    | '"' :: rest => (string? rest).map fun (text, rest) => (.string text, rest)
    | 'n' :: rest => (expect? "ull" rest).map fun rest => (.null, rest)
    | 't' :: rest => (expect? "rue" rest).map fun rest => (.bool true, rest)
    | 'f' :: rest => (expect? "alse" rest).map fun rest => (.bool false, rest)
    | '[' :: rest =>
      match depth, skipBlanks rest with
      | 0, _ => none
      | _ + 1, ']' :: rest => some (.array [], rest)
      | depth + 1, rest => (items? depth fuel rest).map fun (items, rest) => (.array items, rest)
    | '{' :: rest =>
      match depth, skipBlanks rest with
      | 0, _ => none
      | _ + 1, '}' :: rest => some (.object [], rest)
      | depth + 1, rest =>
        (members? depth fuel rest).map fun (members, rest) => (.object members, rest)
    | rest => number? rest

def items? (depth : Nat) : Nat → List Char → Option (List Value × List Char)
  | 0, _ => none
  | fuel + 1, s =>
    match value? depth fuel s with
    | none => none
    | some (item, rest) =>
      match skipBlanks rest with
      | ']' :: rest => some ([item], rest)
      | ',' :: rest => (items? depth fuel rest).map fun (items, rest) => (item :: items, rest)
      | _ => none

def members? (depth : Nat) : Nat → List Char → Option (List (Key × Value) × List Char)
  | 0, _ => none
  | fuel + 1, s =>
    match memberName? s with
    | none => none
    | some (name, rest) =>
      match value? depth fuel rest with
      | none => none
      | some (member, rest) =>
        match skipBlanks rest with
        | '}' :: rest => some ([(.name name, member)], rest)
        | ',' :: rest =>
          (members? depth fuel rest).map fun (members, rest) =>
            ((.name name, member) :: members, rest)
        | _ => none

end

/-- How many arrays and objects may stand inside one another. -/
def maxDepth : Nat :=
  127

end Reader

/-! ## Whole texts -/

def read? (text : String) : Option Value :=
  let s := text.toList
  match Reader.value? Reader.maxDepth (s.length + 1) s with
  | some (v, rest) => if (Reader.skipBlanks rest).isEmpty then some v else none
  | none => none

end Installer.Json
