import Installer.Json.Reader

/-! # Scalars

A scalar in quotes, or in a block of its own, is a text. A plain one may also be written as a null,
a truth value or a number; whatever is none of these is a text.
-/

namespace Installer.Yaml

open Json (Double Value)

structure Scalar where
  text : String
  isPlain : Bool := false
deriving DecidableEq, Repr

namespace Scalar

def empty : Scalar :=
  ⟨"", true⟩

/-! ## Whole numbers -/

/-- The number that digits of a base write, if there is at least one and all are digits. -/
def ofDigits? (base : Nat) (digits : List Char) : Option Nat :=
  if digits.isEmpty then none
  else digits.foldlM (fun n c => ((Text.Hex.value? c).filter (· < base)).map (base * n + ·)) 0

/-- The digits begin with a zero that does not stand alone, as no number does. -/
def hasLeadingZero (digits : List Char) : Bool :=
  match digits with
  | '0' :: rest => !rest.isEmpty && rest.all Char.isDigit
  | _ => false

def withoutSign : List Char → List Char
  | '-' :: text | '+' :: text => text
  | text => text

/-- The number that a text without sign writes: in base two, eight or sixteen behind `0b`, `0o` or
`0x`, in base ten otherwise. -/
def magnitude? (text : List Char) : Option Nat :=
  match text with
  | '0' :: 'x' :: digits => ofDigits? 16 digits
  | '0' :: 'o' :: digits => ofDigits? 8 digits
  | '0' :: 'b' :: digits => ofDigits? 2 digits
  | digits => if hasLeadingZero digits then none else ofDigits? 10 digits

/-- The whole number that a text writes, with true for a minus before it. -/
def integer? : List Char → Option (Bool × Nat)
  | '-' :: text => (magnitude? text).map fun n => (true, n)
  | '+' :: text | text => (magnitude? text).map fun n => (false, n)

/-- The number fits a word of so many bits, one of which holds the sign of a negative number. -/
def fits (bits : Nat) (negative : Bool) (n : Nat) : Bool :=
  if negative then n ≤ 1 <<< (bits - 1) else n < 1 <<< bits

/-! ## Other numbers -/

/-- The double that a text without sign writes. Digits may be missing on one side of the point. -/
def magnitudeOf? (text : List Char) : Option Double := do
  let whole := text.takeWhile Char.isDigit
  let rest := text.dropWhile Char.isDigit
  let (fraction, rest) := match rest with
    | '.' :: rest => (rest.takeWhile Char.isDigit, rest.dropWhile Char.isDigit)
    | rest => ([], rest)
  if whole.isEmpty && fraction.isEmpty then none
  else
    let (exponent, rest) ← Json.Reader.exponent? rest
    if rest.isEmpty then
      Double.ofDecimal? (Json.Reader.digitsToNat (whole ++ fraction))
        (exponent.getD 0 - fraction.length)
    else none

/-- The decimal that a text writes, as the double nearest to it, if it is within the range of
doubles. -/
def decimal? : List Char → Option Value
  | '-' :: text => (magnitudeOf? text).map (Value.decimal true)
  | '+' :: text | text => (magnitudeOf? text).map (Value.decimal false)

/-- The spellings of infinite and undefined numbers, with a minus where they are negative. -/
def infinities : List (String × Bool) :=
  [(".inf", false), (".Inf", false), (".INF", false), ("+.inf", false), ("+.Inf", false),
   ("+.INF", false), ("-.inf", true), ("-.Inf", true), ("-.INF", true), (".nan", false),
   (".NaN", false), (".NAN", false)]

/-! ## Resolution -/

/-- The spellings of nulls and truth values. -/
def words : List (String × Value) :=
  [("", .null), ("~", .null), ("null", .null), ("Null", .null), ("NULL", .null),
   ("true", .bool true), ("True", .bool true), ("TRUE", .bool true),
   ("false", .bool false), ("False", .bool false), ("FALSE", .bool false)]

/-- The value of a plain scalar, `none` for a whole number that is too large to be kept and too
small to be a decimal. -/
def plainValue? (text : String) : Option Value :=
  let chars := text.toList
  match words.lookup text, integer? chars with
  | some v, _ => some v
  | none, some (negative, n) =>
    if fits 64 negative n then some (.integer negative n)
    else if fits 128 negative n then none
    else some ((decimal? chars).getD (.string text))
  | none, none =>
    match infinities.lookup text with
    | some negative => some (.decimal negative .infinite)
    | none =>
      if hasLeadingZero (withoutSign chars) then some (.string text)
      else some ((decimal? chars).getD (.string text))

def value? (scalar : Scalar) : Option Value :=
  if scalar.isPlain then plainValue? scalar.text else some (.string scalar.text)

end Scalar

end Installer.Yaml
