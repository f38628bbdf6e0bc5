/-! # Searching and cutting texts

Texts are lists of characters here. The module holds the left-to-right operations of the library:
the first occurrence of a pattern, replacing every occurrence, cutting at the last separator, and
cutting into lines, and the size of a text.
-/

namespace Installer.Text

/-- What stands before and after the first occurrence of `pattern`. -/
def cutAt? (pattern : List Char) : List Char → Option (List Char × List Char)
  | [] => if pattern.isEmpty then some ([], []) else none
  | c :: rest =>
    if pattern.isPrefixOf (c :: rest) then some ([], (c :: rest).drop pattern.length)
    else (cutAt? pattern rest).map fun (before, after) => (c :: before, after)

def contains (pattern text : List Char) : Bool :=
  (cutAt? pattern text).isSome

/-- Replaces the occurrences of `pattern` after the first `skip` characters, which are dropped. -/
def replaceAfter (pattern sub : List Char) : Nat → List Char → List Char
  | _, [] => []
  | skip + 1, _ :: rest => replaceAfter pattern sub skip rest
  | 0, c :: rest =>
    if pattern.isPrefixOf (c :: rest) then
      sub ++ replaceAfter pattern sub (pattern.length - 1) rest
    else c :: replaceAfter pattern sub 0 rest

/-- Replaces every occurrence of a non-empty `pattern` by `sub`, from left to right; occurrences do
not overlap, and what is put in is not searched again. -/
def replace (pattern sub text : List Char) : List Char :=
  replaceAfter pattern sub 0 text

def afterLast (isSeparator : Char → Bool) (text : List Char) : List Char :=
  (text.reverse.takeWhile fun c => !isSeparator c).reverse

/-- The part of the text before its last separator, `none` when there is no separator. -/
def beforeLast? (isSeparator : Char → Bool) (text : List Char) : Option (List Char) :=
  match text.reverse.dropWhile fun c => !isSeparator c with
  | [] => none
  | _ :: front => some front.reverse

/-- The text up to its last full stop. A full stop at the very beginning starts a name and ends
nothing, so such a text is returned whole. -/
def stem (text : List Char) : List Char :=
  match beforeLast? (· == '.') text with
  | some (c :: front) => c :: front
  | _ => text

def withoutReturn (line : List Char) : List Char :=
  if line.getLast? = some '\r' then line.dropLast else line

/-- The lines of a text. A line ends at a line feed, which takes a carriage return right before it
along; a text that ends with a line feed has no line after it. -/
def lines (text : List Char) : List (List Char) :=
  let parts := text.splitOn '\n'
  let rest := match parts.getLast? with
    | some (c :: more) => [c :: more]
    | _ => []
  parts.dropLast.map withoutReturn ++ rest

/-- The size of a text in bytes of UTF-8. -/
def byteSize (text : List Char) : Nat :=
  text.foldl (fun size c => size + c.utf8Size) 0

/-- Upper-case ASCII letters made lower case; every other character stays. -/
def lowerAscii (text : List Char) : List Char :=
  text.map Char.toLower

end Installer.Text
