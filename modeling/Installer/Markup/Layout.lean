import Installer.Text.Blank
import Installer.Text.Search
import Installer.Markup.Writer

/-! # Readable layout

The layout pass sets blank lines between groups of lines. Neighbours of one depth with different
tags are kept apart, every component and the end of the product stand off, and two blank lines in a
row become one. Lines that begin inside a CDATA section are content and stay as they are.
-/

namespace Installer.Markup.Layout

/-! ## CDATA sections across lines -/

/-- What changes the state of being inside a CDATA section. -/
def marker (inside : Bool) : List Char :=
  if inside then cdataClose else cdataOpen

/-- Whether a CDATA section is open at the end of a line that begins in the state `inside`; the
first `skip` characters belong to a marker that has been seen. -/
def endsInsideAfter : Nat → Bool → List Char → Bool
  | _, inside, [] => inside
  | skip + 1, inside, _ :: rest => endsInsideAfter skip inside rest
  | 0, inside, c :: rest =>
    if (marker inside).isPrefixOf (c :: rest) then
      endsInsideAfter ((marker inside).length - 1) (!inside) rest
    else endsInsideAfter 0 inside rest

/-- Whether a CDATA section is open at the end of a line that begins in the state `inside`. -/
def endsInside (inside : Bool) (line : List Char) : Bool :=
  endsInsideAfter 0 inside line

/-! ## Blank lines -/

/-- The size of the blanks that a line begins with, in bytes of UTF-8. -/
def indentation (line : List Char) : Nat :=
  Text.byteSize (line.takeWhile Text.isBlank)

/-- The beginning of a line up to its first space. -/
def tag (line : List Char) : List Char :=
  line.takeWhile (· != ' ')

/-- Tags that never begin a new group. -/
def joiningTags : List String :=
  ["<Wix ", "<Media ", "<File ", "<MultiStringValue>"]

/-- Tags that always have a blank line in front. -/
def splittingTags : List String :=
  ["</Product>", "</Module>"]

def beginsWithAny (tags : List String) (line : List Char) : Bool :=
  tags.any fun t => t.toList.isPrefixOf line

/-- A blank line belongs between the last line kept and the next one. -/
def needsGap (previous line : List Char) : Bool :=
  let before := Text.trim previous
  let text := Text.trim line
  let apart :=
    if !before.isEmpty && indentation previous == indentation line then
      tag before != tag text && !beginsWithAny joiningTags text
    else
      beginsWithAny ["<Component "] text ||
        (text == "</Directory>".toList && before == "</Component>".toList)
  apart || beginsWithAny splittingTags text

/-- Lays the lines out behind the line `previous`, with the state in which the first one begins. -/
def spaced : List Char → Bool → List (List Char) → List (List Char)
  | _, _, [] => []
  | previous, true, line :: rest => line :: spaced previous (endsInside true line) rest
  | previous, false, line :: rest =>
    let inside := endsInside false line
    if (Text.trim previous).isEmpty && (Text.trim line).isEmpty then spaced previous inside rest
    else if needsGap previous line then [] :: line :: spaced line inside rest
    else line :: spaced line inside rest

/-- The text with blank lines set for reading. -/
def format (source : String) : String :=
  let lines := spaced [] false (Text.lines source.toList)
  String.ofList (['\n'].intercalate lines ++ ['\n'])

end Installer.Markup.Layout
