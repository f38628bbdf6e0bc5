import Installer.Text.Search

/-! # Places in a text

A document is read from a place in its text: what is left of it, with the column, the line and the
number of bytes before it. Columns carry the structure of blocks; lines and numbers of bytes tell
what may be a key.
-/

namespace Installer.Yaml

/-- A place in a text. -/
structure Cursor where
  rest : List Char
  /-- The number of bytes before the place. -/
  index : Nat := 0
  column : Nat := 0
  line : Nat := 0

namespace Cursor

/-! ## Characters -/

/-- The character separates words of a line. -/
def isBlank (c : Char) : Bool :=
  c == ' ' || c == '\t'

def isBreak (c : Char) : Bool :=
  c == '\n' || c == '\u2028' || c == '\u2029'

/-- A word may end before these characters: there are none, or the first one is a blank or ends the
line. -/
def atGap : List Char → Bool
  | [] => true
  | c :: _ => isBlank c || isBreak c

/-- The characters up to the end of the line. -/
def lineOf (s : List Char) : List Char :=
  s.takeWhile fun c => !isBreak c

/-! ## Moving -/

def next (cur : Cursor) : Cursor :=
  match cur.rest with
  | [] => cur
  | c :: rest =>
    if isBreak c then ⟨rest, cur.index + c.utf8Size, 0, cur.line + 1⟩
    else ⟨rest, cur.index + c.utf8Size, cur.column + 1, cur.line⟩

/-- The place behind so many characters of one line. -/
def skip (cur : Cursor) (n : Nat) : Cursor :=
  ⟨cur.rest.drop n, cur.index + Text.byteSize (cur.rest.take n), cur.column + n, cur.line⟩

/-- The line at the place is a mark between documents, three of the given characters. -/
def atMark (mark : Char) (cur : Cursor) : Bool :=
  cur.column == 0 &&
    match cur.rest with
    | a :: b :: c :: rest => a == mark && b == mark && c == mark && atGap rest
    | _ => false

/-- The line at the place is a mark between documents. -/
def atAnyMark (cur : Cursor) : Bool :=
  cur.atMark '-' || cur.atMark '.'

/-! ## Between tokens -/

/-- The place of the next token, and whether a key may begin there. Inside brackets, and where no
key may begin, tabs are blanks as well. Outside brackets a key may begin on every new line. A byte
order mark that begins a line is passed over, and takes a column like any character. -/
def tokenFrom (inFlow : Bool) (keyAllowed inComment : Bool) :
    List Char → Nat → Nat → Nat → Bool × Cursor
  | [], index, column, line => (keyAllowed, ⟨[], index, column, line⟩)
  | c :: rest, index, column, line =>
    if isBreak c then
      tokenFrom inFlow (keyAllowed || !inFlow) false rest (index + c.utf8Size) 0 (line + 1)
    else if inComment || c == ' ' || (c == '\t' && (inFlow || !keyAllowed)) ||
        (c == '\ufeff' && column == 0) then
      tokenFrom inFlow keyAllowed inComment rest (index + c.utf8Size) (column + 1) line
    else if c == '#' then
      tokenFrom inFlow keyAllowed true rest (index + c.utf8Size) (column + 1) line
    else (keyAllowed, ⟨c :: rest, index, column, line⟩)

/-- The place of the next token, and whether a key may begin there. -/
def token (inFlow keyAllowed : Bool) (cur : Cursor) : Bool × Cursor :=
  tokenFrom inFlow keyAllowed false cur.rest cur.index cur.column cur.line

end Cursor

/-! ## Between words -/

/-- What stands between two words of a scalar. -/
structure Gap where
  /-- The blanks before the first line end. -/
  blanks : List Char := []
  /-- The characters that end lines. -/
  breaks : List Char := []
  /-- There is a tab in the indentation of a line. -/
  hasLowTab : Bool := false

namespace Gap

/-- The gap with one more character, which stands at the column; lines are indented up to `margin`.
-/
def add (gap : Gap) (margin column : Nat) (c : Char) : Gap :=
  if Cursor.isBreak c then { gap with breaks := gap.breaks ++ [c] }
  else if gap.breaks.isEmpty then { gap with blanks := gap.blanks ++ [c] }
  else { gap with hasLowTab := gap.hasLowTab || (c == '\t' && column < margin) }

/-- The gap with all blanks and line ends that follow, and the place behind them. -/
def extend (margin : Nat) (gap : Gap) : List Char → Nat → Nat → Nat → Gap × Cursor
  | [], index, column, line => (gap, ⟨[], index, column, line⟩)
  | c :: rest, index, column, line =>
    if Cursor.isBreak c then
      (gap.add margin column c).extend margin rest (index + c.utf8Size) 0 (line + 1)
    else if Cursor.isBlank c then
      (gap.add margin column c).extend margin rest (index + c.utf8Size) (column + 1) line
    else (gap, ⟨c :: rest, index, column, line⟩)

def isEmpty (gap : Gap) : Bool :=
  gap.blanks.isEmpty && gap.breaks.isEmpty

/-- What the gap amounts to: the blanks themselves on one line, a space for one line end, and
otherwise the line ends behind the first. A separator of lines or paragraphs stays in any case. -/
def text (gap : Gap) : List Char :=
  match gap.breaks with
  | [] => gap.blanks
  | ['\n'] => [' ']
  | '\n' :: breaks => breaks
  | breaks => breaks

end Gap

/-- The gap at a place, and the place behind it. -/
def Cursor.gap (margin : Nat) (cur : Cursor) : Gap × Cursor :=
  Gap.extend margin {} cur.rest cur.index cur.column cur.line

end Installer.Yaml
