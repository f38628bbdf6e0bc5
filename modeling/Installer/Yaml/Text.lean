import Installer.Text.Hex
import Installer.Yaml.Cursor
import Installer.Yaml.Scalar

/-! # Reading scalars

The three forms of scalars: plain, in quotes, and in a block of lines. Plain and quoted scalars may
go over several lines, which are folded into one.
-/

namespace Installer.Yaml

namespace Scalar

/-! ## Plain scalars -/

def isFlowMark (c : Char) : Bool :=
  c == ',' || c == '[' || c == ']' || c == '{' || c == '}'

def isIndicator (c : Char) : Bool :=
  "-?:,[]{}#&*!|>'\"%@`".toList.contains c

/-- A plain scalar begins here, where nothing else does. -/
def startsPlain (inFlow : Bool) : List Char → Bool
  | [] => false
  | c :: rest =>
    if c == '-' then !(rest.head?.any Cursor.isBlank)
    else if c == '?' || c == ':' then !inFlow && !Cursor.atGap rest
    else !isIndicator c && !Cursor.atGap [c]

/-- The word of a plain scalar that begins here: up to a gap, a colon before a gap, or inside
brackets a character that structures them. -/
def plainWord (inFlow : Bool) : List Char → List Char
  | [] => []
  | c :: rest =>
    if Cursor.atGap [c] || (c == ':' && Cursor.atGap rest) || (inFlow && isFlowMark c) then []
    else c :: plainWord inFlow rest

/-- There is a colon here that inside brackets would have to be a value's: the next character
structures them. -/
def isStrayColon : List Char → Bool
  | ':' :: c :: _ => isFlowMark c || c == '?'
  | _ => false

/-- There is such a colon in the word of a plain scalar that begins here. -/
def hasStrayColon : List Char → Bool
  | [] => false
  | c :: rest =>
    if isStrayColon (c :: rest) then true
    else if Cursor.atGap [c] || (c == ':' && Cursor.atGap rest) || isFlowMark c then false
    else hasStrayColon rest

/-- Reads the words of a plain scalar; `done` holds what was read. Outside brackets further lines
must begin at the column `margin` at least, and tabs may nowhere stand before it. Returns the place
behind the gap after the last word, and whether there is a line end in that gap. -/
def plainWords (inFlow : Bool) (margin : Nat) :
    Nat → List Char → Cursor → Option (List Char × Cursor × Bool)
  | 0, _, _ => none
  | fuel + 1, done, cur =>
    if inFlow && hasStrayColon cur.rest then none
    else
      let word := plainWord inFlow cur.rest
      let done := done ++ word
      let (gap, place) := (cur.skip word.length).gap margin
      if gap.hasLowTab then none
      else
        let ends := word.isEmpty || gap.isEmpty || (!inFlow && place.column < margin) ||
          place.atAnyMark || place.rest.head? == some '#' ||
          (!(inFlow && isStrayColon place.rest) && (plainWord inFlow place.rest).isEmpty)
        if ends then some (done, place, !gap.breaks.isEmpty)
        else plainWords inFlow margin fuel (done ++ gap.text) place

def plain? (inFlow : Bool) (margin : Nat) (cur : Cursor) : Option (Scalar × Cursor × Bool) :=
  (plainWords inFlow margin (cur.rest.length + 1) [] cur).map fun (text, place) =>
    (⟨String.ofList text, true⟩, place)

/-! ## Quoted scalars -/

/-- The character that a letter stands for behind a backslash. -/
def escaped? : Char → Option Char
  | '0' => some '\x00'
  | 'a' => some '\x07'
  | 'b' => some '\x08'
  | 't' | '\t' => some '\t'
  | 'n' => some '\n'
  | 'v' => some '\x0b'
  | 'f' => some '\x0c'
  | 'r' => some '\r'
  | 'e' => some '\x1b'
  | ' ' => some ' '
  | '"' => some '"'
  | '/' => some '/'
  | '\\' => some '\\'
  | 'N' => some '\u0085'
  | '_' => some '\u00a0'
  | 'L' => some '\u2028'
  | 'P' => some '\u2029'
  | _ => none

/-- How many digits of a character's number follow a letter behind a backslash. -/
def escapeWidth? : Char → Option Nat
  | 'x' => some 2
  | 'u' => some 4
  | 'U' => some 8
  | _ => none

/-- The character whose number the digits write. -/
def ofDigitsOf? (width : Nat) (s : List Char) : Option Char :=
  let digits := s.take width
  if digits.length = width then
    (Text.Hex.toNat? digits).bind fun n => if n.isValidChar then some (Char.ofNat n) else none
  else none

/-- Reads the inside of a scalar in single quotes; `done` holds what was read. A quote inside is
written twice. -/
def singleQuoted : Nat → List Char → Cursor → Option (List Char × Cursor)
  | 0, _, _ => none
  | fuel + 1, done, cur =>
    match cur.rest with
    | [] => none
    | '\'' :: '\'' :: _ => singleQuoted fuel (done ++ ['\'']) (cur.skip 2)
    | '\'' :: _ => some (done, cur.next)
    | c :: _ =>
      if Cursor.atGap [c] then
        let (gap, place) := cur.gap 0
        if place.atAnyMark then none else singleQuoted fuel (done ++ gap.text) place
      else singleQuoted fuel (done ++ [c]) cur.next

/-- Reads the inside of a scalar in double quotes; `done` holds what was read. A backslash at the
end of a line takes the line end away, and what is between it and the next word but further line
ends. -/
def doubleQuoted : Nat → List Char → Cursor → Option (List Char × Cursor)
  | 0, _, _ => none
  | fuel + 1, done, cur =>
    match cur.rest with
    | [] => none
    | '"' :: _ => some (done, cur.next)
    | '\\' :: c :: rest =>
      if Cursor.isBreak c then
        let (gap, place) := cur.next.next.gap 0
        if place.atAnyMark then none else doubleQuoted fuel (done ++ gap.breaks) place
      else
        match escaped? c, escapeWidth? c with
        | some d, _ => doubleQuoted fuel (done ++ [d]) (cur.skip 2)
        | none, some width =>
          (ofDigitsOf? width rest).bind fun d =>
            doubleQuoted fuel (done ++ [d]) (cur.skip (2 + width))
        | none, none => none
    | c :: _ =>
      if Cursor.atGap [c] then
        let (gap, place) := cur.gap 0
        if place.atAnyMark then none else doubleQuoted fuel (done ++ gap.text) place
      else doubleQuoted fuel (done ++ [c]) cur.next

def quoted? (cur : Cursor) : Option (Scalar × Cursor) :=
  let read := match cur.rest with
    | '\'' :: rest => singleQuoted (rest.length + 1) [] cur.next
    | '"' :: rest => doubleQuoted (rest.length + 1) [] cur.next
    | _ => none
  read.map fun (text, cur) => (⟨String.ofList text, false⟩, cur)

/-! ## Blocks of lines -/

/-- What becomes of the line ends behind a block. -/
inductive Chomping where
  /-- All are dropped. -/
  | strip
  /-- One is kept. -/
  | clip
  /-- All are kept. -/
  | keep
deriving DecidableEq

/-- How the lines of a block are read. -/
structure BlockHeader where
  isFolded : Bool
  chomping : Chomping := .clip
  /-- By how much the lines are indented, where the header says so. -/
  indent : Option Nat := none

/-- Reads the marks behind the first character of a header. Each may be there once. -/
def headerMarks (header : BlockHeader) (hasChomping : Bool) : List Char → BlockHeader × List Char
  | '-' :: rest =>
    if hasChomping then (header, '-' :: rest)
    else headerMarks { header with chomping := .strip } true rest
  | '+' :: rest =>
    if hasChomping then (header, '+' :: rest)
    else headerMarks { header with chomping := .keep } true rest
  | c :: rest =>
    if '1' ≤ c ∧ c ≤ '9' ∧ header.indent.isNone then
      headerMarks { header with indent := some (c.toNat - '0'.toNat) } hasChomping rest
    else (header, c :: rest)
  | [] => (header, [])

/-- Reads a header up to the first line of the block. A comment may follow it. -/
def header? (cur : Cursor) : Option (BlockHeader × Cursor) := do
  let (isFolded, rest) ← match cur.rest with
    | '|' :: rest => some (false, rest)
    | '>' :: rest => some (true, rest)
    | _ => none
  let (header, rest) := headerMarks { isFolded } false rest
  let rest := rest.dropWhile Cursor.isBlank
  let rest := if rest.head? = some '#' then rest.drop (Cursor.lineOf rest).length else rest
  if rest.head?.all Cursor.isBreak then
    some (header, (cur.skip (cur.rest.length - rest.length)).next)
  else none

/-- Goes over empty lines to the next line with something beyond the column `indent`, or at any
column where `indent` is zero. Returns the line ends passed and the largest column of the spaces. -/
def emptyLines (indent : Nat) (breaks : List Char) (widest : Nat) :
    List Char → Nat → Nat → Nat → List Char × Nat × Cursor
  | [], index, column, line => (breaks, widest, ⟨[], index, column, line⟩)
  | c :: rest, index, column, line =>
    if c == ' ' && (indent == 0 || column < indent) then
      emptyLines indent breaks (max widest (column + 1)) rest (index + c.utf8Size) (column + 1) line
    else if Cursor.isBreak c then
      emptyLines indent (breaks ++ [c]) widest rest (index + c.utf8Size) 0 (line + 1)
    else (breaks, widest, ⟨c :: rest, index, column, line⟩)

/-- A tab stands where the indentation of a block is expected. -/
def hasLowTab (indent : Nat) (cur : Cursor) : Bool :=
  cur.rest.head? == some '\t' && (indent == 0 || cur.column < indent)

/-- What was read of a block: its characters up to the last line, the end of that line, the ends of
the empty lines behind it, and whether it began with a blank. -/
structure BlockSoFar where
  done : List Char := []
  lead : List Char := []
  trail : List Char := []
  afterBlank : Bool := false

/-- What was read with the line ends before the next line. In a folded block a line end between
lines that do not begin with blanks becomes a space, or nothing where empty lines follow. -/
def BlockSoFar.joined (block : BlockSoFar) (isFolded atBlank : Bool) : List Char :=
  let lead :=
    if isFolded && block.lead == ['\n'] && !block.afterBlank && !atBlank then
      if block.trail.isEmpty then [' '] else []
    else block.lead
  block.done ++ lead ++ block.trail

/-- What was read with the line ends at its end that are kept. -/
def BlockSoFar.chomped (block : BlockSoFar) : Chomping → List Char
  | .strip => block.done
  | .clip => block.done ++ block.lead
  | .keep => block.done ++ block.lead ++ block.trail

/-- Reads the lines of a block, which are indented to the column `indent`. -/
def blockLines? (header : BlockHeader) (indent : Nat) :
    Nat → BlockSoFar → Cursor → Option (List Char × Cursor)
  | 0, _, _ => none
  | fuel + 1, block, cur =>
    if hasLowTab indent cur then none
    else if cur.column = indent ∧ !cur.rest.isEmpty then
      let line := Cursor.lineOf cur.rest
      let atBlank := cur.rest.head?.any Cursor.isBlank
      let done := block.joined header.isFolded atBlank ++ line
      let lineEnd := cur.skip line.length
      let place := lineEnd.next
      let (trail, _, next) := emptyLines indent [] 0 place.rest place.index place.column place.line
      blockLines? header indent fuel ⟨done, lineEnd.rest.take 1, trail, atBlank⟩ next
    else some (block.chomped header.chomping, cur)

/-- Reads a block of lines that belongs to something at a column below `margin`. -/
def block? (margin : Nat) (cur : Cursor) : Option (Scalar × Cursor) := do
  let (header, start) ← header? cur
  let stated := (header.indent.map fun n => margin - 1 + n).getD 0
  let (trail, widest, place) :=
    emptyLines stated [] 0 start.rest start.index start.column start.line
  if hasLowTab stated place then none
  else
    let indent := if stated = 0 then max widest (max margin 1) else stated
    let (text, cur) ← blockLines? header indent (place.rest.length + 1) { trail } place
    return (⟨String.ofList text, false⟩, cur)

end Scalar

end Installer.Yaml
