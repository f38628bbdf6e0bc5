import Installer.Markup.Element
import Installer.Text.Hex
import Installer.Text.Search

/-! # What a text of XML says

A reader of XML 1.0 that takes a text one character at a time and reports the tree of its elements.
Line ends are normalized, references resolved and white space in attribute values made spaces.  The
character data of an element is one text, whether it stood in CDATA sections or not; between
elements, text of white space alone is dropped.  Instructions, and with them the declaration at the
head, are passed over; comments and document types are refused.  Which characters a document may
hold at all (`isChar`) is not looked at.
-/

namespace Installer.Markup.Xml

/-! ## Characters and names -/

def isWhite (c : Char) : Bool :=
  c == ' ' || c == '\t' || c == '\n' || c == '\r'

/-- The code of the character is in one of the ranges. -/
def isIn (ranges : List (Nat × Nat)) (c : Char) : Bool :=
  ranges.any fun range => range.1 ≤ c.toNat && c.toNat ≤ range.2

def isChar (c : Char) : Bool :=
  isIn [(0x9, 0xA), (0xD, 0xD), (0x20, 0xD7FF), (0xE000, 0xFFFD), (0x10000, 0x10FFFF)] c

def isNameStart (c : Char) : Bool :=
  c == ':' || c == '_' || c.isAlpha ||
    isIn [(0xC0, 0xD6), (0xD8, 0xF6), (0xF8, 0x2FF), (0x370, 0x37D), (0x37F, 0x1FFF),
      (0x200C, 0x200D), (0x2070, 0x218F), (0x2C00, 0x2FEF), (0x3001, 0xD7FF), (0xF900, 0xFDCF),
      (0xFDF0, 0xFFFD), (0x10000, 0xEFFFF)] c

def isNameChar (c : Char) : Bool :=
  isNameStart c || c == '-' || c == '.' || c.isDigit ||
    isIn [(0xB7, 0xB7), (0x300, 0x36F), (0x203F, 0x2040)] c

def isName : List Char → Bool
  | [] => false
  | c :: rest => isNameStart c && rest.all isNameChar

/-! ## Runs of characters -/

/-- The characters with a line feed for every end of a line. -/
def lineEnds : List Char → List Char
  | [] => []
  | c :: rest =>
    if c = '\r' then
      if rest.head? = some '\n' then lineEnds rest else '\n' :: lineEnds rest
    else c :: lineEnds rest

/-- The character of a reference by number. -/
def ofCode? (n : Nat) : Option Char :=
  if n.isValidChar ∧ n ≠ 0 then some (Char.ofNat n) else none

/-- The character that a reference stands for. -/
def reference? (name : List Char) : Option Char :=
  match String.ofList name with
  | "amp" => some '&'
  | "lt" => some '<'
  | "gt" => some '>'
  | "quot" => some '"'
  | "apos" => some '\''
  | _ =>
    match name with
    | '#' :: 'x' :: digits => (Text.Hex.toNat? digits).bind ofCode?
    | '#' :: digits =>
      if digits.all Char.isDigit then ofCode? (Nat.ofDigitChars 10 digits 0) else none
    | _ => none

/-- The characters with references resolved. Inside a reference `name` holds what has been read of
its name, the last character first. -/
def resolve? : Option (List Char) → List Char → Option (List Char)
  | none, [] => some []
  | some _, [] => none
  | none, c :: rest =>
    if c = '&' then resolve? (some []) rest else (resolve? none rest).map (c :: ·)
  | some name, c :: rest =>
    if c = ';' then do
      let x ← reference? name.reverse
      let more ← resolve? none rest
      return x :: more
    else resolve? (some (c :: name)) rest

/-- What character data between tags says. -/
def textOf? (raw : List Char) : Option (List Char) :=
  if Text.contains "]]>".toList raw then none else resolve? none (lineEnds raw)

/-- What an attribute value says. -/
def valueOf? (raw : List Char) : Option (List Char) :=
  if '<' ∈ raw then none
  else resolve? none ((lineEnds raw).map fun c => if isWhite c then ' ' else c)

/-! ## States -/

/-- A start tag as far as it has been read. -/
structure Tag where
  name : String
  attrs : List (String × String) := []

/-- Where in the text the reader is. Characters that have been read are held with the last one
first. -/
inductive Mode where
  /-- In character data. -/
  | data (raw : List Char)
  /-- Behind `<`. -/
  | markup
  /-- In the mark that opens a CDATA section, behind `<!`. -/
  | mark (seen : List Char)
  | cdata (raw : List Char)
  /-- In an instruction; `closing` behind a question mark. -/
  | instruction (closing : Bool)
  /-- In the name of an end tag. -/
  | endTag (name : List Char)
  | afterEndTag (name : List Char)
  /-- In the name of a start tag. -/
  | startTag (name : List Char)
  /-- Inside a start tag; `separated` behind white space. -/
  | inTag (tag : Tag) (separated : Bool)
  /-- Behind the stroke that ends an empty tag. -/
  | emptyTag (tag : Tag)
  | attrName (tag : Tag) (name : List Char)
  | afterAttrName (tag : Tag) (name : List Char)
  /-- Behind an equals sign. -/
  | beforeValue (tag : Tag) (name : List Char)
  | value (tag : Tag) (name : List Char) (quote : Char) (raw : List Char)

/-- An element whose end tag has not been read, with its children, the last one first. -/
structure OpenElement where
  name : String
  attrs : List (String × String)
  nodes : List (Node Element) := []

structure State where
  mode : Mode
  /-- The elements that are open, the innermost first. -/
  parents : List OpenElement := []
  root : Option Element := none

/-! ## Building the tree -/

/-- One more piece of text, joined to a text right before it. -/
def addText (content : List Char) (nodes : List (Node Element)) : List (Node Element) :=
  if content.isEmpty then nodes
  else
    match nodes with
    | .text before :: rest => .text (before ++ String.ofList content) :: rest
    | nodes => .text (String.ofList content) :: nodes

def isWhiteText : Node Element → Bool
  | .text content => content.toList.all isWhite
  | _ => false

/-- The children without the white space between elements. -/
def settle (nodes : List (Node Element)) : List (Node Element) :=
  if nodes.any fun node => node.element?.isSome then nodes.filter fun node => !isWhiteText node
  else nodes

namespace State

def goTo (s : State) (mode : Mode) : State :=
  { s with mode }

/-- Outside the root there is only white space. -/
def addText? (s : State) (content : List Char) : Option State :=
  match s.parents with
  | [] => if content.all isWhite then some s else none
  | parent :: rest =>
    some { s with parents := { parent with nodes := addText content parent.nodes } :: rest }

def attach? (s : State) (e : Element) : Option State :=
  match s.parents, s.root with
  | parent :: rest, _ =>
    some { s with parents := { parent with nodes := .element e :: parent.nodes } :: rest }
  | [], none => some { s with root := some e }
  | [], some _ => none

def openTag (s : State) (tag : Tag) : State :=
  { s with parents := ⟨tag.name, tag.attrs, []⟩ :: s.parents }

/-- Ends the innermost element, which must have the name. -/
def closeTag? (s : State) (name : String) : Option State :=
  match s.parents with
  | [] => none
  | parent :: rest =>
    if parent.name = name then
      { s with parents := rest }.attach? ⟨name, parent.attrs, settle parent.nodes.reverse⟩
    else none

/-- Goes on behind the name of a start tag or behind an attribute. -/
def stepInTag? (s : State) (tag : Tag) (separated : Bool) (c : Char) : Option State :=
  if isWhite c then some (s.goTo (.inTag tag true))
  else if c = '>' then some ((s.openTag tag).goTo (.data []))
  else if c = '/' then some (s.goTo (.emptyTag tag))
  else if separated && isNameStart c then some (s.goTo (.attrName tag [c]))
  else none

/-- Goes on behind the name of an attribute. -/
def stepAfterName? (s : State) (tag : Tag) (name : List Char) (c : Char) : Option State :=
  if isWhite c then some (s.goTo (.afterAttrName tag name))
  else if c = '=' then some (s.goTo (.beforeValue tag name))
  else none

/-- Goes on behind the name of an end tag. -/
def stepEndTag? (s : State) (name : List Char) (c : Char) : Option State :=
  if isWhite c then some (s.goTo (.afterEndTag name))
  else if c = '>' then (s.closeTag? (String.ofList name.reverse)).map (·.goTo (.data []))
  else none

/-- Ends an attribute. No two attributes have one name. -/
def addValue? (s : State) (tag : Tag) (name raw : List Char) : Option State := do
  let content ← valueOf? raw.reverse
  let attr := (String.ofList name.reverse, String.ofList content)
  if attr.1 ∈ tag.attrs.map Prod.fst then none
  else return s.goTo (.inTag { tag with attrs := tag.attrs ++ [attr] } false)

def step? (s : State) (c : Char) : Option State :=
  match s.mode with
  | .data raw =>
    if c = '<' then do
      let content ← textOf? raw.reverse
      (← s.addText? content).goTo .markup
    else s.goTo (.data (c :: raw))
  | .markup =>
    if c = '/' then s.goTo (.endTag [])
    else if c = '!' then s.goTo (.mark [])
    else if c = '?' then s.goTo (.instruction false)
    else if isNameStart c then s.goTo (.startTag [c])
    else none
  | .mark seen =>
    if (c :: seen).reverse = "[CDATA[".toList ∧ s.parents ≠ [] then s.goTo (.cdata [])
    else if (c :: seen).reverse.isPrefixOf "[CDATA".toList then s.goTo (.mark (c :: seen))
    else none
  | .cdata raw =>
    if c = '>' ∧ [']', ']'].isPrefixOf raw then
      (s.addText? (lineEnds (raw.drop 2).reverse)).map (·.goTo (.data []))
    else s.goTo (.cdata (c :: raw))
  | .instruction closing =>
    if closing ∧ c = '>' then s.goTo (.data []) else s.goTo (.instruction (c == '?'))
  | .endTag name =>
    if isNameChar c then s.goTo (.endTag (c :: name)) else s.stepEndTag? name c
  | .afterEndTag name => s.stepEndTag? name c
  | .startTag name =>
    if isNameChar c then s.goTo (.startTag (c :: name))
    else s.stepInTag? ⟨String.ofList name.reverse, []⟩ false c
  | .inTag tag separated => s.stepInTag? tag separated c
  | .emptyTag tag =>
    if c = '>' then ((s.openTag tag).closeTag? tag.name).map (·.goTo (.data [])) else none
  | .attrName tag name =>
    if isNameChar c then s.goTo (.attrName tag (c :: name)) else s.stepAfterName? tag name c
  | .afterAttrName tag name => s.stepAfterName? tag name c
  | .beforeValue tag name =>
    if isWhite c then some s
    else if c = '"' ∨ c = '\'' then s.goTo (.value tag name c [])
    else none
  | .value tag name quote raw =>
    if c = quote then s.addValue? tag name raw else s.goTo (.value tag name quote (c :: raw))

def finish? (s : State) : Option Element :=
  match s.mode, s.parents with
  | .data raw, [] => if raw.all isWhite then s.root else none
  | _, _ => none

end State

def run (s : State) (text : List Char) : Option State :=
  text.foldlM State.step? s

def read? (text : String) : Option Element :=
  (run { mode := .data [] } text.toList).bind State.finish?

end Installer.Markup.Xml
