import Installer.Text.Blank
import Installer.Text.Search

/-! # Writing markup

A writer collects the text of a document piece by piece. Attribute values and texts are escaped, and
a CDATA section whose content holds the terminator is split in two. The finished text has no blanks
at the ends of its lines and ends with a line feed.
-/

namespace Installer.Markup

/-! ## Escaping -/

/-- What stands for a character in an attribute value. -/
def escapeAttrChar : Char → List Char
  | '&' => "&amp;".toList
  | '<' => "&lt;".toList
  | '>' => "&gt;".toList
  | '"' => "&quot;".toList
  | '\'' => "&apos;".toList
  | c => [c]

def escapeTextChar : Char → List Char
  | '&' => "&amp;".toList
  | '<' => "&lt;".toList
  | '>' => "&gt;".toList
  | c => [c]

def escapeAttr (value : String) : String :=
  String.ofList (value.toList.flatMap escapeAttrChar)

def escapeText (content : String) : String :=
  String.ofList (content.toList.flatMap escapeTextChar)

def cdataOpen : List Char :=
  "<![CDATA[".toList

def cdataClose : List Char :=
  "]]>".toList

/-- The content as CDATA sections. A terminator inside it is spread over two of them. -/
def cdataText (content : String) : String :=
  let inner := Text.replace cdataClose "]]]]><![CDATA[>".toList content.toList
  String.ofList (cdataOpen ++ inner ++ cdataClose)

/-! ## The writer -/

structure Writer where
  /-- What has been written. -/
  text : String := ""
  /-- How many spaces one level of indentation takes. -/
  step : Nat
  /-- The current level of indentation. -/
  depth : Nat := 0

namespace Writer

def raw (w : Writer) (s : String) : Writer :=
  { w with text := w.text ++ s }

def newline (w : Writer) : Writer :=
  w.raw "\n"

def writeIndent (w : Writer) : Writer :=
  w.raw (String.ofList (List.replicate (w.step * w.depth) ' '))

def indent (w : Writer) : Writer :=
  { w with depth := w.depth + 1 }

/-- One level back; the outermost level has none outside it. -/
def dedent (w : Writer) : Writer :=
  { w with depth := w.depth - 1 }

/-- Writes an attribute with a space in front. -/
def attr (w : Writer) (name value : String) : Writer :=
  w.raw (" " ++ name ++ "=\"" ++ escapeAttr value ++ "\"")

def declaration (w : Writer) (version : String) (encoding : Option String) : Writer :=
  let w := (w.raw "<?xml").attr "version" version
  let w := match encoding with
    | some encoding => w.attr "encoding" encoding
    | none => w
  w.raw "?>"

def startTag (w : Writer) (name : String) : Writer :=
  w.raw ("<" ++ name)

/-- Ends the tag of an element with content. -/
def endTag (w : Writer) : Writer :=
  w.raw ">"

/-- Ends the tag of an element without content. -/
def endEmptyTag (w : Writer) : Writer :=
  w.raw " />"

/-- Writes the tag after the content of an element. -/
def closeTag (w : Writer) (name : String) : Writer :=
  w.raw ("</" ++ name ++ ">")

def characters (w : Writer) (content : String) : Writer :=
  w.raw (escapeText content)

def cdata (w : Writer) (content : String) : Writer :=
  w.raw (cdataText content)

def finish (w : Writer) : String :=
  let lines := (Text.lines w.text.toList).map Text.trimEnd
  let joined := ['\n'].intercalate lines
  String.ofList (if joined.getLast? = some '\n' then joined else joined ++ ['\n'])

end Writer

end Installer.Markup
