import Installer.Markup.Element
import Installer.Markup.Writer

/-! # The text of a document

How an element and its subtree are written: an element without children as one tag, an element with
nothing but texts on one line, any other with each child on lines of its own, two spaces deeper.
-/

namespace Installer.Markup

namespace Element

def openTag (w : Writer) (name : String) (attrs : List (String × String)) : Writer :=
  attrs.foldl (fun w pair => w.attr pair.1 pair.2) (w.startTag name)

def writeCharacters (w : Writer) : Node Element → Writer
  | .element _ => w
  | .text content => w.characters content
  | .cdata content => w.cdata content

mutual

/-- Writes an element on lines of its own. -/
def write (w : Writer) : Element → Writer
  | ⟨name, attrs, children⟩ =>
    let w := openTag w.writeIndent name attrs
    if children.isEmpty then w.endEmptyTag.newline
    else if children.all (fun node => node.element?.isNone) then
      ((children.foldl writeCharacters w.endTag).closeTag name).newline
    else
      (((writeAll w.endTag.newline.indent children).dedent.writeIndent).closeTag name).newline
termination_by structural e => e

def writeAll (w : Writer) : List (Node Element) → Writer
  | [] => w
  | .element child :: rest => writeAll (write w child) rest
  | .text content :: rest => writeAll ((w.writeIndent.characters content).newline) rest
  | .cdata content :: rest => writeAll ((w.writeIndent.cdata content).newline) rest
termination_by structural nodes => nodes

end

def package? (root : Element) : Option Element :=
  root.elements.find? fun child => child.name == "Product" || child.name == "Module"

def toXml (root : Element) : String :=
  let head := (({ step := 2 : Writer }).declaration "1.0" (some "utf-8")).newline
  (root.write head).finish

end Element

end Installer.Markup
