/-! # Elements

The tree of a source document. Attributes keep the order in which they were first set, so the text
of a document does not change from one run to the next. Every function is on values: changing an
element gives a new one.
-/

namespace Installer.Markup

/-- A child of an element whose own type is `ε`. -/
inductive Node (ε : Type) where
  | element (child : ε)
  | text (content : String)
  | cdata (content : String)

structure Element where
  name : String
  attrs : List (String × String) := []
  children : List (Node Element) := []

instance : Inhabited Element := ⟨{ name := "" }⟩

namespace Node

def element? : Node Element → Option Element
  | .element child => some child
  | _ => none

/-- The characters that the node itself adds to the content of its parent. -/
def content : Node Element → String
  | .element _ => ""
  | .text content | .cdata content => content

end Node

namespace Element

/-! ## Attributes -/

/-- Sets a value: in place where the name is set already, at the end where it is not. -/
def setPair (name value : String) : List (String × String) → List (String × String)
  | [] => [(name, value)]
  | pair :: rest =>
    if pair.1 = name then (name, value) :: rest else pair :: setPair name value rest

def attr (e : Element) (name value : String) : Element :=
  { e with attrs := setPair name value e.attrs }

def attr? (e : Element) (name : String) (value : Option String) : Element :=
  match value with
  | some value => e.attr name value
  | none => e

def withAttrs (e : Element) (pairs : List (String × String)) : Element :=
  pairs.foldl (fun e pair => e.attr pair.1 pair.2) e

def attrOf? (e : Element) (name : String) : Option String :=
  e.attrs.lookup name

def withoutAttr (e : Element) (name : String) : Element :=
  { e with attrs := e.attrs.eraseP fun pair => pair.1 == name }

def id? (e : Element) : Option String :=
  e.attrOf? "Id"

/-! ## Children -/

def addNodes (e : Element) (nodes : List (Node Element)) : Element :=
  { e with children := e.children ++ nodes }

def add (e child : Element) : Element :=
  e.addNodes [.element child]

def addAll (e : Element) (children : List Element) : Element :=
  e.addNodes (children.map .element)

def addText (e : Element) (content : String) : Element :=
  e.addNodes [.text content]

def addCData (e : Element) (content : String) : Element :=
  e.addNodes [.cdata content]

def elements (e : Element) : List Element :=
  e.children.filterMap Node.element?

def elementsNamed (e : Element) (name : String) : List Element :=
  e.elements.filter fun child => child.name == name

def child? (e : Element) (name : String) : Option Element :=
  e.elements.find? fun child => child.name == name

def hasElements (e : Element) : Bool :=
  !e.elements.isEmpty

/-- The characters of the texts and CDATA sections among the children. -/
def content (e : Element) : String :=
  String.join (e.children.map Node.content)

def isChild (p : Element → Bool) (node : Node Element) : Bool :=
  match node.element? with
  | some child => p child
  | none => false

/-- The child elements with a property, and the element without them. -/
def takeChildren (p : Element → Bool) (e : Element) : List Element × Element :=
  (e.elements.filter p, { e with children := e.children.filter fun node => !isChild p node })

/-! ## Descendants -/

mutual

/-- All elements below an element, in document order. -/
def descendants : Element → List Element
  | ⟨_, _, children⟩ => descendantsIn children
termination_by structural e => e

def descendantsIn : List (Node Element) → List Element
  | [] => []
  | .element child :: rest => child :: (descendants child ++ descendantsIn rest)
  | .text _ :: rest | .cdata _ :: rest => descendantsIn rest
termination_by structural nodes => nodes

end

/-- The first descendant with a property. -/
def find? (p : Element → Bool) (e : Element) : Option Element :=
  e.descendants.find? p

def descendantsNamed (e : Element) (name : String) : List Element :=
  e.descendants.filter fun child => child.name == name

def hasNameAndId (name id : String) (e : Element) : Bool :=
  e.name == name && e.id? == some id

def findById? (e : Element) (name id : String) : Option Element :=
  e.find? (hasNameAndId name id)

end Element

end Installer.Markup
