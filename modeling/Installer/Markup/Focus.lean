import Installer.Markup.Element

/-! # Places in a tree

A focus is an element found inside something larger, together with the larger thing as a function of
the element at that place. Looking is reading `node`, changing is calling `put`. The module finds
the first descendant with a property and the first child with a property, which may have to be made.
-/

namespace Installer.Markup

/-- A place inside an `α` where there is an element. -/
structure Focus (α : Type) where
  /-- The element at the place. -/
  node : Element
  /-- The whole with another element at the place. -/
  put : Element → α

namespace Focus

def whole (e : Element) : Focus Element :=
  ⟨e, fun e => e⟩

def within {α β : Type} (f : α → β) (focus : Focus α) : Focus β :=
  ⟨focus.node, fun e => f (focus.put e)⟩

def modify {α : Type} (focus : Focus α) (f : Element → Element) : α :=
  focus.put (f focus.node)

def modifyM {m : Type → Type} [Monad m] {α : Type} (focus : Focus α) (f : Element → m Element) :
    m α := do
  return focus.put (← f focus.node)

end Focus

namespace Element

mutual

/-- The place of the first descendant with a property. -/
def focus? (p : Element → Bool) : Element → Option (Focus Element)
  | ⟨name, attrs, children⟩ =>
    (focusIn? p children).map (·.within fun nodes => ⟨name, attrs, nodes⟩)
termination_by structural e => e

def focusIn? (p : Element → Bool) : List (Node Element) → Option (Focus (List (Node Element)))
  | [] => none
  | .element child :: rest =>
    if p child then some ⟨child, fun e => .element e :: rest⟩
    else
      match focus? p child with
      | some focus => some (focus.within fun e => .element e :: rest)
      | none => (focusIn? p rest).map (·.within fun nodes => .element child :: nodes)
  | .text content :: rest => (focusIn? p rest).map (·.within fun nodes => .text content :: nodes)
  | .cdata content :: rest => (focusIn? p rest).map (·.within fun nodes => .cdata content :: nodes)
termination_by structural nodes => nodes

end

def focusById? (e : Element) (name id : String) : Option (Focus Element) :=
  e.focus? (hasNameAndId name id)

def focusAmong? (p : Element → Bool) : List (Node Element) → Option (Focus (List (Node Element)))
  | [] => none
  | node :: rest =>
    match node.element?.filter p with
    | some child => some ⟨child, fun e => .element e :: rest⟩
    | none => (focusAmong? p rest).map (·.within fun nodes => node :: nodes)

/-- The place of the first child element with a property. -/
def focusChild? (p : Element → Bool) (e : Element) : Option (Focus Element) :=
  (focusAmong? p e.children).map (·.within fun nodes => { e with children := nodes })

/-- The place of the first child element with a property; of `made`, behind all children, when no
child has it. -/
def focusChildOr (e : Element) (p : Element → Bool) (made : Element) : Focus Element :=
  (e.focusChild? p).getD ⟨made, e.add⟩

/-- The place of the first child element of the given name; of a new one when there is none. -/
def focusNamed (name : String) (e : Element) : Focus Element :=
  e.focusChildOr (fun child => child.name == name) { name }

end Element

end Installer.Markup
