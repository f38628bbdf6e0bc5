import Installer.Proofs.Markup.Place

/-! # Trees without some of their leaves

One tree may lack leaves of a name that are in another one.  As long as only other names are looked
for, the same places are found in both, and putting into these places keeps the trees alike.
-/

namespace Installer.Markup

open Element

namespace Element

mutual

/-- The second tree is the first one without some leaves called `word`. -/
inductive Thins (word : String) : Element → Element → Prop where
  | mk (name : String) (attrs : List (String × String)) {nodes nodes' : List (Node Element)}
      (inner : ThinsIn word nodes nodes') : Thins word ⟨name, attrs, nodes⟩ ⟨name, attrs, nodes'⟩

/-- The same for nodes, any of which may be such a leaf. -/
inductive ThinsIn (word : String) : List (Node Element) → List (Node Element) → Prop where
  | nil : ThinsIn word [] []
  | keep {child child' : Element} {rest rest' : List (Node Element)}
      (first : Thins word child child') (others : ThinsIn word rest rest') :
      ThinsIn word (.element child :: rest) (.element child' :: rest')
  | drop {leaf : Element} {rest rest' : List (Node Element)} (named : leaf.name = word)
      (empty : leaf.children = []) (others : ThinsIn word rest rest') :
      ThinsIn word (.element leaf :: rest) rest'
  | text (content : String) {rest rest' : List (Node Element)} (others : ThinsIn word rest rest') :
      ThinsIn word (.text content :: rest) (.text content :: rest')
  | cdata (content : String) {rest rest' : List (Node Element)} (others : ThinsIn word rest rest') :
      ThinsIn word (.cdata content :: rest) (.cdata content :: rest')

end

variable {word : String} {e e' : Element} {nodes nodes' : List (Node Element)}

mutual

theorem Thins.refl : ∀ e : Element, Thins word e e
  | ⟨name, attrs, children⟩ => .mk name attrs (ThinsIn.refl children)

theorem ThinsIn.refl : ∀ nodes : List (Node Element), ThinsIn word nodes nodes
  | [] => .nil
  | .element child :: rest => .keep (Thins.refl child) (ThinsIn.refl rest)
  | .text content :: rest => .text content (ThinsIn.refl rest)
  | .cdata content :: rest => .cdata content (ThinsIn.refl rest)

end

theorem Thins.tag_eq (thins : Thins word e e') : e'.tag = e.tag := by
  cases thins
  rfl

theorem ThinsIn.append : ∀ {nodes nodes' more more' : List (Node Element)},
    ThinsIn word nodes nodes' → ThinsIn word more more' →
      ThinsIn word (nodes ++ more) (nodes' ++ more')
  | _, _, _, _, .nil, back => back
  | _, _, _, _, .keep first others, back => .keep first (others.append back)
  | _, _, _, _, .drop named empty others, back => .drop named empty (others.append back)
  | _, _, _, _, .text content others, back => .text content (others.append back)
  | _, _, _, _, .cdata content others, back => .cdata content (others.append back)

/-- Leaves can be left out. -/
theorem ThinsIn.of_leaves {leaves : List Element}
    (all : ∀ leaf ∈ leaves, leaf.name = word ∧ leaf.children = []) :
    ThinsIn word (leaves.map .element) [] := by
  induction leaves with
  | nil => exact .nil
  | cons leaf rest ih =>
    obtain ⟨⟨named, empty⟩, others⟩ := List.forall_mem_cons.mp all
    exact .drop named empty (ih others)

theorem Thins.addNodes (thins : Thins word e e') (added : ThinsIn word nodes nodes') :
    Thins word (e.addNodes nodes) (e'.addNodes nodes') := by
  cases thins with
  | mk name attrs inner => exact .mk name attrs (inner.append added)

theorem Thins.add (thins : Thins word e e') {child child' : Element}
    (added : Thins word child child') : Thins word (e.add child) (e'.add child') :=
  thins.addNodes (.keep added .nil)

/-! ## What is found -/

variable {name : String}

theorem ThinsIn.isSome_find? (thins : ThinsIn word nodes nodes') (other : name ≠ word) :
    ((nodes'.filterMap Node.element?).find? fun child => child.name == name).isSome =
      ((nodes.filterMap Node.element?).find? fun child => child.name == name).isSome := by
  induction nodes generalizing nodes' with
  | nil =>
    cases thins
    rfl
  | cons node rest ih =>
    cases thins with
    | @keep child _ _ _ first others =>
      have same := name_eq_of_tag first.tag_eq
      simp only [List.filterMap_cons, Node.element?, List.find?_cons, same]
      cases child.name == name with
      | true => rfl
      | false => exact ih others
    | drop named empty others =>
      have unlike : ¬ (word == name) = true := by simpa using other.symm
      simp only [List.filterMap_cons, Node.element?]
      rw [List.find?_cons_of_neg (by rwa [named])]
      exact ih others
    | text _ others | cdata _ others =>
      simp only [List.filterMap_cons, Node.element?]
      exact ih others

theorem Thins.isSome_child? (thins : Thins word e e') (other : name ≠ word) :
    (e'.child? name).isSome = (e.child? name).isSome := by
  cases thins with
  | mk _ _ inner => exact inner.isSome_find? other

end Element

/-! ## Places -/

/-- The same place in a tree and in one without some leaves. -/
structure Focus.Thins {α : Type} (word : String) (whole : α → α → Prop) (focus focus' : Focus α) :
    Prop where
  node : Element.Thins word focus.node focus'.node
  put : ∀ {e e'}, Element.Thins word e e' → whole (focus.put e) (focus'.put e')

/-- The same place or none is found in a tree and in one without some leaves. -/
def Focus.Finds {α : Type} (word : String) (whole : α → α → Prop) :
    Option (Focus α) → Option (Focus α) → Prop :=
  Option.Rel (Focus.Thins word whole)

theorem Focus.Finds.within {α β : Type} {word : String} {whole : α → α → Prop}
    {larger : β → β → Prop} {found found' : Option (Focus α)}
    (finds : Finds word whole found found')
    {f f' : α → β} (step : ∀ {x x'}, whole x x' → larger (f x) (f' x')) :
    Finds word larger (found.map (·.within f)) (found'.map (·.within f')) := by
  cases finds with
  | none => exact .none
  | some same => exact .some ⟨same.node, fun put => step (same.put put)⟩

theorem Focus.Finds.drop {word : String} {found found' : Option (Focus (List (Node Element)))}
    (finds : Finds word (ThinsIn word) found found') {leaf : Element} (named : leaf.name = word)
    (empty : leaf.children = []) :
    Finds word (ThinsIn word)
      (found.map (·.within fun nodes => .element leaf :: nodes)) found' := by
  cases finds with
  | none => exact .none
  | some same => exact .some ⟨same.node, fun put => .drop named empty (same.put put)⟩

namespace Element

variable {word name : String} {e e' : Element}

theorem hasNameAndId_leaf (other : name ≠ word) (id : String) {leaf : Element}
    (named : leaf.name = word) : hasNameAndId name id leaf = false := by
  simp [hasNameAndId, named, other.symm]

theorem ThinsIn.focusAmong? {nodes nodes' : List (Node Element)}
    (thins : ThinsIn word nodes nodes') (other : name ≠ word) (id : String) :
    Focus.Finds word (ThinsIn word) (Element.focusAmong? (hasNameAndId name id) nodes)
      (Element.focusAmong? (hasNameAndId name id) nodes') := by
  induction nodes generalizing nodes' with
  | nil =>
    cases thins
    exact .none
  | cons node rest ih =>
    cases thins with
    | @keep child _ _ _ first others =>
      have same := hasNameAndId_eq_of_tag first.tag_eq name id
      have later := (ih others).within (ThinsIn.keep first)
      simp only [Element.focusAmong?, Node.element?, Option.filter, same]
      cases hasNameAndId name id child with
      | true => exact .some ⟨first, fun put => .keep put others⟩
      | false => exact later
    | drop named empty others =>
      simp only [Element.focusAmong?, Node.element?, Option.filter,
        hasNameAndId_leaf other id named]
      exact (ih others).drop named empty
    | text content others => exact (ih others).within (.text content)
    | cdata content others => exact (ih others).within (.cdata content)

/-- A child that has to be there is found in both trees or added to both. -/
theorem Thins.focusChildOr (thins : Thins word e e') (other : name ≠ word) (id : String)
    (made : Element) :
    Focus.Thins word (Thins word) (e.focusChildOr (hasNameAndId name id) made)
      (e'.focusChildOr (hasNameAndId name id) made) := by
  have found : Focus.Finds word (Thins word) (e.focusChild? (hasNameAndId name id))
      (e'.focusChild? (hasNameAndId name id)) := by
    cases thins with
    | mk label attrs inner => exact (inner.focusAmong? other id).within (Thins.mk label attrs)
  rw [Element.focusChildOr, Element.focusChildOr]
  generalize e.focusChild? (hasNameAndId name id) = focus at found
  generalize e'.focusChild? (hasNameAndId name id) = focus' at found
  cases found with
  | none => exact ⟨.refl made, thins.add⟩
  | some same => exact same

mutual

theorem Thins.focus? (other : name ≠ word) (id : String) :
    ∀ {e e' : Element}, Thins word e e' →
      Focus.Finds word (Thins word) (e.focus? (hasNameAndId name id))
        (e'.focus? (hasNameAndId name id))
  | _, _, .mk label attrs inner => by
    rw [Element.focus?, Element.focus?]
    exact (inner.focusIn? other id).within (.mk label attrs)

/-- Looking for a place at any depth finds the same place in both trees. -/
theorem ThinsIn.focusIn? (other : name ≠ word) (id : String) :
    ∀ {nodes nodes' : List (Node Element)}, ThinsIn word nodes nodes' →
      Focus.Finds word (ThinsIn word) (Element.focusIn? (hasNameAndId name id) nodes)
        (Element.focusIn? (hasNameAndId name id) nodes')
  | _, _, .nil => .none
  | _, _, @ThinsIn.keep _ child child' _ _ first others => by
    have same := hasNameAndId_eq_of_tag first.tag_eq name id
    have later := (others.focusIn? other id).within (ThinsIn.keep first)
    rw [Element.focusIn?, Element.focusIn?, same]
    cases hasNameAndId name id child with
    | true => exact .some ⟨first, fun put => .keep put others⟩
    | false =>
      have below := first.focus? other id
      simp only [Bool.false_eq_true, if_false]
      generalize Element.focus? (hasNameAndId name id) child = focus at below
      generalize Element.focus? (hasNameAndId name id) child' = focus' at below
      cases below with
      | none => exact later
      | some inside => exact .some ⟨inside.node, fun put => .keep (inside.put put) others⟩
  | _, _, @ThinsIn.drop _ ⟨label, attrs, _⟩ _ _ named rfl others => by
    have missing := hasNameAndId_leaf other id named
    rw [Element.focusIn?, missing]
    exact (others.focusIn? other id).drop named rfl
  | _, _, .text content others => by
    rw [Element.focusIn?, Element.focusIn?]
    exact (others.focusIn? other id).within (.text content)
  | _, _, .cdata content others => by
    rw [Element.focusIn?, Element.focusIn?]
    exact (others.focusIn? other id).within (.cdata content)

end

end Element

end Installer.Markup
