import Installer.LogicalPath
import Installer.Proofs.Markup.Survey

/-! # Trees with other spellings of the names of directories

Two trees may be the same but for the names of their directories, which are spelled in two ways.
Nothing that is looked for in a tree depends on these names.  So the same places are found in both
trees, and putting into these places keeps the trees alike.
-/

namespace Installer

/-! ## Results that are there or not -/

section Option

variable {α β γ δ : Type} {R : α → β → Prop} {S : γ → δ → Prop}

theorem rel_map {x : Option α} {y : Option β} {f : α → γ} {g : β → δ} (rel : Option.Rel R x y)
    (step : ∀ {a b}, R a b → S (f a) (g b)) : Option.Rel S (x.map f) (y.map g) := by
  cases rel with
  | none => exact .none
  | some same => exact .some (step same)

theorem rel_or {x x' : Option α} {y y' : Option β} (first : Option.Rel R x y)
    (second : Option.Rel R x' y') : Option.Rel R (x.or x') (y.or y') := by
  cases first with
  | none => exact second
  | some same => exact .some same

theorem isNone_eq_of_rel {x : Option α} {y : Option β} (rel : Option.Rel R x y) :
    y.isNone = x.isNone := by
  cases rel <;> rfl

theorem isSome_eq_of_rel {x : Option α} {y : Option β} (rel : Option.Rel R x y) :
    y.isSome = x.isSome := by
  cases rel <;> rfl

end Option

namespace Markup

open Element

/-! ## Trees -/

namespace Element

mutual

/-- The second tree is the first one with other spellings of the names of some directories. -/
inductive Respells : Element → Element → Prop where
  | mk (name : String) (attrs : List (String × String)) {nodes nodes' : List (Node Element)}
      (inner : RespellsIn nodes nodes') : Respells ⟨name, attrs, nodes⟩ ⟨name, attrs, nodes'⟩
  | directory (id : String) {path path' : String}
      (components : LogicalPath.components path = LogicalPath.components path')
      {nodes nodes' : List (Node Element)} (inner : RespellsIn nodes nodes') :
      Respells ⟨"Directory", [("Id", id), ("Name", path)], nodes⟩
        ⟨"Directory", [("Id", id), ("Name", path')], nodes'⟩

inductive RespellsIn : List (Node Element) → List (Node Element) → Prop where
  | nil : RespellsIn [] []
  | element {child child' : Element} {rest rest' : List (Node Element)}
      (first : Respells child child') (others : RespellsIn rest rest') :
      RespellsIn (.element child :: rest) (.element child' :: rest')
  | text (content : String) {rest rest' : List (Node Element)} (others : RespellsIn rest rest') :
      RespellsIn (.text content :: rest) (.text content :: rest')
  | cdata (content : String) {rest rest' : List (Node Element)} (others : RespellsIn rest rest') :
      RespellsIn (.cdata content :: rest) (.cdata content :: rest')

end

/-- The property does not depend on the names of directories. -/
def Blind (p : Element → Bool) : Prop :=
  ∀ {e e' : Element}, Respells e e' → p e' = p e

variable {e e' : Element} {nodes nodes' : List (Node Element)} {p : Element → Bool}

mutual

theorem Respells.refl : ∀ e : Element, Respells e e
  | ⟨name, attrs, children⟩ => .mk name attrs (RespellsIn.refl children)

theorem RespellsIn.refl : ∀ nodes : List (Node Element), RespellsIn nodes nodes
  | [] => .nil
  | .element child :: rest => .element (Respells.refl child) (RespellsIn.refl rest)
  | .text content :: rest => .text content (RespellsIn.refl rest)
  | .cdata content :: rest => .cdata content (RespellsIn.refl rest)

end

theorem Respells.inner (respells : Respells e e') : RespellsIn e.children e'.children := by
  cases respells with
  | mk _ _ inner => exact inner
  | directory _ _ inner => exact inner

theorem Respells.name_eq (respells : Respells e e') : e'.name = e.name := by
  cases respells <;> rfl

theorem Respells.id?_eq (respells : Respells e e') : e'.id? = e.id? := by
  cases respells <;> rfl

theorem blind_hasNameAndId (name id : String) : Blind (hasNameAndId name id) := fun respells => by
  simp only [hasNameAndId, respells.name_eq, respells.id?_eq]

theorem blind_of_name (q : String → Bool) : Blind fun e => q e.name := fun respells =>
  congrArg q respells.name_eq

/-! ## Changes -/

theorem RespellsIn.append : ∀ {nodes nodes' more more' : List (Node Element)},
    RespellsIn nodes nodes' → RespellsIn more more' → RespellsIn (nodes ++ more) (nodes' ++ more')
  | _, _, _, _, .nil, back => back
  | _, _, _, _, .element first others, back => .element first (others.append back)
  | _, _, _, _, .text content others, back => .text content (others.append back)
  | _, _, _, _, .cdata content others, back => .cdata content (others.append back)

/-- Other nodes inside the same tags. -/
theorem Respells.withNodes (respells : Respells e e') (inner : RespellsIn nodes nodes') :
    Respells { e with children := nodes } { e' with children := nodes' } := by
  cases respells with
  | mk name attrs => exact .mk name attrs inner
  | directory id components => exact .directory id components inner

theorem Respells.addNodes (respells : Respells e e') (added : RespellsIn nodes nodes') :
    Respells (e.addNodes nodes) (e'.addNodes nodes') :=
  respells.withNodes (respells.inner.append added)

theorem Respells.add (respells : Respells e e') {child child' : Element}
    (added : Respells child child') : Respells (e.add child) (e'.add child') :=
  respells.addNodes (.element added .nil)

theorem Respells.addAll (respells : Respells e e') (children : List Element) :
    Respells (e.addAll children) (e'.addAll children) :=
  respells.addNodes (.refl _)

/-! ## Children with a property -/

theorem RespellsIn.isSome_find? (respells : RespellsIn nodes nodes') (blind : Blind p) :
    ((nodes'.filterMap Node.element?).find? p).isSome =
      ((nodes.filterMap Node.element?).find? p).isSome := by
  induction nodes generalizing nodes' with
  | nil =>
    cases respells
    rfl
  | cons node rest ih =>
    cases respells with
    | element first others =>
      simp only [List.filterMap_cons, Node.element?, List.find?_cons, blind first]
      split
      next => rfl
      next => exact ih others
    | text _ others | cdata _ others =>
      simp only [List.filterMap_cons, Node.element?]
      exact ih others

theorem Respells.isSome_child? (respells : Respells e e') (name : String) :
    (e'.child? name).isSome = (e.child? name).isSome :=
  respells.inner.isSome_find? (blind_of_name (· == name))

theorem RespellsIn.filter (respells : RespellsIn nodes nodes') (blind : Blind p) :
    RespellsIn (nodes.filter fun node => !isChild p node)
      (nodes'.filter fun node => !isChild p node) := by
  induction nodes generalizing nodes' with
  | nil =>
    cases respells
    exact .nil
  | cons node rest ih =>
    cases respells with
    | @element child child' _ _ first others =>
      have same : isChild p (.element child') = isChild p (.element child) := blind first
      rw [List.filter_cons, List.filter_cons, same]
      split
      next => exact .element first (ih others)
      next => exact ih others
    | text content others => exact .text content (ih others)
    | cdata content others => exact .cdata content (ih others)

theorem RespellsIn.taken (respells : RespellsIn nodes nodes') (blind : Blind p) :
    RespellsIn (((nodes.filterMap Node.element?).filter p).map .element)
      (((nodes'.filterMap Node.element?).filter p).map .element) := by
  induction nodes generalizing nodes' with
  | nil =>
    cases respells
    exact .nil
  | cons node rest ih =>
    cases respells with
    | element first others =>
      simp only [List.filterMap_cons, Node.element?, List.filter_cons, blind first]
      split
      next => exact .element first (ih others)
      next => exact ih others
    | text _ others | cdata _ others =>
      simp only [List.filterMap_cons, Node.element?]
      exact ih others

/-- Children with a property are taken out of both trees. -/
theorem Respells.takeChildren (respells : Respells e e') (blind : Blind p) :
    RespellsIn ((e.takeChildren p).1.map .element) ((e'.takeChildren p).1.map .element) ∧
      Respells (e.takeChildren p).2 (e'.takeChildren p).2 :=
  ⟨respells.inner.taken blind, respells.withNodes (respells.inner.filter blind)⟩

end Element

/-! ## Places -/

/-- The same place in two trees. -/
structure Focus.Respells {α : Type} (whole : α → α → Prop) (focus focus' : Focus α) : Prop where
  node : Element.Respells focus.node focus'.node
  put : ∀ {e e'}, Element.Respells e e' → whole (focus.put e) (focus'.put e')

theorem Focus.Respells.within {α β : Type} {whole : α → α → Prop} {larger : β → β → Prop}
    {focus focus' : Focus α} (respells : focus.Respells whole focus') {f f' : α → β}
    (step : ∀ {x x'}, whole x x' → larger (f x) (f' x')) :
    (focus.within f).Respells larger (focus'.within f') :=
  ⟨respells.node, fun put => step (respells.put put)⟩

namespace Element

/-- The same place is found in two trees, or none is. -/
def Finds {α : Type} (whole : α → α → Prop) : Option (Focus α) → Option (Focus α) → Prop :=
  Option.Rel (Focus.Respells whole)

theorem Finds.within {α β : Type} {whole : α → α → Prop} {larger : β → β → Prop}
    {found found' : Option (Focus α)} (finds : Finds whole found found') {f f' : α → β}
    (step : ∀ {x x'}, whole x x' → larger (f x) (f' x')) :
    Finds larger (found.map (·.within f)) (found'.map (·.within f')) :=
  rel_map finds fun same => same.within step

variable {e e' : Element} {nodes nodes' : List (Node Element)} {p : Element → Bool}

theorem RespellsIn.focusAmong? (respells : RespellsIn nodes nodes') (blind : Blind p) :
    Finds RespellsIn (Element.focusAmong? p nodes) (Element.focusAmong? p nodes') := by
  induction nodes generalizing nodes' with
  | nil =>
    cases respells
    exact .none
  | cons node rest ih =>
    cases respells with
    | @element child child' _ _ first others =>
      simp only [Element.focusAmong?, Node.element?, Option.filter, blind first]
      cases p child with
      | true => exact .some ⟨first, fun put => .element put others⟩
      | false => exact (ih others).within (.element first)
    | text content others => exact (ih others).within (.text content)
    | cdata content others => exact (ih others).within (.cdata content)

theorem Respells.focusChild? (respells : Respells e e') (blind : Blind p) :
    Finds Respells (e.focusChild? p) (e'.focusChild? p) :=
  (respells.inner.focusAmong? blind).within respells.withNodes

/-- A child that has to be there is found in both trees or added to both. -/
theorem Respells.focusChildOr (respells : Respells e e') (blind : Blind p) {made made' : Element}
    (new : Respells made made') :
    Focus.Respells Respells (e.focusChildOr p made) (e'.focusChildOr p made') := by
  have found := respells.focusChild? blind
  rw [Element.focusChildOr, Element.focusChildOr]
  generalize e.focusChild? p = focus at found
  generalize e'.focusChild? p = focus' at found
  cases found with
  | none => exact ⟨new, respells.add⟩
  | some same => exact same

mutual

theorem Respells.focus? (blind : Blind p) : ∀ {e e' : Element}, Respells e e' →
    Finds Respells (e.focus? p) (e'.focus? p)
  | _, _, .mk name attrs inner => by
    rw [Element.focus?, Element.focus?]
    exact (inner.focusIn? blind).within (.mk name attrs)
  | _, _, .directory id components inner => by
    rw [Element.focus?, Element.focus?]
    exact (inner.focusIn? blind).within (.directory id components)

/-- Looking for a place at any depth finds the same place in both trees. -/
theorem RespellsIn.focusIn? (blind : Blind p) : ∀ {nodes nodes' : List (Node Element)},
    RespellsIn nodes nodes' →
      Finds RespellsIn (Element.focusIn? p nodes) (Element.focusIn? p nodes')
  | _, _, .nil => .none
  | _, _, @RespellsIn.element child child' _ _ first others => by
    have later := (others.focusIn? blind).within (RespellsIn.element first)
    rw [Element.focusIn?, Element.focusIn?, blind first]
    cases p child with
    | true => exact .some ⟨first, fun put => .element put others⟩
    | false =>
      have below := first.focus? blind
      simp only [Bool.false_eq_true, if_false]
      generalize Element.focus? p child = focus at below
      generalize Element.focus? p child' = focus' at below
      cases below with
      | none => exact later
      | some inside => exact .some (inside.within fun put => .element put others)
  | _, _, .text content others => by
    rw [Element.focusIn?, Element.focusIn?]
    exact (others.focusIn? blind).within (.text content)
  | _, _, .cdata content others => by
    rw [Element.focusIn?, Element.focusIn?]
    exact (others.focusIn? blind).within (.cdata content)

end

theorem Respells.isSome_findById? (respells : Respells e e') (name id : String) :
    (e'.findById? name id).isSome = (e.findById? name id).isSome := by
  rw [← isSome_focusById?, ← isSome_focusById?]
  exact isSome_eq_of_rel (respells.focus? (blind_hasNameAndId name id))

/-! ## The home of standalone components -/

theorem installRoot_eq (e : Element) : e.installRoot =
    if (e.child? "Component").isSome then .whole e
    else ((installRootIn? e.children).map (·.within fun nodes =>
      { e with children := nodes })).getD (.whole e) := by
  obtain ⟨name, attrs, children⟩ := e
  rw [installRoot]
  cases installRootIn? children <;> rfl

/-- One step of the search, from what is found among the children. -/
theorem Respells.installRoot_of_inner (respells : Respells e e')
    (inner : Finds RespellsIn (installRootIn? e.children) (installRootIn? e'.children)) :
    Focus.Respells Respells e.installRoot e'.installRoot := by
  have whole : Focus.Respells Respells (.whole e) (.whole e') := ⟨respells, fun put => put⟩
  rw [installRoot_eq, installRoot_eq, respells.isSome_child?]
  split
  next => exact whole
  next =>
    have below := inner.within respells.withNodes
    generalize (installRootIn? e.children).map _ = focus at below
    generalize (installRootIn? e'.children).map _ = focus' at below
    cases below with
    | none => exact whole
    | some same => exact same

mutual

theorem Respells.installRoot : ∀ {e e' : Element}, Respells e e' →
    Focus.Respells Respells e.installRoot e'.installRoot
  | _, _, .mk name attrs inner =>
    (Respells.mk name attrs inner).installRoot_of_inner inner.installRootIn?
  | _, _, .directory id components inner =>
    (Respells.directory id components inner).installRoot_of_inner inner.installRootIn?

/-- Standalone components are at home in the same place. -/
theorem RespellsIn.installRootIn? : ∀ {nodes nodes' : List (Node Element)},
    RespellsIn nodes nodes' →
      Finds RespellsIn (Element.installRootIn? nodes) (Element.installRootIn? nodes')
  | _, _, .nil => .none
  | _, _, @RespellsIn.element child child' _ _ first others => by
    simp only [Element.installRootIn?, first.name_eq]
    split
    next => exact .some (first.installRoot.within fun put => .element put others)
    next => exact others.installRootIn?.within (.element first)
  | _, _, .text content others => by
    rw [Element.installRootIn?, Element.installRootIn?]
    exact others.installRootIn?.within (.text content)
  | _, _, .cdata content others => by
    rw [Element.installRootIn?, Element.installRootIn?]
    exact others.installRootIn?.within (.cdata content)

end

end Element

end Markup

end Installer
