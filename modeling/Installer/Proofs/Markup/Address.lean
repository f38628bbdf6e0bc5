import Installer.Proofs.Markup.Survey

/-! # Addresses in a tree

The address of a node is the list of the positions of children on the way down to it.  Addresses are
in document order when they are in lexicographic order, and two subtrees are disjoint when neither
address begins with the other one.  Main statements:

* a node put at an address changes nothing at the addresses apart from it, and of the elements
  around it only the child on the way (`nodeAt?_putAt_of_apart`, `nodeAt?_putAt_append`),
* the search for a place ends at the first address with the property, and its focus puts there
  (`putsFirst_of_focus?`),
* the search for an element ends at the same one (`agree_find?`).
-/

namespace Installer.Markup

namespace Node

def children : Node Element → List (Node Element)
  | .element e => e.children
  | .text _ | .cdata _ => []

/-- The node at an address below the given one. -/
def nodeAt? : Node Element → List Nat → Option (Node Element)
  | node, [] => some node
  | node, i :: rest => node.children[i]?.bind fun child => nodeAt? child rest

/-- The node with another one at an address below it. -/
def putAt (new : Node Element) : Node Element → List Nat → Node Element
  | _, [] => new
  | .element e, i :: rest =>
    .element { e with children := e.children.modify i fun child => putAt new child rest }
  | node, _ :: _ => node

variable {new : Node Element}

/-! ## Changes at an address -/

theorem children_putAt_cons (new node : Node Element) (i : Nat) (rest : List Nat) :
    (putAt new node (i :: rest)).children =
      node.children.modify i fun child => putAt new child rest := by
  cases node with
  | element e => rfl
  | text _ | cdata _ => simp [putAt, children]

theorem nodeAt?_putAt_self {node old : Node Element} {address : List Nat}
    (found : nodeAt? node address = some old) :
      nodeAt? (putAt new node address) address = some new := by
  induction address generalizing node with
  | nil => simp [putAt, nodeAt?]
  | cons i rest ih =>
    obtain ⟨child, isChild, inside⟩ := Option.bind_eq_some_iff.mp found
    rw [nodeAt?, children_putAt_cons, List.getElem?_modify_eq, isChild]
    exact ih inside

/-- Nothing changes at an address that neither leads to the changed place nor goes through it. -/
theorem nodeAt?_putAt_of_apart {node : Node Element} {address other : List Nat}
    (notInside : ¬ address <+: other) (notAround : ¬ other <+: address) :
    nodeAt? (putAt new node address) other = nodeAt? node other := by
  induction address generalizing node other with
  | nil => exact absurd List.nil_prefix notInside
  | cons i rest ih =>
    cases other with
    | nil => exact absurd List.nil_prefix notAround
    | cons j other =>
      rw [nodeAt?, nodeAt?, children_putAt_cons]
      by_cases same : i = j
      · subst same
        rw [List.getElem?_modify_eq]
        have inside : ∀ child, nodeAt? (putAt new child rest) other = nodeAt? child other :=
          fun _ => ih (fun before => notInside (List.cons_prefix_cons.mpr ⟨rfl, before⟩))
            fun before => notAround (List.cons_prefix_cons.mpr ⟨rfl, before⟩)
        cases node.children[i]? with
        | none => rfl
        | some child => exact inside child
      · rw [List.getElem?_modify_ne _ _ same]

/-- A node on the way to the changed place is an element, and the child on the way is all of it
that changes. -/
theorem nodeAt?_putAt_append (new : Node Element) {node old : Node Element} {outer rest : List Nat}
    {i : Nat} (found : nodeAt? node (outer ++ i :: rest) = some old) : ∃ x child,
      nodeAt? node outer = some (.element x) ∧
      nodeAt? (putAt new node (outer ++ i :: rest)) outer =
        some (.element { x with children := x.children.set i child }) := by
  induction outer generalizing node with
  | nil =>
    obtain ⟨child, isChild, -⟩ := Option.bind_eq_some_iff.mp found
    cases node with
    | element x =>
      refine ⟨x, putAt new child rest, rfl, ?_⟩
      have isChild : x.children[i]? = some child := isChild
      simp [putAt, nodeAt?, List.modify_eq_set_getElem?, isChild]
    | text _ | cdata _ => simp [children] at isChild
  | cons j outer ih =>
    obtain ⟨child, isChild, inside⟩ := Option.bind_eq_some_iff.mp found
    obtain ⟨x, inner, onTheWay, changed⟩ := ih inside
    refine ⟨x, inner, ?_, ?_⟩
    · rw [nodeAt?, isChild]
      exact onTheWay
    · rw [List.cons_append, nodeAt?, children_putAt_cons, List.getElem?_modify_eq, isChild]
      exact changed

theorem mem_descendants_of_nodeAt? {e x : Element} {address : List Nat} (below : address ≠ [])
    (found : nodeAt? (.element e) address = some (.element x)) : x ∈ e.descendants := by
  induction address generalizing e with
  | nil => exact absurd rfl below
  | cons i rest ih =>
    obtain ⟨node, isChild, inside⟩ := Option.bind_eq_some_iff.mp found
    have mem : node ∈ e.children := List.mem_of_getElem? isChild
    rw [Element.descendants_eq_flatMap, List.mem_flatMap]
    cases rest with
    | nil =>
      cases inside
      exact ⟨x, List.mem_filterMap.mpr ⟨_, mem, rfl⟩, List.mem_cons_self⟩
    | cons j rest =>
      cases node with
      | element child =>
        have deeper : x ∈ child.descendants := ih (List.cons_ne_nil _ _) inside
        exact ⟨child, List.mem_filterMap.mpr ⟨_, mem, rfl⟩, List.mem_cons_of_mem _ deeper⟩
      | text _ | cdata _ => cases inside

end Node

/-! ## The first address with a property -/

open Element

namespace Element

variable {p : Element → Bool} {e x : Element} {address : List Nat}

/-- The element has the property and stands at the first address with it below the whole. -/
structure IsFirst (p : Element → Bool) (e : Element) (address : List Nat) (x : Element) : Prop where
  below : address ≠ []
  here : Node.nodeAt? (.element e) address = some (.element x)
  holds : p x = true
  first : ∀ other < address, other ≠ [] → ∀ y,
    Node.nodeAt? (.element e) other = some (.element y) → p y = false

theorem IsFirst.head {name : String} {attrs : List (String × String)} {nodes : List (Node Element)}
    (holds : p x = true) : IsFirst p ⟨name, attrs, .element x :: nodes⟩ [0] x where
  below := List.cons_ne_nil _ _
  here := rfl
  holds := holds
  first other earlier below := by
    cases other with
    | nil => exact absurd rfl below
    | cons j other => simp [List.cons_lt_cons_iff] at earlier

theorem IsFirst.inside {name : String} {attrs : List (String × String)} {child : Element}
    {nodes : List (Node Element)} (first : IsFirst p child address x) (notHere : p child = false) :
    IsFirst p ⟨name, attrs, .element child :: nodes⟩ (0 :: address) x where
  below := List.cons_ne_nil _ _
  here := first.here
  holds := first.holds
  first other earlier below y found := by
    cases other with
    | nil => exact absurd rfl below
    | cons j other =>
      obtain ⟨rfl, before⟩ : j = 0 ∧ other < address := by
        simpa [List.cons_lt_cons_iff] using earlier
      cases other with
      | nil =>
        cases found
        exact notHere
      | cons k other => exact first.first _ before (List.cons_ne_nil _ _) y found

theorem IsFirst.later {name : String} {attrs : List (String × String)} {node : Node Element}
    {nodes : List (Node Element)} {i : Nat}
    (first : IsFirst p ⟨name, attrs, nodes⟩ (i :: address) x)
    (barren : ∀ other y, node.nodeAt? other = some (.element y) → p y = false) :
    IsFirst p ⟨name, attrs, node :: nodes⟩ ((i + 1) :: address) x where
  below := List.cons_ne_nil _ _
  here := first.here
  holds := first.holds
  first other earlier below y found := by
    rcases other with - | ⟨- | j, other⟩
    · exact absurd rfl below
    · exact barren other y found
    · refine first.first (j :: other) ?_ (List.cons_ne_nil _ _) y found
      simpa [List.cons_lt_cons_iff] using earlier

/-- What the focus puts is put at the first address with the property. -/
def PutsFirst (p : Element → Bool) (e : Element) (x : Element) (put : Element → Element) : Prop :=
  ∃ address, IsFirst p e address x ∧
    ∀ new, .element (put new) = Node.putAt (.element new) (.element e) address

theorem PutsFirst.later {name : String} {attrs : List (String × String)} {node : Node Element}
    {nodes : List (Node Element)} {put : Element → List (Node Element)}
    (later : PutsFirst p ⟨name, attrs, nodes⟩ x fun new => ⟨name, attrs, put new⟩)
    (barren : ∀ other y, node.nodeAt? other = some (.element y) → p y = false) :
    PutsFirst p ⟨name, attrs, node :: nodes⟩ x fun new => ⟨name, attrs, node :: put new⟩ := by
  obtain ⟨_ | ⟨i, rest⟩, first, put⟩ := later
  · exact absurd rfl first.below
  · refine ⟨(i + 1) :: rest, first.later barren, fun new => ?_⟩
    have changed := put new
    simp only [Node.putAt, Node.element.injEq, mk.injEq, true_and] at changed
    simp only [Node.putAt, changed, List.modify_succ_cons]

mutual

/-- The search for a place ends at the first address with the property. -/
theorem putsFirst_of_focus? :
    ∀ {e : Element} {focus : Focus Element}, e.focus? p = some focus →
      PutsFirst p e focus.node focus.put
  | ⟨name, attrs, nodes⟩, focus, found => by
    rw [focus?, Option.map_eq_some_iff] at found
    obtain ⟨among, found, rfl⟩ := found
    exact putsFirst_of_focusIn? name attrs found

theorem putsFirst_of_focusIn? (name : String) (attrs : List (String × String)) :
    ∀ {nodes : List (Node Element)} {focus : Focus (List (Node Element))},
      focusIn? p nodes = some focus →
      PutsFirst p ⟨name, attrs, nodes⟩ focus.node fun new => ⟨name, attrs, focus.put new⟩
  | .element child :: rest, focus, found => by
    rw [focusIn?] at found
    split at found
    next holds =>
      cases found
      exact ⟨[0], .head holds, fun new => rfl⟩
    next notHere =>
      have fails : p child = false := by simpa using notHere
      split at found
      next inner inside =>
        cases found
        obtain ⟨address, first, put⟩ := putsFirst_of_focus? inside
        refine ⟨0 :: address, first.inside fails, fun new => ?_⟩
        simp [Node.putAt, Focus.within, put]
      next missing =>
        obtain ⟨later, among, rfl⟩ := Option.map_eq_some_iff.mp found
        refine (putsFirst_of_focusIn? name attrs among).later fun other y inside => ?_
        cases other with
        | nil =>
          cases inside
          exact fails
        | cons j other =>
          have below := Node.mem_descendants_of_nodeAt? (List.cons_ne_nil _ _) inside
          exact focus?_eq_none missing y below
  | .text _ :: rest, focus, found | .cdata _ :: rest, focus, found => by
    rw [focusIn?] at found
    obtain ⟨later, among, rfl⟩ := Option.map_eq_some_iff.mp found
    refine (putsFirst_of_focusIn? name attrs among).later fun other y inside => ?_
    cases other <;> cases inside

end

end Element

/-! ## Places found by the two searches -/

/-- A focus on the node at an address changes that node and, on the way to it, the one child that
leads there. -/
structure Focus.Frames (focus : Focus Element) (whole : Element) (address : List Nat) : Prop where
  node : Node.nodeAt? (.element whole) address = some (.element focus.node)
  here : ∀ new, Node.nodeAt? (.element (focus.put new)) address = some (.element new)
  elsewhere : ∀ new other, ¬ address <+: other → ¬ other <+: address →
    Node.nodeAt? (.element (focus.put new)) other = Node.nodeAt? (.element whole) other
  around : ∀ new outer i rest, address = outer ++ i :: rest → ∃ x child,
    Node.nodeAt? (.element whole) outer = some (.element x) ∧
    Node.nodeAt? (.element (focus.put new)) outer =
      some (.element { x with children := x.children.set i child })

theorem Element.PutsFirst.frames {p : Element → Bool} {whole : Element} {focus : Focus Element}
    (puts : PutsFirst p whole focus.node focus.put) :
    ∃ address, IsFirst p whole address focus.node ∧ focus.Frames whole address := by
  obtain ⟨address, first, put⟩ := puts
  refine ⟨address, first, first.here, fun new => ?_, fun new other notInside notAround => ?_,
    fun new outer i rest split => ?_⟩
  · rw [put]
    exact Node.nodeAt?_putAt_self first.here
  · rw [put]
    exact Node.nodeAt?_putAt_of_apart notInside notAround
  · obtain ⟨x, child, onTheWay, changed⟩ :=
      Node.nodeAt?_putAt_append (.element new) (split ▸ first.here)
    exact ⟨x, child, onTheWay, by rw [put, split, changed]⟩

/-- Looking for an element and looking for its place agree: neither finds one and none below the
whole has the property, or both find the first one in document order, and the focus changes no
other place. -/
inductive Element.Agree (p : Element → Bool) (whole : Element) :
    Option Element → Option (Focus Element) → Prop where
  | missing
      (fails : ∀ address ≠ [], ∀ x,
        Node.nodeAt? (.element whole) address = some (.element x) → p x = false) :
      Agree p whole none none
  | found {focus : Focus Element} {address : List Nat}
      (first : IsFirst p whole address focus.node) (frames : focus.Frames whole address) :
      Agree p whole (some focus.node) (some focus)

theorem Element.agree_find? (p : Element → Bool) (whole : Element) :
    Agree p whole (whole.find? p) (whole.focus? p) := by
  rw [Element.find?, ← node_focus?]
  cases found : whole.focus? p with
  | some focus =>
    obtain ⟨address, first, frames⟩ := (putsFirst_of_focus? found).frames
    exact .found first frames
  | none =>
    refine .missing fun address below x here => focus?_eq_none found x ?_
    exact Node.mem_descendants_of_nodeAt? below here

/-- The first child element with a property; one that is made and put behind all children when no
child has it. -/
inductive Element.IsChildPlace (p : Element → Bool) (made whole : Element) :
    Focus Element → Prop where
  | found {i : Nat} {child : Element} (here : whole.children[i]? = some (.element child))
      (holds : p child = true)
      (first : ∀ j < i, ∀ x, whole.children[j]? = some (.element x) → p x = false) :
      IsChildPlace p made whole
        ⟨child, fun new => { whole with children := whole.children.set i (.element new) }⟩
  | added (fails : ∀ x, .element x ∈ whole.children → p x = false) :
      IsChildPlace p made whole
        ⟨made, fun new => { whole with children := whole.children ++ [.element new] }⟩

theorem Element.isChildPlace_focusChildOr (p : Element → Bool) (made whole : Element) :
    IsChildPlace p made whole (whole.focusChildOr p made) := by
  obtain ⟨name, attrs, nodes⟩ := whole
  rw [focusChildOr, focusChild?]
  cases found : focusAmong? p nodes with
  | none =>
    exact .added fun x mem =>
      focusAmong?_eq_none found x (List.mem_filterMap.mpr ⟨.element x, mem, rfl⟩)
  | some among =>
    obtain ⟨node, put⟩ := among
    obtain ⟨front, back, rfl, holds, fails, rfl⟩ := focusAmong?_eq_some found
    have here : (front ++ .element node :: back)[front.length]? = some (.element node) := by simp
    have first : ∀ j < front.length, ∀ x,
        (front ++ .element node :: back)[j]? = some (.element x) → p x = false := by
      intro j before x found
      rw [List.getElem?_append_left before] at found
      exact fails x (List.mem_filterMap.mpr ⟨.element x, List.mem_of_getElem? found, rfl⟩)
    have place : IsChildPlace p made ⟨name, attrs, front ++ .element node :: back⟩ _ :=
      .found here holds first
    simpa [Focus.within] using place

/-- Elements are found by name and id in the same place by both searches, and the focus on a child
is on the first one with the property. -/
theorem Element.searches_agree (whole : Element) :
    (∀ name id, Agree (hasNameAndId name id) whole (whole.findById? name id)
      (whole.focusById? name id)) ∧
    ∀ p made, IsChildPlace p made whole (whole.focusChildOr p made) :=
  ⟨fun name id => agree_find? (hasNameAndId name id) whole,
    fun p made => isChildPlace_focusChildOr p made whole⟩

end Installer.Markup
