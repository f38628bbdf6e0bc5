import Installer.Markup.Element
import Mathlib.Data.List.Basic

/-! # Subtrees

How the elements at and below an element change when attributes are set and children are added, and
properties that hold everywhere in a subtree.  An attribute has the value that was set last, and
setting it leaves those of other names alone.  `Only` restricts the names that occur; it is how
later modules say that some part of a document holds no directory, component or file.
-/

namespace Installer.Markup.Element

/-! ## Attributes -/

theorem attrOf?_attr_of_ne (e : Element) {name name' : String} (other : name' ≠ name)
    (value : String) : (e.attr name value).attrOf? name' = e.attrOf? name' := by
  have kept : ∀ pairs : List (String × String),
      (setPair name value pairs).lookup name' = pairs.lookup name' := by
    intro pairs
    have unequal : (name' == name) = false := by simpa using other
    induction pairs with
    | nil => simp [setPair, List.lookup_cons, unequal]
    | cons pair rest ih =>
      obtain ⟨first, old⟩ := pair
      rw [setPair]
      split
      next same =>
        rw [show first = name from same]
        simp [List.lookup_cons, unequal]
      next => rw [List.lookup_cons, List.lookup_cons, ih]
  exact kept e.attrs

theorem attrOf?_attr_self (e : Element) (name value : String) :
    (e.attr name value).attrOf? name = some value := by
  have found : ∀ pairs : List (String × String),
      (setPair name value pairs).lookup name = some value := by
    intro pairs
    induction pairs with
    | nil => simp [setPair]
    | cons pair rest ih =>
      rw [setPair]
      split
      next => simp
      next other =>
        have unequal : (name == pair.1) = false := by simpa using Ne.symm other
        rw [List.lookup_cons, unequal]
        exact ih
  exact found e.attrs

theorem attrOf?_withAttrs (e : Element) {name : String} {pairs : List (String × String)}
    (other : ∀ pair ∈ pairs, pair.1 ≠ name) :
    (e.withAttrs pairs).attrOf? name = e.attrOf? name := by
  induction pairs generalizing e with
  | nil => rfl
  | cons pair rest ih =>
    rw [List.forall_mem_cons] at other
    have rest_eq := ih (e.attr pair.1 pair.2) other.2
    exact rest_eq.trans (attrOf?_attr_of_ne e other.1.symm pair.2)

theorem attrOf?_withAttrs_cons (e : Element) (name value : String) {pairs : List (String × String)}
    (other : ∀ pair ∈ pairs, pair.1 ≠ name) :
    (e.withAttrs ((name, value) :: pairs)).attrOf? name = some value :=
  (attrOf?_withAttrs (e.attr name value) other).trans (attrOf?_attr_self e name value)

/-- If no name is set twice, each has the value that it is given. -/
theorem attrOf?_withAttrs_of_mem (e : Element) {name value : String}
    {pairs : List (String × String)} (distinct : (pairs.map Prod.fst).Nodup)
    (mem : (name, value) ∈ pairs) : (e.withAttrs pairs).attrOf? name = some value := by
  induction pairs generalizing e with
  | nil => cases mem
  | cons pair rest ih =>
    rw [List.map_cons, List.nodup_cons] at distinct
    rcases List.mem_cons.mp mem with rfl | later
    · refine attrOf?_withAttrs_cons e name value fun pair mem same => ?_
      exact distinct.1 (List.mem_map.mpr ⟨pair, mem, same⟩)
    · exact ih (e.attr pair.1 pair.2) distinct.2 later

theorem id?_withAttrs (e : Element) {pairs : List (String × String)}
    (other : ∀ pair ∈ pairs, pair.1 ≠ "Id") : (e.withAttrs pairs).id? = e.id? :=
  attrOf?_withAttrs e other

/-! ## Children -/

@[simp] theorem elements_mk_append (name : String) (attrs : List (String × String))
    (front back : List (Node Element)) :
    elements ⟨name, attrs, front ++ back⟩ =
      elements ⟨name, attrs, front⟩ ++ elements ⟨name, attrs, back⟩ :=
  List.filterMap_append

@[simp] theorem elements_mk_cons (name : String) (attrs : List (String × String)) (child : Element)
    (back : List (Node Element)) :
    elements ⟨name, attrs, .element child :: back⟩ = child :: elements ⟨name, attrs, back⟩ := rfl

@[simp] theorem elements_addNodes (e : Element) (nodes : List (Node Element)) :
    (e.addNodes nodes).elements = e.elements ++ nodes.filterMap Node.element? :=
  List.filterMap_append

@[simp] theorem elements_add (e child : Element) : (e.add child).elements = e.elements ++ [child] :=
  elements_addNodes e _

@[simp] theorem elements_addAll (e : Element) (children : List Element) :
    (e.addAll children).elements = e.elements ++ children := by
  have kept : (children.map Node.element).filterMap Node.element? = children := by
    induction children with
    | nil => rfl
    | cons child rest ih => simp [Node.element?, ih]
  rw [addAll, elements_addNodes, kept]

theorem addAll_nil (e : Element) : e.addAll [] = e := by
  cases e
  simp [addAll, addNodes]

theorem addAll_cons (e child : Element) (rest : List Element) :
    e.addAll (child :: rest) = (e.add child).addAll rest := by
  simp [addAll, add, addNodes]

theorem addAll_append (e : Element) (front back : List Element) :
    e.addAll (front ++ back) = (e.addAll front).addAll back := by
  simp [addAll, addNodes]

@[simp] theorem name_addNodes (e : Element) (nodes : List (Node Element)) :
    (e.addNodes nodes).name = e.name := rfl

@[simp] theorem attrs_addNodes (e : Element) (nodes : List (Node Element)) :
    (e.addNodes nodes).attrs = e.attrs := rfl

@[simp] theorem name_add (e child : Element) : (e.add child).name = e.name := rfl

@[simp] theorem name_addAll (e : Element) (children : List Element) :
    (e.addAll children).name = e.name := rfl

@[simp] theorem name_attr (e : Element) (name value : String) :
    (e.attr name value).name = e.name := rfl

@[simp] theorem children_attr (e : Element) (name value : String) :
    (e.attr name value).children = e.children := rfl

@[simp] theorem name_attr? (e : Element) (name : String) (value : Option String) :
    (e.attr? name value).name = e.name := by
  cases value <;> rfl

@[simp] theorem children_attr? (e : Element) (name : String) (value : Option String) :
    (e.attr? name value).children = e.children := by
  cases value <;> rfl

@[simp] theorem name_withAttrs (e : Element) (pairs : List (String × String)) :
    (e.withAttrs pairs).name = e.name := by
  induction pairs generalizing e with
  | nil => rfl
  | cons pair rest ih => exact ih (e.attr pair.1 pair.2)

@[simp] theorem children_withAttrs (e : Element) (pairs : List (String × String)) :
    (e.withAttrs pairs).children = e.children := by
  induction pairs generalizing e with
  | nil => rfl
  | cons pair rest ih => exact ih (e.attr pair.1 pair.2)

@[simp] theorem elements_mk_nil (name : String) (attrs : List (String × String)) :
    elements ⟨name, attrs, []⟩ = [] := rfl

@[simp] theorem elements_attr (e : Element) (name value : String) :
    (e.attr name value).elements = e.elements := rfl

@[simp] theorem elements_attr? (e : Element) (name : String) (value : Option String) :
    (e.attr? name value).elements = e.elements := by
  simp [elements]

@[simp] theorem elements_withAttrs (e : Element) (pairs : List (String × String)) :
    (e.withAttrs pairs).elements = e.elements := by
  simp [elements]

theorem elements_takeChildren (p : Element → Bool) (e : Element) :
    (e.takeChildren p).2.elements = e.elements.filter fun x => !p x := by
  have kept : ∀ nodes : List (Node Element),
      (nodes.filter fun node => !isChild p node).filterMap Node.element? =
        (nodes.filterMap Node.element?).filter fun x => !p x := by
    intro nodes
    rw [List.filterMap_filter, List.filter_filterMap]
    congr 1
    funext node
    cases node with
    | element child => cases taken : p child <;> simp [isChild, Node.element?, Option.filter, taken]
    | text _ | cdata _ => rfl
  exact kept e.children

/-! ## Descendants -/

theorem descendants_eq (e : Element) : e.descendants = descendantsIn e.children := by
  cases e
  rw [descendants]

@[simp] theorem descendantsIn_append (front back : List (Node Element)) :
    descendantsIn (front ++ back) = descendantsIn front ++ descendantsIn back := by
  induction front with
  | nil => simp [descendantsIn]
  | cons node rest ih => cases node <;> simp [descendantsIn, ih]

def subtree (e : Element) : List Element :=
  e :: e.descendants

theorem descendants_eq_flatMap (e : Element) : e.descendants = e.elements.flatMap subtree := by
  obtain ⟨name, attrs, children⟩ := e
  rw [descendants_eq]
  induction children with
  | nil => rfl
  | cons node rest ih =>
    cases node with
    | element child => simpa [descendantsIn, subtree] using ih
    | text content | cdata content =>
      rw [descendantsIn]
      exact ih

theorem mem_descendants {e child x : Element} (isChild : child ∈ e.elements)
    (inside : x ∈ child.subtree) : x ∈ e.descendants := by
  rw [descendants_eq_flatMap, List.mem_flatMap]
  exact ⟨child, isChild, inside⟩

/-- The elements with a property, at an element and in the subtrees of its children. -/
theorem filter_subtree (p : Element → Bool) (e : Element) :
    e.subtree.filter p =
      (if p e = true then [e] else []) ++ e.elements.flatMap fun x => x.subtree.filter p := by
  rw [← List.filter_flatMap, ← descendants_eq_flatMap, subtree]
  by_cases here : p e = true
  · rw [if_pos here, List.filter_cons_of_pos here]
    rfl
  · rw [if_neg here, List.filter_cons_of_neg here]
    rfl

theorem descendants_addAll (e : Element) (children : List Element) :
    (e.addAll children).descendants = e.descendants ++ children.flatMap subtree := by
  simp [descendants_eq_flatMap]

theorem descendants_add (e child : Element) :
    (e.add child).descendants = e.descendants ++ child.subtree := by
  simp [descendants_eq_flatMap]

mutual

/-- What holds of an element whenever it holds of its children holds of every element. -/
theorem induct {motive : Element → Prop}
    (step : ∀ e : Element, (∀ child ∈ e.elements, motive child) → motive e) :
    ∀ e, motive e
  | ⟨_, _, children⟩ => step _ (inductIn step children)

theorem inductIn {motive : Element → Prop}
    (step : ∀ e : Element, (∀ child ∈ e.elements, motive child) → motive e) :
    ∀ (nodes : List (Node Element)), ∀ child ∈ nodes.filterMap Node.element?, motive child
  | [] => fun _ mem => nomatch mem
  | .element first :: rest => List.forall_mem_cons.mpr ⟨induct step first, inductIn step rest⟩
  | .text _ :: rest | .cdata _ :: rest => inductIn step rest

end

/-! ## Properties of whole subtrees -/

/-- The property holds of the element and of all elements below it. -/
def Everywhere (p : Element → Prop) (e : Element) : Prop :=
  ∀ x ∈ e.subtree, p x

theorem everywhere_iff {p : Element → Prop} {e : Element} :
    Everywhere p e ↔ p e ∧ ∀ child ∈ e.elements, Everywhere p child := by
  simp only [Everywhere, subtree, List.forall_mem_cons, descendants_eq_flatMap e, List.mem_flatMap,
    forall_exists_index, and_imp]
  refine and_congr_right fun _ => ?_
  constructor
  · intro below child mem
    exact ⟨below child child mem (List.mem_cons_self ..),
      fun x inside => below x child mem (List.mem_cons_of_mem _ inside)⟩
  · intro below x child mem inside
    rcases List.mem_cons.mp inside with rfl | inside
    · exact (below x mem).1
    · exact (below child mem).2 x inside

theorem Everywhere.here {p : Element → Prop} {e : Element} (all : Everywhere p e) : p e :=
  (everywhere_iff.mp all).1

theorem Everywhere.child {p : Element → Prop} {e child : Element} (all : Everywhere p e)
    (mem : child ∈ e.elements) : Everywhere p child :=
  (everywhere_iff.mp all).2 child mem

/-- What holds everywhere in a subtree holds everywhere in the subtrees in it. -/
theorem Everywhere.inside {p : Element → Prop} {e : Element} (all : Everywhere p e) :
    Everywhere (Everywhere p) e := by
  refine e.induct (motive := fun e => Everywhere p e → Everywhere (Everywhere p) e)
    (fun e ih all => ?_) all
  exact everywhere_iff.mpr ⟨all, fun child mem => ih child mem (all.child mem)⟩

theorem Everywhere.mono {p q : Element → Prop} {e : Element} (all : Everywhere p e)
    (implies : ∀ x, p x → q x) : Everywhere q e :=
  fun x mem => implies x (all x mem)

def Only (allowed : String → Prop) (e : Element) : Prop :=
  Everywhere (fun x => allowed x.name) e

theorem only_iff {allowed : String → Prop} {e : Element} :
    Only allowed e ↔ allowed e.name ∧ ∀ child ∈ e.elements, Only allowed child :=
  everywhere_iff

theorem only_congr {allowed : String → Prop} {e f : Element} (name : e.name = f.name)
    (elements : e.elements = f.elements) : Only allowed e ↔ Only allowed f := by
  rw [only_iff, only_iff, name, elements]

variable {allowed : String → Prop}

@[simp] theorem only_add {e child : Element} :
    Only allowed (e.add child) ↔ Only allowed e ∧ Only allowed child := by
  rw [only_iff, only_iff (e := e)]
  simp [or_imp, forall_and, and_assoc]

@[simp] theorem only_addAll {e : Element} {children : List Element} :
    Only allowed (e.addAll children) ↔
      Only allowed e ∧ ∀ child ∈ children, Only allowed child := by
  rw [only_iff, only_iff (e := e)]
  simp [or_imp, forall_and, and_assoc]

@[simp] theorem only_addText {e : Element} {content : String} :
    Only allowed (e.addText content) ↔ Only allowed e :=
  only_congr rfl (by simp [addText, Node.element?])

@[simp] theorem only_addCData {e : Element} {content : String} :
    Only allowed (e.addCData content) ↔ Only allowed e :=
  only_congr rfl (by simp [addCData, Node.element?])

@[simp] theorem only_attr {e : Element} {name value : String} :
    Only allowed (e.attr name value) ↔ Only allowed e :=
  only_congr rfl rfl

@[simp] theorem only_attr? {e : Element} {name : String} {value : Option String} :
    Only allowed (e.attr? name value) ↔ Only allowed e :=
  only_congr (by simp) (by simp)

@[simp] theorem only_withAttrs {e : Element} {pairs : List (String × String)} :
    Only allowed (e.withAttrs pairs) ↔ Only allowed e :=
  only_congr (by simp) (by simp)

@[simp] theorem only_withoutAttr {e : Element} {name : String} :
    Only allowed (e.withoutAttr name) ↔ Only allowed e :=
  only_congr rfl rfl

@[simp] theorem only_mk_nil {name : String} {attrs : List (String × String)} :
    Only allowed ⟨name, attrs, []⟩ ↔ allowed name := by
  rw [only_iff]
  simp

@[simp] theorem only_mk_text {name content : String} {attrs : List (String × String)} :
    Only allowed ⟨name, attrs, [.text content]⟩ ↔ allowed name := by
  rw [only_iff]
  simp [elements, Node.element?]

@[simp] theorem only_mk_cdata {name content : String} {attrs : List (String × String)} :
    Only allowed ⟨name, attrs, [.cdata content]⟩ ↔ allowed name := by
  rw [only_iff]
  simp [elements, Node.element?]

end Installer.Markup.Element
