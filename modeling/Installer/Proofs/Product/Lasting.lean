import Installer.Proofs.Markup.Directories
import Installer.Proofs.Product.Children

/-! # Properties that last

When its children are made, a product is still changed: more children come in, entries go into
sequences, features get references to merge modules, children change places, and a product becomes a
merge module.  A property of single elements that such changes do not break goes on holding
everywhere below the children that have it everywhere.
-/

namespace Installer

open Markup (Element Focus Node)
open Markup.Element

def Compilation.moduleAttrs (c : Compilation) : List (String × String) :=
  [("Id", Folder.identifier c.project.name), ("Codepage", toString c.culture.codepage),
   ("Language", toString c.culture.locale), ("Version", c.project.version)]

namespace Markup.Element

/-! ## Lasting properties -/

/-- The names of elements that get more child elements after they are made. -/
def growingNames : List String :=
  ["Directory", "Feature", "Product", "Module", "Wix"] ++ Sequence.names

/-- The property of an element does not depend on what its child elements are.  It is kept when
children are left out, and it is kept in growing elements when a child element is added. -/
structure Lasting (p : Element → Prop) : Prop where
  replace {name attrs front back old} (new : Element) :
    p ⟨name, attrs, front ++ .element old :: back⟩ → p ⟨name, attrs, front ++ .element new :: back⟩
  add {e : Element} (child : Element) : p e → e.name ∈ growingNames → p (e.add child)
  select {e : Element} (keep : Node Element → Bool) :
    p e → p { e with children := e.children.filter keep }

namespace Lasting

variable {p : Element → Prop} (lasting : Lasting p) {e : Element}

include lasting

theorem addAll (holds : p e) (growing : e.name ∈ growingNames) (children : List Element) :
    p (e.addAll children) := by
  induction children generalizing e with
  | nil => rwa [addAll_nil]
  | cons child rest ih =>
    rw [addAll_cons]
    exact ih (lasting.add child holds growing) growing

theorem everywhere_addAll (holds : Everywhere p e) (growing : e.name ∈ growingNames)
    {children : List Element} (below : ∀ x ∈ children, Everywhere p x) :
    Everywhere p (e.addAll children) := by
  rw [everywhere_iff, elements_addAll, List.forall_mem_append]
  exact ⟨lasting.addAll holds.here growing children, fun _ mem => holds.child mem, below⟩

theorem everywhere_add (holds : Everywhere p e) (growing : e.name ∈ growingNames)
    {child : Element} (below : Everywhere p child) : Everywhere p (e.add child) := by
  have added : Everywhere p (e.addAll [child]) :=
    lasting.everywhere_addAll holds growing (List.forall_mem_singleton.mpr below)
  exact added

/-- The property holds everywhere when what is put in has it everywhere. -/
theorem everywhere_put {focus : Focus Element} {whole new : Element} (place : focus.IsPlace whole)
    (holds : Everywhere p whole) (below : Everywhere p new) : Everywhere p (focus.put new) := by
  induction place with
  | whole _ => exact below
  | child name attrs front back _ ih =>
    rw [everywhere_iff] at holds ⊢
    simp only [Focus.within, elements_mk_append, elements_mk_cons, List.forall_mem_append,
      List.forall_mem_cons] at holds ⊢
    exact ⟨lasting.replace _ holds.1, holds.2.1, ih holds.2.2.1, holds.2.2.2⟩

end Lasting

/-! ## Products -/

/-- The property holds of the product itself and everywhere below its children of watched names. -/
structure Keeps (watched : String → Prop) (p : Element → Prop) (e : Element) : Prop where
  name_mem : e.name ∈ ["Product", "Module"]
  own : p e
  children : ∀ x ∈ e.elements, watched x.name → Everywhere p x

namespace Keeps

variable {watched : String → Prop} {p : Element → Prop} {e : Element}

theorem growing (keeps : e.Keeps watched p) : e.name ∈ growingNames :=
  (by decide : ∀ name ∈ ["Product", "Module"], name ∈ growingNames) _ keeps.name_mem

variable (lasting : Lasting p)

include lasting

theorem addAll (keeps : e.Keeps watched p) {children : List Element}
    (below : ∀ x ∈ children, watched x.name → Everywhere p x) :
    (e.addAll children).Keeps watched p where
  name_mem := keeps.name_mem
  own := lasting.addAll keeps.own keeps.growing children
  children := by
    rw [elements_addAll, List.forall_mem_append]
    exact ⟨keeps.children, below⟩

theorem add (keeps : e.Keeps watched p) {child : Element}
    (below : watched child.name → Everywhere p child) : (e.add child).Keeps watched p :=
  keeps.addAll lasting (List.forall_mem_singleton.mpr below)

theorem replace {name : String} {attrs : List (String × String)}
    {front back : List (Node Element)} {child new : Element}
    (keeps : Keeps watched p ⟨name, attrs, front ++ .element child :: back⟩)
    (same : new.name = child.name) (below : Everywhere p child → Everywhere p new) :
    Keeps watched p ⟨name, attrs, front ++ .element new :: back⟩ where
  name_mem := keeps.name_mem
  own := lasting.replace new keeps.own
  children := by
    have children := keeps.children
    simp only [elements_mk_append, elements_mk_cons, List.forall_mem_append,
      List.forall_mem_cons] at children ⊢
    exact ⟨children.1, fun seen => below (children.2.1 (same ▸ seen)), children.2.2⟩

/-! ### Entries of sequences -/

theorem addEntry (keeps : e.Keeps watched p) {sequence : Sequence} {entry : Element}
    (table : p { name := Choice.name sequence }) (below : Everywhere p entry) :
    (e.addEntry sequence entry).Keeps watched p := by
  have growing : ∀ x : Element, x.name = Choice.name sequence → x.name ∈ growingNames :=
    fun x named => List.mem_append_right _ (named ▸ sequence.name_mem_names)
  obtain ⟨name, attrs, nodes⟩ := e
  rcases addEntry_cases ⟨name, attrs, nodes⟩ sequence entry with
    ⟨front, child, back, rfl, named, added⟩ | ⟨-, added⟩
  · rw [added]
    exact keeps.replace lasting rfl fun old =>
      lasting.everywhere_add old (growing child named) below
  · rw [added]
    have empty : Everywhere p { name := Choice.name sequence } :=
      everywhere_iff.mpr ⟨table, by simp⟩
    exact keeps.add lasting fun _ => lasting.everywhere_add empty (growing _ rfl) below

theorem addActions (keeps : e.Keeps watched p) {actions : ActionElements}
    (tables : ∀ sequence : Sequence, p { name := Choice.name sequence })
    (definitions : ∀ x ∈ actions.definitions, watched x.name → Everywhere p x)
    (entries : ∀ entry ∈ actions.entries, Everywhere p entry.2) :
    (e.addActions actions).Keeps watched p := by
  have kept : ∀ list : List (Sequence × Element), (∀ entry ∈ list, Everywhere p entry.2) →
      ∀ {product : Element}, product.Keeps watched p →
        (list.foldl (fun product entry => product.addEntry entry.1 entry.2) product).Keeps
          watched p := by
    intro list below
    induction list with
    | nil => exact fun keeps => keeps
    | cons entry rest ih =>
      rw [List.forall_mem_cons] at below
      exact fun keeps => ih below.2 (keeps.addEntry lasting (tables entry.1) below.1)
  exact kept _ entries (keeps.addAll lasting definitions)

/-! ### References to merge modules -/

theorem addMergeRef (keeps : e.Keeps watched p) {featureId moduleId : String}
    (reference : p { name := "MergeRef", attrs := [("Id", moduleId)] }) :
    (Project.addMergeRef e featureId moduleId).Keeps watched p := by
  rw [Project.addMergeRef]
  split
  next focus found =>
    obtain ⟨place, isFeature⟩ := isPlace_of_focus? found
    have feature : focus.node.name = "Feature" := (hasNameAndId_eq_true.mp isFeature).1
    have single : Everywhere p { name := "MergeRef", attrs := [("Id", moduleId)] } :=
      everywhere_iff.mpr ⟨reference, by simp⟩
    cases place with
    | whole e =>
      have outer := keeps.name_mem
      rw [show e.name = "Feature" from feature] at outer
      exact absurd outer (by decide)
    | @child focus child name attrs front back inside =>
      refine keeps.replace lasting (name_eq_of_tag (inside.tag_put rfl)) fun old => ?_
      refine lasting.everywhere_put inside old ?_
      have growing : focus.node.name ∈ growingNames := by
        rw [show focus.node.name = "Feature" from feature]
        decide
      exact lasting.everywhere_add (inside.everywhere_node old) growing single
  next => exact keeps

theorem wireMergeModules (keeps : e.Keeps watched p) {project : Project} {ledger : Ledger}
    (references : ∀ id, p { name := "MergeRef", attrs := [("Id", id)] })
    (features : ∀ name feature, project.feature? name = some feature →
      Everywhere p feature.element) {result : Element}
    (wired : project.wireMergeModules ledger e = .ok result) : result.Keeps watched p := by
  have one : ∀ {product next : Element} {id : String} {feature : Option String},
      product.Keeps watched p → project.wireMergeModule product id feature = .ok next →
        next.Keeps watched p := by
    intro product next id feature keeps wired
    cases feature with
    | none =>
      simp only [Project.wireMergeModule] at wired
      split at wired
      next =>
        cases wired
        exact keeps.addMergeRef lasting (references id)
      next => cases wired
    | some name =>
      simp only [Project.wireMergeModule] at wired
      split at wired
      next => cases wired
      next declared found =>
        cases wired
        refine addMergeRef lasting ?_ (references id)
        rw [Project.withFeature]
        split
        next => exact keeps
        next => exact keeps.add lasting fun _ => features name declared found
  rw [Project.wireMergeModules] at wired
  generalize ledger.mergeModules = modules at wired
  induction modules generalizing e with
  | nil =>
    cases wired
    exact keeps
  | cons entry rest ih =>
    rw [List.foldlM_cons] at wired
    cases first : project.wireMergeModule e entry.1 entry.2 with
    | error fault =>
      rw [first] at wired
      cases wired
    | ok next =>
      rw [first] at wired
      exact ih (one keeps first) wired

/-! ### Order and merge modules -/

theorem takeChildren (keeps : e.Keeps watched p) (q : Element → Bool) :
    (e.takeChildren q).2.Keeps watched p where
  name_mem := keeps.name_mem
  own := lasting.select _ keeps.own
  children := by
    rw [elements_takeChildren]
    exact fun x mem => keeps.children x (List.mem_filter.mp mem).1

theorem moveToEnd (keeps : e.Keeps watched p) (q : Element → Bool) :
    (Product.moveToEnd q e).Keeps watched p :=
  (keeps.takeChildren lasting q).addAll lasting fun x mem =>
    keeps.children x (List.mem_filter.mp mem).1

theorem reorder (keeps : e.Keeps watched p) : (Product.reorder e).Keeps watched p := by
  have named : ∀ (names : List String) {product : Element}, product.Keeps watched p →
      (names.foldl (fun product name =>
        Product.moveToEnd (fun x => x.name == name) product) product).Keeps watched p := by
    intro names
    induction names with
    | nil => exact fun keeps => keeps
    | cons name rest ih => exact fun keeps => ih (keeps.moveToEnd lasting _)
  exact (named _ keeps).moveToEnd lasting _

theorem moduleElement (keeps : e.Keeps watched p) {c : Compilation}
    (module : ∀ rest : Element, rest.name ∈ ["Product", "Module"] → p rest →
      p { rest with name := "Module", attrs := c.moduleAttrs })
    (package : ∀ x, x.name = "Package" → Everywhere p x → Everywhere p (c.modulePackage x)) :
    (c.moduleElement e).Keeps watched p := by
  have rest := keeps.takeChildren lasting fun x => x.name == "Feature" || x.name == "Media"
  rw [Compilation.moduleElement]
  generalize e.takeChildren (fun x => x.name == "Feature" || x.name == "Media") = pair at rest ⊢
  obtain ⟨taken, rest'⟩ := pair
  have renamed : Keeps watched p ⟨"Module", c.moduleAttrs, rest'.children⟩ :=
    ⟨by show "Module" ∈ _; decide, module _ rest.name_mem rest.own, rest.children⟩
  simp only
  split
  next place found =>
    rw [focusChild?, Option.map_eq_some_iff] at found
    obtain ⟨⟨child, put⟩, among, rfl⟩ := found
    obtain ⟨front, back, children, isPackage, -, rfl⟩ := focusAmong?_eq_some among
    replace children : rest'.children = front ++ .element child :: back := children
    rw [children] at renamed
    have named : child.name = "Package" := by simpa using isPackage
    exact renamed.replace lasting (HasChildren.name_modulePackage c child) (package child named)
  next => exact renamed

end Keeps

end Markup.Element

end Installer
