import Installer.Proofs.Component.Shape
import Installer.Proofs.Product.Order

/-! # The root directory in a product

All directories of a product are in one child element, and so are all components and files.
`HoldsRoot` says so, and it is kept by everything that is done to a product after its directories
are in it: more elements are added, entries go into sequences, references to merge modules go into
features, children change places, and a product becomes a merge module.
-/

namespace Installer

open Markup (Element Focus)
open Markup.Element

namespace Markup.Element

/-- Neither a directory nor a component nor a file is at or below the element. -/
def Aside (e : Element) : Prop :=
  Only (· ∉ ["Directory", "Component", "File"]) e

theorem Plain.aside {e : Element} (plain : Plain e) : Aside e :=
  Everywhere.mono plain fun x other mem => other (by
    simp only [List.mem_cons] at mem ⊢
    tauto)

theorem Aside.only {e : Element} (aside : Aside e) (name : String)
    (mem : name ∈ ["Directory", "Component", "File"]) : Only (· ≠ name) e :=
  Everywhere.mono aside fun _ other equal => other (equal ▸ mem)

theorem Aside.name_ne {e : Element} (aside : Aside e) : e.name ≠ "Directory" :=
  (aside.only "Directory" (by decide)).here

/-- The only directory among the children is `root`, which has no feature in it, and what stands
beside it is of no concern to it. -/
structure HoldsRoot (e root : Element) : Prop where
  name_eq : e.name ∉ ["Directory", "Component", "File", "Feature"]
  directories : e.elementsNamed "Directory" = [root]
  beside : ∀ x ∈ e.elements, x.name ≠ "Directory" → Aside x
  noFeature : Only (· ≠ "Feature") root

namespace HoldsRoot

variable {e root : Element}

theorem eq_root {x : Element} (holds : e.HoldsRoot root) (mem : x ∈ e.elements)
    (directory : x.name = "Directory") : x = root := by
  have among : x ∈ e.elementsNamed "Directory" := List.mem_filter.mpr ⟨mem, by simp [directory]⟩
  simpa [holds.directories] using among

/-- What asides do not give, the root alone gives. -/
theorem flatMap_elements {α : Type} {f : Element → List α} (holds : e.HoldsRoot root)
    (nothing : ∀ x, Aside x → f x = []) : e.elements.flatMap f = f root := by
  have count : ∀ children : List Element, (∀ x ∈ children, x.name ≠ "Directory" → Aside x) →
      children.flatMap f = (children.filter fun x => x.name == "Directory").flatMap f := by
    intro children beside
    induction children with
    | nil => rfl
    | cons x rest ih =>
      rw [List.flatMap_cons, ih fun y mem => beside y (List.mem_cons_of_mem _ mem)]
      by_cases directory : x.name = "Directory"
      · simp [directory]
      · simp [directory, nothing x (beside x (List.mem_cons_self ..) directory)]
  have directories := holds.directories
  rw [elementsNamed] at directories
  rw [count _ holds.beside, directories, List.flatMap_singleton]

/-- Directories, components and files are those of the root. -/
theorem idsNamed_eq (holds : e.HoldsRoot root) {name : String}
    (inner : name ∈ ["Directory", "Component", "File"]) : e.idsNamed name = root.idsNamed name := by
  have other : e.name ≠ name := fun equal => holds.name_eq (by
    rw [equal]
    simp only [List.mem_cons] at inner ⊢
    tauto)
  rw [idsNamed_eq_flatMap, if_neg other, List.nil_append]
  exact holds.flatMap_elements fun x aside => idsNamed_of_only (aside.only name inner)

/-- The root is put beside asides. -/
theorem of_asides (name_eq : e.name ∉ ["Directory", "Component", "File", "Feature"])
    (asides : ∀ x ∈ e.elements, Aside x) (directory : root.name = "Directory")
    (noFeature : Only (· ≠ "Feature") root) : (e.add root).HoldsRoot root where
  name_eq := name_eq
  directories := by
    have none : e.elements.filter (fun x => x.name == "Directory") = [] :=
      List.filter_eq_nil_iff.mpr fun x mem => by simpa using (asides x mem).name_ne
    rw [elementsNamed, elements_add, List.filter_append, none]
    simp [directory]
  beside := by
    rw [elements_add, List.forall_mem_append]
    exact ⟨fun x mem _ => asides x mem, by simp [directory]⟩
  noFeature := noFeature

/-! ## What keeps it -/

/-- Nothing but the directory child and the asides around it matters. -/
theorem of_elements {e' : Element} (holds : e.HoldsRoot root)
    (name_eq : e'.name ∉ ["Directory", "Component", "File", "Feature"])
    (directories : e'.elementsNamed "Directory" = e.elementsNamed "Directory")
    (beside : ∀ x ∈ e'.elements, x.name ≠ "Directory" → x ∈ e.elements ∨ Aside x) :
    e'.HoldsRoot root where
  name_eq := name_eq
  directories := directories.trans holds.directories
  beside := fun x mem other => (beside x mem other).elim (fun old => holds.beside x old other) id
  noFeature := holds.noFeature

theorem addAll (holds : e.HoldsRoot root) {children : List Element}
    (asides : ∀ x ∈ children, Aside x) : (e.addAll children).HoldsRoot root := by
  have none : children.filter (fun x => x.name == "Directory") = [] :=
    List.filter_eq_nil_iff.mpr fun x mem => by simpa using (asides x mem).name_ne
  refine holds.of_elements holds.name_eq ?_ fun x mem _ => ?_
  · rw [elementsNamed, elements_addAll, List.filter_append, none, List.append_nil]
    rfl
  · rw [elements_addAll] at mem
    exact (List.mem_append.mp mem).imp_right (asides x)

theorem add (holds : e.HoldsRoot root) {child : Element} (aside : Aside child) :
    (e.add child).HoldsRoot root :=
  holds.addAll (List.forall_mem_singleton.mpr aside)

/-- A child beside the root is changed into another one. -/
theorem replace {name : String} {attrs : List (String × String)}
    {front back : List (Node Element)} {child new : Element}
    (holds : HoldsRoot ⟨name, attrs, front ++ .element child :: back⟩ root)
    (other : child.name ≠ "Directory") (aside : Aside child → Aside new) :
    HoldsRoot ⟨name, attrs, front ++ .element new :: back⟩ root := by
  have newAside : Aside new := aside (holds.beside child (by simp) other)
  refine holds.of_elements holds.name_eq ?_ fun x mem _ => ?_
  · simp [elementsNamed, List.filter_append, newAside.name_ne, other]
  · simp only [elements_mk_append, elements_mk_cons, List.mem_append, List.mem_cons] at mem ⊢
    rcases mem with before | rfl | after
    · exact .inl (.inl before)
    · exact .inr newAside
    · exact .inl (.inr (.inr after))

/-- The same for the first child with a property that the root does not have. -/
theorem put_focusChild? {p : Element → Bool} {focus : Focus Element} {new : Element}
    (holds : e.HoldsRoot root) (found : e.focusChild? p = some focus)
    (other : ∀ x, p x = true → x.name ≠ "Directory") (aside : Aside focus.node → Aside new) :
    (focus.put new).HoldsRoot root := by
  obtain ⟨name, attrs, nodes⟩ := e
  rw [focusChild?, Option.map_eq_some_iff] at found
  obtain ⟨⟨node, put⟩, among, rfl⟩ := found
  obtain ⟨front, back, rfl, isChild, -, rfl⟩ := focusAmong?_eq_some among
  exact holds.replace (other node isChild) aside

/-- The same for a feature at any depth, since no feature is in the root. -/
theorem put_feature {focus : Focus Element} {new : Element} (holds : e.HoldsRoot root)
    (place : focus.IsPlace e) (feature : focus.node.name = "Feature")
    (aside : Aside focus.node → Aside new) : (focus.put new).HoldsRoot root := by
  cases place with
  | whole e =>
    refine absurd ?_ holds.name_eq
    rw [show e.name = "Feature" from feature]
    decide
  | @child focus child name attrs front back inside =>
    -- no feature is in the root directory
    have other : child.name ≠ "Directory" := fun directory => by
      have isRoot := holds.eq_root (by simp) directory
      have noFeature : Only (· ≠ "Feature") child := isRoot ▸ holds.noFeature
      exact (inside.only_node noFeature).here feature
    exact holds.replace other fun asideChild =>
      inside.only asideChild (aside (inside.only_node asideChild))

end HoldsRoot

end Markup.Element

/-! ## Sequences, features and order -/

namespace Markup.Element.HoldsRoot

variable {e root : Element}

theorem addEntry (holds : e.HoldsRoot root) {sequence : Sequence} {entry : Element}
    (aside : Aside entry) : (e.addEntry sequence entry).HoldsRoot root := by
  have named : Choice.name sequence ∉ ["Directory", "Component", "File"] := by
    cases sequence <;> decide
  have added : ∀ x : Element, Aside x → Aside (x.add entry) := fun x old => by
    rw [Aside, only_add]
    exact ⟨old, aside⟩
  rw [Element.addEntry, focusNamed, focusChildOr, Focus.modify]
  cases found : e.focusChild? fun child => child.name == Choice.name sequence with
  | some focus =>
    refine holds.put_focusChild? found (fun x isSequence directory => named ?_) (added _)
    have name_eq : x.name = Choice.name sequence := by simpa using isSequence
    rw [← name_eq, directory]
    decide
  | none =>
    have new : Aside { name := Choice.name sequence } := by
      rw [Aside, only_mk_nil]
      exact named
    exact holds.add (added _ new)

theorem addActions (holds : e.HoldsRoot root) {actions : ActionElements}
    (definitions : ∀ x ∈ actions.definitions, Aside x)
    (entries : ∀ entry ∈ actions.entries, Aside entry.2) :
    (e.addActions actions).HoldsRoot root := by
  have kept : ∀ (list : List (Sequence × Element)), (∀ entry ∈ list, Aside entry.2) →
      ∀ {product : Element}, product.HoldsRoot root →
        (list.foldl (fun product entry => product.addEntry entry.1 entry.2) product).HoldsRoot
          root := by
    intro list asides
    induction list with
    | nil => exact fun holds => holds
    | cons entry rest ih =>
      intro product holds
      exact ih (fun x mem => asides x (List.mem_cons_of_mem _ mem))
        (holds.addEntry (asides entry (List.mem_cons_self ..)))
  exact kept _ entries (holds.addAll definitions)

/-- Children of other kinds may be taken out and put elsewhere. -/
theorem takeChildren (holds : e.HoldsRoot root) {p : Element → Bool}
    (other : ∀ x, p x = true → x.name ≠ "Directory") : (e.takeChildren p).2.HoldsRoot root := by
  have directories : ∀ x : Element, (x.name == "Directory" && !p x) = (x.name == "Directory") := by
    intro x
    cases taken : p x with
    | false => simp
    | true => simp [other x taken]
  refine holds.of_elements holds.name_eq ?_ fun x mem _ => ?_
  · rw [elementsNamed, elements_takeChildren, List.filter_filter]
    simp only [directories]
    rfl
  · rw [elements_takeChildren] at mem
    exact .inl (List.mem_filter.mp mem).1

theorem reorder (holds : e.HoldsRoot root) : (Product.reorder e).HoldsRoot root :=
  holds.of_elements (name_reorder e ▸ holds.name_eq) (elementsNamed_reorder e "Directory")
    fun _ mem _ => .inl ((perm_elements_reorder e).mem_iff.mp mem)

/-- The children of a merge module are those of the product without features and media, and its
package is changed. -/
theorem moduleElement (c : Compilation) (holds : e.HoldsRoot root) :
    (c.moduleElement e).HoldsRoot root := by
  have kept : (e.takeChildren fun x => x.name == "Feature" || x.name == "Media").2.HoldsRoot root :=
    holds.takeChildren fun x taken directory => by simp [directory] at taken
  rw [Compilation.moduleElement]
  generalize e.takeChildren (fun x => x.name == "Feature" || x.name == "Media") = pair at kept ⊢
  obtain ⟨taken, rest⟩ := pair
  have module : ∀ attrs, HoldsRoot ⟨"Module", attrs, rest.children⟩ root := fun attrs =>
    kept.of_elements (by show "Module" ∉ _; decide) rfl fun x mem _ => .inl mem
  simp only
  split
  next place found =>
    refine (module _).put_focusChild? found (fun x isPackage directory => ?_) fun old => ?_
    · simp [directory] at isPackage
    · rw [Compilation.modulePackage, Aside, only_attr?, only_attr, only_withoutAttr]
      exact old
  next => exact module _

end Markup.Element.HoldsRoot

/-! ## References to merge modules -/

theorem aside_feature (feature : Feature) : Aside feature.element := by
  simp [Aside, Feature.element]

namespace Markup.Element.HoldsRoot

variable {e root : Element}

theorem addMergeRef (holds : e.HoldsRoot root) (featureId moduleId : String) :
    (Project.addMergeRef e featureId moduleId).HoldsRoot root := by
  rw [Project.addMergeRef]
  split
  next focus found =>
    obtain ⟨place, isFeature⟩ := isPlace_of_focus? found
    have named : focus.node.name = "Feature" := by
      simp only [hasNameAndId, Bool.and_eq_true, beq_iff_eq] at isFeature
      exact isFeature.1
    refine holds.put_feature place named fun old => ?_
    rw [Aside, only_add, only_mk_nil]
    exact ⟨old, by decide⟩
  next => exact holds

theorem wireMergeModule (holds : e.HoldsRoot root) {project : Project} {moduleId : String}
    {feature : Option String} {result : Element}
    (wired : project.wireMergeModule e moduleId feature = .ok result) : result.HoldsRoot root := by
  cases feature with
  | none =>
    simp only [Project.wireMergeModule] at wired
    split at wired
    next =>
      cases wired
      exact holds.addMergeRef _ _
    next => cases wired
  | some name =>
    simp only [Project.wireMergeModule] at wired
    split at wired
    next => cases wired
    next =>
      cases wired
      refine HoldsRoot.addMergeRef ?_ _ _
      rw [Project.withFeature]
      split
      next => exact holds
      next => exact holds.add (aside_feature _)

theorem wireMergeModules (holds : e.HoldsRoot root) {project : Project} {ledger : Ledger}
    {result : Element} (wired : project.wireMergeModules ledger e = .ok result) :
    result.HoldsRoot root := by
  rw [Project.wireMergeModules] at wired
  generalize ledger.mergeModules = modules at wired
  induction modules generalizing e with
  | nil =>
    cases wired
    exact holds
  | cons entry rest ih =>
    rw [List.foldlM_cons] at wired
    cases first : project.wireMergeModule e entry.1 entry.2 with
    | error fault =>
      rw [first] at wired
      cases wired
    | ok next =>
      rw [first] at wired
      exact ih (holds.wireMergeModule first) wired

end Markup.Element.HoldsRoot

end Installer
