import Installer.Proofs.Feature.Nesting
import Installer.Proofs.Product.Children
import Installer.Proofs.Product.Parts

/-! # The features in a product

An entry of a feature is its tag with the components that it refers to.  `HasFeatures` lists the
entries of a product at any depth.  Once the features are in a product the list is kept by what is
done to the product afterwards, except that a reference to a merge module may bring a feature that
was left out.  It then comes without components.
-/

namespace Installer

open Markup (Element Focus)
open Markup.Element

/-- What the element of a feature says of it, and the ids of the components that it refers to. -/
structure FeatureEntry where
  tag : String × List (String × String)
  components : List (Option String)

def Feature.entry (feature : Feature) (components : List String) : FeatureEntry :=
  ⟨feature.element.tag, components.map some⟩

namespace Markup.Element

def featureEntry (e : Element) : FeatureEntry :=
  ⟨e.tag, (e.elementsNamed "ComponentRef").map id?⟩

def featureEntries (e : Element) : List FeatureEntry :=
  (e.subtree.filter fun x => x.name == "Feature").map featureEntry

theorem featureEntries_eq (e : Element) :
    e.featureEntries =
      (if e.name = "Feature" then [e.featureEntry] else []) ++
        e.elements.flatMap featureEntries := by
  rw [featureEntries, filter_subtree, List.map_append, List.map_flatMap]
  by_cases named : e.name = "Feature"
  · simp only [named, beq_self_eq_true, if_true]
    rfl
  · simp only [named, beq_iff_eq, if_false]
    rfl

theorem featureEntries_of_name_ne {e : Element} (other : e.name ≠ "Feature") :
    e.featureEntries = e.elements.flatMap featureEntries := by
  rw [featureEntries_eq, if_neg other, List.nil_append]

theorem featureEntries_of_only {e : Element} (none : Only (· ≠ "Feature") e) :
    e.featureEntries = [] := by
  rw [featureEntries, List.map_eq_nil_iff, List.filter_eq_nil_iff]
  intro x mem
  simpa using none x mem

theorem featureEntries_of_plain {e : Element} (plain : Plain e) : e.featureEntries = [] :=
  featureEntries_of_only (plain.only "Feature" (by decide))

theorem flatMap_featureEntries_of_plain {children : List Element}
    (plain : ∀ x ∈ children, Plain x) : children.flatMap featureEntries = [] :=
  List.flatMap_eq_nil_iff.mpr fun x mem => featureEntries_of_plain (plain x mem)

/-- A change at a place that keeps the tag and the entries there keeps all entries. -/
theorem featureEntries_put {focus : Focus Element} {whole new : Element}
    (place : focus.IsPlace whole) (sameTag : new.tag = focus.node.tag)
    (entries : new.featureEntries = focus.node.featureEntries) :
    (focus.put new).featureEntries = whole.featureEntries := by
  induction place with
  | whole e => exact entries
  | @child focus child name attrs front back inside ih =>
    have kept : (focus.put new).tag = child.tag := inside.tag_put sameTag
    -- the parent refers to the same components, as the tag of the child is kept
    have entry : featureEntry ⟨name, attrs, front ++ .element (focus.put new) :: back⟩ =
        featureEntry ⟨name, attrs, front ++ .element child :: back⟩ := by
      simp only [featureEntry, elementsNamed, elements_mk_append, elements_mk_cons,
        List.filter_append, List.filter_cons, name_eq_of_tag kept, List.map_append]
      by_cases named : child.name = "ComponentRef" <;>
        simp [named, id?_eq_of_tag kept, tag]
    have below : (focus.put new).featureEntries = child.featureEntries := ih sameTag entries
    rw [featureEntries_eq, featureEntries_eq ⟨name, attrs, front ++ .element child :: back⟩]
    simp only [Focus.within, entry, elements_mk_append, elements_mk_cons, List.flatMap_append,
      List.flatMap_cons, below]

/-- One more child that is neither a feature nor refers to a component. -/
theorem featureEntries_add {e child : Element} (plain : Plain child)
    (other : child.name ≠ "ComponentRef") : (e.add child).featureEntries = e.featureEntries := by
  have entry : (e.add child).featureEntry = e.featureEntry := by
    simp only [featureEntry, elementsNamed, elements_add, List.filter_append, List.map_append]
    have none : [child].filter (fun x => x.name == "ComponentRef") = [] := by simp [other]
    rw [none, List.map_nil, List.append_nil]
    rfl
  rw [featureEntries_eq, featureEntries_eq e, entry, name_add, elements_add, List.flatMap_append,
    List.flatMap_singleton, featureEntries_of_plain plain, List.append_nil]

end Markup.Element

/-! ## The element of a single feature -/

namespace Feature

variable (feature : Feature)

theorem plain_elements : ∀ x ∈ feature.element.elements, Plain x := by
  intro x mem
  obtain ⟨leaf, name⟩ := feature.elements_element x mem
  rw [Plain, only_iff, leaf, name]
  exact ⟨by decide, by simp⟩

theorem featureEntries_element : feature.element.featureEntries = [feature.entry []] := by
  have refs : feature.element.elementsNamed "ComponentRef" = [] :=
    List.filter_eq_nil_iff.mpr fun x mem => by simp [(feature.elements_element x mem).2]
  rw [featureEntries_eq, if_pos feature.name_element, featureEntry, refs,
    flatMap_featureEntries_of_plain feature.plain_elements]
  rfl

end Feature

/-- The features depend on the components in the ledger alone. -/
theorem Project.featureElements_congr {project : Project} {ledger ledger' : Ledger}
    (same : ledger.components = ledger'.components) :
    project.featureElements ledger = project.featureElements ledger' := by
  have shares : project.componentsFor ledger = project.componentsFor ledger' := by
    funext feature
    simp only [componentsFor, Ledger.componentsOf, same]
  simp only [featureElements, retainedFeatures, shares]

namespace Markup.Element

/-! ## Products with features -/

/-- The features at any depth below the element have these entries. -/
structure HasFeatures (e : Element) (entries : List FeatureEntry) : Prop where
  name_ne : e.name ≠ "Feature"
  perm : e.featureEntries.Perm entries

namespace HasFeatures

variable {e : Element} {entries : List FeatureEntry}

theorem of_children {f : Element} (has : e.HasFeatures entries) (name_ne : f.name ≠ "Feature")
    (children : f.elements.Perm e.elements) : f.HasFeatures entries where
  name_ne := name_ne
  perm := by
    rw [featureEntries_of_name_ne name_ne]
    refine (children.flatMap_right _).trans ?_
    rw [← featureEntries_of_name_ne has.name_ne]
    exact has.perm

theorem addAll (has : e.HasFeatures entries) (children : List Element) :
    (e.addAll children).HasFeatures (entries ++ children.flatMap featureEntries) where
  name_ne := has.name_ne
  perm := by
    have name_ne : (e.addAll children).name ≠ "Feature" := has.name_ne
    rw [featureEntries_of_name_ne name_ne, elements_addAll, List.flatMap_append,
      ← featureEntries_of_name_ne has.name_ne]
    exact has.perm.append_right _

theorem addPlain (has : e.HasFeatures entries) {children : List Element}
    (plain : ∀ x ∈ children, Plain x) : (e.addAll children).HasFeatures entries := by
  have added := has.addAll children
  rwa [flatMap_featureEntries_of_plain plain, List.append_nil] at added

theorem put {focus : Focus Element} {new : Element} (has : e.HasFeatures entries)
    (place : focus.IsPlace e) (sameTag : new.tag = focus.node.tag)
    (same : new.featureEntries = focus.node.featureEntries) :
    (focus.put new).HasFeatures entries where
  name_ne := name_eq_of_tag (place.tag_put sameTag) ▸ has.name_ne
  perm := featureEntries_put place sameTag same ▸ has.perm

theorem of_plain {root : Element} (plain : Plain e) (noFeature : Only (· ≠ "Feature") root) :
    (e.add root).HasFeatures [] := by
  have none : e.HasFeatures [] :=
    ⟨(plain.only "Feature" (by decide)).here, featureEntries_of_plain plain ▸ .refl _⟩
  have added := none.addAll [root]
  rwa [List.flatMap_singleton, featureEntries_of_only noFeature] at added

/-! ## What keeps them -/

theorem addEntry (has : e.HasFeatures entries) {sequence : Sequence} {entry : Element}
    (plain : Plain entry) : (e.addEntry sequence entry).HasFeatures entries := by
  rw [Element.addEntry, focusNamed, focusChildOr, Focus.modify]
  cases found : e.focusChild? fun child => child.name == Choice.name sequence with
  | some focus =>
    obtain ⟨place, isSequence⟩ := isPlace_of_focusChild? found
    have other : focus.node.name ≠ "Feature" := by
      rw [show focus.node.name = Choice.name sequence by simpa using isSequence]
      cases sequence <;> decide
    have added : (focus.node.add entry).name ≠ "Feature" := other
    -- an entry of a sequence is no feature
    have same : (focus.node.add entry).featureEntries = focus.node.featureEntries := by
      rw [featureEntries_of_name_ne added, featureEntries_of_name_ne other, elements_add,
        List.flatMap_append, List.flatMap_singleton, featureEntries_of_plain plain,
        List.append_nil]
    exact has.put place rfl same
  | none =>
    have new : Plain (({ name := Choice.name sequence } : Element).add entry) := by
      rw [Plain, only_add, only_mk_nil]
      refine ⟨?_, plain⟩
      cases sequence <;> decide
    exact has.addPlain (List.forall_mem_singleton.mpr new)

theorem addActions (has : e.HasFeatures entries) {actions : ActionElements}
    (parts : actions.AreParts) : (e.addActions actions).HasFeatures entries := by
  have kept : ∀ (list : List (Sequence × Element)), (∀ entry ∈ list, Plain entry.2) →
      ∀ {product : Element}, product.HasFeatures entries →
        (list.foldl (fun product entry => product.addEntry entry.1 entry.2) product).HasFeatures
          entries := by
    intro list plain
    induction list with
    | nil => exact fun has => has
    | cons entry rest ih =>
      intro product has
      exact ih (fun x mem => plain x (List.mem_cons_of_mem _ mem))
        (has.addEntry (plain entry (List.mem_cons_self ..)))
  exact kept _ parts.entries (has.addPlain fun x mem => (parts.definitions x mem).plain)

theorem reorder (has : e.HasFeatures entries) : (Product.reorder e).HasFeatures entries :=
  has.of_children (name_reorder e ▸ has.name_ne) (perm_elements_reorder e)

/-- The features of a document are those of its product. -/
theorem entries_document (has : e.HasFeatures entries) (extensions : List Extension) :
    ((((Compilation.rootElement extensions).add e).descendantsNamed "Feature").map
      featureEntry).Perm entries := by
  have none : (Compilation.rootElement extensions).elements = [] := by
    simp [Compilation.rootElement]
  rw [descendantsNamed, descendants_add, descendants_eq_flatMap, none, List.flatMap_nil,
    List.nil_append]
  exact has.perm

/-! ## References to merge modules -/

theorem addMergeRef (has : e.HasFeatures entries) (featureId moduleId : String) :
    (Project.addMergeRef e featureId moduleId).HasFeatures entries := by
  rw [Project.addMergeRef]
  split
  next focus found =>
    obtain ⟨place, -⟩ := isPlace_of_focus? found
    refine has.put place rfl (featureEntries_add ?_ ?_)
    · rw [Plain, only_mk_nil]
      decide
    · show "MergeRef" ≠ _
      decide
  next => exact has

theorem wireMergeModule (has : e.HasFeatures entries) {project : Project} {moduleId : String}
    {feature : Option String} {result : Element}
    (wired : project.wireMergeModule e moduleId feature = .ok result) :
    ∃ later, result.HasFeatures (entries ++ later) ∧
      ∀ entry ∈ later, ∃ name feature, project.feature? name = some feature ∧
        entry = feature.entry [] := by
  cases feature with
  | none =>
    simp only [Project.wireMergeModule] at wired
    split at wired
    next =>
      cases wired
      refine ⟨[], ?_, by simp⟩
      rw [List.append_nil]
      exact has.addMergeRef _ _
    next => cases wired
  | some name =>
    simp only [Project.wireMergeModule] at wired
    split at wired
    next => cases wired
    next declared found =>
      cases wired
      rw [Project.withFeature]
      split
      next =>
        refine ⟨[], ?_, by simp⟩
        rw [List.append_nil]
        exact has.addMergeRef _ _
      next =>
        -- the feature had been left out and comes without components
        have entries_eq : declared.element.featureEntries = [declared.entry []] :=
          declared.featureEntries_element
        refine ⟨[declared.entry []], ?_, ?_⟩
        · have added := has.addAll [declared.element]
          rw [List.flatMap_singleton, entries_eq] at added
          exact added.addMergeRef _ _
        · exact List.forall_mem_singleton.mpr ⟨name, declared, found, rfl⟩

theorem wireMergeModules (has : e.HasFeatures entries) {project : Project} {ledger : Ledger}
    {result : Element} (wired : project.wireMergeModules ledger e = .ok result) :
    ∃ later, result.HasFeatures (entries ++ later) ∧
      ∀ entry ∈ later, ∃ name feature, project.feature? name = some feature ∧
        entry = feature.entry [] := by
  rw [Project.wireMergeModules] at wired
  generalize ledger.mergeModules = modules at wired
  induction modules generalizing e entries with
  | nil =>
    cases wired
    exact ⟨[], by rwa [List.append_nil], by simp⟩
  | cons module rest ih =>
    rw [List.foldlM_cons] at wired
    cases first : project.wireMergeModule e module.1 module.2 with
    | error fault =>
      rw [first] at wired
      cases wired
    | ok next =>
      rw [first] at wired
      obtain ⟨here, has', declared⟩ := has.wireMergeModule first
      obtain ⟨later, has'', declared'⟩ := ih has' wired
      refine ⟨here ++ later, ?_, List.forall_mem_append.mpr ⟨declared, declared'⟩⟩
      rwa [← List.append_assoc]

end HasFeatures

/-! ## Products -/

structure IsProduct (e root : Element) (entries : List FeatureEntry) : Prop where
  holds : e.HoldsRoot root
  has : e.HasFeatures entries

namespace IsProduct

variable {e root : Element} {entries : List FeatureEntry}

/-- A root directory is put beside what is neither directory nor feature. -/
theorem of_plain (plain : Plain e) (directory : root.name = "Directory")
    (noFeature : Only (· ≠ "Feature") root) : (e.add root).IsProduct root [] where
  holds := .of_asides plain.here (fun _ mem => Plain.aside (plain.child mem)) directory noFeature
  has := .of_plain plain noFeature

theorem addPlain (product : e.IsProduct root entries) {children : List Element}
    (plain : ∀ x ∈ children, Plain x) : (e.addAll children).IsProduct root entries where
  holds := product.holds.addAll fun x mem => (plain x mem).aside
  has := product.has.addPlain plain

theorem addParts (product : e.IsProduct root entries) {children : List Element}
    (parts : ∀ x ∈ children, x.IsPart) : (e.addAll children).IsProduct root entries :=
  product.addPlain fun x mem => (parts x mem).plain

theorem addBasicParts (product : e.IsProduct root entries) {children : List Element}
    (basic : ∀ x ∈ children, x.IsBasicPart) :
    (e.addAll children).IsProduct root entries :=
  product.addPlain fun x mem => (basic x mem).plain

theorem addFeatures (product : e.IsProduct root entries) {children : List Element}
    (asides : ∀ x ∈ children, Aside x) :
    (e.addAll children).IsProduct root (entries ++ children.flatMap featureEntries) where
  holds := product.holds.addAll asides
  has := product.has.addAll children

theorem addActions (product : e.IsProduct root entries) {actions : ActionElements}
    (parts : actions.AreParts) : (e.addActions actions).IsProduct root entries where
  holds := product.holds.addActions (fun x mem => (parts.definitions x mem).plain.aside)
    fun x mem => (parts.entries x mem).aside
  has := product.has.addActions parts

theorem wireMergeModules (product : e.IsProduct root entries) {project : Project} {ledger : Ledger}
    {result : Element} (wired : project.wireMergeModules ledger e = .ok result) :
    ∃ later, result.IsProduct root (entries ++ later) ∧
      ∀ entry ∈ later, ∃ name feature, project.feature? name = some feature ∧
        entry = feature.entry [] := by
  obtain ⟨later, has, undeclared⟩ := product.has.wireMergeModules wired
  exact ⟨later, ⟨product.holds.wireMergeModules wired, has⟩, undeclared⟩

end IsProduct

end Markup.Element

end Installer
