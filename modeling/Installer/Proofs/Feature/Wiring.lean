import Installer.Proofs.Feature.Partition
import Installer.Proofs.Markup.Survey

/-! # Wiring merge modules

What a tree shows of merge modules are the modules themselves, the references to them with the
elements that hold these, and features that hold neither a component nor a module.  `Shows` says all
of it for a product, and is followed through the making of a product.  Wiring one module makes the
product show one reference more.
-/

namespace Installer

open Markup (Element Focus Node)
open Markup.Element

/-- A reference to a merge module, with the name and the id of the element that holds it. -/
structure MergeLink where
  holder : String
  holderId : Option String
  moduleId : Option String
deriving DecidableEq

inductive Sight where
  | module (tag : Tag)
  | link (link : MergeLink)
  /-- A feature with neither components nor modules. -/
  | bare (id : Option String)

namespace Sight

def module? : Sight → Option Tag
  | .module tag => some tag
  | .link .. | .bare .. => none

def link? : Sight → Option MergeLink
  | .link reference => some reference
  | .module .. | .bare .. => none

variable {α : Type} (modules links : List α) (tag : α → Tag) (link : α → MergeLink)

/-- Among modules and references to them the modules are found, -/
theorem filterMap_module?_append :
    (modules.map (fun x => module (tag x)) ++ links.map fun x => Sight.link (link x)).filterMap
      module? = modules.map tag := by
  rw [List.filterMap_append, List.filterMap_map, List.filterMap_map]
  have none : links.filterMap (module? ∘ fun x => Sight.link (link x)) = [] :=
    List.filterMap_eq_nil_iff.mpr fun _ _ => rfl
  rw [none, List.append_nil, ← List.filterMap_eq_map]
  rfl

/-- and the references. -/
theorem filterMap_link?_append :
    (modules.map (fun x => module (tag x)) ++ links.map fun x => Sight.link (link x)).filterMap
      link? = links.map link := by
  rw [List.filterMap_append, List.filterMap_map, List.filterMap_map]
  have none : modules.filterMap (link? ∘ fun x => module (tag x)) = [] :=
    List.filterMap_eq_nil_iff.mpr fun _ _ => rfl
  rw [none, List.nil_append, ← List.filterMap_eq_map]
  rfl

end Sight

namespace Markup.Element

def mergeLinks (e : Element) : List MergeLink :=
  e.subtree.flatMap fun x =>
    (x.elementsNamed "MergeRef").map fun ref => ⟨x.name, x.id?, ref.id?⟩

/-- The reference that a child is in an element with the tag `t`. -/
def linkIn? (t : Tag) (child : Tag) : Option Sight :=
  if child.1 = "MergeRef" then some (.link ⟨t.1, t.2.lookup "Id", child.2.lookup "Id"⟩) else none

/-- What an element shows itself. -/
def sights (t : Tag) (children : List Tag) : List Sight :=
  (if t.1 = "Merge" then [.module t] else []) ++
    children.filterMap (linkIn? t) ++
      if t.1 = "Feature" ∧ ∀ x ∈ children, x.1 ∉ ["ComponentRef", "MergeRef"] then
        [.bare (t.2.lookup "Id")]
      else []

def Silent (e : Element) : Prop :=
  Only (· ∉ ["Feature", "Merge", "MergeRef"]) e

theorem linkIn?_of_ne {t child : Tag} (other : child.1 ≠ "MergeRef") : linkIn? t child = none :=
  if_neg other

theorem sights_of_ne {t : Tag} {children : List Tag} (other : t.1 ∉ ["Feature", "Merge"]) :
    sights t children = children.filterMap (linkIn? t) := by
  simp only [List.mem_cons, List.not_mem_nil, or_false, not_or] at other
  simp [sights, other]

theorem filterMap_linkIn?_eq_nil {t : Tag} {children : List Element}
    (noRefs : ∀ x ∈ children, x.name ≠ "MergeRef") :
    (children.map tag).filterMap (linkIn? t) = [] :=
  List.filterMap_eq_nil_iff.mpr (List.forall_mem_map.mpr fun x mem => linkIn?_of_ne (noRefs x mem))

theorem survey_of_other {e : Element} (other : e.name ∉ ["Feature", "Merge"])
    (noRefs : ∀ x ∈ e.elements, x.name ≠ "MergeRef") :
    e.survey sights = e.elements.flatMap (survey sights) := by
  rw [survey_eq, sights_of_ne (t := e.tag) other, filterMap_linkIn?_eq_nil noRefs, List.nil_append]

/-! ## What is seen -/

theorem filterMap_ite_eq_nil {α β : Type} {f : α → Option β} {x : α} (hidden : f x = none)
    (p : Prop) [Decidable p] : (if p then [x] else []).filterMap f = [] := by
  split
  next => rw [List.filterMap_cons_none hidden, List.filterMap_nil]
  next => rfl

/-- The merge modules that are seen are all elements of that name. -/
theorem filterMap_module?_survey (e : Element) :
    (e.survey sights).filterMap Sight.module? =
      (e.subtree.filter fun x => x.name == "Merge").map tag := by
  have links : ∀ (t : Tag) (children : List Tag),
      (children.filterMap (linkIn? t)).filterMap Sight.module? = [] := by
    intro t children
    rw [List.filterMap_filterMap, List.filterMap_eq_nil_iff]
    intro child _
    rw [linkIn?]
    split <;> rfl
  have own : ∀ x : Element, (sights x.tag (x.elements.map tag)).filterMap Sight.module? =
      if x.name == "Merge" then [x.tag] else [] := by
    intro x
    rw [sights, List.filterMap_append, List.filterMap_append, links,
      filterMap_ite_eq_nil (x := Sight.bare _) rfl, List.append_nil, List.append_nil]
    by_cases merge : x.name = "Merge"
    · rw [if_pos (c := x.tag.1 = "Merge") merge, if_pos (beq_iff_eq.mpr merge)]
      rfl
    · rw [if_neg (c := x.tag.1 = "Merge") merge, if_neg (by simpa using merge)]
      rfl
  rw [survey, List.filterMap_flatMap]
  simp only [own]
  induction e.subtree with
  | nil => rfl
  | cons x rest ih =>
    rw [List.flatMap_cons, ih, List.filter_cons]
    split <;> simp

/-- The references that are seen are all references. -/
theorem filterMap_link?_survey (e : Element) :
    (e.survey sights).filterMap Sight.link? = e.mergeLinks := by
  have links : ∀ (x : Element) (children : List Element),
      ((children.map tag).filterMap (linkIn? x.tag)).filterMap Sight.link? =
        (children.filter fun child => child.name == "MergeRef").map fun ref =>
          ⟨x.name, x.id?, ref.id?⟩ := by
    intro x children
    induction children with
    | nil => rfl
    | cons child rest ih =>
      rw [List.map_cons, List.filterMap_cons, List.filter_cons, linkIn?]
      by_cases ref : child.name = "MergeRef"
      · have name : child.tag.1 = "MergeRef" := ref
        rw [if_pos name, if_pos (beq_iff_eq.mpr ref), List.map_cons, ← ih]
        rfl
      · have name : child.tag.1 ≠ "MergeRef" := ref
        rw [if_neg name, if_neg (by simpa using ref), ← ih]
  have own : ∀ x : Element, (sights x.tag (x.elements.map tag)).filterMap Sight.link? =
      (x.elementsNamed "MergeRef").map fun ref => ⟨x.name, x.id?, ref.id?⟩ := by
    intro x
    rw [sights, List.filterMap_append, List.filterMap_append, links, elementsNamed]
    rw [filterMap_ite_eq_nil rfl, filterMap_ite_eq_nil rfl, List.nil_append, List.append_nil]
  rw [survey, List.filterMap_flatMap, mergeLinks]
  simp only [own]

theorem perm_moduleId_mergeLinks (e : Element) :
    (e.mergeLinks.map MergeLink.moduleId).Perm ((e.descendantsNamed "MergeRef").map id?) := by
  have children := (e.perm_flatMap_elements.filter fun x => x.name == "MergeRef").map id?
  rw [List.filter_flatMap, List.map_flatMap] at children
  rw [mergeLinks, List.map_flatMap]
  simp only [List.map_map]
  exact children

/-- A feature that is not bare holds a component or a module. -/
theorem exists_child_of_survey {e x : Element} (full : ∀ id, .bare id ∉ e.survey sights)
    (inside : x ∈ e.subtree) (feature : x.name = "Feature") :
    ∃ child ∈ x.elements, child.name ∈ ["ComponentRef", "MergeRef"] := by
  by_contra bare
  have name : x.tag.1 = "Feature" := feature
  have none : ∀ t ∈ x.elements.map tag, t.1 ∉ ["ComponentRef", "MergeRef"] :=
    List.forall_mem_map.mpr fun child mem held => bare ⟨child, mem, held⟩
  refine full (x.tag.2.lookup "Id") (List.mem_flatMap.mpr ⟨x, inside, ?_⟩)
  rw [sights, if_pos (And.intro name none)]
  exact List.mem_append_right _ (List.mem_singleton_self _)

namespace Silent

variable {e : Element}

theorem name_ne (silent : e.Silent) : e.name ≠ "MergeRef" := by
  have other : e.name ∉ ["Feature", "Merge", "MergeRef"] := Everywhere.here silent
  simp only [List.mem_cons, List.not_mem_nil, or_false, not_or] at other
  exact other.2.2

theorem survey_eq_nil (silent : e.Silent) : e.survey sights = [] := by
  refine Element.survey_eq_nil (fun t ts name names => ?_) silent
  simp only [List.mem_cons, List.not_mem_nil, or_false, not_or] at name names
  rw [sights_of_ne (by simp [name]), List.filterMap_eq_nil_iff]
  exact fun x mem => linkIn?_of_ne (names x mem).2.2

end Silent

theorem flatMap_survey_of_silent {children : List Element} (silent : ∀ x ∈ children, x.Silent) :
    children.flatMap (survey sights) = [] :=
  List.flatMap_eq_nil_iff.mpr fun x mem => (silent x mem).survey_eq_nil

/-- Children other than references show of themselves what is new, unless they are put into a
feature. -/
theorem survey_addAll {e : Element} {children : List Element} (other : e.name ≠ "Feature")
    (noRefs : ∀ x ∈ children, x.name ≠ "MergeRef") :
    (e.addAll children).survey sights = e.survey sights ++ children.flatMap (survey sights) := by
  have own : sights e.tag ((e.elements ++ children).map tag) =
      sights e.tag (e.elements.map tag) := by
    rw [sights, sights, List.map_append, List.filterMap_append, filterMap_linkIn?_eq_nil noRefs]
    simp [show e.tag.1 ≠ "Feature" from other]
  rw [survey_eq, survey_eq _ e, tag_addAll, elements_addAll, own, List.flatMap_append,
    List.append_assoc]

theorem survey_add {e child : Element} (other : e.name ≠ "Feature")
    (noRef : child.name ≠ "MergeRef") :
    (e.add child).survey sights = e.survey sights ++ child.survey sights := by
  have added := survey_addAll other (List.forall_mem_singleton.mpr noRef)
  rwa [List.flatMap_singleton] at added

end Markup.Element

/-! ## References -/

def mergeRef (id : String) : Element :=
  { name := "MergeRef", attrs := [("Id", id)] }

namespace Markup.Element

/-- A feature with a reference shows the reference, what it showed of others, and what is below. -/
theorem survey_add_mergeRef {e : Element} {id : String} (feature : e.name = "Feature")
    (identified : e.id? = some id) (moduleId : String) :
    (e.add (mergeRef moduleId)).survey sights =
      (e.elements.map tag).filterMap (linkIn? e.tag) ++
        .link ⟨"Feature", some id, some moduleId⟩ :: e.elements.flatMap (survey sights) := by
  have new : linkIn? e.tag (mergeRef moduleId).tag =
      some (.link ⟨"Feature", some id, some moduleId⟩) := by
    rw [← feature, ← identified]
    exact if_pos rfl
  have leaf : (mergeRef moduleId).survey sights = [] := by
    rw [survey_of_other (by simp [mergeRef]) (by simp [mergeRef])]
    rfl
  have own : sights e.tag ((e.elements ++ [mergeRef moduleId]).map tag) =
      (e.elements.map tag).filterMap (linkIn? e.tag) ++
        [.link ⟨"Feature", some id, some moduleId⟩] := by
    have name : e.tag.1 = "Feature" := feature
    have held : ¬ ∀ x ∈ (e.elements ++ [mergeRef moduleId]).map tag,
        x.1 ∉ ["ComponentRef", "MergeRef"] := fun all =>
      all (mergeRef moduleId).tag (by simp) (by simp [mergeRef, tag])
    rw [sights, name, if_neg (by decide), if_neg (fun bare => held bare.2), List.map_append,
      List.filterMap_append, List.nil_append, List.append_nil]
    simp [new]
  have tag_eq : (e.add (mergeRef moduleId)).tag = e.tag := rfl
  rw [survey_eq, tag_eq, elements_add, own, List.flatMap_append, List.flatMap_singleton, leaf]
  simp

/-- A feature that holds something already shows the reference and otherwise what it showed. -/
theorem perm_survey_add_mergeRef {e : Element} {id : String} (feature : e.name = "Feature")
    (identified : e.id? = some id) (full : ∀ id, .bare id ∉ e.survey sights) (moduleId : String) :
    ((e.add (mergeRef moduleId)).survey sights).Perm
      (e.survey sights ++ [.link ⟨"Feature", some id, some moduleId⟩]) := by
  have name : e.tag.1 = "Feature" := feature
  have held : ¬ ∀ x ∈ e.elements.map tag, x.1 ∉ ["ComponentRef", "MergeRef"] := by
    intro bare
    obtain ⟨child, mem, holds⟩ := exists_child_of_survey full (List.mem_cons_self ..) feature
    exact bare child.tag (List.mem_map_of_mem mem) holds
  rw [survey_add_mergeRef feature identified, survey_eq, sights, name, if_neg (by decide),
    if_neg (fun bare => held bare.2), List.nil_append, List.append_nil, List.append_assoc]
  exact (List.perm_append_singleton _ _).symm.append_left _

/-! ## Products -/

/-- The product shows just this of merge modules. -/
structure Shows (product : Element) (seen : List Sight) : Prop where
  name_eq : product.name = "Product"
  noRefs : ∀ x ∈ product.elements, x.name ≠ "MergeRef"
  perm : (product.survey sights).Perm seen

namespace Shows

variable {product : Element} {seen : List Sight}

theorem other (shows : product.Shows seen) : product.name ∉ ["Feature", "Merge"] := by
  simp [shows.name_eq]

theorem of_children {f : Element} (shows : product.Shows seen) (name_eq : f.name = "Product")
    (children : f.elements.Perm product.elements) : f.Shows seen where
  name_eq := name_eq
  noRefs := fun x mem => shows.noRefs x (children.mem_iff.mp mem)
  perm := by
    have noRefs : ∀ x ∈ f.elements, x.name ≠ "MergeRef" :=
      fun x mem => shows.noRefs x (children.mem_iff.mp mem)
    rw [survey_of_other (by simp [name_eq]) noRefs]
    refine (children.flatMap_right _).trans ?_
    rw [← survey_of_other shows.other shows.noRefs]
    exact shows.perm

theorem addAll (shows : product.Shows seen) {children : List Element}
    (noRefs : ∀ x ∈ children, x.name ≠ "MergeRef") :
    (product.addAll children).Shows (seen ++ children.flatMap (survey sights)) where
  name_eq := shows.name_eq
  noRefs := by
    rw [elements_addAll, List.forall_mem_append]
    exact ⟨shows.noRefs, noRefs⟩
  perm := by
    rw [survey_addAll (by simp [shows.name_eq]) noRefs]
    exact shows.perm.append_right _

theorem addSilent (shows : product.Shows seen) {children : List Element}
    (silent : ∀ x ∈ children, x.Silent) : (product.addAll children).Shows seen := by
  have added := shows.addAll fun x mem => (silent x mem).name_ne
  rwa [flatMap_survey_of_silent silent, List.append_nil] at added

theorem put {focus : Focus Element} {new : Element} {extra : List Sight}
    (shows : product.Shows seen) (place : focus.IsPlace product)
    (inner : focus.node.name ≠ "Product") (sameTag : new.tag = focus.node.tag)
    (grown : (new.survey sights).Perm (focus.node.survey sights ++ extra)) :
    (focus.put new).Shows (seen ++ extra) := by
  have perm := (place.perm_survey_put sameTag grown).trans (shows.perm.append_right extra)
  cases place with
  | whole e => exact absurd shows.name_eq inner
  | @child focus child name attrs front back inside =>
    refine ⟨shows.name_eq, ?_, perm⟩
    -- the children look the same from outside
    have noRefs := shows.noRefs
    have kept : (focus.put new).name = child.name := name_eq_of_tag (inside.tag_put sameTag)
    simp only [elements_mk_append, elements_mk_cons, List.forall_mem_append,
      List.forall_mem_cons] at noRefs
    simp only [Focus.within, elements_mk_append, elements_mk_cons, List.forall_mem_append,
      List.forall_mem_cons, kept]
    exact noRefs

theorem addEntry (shows : product.Shows seen) {sequence : Sequence} {entry : Element}
    (silent : entry.Silent) : (product.addEntry sequence entry).Shows seen := by
  rw [Element.addEntry, focusNamed, focusChildOr, Focus.modify]
  have other : Choice.name sequence ∉ ["Product", "Feature", "Merge", "MergeRef"] := by
    cases sequence <;> decide
  simp only [List.mem_cons, List.not_mem_nil, or_false, not_or] at other
  cases found : product.focusChild? fun child => child.name == Choice.name sequence with
  | some focus =>
    obtain ⟨place, isSequence⟩ := isPlace_of_focusChild? found
    have name : focus.node.name = Choice.name sequence := by simpa using isSequence
    have same : (focus.node.add entry).survey sights = focus.node.survey sights ++ [] := by
      rw [survey_add (name ▸ other.2.1) silent.name_ne, silent.survey_eq_nil]
    have kept : (focus.put (focus.node.add entry)).Shows (seen ++ []) :=
      shows.put place (name ▸ other.1) rfl (.of_eq same)
    rwa [List.append_nil] at kept
  | none =>
    have new : Silent (({ name := Choice.name sequence } : Element).add entry) := by
      rw [Silent, only_add, only_mk_nil]
      exact ⟨by simp [other], silent⟩
    exact shows.addSilent (List.forall_mem_singleton.mpr new)

theorem addActions (shows : product.Shows seen) {actions : ActionElements}
    (definitions : ∀ x ∈ actions.definitions, x.Silent)
    (entries : ∀ entry ∈ actions.entries, entry.2.Silent) :
    (product.addActions actions).Shows seen := by
  have kept : ∀ (list : List (Sequence × Element)), (∀ entry ∈ list, entry.2.Silent) →
      ∀ {product : Element}, product.Shows seen →
        (list.foldl (fun product entry => product.addEntry entry.1 entry.2) product).Shows
          seen := by
    intro list silent
    induction list with
    | nil => exact fun shows => shows
    | cons entry rest ih =>
      rw [List.forall_mem_cons] at silent
      exact fun shows => ih silent.2 (shows.addEntry silent.1)
  exact kept _ entries (shows.addSilent definitions)

theorem reorder (shows : product.Shows seen) : (Product.reorder product).Shows seen :=
  shows.of_children ((name_reorder product).trans shows.name_eq) (perm_elements_reorder product)

end Shows

end Markup.Element

/-! ## Wiring -/

namespace Project

variable {project : Project} {product result : Element}

def featureFor? (project : Project) : Option String → Option Feature
  | none => some project.defaultFeature
  | some name => project.feature? name

/-- The reference to a merge module with the line in a ledger. -/
def linkOf (project : Project) (line : String × Option String) : MergeLink :=
  ⟨"Feature", (project.featureFor? line.2).map Feature.effectiveId, some line.1⟩

def KeepsFeatureIds (project : Project) : Prop :=
  ∀ feature ∈ project.allFeatures, ∀ pair ∈ feature.attributes.pairs, pair.1 ≠ "Id"

theorem featureFor?_mem {feature : Option String} {holder : Feature}
    (found : project.featureFor? feature = some holder) : holder ∈ project.allFeatures := by
  cases feature with
  | none =>
    cases found
    exact List.mem_cons_self ..
  | some name => exact (mem_of_feature? found).1

theorem id?_element {feature : Feature}
    (kept : ∀ pair ∈ feature.attributes.pairs, pair.1 ≠ "Id") :
    feature.element.id? = some feature.effectiveId := by
  rw [id?, Feature.element]
  have later : ∀ (e : Element) (name : String) (value : Option String), "Id" ≠ name →
      (e.attr? name value).attrOf? "Id" = e.attrOf? "Id" := by
    intro e name value other
    cases value with
    | none => rfl
    | some value => exact attrOf?_attr_of_ne e other value
  have start : ∀ (e : Element) (children : List Element),
      (e.addAll children).attrOf? "Id" = e.attrOf? "Id" := fun _ _ => rfl
  rw [start, later _ _ _ (by decide), later _ _ _ (by decide), attrOf?_withAttrs _ kept]
  rfl

theorem addMergeRef_eq {place : Focus Element} {featureId : String} (moduleId : String)
    (found : product.focusById? "Feature" featureId = some place) :
    addMergeRef product featureId moduleId = place.put (place.node.add (mergeRef moduleId)) := by
  rw [addMergeRef, found]
  rfl

/-- A module is referred to from an element with the id of its feature.  If there is none, that of
the feature is added. -/
theorem wireMergeModule_cases {moduleId : String} {feature : Option String}
    (kept : project.KeepsFeatureIds)
    (wired : project.wireMergeModule product moduleId feature = .ok result) :
    ∃ holder, project.featureFor? feature = some holder ∧
      ((∃ place, product.focusById? "Feature" holder.effectiveId = some place ∧
          result = place.put (place.node.add (mergeRef moduleId))) ∨
        result = product.add (holder.element.add (mergeRef moduleId))) := by
  cases feature with
  | none =>
    -- the default feature must be in the product, and other features are put into it when missing
    refine ⟨project.defaultFeature, rfl, .inl ?_⟩
    simp only [wireMergeModule] at wired
    split at wired
    next there =>
      cases wired
      rw [← isSome_focusById?, Option.isSome_iff_exists] at there
      obtain ⟨place, found⟩ := there
      exact ⟨place, found, addMergeRef_eq moduleId found⟩
    next => cases wired
  | some name =>
    simp only [wireMergeModule] at wired
    split at wired
    next => cases wired
    next holder found =>
      cases wired
      refine ⟨holder, found, ?_⟩
      rw [withFeature, ← isSome_focusById?]
      cases search : product.focusById? "Feature" holder.effectiveId with
      | some place => exact .inl ⟨place, rfl, addMergeRef_eq moduleId search⟩
      | none =>
        have identified := id?_element (kept holder (mem_of_feature? found).1)
        have added := focus?_add_of_eq_none search
          (hasNameAndId_eq_true.mpr ⟨holder.name_element, identified⟩)
        exact .inr (addMergeRef_eq moduleId added)

end Project

namespace Markup.Element.Shows

variable {project : Project} {product result : Element} {seen : List Sight}

/-- Wiring a module shows one reference more, in an element with the id of the module's feature. -/
theorem wireMergeModule (shows : product.Shows seen) (full : ∀ id, .bare id ∉ seen)
    (kept : project.KeepsFeatureIds) {moduleId : String} {feature : Option String}
    (wired : project.wireMergeModule product moduleId feature = .ok result) :
    (project.featureFor? feature).isSome = true ∧
      result.Shows (seen ++ [.link (project.linkOf (moduleId, feature))]) := by
  obtain ⟨holder, belongs, change⟩ := project.wireMergeModule_cases kept wired
  refine ⟨by simp [belongs], ?_⟩
  rw [Project.linkOf, belongs, Option.map_some]
  rcases change with ⟨place, found, rfl⟩ | rfl
  · obtain ⟨isPlace, here⟩ := isPlace_of_focus? found
    obtain ⟨name, identified⟩ := hasNameAndId_eq_true.mp here
    refine shows.put isPlace (by simp [name]) rfl
      (perm_survey_add_mergeRef name identified (fun id bare => full id ?_) moduleId)
    exact shows.perm.mem_iff.mp (isPlace.mem_survey bare)
  · have identified := Project.id?_element (kept holder (Project.featureFor?_mem belongs))
    have leaf : ∀ x ∈ holder.element.elements, x.Silent := by
      intro x mem
      obtain ⟨leaf, name⟩ := holder.elements_element x mem
      rw [Silent, only_iff, leaf, name]
      exact ⟨by decide, by simp⟩
    have new : (holder.element.add (mergeRef moduleId)).survey sights =
        [.link ⟨"Feature", some holder.effectiveId, some moduleId⟩] := by
      rw [survey_add_mergeRef holder.name_element identified,
        filterMap_linkIn?_eq_nil fun x mem => (leaf x mem).name_ne, flatMap_survey_of_silent leaf]
      rfl
    have noRef : ∀ x ∈ [holder.element.add (mergeRef moduleId)], x.name ≠ "MergeRef" := by
      simp [holder.name_element]
    have added := shows.addAll noRef
    rwa [List.flatMap_singleton, new] at added

/-- Wiring all modules shows one reference for each. -/
theorem wireMergeModules (shows : product.Shows seen) (full : ∀ id, .bare id ∉ seen)
    (kept : project.KeepsFeatureIds) {ledger : Ledger}
    (wired : project.wireMergeModules ledger product = .ok result) :
    (∀ line ∈ ledger.mergeModules, (project.featureFor? line.2).isSome = true) ∧
      result.Shows (seen ++ ledger.mergeModules.map fun line => .link (project.linkOf line)) := by
  rw [Project.wireMergeModules] at wired
  generalize ledger.mergeModules = lines at wired
  induction lines generalizing product seen with
  | nil =>
    cases wired
    exact ⟨by simp, by rwa [List.map_nil, List.append_nil]⟩
  | cons line rest ih =>
    rw [List.foldlM_cons] at wired
    cases first : project.wireMergeModule product line.1 line.2 with
    | error fault =>
      rw [first] at wired
      cases wired
    | ok next =>
      rw [first] at wired
      obtain ⟨here, shows'⟩ := shows.wireMergeModule full kept first
      obtain ⟨later, shows''⟩ := ih shows' (by simpa using full) wired
      rw [List.append_assoc] at shows''
      exact ⟨List.forall_mem_cons.mpr ⟨here, later⟩, shows''⟩

end Markup.Element.Shows

end Installer
