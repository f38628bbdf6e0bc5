import Installer.Markup.Focus
import Installer.Source.Compilation
import Installer.Source.Ledger

/-! # Features in the source document

A feature is retained when it has components. Retained features are nested as their parents say; a
parent that is not retained gives way to its own parent. Parents are names, so they may lead in a
circle: of each circle the first feature is put on the top level.
-/

namespace Installer

open Markup (Element)

def Feature.element (feature : Feature) : Element :=
  let titled : Element :=
    { name := "Feature"
      attrs :=
        [("Id", feature.effectiveId), ("Title", feature.name),
         ("Absent", if feature.allowChange then "allow" else "disallow"),
         ("Level", if feature.isEnabled then "1" else "2")] }
  let described := (titled.withAttrs feature.attributes.pairs).attr? "Description"
    (if feature.description.isEmpty then none else some feature.description)
  let condition := feature.condition.toList.map fun condition =>
    ({ name := "Condition", attrs := [("Level", toString condition.level)] : Element }).addCData
      condition.text
  (described.attr? "ConfigurableDirectory" feature.configurableDir).addAll condition

/-! ## Retained features -/

/-- A feature with the ids of its components. -/
structure RetainedFeature where
  feature : Feature
  components : List String

def RetainedFeature.element (retained : RetainedFeature) : Element :=
  retained.feature.element.addAll <| retained.components.map fun id =>
    { name := "ComponentRef", attrs := [("Id", id)] }

namespace Project

/-- The components of a feature: those declared for it and, for the default feature, those declared
for none. -/
def componentsFor (project : Project) (ledger : Ledger) (feature : Feature) : List String :=
  ledger.componentsOf (some feature.name) ++
    if feature.name = project.defaultFeature.name then ledger.componentsOf none else []

/-- The features with components, the default feature first. -/
def retainedFeatures (project : Project) (ledger : Ledger) : List RetainedFeature :=
  (project.allFeatures.map fun feature =>
    ⟨feature, project.componentsFor ledger feature⟩).filter fun retained =>
      !retained.components.isEmpty

/-! ## Parents -/

/-- The position among `names` of the first feature on the way up from `parent`, if one is there. A
name that was `visited` before ends the way, as does a name that no feature has. -/
def nearestFrom (project : Project) (names : List String) :
    Nat → List String → Option String → Option Nat
  | 0, _, _ | _, _, none => none
  | fuel + 1, visited, some name =>
    if visited.contains name then none
    else
      match names.idxOf? name with
      | some i => some i
      | none =>
        nearestFrom project names fuel (name :: visited) ((project.feature? name).bind (·.parent))

/-- The position among `names` of the nearest feature above a feature. Every name on the way but the
last is that of another feature, which bounds the way. -/
def nearest? (project : Project) (names : List String) (feature : Feature) : Option Nat :=
  nearestFrom project names (project.features.length + 2) [feature.name] feature.parent

end Project

/-! ## The forest -/

/-- A forest on the numbers below the length of the list: each with its parent, if it has one. -/
abbrev Parents : Type :=
  List (Option Nat)

namespace Parents

def parent? (parents : Parents) (i : Nat) : Option Nat :=
  (parents[i]?).join

/-- The way up from `node` comes by `target` within so many steps. -/
def comesBy (parents : Parents) (target : Nat) : Nat → Option Nat → Bool
  | 0, _ | _, none => false
  | steps + 1, some i => i == target || comesBy parents target steps (parents.parent? i)

/-- The node is above itself. -/
def isOnCycle (parents : Parents) (i : Nat) : Bool :=
  parents.comesBy i parents.length (parents.parent? i)

def cutAt (parents : Parents) (i : Nat) : Parents :=
  if parents.isOnCycle i then parents.set i none else parents

/-- Cuts every cycle at its first node. -/
def cutCycles (parents : Parents) : Parents :=
  (List.range parents.length).foldl cutAt parents

/-- The nodes with the given parent. -/
def childrenOf (parents : Parents) (parent : Option Nat) : List Nat :=
  (List.range parents.length).filter fun i => parents.parent? i == parent

/-- The element of a node with those of all nodes below it, which go down at most `depth` levels. -/
def nested (parents : Parents) (elements : List Element) : Nat → Nat → List Element
  | 0, _ => []
  | depth + 1, i =>
    (elements[i]?).toList.map fun e =>
      e.addAll ((parents.childrenOf (some i)).flatMap (nested parents elements depth))

def forest (parents : Parents) (elements : List Element) : List Element :=
  (parents.childrenOf none).flatMap (parents.nested elements parents.length)

end Parents

def Project.featureElements (project : Project) (ledger : Ledger) : List Element :=
  let retained := project.retainedFeatures ledger
  let names := retained.map fun r => r.feature.name
  let parents : Parents := retained.map fun r => project.nearest? names r.feature
  parents.cutCycles.forest (retained.map RetainedFeature.element)

/-! ## Merge modules -/

namespace Project

/-- The product with the element of a feature in it, which is added if it is not there. -/
def withFeature (product : Element) (feature : Feature) : Element :=
  if (product.findById? "Feature" feature.effectiveId).isSome then product
  else product.add feature.element

/-- The product with a reference to a merge module in the element of a feature. -/
def addMergeRef (product : Element) (featureId moduleId : String) : Element :=
  match product.focusById? "Feature" featureId with
  | some place => place.modify (·.add { name := "MergeRef", attrs := [("Id", moduleId)] })
  | none => product

/-- Refers to a merge module from its feature. The default feature must be there for a module
without a feature of its own; another feature is added when it is not there. -/
def wireMergeModule (project : Project) (product : Element) (moduleId : String)
    (feature : Option String) : Except CompileError Element :=
  match feature with
  | none =>
    let id := project.defaultFeature.effectiveId
    if (product.findById? "Feature" id).isSome then .ok (addMergeRef product id moduleId)
    else .error (.mergeModuleWithoutFeature moduleId project.defaultFeature.name)
  | some name =>
    match project.feature? name with
    | none => .error (.unknownFeature ("merge module '" ++ moduleId ++ "'") name)
    | some declared =>
      .ok (addMergeRef (withFeature product declared) declared.effectiveId moduleId)

/-- Refers to every merge module of the ledger from its feature. -/
def wireMergeModules (project : Project) (ledger : Ledger) (product : Element) :
    Except CompileError Element :=
  ledger.mergeModules.foldlM (fun product entry => project.wireMergeModule product entry.1 entry.2)
    product

end Project

end Installer
