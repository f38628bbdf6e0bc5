import Installer.Proofs.Component.Entity
import Installer.Proofs.Product.Children
import Installer.Proofs.Product.Document

/-! # The pieces of a product

A product is put together from pieces, each of which one step of the compilation gives.  Whatever
happens to the product afterwards, in the end its children are those pieces, features, and the
tables of the sequences.
-/

namespace Installer

open Markup (Element Focus Node)
open Markup.Element
open Emit

namespace Markup.Element

theorem filter_name_eq_nil {elements : List Element} {name : String}
    (other : ∀ x ∈ elements, x.name ≠ name) : elements.filter (fun x => x.name == name) = [] :=
  List.filter_eq_nil_iff.mpr fun x mem => by simpa using other x mem

/-! ## Elements that are in no sequence -/

theorem IsTreePart.unscheduled {e : Element} (part : e.IsTreePart) : e.Unscheduled :=
  Everywhere.mono part fun _ word =>
    (by decide : ∀ w ∈ Dir.words, w ∉ "Custom" :: Sequence.names) _ word

theorem IsPart.unscheduled {e : Element} (part : e.IsPart) : e.Unscheduled :=
  Everywhere.mono part fun _ word =>
    (by decide : ∀ w ∈ partWords, w ∉ "Custom" :: Sequence.names) _ word

theorem IsBasicPart.unscheduled {e : Element} (basic : e.IsBasicPart) : e.Unscheduled :=
  basic.isPart.unscheduled

theorem IsEntity.unscheduled {e : Element} (entity : e.IsEntity) : e.Unscheduled :=
  Everywhere.mono entity fun _ word =>
    (by decide : ∀ w ∈ entityWords, w ∉ "Custom" :: Sequence.names) _ word

theorem IsEntityComponent.unscheduled {e : Element} (component : e.IsEntityComponent) :
    e.Unscheduled := by
  refine only_iff.mpr ⟨component.name_eq ▸ by decide, fun child mem => ?_⟩
  exact Everywhere.mono (component.words child mem) fun _ word =>
    (by decide : ∀ w ∈ "Condition" :: entityWords, w ∉ "Custom" :: Sequence.names) _ word

namespace HasChildren

variable {e : Element} {parts : List Element} {entries : List (Sequence × Element)}

theorem addParts (has : e.HasChildren parts entries) {children : List Element}
    (areParts : ∀ x ∈ children, x.IsPart) :
    (e.addAll children).HasChildren (parts ++ children) entries :=
  has.addAll (fun x mem => (areParts x mem).unscheduled)
    fun x mem _ => (areParts x mem).plain.only "Feature" (by decide)

theorem addBasicParts (has : e.HasChildren parts entries) {children : List Element}
    (basic : ∀ x ∈ children, x.IsBasicPart) :
    (e.addAll children).HasChildren (parts ++ children) entries :=
  has.addParts fun x mem => (basic x mem).isPart

theorem addPartActions (has : e.HasChildren parts entries) {actions : ActionElements}
    (areParts : actions.AreParts) :
    (e.addActions actions).HasChildren (parts ++ actions.definitions)
      (entries ++ actions.entries) :=
  has.addActions (fun x mem => (areParts.definitions x mem).unscheduled)
    (fun x mem _ => (areParts.definitions x mem).plain.only "Feature" (by decide))
    fun entry mem => (areParts.entries entry mem).only "Feature" (by decide)

end HasChildren

/-! ## The directory of standalone components -/

theorem node_installRootIn? (nodes : List (Node Element)) :
    (installRootIn? nodes).map Focus.node =
      ((nodes.filterMap Node.element?).find? fun x => x.name == "Directory").map fun d =>
        d.installRoot.node := by
  induction nodes with
  | nil => rfl
  | cons node rest ih =>
    have later : ∀ f : List (Node Element) → List (Node Element),
        ((installRootIn? rest).map (·.within f)).map Focus.node =
          (installRootIn? rest).map Focus.node := fun f => by
      rw [Option.map_map]
      rfl
    cases node with
    | element child =>
      rw [installRootIn?]
      cases directory : child.name == "Directory" with
      | true => simp [Node.element?, directory, Focus.within]
      | false => simp [Node.element?, directory, later, ih]
    | text _ | cdata _ =>
      rw [installRootIn?, later, ih]
      rfl

theorem installRootId?_eq (product : Element) :
    product.installRootId? =
      (product.child? "Directory").bind fun root => root.installRoot.node.id? := by
  have nodes := node_installRootIn? product.children
  rw [installRootId?, child?, elements]
  cases found : (product.children.filterMap Node.element?).find? fun x => x.name == "Directory" with
  | none =>
    rw [found, Option.map_none, Option.map_eq_none_iff] at nodes
    rw [nodes]
    rfl
  | some root =>
    rw [found, Option.map_some, Option.map_eq_some_iff] at nodes
    obtain ⟨focus, among, same⟩ := nodes
    rw [among, Option.bind_some, Option.bind_some, same]

end Markup.Element

namespace Compilation

variable {c : Compilation} {before after : Ledger}

/-! ## Pieces -/

/-- What the steps of a compilation give for its product. -/
structure Pieces where
  standalone : StandaloneElements
  properties : List Element
  actions : ActionElements
  binaries : List Element
  dialogs : List Element
  environment : List Element

def upgradeElements (c : Compilation) : ActionElements :=
  match c.project.upgradeStrategy with
  | none => {}
  | some strategy => strategy.elements c

/-- The id of the directory of standalone components when they are in it. -/
def homeId? (c : Compilation) (components : List Element) : Option String :=
  (c.root components).installRoot.node.id?

namespace Pieces

def parts (c : Compilation) (pieces : Pieces) : List Element :=
  c.project.launchConditions.map LaunchCondition.element ++
    c.root pieces.standalone.components :: pieces.standalone.declarations ++ pieces.properties ++
      pieces.actions.definitions ++ pieces.binaries ++ pieces.dialogs ++ pieces.environment ++
        c.upgradeElements.definitions

def entries (c : Compilation) (pieces : Pieces) : List (Sequence × Element) :=
  pieces.actions.entries ++ c.upgradeElements.entries

/-- Each piece is given by its step of the compilation, which begins with the tree at `start`.  The
ids of a kind are as they are there when the step comes that gives them. -/
structure AreGiven (c : Compilation) (start : Ledger) (pieces : Pieces) : Prop where
  tree : ∃ after, (Dir.emitTree c).Gives start c.tree after
  drawsStandalone : ∃ before after, c.emitStandalone.Gives before pieces.standalone after ∧
    ∀ kind, start.SameIds kind before
  properties : ∃ before after,
    (c.project.properties.mapM Property.emit).Gives before pieces.properties after
  drawsActions : ∃ before after, (CustomAction.emitAll c).Gives before pieces.actions after ∧
    start.SameIds .action before
  drawsBinaries : ∃ before after,
    (c.project.binaries.mapM (Binary.emit c)).Gives before pieces.binaries after ∧
      start.SameIds .binary before
  dialogs : ∃ before after,
    (c.emitInterface (c.homeId? pieces.standalone.components)).Gives before pieces.dialogs after
  environment : c.variableElements = .ok pieces.environment

namespace AreGiven

variable {pieces : Pieces} (given : pieces.AreGiven c before)
include given

theorem standalone : ∃ before after, c.emitStandalone.Gives before pieces.standalone after := by
  obtain ⟨before, after, steps, -⟩ := given.drawsStandalone
  exact ⟨before, after, steps⟩

theorem actions : ∃ before after, (CustomAction.emitAll c).Gives before pieces.actions after := by
  obtain ⟨before, after, steps, -⟩ := given.drawsActions
  exact ⟨before, after, steps⟩

theorem binaries : ∃ before after,
    (c.project.binaries.mapM (Binary.emit c)).Gives before pieces.binaries after := by
  obtain ⟨before, after, steps, -⟩ := given.drawsBinaries
  exact ⟨before, after, steps⟩

theorem areEntities : pieces.standalone.AreEntities := by
  obtain ⟨_, _, steps⟩ := given.standalone
  exact areEntities_of_emitStandalone steps

theorem name_root : (c.root pieces.standalone.components).name = "Directory" := by
  obtain ⟨_, _, steps⟩ := given.standalone
  exact name_eq_of_tag (tag_root (gives_emitStandalone steps).1.made)

theorem filter_declarations {word : String} (other : word ∉ entityWords) :
    pieces.standalone.declarations.filter (fun x => x.name == word) = [] :=
  filter_name_eq_nil fun x mem same =>
    other (same ▸ (given.areEntities.declarations x mem).name_mem)

/-- Launch conditions and directories aside, the pieces of a name are from the other steps. -/
theorem filter_parts {word : String} (other : word ∉ ["Condition", "Directory"]) :
    (pieces.parts c).filter (fun x => x.name == word) =
      (pieces.standalone.declarations ++ pieces.properties ++ pieces.actions.definitions ++
        pieces.binaries ++ pieces.dialogs ++ pieces.environment ++
          c.upgradeElements.definitions).filter fun x => x.name == word := by
  have conditions : ∀ x ∈ c.project.launchConditions.map LaunchCondition.element,
      x.name ≠ word := List.forall_mem_map.mpr fun condition _ same =>
    other (by simp [← same, LaunchCondition.element, addCData])
  have root : ¬ (c.root pieces.standalone.components).name = word := fun same =>
    other (by simp [← same, given.name_root])
  simp only [parts, List.filter_append, List.filter_cons, filter_name_eq_nil conditions,
    beq_iff_eq, root, if_false, List.nil_append]

end AreGiven

end Pieces

/-! ## What is in no sequence -/

theorem featureless_of_plain {children : List Element} (plain : ∀ x ∈ children, Plain x) :
    ∀ x ∈ children, x.name ≠ "Feature" → Only (· ≠ "Feature") x :=
  fun x mem _ => (plain x mem).only "Feature" (by decide)

theorem unscheduled_root {components : List Element}
    (entities : ∀ x ∈ components, x.IsEntityComponent) : (c.root components).Unscheduled := by
  have tree : c.tree.Unscheduled := (isTreePart_tree c).unscheduled
  have place : c.tree.installRoot.IsPlace c.tree := isPlace_installRoot c.tree
  exact place.only tree (only_addAll.mpr
    ⟨place.only_node tree, fun x mem => (entities x mem).unscheduled⟩)

theorem hasChildren_productElement (c : Compilation) : c.productElement.HasChildren [] [] := by
  have elements : c.productElement.elements = [c.packageElement, c.mediaElement] := by
    simp [productElement]
  have named : ∀ x ∈ c.productElement.elements, x.name ∈ changingNames ∧ x.IsBasicPart := by
    simp only [elements, List.forall_mem_cons]
    exact ⟨⟨by simp [packageElement, changingNames], isBasicPart_package c⟩,
      ⟨by simp [mediaElement, changingNames], isBasicPart_media c⟩, by simp⟩
  have none : ∀ name ∉ changingNames, c.productElement.elementsNamed name = [] := by
    intro name other
    refine List.filter_eq_nil_iff.mpr fun x mem same => other ?_
    rw [← eq_of_beq same]
    exact (named x mem).1
  exact {
    name_mem := by simp [productElement]
    named := fun name kept => none name fun mem => kept (List.mem_append_left _ mem)
    tables := fun sequence => none _ (by cases sequence <;> decide)
    unscheduled := fun x mem _ => (named x mem).2.unscheduled
    featureless := featureless_of_plain fun x mem => (named x mem).2.plain }

/-! ## The whole product -/

theorem hasChildren_of_emitInstalled {product : Element} (fresh : before.locations = [])
    (given : c.emitInstalled.Gives before product after) :
    ∃ standalone between, (Dir.emitTree c).Gives before c.tree between ∧
      c.emitStandalone.Gives between standalone after ∧
      product.HasChildren (c.project.launchConditions.map LaunchCondition.element ++
        c.root standalone.components :: standalone.declarations) [] ∧
      product.installRootId? = c.homeId? standalone.components := by
  simp only [emitInstalled, gives_bind, gives_pure] at given
  obtain ⟨tree, between, treeSteps, standalone, _, standaloneSteps, rfl, rfl⟩ := given
  obtain ⟨rfl, -, -⟩ := Dir.gives_emitTree fresh treeSteps
  obtain ⟨areFor, -⟩ := gives_emitStandalone standaloneSteps
  have entities := areEntities_of_emitStandalone standaloneSteps
  have conditions : ∀ x ∈ c.project.launchConditions.map LaunchCondition.element, x.IsBasicPart :=
    List.forall_mem_map.mpr fun condition _ => isBasicPart_launchCondition condition
  have start := (hasChildren_productElement c).addAll
    (fun x mem => (conditions x mem).unscheduled)
    (featureless_of_plain fun x mem => (conditions x mem).plain)
  have filled : HasChildren _ (c.project.launchConditions.map LaunchCondition.element ++
      c.root standalone.components :: standalone.declarations) [] :=
    start.addAll
      (List.forall_mem_cons.mpr ⟨unscheduled_root entities.components,
        fun x mem => (entities.declarations x mem).unscheduled⟩)
      (List.forall_mem_cons.mpr ⟨fun _ => noFeature_root areFor.made,
        featureless_of_plain areFor.plain⟩)
  refine ⟨standalone, between, treeSteps, standaloneSteps, filled, ?_⟩
  -- the root is the first directory among the parts
  have directory : (c.root standalone.components).name = "Directory" :=
    name_eq_of_tag (tag_root areFor.made)
  have others : (c.project.launchConditions.map LaunchCondition.element).filter
      (fun x => x.name == "Directory") = [] :=
    List.filter_eq_nil_iff.mpr fun x mem => by
      simpa using ((conditions x mem).plain.only "Directory" (by decide)).here
  have found := filled.named "Directory" (by decide)
  rw [List.filter_append, others, List.nil_append,
    List.filter_cons_of_pos (by simpa using directory)] at found
  rw [installRootId?_eq, child?, ← List.head?_filter]
  exact congrArg (fun roots => roots.head?.bind fun d => d.installRoot.node.id?) found

theorem hasChildren_of_emitFilled {product : Element} (fresh : before.locations = [])
    (given : c.emitFilled.Gives before product after) :
    ∃ pieces : Pieces, pieces.AreGiven c before ∧
      product.HasChildren (c.project.launchConditions.map LaunchCondition.element ++
        c.root pieces.standalone.components :: pieces.standalone.declarations ++
          pieces.properties ++ pieces.actions.definitions ++ pieces.binaries ++ pieces.dialogs ++
            pieces.environment) pieces.actions.entries := by
  simp only [emitFilled, gives_bind] at given
  obtain ⟨installed, _, installSteps, fillSteps⟩ := given
  obtain ⟨standalone, _, treeSteps, standaloneSteps, start, home⟩ :=
    hasChildren_of_emitInstalled fresh installSteps
  obtain ⟨filling, given, parts, rfl, -, draws⟩ := gives_emitFilledWith fillSteps
  rw [home] at given
  obtain ⟨_, _, actionSteps, ownActions⟩ := draws.actions
  obtain ⟨_, _, binarySteps, ownBinaries⟩ := draws.binaries
  have areGiven : Pieces.AreGiven c before ⟨standalone, filling.properties, filling.actions,
      filling.binaries, filling.dialogs, filling.environment⟩ := {
    tree := ⟨_, treeSteps⟩
    drawsStandalone := ⟨_, _, standaloneSteps, fun _ => Dir.keepsIds_emitTree _ _ _ treeSteps⟩
    properties := given.properties
    drawsActions := ⟨_, _, actionSteps,
      (keepsIds_emitInstalled (by decide) _ _ _ installSteps).trans ownActions⟩
    drawsBinaries := ⟨_, _, binarySteps,
      (keepsIds_emitInstalled (by decide) _ _ _ installSteps).trans ownBinaries⟩
    dialogs := given.dialogs
    environment := given.environment }
  refine ⟨_, areGiven, ?_⟩
  have withActions := (start.addBasicParts parts.properties).addPartActions parts.actions
  have withFeatures := (withActions.addBasicParts parts.binaries).addFeatures
    (c.project.only_featureElements after (by decide)) (c.project.name_featureElements after)
  exact (withFeatures.addParts parts.dialogs).addBasicParts parts.environment

theorem hasChildren_withUpgrade {product : Element} {parts : List Element}
    {entries : List (Sequence × Element)} (has : product.HasChildren parts entries) :
    (c.withUpgrade product).HasChildren (parts ++ c.upgradeElements.definitions)
      (entries ++ c.upgradeElements.entries) := by
  rw [withUpgrade, upgradeElements]
  cases c.project.upgradeStrategy with
  | none => simpa using has
  | some strategy => exact has.addPartActions strategy.areParts_elements

/-- The pieces of a product make its children, and so they do when it becomes a merge module. -/
theorem hasChildren_of_emitProduct {product : Element} (fresh : before.locations = [])
    (given : c.emitProduct.Gives before product after) :
    ∃ pieces : Pieces, pieces.AreGiven c before ∧
      product.HasChildren (pieces.parts c) (pieces.entries c) := by
  obtain ⟨filled, wired, filledSteps, wiring, rfl⟩ := gives_emitProduct_iff.mp given
  obtain ⟨pieces, areGiven, has⟩ := hasChildren_of_emitFilled fresh filledSteps
  exact ⟨pieces, areGiven, hasChildren_withUpgrade (has.wireMergeModules wiring)⟩

/-- The document has one child, a product or a merge module, which is put together from pieces. -/
theorem hasChildren_of_emitDocument {document : Element} (fresh : before.locations = [])
    (given : c.emitDocument.Gives before document after) :
    ∃ (package : Element) (pieces : Pieces), document.elements = [package] ∧
      pieces.AreGiven c before ∧ package.HasChildren (pieces.parts c) (pieces.entries c) := by
  simp only [emitDocument, gives_bind, gives_get, gives_pure] at given
  obtain ⟨product, _, productSteps, _, _, ⟨rfl, rfl⟩, rfl, rfl⟩ := given
  obtain ⟨pieces, areGiven, has⟩ := hasChildren_of_emitProduct fresh productSteps
  have single : ∀ package : Element, ∀ extensions,
      ((rootElement extensions).add package).elements = [package] := by
    simp [rootElement]
  refine ⟨_, pieces, single _ _, areGiven, ?_⟩
  split
  next => exact has.reorder
  next => exact has.reorder.moduleElement c

end Compilation

end Installer
