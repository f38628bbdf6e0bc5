import Installer.Proofs.Action.Schedule
import Installer.Proofs.Product.Lasting
import Installer.Proofs.Product.Pieces

/-! # What goes into a product

A product is filled from a few sources.  If all of them supply elements with a lasting property, the
property holds everywhere in the product, whatever is done to it later.  So directories and
standalone entities apart, few element names occur in a package.
-/

namespace Installer

open Markup (Element)
open Markup.Element
open Emit

/-- All definitions and entries have the property. -/
structure ActionElements.Each (p : Element → Prop) (elements : ActionElements) : Prop where
  definitions : ∀ x ∈ elements.definitions, p x
  entries : ∀ entry ∈ elements.entries, p entry.2

namespace ActionElements.Each

variable {p : Element → Prop} {elements₁ elements₂ : ActionElements}

theorem nil : ActionElements.Each p {} :=
  ⟨nofun, nofun⟩

theorem append (first : elements₁.Each p) (second : elements₂.Each p) :
    (elements₁ ++ elements₂).Each p :=
  ⟨List.forall_mem_append.mpr ⟨first.definitions, second.definitions⟩,
    List.forall_mem_append.mpr ⟨first.entries, second.entries⟩⟩

end ActionElements.Each

/-- The property holds everywhere in all entries, and in all definitions whose names are watched. -/
structure ActionElements.Supplied (watched : String → Prop) (p : Element → Prop)
    (elements : ActionElements) : Prop where
  definitions : ∀ x ∈ elements.definitions, watched x.name → Everywhere p x
  entries : ∀ entry ∈ elements.entries, Everywhere p entry.2

theorem ActionElements.Each.supplied {watched : String → Prop} {p : Element → Prop}
    {elements : ActionElements} (each : elements.Each (Everywhere p)) :
    elements.Supplied watched p :=
  ⟨fun x mem _ => each.definitions x mem, each.entries⟩

namespace Compilation

variable {c : Compilation} {before after : Ledger}

/-- All that a product is filled with has the property. -/
structure Filling.Each (p : Element → Prop) (filling : Filling) : Prop where
  properties : ∀ x ∈ filling.properties, p x
  actions : filling.actions.Each p
  binaries : ∀ x ∈ filling.binaries, p x
  dialogs : ∀ x ∈ filling.dialogs, p x
  environment : ∀ x ∈ filling.environment, p x

/-- The property holds everywhere in what a product is filled with, names apart that are not
watched. -/
structure Filling.Supplied (watched : String → Prop) (p : Element → Prop) (filling : Filling) :
    Prop where
  properties : ∀ x ∈ filling.properties, watched x.name → Everywhere p x
  actions : filling.actions.Supplied watched p
  binaries : ∀ x ∈ filling.binaries, watched x.name → Everywhere p x
  dialogs : ∀ x ∈ filling.dialogs, watched x.name → Everywhere p x
  environment : ∀ x ∈ filling.environment, watched x.name → Everywhere p x

theorem Filling.Each.supplied {watched : String → Prop} {p : Element → Prop} {filling : Filling}
    (each : filling.Each (Everywhere p)) : filling.Supplied watched p where
  properties x mem _ := each.properties x mem
  actions := each.actions.supplied
  binaries x mem _ := each.binaries x mem
  dialogs x mem _ := each.dialogs x mem
  environment x mem _ := each.environment x mem

/-- Everything that goes into the product has the property, children apart whose names are not
watched. -/
structure Supplies (c : Compilation) (watched : String → Prop) (p : Element → Prop) : Prop where
  lasting : Lasting p
  product : c.productElement.Keeps watched p
  conditions : ∀ condition ∈ c.project.launchConditions, Everywhere p condition.element
  installed : ∀ {before standalone after}, c.emitStandalone.Gives before standalone after →
    ∀ x ∈ c.root standalone.components :: standalone.declarations,
      watched x.name → Everywhere p x
  filling : ∀ {rootId} {filling : Filling}, filling.IsGiven c rootId → filling.Supplied watched p
  upgrades : c.upgradeElements.Supplied watched p
  features : ∀ ledger, ∀ x ∈ c.project.featureElements ledger, Everywhere p x
  declared : ∀ name feature, c.project.feature? name = some feature → Everywhere p feature.element
  tables : ∀ sequence : Sequence, p { name := Choice.name sequence }
  references : ∀ id, p { name := "MergeRef", attrs := [("Id", id)] }
  module : ∀ rest : Element, rest.name ∈ ["Product", "Module"] → p rest →
    p { rest with name := "Module", attrs := c.moduleAttrs }
  package : ∀ x, x.name = "Package" → Everywhere p x → Everywhere p (c.modulePackage x)

namespace Supplies

variable {watched : String → Prop} {p : Element → Prop} (supplies : c.Supplies watched p)

include supplies

theorem addEach {e : Element} (keeps : e.Keeps watched p) {children : List Element}
    (each : ∀ x ∈ children, Everywhere p x) : (e.addAll children).Keeps watched p :=
  keeps.addAll supplies.lasting fun x mem _ => each x mem

theorem addActions {e : Element} (keeps : e.Keeps watched p) {actions : ActionElements}
    (supplied : actions.Supplied watched p) : (e.addActions actions).Keeps watched p :=
  keeps.addActions supplies.lasting supplies.tables supplied.definitions supplied.entries

theorem keeps_of_emitInstalled {product : Element} (fresh : before.locations = [])
    (given : c.emitInstalled.Gives before product after) : product.Keeps watched p := by
  simp only [emitInstalled, gives_bind, gives_pure] at given
  obtain ⟨tree, between, treeSteps, standalone, _, standaloneSteps, rfl, rfl⟩ := given
  obtain ⟨rfl, -, -⟩ := Dir.gives_emitTree fresh treeSteps
  exact (supplies.addEach supplies.product (List.forall_mem_map.mpr supplies.conditions)).addAll
    supplies.lasting (supplies.installed standaloneSteps)

theorem keeps_of_emitFilled {product : Element} (fresh : before.locations = [])
    (given : c.emitFilled.Gives before product after) : product.Keeps watched p := by
  simp only [emitFilled, gives_bind] at given
  obtain ⟨installed, _, installSteps, fillSteps⟩ := given
  obtain ⟨filling, isGiven, -, rfl, -⟩ := gives_emitFilledWith fillSteps
  have supplied := supplies.filling isGiven
  have lasting := supplies.lasting
  have withActions := supplies.addActions
    ((supplies.keeps_of_emitInstalled fresh installSteps).addAll lasting supplied.properties)
    supplied.actions
  have withFeatures := supplies.addEach (withActions.addAll lasting supplied.binaries)
    (supplies.features after)
  exact (withFeatures.addAll lasting supplied.dialogs).addAll lasting supplied.environment

theorem keeps_of_emitProduct {product : Element} (fresh : before.locations = [])
    (given : c.emitProduct.Gives before product after) : product.Keeps watched p := by
  obtain ⟨filled, wired, filledSteps, wiring, rfl⟩ := gives_emitProduct_iff.mp given
  have keeps := (supplies.keeps_of_emitFilled fresh filledSteps).wireMergeModules supplies.lasting
    supplies.references supplies.declared wiring
  have upgrades := supplies.addActions keeps supplies.upgrades
  rw [withUpgrade]
  rw [upgradeElements] at upgrades
  split
  next none => exact keeps
  next strategy some => simpa only [some] using upgrades

/-- The one child of the document keeps what its parts supply. -/
theorem keeps_of_emitDocument {document : Element} (fresh : before.locations = [])
    (given : c.emitDocument.Gives before document after) :
    ∃ package, document = (rootElement (Extension.ordered after.extensions)).add package ∧
      package.Keeps watched p := by
  simp only [emitDocument, gives_bind, gives_get, gives_pure] at given
  obtain ⟨product, _, productSteps, _, _, ⟨rfl, rfl⟩, rfl, rfl⟩ := given
  have keeps := (supplies.keeps_of_emitProduct fresh productSteps).reorder supplies.lasting
  refine ⟨_, rfl, ?_⟩
  split
  next => exact keeps
  next => exact keeps.moduleElement supplies.lasting supplies.module supplies.package

end Supplies

end Compilation

/-! ## The words of a package -/

/-- The names of a package and of the elements below it, directories, entities and dialogs apart. -/
def productWords : List String :=
  basicWords ++ Sequence.names ++
    ["Product", "Module", "Feature", "ComponentRef", "MergeRef", "Custom", "RemoveExistingProducts"]

/-- The names of a package and of the elements below it, directories and entities apart. -/
def packageWords : List String :=
  productWords ++ dialogWords

namespace Markup.Element

theorem IsPart.packageWords {e : Element} (part : e.IsPart) : Only (· ∈ packageWords) e :=
  Everywhere.mono part fun _ word =>
    (by decide : ∀ w ∈ partWords, w ∈ Installer.packageWords) _ word

theorem IsBasicPart.packageWords {e : Element} (basic : e.IsBasicPart) :
    Only (· ∈ packageWords) e :=
  basic.isPart.packageWords

theorem IsBasicPart.only {e : Element} {allowed : String → Prop} (basic : e.IsBasicPart)
    (words : ∀ word ∈ productWords, allowed word) : Only allowed e :=
  Everywhere.mono basic fun _ word =>
    words _ (List.mem_append_left _ (List.mem_append_left _ word))

theorem lasting_name (allowed : String → Prop) : Lasting fun e => allowed e.name where
  replace _ holds := holds
  add _ holds _ := holds
  select _ holds := holds

end Markup.Element

namespace Compilation

variable {c : Compilation} {before after : Ledger}

theorem Filling.IsGiven.areParts {rootId : Option String} {filling : Filling}
    (given : filling.IsGiven c rootId) : filling.AreParts := by
  obtain ⟨_, _, propertySteps⟩ := given.properties
  obtain ⟨_, _, actionSteps⟩ := given.actions
  obtain ⟨_, _, binarySteps⟩ := given.binaries
  obtain ⟨_, _, dialogSteps⟩ := given.dialogs
  obtain ⟨properties, -⟩ : _ ∧ Ledger.Books c.project _ _ [] [] :=
    gives_mapM_basicParts (fun _ _ _ _ => Property.gives_emit) propertySteps
  obtain ⟨actions, -⟩ : _ ∧ Ledger.Books c.project _ _ [] [] :=
    CustomAction.gives_emitAll actionSteps
  obtain ⟨binaries, -⟩ : _ ∧ Ledger.Books c.project _ _ [] [] :=
    gives_mapM_basicParts (fun _ _ _ _ => Binary.gives_emit) binarySteps
  obtain ⟨dialogs, -⟩ : _ ∧ Ledger.Books c.project _ _ [] [] := gives_emitInterface dialogSteps
  exact ⟨properties, actions, binaries, dialogs, isBasicPart_variableElements given.environment⟩

variable {allowed : String → Prop} (words : ∀ word ∈ productWords, allowed word)

include words in
theorem only_upgradeElements : c.upgradeElements.Each (Only allowed) := by
  rw [upgradeElements]
  split
  next => exact .nil
  next strategy _ =>
    refine ⟨fun x mem => (strategy.areParts_elements.definitions x mem).only words,
      fun entry mem => ?_⟩
    have custom : allowed "Custom" := words _ (by decide)
    rcases strategy.mem_entries mem with rfl | ⟨message, guard, -⟩
    · have removal : allowed "RemoveExistingProducts" := words _ (by decide)
      simpa [UpgradeStrategy.removalEntry] using removal
    · simp only [UpgradeStrategy.guardElements, List.mem_cons, List.not_mem_nil, or_false] at guard
      rcases guard with rfl | rfl <;> simpa using custom

theorem packageWords_upgradeElements : c.upgradeElements.Each (Only (· ∈ packageWords)) :=
  only_upgradeElements fun _ word => List.mem_append_left _ word

theorem only_actionEntries {elements : ActionElements} (custom : allowed "Custom")
    (given : (CustomAction.emitAll c).Gives before elements after) :
    ∀ entry ∈ elements.entries, Only allowed entry.2 := by
  obtain ⟨steps, run, -⟩ := CustomAction.isRun_of_emitAll given
  have only : ∀ id condition placement, Only allowed (customEntry id condition placement) :=
    fun id condition placement => only_iff.mpr ⟨custom, by simp [elements_customEntry]⟩
  rw [run.entries, List.forall_mem_flatMap]
  intro step _ entry mem
  rcases ActionStep.mem_entries mem with ⟨helper, -, same⟩ | same
  · rw [same]
    exact only _ _ _
  · rw [same]
    exact only _ _ _

include words in
/-- All that goes into a package is written with allowed names if directories, entities and dialogs
are. -/
theorem supplies_only {watched : String → Prop}
    (installed : ∀ {before standalone after}, c.emitStandalone.Gives before standalone after →
      ∀ x ∈ c.root standalone.components :: standalone.declarations,
        watched x.name → Only allowed x)
    (dialogs : ∀ {before rootId elements after},
      (c.emitInterface rootId).Gives before elements after → ∀ x ∈ elements, Only allowed x) :
    c.Supplies watched fun e => allowed e.name where
  lasting := lasting_name _
  product := by
    have own : allowed c.productElement.name := by
      simpa [productElement] using words "Product" (by decide)
    refine ⟨by simp [productElement], own, fun x mem _ => ?_⟩
    have among : x ∈ [c.packageElement, c.mediaElement] := by simpa [productElement] using mem
    have parts : ∀ x ∈ [c.packageElement, c.mediaElement], x.IsBasicPart := by
      simpa using ⟨isBasicPart_package c, isBasicPart_media c⟩
    exact (parts x among).only words
  conditions condition _ := (isBasicPart_launchCondition condition).only words
  installed given := installed given
  filling {_ filling} given := by
    obtain ⟨_, _, actionSteps⟩ := given.actions
    obtain ⟨_, _, dialogSteps⟩ := given.dialogs
    have parts := given.areParts
    have each : filling.Each (Only allowed) := {
      properties := fun x mem => (parts.properties x mem).only words
      actions := ⟨fun x mem => (parts.actions.definitions x mem).only words,
        only_actionEntries (words _ (by decide)) actionSteps⟩
      binaries := fun x mem => (parts.binaries x mem).only words
      dialogs := dialogs dialogSteps
      environment := fun x mem => (parts.environment x mem).only words }
    exact each.supplied
  upgrades := (only_upgradeElements words).supplied
  features ledger := c.project.only_featureElements ledger fun word mem =>
    words word ((by decide : ∀ w ∈ ["Feature", "Condition", "ComponentRef"], w ∈ productWords)
      word mem)
  declared name feature _ := by
    show Only allowed feature.element
    have own : allowed "Feature" := words _ (by decide)
    have condition : allowed "Condition" := words _ (by decide)
    simp [Feature.element, own, condition]
  tables sequence := words _ (List.mem_append_left _
    (List.mem_append_right _ sequence.name_mem_names))
  references _ := words "MergeRef" (by decide)
  module _ _ _ := words "Module" (by decide)
  package x _ only := by
    show Only allowed (c.modulePackage x)
    rw [modulePackage, only_attr?, only_attr, only_withoutAttr]
    exact only

/-- All that goes into a package is written with its words, directories and entities apart. -/
theorem supplies_packageWords (c : Compilation) :
    c.Supplies (fun name => name ≠ "Directory" ∧ name ∉ entityWords)
      fun e => e.name ∈ packageWords := by
  refine supplies_only (fun _ word => List.mem_append_left _ word) (fun given => ?_) fun given => ?_
  · obtain ⟨areFor, -⟩ := gives_emitStandalone given
    have root := name_eq_of_tag (tag_root areFor.made)
    refine List.forall_mem_cons.mpr ⟨fun watched => absurd root watched.1, fun x mem watched => ?_⟩
    exact absurd ((areEntities_of_emitStandalone given).declarations x mem).name_mem watched.2
  · obtain ⟨parts, -⟩ : _ ∧ Ledger.Books c.project _ _ [] [] := gives_emitInterface given
    exact fun x mem => (parts x mem).packageWords

/-- The children of a package that are neither directories nor entities are written with its words.
-/
theorem words_of_emitDocument {document : Element} (fresh : before.locations = [])
    (given : c.emitDocument.Gives before document after) :
    ∃ package, document.elements = [package] ∧ package.name ∈ ["Product", "Module"] ∧
      ∀ x ∈ package.elements, x.name ≠ "Directory" → x.name ∉ entityWords →
        Only (· ∈ packageWords) x := by
  obtain ⟨package, rfl, keeps⟩ := (supplies_packageWords c).keeps_of_emitDocument fresh given
  exact ⟨package, elements_document, keeps.name_mem,
    fun x mem directory entity => keeps.children x mem ⟨directory, entity⟩⟩

end Compilation

end Installer
