import Installer.Proofs.Action.Schedule
import Installer.Proofs.Component.Stamps
import Installer.Proofs.Directory.Merged
import Installer.Proofs.Directory.ModuleIds
import Installer.Proofs.Emit.Contract
import Installer.Source.Product

/-! # The wiring of a product

The parts of a product that are made beside its directories write no merge modules.  They are made
if and only if every reference to a property has a name and the first action has a placement.  The
merge modules of the directories are noted in the ledger and stand in the tree; nothing else in a
product has to do with them until the references are put into the features.
-/

namespace Installer

open Markup (Element Focus)
open Markup.Element
open Emit

variable {c : Compilation}

/-! ## Properties and binaries -/

theorem Property.contract_emit (property : Property) :
    Contract property.emit (property.isRef = true → property.name.isEmpty = false) []
      fun _ => True := by
  rw [emit]
  split
  next reference =>
    split
    next unnamed =>
      exact (Contract.fail _).congr (by simp [reference, unnamed]) rfl fun _ _ => trivial
    next named => exact (Contract.pure _).congr (by simp [named]) rfl fun _ _ => trivial
  next other => exact (Contract.pure _).congr (by simp [other]) rfl fun _ _ => trivial

theorem Compilation.contract_package (c : Compilation) (source : String) :
    Contract (c.package source) True [] fun _ => True := by
  have noted : Contract
      (Emit.note (·.addPackaging ⟨source, c.packagedPath source⟩)) True [] fun _ => True := by
    refine .note fun ledger => ?_
    rw [List.append_nil, Ledger.addPackaging]
    split <;> rfl
  exact noted.after fun _ => (Contract.pure _).forget

theorem Binary.contract_emitSource (binary : Binary) :
    Contract (binary.emitSource c) True [] fun _ => True := by
  rw [emitSource]
  split
  next => exact c.contract_package _
  next => exact (Contract.pure _).forget

theorem Binary.contract_emit (binary : Binary) :
    Contract (binary.emit c) True [] fun _ => True :=
  (Contract.idOr _ _ _).after fun _ => binary.contract_emitSource.after fun _ =>
    (Contract.pure _).forget

/-! ## Actions -/

namespace CustomAction

theorem contract_emitManagedBinary (made : List Element) (id assembly : String) :
    Contract (emitManagedBinary c made id assembly) True [] fun _ => True := by
  rw [emitManagedBinary]
  split
  next => exact (Contract.pure _).forget
  next => exact (c.contract_package _).after fun _ => (Contract.pure _).forget

theorem contract_emitKind (made : List Element) (id : String) (placement : Placement)
    (action : CustomAction) :
    Contract (action.emitKind c made id placement) True [] fun _ => True := by
  rw [emitKind]
  cases action.kind with
  | managed assembly method usesProperties =>
    exact (contract_emitManagedBinary made id assembly).after fun _ => (Contract.pure _).forget
  | quietCommand program args =>
    exact (Contract.noteExtension .util).after fun _ => (Contract.pure _).forget
  | setProperty | script | scriptFile | installedFile | binaryFile | pathFile =>
    exact (Contract.pure _).forget

theorem contract_emit (previous : Option String) (made : List Element) (action : CustomAction) :
    Contract (action.emit c previous made) ((action.placement previous).isOk = true) []
      fun _ => True := by
  rw [emit]
  have rest := fun id => (Contract.liftM (action.placement previous)).andThen fun placement =>
    (action.contract_emitKind (c := c) made id placement).andThen fun elements =>
      (Contract.pure (id, elements)).forget
  exact ((Contract.idOr .action action.id action.name).after rest).congr (by simp) rfl
    fun _ holds => holds

/-- Behind another action every action has a placement. -/
theorem isOk_placement_some (action : CustomAction) (id : String) :
    (action.placement (some id)).isOk = true := by
  rw [placement]
  cases action.sequenceNumber with
  | some n => rfl
  | none => cases action.step <;> rfl

theorem contract_emitFrom (previous : Option String) (made : ActionElements)
    (actions : List CustomAction) :
    Contract (emitFrom c previous made actions)
      (∀ first ∈ actions.head?, (first.placement previous).isOk = true) [] fun _ => True := by
  induction actions generalizing previous made with
  | nil => exact (Contract.pure made).congr (by simp) rfl fun _ _ => trivial
  | cons action rest ih =>
    rw [emitFrom]
    have later : ∀ result : String × ActionElements,
        Contract (emitFrom c (some result.1) (made ++ result.2) rest) True [] fun _ => True :=
      fun result => (ih (some result.1) (made ++ result.2)).congr
        (iff_of_true (fun first _ => first.isOk_placement_some result.1) trivial) rfl
        fun _ _ => trivial
    exact ((action.contract_emit previous made.definitions).andThen later).congr (by simp) rfl
      fun _ holds => holds

theorem contract_emitAll :
    Contract (emitAll c) (∀ first ∈ c.project.actions.head?, (first.placement none).isOk = true) []
      fun _ => True :=
  (Contract.forIn (fun _ => .withIds _) _).after fun _ => contract_emitFrom _ _ _

end CustomAction

/-! ## The interface -/

theorem Compilation.contract_emitInterface (installRootId : Option String) :
    Contract (c.emitInterface installRootId) True [] fun _ => True := by
  refine Contract.noteUnless ?_
  cases c.project.embeddedUi with
  | none => exact (Contract.pure _).forget
  | some binary => exact binary.contract_emitSource.after fun _ => (Contract.pure _).forget

variable {before after : Ledger}

/-! ## What is silent -/

namespace Markup.Element

variable {e : Element}

theorem IsPart.silent (part : e.IsPart) : e.Silent :=
  Everywhere.mono part fun _ word =>
    (by decide : ∀ w ∈ partWords, w ∉ ["Feature", "Merge", "MergeRef"]) _ word

theorem IsBasicPart.silent (basic : e.IsBasicPart) : e.Silent :=
  basic.isPart.silent

theorem IsEntity.silent (entity : e.IsEntity) : e.Silent :=
  Everywhere.mono entity fun _ word =>
    (by decide : ∀ w ∈ entityWords, w ∉ ["Feature", "Merge", "MergeRef"]) _ word

theorem IsEntityComponent.silent (component : e.IsEntityComponent) : e.Silent := by
  refine only_iff.mpr ⟨component.name_eq ▸ by decide, fun child mem => ?_⟩
  exact Everywhere.mono (component.words child mem) fun _ word =>
    (by decide : ∀ w ∈ "Condition" :: entityWords, w ∉ ["Feature", "Merge", "MergeRef"]) _ word

end Markup.Element

theorem CustomAction.silent_schedule (action : CustomAction) (id : String)
    (condition : Option String) (placement : Placement) :
    ∀ entry ∈ action.schedule id condition placement, entry.2.Silent := by
  rw [schedule, List.forall_mem_map]
  intro sequence _
  cases condition <;> simp [Silent]

theorem CustomAction.silent_of_emitAll {result : ActionElements}
    (given : (emitAll c).Gives before result after) : ∀ entry ∈ result.entries, entry.2.Silent := by
  obtain ⟨steps, run, -, -⟩ := isRun_of_emitAll given
  rw [run.entries, List.forall_mem_flatMap]
  intro step _
  rw [ActionStep.entries, List.forall_mem_append, List.forall_mem_flatMap]
  exact ⟨fun helper _ => step.action.silent_schedule _ _ _, step.action.silent_schedule _ _ _⟩

theorem UpgradeStrategy.silent_entries (strategy : UpgradeStrategy) :
    ∀ entry ∈ (strategy.elements c).entries, entry.2.Silent := by
  intro entry mem
  rcases strategy.mem_entries mem with rfl | ⟨message, guard, -⟩
  · simp [Silent, removalEntry]
  · simp only [guardElements, List.mem_cons, List.not_mem_nil, or_false] at guard
    rcases guard with rfl | rfl <;> simp [Silent]

/-! ## Features -/

/-- Every feature that is made for its components refers to one. -/
theorem Project.survey_featureElements (project : Project) (ledger : Ledger) :
    (project.featureElements ledger).flatMap (survey sights) = [] := by
  rw [List.flatMap_eq_nil_iff]
  intro e isFeature
  have words := project.only_featureElements ledger
    (by decide : ∀ word ∈ ["Feature", "Condition", "ComponentRef"], word ∉ ["Merge", "MergeRef"])
    e isFeature
  rw [survey, List.flatMap_eq_nil_iff]
  intro x inside
  have here : Only (· ∉ ["Merge", "MergeRef"]) x := Everywhere.inside words x inside
  have name : x.tag.1 ≠ "Merge" := fun same =>
    here.here (List.mem_cons.mpr (.inl same))
  have links : (x.elements.map tag).filterMap (linkIn? x.tag) = [] :=
    filterMap_linkIn?_eq_nil fun y mem same => (here.child mem).here (by simp [same])
  rw [sights, if_neg name, links, List.nil_append, List.nil_append]
  apply if_neg
  rintro ⟨feature, bare⟩
  -- a feature refers to the components that it was retained for
  have entry : x.featureEntry ∈ (project.featureElements ledger).flatMap featureEntries :=
    List.mem_flatMap.mpr ⟨e, isFeature, List.mem_map_of_mem
      (List.mem_filter.mpr ⟨inside, beq_iff_eq.mpr feature⟩)⟩
  obtain ⟨declared, retained, same⟩ := List.mem_map.mp (perm_entries.mem_iff.mp entry)
  have none : x.elementsNamed "ComponentRef" = [] :=
    List.filter_eq_nil_iff.mpr fun y mem refers =>
      bare y.tag (List.mem_map_of_mem mem) (List.mem_cons.mpr (.inl (beq_iff_eq.mp refers)))
  have components := congrArg FeatureEntry.components same
  rw [featureEntry, none, Feature.entry, List.map_nil, List.map_eq_nil_iff] at components
  simp [components] at retained

/-! ## The whole product -/

namespace Compilation

theorem perm_survey_root (c : Compilation) {components : List Element}
    (entities : ∀ x ∈ components, x.IsEntityComponent) :
    ((c.root components).survey sights).Perm
      ((Dir.modulesIn c.project.dirs).map (MergeModule.sight c)) := by
  have directory : c.tree.installRoot.node.name = "Directory" :=
    name_installRoot (name_eq_of_tag tag_tree)
  have silent : ∀ x ∈ components, x.Silent := fun x mem => (entities x mem).silent
  have same : (c.tree.installRoot.node.addAll components).survey sights =
      c.tree.installRoot.node.survey sights ++ [] := by
    rw [survey_addAll (by simp [directory]) fun x mem => (silent x mem).name_ne,
      flatMap_survey_of_silent silent]
  have kept : ((c.root components).survey sights).Perm (c.tree.survey sights ++ []) :=
    (isPlace_installRoot c.tree).perm_survey_put
      (e := c.tree.installRoot.node.addAll components) rfl (.of_eq same)
  rw [List.append_nil] at kept
  exact kept.trans c.perm_survey_tree

/-- With its directories a product shows their merge modules. -/
theorem shows_of_emitInstalled {product : Element} (nowhere : before.locations = [])
    (given : c.emitInstalled.Gives before product after) :
    c.project.DeclaresModules (Dir.modulesIn c.project.dirs) ∧
      after.mergeModules =
        before.mergeModules ++ (Dir.modulesIn c.project.dirs).map MergeModule.line ∧
      product.Shows ((Dir.modulesIn c.project.dirs).map (MergeModule.sight c)) := by
  simp only [emitInstalled, gives_bind, gives_pure] at given
  obtain ⟨tree, _, treeSteps, standalone, _, standaloneSteps, rfl, rfl⟩ := given
  obtain ⟨declared, noted⟩ := Dir.mergeModules_of_emitTree treeSteps
  obtain ⟨rfl, -, -⟩ := Dir.gives_emitTree nowhere treeSteps
  obtain ⟨-, kept, -⟩ := c.contract_emitStandalone.gives standaloneSteps
  obtain ⟨areFor, -⟩ := gives_emitStandalone standaloneSteps
  have entities := areEntities_of_emitStandalone standaloneSteps
  refine ⟨declared, by rw [kept, noted, List.append_nil], ?_⟩
  -- modules are seen in the tree of directories only
  have elements : c.productElement.elements = [c.packageElement, c.mediaElement] := by
    simp [productElement]
  have silent : ∀ x ∈ c.productElement.elements, x.Silent := by
    simp only [elements, List.forall_mem_cons]
    exact ⟨(isBasicPart_package c).silent, (isBasicPart_media c).silent, by simp⟩
  have name : c.productElement.name = "Product" := by simp [productElement]
  have start : c.productElement.Shows [] := by
    refine ⟨name, fun x mem => (silent x mem).name_ne, ?_⟩
    rw [survey_of_other (by simp [name]) fun x mem => (silent x mem).name_ne,
      flatMap_survey_of_silent silent]
  have conditioned : (c.productElement.addAll
      (c.project.launchConditions.map LaunchCondition.element)).Shows [] :=
    start.addSilent (List.forall_mem_map.mpr fun condition _ =>
      (isBasicPart_launchCondition condition).silent)
  have components := entities.components
  have directory : (c.root standalone.components).name = "Directory" :=
    name_eq_of_tag (tag_root areFor.made)
  have declarations : ∀ x ∈ standalone.declarations, x.Silent :=
    fun x mem => (entities.declarations x mem).silent
  have noRefs : ∀ x ∈ c.root standalone.components :: standalone.declarations,
      x.name ≠ "MergeRef" :=
    List.forall_mem_cons.mpr ⟨by simp [directory], fun x mem => (declarations x mem).name_ne⟩
  have added := conditioned.addAll noRefs
  rw [List.flatMap_cons, flatMap_survey_of_silent declarations, List.append_nil,
    List.nil_append] at added
  exact ⟨added.name_eq, added.noRefs, added.perm.trans (c.perm_survey_root components)⟩

theorem contract_emitFilledWith (installed : Element) :
    Contract (c.emitFilledWith installed)
      ((∀ property ∈ c.project.properties, property.isRef = true →
          property.name.isEmpty = false) ∧
        (∀ first ∈ c.project.actions.head?, (first.placement none).isOk = true) ∧
          c.variableElements.isOk = true) [] fun _ => True := by
  have binaries := Contract.mapM_forall (Binary.contract_emit (c := c)) c.project.binaries
  refine ((Contract.mapM_forall Property.contract_emit _).andThen fun properties =>
    CustomAction.contract_emitAll.andThen fun actions => binaries.andThen fun binaries =>
      Contract.get.after fun ledger => (c.contract_emitInterface _).after fun dialogs =>
        (Contract.liftM _).andThen fun environment => (Contract.pure _).forget).congr ?_ rfl
          fun _ holds => holds
  simp

/-- So it does when everything but the references is in it. -/
theorem shows_of_emitFilled {product : Element} (nowhere : before.locations = [])
    (given : c.emitFilled.Gives before product after) :
    c.project.DeclaresModules (Dir.modulesIn c.project.dirs) ∧
      after.mergeModules =
        before.mergeModules ++ (Dir.modulesIn c.project.dirs).map MergeModule.line ∧
      product.Shows ((Dir.modulesIn c.project.dirs).map (MergeModule.sight c)) := by
  simp only [emitFilled, gives_bind] at given
  obtain ⟨installed, between, installSteps, fillSteps⟩ := given
  obtain ⟨declared, noted, start⟩ := shows_of_emitInstalled nowhere installSteps
  have lines : after.mergeModules = between.mergeModules ++ [] :=
    ((contract_emitFilledWith installed).gives fillSteps).2.1
  obtain ⟨filling, given, parts, rfl, -⟩ := gives_emitFilledWith fillSteps
  obtain ⟨_, _, actionSteps⟩ := given.actions
  refine ⟨declared, by rw [lines, List.append_nil, noted], ?_⟩
  have features : ∀ x ∈ c.project.featureElements after, x.name ≠ "MergeRef" := fun x mem => by
    simp [c.project.name_featureElements after x mem]
  have withActions := (start.addSilent fun x mem => (parts.properties x mem).silent).addActions
    (fun x mem => (parts.actions.definitions x mem).silent)
    (CustomAction.silent_of_emitAll actionSteps)
  have withFeatures := (withActions.addSilent fun x mem => (parts.binaries x mem).silent).addAll
    features
  rw [c.project.survey_featureElements, List.append_nil] at withFeatures
  exact (withFeatures.addSilent fun x mem => (parts.dialogs x mem).silent).addSilent
    fun x mem => (parts.environment x mem).silent

/-- A product shows the merge modules of its directories and one reference to each. -/
theorem shows_of_emitProduct {product : Element} (kept : c.project.KeepsFeatureIds)
    (nowhere : before.locations = []) (fresh : before.mergeModules = [])
    (given : c.emitProduct.Gives before product after) :
    (∀ module ∈ Dir.modulesIn c.project.dirs,
        (c.project.featureFor? module.feature).isSome = true) ∧
      product.Shows ((Dir.modulesIn c.project.dirs).map (MergeModule.sight c) ++
        (Dir.modulesIn c.project.dirs).map fun module => .link (c.project.linkOf module.line)) := by
  obtain ⟨filled, wired, filledSteps, wiring, rfl⟩ := gives_emitProduct_iff.mp given
  obtain ⟨-, lines, shows⟩ := shows_of_emitFilled nowhere filledSteps
  rw [fresh, List.nil_append] at lines
  have full : ∀ id, Sight.bare id ∉ (Dir.modulesIn c.project.dirs).map (MergeModule.sight c) := by
    simp [MergeModule.sight]
  obtain ⟨belongs, shows'⟩ := shows.wireMergeModules full kept wiring
  rw [lines] at belongs shows'
  refine ⟨fun module mem => belongs module.line (List.mem_map_of_mem mem), ?_⟩
  rw [List.map_map] at shows'
  rw [withUpgrade]
  split
  next => exact shows'
  next strategy _ =>
    exact shows'.addActions (fun x mem => (strategy.areParts_elements.definitions x mem).silent)
      strategy.silent_entries

/-- So does the document of an installer. -/
theorem survey_of_emitDocument {document : Element} (kept : c.project.KeepsFeatureIds)
    (msi : c.options.outputType = .msi) (nowhere : before.locations = [])
    (fresh : before.mergeModules = []) (given : c.emitDocument.Gives before document after) :
    (∀ module ∈ Dir.modulesIn c.project.dirs,
        (c.project.featureFor? module.feature).isSome = true) ∧
      document.name = "Wix" ∧
      (document.survey sights).Perm ((Dir.modulesIn c.project.dirs).map (MergeModule.sight c) ++
        (Dir.modulesIn c.project.dirs).map fun module => .link (c.project.linkOf module.line)) := by
  simp only [emitDocument, gives_bind, gives_get, gives_pure, msi] at given
  obtain ⟨product, _, productSteps, _, _, ⟨rfl, rfl⟩, rfl, rfl⟩ := given
  obtain ⟨belongs, shows⟩ := shows_of_emitProduct kept nowhere fresh productSteps
  have name : ∀ extensions, (rootElement extensions).name = "Wix" := by simp [rootElement]
  have empty : ∀ extensions, (rootElement extensions).survey sights = [] := fun extensions =>
    Silent.survey_eq_nil (by simp [Silent, rootElement])
  refine ⟨belongs, name _, ?_⟩
  rw [survey_add (by simp [name]) (by simp [shows.reorder.name_eq]), empty, List.nil_append]
  exact shows.reorder.perm

end Compilation

/-! ## Compiled projects -/

/-- The document merges the modules of the prepared directories, which are the declared ones with
the ids that an empty pool gives them.  Each of them is referred to from its feature. -/
structure Project.WiresModules (project : Project) (c : Compilation) (document : Element) :
    Prop where
  declared : (Dir.modulesIn c.project.dirs).map MergeModule.withoutId =
    (Dir.modulesIn project.dirs).map MergeModule.withoutId
  ids : (Dir.modulesIn c.project.dirs).map MergeModule.finalId =
    IdPool.idsFor .mergeModule ((Dir.modulesIn project.dirs).map MergeModule.naming) {}
  merged : ((document.descendantsNamed "Merge").map tag).Perm
    ((Dir.modulesIn c.project.dirs).map fun module => (module.element c).tag)
  /-- The ids in references are the ids of modules, with the same multiplicity. -/
  referred : ((document.descendantsNamed "MergeRef").map id?).Perm
    ((document.descendantsNamed "Merge").map id?)
  belongs : ∀ module ∈ Dir.modulesIn c.project.dirs,
    (project.featureFor? module.feature).isSome = true
  /-- Each reference is held by a feature with the id of the module's own one. -/
  held : document.mergeLinks.Perm ((Dir.modulesIn c.project.dirs).map fun module =>
    ⟨"Feature", (project.featureFor? module.feature).map Feature.effectiveId, module.finalId⟩)
  full : ∀ feature ∈ document.descendantsNamed "Feature",
    ∃ child ∈ feature.elements, child.name ∈ ["ComponentRef", "MergeRef"]

namespace Project

theorem featureFor?_prepare (project : Project) (options : Options) :
    (project.prepare options).project.featureFor? = project.featureFor? := by
  obtain ⟨dirs, actions, same, -⟩ := project.exists_prepare options
  rw [same]
  funext feature
  cases feature <;> rfl

theorem modulesIn_prepare (project : Project) (options : Options) :
    (Dir.modulesIn (project.prepare options).project.dirs).map MergeModule.withoutId =
      (Dir.modulesIn project.dirs).map MergeModule.withoutId := by
  have read : ∀ dirs, (Dir.modulesIn dirs).map MergeModule.withoutId =
      Dir.readAll (fun body => body.mergeModules.map MergeModule.withoutId) dirs :=
    fun dirs => List.map_flatMap ..
  rw [read, read]
  refine project.readAll_prepare options
    ⟨fun _ _ => rfl, fun _ _ => rfl, fun _ => rfl, fun _ => rfl⟩ fun body => ?_
  simp [DirBody.withoutIds, MergeModule.withoutId]

/-- Only ids are given to the modules before the compilation begins. -/
theorem attributes_modulesIn_prepare (project : Project) (options : Options)
    (each : ∀ module ∈ Dir.modulesIn project.dirs, ∀ pair ∈ module.attributes.pairs,
      pair.1 ≠ "Id") :
    ∀ module ∈ Dir.modulesIn (project.prepare options).project.dirs,
      ∀ pair ∈ module.attributes.pairs, pair.1 ≠ "Id" := by
  intro module mem
  obtain ⟨original, isDeclared, same⟩ :=
    List.mem_map.mp (project.modulesIn_prepare options ▸ List.mem_map_of_mem mem)
  have attributes : original.attributes = module.attributes := by
    change original.withoutId.attributes = module.withoutId.attributes
    rw [same]
  exact attributes ▸ each original isDeclared

end Project

theorem MergeModule.id?_element {c : Compilation} {module : MergeModule}
    (kept : ∀ pair ∈ module.attributes.pairs, pair.1 ≠ "Id") :
    (module.element c).id? = some module.finalId :=
  id?_withAttrs _ kept

namespace Project

variable {project : Project} {options : Options} {output : Output}

/-- In an installer that compiles, every merge module is merged once and referred to once, from its
own feature or the default one, and no feature is left without components and modules. -/
theorem wiresModules_of_compile (compiled : project.compile options = .ok output)
    (msi : options.outputType = .msi) (features : project.KeepsFeatureIds)
    (kept : ∀ module ∈ Dir.modulesIn project.dirs, ∀ pair ∈ module.attributes.pairs,
      pair.1 ≠ "Id") :
    ∃ c, Compilation.ofProject options (project.prepare options).project = .ok c ∧
      project.WiresModules c output.document := by
  obtain ⟨c, ledger, start, steps, -⟩ := made_of_compile compiled
  obtain ⟨prepared, chosen⟩ := Compilation.project_of_ofProject start
  have featureFor : c.project.featureFor? = project.featureFor? :=
    prepared ▸ project.featureFor?_prepare options
  have keptFeatures : c.project.KeepsFeatureIds := by
    rw [KeepsFeatureIds, prepared, project.allFeatures_prepare options]
    exact features
  have keptModules : ∀ module ∈ Dir.modulesIn c.project.dirs, ∀ pair ∈ module.attributes.pairs,
      pair.1 ≠ "Id" := prepared ▸ project.attributes_modulesIn_prepare options kept
  obtain ⟨belongs, name, seen⟩ :=
    Compilation.survey_of_emitDocument keptFeatures (chosen ▸ msi) rfl rfl steps
  have sight : MergeModule.sight c = fun module => .module (module.element c).tag := rfl
  rw [sight] at seen
  -- one survey shows the modules, the references and the features with nothing in them
  have merged := seen.filterMap Sight.module?
  have held := seen.filterMap Sight.link?
  have outer : output.document.subtree.filter (fun x => x.name == "Merge") =
      output.document.descendantsNamed "Merge" := List.filter_cons_of_neg (by simp [name])
  rw [filterMap_module?_survey, Sight.filterMap_module?_append, outer] at merged
  rw [filterMap_link?_survey, Sight.filterMap_link?_append] at held
  have mergedIds := merged.map fun t => t.2.lookup "Id"
  have referredIds :=
    (perm_moduleId_mergeLinks output.document).symm.trans (held.map MergeLink.moduleId)
  refine ⟨c, start, ?_⟩
  exact {
    declared := prepared ▸ project.modulesIn_prepare options
    ids := prepared ▸ project.moduleIds_prepare options
    merged := merged
    referred := by
      rw [List.map_map, List.map_map] at mergedIds
      rw [List.map_map] at referredIds
      refine referredIds.trans (mergedIds.trans (.of_eq ?_)).symm
      exact List.map_congr_left fun module mem => MergeModule.id?_element (keptModules module mem)
    belongs := featureFor ▸ belongs
    held := by
      rw [← featureFor]
      exact held
    full := fun feature mem => by
      obtain ⟨inside, named⟩ := List.mem_filter.mp mem
      refine exists_child_of_survey (fun id bare => ?_) (List.mem_cons_of_mem _ inside)
        (beq_iff_eq.mp named)
      simpa using seen.mem_iff.mp bare }

/-- A project with a module for the default feature, one for a feature with a component, and two for
a feature that has none. -/
def bundled : Project where
  name := "App"
  features := [{ name := "Tools" }, { name := "Runtime", parent := some "Tools" }]
  dirs :=
    [⟨{ name := "%ProgramFiles%\\App", files := [{ name := "app.exe" }],
        mergeModules :=
          [{ sourceFile := "crt.msm", feature := some "Runtime" }, { sourceFile := "mfc.msm" }] },
      [⟨{ name := "tools", files := [{ name := "tool.exe", feature := some "Tools" }],
          mergeModules :=
            [{ sourceFile := "crt.msm", feature := some "Runtime" },
             { sourceFile := "atl.msm", feature := some "Tools" }] }, []⟩]⟩]

theorem wiresModules_bundled :
    ∃ (output : Output) (c : Compilation), bundled.compile {} = .ok output ∧
      Compilation.ofProject {} (bundled.prepare {}).project = .ok c ∧
      (Dir.modulesIn c.project.dirs).map (fun module => (module.finalId, module.feature)) =
        [("crt", some "Runtime"), ("mfc", none), ("crt.1", some "Runtime"), ("atl", some "Tools")] ∧
      bundled.WiresModules c output.document := by
  obtain ⟨output, compiled⟩ := exists_output
    (by decide +kernel : (bundled.compile {}).isOk = true)
  obtain ⟨c, start, wires⟩ := wiresModules_of_compile compiled rfl
    (by simp [KeepsFeatureIds, allFeatures, bundled, Attributes.empty]) (by decide)
  refine ⟨output, c, compiled, start, ?_, wires⟩
  rw [(Compilation.project_of_ofProject start).1]
  decide +kernel

end Project

end Installer
