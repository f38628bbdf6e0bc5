import Installer.Proofs.Directory.Sound
import Installer.Proofs.Feature.Partition
import Installer.Proofs.Product.Supplies

/-! # Documents that are well-formed

A document is well-formed if the attribute names that the project gives are names of XML.  No other
names that are written come from the project, and characters and elements are never mixed.
-/

namespace Installer

open Markup (AreNames Element)
open Markup.Element
open Emit

variable {c : Compilation}

/-! ## Definitions -/

theorem sound_launchCondition {condition : LaunchCondition}
    (names : AreNames condition.attributes.names) : Sound condition.element := by
  have own : Sound (({ name := "Condition",
                       attrs := [("Message", condition.message)] : Element }).addCData
      condition.condition) := by
    simp +decide [addCData, addNodes]
  exact sound_withAttrs.mpr ⟨own, names⟩

theorem Property.sound_element {property : Property} (names : AreNames property.attributes.names) :
    Sound property.element := by
  rw [element, sound_withAttrs]
  refine ⟨?_, names⟩
  cases property.registry <;> simp +decide [RegistrySearch.element]

theorem Property.yields_emit {property : Property} (names : AreNames property.attributes.names) :
    Yields property.emit Sound := by
  rw [emit]
  split
  next =>
    split
    next => exact fun _ _ _ given => absurd given gives_fail
    next => exact .returns (by simp +decide)
  next => exact .returns (sound_element names)

theorem Binary.yields_emit {binary : Binary} (names : AreNames binary.attributes.names) :
    Yields (binary.emit c) Sound :=
  .after fun id => .after fun source =>
    .returns (sound_withAttrs.mpr ⟨by simp +decide, names⟩)

/-! ## Actions -/

namespace CustomAction

variable {action : CustomAction}

theorem sound_schedule (action : CustomAction) (id : String) (condition : Option String)
    (placement : Placement) : ∀ entry ∈ action.schedule id condition placement, Sound entry.2 := by
  have word : placement.pair.1 ∈ ["Sequence", "Before", "After"] := by
    cases placement with
    | number n => simp [Placement.pair]
    | anchor side target => cases side <;> simp [Placement.pair, Choice.name]
  have placed := (by decide : ∀ name ∈ ["Sequence", "Before", "After"],
    Markup.Xml.isName name.toList = true ∧ "Action" ≠ name) _ word
  rw [schedule, List.forall_mem_map]
  intro sequence _
  cases condition <;> simp +decide [placed]

theorem sound_definition (names : AreNames action.attributes.names) {attrs : List (String × String)}
    (own : AreNames (attrs.map Prod.fst)) : Sound (action.definition attrs) :=
  sound_withAttrs.mpr ⟨sound_withAttrs.mpr ⟨by simp +decide, own⟩, names⟩

theorem sound_binaryElement (id source : String) : Sound (binaryElement id source) := by
  simp +decide [binaryElement]

theorem sound_settingElement (id property value : String) :
    Sound (settingElement id property value) := by
  simp +decide [settingElement]

theorem yields_emitManagedBinary (made : List Element) (id assembly : String) :
    Yields (emitManagedBinary c made id assembly) fun result => ∀ x ∈ result.2, Sound x := by
  rw [emitManagedBinary]
  split
  next => exact .returns (List.forall_mem_nil _)
  next =>
    exact .after fun _ => .returns (List.forall_mem_singleton.mpr (sound_binaryElement _ _))

theorem yields_emitKind (made : List Element) (id : String) (placement : Placement)
    (names : AreNames action.attributes.names) :
    Yields (action.emitKind c made id placement) (ActionElements.Each Sound) := by
  have alone : ∀ attrs, AreNames (attrs.map Prod.fst) → ActionElements.Each Sound
      ⟨[action.definition attrs], action.schedule id (some action.condition) placement⟩ :=
    fun attrs own => ⟨List.forall_mem_singleton.mpr (sound_definition names own),
      sound_schedule _ _ _ _⟩
  have defined : ∀ {definitions : List Element}, (∀ x ∈ definitions, Sound x) →
      ActionElements.Each Sound ⟨definitions, []⟩ := fun sound => ⟨sound, List.forall_mem_nil _⟩
  rw [emitKind]
  cases action.kind with
  | setProperty property value => exact .returns (alone _ (by simp +decide))
  | script code =>
    refine .returns ⟨List.forall_mem_singleton.mpr ?_, sound_schedule _ _ _ _⟩
    exact sound_withAttrs.mpr
      ⟨by simp +decide [resultFirst, returnAttr, executeAttr, impersonateAttr], names⟩
  | scriptFile scriptFile procedure =>
    have binary := defined
      (List.forall_mem_singleton.mpr (sound_binaryElement id (c.sourcePath scriptFile)))
    exact .returns (binary.append (alone _ (by
      simp +decide [resultFirst, returnAttr, executeAttr, impersonateAttr])))
  | managed assembly method usesProperties =>
    refine (yields_emitManagedBinary made id assembly).bind fun result sound =>
      .returns (((defined sound).append ?_).append (alone _ (by
        simp +decide [resultLast, returnAttr, executeAttr, impersonateAttr])))
    split
    next =>
      exact ⟨List.forall_mem_singleton.mpr (sound_settingElement _ _ _), sound_schedule _ _ _ _⟩
    next => exact .nil
  | quietCommand program args =>
    refine .after fun _ => .returns ⟨?_, ?_⟩
    · refine List.forall_mem_cons.mpr ⟨?_, List.forall_mem_singleton.mpr ?_⟩
      · exact sound_withAttrs.mpr ⟨sound_settingElement _ _ _, names⟩
      · simp +decide [resultLast, returnAttr, executeAttr, impersonateAttr]
    · exact List.forall_mem_append.mpr ⟨sound_schedule _ _ _ _, sound_schedule _ _ _ _⟩
  | installedFile fileKey args | binaryFile binaryKey args | pathFile program args workingDir =>
    exact .returns (alone _ (by
      simp +decide [resultFirst, resultLast, returnAttr, executeAttr, impersonateAttr]))

theorem yields_emitFrom {actions : List CustomAction}
    (names : ∀ action ∈ actions, AreNames action.attributes.names) (previous : Option String)
    {made : ActionElements} (sound : made.Each Sound) :
    Yields (emitFrom c previous made actions) (ActionElements.Each Sound) := by
  induction actions generalizing previous made with
  | nil => exact .returns sound
  | cons action rest ih =>
    rw [List.forall_mem_cons] at names
    have first : Yields (action.emit c previous made.definitions)
        fun result => result.2.Each Sound :=
      .after fun id => .after fun placement =>
        (yields_emitKind _ id placement names.1).bind fun _ sound => .returns sound
    exact first.bind fun result more => ih names.2 _ (sound.append more)

theorem yields_emitAll (names : ∀ action ∈ c.project.actions, AreNames action.attributes.names) :
    Yields (emitAll c) (ActionElements.Each Sound) :=
  .after fun _ => yields_emitFrom names none .nil

end CustomAction

theorem UpgradeStrategy.sound_elements (strategy : UpgradeStrategy) :
    (strategy.elements c).Each Sound := by
  have upgrade : Sound (strategy.element c) := by
    refine (nest_addAll.mpr ⟨by simp +decide, List.forall_mem_append.mpr ⟨?_, ?_⟩⟩).sound
    · cases strategy.upgradeVersions with
      | none => exact List.forall_mem_nil _
      | some range =>
        refine List.forall_mem_singleton.mpr ?_
        cases maximum : range.maximum <;> cases migrate : range.migrateFeatures <;>
          simp +decide [VersionRange.upgradeElement, VersionRange.lowerAttrs,
            VersionRange.migrationAttrs, maximum, migrate]
    · cases strategy.preventDowngradingVersions with
      | none => exact List.forall_mem_nil _
      | some range =>
        refine List.forall_mem_singleton.mpr ?_
        cases migrate : range.migrateFeatures <;>
          simp +decide [VersionRange.blockingElement, VersionRange.lowerAttrs,
            VersionRange.migrationAttrs, migrate]
  have defined : ActionElements.Each Sound { definitions := [strategy.element c] } :=
    ⟨List.forall_mem_singleton.mpr upgrade, List.forall_mem_nil _⟩
  have removal : ActionElements.Each Sound { entries := [strategy.removalEntry] } :=
    ⟨List.forall_mem_nil _, by simp +decide [removalEntry]⟩
  have guard : ∀ message, (guardElements message).Each Sound := fun message =>
    ⟨by simp +decide [guardElements], by simp +decide [guardElements]⟩
  rw [elements]
  refine defined.append ?_
  split
  next => exact .nil
  next =>
    split
    next message _ => exact (guard message).append removal
    next => exact ActionElements.Each.nil.append removal

/-! ## Features -/

theorem Feature.nest_element {feature : Feature} (names : AreNames feature.attributes.names) :
    Nest feature.element := by
  rw [element, nest_addAll, nest_attr?, nest_attr?, nest_withAttrs]
  refine ⟨⟨⟨⟨by simp +decide, names⟩, fun _ => by decide⟩, fun _ => by decide⟩, ?_⟩
  refine List.forall_mem_map.mpr fun condition _ => ?_
  simp +decide [addCData, addNodes]

theorem Parents.nest_nested {parents : Parents} {elements : List Element}
    (all : ∀ x ∈ elements, Nest x) (depth i : Nat) :
    ∀ x ∈ parents.nested elements depth i, Nest x := by
  induction depth generalizing i with
  | zero => simp [nested]
  | succ depth ih =>
    rw [nested, List.forall_mem_map]
    intro e mem
    rw [nest_addAll, List.forall_mem_flatMap]
    exact ⟨all e (List.mem_of_getElem? (Option.mem_toList.mp mem)),
      fun child _ x inside => (ih child x inside).sound⟩

theorem Project.sound_featureElements {project : Project}
    (names : ∀ feature ∈ project.allFeatures, AreNames feature.attributes.names)
    (ledger : Ledger) : ∀ x ∈ project.featureElements ledger, Sound x := by
  rw [featureElements, Parents.forest, List.forall_mem_flatMap]
  intro i _ x mem
  refine (Parents.nest_nested (List.forall_mem_map.mpr fun retained among => ?_) _ i x mem).sound
  have declared : retained.feature ∈ project.allFeatures := by
    obtain ⟨feature, isFeature, rfl⟩ := List.mem_map.mp (List.mem_filter.mp among).1
    exact isFeature
  rw [RetainedFeature.element, nest_addAll]
  refine ⟨Feature.nest_element (names _ declared), List.forall_mem_map.mpr fun id _ => ?_⟩
  simp +decide

/-! ## The user interface -/

namespace Compilation

theorem sound_dialogElements (c : Compilation) (installRootId : Option String) :
    ∀ x ∈ c.dialogElements installRootId, Sound x := by
  rw [dialogElements]
  split
  next => exact List.forall_mem_nil _
  next =>
    rw [List.forall_mem_append, List.forall_mem_map]
    exact ⟨fun _ _ => by simp +decide, List.forall_mem_singleton.mpr (by simp +decide)⟩

theorem yields_emitInterface (c : Compilation) (installRootId : Option String) :
    Yields (c.emitInterface installRootId) fun results => ∀ x ∈ results, Sound x := by
  have dialogs := c.sound_dialogElements installRootId
  refine Yields.noteUnless ?_
  cases c.project.embeddedUi with
  | none => exact .returns dialogs
  | some binary =>
    refine .after fun source => .returns (List.forall_mem_append.mpr ⟨?_, ?_⟩)
    · exact fun x mem => dialogs x (List.mem_filter.mp mem).1
    · exact List.forall_mem_singleton.mpr (by simp +decide)

theorem sound_variableElements {result : List Element} (found : c.variableElements = .ok result) :
    ∀ x ∈ result, Sound x := by
  intro x mem
  obtain ⟨id, path, rfl⟩ := exists_variableElement found x mem
  simp +decide [variableElement]

/-! ## Products -/

theorem sound_root (names : c.project.NamesAttributes) {components : List Element}
    (sound : ∀ x ∈ components, Sound x) : Sound (c.root components) := by
  have place : c.tree.installRoot.IsPlace c.tree := isPlace_installRoot c.tree
  have home := (nest_tree names).node place (name_installRoot name_tree)
  exact ((nest_tree names).put place (nest_addAll.mpr ⟨home, sound⟩)).sound

theorem nest_productElement (names : c.project.NamesAttributes) : Nest c.productElement := by
  have package : Sound c.packageElement :=
    sound_withAttrs.mpr ⟨by simp +decide, names.package⟩
  have media : Sound c.mediaElement := sound_withAttrs.mpr ⟨by simp +decide, names.media⟩
  refine nest_addAll.mpr ⟨nest_withAttrs.mpr ⟨by simp +decide, names.product⟩, ?_⟩
  simpa using ⟨package, media⟩

theorem Filling.IsGiven.each_sound {rootId : Option String} {filling : Filling}
    (given : filling.IsGiven c rootId) (names : c.project.NamesAttributes) :
    filling.Each Sound := by
  obtain ⟨_, _, propertySteps⟩ := given.properties
  obtain ⟨_, _, actionSteps⟩ := given.actions
  obtain ⟨_, _, binarySteps⟩ := given.binaries
  obtain ⟨_, _, dialogSteps⟩ := given.dialogs
  exact {
    properties := Yields.mapM (fun property mem => Property.yields_emit (names.properties _ mem))
      _ _ _ propertySteps
    actions := CustomAction.yields_emitAll names.actions _ _ _ actionSteps
    binaries := Yields.mapM (fun binary mem => Binary.yields_emit (names.binaries _ mem))
      _ _ _ binarySteps
    dialogs := c.yields_emitInterface _ _ _ _ dialogSteps
    environment := sound_variableElements given.environment }

theorem each_sound_upgradeElements (c : Compilation) : c.upgradeElements.Each Sound := by
  rw [upgradeElements]
  split
  next => exact .nil
  next strategy _ => exact strategy.sound_elements

theorem sound_modulePackage {package : Element} (sound : Sound package) :
    Sound (c.modulePackage package) := by
  have rest : Sound (package.withoutAttr "Compressed") := by
    have fewer : ((package.withoutAttr "Compressed").attrs.map Prod.fst).Sublist
        (package.attrs.map Prod.fst) := List.eraseP_sublist.map _
    have fit := sound.here
    -- only the attributes of the package itself are fewer
    refine everywhere_iff.mpr ⟨⟨fit.named, fun name mem => ?_, ?_, fit.children⟩, ?_⟩
    · exact fit.attrs name (fewer.subset mem)
    · exact fit.distinct.sublist fewer
    · exact fun child mem => sound.child mem
  rw [modulePackage, sound_attr?, sound_attr]
  exact ⟨⟨rest, by decide⟩, fun _ => by decide⟩

theorem fit_module {rest : Element} (named : rest.name ∈ ["Product", "Module"]) (fit : Fit rest) :
    Fit { rest with name := "Module", attrs := c.moduleAttrs } where
  named := by show Markup.Xml.isName "Module".toList = true; decide
  attrs := by simp +decide [moduleAttrs]
  distinct := by simp [moduleAttrs]
  children := .inl (fit.holdsElements
    ((by decide : ∀ name ∈ ["Product", "Module"], name ∉ wordyNames) _ named))

/-- All that goes into a document is well-formed. -/
theorem supplies_fit (names : c.project.NamesAttributes) :
    c.Supplies (fun _ => True) Fit where
  lasting := lasting_fit
  product :=
    ⟨by simp [productElement], (nest_productElement names).sound.here,
      fun _ mem _ => (nest_productElement names).sound.child mem⟩
  conditions condition mem := sound_launchCondition (names.conditions condition mem)
  installed given := by
    have standalone := (establishes_sound names).emitStandalone _ _ _ given
    exact fun x mem _ => List.forall_mem_cons.mpr
      ⟨sound_root names standalone.components, standalone.declarations⟩ x mem
  filling given := (given.each_sound names).supplied
  upgrades := c.each_sound_upgradeElements.supplied
  features := Project.sound_featureElements names.features
  declared name feature found :=
    (Feature.nest_element (names.features feature (Project.mem_of_feature? found).1)).sound
  tables sequence := by
    have table : Sound { name := Choice.name sequence } := by cases sequence <;> simp +decide
    exact table.here
  references id := by
    have reference : Sound { name := "MergeRef", attrs := [("Id", id)] } := by simp +decide
    exact reference.here
  module _ := fit_module
  package _ _ := sound_modulePackage

theorem nest_rootElement (extensions : List Extension) : Nest (rootElement extensions) := by
  refine nest_withAttrs.mpr ⟨by simp +decide, List.forall_mem_map.mpr fun pair mem => ?_⟩
  obtain ⟨extension, -, same⟩ := List.mem_filterMap.mp mem
  cases extension <;> cases same <;> decide

end Compilation

theorem Project.sound_document {project : Project} {options : Options} {output : Output}
    (compiled : project.compile options = .ok output) (names : AreNames project.attributeNames) :
    Sound output.document := by
  obtain ⟨c, ledger, start, given, -⟩ := Project.made_of_compile compiled
  have prepared : c.project.NamesAttributes := by
    rw [Project.namesAttributes_iff, (Compilation.project_of_ofProject start).1,
      project.attributeNames_prepare]
    exact names
  obtain ⟨package, document, keeps⟩ :=
    (Compilation.supplies_fit prepared).keeps_of_emitDocument rfl given
  rw [document, sound_add]
  refine ⟨Compilation.nest_rootElement _, everywhere_iff.mpr ⟨keeps.own, ?_⟩⟩
  exact fun child mem => keeps.children child mem trivial

end Installer
