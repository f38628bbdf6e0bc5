import Installer.Proofs.Action.Ids
import Installer.Proofs.Directory.ModuleIds
import Installer.Proofs.Product.Home
import Installer.Proofs.Product.Supplies

/-! # The ids of actions in the document

Actions, their helpers and the guard of the upgrades are all defined in the package itself.  The ids
of the actions are different when the declared ones are, and so are those of the helpers, but
neither helpers nor the guard are kept apart from the actions.
-/

namespace Installer

open Markup (Element)
open Markup.Element
open Emit

namespace Compilation

variable {c : Compilation} {before after : Ledger}

/-! ## Where actions and binaries are defined -/

/-- The names of elements that define actions and binaries. -/
def definitionWords : List String :=
  ["CustomAction", "Binary"]

/-- There are no definitions of actions and binaries at or below the element. -/
abbrev Undefining (e : Element) : Prop :=
  Only (· ∉ definitionWords) e

theorem undefining_root {components : List Element}
    (entities : ∀ x ∈ components, x.IsEntityComponent) : Undefining (c.root components) := by
  have tree : Undefining c.tree := Everywhere.mono (isTreePart_tree c) fun _ word =>
    (by decide : ∀ w ∈ Dir.words, w ∉ definitionWords) _ word
  have place : c.tree.installRoot.IsPlace c.tree := isPlace_installRoot c.tree
  refine place.only tree (only_addAll.mpr ⟨place.only_node tree, fun x mem => ?_⟩)
  refine only_iff.mpr ⟨(entities x mem).name_eq ▸ by decide, fun child inside => ?_⟩
  exact Everywhere.mono ((entities x mem).words child inside) fun _ word =>
    (by decide : ∀ w ∈ "Condition" :: entityWords, w ∉ definitionWords) _ word

theorem undefining_of_emit {property : Property} {result : Element}
    (given : property.emit.Gives before result after) : Undefining result := by
  rw [Property.emit] at given
  split at given
  next =>
    split at given
    next => exact absurd given gives_fail
    next =>
      obtain ⟨rfl, -⟩ := gives_pure.mp given
      simp [definitionWords]
  next =>
    obtain ⟨rfl, -⟩ := gives_pure.mp given
    rw [Property.element]
    cases property.registry <;> simp [RegistrySearch.element, definitionWords]

theorem undefining_of_emitInterface {installRootId : Option String} {result : List Element}
    (given : (c.emitInterface installRootId).Gives before result after) :
    ∀ x ∈ result, Undefining x := by
  have dialogs : ∀ x ∈ c.dialogElements installRootId, Undefining x := by
    rw [dialogElements]
    cases c.project.ui <;> cases installRootId <;> simp [UiKind.dialogSet?, definitionWords]
  obtain ⟨between, -, given⟩ := gives_noteUnless given
  split at given
  next =>
    obtain ⟨rfl, -⟩ := gives_pure.mp given
    exact dialogs
  next =>
    simp only [gives_bind, gives_pure] at given
    obtain ⟨source, _, -, rfl, -⟩ := given
    rw [List.forall_mem_append]
    exact ⟨fun x mem => dialogs x (List.mem_filter.mp mem).1, by simp [definitionWords]⟩

end Compilation

/-- The message of the action that refuses the installation, if there is one. -/
def Project.guardMessage? (project : Project) : Option String := do
  let strategy ← project.upgradeStrategy
  if strategy.preventDowngradingVersions.isSome then strategy.newerProductInstalledErrorMessage
  else none

def UpgradeStrategy.guardElement (message : String) : Element :=
  { name := "CustomAction", attrs := [("Id", guardId), ("Error", message)] }

namespace Compilation

variable {c : Compilation} {before after : Ledger}

theorem definitions_upgradeElements : c.upgradeElements.definitions =
    (c.project.upgradeStrategy.map (·.element c)).toList ++
      (c.project.guardMessage?.map UpgradeStrategy.guardElement).toList := by
  rw [upgradeElements, Project.guardMessage?]
  cases c.project.upgradeStrategy with
  | none => rfl
  | some strategy =>
    cases prevented : strategy.preventDowngradingVersions with
    | none => simp [UpgradeStrategy.elements, prevented]
    | some range =>
      cases message : strategy.newerProductInstalledErrorMessage with
      | none => simp [UpgradeStrategy.elements, prevented, message]
      | some message =>
        simp [UpgradeStrategy.elements, prevented, message, UpgradeStrategy.guardElements,
          UpgradeStrategy.guardElement]

theorem undefining_upgrade (strategy : UpgradeStrategy) : Undefining (strategy.element c) := by
  have versions : ∀ x ∈
      (strategy.upgradeVersions.map (·.upgradeElement c.project.version)).toList ++
      (strategy.preventDowngradingVersions.map (·.blockingElement c.project.version)).toList,
      Undefining x := by
    rw [List.forall_mem_append]
    cases strategy.upgradeVersions <;> cases strategy.preventDowngradingVersions <;>
      simp [VersionRange.upgradeElement, VersionRange.blockingElement, definitionWords]
  rw [Undefining, UpgradeStrategy.element, only_addAll]
  exact ⟨by simp [definitionWords], versions⟩

theorem undefining_entry {id : String} {condition : Option String} {placement : Placement} :
    Undefining (customEntry id condition placement) :=
  only_iff.mpr ⟨by show "Custom" ∉ _; decide, by simp [elements_customEntry]⟩

theorem supplied_actions {elements : ActionElements}
    (given : (CustomAction.emitAll c).Gives before elements after) :
    elements.Supplied (· ∉ definitionWords) fun e => e.name ∉ definitionWords := by
  obtain ⟨steps, run, -⟩ := CustomAction.isRun_of_emitAll given
  constructor
  · intro x mem watched
    rcases run.name_definitions x mem with named | named
    · exact absurd (named ▸ by decide) watched
    · exact absurd (named ▸ by decide) watched
  · rw [run.entries, List.forall_mem_flatMap]
    intro step _ entry mem
    rcases ActionStep.mem_entries mem with ⟨helper, -, same⟩ | same
    · exact same ▸ undefining_entry
    · exact same ▸ undefining_entry

theorem supplied_upgradeElements :
    c.upgradeElements.Supplied (· ∉ definitionWords) fun e => e.name ∉ definitionWords := by
  constructor
  · rw [definitions_upgradeElements, List.forall_mem_append]
    constructor
    · cases c.project.upgradeStrategy with
      | none => exact nofun
      | some strategy => exact List.forall_mem_singleton.mpr fun _ => undefining_upgrade strategy
    · cases c.project.guardMessage? with
      | none => exact nofun
      | some message =>
        exact List.forall_mem_singleton.mpr fun watched =>
          absurd (by decide : "CustomAction" ∈ definitionWords) watched
  · intro entry mem
    rw [upgradeElements] at mem
    split at mem
    next => cases mem
    next strategy _ =>
      show Undefining entry.2
      rcases strategy.mem_entries mem with rfl | ⟨message, guard, -⟩
      · simp [UpgradeStrategy.removalEntry, definitionWords]
      · simp only [UpgradeStrategy.guardElements, List.mem_cons, List.not_mem_nil, or_false]
          at guard
        rcases guard with rfl | rfl <;> simp [definitionWords]

/-- Actions and binaries are defined nowhere but in the package itself. -/
theorem supplies_undefining (c : Compilation) :
    c.Supplies (· ∉ definitionWords) fun e => e.name ∉ definitionWords where
  lasting := lasting_name (· ∉ definitionWords)
  product := by
    refine ⟨by simp [productElement], by simp [productElement, definitionWords], fun x mem _ => ?_⟩
    have among : x ∈ [c.packageElement, c.mediaElement] := by simpa [productElement] using mem
    have both : ∀ x ∈ [c.packageElement, c.mediaElement], Undefining x := by
      simp [packageElement, mediaElement, definitionWords]
    exact both x among
  conditions condition _ := by
    show Undefining condition.element
    simp [LaunchCondition.element, definitionWords]
  installed given := by
    have entities := areEntities_of_emitStandalone given
    refine List.forall_mem_cons.mpr ⟨fun _ => undefining_root entities.components,
      fun x mem _ => ?_⟩
    exact Everywhere.mono (entities.declarations x mem) fun _ word =>
      (by decide : ∀ w ∈ entityWords, w ∉ definitionWords) _ word
  filling {_ filling} given := by
    obtain ⟨_, _, propertySteps⟩ := given.properties
    obtain ⟨_, _, actionSteps⟩ := given.actions
    obtain ⟨_, _, binarySteps⟩ := given.binaries
    obtain ⟨_, _, dialogSteps⟩ := given.dialogs
    have properties : ∀ x ∈ filling.properties, Undefining x :=
      Yields.mapM (fun _ _ _ _ _ given => undefining_of_emit given) _ _ _ propertySteps
    have binaries : ∀ x ∈ filling.binaries, x.name = "Binary" :=
      Yields.mapM (fun binary _ _ _ _ given => (binary.leaf_of_emit given).1) _ _ _ binarySteps
    exact {
      properties := fun x mem _ => properties x mem
      actions := supplied_actions actionSteps
      binaries := fun x mem watched => absurd (binaries x mem ▸ by decide) watched
      dialogs := fun x mem _ => undefining_of_emitInterface dialogSteps x mem
      environment := fun x mem _ => by
        obtain ⟨id, path, rfl⟩ := exists_variableElement given.environment x mem
        show Undefining (c.variableElement id path)
        simp [variableElement, definitionWords] }
  upgrades := supplied_upgradeElements
  features ledger := c.project.only_featureElements ledger
    (by decide : ∀ word ∈ ["Feature", "Condition", "ComponentRef"], word ∉ definitionWords)
  declared name feature _ := by
    show Undefining feature.element
    simp [Feature.element, definitionWords]
  tables sequence := by cases sequence <;> decide
  references _ := by show "MergeRef" ∉ _; decide
  module _ _ _ := by show "Module" ∉ _; decide
  package x _ only := by
    show Undefining (c.modulePackage x)
    rw [Undefining, modulePackage, only_attr?, only_attr, only_withoutAttr]
    exact only

/-- The definition of the guard is all that upgrades add to the actions. -/
theorem filter_upgradeElements :
    c.upgradeElements.definitions.filter (fun x => x.name == "CustomAction") =
      (c.project.guardMessage?.map UpgradeStrategy.guardElement).toList := by
  rw [definitions_upgradeElements, List.filter_append]
  cases c.project.upgradeStrategy <;> cases c.project.guardMessage? <;>
    simp [UpgradeStrategy.element, UpgradeStrategy.guardElement]

theorem flatMap_if_singleton {α β : Type} (p : α → Bool) (f : α → β) (xs : List α) :
    xs.flatMap (fun x => if p x then [f x] else []) = (xs.filter p).map f := by
  induction xs with
  | nil => rfl
  | cons x rest ih =>
    rw [List.flatMap_cons, ih]
    cases holds : p x <;> simp [holds]

/-- All definitions of actions and binaries are children of the package with nothing inside. -/
theorem idsNamed_definitions {document package : Element} (fresh : before.locations = [])
    (given : c.emitDocument.Gives before document after) (single : document.elements = [package])
    (leaves : ∀ x ∈ package.elements, x.name ∈ definitionWords → x.elements = []) {word : String}
    (isWord : word ∈ definitionWords) :
    document.idsNamed word = (package.elementsNamed word).map id? := by
  obtain ⟨package', rfl, keeps⟩ := (supplies_undefining c).keeps_of_emitDocument fresh given
  rw [elements_document, List.singleton_inj] at single
  subst single
  have outer : ((rootElement (Extension.ordered after.extensions)).add package').name ≠ word := by
    intro same
    rw [← same] at isWord
    exact (by decide : "Wix" ∉ definitionWords) (by simpa [rootElement] using isWord)
  have inner : package'.name ≠ word := fun same =>
    (by decide : ∀ w ∈ ["Product", "Module"], w ∉ definitionWords) _ keeps.name_mem (same ▸ isWord)
  have each : ∀ x ∈ package'.elements,
      x.idsNamed word = if x.name == word then [x.id?] else [] := by
    intro x mem
    by_cases definition : x.name ∈ definitionWords
    · rw [idsNamed_eq_flatMap, leaves x mem definition, List.flatMap_nil, List.append_nil]
      simp only [beq_iff_eq]
    · have none := idsNamed_of_only (Everywhere.mono (keeps.children x mem definition)
        fun name other => ne_of_mem_of_not_mem isWord other |>.symm)
      have other : x.name ≠ word := fun same => definition (same ▸ isWord)
      simp [none, other]
  rw [idsNamed_eq_flatMap, if_neg outer, elements_document, List.flatMap_singleton,
    idsNamed_eq_flatMap, if_neg inner, List.nil_append, List.nil_append, List.flatMap_congr each]
  exact flatMap_if_singleton (fun x => x.name == word) id? _

theorem leaves_of_hasChildren {package : Element} {pieces : Pieces}
    (areGiven : pieces.AreGiven c before)
    (has : package.HasChildren (pieces.parts c) (pieces.entries c)) :
    ∀ x ∈ package.elements, x.name ∈ definitionWords → x.elements = [] := by
  obtain ⟨_, _, actionSteps⟩ := areGiven.actions
  obtain ⟨_, _, binarySteps⟩ := areGiven.binaries
  have defines := CustomAction.defines_of_emitAll actionSteps
  have own : ∀ x ∈ pieces.binaries, x.elements = [] :=
    Yields.mapM (fun binary _ _ _ _ given => (binary.leaf_of_emit given).2) _ _ _ binarySteps
  intro x mem isWord
  have among : x ∈ package.elementsNamed x.name := List.mem_filter.mpr ⟨mem, beq_self_eq_true _⟩
  simp only [definitionWords, List.mem_cons, List.not_mem_nil, or_false] at isWord
  rcases isWord with named | named
  · rw [named, customActions_of_hasChildren areGiven has, filter_upgradeElements,
      List.mem_append] at among
    rcases among with action | guard
    · exact defines.leaves x (List.mem_filter.mp action).1
    · obtain ⟨message, -, rfl⟩ := Option.map_eq_some_iff.mp (Option.mem_toList.mp guard)
      rfl
  · rw [named, binaries_of_hasChildren areGiven has, List.mem_append] at among
    rcases among with action | binary
    · exact defines.leaves x (List.mem_filter.mp action).1
    · exact own x binary

end Compilation

/-! ## Compiled projects -/

namespace Project

variable {project : Project} {options : Options} {output : Output}

def actionIds (project : Project) : List String :=
  CustomAction.mainIds project.actions {}

def helperIds (project : Project) : List String :=
  (project.actions.zip project.actionIds).filterMap fun entry => entry.1.helperId? entry.2

def guardIds (project : Project) : List String :=
  (project.guardMessage?.map fun _ => UpgradeStrategy.guardId).toList

/-- Preparing a project leaves the ids of its actions and helpers alone. -/
theorem actionIds_prepare (project : Project) (options : Options) :
    (project.prepare options).project.actionIds = project.actionIds ∧
      (project.prepare options).project.helperIds = project.helperIds := by
  obtain ⟨dirs, actions, prepared, rfl | rfl⟩ := project.exists_prepare options
  · rw [prepared]
    exact ⟨rfl, rfl⟩
  · have ids : CustomAction.mainIds (project.actions.map CustomAction.widen) {} =
        project.actionIds := by
      rw [actionIds, CustomAction.mainIds, CustomAction.mainIds, CustomAction.idsFrom_eq,
        CustomAction.idsFrom_eq, List.filterMap_map, List.map_map]
      rfl
    have helper : ∀ (action : CustomAction) (id : String),
        action.widen.helperId? id = action.helperId? id := by
      intro action id
      cases kind : action.kind <;>
        simp [CustomAction.helperId?, CustomAction.widen, ActionKind.widen, kind]
    rw [prepared]
    refine ⟨ids, ?_⟩
    rw [helperIds, helperIds]
    show (List.zip (project.actions.map CustomAction.widen)
      (CustomAction.mainIds (project.actions.map CustomAction.widen) {})).filterMap _ = _
    rw [ids, List.zip_map_left, List.filterMap_map]
    exact List.filterMap_congr fun entry _ => helper entry.1 entry.2

/-- The actions that a document defines, and when no two of them have the same id. -/
structure IdentifiesActions (project : Project) (document : Element) : Prop where
  ids : (document.idsNamed "CustomAction").Perm
    ((project.actionIds ++ (project.helperIds ++ project.guardIds)).map some)
  nodup_iff : (document.idsNamed "CustomAction").Nodup ↔
    (project.actions.filterMap CustomAction.id).Nodup ∧
      ∀ id ∈ project.helperIds ++ project.guardIds, id ∉ project.actionIds

theorem nodup_actionIds_iff (project : Project) :
    project.actionIds.Nodup ↔ (project.actions.filterMap CustomAction.id).Nodup := by
  refine ⟨fun distinct => ?_, CustomAction.nodup_mainIds {}⟩
  obtain ⟨declared, same, kept⟩ := CustomAction.subperm_mainIds project.actions {}
  exact same.nodup_iff.mp (distinct.sublist kept)

/-- The guard has an id that no helper has. -/
theorem nodup_addedIds (distinct : project.actionIds.Nodup) :
    (project.helperIds ++ project.guardIds).Nodup := by
  have guard : project.guardIds.Nodup := by
    rw [guardIds]
    cases project.guardMessage? <;> simp
  refine List.nodup_append.mpr
    ⟨CustomAction.nodup_helperIds (CustomAction.length_mainIds _ _).symm distinct, guard, ?_⟩
  rintro helper isHelper _ isGuard rfl
  obtain ⟨entry, -, found⟩ := List.mem_filterMap.mp isHelper
  obtain ⟨message, -, same⟩ := Option.map_eq_some_iff.mp (Option.mem_toList.mp isGuard)
  -- the two begin with different letters
  have first : helper.toList.head? = some 'S' := by
    rcases CustomAction.helperId?_cases found with rfl | rfl <;> simp [String.toList_append]
  rw [← same] at first
  exact absurd first (by decide)

/-- The actions of a prepared project have the ids that an empty pool gives them. -/
theorem mainIds_of_sameIds {c : Compilation} {begun : Ledger}
    (start : Compilation.ofProject options (project.prepare options).project = .ok c)
    (same : Ledger.SameIds .action { ids := (project.prepare options).ids } begun) :
    CustomAction.mainIds c.project.actions begun.ids = project.actionIds := by
  have agree : IdPool.AgreeOn .action begun.ids {} :=
    ((project.agreeOn_prepare options (by decide)).trans same).symm
  rw [CustomAction.mainIds_congr agree, (Compilation.project_of_ofProject start).1]
  exact (project.actionIds_prepare options).1

/-- The actions of a prepared project are defined with those ids. -/
theorem definesActions {c : Compilation} {pieces : Compilation.Pieces}
    (start : Compilation.ofProject options (project.prepare options).project = .ok c)
    (areGiven : pieces.AreGiven c { ids := (project.prepare options).ids }) :
    Defines (∀ action ∈ project.actions, action.KeepsId) project.actionIds
      ((c.project.actions.zip project.actionIds).flatMap fun entry =>
        entry.1.definedIds entry.2) pieces.actions.definitions := by
  obtain ⟨begun, _, steps, same⟩ := areGiven.drawsActions
  have prepared := (Compilation.project_of_ofProject start).1
  have defines := CustomAction.defines_of_emitAll steps
  rw [mainIds_of_sameIds start same] at defines
  refine defines.mono (fun keeps => ?_) (List.Subset.refl _)
  obtain ⟨dirs, actions, unchanged, rfl | rfl⟩ := project.exists_prepare options
  · rwa [prepared, unchanged]
  · rw [prepared, unchanged, List.forall_mem_map]
    exact keeps

/-- The steps stand for the declared actions, and the package defines the actions of the steps with
their helpers, and after them the guard. -/
structure HasSteps (project : Project) (options : Options) (package : Element)
    (steps : List ActionStep) : Prop where
  actions : steps.map ActionStep.action = (project.prepare options).project.actions
  /-- Preparing a project changes an action in no other way than by widening it. -/
  declared : steps.map ActionStep.action = project.actions ∨
    steps.map ActionStep.action = project.actions.map CustomAction.widen
  ids : steps.map ActionStep.id = project.actionIds
  definitions : package.elementsNamed "CustomAction" = steps.flatMap ActionStep.definitions ++
    (project.guardMessage?.map UpgradeStrategy.guardElement).toList

theorem hasSteps_of_isRun {c : Compilation} {pieces : Compilation.Pieces} {before : Ledger}
    {package : Element} {steps : List ActionStep}
    (start : Compilation.ofProject options (project.prepare options).project = .ok c)
    (areGiven : pieces.AreGiven c before)
    (has : package.HasChildren (pieces.parts c) (pieces.entries c))
    (run : IsRun none [] steps pieces.actions)
    (actions : steps.map ActionStep.action = c.project.actions)
    (ids : steps.map ActionStep.id = project.actionIds) :
    project.HasSteps options package steps := by
  have prepared := (Compilation.project_of_ofProject start).1
  obtain ⟨dirs, declared, unchanged, widened⟩ := project.exists_prepare options
  have guard : c.project.guardMessage? = project.guardMessage? := by
    rw [prepared, unchanged]
    rfl
  exact {
    actions := by rw [actions, prepared]
    declared := by rwa [actions, prepared, unchanged]
    ids := ids
    definitions := by
      rw [Compilation.customActions_of_hasChildren areGiven has, run.customActions,
        Compilation.filter_upgradeElements, guard] }

/-- The actions of the document are those of the project, their helpers and the guard. -/
theorem perm_actionIds (compiled : project.compile options = .ok output)
    (keeps : ∀ action ∈ project.actions, action.KeepsId) :
    (output.document.idsNamed "CustomAction").Perm
      ((project.actionIds ++ (project.helperIds ++ project.guardIds)).map some) := by
  obtain ⟨c, ledger, start, given, -⟩ := made_of_compile compiled
  obtain ⟨package, pieces, single, areGiven, has⟩ :=
    Compilation.hasChildren_of_emitDocument rfl given
  have prepared := (Compilation.project_of_ofProject start).1
  obtain ⟨actionIds, helperIds⟩ := project.actionIds_prepare options
  have guard : c.project.guardMessage? = project.guardMessage? := by
    obtain ⟨dirs, actions, unchanged, -⟩ := project.exists_prepare options
    rw [prepared, unchanged]
    rfl
  have guardId : (c.project.guardMessage?.map UpgradeStrategy.guardElement).toList.map id? =
      project.guardIds.map some := by
    rw [guard, guardIds]
    cases project.guardMessage? <;> rfl
  have length : c.project.actions.length = project.actionIds.length := by
    rw [← actionIds, ← prepared]
    exact (CustomAction.length_mainIds c.project.actions {}).symm
  have all := (CustomAction.perm_definedIds length).map some
  rw [Compilation.idsNamed_definitions rfl given single
      (Compilation.leaves_of_hasChildren areGiven has) (by decide),
    Compilation.customActions_of_hasChildren areGiven has, Compilation.filter_upgradeElements,
    List.map_append, (definesActions start areGiven).ids keeps, guardId, ← List.append_assoc,
    List.map_append]
  refine (all.append_right _).trans (.of_eq ?_)
  rw [← helperIds, Project.helperIds, actionIds, ← prepared]

/-- The document of a compiled project defines its actions, their helpers and the guard.  Their ids
are different just if the declared ids of actions are and no helper, nor the guard, has the id of an
action. -/
theorem identifiesActions_of_compile (compiled : project.compile options = .ok output)
    (keeps : ∀ action ∈ project.actions, action.KeepsId) :
    project.IdentifiesActions output.document := by
  have ids := perm_actionIds compiled keeps
  refine ⟨ids, ?_⟩
  rw [ids.nodup_iff, List.nodup_map_iff (Option.some_injective String), List.nodup_append,
    ← nodup_actionIds_iff]
  constructor
  · rintro ⟨distinct, -, apart⟩
    exact ⟨distinct, fun id added own => apart id own id added rfl⟩
  · rintro ⟨distinct, apart⟩
    refine ⟨distinct, nodup_addedIds distinct, ?_⟩
    rintro id own _ added rfl
    exact apart id added own

theorem identifiesActions_staged :
    ∃ output, staged.compile {} = .ok output ∧ staged.IdentifiesActions output.document ∧
      (output.document.idsNamed "CustomAction").Nodup := by
  obtain ⟨output, compiled⟩ := exists_output (by decide +kernel : (staged.compile {}).isOk = true)
  have keeps : ∀ action ∈ staged.actions, action.KeepsId := by
    simp [staged, CustomAction.KeepsId, Attributes.empty]
  have identifies := identifiesActions_of_compile compiled keeps
  refine ⟨output, compiled, identifies, identifies.nodup_iff.mpr ⟨by decide, ?_⟩⟩
  decide +kernel

/-- A project with an action that runs a command without a window, and one with another name. -/
def windowless (name : String) : Project where
  name := "App"
  dirs := [⟨{ name := "%ProgramFiles%\\App", files := [{ name := "app.exe" }] }, []⟩]
  actions := [{ name := "Start", kind := .quietCommand "app.exe" "/start" },
    { name, kind := .setProperty "MODE" "full" }]

/-- The helper of the first action and the second action have the same id. -/
theorem not_nodup_windowless :
    ∃ output, (windowless "Set_Start_CmdLine").compile {} = .ok output ∧
      (∀ action ∈ (windowless "Set_Start_CmdLine").actions, action.KeepsId) ∧
      ((windowless "Set_Start_CmdLine").actions.filterMap CustomAction.id).Nodup ∧
        ¬ (output.document.idsNamed "CustomAction").Nodup := by
  obtain ⟨output, compiled, ids⟩ := exists_output_of_any
    (by decide +kernel : ((windowless "Set_Start_CmdLine").compile {}).toOption.any (fun output =>
      output.document.idsNamed "CustomAction" ==
        [some "Set_Start_CmdLine", some "Start", some "Set_Start_CmdLine"]) = true)
  refine ⟨output, compiled, by simp [windowless, CustomAction.KeepsId, Attributes.empty],
    by decide, ?_⟩
  rw [beq_iff_eq.mp ids]
  decide

end Project

end Installer
