import Installer.Proofs.Product.Root

/-! # The parts of a product beside its directories

Properties, actions, binaries, dialogs and upgrades are written with a few element names, features
hold no directories, components or files, and to make all of these writes no bookings.
-/

namespace Installer

open Markup (Element)
open Markup.Element
open Emit

/-- The names of the elements at and below the parts of a product other than directories, entities,
features and dialogs. -/
def basicWords : List String :=
  ["Package", "Media", "Condition", "Property", "RegistrySearch", "PropertyRef", "CustomAction",
   "Binary", "WixVariable", "Upgrade", "UpgradeVersion"]

/-- The names of the elements of dialogs that nothing else has. -/
def dialogWords : List String :=
  ["UIRef", "UI", "EmbeddedUI"]

/-- The names of the elements at and below the parts of a product other than directories, entities
and features. -/
def partWords : List String :=
  basicWords ++ dialogWords

namespace Markup.Element

def IsPart (e : Element) : Prop :=
  Only (· ∈ partWords) e

def IsBasicPart (e : Element) : Prop :=
  Only (· ∈ basicWords) e

theorem IsBasicPart.isPart {e : Element} (basic : e.IsBasicPart) : e.IsPart :=
  Everywhere.mono basic fun _ word => List.mem_append_left _ word

theorem IsPart.plain {e : Element} (part : e.IsPart) : Plain e :=
  Everywhere.mono part fun _ word =>
    (by decide : ∀ w ∈ partWords, w ∉ ["Directory", "Component", "File", "Feature"]) _ word

theorem IsBasicPart.plain {e : Element} (basic : e.IsBasicPart) : Plain e :=
  basic.isPart.plain

end Markup.Element

variable {c : Compilation} {project : Project} {before after : Ledger}

/-! ## Basic parts -/

theorem isBasicPart_package (c : Compilation) : IsBasicPart c.packageElement := by
  simp [IsBasicPart, basicWords, Compilation.packageElement]

theorem isBasicPart_media (c : Compilation) : IsBasicPart c.mediaElement := by
  simp [IsBasicPart, basicWords, Compilation.mediaElement]

theorem isBasicPart_launchCondition (condition : LaunchCondition) :
    IsBasicPart condition.element := by
  simp [IsBasicPart, basicWords, LaunchCondition.element]

theorem Property.isBasicPart_element (property : Property) : IsBasicPart property.element := by
  rw [IsBasicPart, element]
  cases property.registry <;> simp [RegistrySearch.element, basicWords]

theorem Property.gives_emit {property : Property} {result : Element}
    (given : property.emit.Gives before result after) :
    IsBasicPart result ∧ Ledger.Books project before after [] [] := by
  rw [emit] at given
  split at given
  next =>
    split at given
    next => exact absurd given gives_fail
    next =>
      obtain ⟨rfl, rfl⟩ := gives_pure.mp given
      exact ⟨by simp [IsBasicPart, basicWords], .refl _⟩
  next =>
    obtain ⟨rfl, rfl⟩ := gives_pure.mp given
    exact ⟨isBasicPart_element property, .refl _⟩

/-- Each step of a list gives a definition and writes no bookings. -/
theorem Emit.gives_mapM_basicParts {α : Type} {step : α → Emit Element}
    (each : ∀ (x : α) (before : Ledger) (result : Element) (after : Ledger),
      (step x).Gives before result after →
        IsBasicPart result ∧ Ledger.Books project before after [] [])
    {xs : List α} {results : List Element} (given : (xs.mapM step).Gives before results after) :
    (∀ x ∈ results, IsBasicPart x) ∧ Ledger.Books project before after [] [] := by
  induction xs generalizing before results with
  | nil =>
    obtain ⟨rfl, rfl⟩ := gives_mapM_nil.mp given
    exact ⟨by simp, .refl _⟩
  | cons x xs ih =>
    obtain ⟨result, between, others, first, rest, rfl⟩ := gives_mapM_cons.mp given
    obtain ⟨plain, firstBooks⟩ := each x _ _ _ first
    obtain ⟨plains, restBooks⟩ := ih rest
    exact ⟨List.forall_mem_cons.mpr ⟨plain, plains⟩, firstBooks.trans restBooks⟩

theorem Compilation.gives_package {source result : String}
    (given : (c.package source).Gives before result after) :
    Ledger.Books project before after [] [] := by
  simp only [package, gives_bind, gives_note, gives_pure] at given
  obtain ⟨_, _, rfl, -, rfl⟩ := given
  exact books_addPackaging

theorem Binary.gives_emitSource {binary : Binary} {result : String}
    (given : (binary.emitSource c).Gives before result after) :
    Ledger.Books project before after [] [] := by
  simp only [emitSource] at given
  split at given
  next => exact Compilation.gives_package given
  next => exact (gives_pure.mp given).2 ▸ .refl _

theorem Binary.gives_emit {binary : Binary} {result : Element}
    (given : (binary.emit c).Gives before result after) :
    IsBasicPart result ∧ Ledger.Books project before after [] [] := by
  simp only [emit, gives_bind, gives_pure] at given
  obtain ⟨_, _, claimed, _, _, packaged, rfl, rfl⟩ := given
  have claims : Ledger.Books project before _ [] [] := gives_idOr claimed
  exact ⟨by simp [IsBasicPart, basicWords], claims.trans_nil (gives_emitSource packaged)⟩

/-! ## Actions -/

/-- The entries of sequences are plain. -/
structure ActionElements.AreParts (actions : ActionElements) : Prop where
  definitions : ∀ x ∈ actions.definitions, IsBasicPart x
  entries : ∀ entry ∈ actions.entries, Plain entry.2

namespace ActionElements.AreParts

variable {actions₁ actions₂ : ActionElements}

theorem nil : ActionElements.AreParts {} :=
  ⟨by simp, by simp⟩

theorem append (first : actions₁.AreParts) (second : actions₂.AreParts) :
    (actions₁ ++ actions₂).AreParts :=
  ⟨List.forall_mem_append.mpr ⟨first.definitions, second.definitions⟩,
    List.forall_mem_append.mpr ⟨first.entries, second.entries⟩⟩

end ActionElements.AreParts

namespace CustomAction

theorem plain_schedule (action : CustomAction) (id : String) (condition : Option String)
    (placement : Placement) : ∀ entry ∈ action.schedule id condition placement, Plain entry.2 := by
  rw [schedule, List.forall_mem_map]
  intro sequence _
  cases condition <;> simp [Plain]

theorem isBasicPart_definition (action : CustomAction) (attrs : List (String × String)) :
    IsBasicPart (action.definition attrs) := by
  simp [IsBasicPart, basicWords, definition]

theorem isBasicPart_binaryElement (id source : String) :
    IsBasicPart (binaryElement id source) := by
  simp [IsBasicPart, basicWords, binaryElement]

theorem isBasicPart_settingElement (id property value : String) :
    IsBasicPart (settingElement id property value) := by
  simp [IsBasicPart, basicWords, settingElement]

theorem gives_emitManagedBinary {made : List Element} {id assembly : String}
    {result : String × List Element}
    (given : (emitManagedBinary c made id assembly).Gives before result after) :
    (∀ x ∈ result.2, IsBasicPart x) ∧ Ledger.Books project before after [] [] := by
  simp only [emitManagedBinary] at given
  split at given
  next =>
    obtain ⟨rfl, rfl⟩ := gives_pure.mp given
    exact ⟨by simp, .refl _⟩
  next =>
    simp only [gives_bind, gives_pure] at given
    obtain ⟨_, _, packaged, rfl, rfl⟩ := given
    exact ⟨by simpa using isBasicPart_binaryElement _ _, Compilation.gives_package packaged⟩

theorem gives_emitKind {made : List Element} {id : String} {placement : Placement}
    {action : CustomAction} {result : ActionElements}
    (given : (action.emitKind c made id placement).Gives before result after) :
    result.AreParts ∧ Ledger.Books project before after [] [] := by
  have alone : ∀ attrs, ActionElements.AreParts
      ⟨[action.definition attrs], action.schedule id (some action.condition) placement⟩ :=
    fun attrs => ⟨by simpa using isBasicPart_definition action attrs, plain_schedule _ _ _ _⟩
  simp only [emitKind] at given
  cases kind : action.kind with
  | setProperty property value =>
    simp only [kind] at given
    obtain ⟨rfl, rfl⟩ := gives_pure.mp given
    exact ⟨alone _, .refl _⟩
  | script code =>
    simp only [kind] at given
    obtain ⟨rfl, rfl⟩ := gives_pure.mp given
    exact ⟨⟨by simp [IsBasicPart, basicWords], plain_schedule _ _ _ _⟩, .refl _⟩
  | scriptFile scriptFile procedure =>
    simp only [kind] at given
    obtain ⟨rfl, rfl⟩ := gives_pure.mp given
    have binary : ActionElements.AreParts
        ⟨[binaryElement id (c.sourcePath scriptFile)], []⟩ :=
      ⟨by simpa using isBasicPart_binaryElement _ _, by simp⟩
    exact ⟨binary.append (alone _), .refl _⟩
  | managed assembly method usesProperties =>
    simp only [kind, gives_bind] at given
    obtain ⟨⟨key, binaries⟩, _, managed, given⟩ := given
    -- the assembly is packaged once, by the first action that calls it
    obtain ⟨plains, books⟩ : _ ∧ Ledger.Books project _ _ [] [] :=
      gives_emitManagedBinary managed
    have made : ActionElements.AreParts ⟨binaries, []⟩ := ⟨plains, by simp⟩
    obtain ⟨rfl, rfl⟩ := gives_pure.mp given
    refine ⟨(made.append ?_).append (alone _), books⟩
    split
    next => exact ⟨by simpa using isBasicPart_settingElement _ _ _, plain_schedule _ _ _ _⟩
    next => exact .nil
  | quietCommand program args =>
    simp only [kind, gives_bind, gives_note] at given
    obtain ⟨_, _, rfl, given⟩ := given
    obtain ⟨rfl, rfl⟩ := gives_pure.mp given
    refine ⟨⟨?_, ?_⟩, books_addExtension⟩
    · simp [IsBasicPart, basicWords, settingElement]
    · exact List.forall_mem_append.mpr ⟨plain_schedule _ _ _ _, plain_schedule _ _ _ _⟩
  | installedFile fileKey args | binaryFile binaryKey args | pathFile program args workingDir =>
    simp only [kind] at given
    obtain ⟨rfl, rfl⟩ := gives_pure.mp given
    exact ⟨alone _, .refl _⟩

theorem gives_emit {previous : Option String} {made : List Element} {action : CustomAction}
    {result : String × ActionElements}
    (given : (action.emit c previous made).Gives before result after) :
    result.2.AreParts ∧ Ledger.Books project before after [] [] := by
  simp only [emit, gives_bind, gives_liftM, gives_pure] at given
  obtain ⟨_, _, claimed, _, _, ⟨-, rfl⟩, elements, _, kind, rfl, rfl⟩ := given
  have claims : Ledger.Books project before _ [] [] := gives_idOr claimed
  obtain ⟨plains, books⟩ : _ ∧ Ledger.Books project _ _ [] [] := gives_emitKind kind
  exact ⟨plains, claims.trans_nil books⟩

theorem gives_emitFrom {actions : List CustomAction} {previous : Option String}
    {made result : ActionElements} (madePlain : made.AreParts)
    (given : (emitFrom c previous made actions).Gives before result after) :
    result.AreParts ∧ Ledger.Books project before after [] [] := by
  induction actions generalizing previous made before with
  | nil =>
    obtain ⟨rfl, rfl⟩ := gives_pure.mp given
    exact ⟨madePlain, .refl _⟩
  | cons action rest ih =>
    simp only [emitFrom, gives_bind] at given
    obtain ⟨⟨id, elements⟩, _, first, others⟩ := given
    obtain ⟨plains, firstBooks⟩ : _ ∧ Ledger.Books project _ _ [] [] := gives_emit first
    obtain ⟨resultPlain, otherBooks⟩ := ih (madePlain.append plains) others
    exact ⟨resultPlain, firstBooks.trans otherBooks⟩

theorem books_reserve {ids : List String} {result : PUnit}
    (given : (forIn ids PUnit.unit fun id _ => do
      withIds (IdPool.reserve .action id)
      pure (ForInStep.yield PUnit.unit) : Emit PUnit).Gives before result after) :
    Ledger.Books project before after [] [] := by
  induction ids generalizing before with
  | nil => exact (gives_pure.mp given).2 ▸ .refl _
  | cons id rest ih =>
    simp only [List.forIn_cons, gives_bind, gives_pure, gives_withIds] at given
    obtain ⟨_, _, ⟨_, _, ⟨-, rfl⟩, rfl, rfl⟩, others⟩ := given
    have first : Ledger.Books project before
        { before with ids := ((IdPool.reserve .action id).run before.ids).2 } [] [] :=
      .of_eq rfl rfl
    exact first.trans (ih others)

theorem gives_emitAll {result : ActionElements}
    (given : (emitAll c).Gives before result after) :
    result.AreParts ∧ Ledger.Books project before after [] [] := by
  simp only [emitAll, gives_bind] at given
  obtain ⟨_, _, reserved, actions⟩ := given
  have reserves : Ledger.Books project before _ [] [] := books_reserve reserved
  obtain ⟨plains, books⟩ : _ ∧ Ledger.Books project _ _ [] [] := gives_emitFrom .nil actions
  exact ⟨plains, reserves.trans_nil books⟩

end CustomAction

theorem UpgradeStrategy.areParts_elements (strategy : UpgradeStrategy) :
    (strategy.elements c).AreParts := by
  have upgrade : IsBasicPart (strategy.element c) := by
    simp only [IsBasicPart, element, only_addAll, only_mk_nil, List.forall_mem_append]
    refine ⟨by decide, ?_, ?_⟩
    · cases strategy.upgradeVersions <;> simp [VersionRange.upgradeElement, basicWords]
    · cases strategy.preventDowngradingVersions <;>
        simp [VersionRange.blockingElement, basicWords]
  have defined : ActionElements.AreParts { definitions := [strategy.element c] } :=
    ⟨by simpa using upgrade, by simp⟩
  have removal : ActionElements.AreParts { entries := [strategy.removalEntry] } :=
    ⟨by simp, by simp [removalEntry, Plain]⟩
  have guard : ∀ message, (guardElements message).AreParts := fun message =>
    ⟨by simp [guardElements, IsBasicPart, basicWords], by simp [guardElements, Plain]⟩
  rw [elements]
  refine defined.append ?_
  split
  next => exact .nil
  next =>
    split
    next message _ => exact (guard message).append removal
    next => exact ActionElements.AreParts.nil.append removal

/-! ## Features -/

section Words

variable {allowed : String → Prop}

theorem Parents.only_nested {parents : Parents} {elements : List Element}
    (all : ∀ x ∈ elements, Only allowed x) (depth i : Nat) :
    ∀ x ∈ parents.nested elements depth i, Only allowed x := by
  induction depth generalizing i with
  | zero => simp [nested]
  | succ depth ih =>
    rw [nested, List.forall_mem_map]
    intro e mem
    rw [only_addAll, List.forall_mem_flatMap]
    exact ⟨all e (List.mem_of_getElem? (Option.mem_toList.mp mem)), fun child _ => ih child⟩

/-- Features are written with three element names. -/
theorem Project.only_featureElements (project : Project) (ledger : Ledger)
    (words : ∀ word ∈ ["Feature", "Condition", "ComponentRef"], allowed word) :
    ∀ x ∈ project.featureElements ledger, Only allowed x := by
  rw [featureElements, Parents.forest, List.forall_mem_flatMap]
  intro i _
  refine Parents.only_nested (List.forall_mem_map.mpr fun retained _ => ?_) _ i
  simp [RetainedFeature.element, Feature.element, words]

end Words

theorem Parents.name_nested {parents : Parents} {elements : List Element} {name : String}
    (all : ∀ x ∈ elements, x.name = name) (depth i : Nat) :
    ∀ x ∈ parents.nested elements depth i, x.name = name := by
  cases depth with
  | zero => simp [nested]
  | succ depth =>
    rw [nested, List.forall_mem_map]
    exact fun e mem => all e (List.mem_of_getElem? (Option.mem_toList.mp mem))

theorem Project.name_featureElements (project : Project) (ledger : Ledger) :
    ∀ x ∈ project.featureElements ledger, x.name = "Feature" := by
  rw [featureElements, Parents.forest, List.forall_mem_flatMap]
  intro i _
  refine Parents.name_nested (List.forall_mem_map.mpr fun retained _ => ?_) _ i
  simp [RetainedFeature.element, Feature.element]

theorem Project.aside_featureElements (project : Project) (ledger : Ledger) :
    ∀ x ∈ project.featureElements ledger, Aside x :=
  project.only_featureElements ledger (by decide)

/-! ## The user interface -/

/-- Without a set of dialogs none is referred to. -/
theorem Compilation.only_dialogElements {allowed : String → Prop} (property : allowed "Property")
    (dialogs : c.project.ui.dialogSet? ≠ none → allowed "UIRef") (installRootId : Option String) :
    ∀ x ∈ c.dialogElements installRootId, Only allowed x := by
  rw [dialogElements]
  split
  next => simp
  next _ some =>
    have reference : allowed "UIRef" := dialogs (by simp [some])
    rw [List.forall_mem_append, List.forall_mem_map]
    exact ⟨fun _ _ => by simpa using property, by simpa using reference⟩

/-- A note that is made or not before the rest of a step. -/
theorem Emit.gives_noteUnless {α : Type} {skip : Bool} {f : Ledger → Ledger} {rest : Emit α}
    {result : α}
    (given : (if skip = true then rest else do note f; rest).Gives before result after) :
    ∃ between, (between = before ∨ between = f before) ∧ rest.Gives between result after := by
  cases skip with
  | true => exact ⟨before, .inl rfl, given⟩
  | false =>
    rw [if_neg Bool.false_ne_true, gives_bind] at given
    obtain ⟨_, between, noted, given⟩ := given
    exact ⟨between, .inr (gives_note.mp noted), given⟩

theorem Compilation.only_emitInterface {allowed : String → Prop} {installRootId : Option String}
    {result : List Element} (words : ∀ word ∈ ["Property", "UI", "EmbeddedUI"], allowed word)
    (dialogs : c.project.ui.dialogSet? ≠ none → allowed "UIRef")
    (given : (c.emitInterface installRootId).Gives before result after) :
    ∀ x ∈ result, Only allowed x := by
  have references := only_dialogElements (words _ (by decide)) dialogs installRootId
  obtain ⟨between, -, given⟩ := gives_noteUnless given
  split at given
  next =>
    obtain ⟨rfl, -⟩ := gives_pure.mp given
    exact references
  next =>
    simp only [gives_bind, gives_pure] at given
    obtain ⟨source, _, -, rfl, -⟩ := given
    refine List.forall_mem_append.mpr
      ⟨fun x mem => references x (List.mem_filter.mp mem).1, ?_⟩
    simp [words]

theorem Compilation.gives_emitInterface {installRootId : Option String} {result : List Element}
    (given : (c.emitInterface installRootId).Gives before result after) :
    (∀ x ∈ result, IsPart x) ∧ Ledger.Books project before after [] [] := by
  refine ⟨only_emitInterface (by decide) (fun _ => by decide) given, ?_⟩
  obtain ⟨between, noted, given⟩ := gives_noteUnless given
  -- the extension of the interface is noted or not
  have start : Ledger.Books project before between [] [] := by
    rcases noted with rfl | rfl
    · exact .refl _
    · exact books_addExtension
  split at given
  next => exact (gives_pure.mp given).2 ▸ start
  next =>
    simp only [gives_bind, gives_pure] at given
    obtain ⟨source, _, packaged, -, rfl⟩ := given
    exact start.trans_nil (Binary.gives_emitSource packaged)

theorem Compilation.exists_variableElement {result : List Element}
    (found : c.variableElements = .ok result) :
    ∀ x ∈ result, ∃ id path, x = c.variableElement id path := by
  have pictures : ∀ x ∈ (c.project.bannerImage.toList.map (c.variableElement "WixUIBannerBmp")) ++
      (c.project.backgroundImage.toList.map (c.variableElement "WixUIDialogBmp")),
        ∃ id path, x = c.variableElement id path := by
    rw [List.forall_mem_append, List.forall_mem_map, List.forall_mem_map]
    exact ⟨fun path _ => ⟨_, path, rfl⟩, fun path _ => ⟨_, path, rfl⟩⟩
  simp only [variableElements] at found
  split at found
  next =>
    cases found
    exact pictures
  next path _ =>
    split at found
    next =>
      cases found
      exact List.forall_mem_append.mpr
        ⟨pictures, List.forall_mem_singleton.mpr ⟨_, path, rfl⟩⟩
    next => cases found

theorem Compilation.isBasicPart_variableElements {result : List Element}
    (found : c.variableElements = .ok result) : ∀ x ∈ result, IsBasicPart x := by
  intro x mem
  obtain ⟨id, path, rfl⟩ := exists_variableElement found x mem
  simp [IsBasicPart, basicWords, variableElement]

end Installer
