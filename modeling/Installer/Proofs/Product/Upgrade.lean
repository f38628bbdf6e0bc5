import Installer.Proofs.Product.ActionIds

/-! # Upgrades of a package

An upgrade strategy gives the ranges of versions that are looked for, the entry that removes old
versions, and the guard, an action that refuses the installation over newer ones.  The ranges alone
do nothing: only the entry removes old versions, and only the guard reads the property that is set
for a newer one.  `EnactsUpgrade` says what of these a package has.  Ranges are there when they are
declared, but the entry only when newer versions block the installation, and the guard only when
there is a message for it as well.
-/

namespace Installer

open Markup (Element)
open Markup.Element
open Emit

/-! ## What a package does about other versions -/

namespace Markup.Element

/-- Old versions are removed behind the given step. -/
def RemovesAfter (package : Element) (step : String) : Prop :=
  ∃ row ∈ package.entriesOf .installExecute,
    row.name = "RemoveExistingProducts" ∧ row.attrOf? "After" = some step

/-- Newer versions are looked for, and one that is found sets the property of the guard. -/
def DetectsNewer (package : Element) : Prop :=
  ∃ upgrade ∈ package.elementsNamed "Upgrade", ∃ range ∈ upgrade.elementsNamed "UpgradeVersion",
    range.attrOf? "OnlyDetect" = some "yes" ∧ range.attrOf? "Property" = some "NEWPRODUCTFOUND"

/-- The installation is refused with a message when the property of the guard is set. -/
structure RefusesNewer (package : Element) (message : String) : Prop where
  defined : ∃ definition ∈ package.elementsNamed "CustomAction",
    definition.id? = some "PreventDowngrading" ∧ definition.attrOf? "Error" = some message
  scheduled : ∀ sequence ∈ [Sequence.installExecute, .installUI],
    ∃ row ∈ package.entriesOf sequence, row.name = "Custom" ∧
      row.attrOf? "Action" = some "PreventDowngrading" ∧ row.content = "NEWPRODUCTFOUND"

end Markup.Element

/-- The package removes the versions that are to be removed, and refuses to be installed over those
that are to block the installation. -/
structure UpgradeStrategy.TakesEffect (strategy : UpgradeStrategy) (package : Element) : Prop where
  removes : strategy.upgradeVersions.isSome = true →
    package.RemovesAfter strategy.removeExistingProductAfter
  refuses : strategy.preventDowngradingVersions.isSome = true →
    package.DetectsNewer ∧ ∃ message, package.RefusesNewer message

/-- Where old versions are removed newer ones block the installation, and where they do there is a
message for it. -/
structure UpgradeStrategy.IsComplete (strategy : UpgradeStrategy) : Prop where
  blocked : strategy.upgradeVersions.isSome = true →
    strategy.preventDowngradingVersions.isSome = true
  explained : strategy.preventDowngradingVersions.isSome = true →
    strategy.newerProductInstalledErrorMessage.isSome = true

/-! ## Entries -/

namespace ActionStep

theorem id_helper {step : ActionStep} {helper : Helper} (found : helper ∈ step.helper?) :
    helper.id = "Set_" ++ step.id ++ "_Props" ∨ helper.id = "Set_" ++ step.id ++ "_CmdLine" := by
  rw [helper?] at found
  split at found
  next =>
    split at found
    next =>
      cases found
      exact .inl rfl
    next => cases found
  next =>
    cases found
    exact .inr rfl
  next => cases found

/-- A step schedules its own action and its helper, neither of which removes anything. -/
theorem name_entry {step : ActionStep} {entry : Sequence × Element} (mem : entry ∈ step.entries) :
    entry.2.name = "Custom" := by
  rcases mem_entries mem with ⟨helper, -, same⟩ | same
  · rw [same]
    rfl
  · rw [same]
    rfl

/-- A step schedules the guard only if its action has taken the id of the guard. -/
theorem id_of_guard {step : ActionStep} {entry : Sequence × Element} (mem : entry ∈ step.entries)
    (guard : entry.2.attrOf? "Action" = some UpgradeStrategy.guardId) :
    step.id = UpgradeStrategy.guardId := by
  have refers : ∀ (id : String) (condition : Option String) (placement : Placement),
      (customEntry id condition placement).attrOf? "Action" = some id := fun _ _ _ => rfl
  rcases mem_entries mem with ⟨helper, found, same⟩ | same
  · rw [same, refers, Option.some.injEq] at guard
    -- the ids of helpers begin with another letter
    have first : helper.id.toList.head? = some 'S' := by
      rcases id_helper found with id | id <;> simp [id, String.toList_append]
    rw [guard] at first
    exact absurd first (by decide)
  · rw [same] at guard
    exact Option.some.inj guard

end ActionStep

namespace Compilation

variable {c : Compilation} {before : Ledger} {strategy : UpgradeStrategy}

/-- A strategy schedules the guard and, behind it, the removal. -/
theorem entries_upgradeElements (given : c.project.upgradeStrategy = some strategy) :
    c.upgradeElements.entries =
      (c.project.guardMessage?.toList.flatMap fun message =>
        (UpgradeStrategy.guardElements message).entries) ++
      if strategy.preventDowngradingVersions.isSome then [strategy.removalEntry] else [] := by
  simp only [upgradeElements, Project.guardMessage?, given]
  cases prevented : strategy.preventDowngradingVersions with
  | none => simp [UpgradeStrategy.elements, prevented]
  | some range =>
    cases message : strategy.newerProductInstalledErrorMessage <;>
      simp [UpgradeStrategy.elements, prevented, message]

/-- The versions that are looked for are those that are declared. -/
theorem upgrades_of_hasChildren {package : Element} {pieces : Pieces}
    (areGiven : pieces.AreGiven c before)
    (has : package.HasChildren (pieces.parts c) (pieces.entries c))
    (given : c.project.upgradeStrategy = some strategy) :
    package.elementsNamed "Upgrade" = [strategy.element c] := by
  have named := areGiven.areNamed
  have own : c.upgradeElements.definitions.filter (fun x => x.name == "Upgrade") =
      [strategy.element c] := by
    rw [definitions_upgradeElements, given, List.filter_append]
    cases c.project.guardMessage? <;>
      simp [UpgradeStrategy.element, UpgradeStrategy.guardElement]
  rw [has.named "Upgrade" (by decide), areGiven.filter_parts (by decide)]
  simp only [List.filter_append,
    areGiven.filter_declarations (by decide : "Upgrade" ∉ entityWords),
    filter_of_names named.properties (by decide : "Upgrade" ∉ _),
    filter_of_names named.definitions (by decide : "Upgrade" ∉ _),
    filter_of_names named.binaries (by decide : "Upgrade" ∉ _),
    filter_of_names named.dialogs (by decide : "Upgrade" ∉ _),
    filter_of_names named.environment (by decide : "Upgrade" ∉ _), own, List.nil_append]

/-- Of the entries of a sequence only that of the strategy removes old versions. -/
theorem removals_of_hasChildren {package : Element} {pieces : Pieces} {steps : List ActionStep}
    (has : package.HasChildren (pieces.parts c) (pieces.entries c))
    (run : IsRun none [] steps pieces.actions)
    (given : c.project.upgradeStrategy = some strategy) (sequence : Sequence) :
    (package.entriesOf sequence).filter (fun row => row.name == "RemoveExistingProducts") =
      if strategy.preventDowngradingVersions.isSome ∧ sequence = .installExecute then
        [strategy.removalEntry.2] else [] := by
  have actions : (sequence.rows pieces.actions.entries).filter
      (fun row => row.name == "RemoveExistingProducts") = [] := by
    refine filter_name_eq_nil fun row mem named => ?_
    rw [Sequence.mem_rows, run.entries, List.mem_flatMap] at mem
    obtain ⟨step, -, mem⟩ := mem
    have custom := step.name_entry mem
    rw [named] at custom
    exact absurd custom (by decide)
  rw [entriesOf_eq has, Pieces.entries, Sequence.rows_append, List.filter_append, actions,
    List.nil_append, entries_upgradeElements given, Sequence.rows_append, List.filter_append]
  cases c.project.guardMessage? <;> cases strategy.preventDowngradingVersions <;>
    cases sequence <;> rfl

/-- The guard is defined and scheduled with its message, if there is one. -/
theorem refusesNewer_of_hasChildren {package : Element} {pieces : Pieces}
    (areGiven : pieces.AreGiven c before)
    (has : package.HasChildren (pieces.parts c) (pieces.entries c)) {message : String}
    (guarded : c.project.guardMessage? = some message) : package.RefusesNewer message where
  defined := by
    refine ⟨UpgradeStrategy.guardElement message, ?_, rfl, rfl⟩
    rw [customActions_of_hasChildren areGiven has, filter_upgradeElements, guarded]
    exact List.mem_append_right _ (List.mem_singleton_self _)
  scheduled := by
    obtain ⟨strategy, given, -⟩ := Option.bind_eq_some_iff.mp guarded
    have listed : ∀ entry ∈ (UpgradeStrategy.guardElements message).entries,
        entry.2 ∈ package.entriesOf entry.1 := by
      intro entry mem
      rw [entriesOf_eq has, Sequence.mem_rows, Pieces.entries, entries_upgradeElements given,
        guarded]
      exact List.mem_append_right _ (List.mem_append_left _ (by simpa using mem))
    rw [UpgradeStrategy.guardElements, List.forall_mem_cons, List.forall_mem_singleton] at listed
    rw [List.forall_mem_cons, List.forall_mem_singleton]
    exact ⟨⟨_, listed.1, rfl, rfl, rfl⟩, ⟨_, listed.2, rfl, rfl, rfl⟩⟩

/-- Nothing else schedules an action with the id of the guard. -/
theorem guarded_of_refusesNewer {package : Element} {pieces : Pieces} {steps : List ActionStep}
    (has : package.HasChildren (pieces.parts c) (pieces.entries c))
    (run : IsRun none [] steps pieces.actions)
    (apart : UpgradeStrategy.guardId ∉ steps.map ActionStep.id)
    (given : c.project.upgradeStrategy = some strategy) {message : String}
    (refuses : package.RefusesNewer message) : c.project.guardMessage?.isSome = true := by
  obtain ⟨row, mem, custom, guard, -⟩ := refuses.scheduled .installExecute (by simp)
  rw [entriesOf_eq has, Sequence.mem_rows, Pieces.entries, List.mem_append, run.entries,
    List.mem_flatMap, entries_upgradeElements given, List.mem_append] at mem
  rcases mem with ⟨step, isStep, mem⟩ | guarded | removal
  · exact absurd (List.mem_map.mpr ⟨step, isStep, step.id_of_guard mem guard⟩) apart
  · obtain ⟨message, isMessage, -⟩ := List.mem_flatMap.mp guarded
    exact Option.isSome_of_mem (Option.mem_toList.mp isMessage)
  · split at removal
    next =>
      cases List.mem_singleton.mp removal
      exact absurd custom (by show "RemoveExistingProducts" ≠ "Custom"; decide)
    next => cases removal

end Compilation

/-! ## Compiled projects -/

namespace Project

variable {project : Project} {options : Options} {output : Output} {strategy : UpgradeStrategy}

/-- What a package has of the strategy of its project: the declared ranges, the removal if newer
versions block the installation, and the guard if there is also a message for it. -/
structure EnactsUpgrade (project : Project) (strategy : UpgradeStrategy) (package : Element) :
    Prop where
  ranges : ∃ upgrade, package.elementsNamed "Upgrade" = [upgrade] ∧
    upgrade.elements =
      (strategy.upgradeVersions.map (·.upgradeElement project.version)).toList ++
        (strategy.preventDowngradingVersions.map (·.blockingElement project.version)).toList
  removals : ∀ sequence,
    (package.entriesOf sequence).filter (fun row => row.name == "RemoveExistingProducts") =
      if strategy.preventDowngradingVersions.isSome ∧ sequence = .installExecute then
        [strategy.removalEntry.2] else []
  refuses : ∀ message, strategy.preventDowngradingVersions.isSome = true →
    strategy.newerProductInstalledErrorMessage = some message → package.RefusesNewer message
  /-- No action other than the guard refuses the installation in its place. -/
  refuses_only : UpgradeStrategy.guardId ∉ project.actionIds →
    ∀ message, package.RefusesNewer message →
      strategy.preventDowngradingVersions.isSome = true ∧
        strategy.newerProductInstalledErrorMessage.isSome = true

namespace EnactsUpgrade

variable {package : Element}

theorem removesAfter_iff (enacts : project.EnactsUpgrade strategy package) :
    package.RemovesAfter strategy.removeExistingProductAfter ↔
      strategy.preventDowngradingVersions.isSome = true := by
  have removals := enacts.removals .installExecute
  constructor
  · rintro ⟨row, mem, named, -⟩
    by_contra absent
    rw [if_neg fun both => absent both.1, List.filter_eq_nil_iff] at removals
    exact removals row mem (by simp [named])
  · intro prevented
    rw [if_pos ⟨prevented, rfl⟩] at removals
    have mem : strategy.removalEntry.2 ∈ (package.entriesOf .installExecute).filter
        fun row => row.name == "RemoveExistingProducts" := by simp [removals]
    exact ⟨_, (List.mem_filter.mp mem).1, rfl, rfl⟩

theorem detectsNewer (enacts : project.EnactsUpgrade strategy package)
    (prevented : strategy.preventDowngradingVersions.isSome = true) : package.DetectsNewer := by
  obtain ⟨upgrade, single, ranges⟩ := enacts.ranges
  obtain ⟨range, found⟩ := Option.isSome_iff_exists.mp prevented
  refine ⟨upgrade, by simp [single], range.blockingElement project.version, ?_, ?_⟩
  · rw [elementsNamed, ranges, found]
    simp [VersionRange.blockingElement]
  · exact ⟨rfl, rfl⟩

theorem takesEffect (enacts : project.EnactsUpgrade strategy package)
    (complete : strategy.IsComplete) : strategy.TakesEffect package where
  removes upgrades := enacts.removesAfter_iff.mpr (complete.blocked upgrades)
  refuses prevented := by
    obtain ⟨message, given⟩ := Option.isSome_iff_exists.mp (complete.explained prevented)
    exact ⟨enacts.detectsNewer prevented, message, enacts.refuses message prevented given⟩

theorem isComplete (enacts : project.EnactsUpgrade strategy package)
    (apart : UpgradeStrategy.guardId ∉ project.actionIds) (effect : strategy.TakesEffect package) :
    strategy.IsComplete where
  blocked upgrades := enacts.removesAfter_iff.mp (effect.removes upgrades)
  explained prevented := by
    obtain ⟨-, message, refuses⟩ := effect.refuses prevented
    exact (enacts.refuses_only apart message refuses).2

end EnactsUpgrade

theorem guardMessage?_isSome_iff (given : project.upgradeStrategy = some strategy) :
    project.guardMessage?.isSome = true ↔
      strategy.preventDowngradingVersions.isSome = true ∧
        strategy.newerProductInstalledErrorMessage.isSome = true := by
  simp only [guardMessage?, given]
  cases prevented : strategy.preventDowngradingVersions <;> simp [prevented]

theorem exists_enactsUpgrade (compiled : project.compile options = .ok output)
    (given : project.upgradeStrategy = some strategy) :
    ∃ package, output.document.elements = [package] ∧ project.EnactsUpgrade strategy package := by
  obtain ⟨c, ledger, start, emitted, -⟩ := made_of_compile compiled
  obtain ⟨package, pieces, single, areGiven, has⟩ :=
    Compilation.hasChildren_of_emitDocument rfl emitted
  obtain ⟨begun, _, actionSteps, same⟩ := areGiven.drawsActions
  obtain ⟨steps, run, -, ids, -⟩ := CustomAction.isRun_of_emitAll actionSteps
  rw [mainIds_of_sameIds start same] at ids
  obtain ⟨dirs, actions, unchanged, -⟩ := project.exists_prepare options
  have prepared := (Compilation.project_of_ofProject start).1.trans unchanged
  have given' : c.project.upgradeStrategy = some strategy := by rw [prepared]; exact given
  have version : c.project.version = project.version := by rw [prepared]
  have guard : c.project.guardMessage? = project.guardMessage? := by rw [prepared]; rfl
  exact ⟨package, single, {
    ranges := ⟨_, Compilation.upgrades_of_hasChildren areGiven has given', by
      rw [UpgradeStrategy.element, elements_addAll, version]
      rfl⟩
    removals := Compilation.removals_of_hasChildren has run given'
    refuses := fun message prevented explained =>
      Compilation.refusesNewer_of_hasChildren areGiven has (by
        rw [guard, guardMessage?, given]
        simp [prevented, explained])
    refuses_only := fun apart message refuses => by
      rw [← guardMessage?_isSome_iff given, ← guard]
      exact Compilation.guarded_of_refusesNewer has run (ids ▸ apart) given' refuses }⟩

/-- The package of a compiled project has of its upgrade strategy what `EnactsUpgrade` says, so that
a complete strategy takes effect.  Another one does not, unless an action has taken the id of the
guard. -/
theorem enactsUpgrade_of_compile (compiled : project.compile options = .ok output)
    (given : project.upgradeStrategy = some strategy) :
    ∃ package, output.document.elements = [package] ∧ project.EnactsUpgrade strategy package ∧
      (strategy.IsComplete → strategy.TakesEffect package) ∧
        (UpgradeStrategy.guardId ∉ project.actionIds →
          strategy.TakesEffect package → strategy.IsComplete) := by
  obtain ⟨package, single, enacts⟩ := exists_enactsUpgrade compiled given
  exact ⟨package, single, enacts, enacts.takesEffect, enacts.isComplete⟩

theorem takesEffect_staged :
    ∃ output package, staged.compile {} = .ok output ∧
      staged.upgradeStrategy = some .standard ∧ output.document.elements = [package] ∧
        UpgradeStrategy.standard.TakesEffect package := by
  obtain ⟨output, compiled⟩ := exists_output (by decide +kernel : (staged.compile {}).isOk = true)
  obtain ⟨package, single, -, effect, -⟩ := enactsUpgrade_of_compile compiled rfl
  exact ⟨output, package, compiled, rfl, single, effect ⟨fun _ => rfl, fun _ => rfl⟩⟩

/-- A project with nothing but a file and an upgrade strategy. -/
def upgrading (strategy : UpgradeStrategy) : Project where
  name := "App"
  dirs := [⟨{ name := "%ProgramFiles%\\App", files := [{ name := "app.exe" }] }, []⟩]
  upgradeStrategy := some strategy

theorem exists_not_takesEffect {strategy : UpgradeStrategy}
    (succeeds : ((upgrading strategy).compile {}).isOk = true)
    (incomplete : ¬ strategy.IsComplete) :
    ∃ output package, (upgrading strategy).compile {} = .ok output ∧
      output.document.elements = [package] ∧ ¬ strategy.TakesEffect package := by
  obtain ⟨output, compiled⟩ := exists_output succeeds
  obtain ⟨package, single, enacts⟩ := exists_enactsUpgrade compiled rfl
  have apart : UpgradeStrategy.guardId ∉ (upgrading strategy).actionIds := List.not_mem_nil
  exact ⟨output, package, compiled, single, fun effect =>
    incomplete (enacts.isComplete apart effect)⟩

/-- The strategy that removes old versions and lets newer ones be. -/
def removing : UpgradeStrategy where
  upgradeVersions := some { minimum := "0.0.0.1" }

/-- The strategy that blocks the installation over newer versions and does not say why. -/
def blocking : UpgradeStrategy where
  preventDowngradingVersions := some .newerThanThis

/-- Neither strategy takes effect, though its ranges are in the package. -/
theorem not_takesEffect_upgrading :
    (∃ output package, (upgrading removing).compile {} = .ok output ∧
      output.document.elements = [package] ∧ ¬ removing.TakesEffect package) ∧
    ∃ output package, (upgrading blocking).compile {} = .ok output ∧
      output.document.elements = [package] ∧ ¬ blocking.TakesEffect package := by
  constructor
  · exact exists_not_takesEffect (by decide +kernel) fun complete => nomatch complete.blocked rfl
  · exact exists_not_takesEffect (by decide +kernel) fun complete => nomatch complete.explained rfl

end Project

end Installer
