import Installer.Proofs.Product.ActionIds

/-! # Sequences of a compiled package

The steps of a compiled project are its actions with their ids and placements.  The sequences of the
package have the entries of the steps and those of the upgrade strategy, and every entry refers to
an action that is defined.
-/

namespace Installer

open Markup (Element)
open Markup.Element
open Emit

/-- The sequences of `package` hold what the steps call for and what the upgrade strategy adds, and
whatever is referred to is defined. -/
structure Compilation.Schedules (c : Compilation) (steps : List ActionStep) (package : Element) :
    Prop where
  atMostOne : ∀ sequence : Sequence, (package.elementsNamed (Choice.name sequence)).length ≤ 1
  entries : ∀ sequence, package.entriesOf sequence =
    steps.flatMap (·.rowsIn sequence) ++ sequence.rows c.upgradeElements.entries
  /-- The upgrade strategy schedules one action only. -/
  guards : ∀ sequence : Sequence, ∀ row ∈ sequence.rows c.upgradeElements.entries,
    row.name = "Custom" → row.attrOf? "Action" = some "PreventDowngrading"
  /-- Entries for actions are met nowhere else. -/
  customs : ∀ x ∈ package.subtree, x.name = "Custom" → ∃ sequence, x ∈ package.entriesOf sequence
  /-- Every entry for an action refers to a definition. -/
  actions : ∀ sequence, ∀ row ∈ package.entriesOf sequence, row.name = "Custom" →
    ∃ id, row.attrOf? "Action" = some id ∧
      ∃ definition ∈ package.elementsNamed "CustomAction", definition.id? = some id
  /-- Every action that brings a binary along refers to a binary. -/
  binaries : ∀ step ∈ steps, step.action.BringsBinary →
    step.definition ∈ package.elementsNamed "CustomAction" ∧
      step.definition.id? = some step.id ∧
      ∃ key, step.definition.attrOf? "BinaryKey" = some key ∧
        ∃ binary ∈ package.elementsNamed "Binary", binary.id? = some key

namespace Compilation

variable {c : Compilation} {steps : List ActionStep} {package : Element} {pieces : Pieces}

theorem schedules_of_hasChildren (has : package.HasChildren (pieces.parts c) (pieces.entries c))
    (run : IsRun none [] steps pieces.actions)
    (keeps : ∀ step ∈ steps, step.action.KeepsKeys) : c.Schedules steps package where
  atMostOne := fun sequence => by
    rw [has.tables]
    exact sequence.length_table_le _
  entries := fun sequence => by
    rw [entriesOf_eq has, Pieces.entries, Sequence.rows_append, run.entries, rows_flatMap_entries]
  guards := fun sequence row mem custom =>
    (guard_of_mem_upgradeElements (Sequence.mem_rows.mp mem) custom).1
  customs := fun x => mem_entriesOf_of_custom has run
  actions := by
    intro sequence row mem custom
    rw [entriesOf_eq has, Sequence.mem_rows, Pieces.entries, List.mem_append] at mem
    rcases mem with action | upgrade
    · obtain ⟨id, refers, definition, mem, named, found⟩ := exists_definition run keeps action
      exact ⟨id, refers, definition, mem_elementsNamed has (.inl mem) named (by decide), found⟩
    · obtain ⟨refers, definition, mem, named, found⟩ := guard_of_mem_upgradeElements upgrade custom
      exact ⟨_, refers, definition, mem_elementsNamed has (.inr mem) named (by decide), found⟩
  binaries := by
    intro step isStep brings
    have keyed := run.isKeyed step isStep (keeps step isStep)
    obtain ⟨key, refers, binary, mem, named, found⟩ := keyed.binary brings
    have own : step.definition ∈ steps.flatMap ActionStep.definitions :=
      List.mem_flatMap.mpr ⟨step, isStep, step.mem_definitions_self⟩
    rw [← run.customActions, List.mem_filter, beq_iff_eq] at own
    exact ⟨mem_elementsNamed has (.inl own.1) own.2 (by decide), keyed.own, key, refers, binary,
      mem_elementsNamed has (.inl mem) named (by decide), found⟩

end Compilation

namespace Project

variable {project : Project} {options : Options} {output : Output}

/-- The sequences of a compiled package are those of the declared actions and of the upgrade
strategy, as long as no action overwrites its id or the key of its binary. -/
theorem schedules_of_compile (compiled : project.compile options = .ok output)
    (keeps : ∀ action ∈ project.actions, action.KeepsKeys) :
    ∃ c steps package,
      Compilation.ofProject options (project.prepare options).project = .ok c ∧
        output.document.elements = [package] ∧ project.HasSteps options package steps ∧
        (∀ i step, steps[i]? = some step →
          StandsAt (steps.map ActionStep.id) step.action i step.placement) ∧
        c.Schedules steps package := by
  obtain ⟨c, ledger, start, given, -⟩ := Project.made_of_compile compiled
  obtain ⟨package, pieces, single, areGiven, has⟩ :=
    Compilation.hasChildren_of_emitDocument rfl given
  obtain ⟨begun, _, actionSteps, same⟩ := areGiven.drawsActions
  obtain ⟨steps, run, actions, ids, -⟩ := CustomAction.isRun_of_emitAll actionSteps
  have hasSteps := hasSteps_of_isRun start areGiven has run actions
    (ids.trans (mainIds_of_sameIds start same))
  have kept : ∀ step ∈ steps, step.action.KeepsKeys := by
    rw [← List.forall_mem_map (f := ActionStep.action) (P := CustomAction.KeepsKeys),
      hasSteps.actions]
    exact project.keepsKeys_prepare options keeps
  exact ⟨c, steps, package, start, single, hasSteps, fun i step => run.standsAt,
    Compilation.schedules_of_hasChildren has run kept⟩

theorem schedules_staged :
    ∃ (output : Output) (c : Compilation) (steps : List ActionStep) (package : Element),
      Project.staged.compile {} = .ok output ∧
      output.document.elements = [package] ∧ Project.staged.HasSteps {} package steps ∧
      steps.map ActionStep.id = ["Start", "Work", "Work.1", "Work.2"] ∧
      c.Schedules steps package := by
  obtain ⟨output, compiled⟩ := Project.exists_output
    (by decide +kernel : (Project.staged.compile {}).isOk = true)
  obtain ⟨c, steps, package, -, single, hasSteps, -, schedules⟩ :=
    schedules_of_compile compiled (by decide +kernel)
  have ids : Project.staged.actionIds = ["Start", "Work", "Work.1", "Work.2"] := by decide +kernel
  exact ⟨output, c, steps, package, compiled, single, hasSteps, hasSteps.ids.trans ids, schedules⟩

end Project

end Installer
