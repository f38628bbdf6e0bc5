import Installer.Proofs.Action.Run
import Installer.Proofs.Product.Pieces

/-! # Sequences of a package

The entries of a sequence are told off the declared actions: every action has as many entries in it
as it names the sequence, behind as many for its helper.  `Schedules` says so of the package that a
compilation makes, and that all entries and definitions refer to what is there.
-/

namespace Installer

open Markup (Element)
open Markup.Element
open Emit

/-! ## The entries of one action -/

/-- An entry has a number, or it stands before or after the one for another action. -/
def Placement.attr : Placement → String × String
  | .number n => ("Sequence", toString n)
  | .anchor .before action => ("Before", action)
  | .anchor .after action => ("After", action)

theorem Placement.pair_eq_attr (placement : Placement) : placement.pair = placement.attr := by
  rcases placement with n | ⟨_ | _, action⟩ <;> rfl

def customEntry (id : String) (condition : Option String) (placement : Placement) : Element :=
  { name := "Custom"
    attrs := [("Action", id), placement.attr]
    children := (condition.map .text).toList }

theorem elements_customEntry (id : String) (condition : Option String) (placement : Placement) :
    (customEntry id condition placement).elements = [] := by
  cases condition <;> rfl

theorem CustomAction.schedule_eq (action : CustomAction) (id : String) (condition : Option String)
    (placement : Placement) :
    action.schedule id condition placement =
      action.sequences.map fun sequence => (sequence, customEntry id condition placement) := by
  rw [schedule, placement.pair_eq_attr]
  rfl

theorem CustomAction.rows_schedule (action : CustomAction) (id : String)
    (condition : Option String) (placement : Placement) (sequence : Sequence) :
    sequence.rows (action.schedule id condition placement) =
      List.replicate (action.sequences.count sequence) (customEntry id condition placement) := by
  rw [schedule_eq, Sequence.rows]
  induction action.sequences with
  | nil => rfl
  | cons first rest ih =>
    rw [List.map_cons, List.count_cons, List.filter_cons]
    by_cases same : first = sequence
    · subst same
      simp only [beq_self_eq_true, if_true, List.map_cons, ih, List.replicate_succ]
    · simp only [beq_iff_eq, same, if_false, ih, Nat.add_zero]

namespace ActionStep

def entry (step : ActionStep) : Element :=
  customEntry step.id (some step.action.condition) step.ownPlacement

def rowsIn (step : ActionStep) (sequence : Sequence) : List Element :=
  (step.helper?.toList.flatMap fun helper =>
    List.replicate (step.action.sequences.count sequence)
      (customEntry helper.id helper.condition helper.placement)) ++
    List.replicate (step.action.sequences.count sequence) step.entry

theorem rows_entries (step : ActionStep) (sequence : Sequence) :
    sequence.rows step.entries = step.rowsIn sequence := by
  rw [entries, rowsIn, Sequence.rows_append, CustomAction.rows_schedule]
  cases step.helper? with
  | none => rfl
  | some helper => simp [CustomAction.rows_schedule, entry]

theorem mem_definitions_self (step : ActionStep) : step.definition ∈ step.definitions :=
  List.mem_append_right _ (List.mem_singleton_self _)

theorem mem_definitions_helper (step : ActionStep) {helper : Helper}
    (found : helper ∈ step.helper?) : helper.definition ∈ step.definitions := by
  refine List.mem_append_left _ (Option.mem_toList.mpr ?_)
  exact Option.mem_map_of_mem Helper.definition found

theorem mem_entries {step : ActionStep} {entry : Sequence × Element} (mem : entry ∈ step.entries) :
    (∃ helper ∈ step.helper?,
      entry.2 = customEntry helper.id helper.condition helper.placement) ∨
        entry.2 = step.entry := by
  simp only [entries, List.mem_append, List.mem_flatMap, CustomAction.schedule_eq] at mem
  rcases mem with ⟨helper, found, scheduled⟩ | scheduled
  · obtain ⟨sequence, -, rfl⟩ := List.mem_map.mp scheduled
    exact .inl ⟨helper, Option.mem_toList.mp found, rfl⟩
  · obtain ⟨sequence, -, rfl⟩ := List.mem_map.mp scheduled
    exact .inr rfl

end ActionStep

/-! ## What a run defines -/

namespace IsRun

variable {previous : Option String} {made : List Element} {steps : List ActionStep}
  {elements : ActionElements}

theorem customActions (run : IsRun previous made steps elements) :
    elements.definitions.filter (fun x => x.name == "CustomAction") =
      steps.flatMap ActionStep.definitions := by
  induction run with
  | nil => rfl
  | cons placed makes rest ih =>
    obtain ⟨binaries, isBinary, definitions⟩ := makes.definitions
    have none : binaries.filter (fun x => x.name == "CustomAction") = [] :=
      List.filter_eq_nil_iff.mpr fun x mem => by simp [isBinary x mem]
    have all := List.filter_eq_self (p := fun x : Element => x.name == "CustomAction").mpr
      fun x mem => beq_iff_eq.mpr (makes.named x mem)
    rw [ActionElements.definitions_append, List.filter_append, ih, definitions, List.filter_append,
      none, all, List.nil_append, List.flatMap_cons]

/-- What the steps call is defined at the end of the run. -/
theorem isKeyed (run : IsRun previous made steps elements) :
    ∀ step ∈ steps, step.action.KeepsKeys → step.IsKeyed (made ++ elements.definitions) := by
  induction run with
  | nil => simp
  | @cons previous made first steps elements others placed makes rest ih =>
    rw [List.forall_mem_cons, ActionElements.definitions_append, ← List.append_assoc]
    exact ⟨fun keeps => (makes.keyed keeps).mono (List.subset_append_left _ _), ih⟩

end IsRun

/-! ## Upgrades -/

/-- An entry of an upgrade strategy removes the old version or refuses the installation. -/
theorem UpgradeStrategy.mem_entries {strategy : UpgradeStrategy} {c : Compilation}
    {entry : Sequence × Element} (mem : entry ∈ (strategy.elements c).entries) :
    entry = strategy.removalEntry ∨
      ∃ message, entry ∈ (guardElements message).entries ∧
        (guardElements message).definitions ⊆ (strategy.elements c).definitions := by
  rw [elements] at mem ⊢
  split at mem
  next => simp at mem
  next prevented =>
    rw [if_neg prevented]
    cases given : strategy.newerProductInstalledErrorMessage with
    | none =>
      simp only [given, ActionElements.entries_append, List.nil_append, List.mem_singleton] at mem
      exact .inl mem
    | some message =>
      simp only [given, ActionElements.entries_append, List.nil_append, List.mem_append,
        List.mem_singleton] at mem
      rcases mem with guard | removal
      · refine .inr ⟨message, guard, fun definition defined => ?_⟩
        simp only [ActionElements.definitions_append, List.mem_append]
        exact .inr (.inl defined)
      · exact .inl removal

theorem UpgradeStrategy.mem_guardElements {message : String} {entry : Sequence × Element}
    (mem : entry ∈ (guardElements message).entries) :
    entry.2.elements = [] ∧ entry.2.attrOf? "Action" = some "PreventDowngrading" := by
  simp only [guardElements, List.mem_cons, List.not_mem_nil, or_false] at mem
  rcases mem with rfl | rfl
  · exact ⟨rfl, rfl⟩
  · exact ⟨rfl, rfl⟩

namespace Compilation

variable {c : Compilation}

theorem elements_of_mem_upgradeElements {entry : Sequence × Element}
    (mem : entry ∈ c.upgradeElements.entries) : entry.2.elements = [] := by
  rw [upgradeElements] at mem
  split at mem
  next => cases mem
  next strategy _ =>
    rcases strategy.mem_entries mem with rfl | ⟨message, guard, -⟩
    · rfl
    · exact (UpgradeStrategy.mem_guardElements guard).1

/-- An upgrade strategy schedules no action but the one that refuses the installation, which it
defines itself. -/
theorem guard_of_mem_upgradeElements {entry : Sequence × Element}
    (mem : entry ∈ c.upgradeElements.entries) (custom : entry.2.name = "Custom") :
    entry.2.attrOf? "Action" = some "PreventDowngrading" ∧
      ∃ definition ∈ c.upgradeElements.definitions, definition.name = "CustomAction" ∧
        definition.id? = some "PreventDowngrading" := by
  rw [upgradeElements] at mem ⊢
  split at mem
  next => cases mem
  next strategy _ =>
    rcases strategy.mem_entries mem with rfl | ⟨message, guard, defined⟩
    · exact absurd custom (by show "RemoveExistingProducts" ≠ "Custom"; decide)
    · exact ⟨(UpgradeStrategy.mem_guardElements guard).2, _,
        defined (List.mem_singleton_self _), rfl, rfl⟩

end Compilation

/-! ## The entries of a package -/

/-- The entries of a sequence, in document order. -/
def Markup.Element.entriesOf (package : Element) (sequence : Sequence) : List Element :=
  (package.elementsNamed (Choice.name sequence)).flatMap elements

namespace Compilation

variable {c : Compilation} {steps : List ActionStep} {package : Element} {pieces : Pieces}

theorem entriesOf_eq (has : package.HasChildren (pieces.parts c) (pieces.entries c))
    (sequence : Sequence) : package.entriesOf sequence = sequence.rows (pieces.entries c) := by
  rw [entriesOf, has.tables, Sequence.table]
  split
  next empty =>
    rw [List.isEmpty_iff] at empty
    rw [empty, List.flatMap_nil]
  next => simp

theorem rows_flatMap_entries (steps : List ActionStep) (sequence : Sequence) :
    sequence.rows (steps.flatMap ActionStep.entries) = steps.flatMap (·.rowsIn sequence) := by
  simp only [Sequence.rows, List.filter_flatMap, List.map_flatMap]
  exact List.flatMap_congr fun step _ => step.rows_entries sequence

theorem mem_elementsNamed (has : package.HasChildren (pieces.parts c) (pieces.entries c))
    {definition : Element} (mem : definition ∈ pieces.actions.definitions ∨
      definition ∈ c.upgradeElements.definitions) {name : String} (named : definition.name = name)
    (kept : name ∉ changingNames ++ Sequence.names) : definition ∈ package.elementsNamed name := by
  rw [has.named name kept, List.mem_filter, Pieces.parts]
  refine ⟨?_, beq_iff_eq.mpr named⟩
  simp only [List.mem_append]
  tauto

theorem exists_definition (run : IsRun none [] steps pieces.actions)
    (keeps : ∀ step ∈ steps, step.action.KeepsKeys) {entry : Sequence × Element}
    (mem : entry ∈ pieces.actions.entries) :
    ∃ id, entry.2.attrOf? "Action" = some id ∧
      ∃ definition ∈ pieces.actions.definitions, definition.name = "CustomAction" ∧
        definition.id? = some id := by
  rw [run.entries, List.mem_flatMap] at mem
  obtain ⟨step, isStep, mem⟩ := mem
  have keyed := run.isKeyed step isStep (keeps step isStep)
  have defined : ∀ definition ∈ step.definitions,
      definition ∈ pieces.actions.definitions ∧ definition.name = "CustomAction" := by
    intro definition among
    have all : definition ∈ steps.flatMap ActionStep.definitions :=
      List.mem_flatMap.mpr ⟨step, isStep, among⟩
    rw [← run.customActions, List.mem_filter, beq_iff_eq] at all
    exact all
  rcases ActionStep.mem_entries mem with ⟨helper, found, entry_eq⟩ | entry_eq
  · obtain ⟨inside, named⟩ := defined helper.definition (step.mem_definitions_helper found)
    exact ⟨helper.id, by rw [entry_eq]; rfl, _, inside, named, keyed.helper helper found⟩
  · obtain ⟨inside, named⟩ := defined step.definition step.mem_definitions_self
    exact ⟨step.id, by rw [entry_eq]; rfl, _, inside, named, keyed.own⟩

theorem elements_of_mem_entries (run : IsRun none [] steps pieces.actions)
    {entry : Sequence × Element} (mem : entry ∈ pieces.entries c) : entry.2.elements = [] := by
  rcases List.mem_append.mp mem with action | upgrade
  · rw [run.entries, List.mem_flatMap] at action
    obtain ⟨step, -, mem⟩ := action
    rcases ActionStep.mem_entries mem with ⟨helper, -, entry_eq⟩ | entry_eq
    · exact entry_eq ▸ elements_customEntry ..
    · exact entry_eq ▸ elements_customEntry ..
  · exact elements_of_mem_upgradeElements upgrade

theorem mem_entriesOf_of_custom (has : package.HasChildren (pieces.parts c) (pieces.entries c))
    (run : IsRun none [] steps pieces.actions) {x : Element} (mem : x ∈ package.subtree)
    (custom : x.name = "Custom") : ∃ sequence, x ∈ package.entriesOf sequence := by
  have inside : x ∈ package.descendants := by
    rcases List.mem_cons.mp mem with rfl | inside
    · have outer := has.name_mem
      rw [custom] at outer
      exact absurd outer (by decide)
    · exact inside
  rw [descendants_eq_flatMap, List.mem_flatMap] at inside
  obtain ⟨child, isChild, inside⟩ := inside
  by_cases table : child.name ∈ Sequence.names
  · obtain ⟨sequence, named⟩ := Sequence.exists_of_mem_names table
    have among : child ∈ package.elementsNamed (Choice.name sequence) :=
      List.mem_filter.mpr ⟨isChild, by simp [named]⟩
    rcases List.mem_cons.mp inside with rfl | below
    · rw [custom] at table
      exact absurd table (by decide)
    · rw [descendants_eq_flatMap, List.mem_flatMap] at below
      obtain ⟨row, isRow, inside⟩ := below
      have listed : row ∈ package.entriesOf sequence := List.mem_flatMap.mpr ⟨child, among, isRow⟩
      have leaf : row.elements = [] := by
        rw [entriesOf_eq has, Sequence.mem_rows] at listed
        exact elements_of_mem_entries run listed
      rw [subtree, descendants_eq_flatMap, leaf, List.flatMap_nil, List.mem_singleton] at inside
      exact ⟨sequence, inside ▸ listed⟩
  · have other := has.unscheduled child isChild table x inside
    exact absurd (List.mem_cons.mpr (.inl custom)) other

end Compilation

/-! ## Compiling a project -/

theorem Project.keepsKeys_prepare {project : Project} (options : Options)
    (keeps : ∀ action ∈ project.actions, action.KeepsKeys) :
    ∀ action ∈ (project.prepare options).project.actions, action.KeepsKeys := by
  obtain ⟨dirs, actions, same, rfl | rfl⟩ := project.exists_prepare options
  · rwa [same]
  · rw [same, List.forall_mem_map]
    exact keeps

end Installer
