import Installer.Proofs.Directory.Distinct
import Installer.Proofs.Product.ActionIds

/-! # Working directories of programs

An action that runs a program of the target machine refers to the directory to run it in.  The
reference is made after all directories, by the search that locations of shortcuts are looked up
with, and where the search finds nothing the identifier of the text is taken.  Shortcuts have the
missing directories made, actions have not: `IsHoused` says which texts lead to a directory of the
document.
-/

namespace Installer

open Markup (Element)
open Markup.Element
open Emit

/-! ## References of actions -/

namespace CustomAction

def workingDir? (action : CustomAction) : Option String :=
  match action.kind with
  | .pathFile _ _ workingDir => some workingDir
  | _ => none

def KeepsDirectory (action : CustomAction) : Prop :=
  ∀ pair ∈ action.attributes.pairs, pair.1 ≠ "Directory"

variable {c : Compilation}

/-- The definition of an action refers to the directory that the action names. -/
def RefersFrom (c : Compilation) (action : CustomAction) (definition : Element) : Prop :=
  action.KeepsDirectory → ∀ workingDir, action.workingDir? = some workingDir →
    definition.attrOf? "Directory" = some (workingDirId c.project.dirs workingDir)

theorem refersFrom_of_isEmitted {step : ActionStep} (emitted : step.IsEmitted c) :
    step.action.RefersFrom c step.definition := by
  intro keeps workingDir named
  obtain ⟨before, made, elements, after, given, makes⟩ := emitted
  have last := makes.getLast?_definitions
  rw [workingDir?] at named
  split at named
  next program args _ kind =>
    cases named
    simp only [emitKind, kind] at given
    obtain ⟨rfl, -⟩ := gives_pure.mp given
    rw [List.getLast?_singleton, Option.some.injEq] at last
    rw [← last, CustomAction.definition, attrOf?_withAttrs _ keeps]
    exact attrOf?_withAttrs_of_mem _ (by simp) (by simp)
  next => cases named

end CustomAction

/-! ## Directories of a document -/

/-- The text leads to a directory of a document with the given directories: to a declared one that
it names, or to one that happens to have the identifier of the text as its id. -/
inductive Dir.IsHoused (dirs : List Dir) (workingDir : String) : Prop where
  | declared {dir : Dir} (found : find? dirs workingDir = some dir) : IsHoused dirs workingDir
  | root (same : Folder.identifier workingDir = rootId) : IsHoused dirs workingDir
  | spelled {dir : Dir} (mem : dir ∈ all dirs) (same : Folder.identifier workingDir = dir.finalId) :
      IsHoused dirs workingDir
  | location {part : List String} (mem : part ∈ undeclaredParts dirs)
      (same : Folder.identifier workingDir =
        Folder.identifier (LogicalPath.ofComponents part)) : IsHoused dirs workingDir

namespace Compilation

variable {c : Compilation} {document : Element} {ledger : Ledger}

/-- The directories of a document are the root, the declared ones and those of parts of locations.
-/
theorem exists_directory_iff (made : c.Made document ledger) {id : String} :
    (∃ d ∈ document.descendantsNamed "Directory", d.id? = some id) ↔
      id = Dir.rootId ∨ (∃ dir ∈ Dir.all c.project.dirs, id = dir.finalId) ∨
        ∃ part ∈ Dir.undeclaredParts c.project.dirs,
          id = Folder.identifier (LogicalPath.ofComponents part) := by
  obtain ⟨components, madeFor, ids⟩ := made.directoryIds
  rw [← List.mem_map, ids, List.mem_cons, Option.some.injEq, List.mem_map,
    exists_place_iff madeFor]
  refine or_congr Iff.rfl (or_congr ?_ ?_)
  · constructor
    · rintro ⟨entry, located, rfl⟩
      exact ⟨entry.2, Dir.mem_all.mpr ⟨entry.1, located⟩, rfl⟩
    · rintro ⟨dir, mem, rfl⟩
      obtain ⟨path, located⟩ := Dir.mem_all.mp mem
      exact ⟨_, located, rfl⟩
  · exact exists_congr fun part => and_congr_right fun _ => eq_comm

theorem exists_workingDir_iff (made : c.Made document ledger) {workingDir : String} :
    (∃ d ∈ document.descendantsNamed "Directory",
      d.id? = some (CustomAction.workingDirId c.project.dirs workingDir)) ↔
        Dir.IsHoused c.project.dirs workingDir := by
  rw [exists_directory_iff made, CustomAction.workingDirId]
  cases found : Dir.find? c.project.dirs workingDir with
  | some dir =>
    have mem : dir ∈ Dir.all c.project.dirs := Dir.find?_mem found
    exact ⟨fun _ => .declared found, fun _ => .inr (.inl ⟨dir, mem, rfl⟩)⟩
  | none =>
    constructor
    · rintro (same | ⟨dir, mem, same⟩ | ⟨part, mem, same⟩)
      · exact .root same
      · exact .spelled mem same
      · exact .location mem same
    · intro housed
      cases housed with
      | declared declared => rw [found] at declared; cases declared
      | root same => exact .inl same
      | spelled mem same => exact .inr (.inl ⟨_, mem, same⟩)
      | location mem same => exact .inr (.inr ⟨_, mem, same⟩)

end Compilation

/-! ## Compiled projects -/

namespace Project

variable {project : Project} {options : Options} {output : Output}

/-- The steps define the actions of the document, in the order of their declaration, and an action
that runs a program is defined with a reference to the directory that it names.  There is a
directory to refer to just if the text is housed. -/
structure RunsPrograms (project : Project) (options : Options) (document package : Element)
    (steps : List ActionStep) : Prop extends project.HasSteps options package steps where
  refers : ∀ step ∈ steps, ∀ workingDir, step.action.workingDir? = some workingDir →
    step.definition.attrOf? "Directory" =
      some (CustomAction.workingDirId (project.prepare options).project.dirs workingDir)
  isHoused_iff : ∀ step ∈ steps, ∀ workingDir, step.action.workingDir? = some workingDir →
    ((∃ d ∈ document.descendantsNamed "Directory",
      d.id? = step.definition.attrOf? "Directory") ↔
        Dir.IsHoused (project.prepare options).project.dirs workingDir)

theorem keepsDirectory_prepare (options : Options)
    (keeps : ∀ action ∈ project.actions, action.KeepsDirectory) :
    ∀ action ∈ (project.prepare options).project.actions, action.KeepsDirectory := by
  obtain ⟨dirs, actions, same, rfl | rfl⟩ := project.exists_prepare options
  · rwa [same]
  · rw [same, List.forall_mem_map]
    exact keeps

/-- Programs are run in a directory of the document just if the text for it is housed, as long as no
action overwrites its reference. -/
theorem runsPrograms_of_compile (compiled : project.compile options = .ok output)
    (keeps : ∀ action ∈ project.actions, action.KeepsDirectory) :
    ∃ package steps, output.document.elements = [package] ∧
      project.RunsPrograms options output.document package steps := by
  obtain ⟨c, ledger, start, emitted, made⟩ := made_of_compile compiled
  obtain ⟨package, pieces, single, areGiven, has⟩ :=
    Compilation.hasChildren_of_emitDocument rfl emitted
  obtain ⟨begun, _, actionSteps, same⟩ := areGiven.drawsActions
  obtain ⟨steps, run, actions, ids, emittedSteps⟩ := CustomAction.isRun_of_emitAll actionSteps
  have prepared := (Compilation.project_of_ofProject start).1
  have hasSteps := hasSteps_of_isRun start areGiven has run actions
    (ids.trans (mainIds_of_sameIds start same))
  have kept : ∀ step ∈ steps, step.action.KeepsDirectory := by
    rw [← List.forall_mem_map (f := ActionStep.action) (P := CustomAction.KeepsDirectory), actions,
      prepared]
    exact keepsDirectory_prepare options keeps
  have refers : ∀ step ∈ steps, ∀ workingDir, step.action.workingDir? = some workingDir →
      step.definition.attrOf? "Directory" =
        some (CustomAction.workingDirId c.project.dirs workingDir) := fun step isStep =>
    CustomAction.refersFrom_of_isEmitted (emittedSteps step isStep) (kept step isStep)
  refine ⟨package, steps, single, ?_⟩
  exact {
    toHasSteps := hasSteps
    refers := by rwa [← prepared]
    isHoused_iff := fun step isStep workingDir named => by
      rw [refers step isStep workingDir named, ← prepared]
      exact Compilation.exists_workingDir_iff made }

/-- A project with programs that are run in the given directories. -/
def running (workingDirs : List String) : Project where
  name := "App"
  dirs := [⟨{ name := "%ProgramFiles%\\App", files := [{ name := "app.exe" }] }, []⟩]
  actions := workingDirs.map fun workingDir =>
    { name := "Start", kind := .pathFile "tool.exe" "" workingDir }

/-- A path, an id in brackets and the id of the root. -/
def knownDirs : List String :=
  ["%ProgramFiles%\\APP", "[INSTALLDIR]", "TARGETDIR"]

theorem runsPrograms_running :
    ∃ output package steps, (running knownDirs).compile {} = .ok output ∧
      (∀ action ∈ (running knownDirs).actions, action.KeepsDirectory) ∧
        output.document.elements = [package] ∧
          (running knownDirs).RunsPrograms {} output.document package steps ∧
            ∀ step ∈ steps, ∃ d ∈ output.document.descendantsNamed "Directory",
              d.id? = step.definition.attrOf? "Directory" := by
  obtain ⟨output, compiled⟩ := exists_output
    (by decide +kernel : ((running knownDirs).compile {}).isOk = true)
  have keeps : ∀ action ∈ (running knownDirs).actions, action.KeepsDirectory := by
    simp [running, CustomAction.KeepsDirectory, Attributes.empty]
  obtain ⟨package, steps, single, runs⟩ := runsPrograms_of_compile compiled keeps
  refine ⟨output, package, steps, compiled, keeps, single, runs, fun step isStep => ?_⟩
  let dirs := ((running knownDirs).prepare {}).project.dirs
  have found : (Dir.find? dirs "%ProgramFiles%\\APP").isSome = true ∧
      (Dir.find? dirs "[INSTALLDIR]").isSome = true ∧
        ((running knownDirs).prepare {}).project.actions.map CustomAction.workingDir? =
          knownDirs.map some := by
    decide +kernel
  have declared : ∀ workingDir, (Dir.find? dirs workingDir).isSome = true →
      Dir.IsHoused dirs workingDir := by
    intro workingDir found
    obtain ⟨dir, found⟩ := Option.isSome_iff_exists.mp found
    exact .declared found
  have housed : ∀ workingDir ∈ knownDirs, Dir.IsHoused dirs workingDir := by
    simp only [knownDirs, List.forall_mem_cons]
    exact ⟨declared _ found.1, declared _ found.2.1, .root (by decide), List.forall_mem_nil _⟩
  have named : (steps.map ActionStep.action).map CustomAction.workingDir? = knownDirs.map some := by
    rw [runs.actions, found.2.2]
  have mem : step.action.workingDir? ∈ knownDirs.map some := by
    rw [← named, List.map_map]
    exact List.mem_map_of_mem isStep
  obtain ⟨workingDir, isNamed, same⟩ := List.mem_map.mp mem
  exact (runs.isHoused_iff step isStep workingDir same.symm).mpr (housed workingDir isNamed)

/-- There is no directory for an action that names none, and none for a special folder that nothing
else needs. -/
theorem not_isHoused_running :
    ∃ output, (running ["", "%System%"]).compile {} = .ok output ∧
      (∀ action ∈ (running ["", "%System%"]).actions, action.KeepsDirectory) ∧
        ∀ id ∈ ["_", "SystemFolder"],
          (∃ x ∈ output.document.descendantsNamed "CustomAction",
            x.attrOf? "Directory" = some id) ∧
          ∀ d ∈ output.document.descendantsNamed "Directory", d.id? ≠ some id := by
  obtain ⟨output, compiled, computed⟩ := exists_output_of_any
    (by decide +kernel : ((running ["", "%System%"]).compile {}).toOption.any (fun output =>
      ["_", "SystemFolder"].all fun id =>
        ((output.document.descendantsNamed "CustomAction").any fun x =>
          x.attrOf? "Directory" == some id) &&
        (output.document.descendantsNamed "Directory").all fun d => d.id? != some id) = true)
  refine ⟨output, compiled, by simp [running, CustomAction.KeepsDirectory, Attributes.empty],
    fun id listed => ?_⟩
  have both := List.all_eq_true.mp computed id listed
  rw [Bool.and_eq_true, List.any_eq_true, List.all_eq_true] at both
  obtain ⟨⟨x, mem, refers⟩, missing⟩ := both
  exact ⟨⟨x, mem, by simpa using refers⟩, fun d isDirectory => by simpa using missing d isDirectory⟩

end Project

end Installer
