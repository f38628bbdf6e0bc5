import Installer.Proofs.Directory.Narrow
import Installer.Proofs.Product.Document

/-! # Packages for 64-bit machines

A project for 64-bit machines has its folders made wider before its directories are made.  All ids
of directories in its document are then those of 64-bit folders, apart from those that `HoldsNarrow`
describes: of the names and locations that are not seen to spell a 32-bit folder, and of the
installation directory.
-/

namespace Installer

open Markup (Element)
open Markup.Element
open LogicalPath
open Folder (IsNarrow)

/-! ## Narrow directories of a document -/

/-- No directory of the document has the id of a 32-bit folder. -/
def Output.IsWide (output : Output) : Prop :=
  ∀ d ∈ output.document.descendantsNamed "Directory", ∀ id, d.id? = some id → ¬ IsNarrow id

namespace Project

/-- The reasons for which a directory has the id though its project was made wider: the name of a
directory, the location of a shortcut of which nothing is declared, or the id that the installation
directory was given. -/
inductive HoldsNarrow (project : Project) (options : Options) (id : String) : Prop where
  | directory {dir : Dir} (mem : dir ∈ Dir.all project.dirs) (stays : dir.StaysNarrow id) :
      HoldsNarrow project options id
  | location {location : String} (mem : location ∈ Dir.locationsIn project.dirs)
      (locates : Dir.LocatesNarrow (project.prepare options).project.dirs id location) :
      HoldsNarrow project options id
  | installDir (assigned : (project.prepare options).installDir.isSome = true)
      (same : options.installDirDefaultId = id) : HoldsNarrow project options id

variable {project : Project} {options : Options} {output : Output}

theorem exists_directory_narrow_iff (compiled : project.compile options = .ok output)
    (wide : project.platform = .x64) (mapped : options.map64InstallDirs = true) {id : String}
    (narrow : IsNarrow id) (undeclared : id ∉ Dir.explicitIds project.dirs) :
    (∃ d ∈ output.document.descendantsNamed "Directory", d.id? = some id) ↔
      project.HoldsNarrow options id := by
  obtain ⟨c, ledger, start, -, made⟩ := Project.made_of_compile compiled
  obtain ⟨components, madeFor, ids⟩ := made.directoryIds
  have notRoot : Dir.rootId ≠ id := by
    rintro rfl
    exact absurd narrow (by decide)
  have listed : (∃ d ∈ output.document.descendantsNamed "Directory", d.id? = some id) ↔
      ∃ path ∈ (c.root components).places, path.getLast? = some id := by
    rw [← List.mem_map, ids, List.mem_cons, Option.some.injEq, or_iff_right notRoot.symm,
      List.mem_map]
  rw [listed, Compilation.exists_place_iff madeFor, (Compilation.project_of_ofProject start).1,
    project.exists_located_narrow_iff options wide mapped narrow undeclared,
    project.exists_part_narrow_iff options wide mapped narrow]
  constructor
  · rintro ((⟨assigned, same⟩ | ⟨dir, mem, stays⟩) | ⟨location, mem, locates⟩)
    · exact .installDir assigned same
    · exact .directory mem stays
    · exact .location mem locates
  · intro holds
    cases holds with
    | directory mem stays => exact .inl (.inr ⟨_, mem, stays⟩)
    | location mem locates => exact .inr ⟨_, mem, locates⟩
    | installDir assigned same => exact .inl (.inl ⟨assigned, same⟩)

/-- The document of a project for 64-bit machines that declares no ids of 32-bit folders has no
directory with such an id, unless one of its names, locations or the id of the installation
directory is a reason for it. -/
theorem isWide_iff_of_compile (compiled : project.compile options = .ok output)
    (wide : project.platform = .x64) (mapped : options.map64InstallDirs = true)
    (undeclared : ∀ id ∈ Dir.explicitIds project.dirs, ¬ IsNarrow id) :
    output.IsWide ↔ ∀ id, IsNarrow id → ¬ project.HoldsNarrow options id := by
  have each : ∀ id, IsNarrow id → ((∃ d ∈ output.document.descendantsNamed "Directory",
      d.id? = some id) ↔ project.HoldsNarrow options id) := fun id narrow =>
    exists_directory_narrow_iff compiled wide mapped narrow fun given => undeclared id given narrow
  constructor
  · intro isWide id narrow holds
    obtain ⟨d, mem, same⟩ := (each id narrow).mpr holds
    exact isWide d mem id same narrow
  · intro none d mem id same narrow
    exact none id narrow ((each id narrow).mp ⟨d, mem, same⟩)

/-- A project whose shortcut names a 32-bit folder with a bracket on one side. -/
def halfBracketed : Project where
  name := "App"
  platform := .x64
  dirs := [⟨{ name := "%ProgramFiles%\\App", files := [{ name := "app.exe", shortcuts :=
    [{ name := "App", location := "[SystemFolder\\Links" }] }] }, []⟩]

theorem not_isWide_halfBracketed :
    halfBracketed.platform = .x64 ∧ ({} : Options).map64InstallDirs = true ∧
      (∀ id ∈ Dir.explicitIds halfBracketed.dirs, ¬ IsNarrow id) ∧
        halfBracketed.HoldsNarrow {} "SystemFolder" ∧
          ∃ output, halfBracketed.compile {} = .ok output ∧ ¬ output.IsWide := by
  have undeclared : ∀ id ∈ Dir.explicitIds halfBracketed.dirs, ¬ IsNarrow id := by decide +kernel
  have listed : "[SystemFolder\\Links" ∈ Dir.locationsIn halfBracketed.dirs := by decide +kernel
  have missing : ((initials (Folder.widen "[SystemFolder\\Links")).all fun path =>
      (Dir.find? (halfBracketed.prepare {}).project.dirs path).isNone) = true := by
    decide +kernel
  have holds : halfBracketed.HoldsNarrow {} "SystemFolder" := by
    refine .location listed ⟨by decide, ⟨"[SystemFolder", by decide +kernel, 1, 0, by decide,
      .inr rfl⟩, fun path mem => ?_⟩
    exact Option.isNone_iff_eq_none.mp (List.all_eq_true.mp missing path mem)
  obtain ⟨output, compiled⟩ := Project.exists_output
    (by decide +kernel : (halfBracketed.compile {}).isOk = true)
  refine ⟨rfl, rfl, undeclared, holds, output, compiled, fun isWide => ?_⟩
  exact (isWide_iff_of_compile compiled rfl rfl undeclared).mp isWide "SystemFolder" (by decide)
    holds

/-- A project that names a 32-bit folder by its bare id, as the first name of a path. -/
def bareInPath : Project where
  name := "App"
  platform := .x64
  dirs := [⟨{ name := "ProgramFilesFolder\\App", files := [{ name := "app.exe" }] }, []⟩]

theorem not_isWide_bareInPath :
    bareInPath.platform = .x64 ∧ ({} : Options).map64InstallDirs = true ∧
      (∀ id ∈ Dir.explicitIds bareInPath.dirs, ¬ IsNarrow id) ∧
        ∃ output, bareInPath.compile {} = .ok output ∧ ¬ output.IsWide := by
  obtain ⟨output, compiled, computed⟩ := Project.exists_output_of_any
    (by decide +kernel : ((bareInPath.compile {}).toOption.any fun output =>
      (output.document.descendantsNamed "Directory").any fun d =>
        d.id? == some "ProgramFilesFolder") = true)
  obtain ⟨d, mem, same⟩ := List.any_eq_true.mp computed
  exact ⟨rfl, rfl, by decide +kernel, output, compiled, fun isWide =>
    isWide d mem "ProgramFilesFolder" (by simpa using same) (by decide)⟩

end Project

end Installer
