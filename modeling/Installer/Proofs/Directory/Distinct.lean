import Installer.Proofs.Directory.Generated
import Installer.Proofs.Directory.Places
import Installer.Proofs.Directory.Refinement
import Mathlib.Data.List.Pairwise

/-! # Directories with the same id

Ids of prepared directories are different when declared ids are, special folders apart.  The
directories of shortcut locations do not take part in this: their ids are the identifiers of parts,
whatever ids are in use.  Only parts with several names are kept free of generated ids.  So a single
name with a full stop in it may meet a generated id, and two parts may have the same identifier.
The id of the installation directory is given out before any other id is looked at, so it has to be
free.
-/

namespace Installer

open Markup (Element)
open Markup.Element
open LogicalPath

/-! ## Declared ids -/

namespace Dir

/-- The ids that are declared for directories, in the order of declaration. -/
def explicitIds (dirs : List Dir) : List String :=
  readAll (fun body => body.id.toList) dirs

theorem mem_explicitIds {dirs : List Dir} {id : String} :
    id ∈ explicitIds dirs ↔ ∃ dir ∈ all dirs, dir.id = some id := by
  simp [explicitIds, readAll]

mutual

theorem perm_assignInstallId? {id : String} :
    ∀ {dir : Dir} {assigned : Dir × String}, assignInstallId? id dir = some assigned →
      (explicitIds [assigned.1]).Perm (id :: explicitIds [dir])
  | ⟨body, dirs⟩, assigned, given => by
    rw [assignInstallId?] at given
    split at given
    next =>
      obtain ⟨⟨below, path⟩, first, rfl⟩ := Option.map_eq_some_iff.mp given
      have inner := perm_assignFirst? first
      rw [explicitIds, explicitIds, readAll_singleton, readAll_singleton]
      exact (inner.append_left _).trans List.perm_middle
    next =>
      obtain ⟨dir, withId, rfl⟩ := Option.map_eq_some_iff.mp given
      rw [withInstallId?] at withId
      split at withId
      next => cases withId
      next undeclared =>
        -- the directory had no id before
        have none : body.id = none := by
          simp only [Bool.or_eq_true, not_or, Bool.not_eq_true, Option.isSome_eq_false_iff,
            Option.isNone_iff_eq_none] at undeclared
          exact undeclared.1
        cases withId
        simp [explicitIds, readAll_singleton, none]

/-- The installation directory gets an id beside those that are declared. -/
theorem perm_assignFirst? {id : String} :
    ∀ {dirs : List Dir} {assigned : List Dir × String}, assignFirst? id dirs = some assigned →
      (explicitIds assigned.1).Perm (id :: explicitIds dirs)
  | dir :: rest, assigned, given => by
    rw [assignFirst?] at given
    obtain ⟨⟨first, path⟩, assignedFirst, rfl⟩ := Option.map_eq_some_iff.mp given
    have inner := perm_assignInstallId? assignedFirst
    show (explicitIds (first :: rest)).Perm (id :: explicitIds (dir :: rest))
    rw [← List.singleton_append, ← List.singleton_append (l := rest), explicitIds, explicitIds,
      readAll_append, readAll_append]
    exact inner.append_right _

end

theorem perm_explicitIds_shape (installId : String) (dirs : List Dir) :
    (explicitIds (shape installId dirs).1).Perm
      ((if (shape installId dirs).2.isSome then [installId] else []) ++ explicitIds dirs) := by
  have split : explicitIds (splitAll dirs) = explicitIds dirs :=
    readAll_splitAll (fun _ _ => rfl) (fun _ => rfl) dirs
  rw [shape]
  split
  next assigned path given =>
    split at given
    next => cases given
    next =>
      have inner := perm_assignFirst? given
      rw [split] at inner
      exact inner
  next =>
    rw [split]
    exact .refl _

end Dir

namespace Project

variable (project : Project) (options : Options)

/-- The ids that are declared for the directories of a project, and the one of the installation
directory, are all ids that are there before any is generated. -/
theorem perm_explicitIds : (Dir.explicitIds (project.shapedDirs options)).Perm
    ((if (project.prepare options).installDir.isSome then [options.installDirDefaultId] else []) ++
      Dir.explicitIds project.dirs) := by
  have widened : Dir.explicitIds (project.withSomeDir.widened options).dirs =
      Dir.explicitIds project.dirs :=
    Project.readAll_widened (fun _ => rfl) (fun _ => rfl) project options
  rw [← widened]
  exact Dir.perm_explicitIds_shape _ _

/-! ## Ids of prepared directories -/

/-- A prepared directory goes with the directory that it was before it got its id. -/
theorem exists_shaped {entry : List String × Dir}
    (mem : entry ∈ Dir.located (project.prepare options).project.dirs) :
    ∃ dir, (dir, entry) ∈ (Dir.all (project.shapedDirs options)).zip
      (Dir.located (project.prepare options).project.dirs) := by
  have length := (project.forall₂_takes options).length_eq
  rw [← List.map_snd_zip length.ge] at mem
  obtain ⟨⟨dir, _⟩, among, rfl⟩ := List.mem_map.mp mem
  exact ⟨dir, among⟩

/-- Prepared directories have different ids when the declared ids are different, those of special
folders apart. -/
theorem eq_of_finalId_eq (nodup : (Dir.explicitIds (project.shapedDirs options)).Nodup)
    {entry entry' : List String × Dir}
    (mem : entry ∈ Dir.located (project.prepare options).project.dirs)
    (mem' : entry' ∈ Dir.located (project.prepare options).project.dirs)
    (same : entry.2.finalId = entry'.2.finalId)
    (notFolder : ¬ Folder.IsFolderId entry.2.finalId) : entry = entry' := by
  have length := (project.forall₂_takes options).length_eq
  have different := (List.nodup_flatMap.mp nodup).2
  rw [← List.map_fst_zip length.le, List.pairwise_map] at different
  -- generated ids meet no others, and declared ones no declared ones
  have apart : ((Dir.all (project.shapedDirs options)).zip
      (Dir.located (project.prepare options).project.dirs)).Pairwise fun x y =>
        x.2.2.finalId = y.2.2.finalId → Folder.IsFolderId x.2.2.finalId := by
    refine ((project.pairwise_finalId_ne options).and different).imp_of_mem ?_
    rintro x y inX inY ⟨generated, declared⟩ equal
    by_contra other
    have notX : ¬ x.1.IsGenerated := fun isX => generated (.inl isX) equal
    have notY : ¬ y.1.IsGenerated := fun isY => generated (.inr isY) equal
    have idX := ((project.takes_finalId options inX).of_not_generated notX).resolve_right other
    have idY := ((project.takes_finalId options inY).of_not_generated notY).resolve_right
      (equal ▸ other)
    rw [← equal] at idY
    exact declared (Option.mem_toList.mpr idX) (Option.mem_toList.mpr idY)
  have symmetric : Std.Symm fun x y : Dir × List String × Dir =>
      x.2.2.finalId = y.2.2.finalId → Folder.IsFolderId x.2.2.finalId :=
    ⟨fun x y kept equal => equal ▸ kept equal.symm⟩
  obtain ⟨dir, among⟩ := project.exists_shaped options mem
  obtain ⟨dir', among'⟩ := project.exists_shaped options mem'
  by_contra other
  exact notFolder (apart.forall among among' (fun equal => other (Prod.mk.inj equal).2) same)

/-- A declared id is the id of a prepared directory. -/
theorem exists_finalId {id : String} (mem : id ∈ Dir.explicitIds (project.shapedDirs options)) :
    ∃ entry ∈ Dir.located (project.prepare options).project.dirs, entry.2.finalId = id := by
  have length := (project.forall₂_takes options).length_eq
  obtain ⟨dir, isDir, given⟩ := Dir.mem_explicitIds.mp mem
  rw [← List.map_fst_zip length.le] at isDir
  obtain ⟨⟨_, entry⟩, among, rfl⟩ := List.mem_map.mp isDir
  exact ⟨entry, (List.of_mem_zip among).2,
    (project.takes_finalId options among).eq_of_declared given⟩

/-- A part has no id of a declared directory but for declared ids, ids of special folders and, if it
is a single name, generated ids. -/
theorem identifier_eq_finalId {part : List String}
    (isPart : part ∈ Dir.undeclaredParts (project.prepare options).project.dirs)
    {entry : List String × Dir}
    (mem : entry ∈ Dir.located (project.prepare options).project.dirs)
    (same : Folder.identifier (ofComponents part) = entry.2.finalId) :
    entry.2.finalId ∈ Dir.explicitIds (project.shapedDirs options) ∨
      Folder.IsFolderId entry.2.finalId ∨
        part.length < 2 ∧ '.' ∈ entry.2.finalId.toList := by
  obtain ⟨dir, among⟩ := project.exists_shaped options mem
  by_cases generated : dir.IsGenerated
  · refine .inr (.inr ⟨?_, (project.takes_finalId options among).dot_mem generated⟩)
    by_contra several
    obtain ⟨location, elsewhere, new⟩ := List.mem_flatMap.mp isPart
    obtain ⟨file, isFile, shortcut, isShortcut, isElsewhere, rfl⟩ := Dir.mem_elsewhere.mp elsewhere
    exact project.identifier_ne_of_generated options among generated isFile isShortcut isElsewhere
      new (by omega) same
  · rcases (project.takes_finalId options among).of_not_generated generated with given | folder
    · exact .inl (Dir.mem_explicitIds.mpr ⟨dir, (List.of_mem_zip among).1, given⟩)
    · exact .inr (.inl folder)

/-- Parts with several names are clear of declared directories if they are clear of declared ids. -/
theorem areClear_prepare
    (apart : ∀ part ∈ Dir.undeclaredParts (project.prepare options).project.dirs, 2 ≤ part.length →
      Folder.identifier (ofComponents part) ∉ Dir.explicitIds (project.shapedDirs options)) :
    Dir.AreClear (project.prepare options).project.dirs := by
  intro part isPart several dir isDir same
  obtain ⟨path, mem⟩ := Dir.mem_all.mp isDir
  rcases project.identifier_eq_finalId options isPart mem same with
    declared | folder | ⟨single, -⟩
  · exact apart part isPart several (same ▸ declared)
  · -- with several names there is a full stop in the identifier
    have dotted := Dir.dot_mem_identifier_undeclaredPart isPart several
    rw [same] at dotted
    exact folder.dot_notMem dotted
  · omega

end Project

/-! ## Ids of directories in the root -/

namespace Compilation

variable {c : Compilation} {components : List Element}

/-- A directory at a path has the last id of the path. -/
theorem id?_of_directoriesAt {root d : Element} (tidy : Tidy root) {path : List String}
    (nonempty : path ≠ []) (found : root.directoriesAt path = [d]) :
    path ∈ root.places ∧ d.id? = path.getLast? := by
  rw [tidy.directoriesAt_eq] at found
  have leads : root.follow? path = some d := by simpa using congrArg List.head? found
  refine ⟨tidy.mem_places.mpr ⟨nonempty, by rw [leads]; rfl⟩, ?_⟩
  obtain ⟨front, id, rfl⟩ : ∃ front id, path = front ++ [id] :=
    ⟨_, _, (List.dropLast_concat_getLast nonempty).symm⟩
  rw [follow?_id leads]
  simp

/-- The reasons for which the directory of a part shares its id with the directory at another place:
the root, a declared directory with a generated id, the installation directory, or a directory that
was made for another part. -/
inductive Clash (c : Compilation) (part : List String) : List String → Prop where
  | root (single : part.length = 1) (same : Folder.identifier (ofComponents part) = Dir.rootId) :
      Clash c part []
  | declared {path : List String} (mem : path ∈ (Dir.located c.project.dirs).map Prod.fst)
      (single : part.length = 1) (dotted : '.' ∈ (Folder.identifier (ofComponents part)).toList) :
      Clash c part path
  | installDir {path : List String} (mem : path ∈ (Dir.located c.project.dirs).map Prod.fst)
      (single : part.length = 1)
      (same : Folder.identifier (ofComponents part) = c.options.installDirDefaultId) :
      Clash c part path
  | location {other : List String} (mem : other ∈ Dir.undeclaredParts c.project.dirs)
      (different : other ≠ part)
      (same : Folder.identifier (ofComponents other) = Folder.identifier (ofComponents part))
      (dotted : '.' ∈ (Folder.identifier (ofComponents part)).toList) :
      Clash c part (c.placeOf other)

/-- An identifier without a full stop is that of a single name. -/
theorem length_eq_one_of_dot_notMem {part : List String}
    (isPart : part ∈ Dir.undeclaredParts c.project.dirs)
    (plain : '.' ∉ (Folder.identifier (ofComponents part)).toList) : part.length = 1 := by
  have positive := Dir.length_pos_of_mem_undeclaredParts isPart
  by_contra several
  exact plain (Dir.dot_mem_identifier_undeclaredPart isPart (by omega))

theorem clash_root {part : List String} (isPart : part ∈ Dir.undeclaredParts c.project.dirs)
    (same : Folder.identifier (ofComponents part) = Dir.rootId) : c.Clash part [] :=
  .root (length_eq_one_of_dot_notMem isPart (by rw [same]; decide)) same

/-- Two parts with the same identifier have the same place, unless there is a full stop in it. -/
theorem clash_of_placeOf {part other : List String}
    (isPart : part ∈ Dir.undeclaredParts c.project.dirs)
    (isOther : other ∈ Dir.undeclaredParts c.project.dirs)
    (same : Folder.identifier (ofComponents other) = Folder.identifier (ofComponents part))
    (apart : c.placeOf other ≠ c.placeOf part) : c.Clash part (c.placeOf other) := by
  have different : other ≠ part := fun equal => apart (equal ▸ rfl)
  by_cases dotted : '.' ∈ (Folder.identifier (ofComponents part)).toList
  · exact .location isOther different same dotted
  -- without a full stop both are single names, which stand directly inside the root
  have single := length_eq_one_of_dot_notMem isPart dotted
  have single' := length_eq_one_of_dot_notMem isOther (by rw [same]; exact dotted)
  refine absurd ?_ apart
  rw [placeOf_single isOther single', placeOf_single isPart single, same]

/-- `d` is the directory at a path where none is declared: it was made for a location. -/
structure IsMadeAt (c : Compilation) (root : Element) (path : List String) (d : Element) :
    Prop where
  below : path ≠ []
  undeclared : path ∉ (Dir.located c.project.dirs).map Prod.fst
  found : root.directoriesAt path = [d]

/-- The directories that were made for locations share no id with other directories but ids of
special folders. -/
def LocationsAreApart (c : Compilation) (root : Element) : Prop :=
  ∀ path d, c.IsMadeAt root path d → ∀ path' d', root.directoriesAt path' = [d'] → path' ≠ path →
    d'.id? = d.id? → ∃ id, d.id? = some id ∧ Folder.IsFolderId id

/-- The directories that were made for locations are those of parts, and share their ids with other
directories only for the reasons that `Clash` gives, or as special folders. -/
def ClashesAreKnown (c : Compilation) (root : Element) : Prop :=
  ∀ path d, c.IsMadeAt root path d → ∃ part ∈ Dir.undeclaredParts c.project.dirs,
    path = c.placeOf part ∧ d.id? = some (Folder.identifier (ofComponents part)) ∧
      ∀ path' d', root.directoriesAt path' = [d'] → path' ≠ path → d'.id? = d.id? →
        Folder.IsFolderId (Folder.identifier (ofComponents part)) ∨ c.Clash part path'

/-- Without clashes the directories of locations are apart. -/
theorem ClashesAreKnown.locationsAreApart {root : Element} (known : c.ClashesAreKnown root)
    (none : ∀ part ∈ Dir.undeclaredParts c.project.dirs, ∀ path, ¬ c.Clash part path) :
    c.LocationsAreApart root := by
  intro path d isMade path' d' found other same
  obtain ⟨part, isPart, -, id_eq, reasons⟩ := known path d isMade
  rcases reasons path' d' found other same with folder | clash
  · exact ⟨_, id_eq, folder⟩
  · exact absurd clash (none part isPart path')

/-- Every directory of a document is at a path from the root. -/
theorem exists_directoriesAt_of_mem {extensions : List Extension} {package root d : Element}
    (holds : package.HoldsRoot root) (tidy : Tidy root)
    (mem : d ∈ ((rootElement extensions).add package).descendants)
    (directory : d.name = "Directory") : ∃ path, root.directoriesAt path = [d] := by
  cases List.mem_cons.mp (mem_subtree_root holds mem directory) with
  | inl isRoot => exact ⟨[], by rw [isRoot]; rfl⟩
  | inr below =>
    obtain ⟨path, -, leads⟩ := tidy.exists_path d below directory
    exact ⟨path, by rw [tidy.directoriesAt_eq, leads]; rfl⟩

end Compilation

/-! ## Directories of locations -/

/-- The directory of a part shares its id with a declared one if that is a special folder, or if the
part is a single name. -/
theorem Project.folder_or_clash_of_declared {project : Project} {options : Options}
    {c : Compilation}
    (start : Compilation.ofProject options (project.prepare options).project = .ok c)
    {part : List String} (isPart : part ∈ Dir.undeclaredParts c.project.dirs)
    (explicit : Folder.identifier (ofComponents part) ∈
      Dir.explicitIds (project.shapedDirs options) → part.length < 2 ∧
        Folder.identifier (ofComponents part) = options.installDirDefaultId)
    {path : List String} (declared : path ∈ (Dir.located c.project.dirs).map Prod.fst)
    (last : path.getLast? = some (Folder.identifier (ofComponents part))) :
    Folder.IsFolderId (Folder.identifier (ofComponents part)) ∨ c.Clash part path := by
  obtain ⟨prepared, chosen⟩ := Compilation.project_of_ofProject start
  have positive := Dir.length_pos_of_mem_undeclaredParts isPart
  obtain ⟨entry, mem, rfl⟩ := List.mem_map.mp declared
  rw [Dir.getLast?_of_mem_located mem, Option.some.injEq] at last
  have isPart' := isPart
  have mem' := mem
  rw [prepared] at isPart' mem'
  rcases project.identifier_eq_finalId options isPart' mem' last.symm with given | folder | single
  · rw [last] at given
    obtain ⟨single, same⟩ := explicit given
    exact .inr (.installDir declared (by omega) (by rw [same, chosen]))
  · exact .inl (last ▸ folder)
  · exact .inr (.declared declared (by omega) (last ▸ single.2))

/-- The directory of a part shares its id with any other one for a known reason only. -/
theorem Project.folder_or_clash {project : Project} {options : Options} {c : Compilation}
    {components : List Element}
    (start : Compilation.ofProject options (project.prepare options).project = .ok c)
    (madeFor : MadeFor c.project.standaloneBookings components [])
    (clear : Dir.AreClear c.project.dirs) {part : List String}
    (isPart : part ∈ Dir.undeclaredParts c.project.dirs)
    (explicit : Folder.identifier (ofComponents part) ∈
      Dir.explicitIds (project.shapedDirs options) → part.length < 2 ∧
        Folder.identifier (ofComponents part) = options.installDirDefaultId)
    {path : List String} {d : Element} (found : (c.root components).directoriesAt path = [d])
    (other : path ≠ c.placeOf part)
    (same : d.id? = some (Folder.identifier (ofComponents part))) :
    Folder.IsFolderId (Folder.identifier (ofComponents part)) ∨ c.Clash part path := by
  have tidy : Tidy (c.root components) := (Compilation.extended_root madeFor).tidy
  by_cases top : path = []
  · subst top
    have isRoot : c.root components = d := by simpa [directoriesAt] using found
    rw [← isRoot, id?_eq_of_tag (Compilation.tag_root madeFor)] at same
    exact .inr (Compilation.clash_root isPart (Option.some.inj same).symm)
  · obtain ⟨mem, last⟩ := Compilation.id?_of_directoriesAt tidy top found
    rw [same] at last
    rcases Compilation.declared_or_made madeFor (Compilation.extended_tree_placeOf clear) mem with
      declared | ⟨part', isPart', place⟩
    · exact Project.folder_or_clash_of_declared start isPart explicit declared last.symm
    · rw [place] at last other ⊢
      rw [Compilation.getLast?_placeOf, Option.some.injEq] at last
      exact .inr (Compilation.clash_of_placeOf isPart isPart' last.symm other)

/-- Where no directory has a declared id, the only id that is there before any is generated is that
of the installation directory. -/
theorem Project.eq_installDirId_of_explicit {project : Project} {options : Options}
    {output : Output} (compiled : project.compile options = .ok output)
    (undeclared : Dir.explicitIds project.dirs = []) {id : String}
    (given : id ∈ Dir.explicitIds (project.shapedDirs options)) :
    output.installDir.isSome = true ∧ id = options.installDirDefaultId := by
  rw [(project.perm_explicitIds options).mem_iff, undeclared, List.append_nil,
    ← Project.installDir_of_compile compiled] at given
  split at given
  next assigned => exact ⟨assigned, List.mem_singleton.mp given⟩
  next => cases given

/-- Where no directory has a declared id, all reasons are known for which a directory of a location
shares its id with another one. -/
theorem Project.clash_of_compile {project : Project} {options : Options} {output : Output}
    (compiled : project.compile options = .ok output)
    (undeclared : Dir.explicitIds project.dirs = [])
    (apart : output.installDir.isSome = true →
      ∀ part ∈ Dir.undeclaredParts (project.prepare options).project.dirs, 2 ≤ part.length →
        Folder.identifier (ofComponents part) ≠ options.installDirDefaultId) :
    ∃ c root, Compilation.ofProject options (project.prepare options).project = .ok c ∧
      (∃ package, output.document.elements = [package] ∧
        package.elementsNamed "Directory" = [root]) ∧
      root.id? = some Dir.rootId ∧
      (∀ d ∈ output.document.descendants, d.name = "Directory" →
        ∃ path, root.directoriesAt path = [d]) ∧
      c.ClashesAreKnown root := by
  obtain ⟨c, ledger, start, -, made⟩ := Project.made_of_compile compiled
  obtain ⟨extensions, package, components, document, madeFor, holds⟩ := made.holdsRoot
  have tidy : Tidy (c.root components) := (Compilation.extended_root madeFor).tidy
  rw [← (Compilation.project_of_ofProject start).1] at apart
  -- with no id declared, the only explicit one is that of the installation directory
  have explicit : ∀ part ∈ Dir.undeclaredParts c.project.dirs,
      Folder.identifier (ofComponents part) ∈ Dir.explicitIds (project.shapedDirs options) →
        part.length < 2 ∧ Folder.identifier (ofComponents part) = options.installDirDefaultId := by
    intro part isPart given
    obtain ⟨assigned, same⟩ := Project.eq_installDirId_of_explicit compiled undeclared given
    exact ⟨by_contra fun several => apart assigned part isPart (by omega) same, same⟩
  have clear : Dir.AreClear c.project.dirs := by
    rw [(Compilation.project_of_ofProject start).1] at explicit ⊢
    exact project.areClear_prepare options fun part isPart several given => by
      have short := (explicit part isPart given).1
      omega
  refine ⟨c, c.root components, start, ⟨package, ?_, holds.directories⟩,
    id?_eq_of_tag (Compilation.tag_root madeFor), fun d mem directory => ?_,
    fun path d isMade => ?_⟩
  · rw [document]
    exact Compilation.elements_document
  · rw [document] at mem
    exact Compilation.exists_directoriesAt_of_mem holds tidy mem directory
  · obtain ⟨mem, id_eq⟩ := Compilation.id?_of_directoriesAt tidy isMade.below isMade.found
    obtain ⟨part, isPart, place⟩ := (Compilation.declared_or_made madeFor
      (Compilation.extended_tree_placeOf clear) mem).resolve_left isMade.undeclared
    rw [place, Compilation.getLast?_placeOf] at id_eq
    refine ⟨part, isPart, place, id_eq, fun path' d' found other same => ?_⟩
    rw [place] at other
    exact Project.folder_or_clash start madeFor clear isPart (explicit part isPart) found other
      (same.trans id_eq)

/-- A project with a shortcut in a folder whose single name looks like a generated id. -/
def Project.dotted : Project where
  name := "App"
  dirs := [⟨{ name := "%ProgramFiles%", files := [{ name := "app.exe", shortcuts :=
    [{ name := "App", location := "ProgramFilesFolder.My Tools" }] }] },
    [⟨{ name := "My Tools" }, []⟩]⟩]

/-- The folder of the shortcut and the declared one have the same id. -/
theorem Project.directoriesAt_dotted : ∃ output, Project.dotted.compile {} = .ok output ∧
    ∀ package ∈ output.document.elements, ∀ root ∈ package.elementsNamed "Directory",
      (root.directoriesAt ["ProgramFilesFolder.My_Tools"]).map id? =
          [some "ProgramFilesFolder.My_Tools"] ∧
        (root.directoriesAt ["ProgramFilesFolder", "ProgramFilesFolder.My_Tools"]).map id? =
          [some "ProgramFilesFolder.My_Tools"] := by
  obtain ⟨output, compiled, computed⟩ := Project.exists_output_of_any
    (by decide +kernel : ((Project.dotted.compile {}).toOption.any fun output =>
      output.document.elements.all fun package =>
        (package.elementsNamed "Directory").all fun root =>
          (root.directoriesAt ["ProgramFilesFolder.My_Tools"]).map id? ==
              [some "ProgramFilesFolder.My_Tools"] &&
            (root.directoriesAt ["ProgramFilesFolder", "ProgramFilesFolder.My_Tools"]).map id? ==
              [some "ProgramFilesFolder.My_Tools"]) = true)
  exact ⟨output, compiled, by simpa [List.all_eq_true] using computed⟩

theorem Project.clashesAreKnown_dotted :
    ∃ (output : Output) (c : Compilation) (root : Element),
      Project.dotted.compile {} = .ok output ∧ c.ClashesAreKnown root := by
  obtain ⟨output, compiled, -⟩ := Project.directoriesAt_dotted
  obtain ⟨c, root, -, -, -, -, known⟩ := Project.clash_of_compile compiled (by decide +kernel)
    fun _ part isPart several same => by
      -- the id of the installation directory has no full stop
      have dotted := Dir.dot_mem_identifier_undeclaredPart isPart several
      rw [same] at dotted
      exact absurd dotted (by decide)
  exact ⟨output, c, root, compiled, known⟩

theorem Project.not_locationsAreApart_dotted : Dir.explicitIds Project.dotted.dirs = [] ∧
    ∃ (output : Output) (c : Compilation) (package root : Element),
      Project.dotted.compile {} = .ok output ∧
        Compilation.ofProject {} (Project.dotted.prepare {}).project = .ok c ∧
          output.document.elements = [package] ∧ package.elementsNamed "Directory" = [root] ∧
            ¬ c.LocationsAreApart root := by
  refine ⟨by decide +kernel, ?_⟩
  obtain ⟨output, compiled, twice⟩ := Project.directoriesAt_dotted
  obtain ⟨c, ledger, start, -, made⟩ := Project.made_of_compile compiled
  obtain ⟨extensions, package, components, document, madeFor, holds⟩ := made.holdsRoot
  have elements : output.document.elements = [package] := by
    rw [document]
    exact Compilation.elements_document
  obtain ⟨here, there⟩ := twice package (by simp [elements]) (c.root components)
    (by simp [holds.directories])
  obtain ⟨d, found, id_eq⟩ := List.map_eq_singleton_iff.mp here
  obtain ⟨d', found', id_eq'⟩ := List.map_eq_singleton_iff.mp there
  have undeclared : ["ProgramFilesFolder.My_Tools"] ∉
      (Dir.located c.project.dirs).map Prod.fst := by
    rw [(Compilation.project_of_ofProject start).1]
    decide +kernel
  refine ⟨output, c, package, c.root components, compiled, start, elements, holds.directories,
    fun areApart => ?_⟩
  obtain ⟨id, same, folder⟩ := areApart _ d ⟨by simp, undeclared, found⟩ _ d' found' (by simp)
    (id_eq'.trans id_eq.symm)
  rw [id_eq, Option.some.injEq] at same
  subst same
  exact folder.dot_notMem (by decide)

/-! ## The installation directory -/

/-- The directories with an id are declared ones if no part has this id. -/
theorem Compilation.exists_located_of_endsIn {c : Compilation} {components : List Element}
    (madeFor : MadeFor c.project.standaloneBookings components []) {id : String}
    (apart : ∀ part ∈ Dir.undeclaredParts c.project.dirs,
      Folder.identifier (ofComponents part) ≠ id) {path : List String}
    (mem : path ∈ (c.root components).places) (ends : endsIn id path = true) :
    ∃ entry ∈ Dir.located c.project.dirs, entry.1 = path ∧ entry.2.finalId = id := by
  have last : path.getLast? = some id := by simpa [endsIn] using ends
  rcases declared_or_made madeFor extended_tree_identifier mem with declared | ⟨part, isPart, made⟩
  · obtain ⟨entry, isEntry, rfl⟩ := List.mem_map.mp declared
    rw [Dir.getLast?_of_mem_located isEntry, Option.some.injEq] at last
    exact ⟨entry, isEntry, rfl, last⟩
  · rw [last, Option.some.injEq] at made
    exact absurd made.symm (apart part isPart)

theorem Compilation.mem_places_of_located {c : Compilation} {components : List Element}
    (madeFor : MadeFor c.project.standaloneBookings components []) {entry : List String × Dir}
    (mem : entry ∈ Dir.located c.project.dirs) : entry.1 ∈ (c.root components).places := by
  have tidy : Tidy (c.root components) := (extended_root madeFor).tidy
  refine tidy.mem_places.mpr ⟨ne_nil_of_mem_located mem, ?_⟩
  rw [← Dir.isSome_filesAt?, filesAt?_located madeFor mem]
  rfl

/-- A directory is made for every part of a location. -/
theorem Compilation.exists_place_of_part {c : Compilation} {components : List Element}
    (madeFor : MadeFor c.project.standaloneBookings components []) {part : List String}
    (isPart : part ∈ Dir.undeclaredParts c.project.dirs) :
    ∃ path ∈ (c.root components).places,
      path.getLast? = some (Folder.identifier (ofComponents part)) := by
  obtain ⟨location, elsewhere, new⟩ := List.mem_flatMap.mp isPart
  obtain ⟨m, above, bound, rfl⟩ := Dir.mem_newParts.mp new
  have named : LogicalPath.components location ≠ [] := List.length_pos_iff.mp (by omega)
  obtain ⟨entry, isEntry, rfl⟩ := List.mem_map.mp (Dir.mem_undeclaredLocations.mpr elsewhere)
  obtain ⟨_, ⟨n, front, rfl, -, start⟩, present⟩ := Dir.exists_isChainEnd_of_mem
    placed_declaredTree.tidy (name_eq_of_tag (placed_declaredTree (c := c)).tag)
    hasDeclared_declaredTree isEntry named
  -- no part as long as this one is declared, so that the chain starts before it
  have before : n < m := by
    by_contra late
    rcases start with ⟨rfl, -⟩ | ⟨dir, -, proper, declared, -⟩
    · omega
    · rw [Dir.find?_eq_none_of_declaredLength_lt (by omega) proper] at declared
      cases declared
  have length : n + (m - n) = m := by omega
  have chain : (Dir.chainIds (LogicalPath.components entry.1) n).take (m - n) =
      Dir.chainIds ((LogicalPath.components entry.1).take m) n := by
    rw [Dir.take_chainIds (by omega) (by omega), length]
  have leads := (extended_installRoot madeFor).isSome_filesAt present
  rw [Dir.isSome_filesAt?, ← List.take_append_drop (m - n) (Dir.chainIds _ n), chain,
    ← List.append_assoc, follow?_append] at leads
  obtain ⟨d, reached⟩ := Option.isSome_iff_exists.mp leads
  obtain ⟨here, found, -⟩ := Option.bind_eq_some_iff.mp reached
  refine ⟨_, (extended_root madeFor).tidy.mem_places.mpr ⟨?_, Option.isSome_of_mem found⟩, ?_⟩
  · simp [Dir.chainIds]
  · rw [List.getLast?_append, Dir.getLast?_chainIds]
    rfl

/-- The ids of places are those of declared directories and of parts of locations. -/
theorem Compilation.exists_place_iff {c : Compilation} {components : List Element}
    (madeFor : MadeFor c.project.standaloneBookings components []) {id : String} :
    (∃ path ∈ (c.root components).places, path.getLast? = some id) ↔
      (∃ entry ∈ Dir.located c.project.dirs, entry.2.finalId = id) ∨
        ∃ part ∈ Dir.undeclaredParts c.project.dirs,
          Folder.identifier (ofComponents part) = id := by
  constructor
  · rintro ⟨path, mem, last⟩
    rcases declared_or_made madeFor extended_tree_identifier mem with
      declared | ⟨part, isPart, made⟩
    · obtain ⟨entry, isEntry, rfl⟩ := List.mem_map.mp declared
      rw [Dir.getLast?_of_mem_located isEntry, Option.some.injEq] at last
      exact .inl ⟨entry, isEntry, last⟩
    · rw [last, Option.some.injEq] at made
      exact .inr ⟨part, isPart, made.symm⟩
  · rintro (⟨entry, isEntry, rfl⟩ | ⟨part, isPart, rfl⟩)
    · exact ⟨entry.1, mem_places_of_located madeFor isEntry, Dir.getLast?_of_mem_located isEntry⟩
    · exact exists_place_of_part madeFor isPart

namespace Project

variable {project : Project} {options : Options} {c : Compilation} {components : List Element}
  {id : String}

/-- The place of a declared id. -/
theorem exists_place
    (start : Compilation.ofProject options (project.prepare options).project = .ok c)
    (madeFor : MadeFor c.project.standaloneBookings components [])
    (given : id ∈ Dir.explicitIds (project.shapedDirs options)) :
    ∃ path, path ∈ (c.root components).places.filter (endsIn id) := by
  obtain ⟨entry, isEntry, id_eq⟩ := project.exists_finalId options given
  rw [← (Compilation.project_of_ofProject start).1] at isEntry
  have ends : endsIn id entry.1 = true := by
    rw [endsIn, Dir.getLast?_of_mem_located isEntry, id_eq]
    exact beq_self_eq_true _
  exact ⟨entry.1, List.mem_filter.mpr ⟨Compilation.mem_places_of_located madeFor isEntry, ends⟩⟩

/-- An id has one place at most if declared ids are different and no part has the id. -/
theorem length_places_le_one
    (start : Compilation.ofProject options (project.prepare options).project = .ok c)
    (madeFor : MadeFor c.project.standaloneBookings components [])
    (different : (Dir.explicitIds (project.shapedDirs options)).Nodup)
    (notFolder : ¬ Folder.IsFolderId id)
    (apart : ∀ part ∈ Dir.undeclaredParts c.project.dirs,
      Folder.identifier (ofComponents part) ≠ id) :
    ((c.root components).places.filter (endsIn id)).length ≤ 1 := by
  have tidy : Tidy (c.root components) := (Compilation.extended_root madeFor).tidy
  have nodup := tidy.nodup_places.filter (endsIn id)
  -- places with the id are those of declared directories with it, which are all the same
  have declared : ∀ path ∈ (c.root components).places.filter (endsIn id),
      ∃ entry ∈ Dir.located (project.prepare options).project.dirs,
        entry.1 = path ∧ entry.2.finalId = id := by
    intro path mem
    obtain ⟨among, ends⟩ := List.mem_filter.mp mem
    rw [← (Compilation.project_of_ofProject start).1]
    exact Compilation.exists_located_of_endsIn madeFor apart among ends
  match places_eq : (c.root components).places.filter (endsIn id) with
  | [] => exact Nat.zero_le 1
  | [_] => exact Nat.le_refl 1
  | path :: path' :: rest =>
    rw [places_eq] at nodup declared
    obtain ⟨entry, isEntry, rfl, id_eq⟩ := declared path (by simp)
    obtain ⟨entry', isEntry', rfl, id_eq'⟩ := declared path' (by simp)
    have same := project.eq_of_finalId_eq options different isEntry isEntry'
      (id_eq.trans id_eq'.symm) (id_eq ▸ notFolder)
    simp [same] at nodup

end Project

/-- If the id of the installation directory is neither declared nor the identifier of a part, no two
directories have it. -/
theorem Project.count_installDirId_of_compile {project : Project} {options : Options}
    {output : Output} (compiled : project.compile options = .ok output)
    (nodup : (Dir.explicitIds project.dirs).Nodup)
    (notFolder : ¬ Folder.IsFolderId options.installDirDefaultId)
    (notRoot : options.installDirDefaultId ≠ Dir.rootId)
    (undeclared : output.installDir.isSome = true →
      options.installDirDefaultId ∉ Dir.explicitIds project.dirs)
    (apart : ∀ part ∈ Dir.undeclaredParts (project.prepare options).project.dirs,
      Folder.identifier (ofComponents part) ≠ options.installDirDefaultId) :
    (output.installDir.isSome = true →
      ((output.document.descendantsNamed "Directory").map id?).count
        (some options.installDirDefaultId) = 1) ∧
    ((output.document.descendantsNamed "Directory").map id?).count
      (some options.installDirDefaultId) ≤ 1 := by
  obtain ⟨c, ledger, start, -, made⟩ := Project.made_of_compile compiled
  obtain ⟨components, madeFor, directoryIds⟩ := made.directoryIds
  have explicit := project.perm_explicitIds options
  rw [← Project.installDir_of_compile compiled] at explicit
  have different : (Dir.explicitIds (project.shapedDirs options)).Nodup := by
    rw [explicit.nodup_iff]
    split
    next assigned => exact List.nodup_cons.mpr ⟨undeclared assigned, nodup⟩
    next => exact nodup
  rw [← (Compilation.project_of_ofProject start).1] at apart
  have atMost := Project.length_places_le_one start madeFor different notFolder apart
  rw [directoryIds, List.count_cons_of_ne (by simpa using notRoot.symm), count_getLast?_places]
  refine ⟨fun assigned => ?_, atMost⟩
  have given : options.installDirDefaultId ∈ Dir.explicitIds (project.shapedDirs options) := by
    rw [explicit.mem_iff, if_pos assigned]
    simp
  obtain ⟨path, mem⟩ := Project.exists_place start madeFor given
  have present := List.length_pos_of_mem mem
  omega

/-- A project with an id declared elsewhere and a shortcut that calls for a directory. -/
def Project.shared : Project where
  name := "App"
  dirs := [
    ⟨{ name := "%ProgramFiles%\\App", files := [{ name := "app.exe", shortcuts :=
      [{ name := "App", location := "%ProgramMenu%\\Tools" }] }] }, []⟩,
    ⟨{ name := "%CommonFiles%\\Shared", id := some "SHARED",
       files := [{ name := "shared.dll" }] }, []⟩]

theorem Project.count_installDirId_shared :
    Dir.explicitIds Project.shared.dirs = ["SHARED"] ∧
      (Dir.undeclaredParts (Project.shared.prepare {}).project.dirs).length = 2 ∧
      ∃ output, Project.shared.compile {} = .ok output ∧ output.installDir.isSome = true ∧
        ((output.document.descendantsNamed "Directory").map id?).count (some "INSTALLDIR") = 1 := by
  obtain ⟨output, compiled, assigned⟩ := Project.exists_output_of_any
    (by decide +kernel : ((Project.shared.compile {}).toOption.any fun output =>
      output.installDir.isSome) = true)
  obtain ⟨two, apart⟩ :
      (Dir.undeclaredParts (Project.shared.prepare {}).project.dirs).length = 2 ∧
        ∀ part ∈ Dir.undeclaredParts (Project.shared.prepare {}).project.dirs,
          Folder.identifier (ofComponents part) ≠ "INSTALLDIR" := by
    decide +kernel
  obtain ⟨one, -⟩ := Project.count_installDirId_of_compile compiled (by decide +kernel)
    (by decide +kernel) (by decide) (fun _ => by decide +kernel) apart
  exact ⟨by decide +kernel, two, output, compiled, assigned, one assigned⟩

/-- A project that declares the id of the installation directory outside its first branch. -/
def Project.claimed : Project where
  name := "App"
  dirs := [
    ⟨{ name := "%ProgramFiles%\\App", files := [{ name := "app.exe" }] }, []⟩,
    ⟨{ name := "%ProgramMenu%\\Tools", id := some "INSTALLDIR",
       files := [{ name := "tool.txt" }] }, []⟩]

/-- The first directory gets the declared id a second time. -/
theorem Project.count_installDirId_claimed : (Dir.explicitIds Project.claimed.dirs).Nodup ∧
    ¬ Folder.IsFolderId "INSTALLDIR" ∧ ∃ output, Project.claimed.compile {} = .ok output ∧
      output.installDir.isSome = true ∧
        ((output.document.descendantsNamed "Directory").map id?).count (some "INSTALLDIR") = 2 := by
  refine ⟨by decide +kernel, by decide +kernel, ?_⟩
  obtain ⟨output, compiled, twice⟩ := Project.exists_output_of_any
    (by decide +kernel : ((Project.claimed.compile {}).toOption.any fun output =>
      output.installDir.isSome && ((output.document.descendantsNamed "Directory").map id?).count
        (some "INSTALLDIR") == 2) = true)
  simp only [Bool.and_eq_true, beq_iff_eq] at twice
  exact ⟨output, compiled, twice⟩

end Installer
