import Installer.Proofs.Directory.Generated
import Installer.Proofs.Directory.Refinement
import Installer.Proofs.Directory.Undeclared

/-! # The directories that shortcuts stand in

The element of a file's shortcut names its directory by the identifier of a whole location, while
the directories of that location are made later, each with the identifier of a part of it.  They
meet because an identifier depends on the names in a path only.
-/

namespace Installer

open Markup (Element)
open Markup.Element
open LogicalPath

namespace Shortcut

def KeepsDirectory (shortcut : Shortcut) : Prop :=
  ∀ pair ∈ shortcut.attributes.pairs, pair.1 ≠ "Directory"

instance (shortcut : Shortcut) : Decidable shortcut.KeepsDirectory :=
  inferInstanceAs (Decidable (∀ pair ∈ shortcut.attributes.pairs, pair.1 ≠ "Directory"))

theorem directory_elementFor {dirs : List Dir} {dirId fileId : String} {file : File}
    {shortcut : Shortcut} (keeps : shortcut.KeepsDirectory) :
    (shortcut.elementFor dirs dirId fileId file).attrOf? "Directory" =
      some (shortcut.directoryId dirs dirId) := by
  rw [elementFor, attrOf?_withAttrs _ keeps]
  rfl

/-- The location is empty or has a name in it. -/
def HasPlace (shortcut : Shortcut) : Prop :=
  shortcut.location.isEmpty = true ∨ components shortcut.location ≠ []

end Shortcut

namespace Compilation

variable {c : Compilation} {components : List Element}

/-- In the tree the element of the shortcut is below the directory of its file, and the directory
that it names is there. For a location without a directory that is the end of a chain. -/
structure PlacesShortcut (c : Compilation) (root : Element) (entry : List String × Dir)
    (file : File) (shortcut : Shortcut) : Prop where
  element : ∃ d, root.directoriesAt entry.1 = [d] ∧
    shortcut.elementFor c.project.dirs entry.2.finalId file.finalId file ∈ d.descendants
  directory : ∃ path d id, root.directoriesAt path = [d] ∧ d.name = "Directory" ∧
    d.id? = some id ∧
      (shortcut.elementFor c.project.dirs entry.2.finalId file.finalId file).attrOf? "Directory" =
        some id ∧
      (shortcut.isElsewhere c.project.dirs = true →
        Dir.IsChainEnd c.project.dirs shortcut.location path)

/-- A path that is there leads to one directory, which has the last id of the path. -/
theorem exists_directory {root : Element} (tidy : Tidy root) {path : List String} {id : String}
    (present : (root.filesAt? path).isSome = true) (last : path.getLast? = some id) :
    ∃ d, root.directoriesAt path = [d] ∧ d.name = "Directory" ∧ d.id? = some id := by
  rw [Dir.isSome_filesAt?, Option.isSome_iff_exists] at present
  obtain ⟨d, found⟩ := present
  obtain ⟨front, rfl⟩ := List.getLast?_eq_some_iff.mp last
  refine ⟨d, ?_, (follow?_below found (by simp)).2, follow?_id found⟩
  rw [tidy.directoriesAt_eq, found]
  rfl

/-- The component of a file is in its directory, and the shortcut is in it. -/
theorem elementFor_mem_descendants (made : MadeFor c.project.standaloneBookings components [])
    {entry : List String × Dir} (mem : entry ∈ Dir.located c.project.dirs) {file : File}
    (isFile : file ∈ entry.2.files) {shortcut : Shortcut} (isShortcut : shortcut ∈ file.shortcuts)
    {d : Element} (found : (c.root components).directoriesAt entry.1 = [d]) :
    shortcut.elementFor c.project.dirs entry.2.finalId file.finalId file ∈ d.descendants := by
  have tidy : Tidy (c.root components) := (extended_root made).tidy
  have leads : (c.root components).follow? entry.1 = some d := by
    rw [tidy.directoriesAt_eq] at found
    simpa using congrArg List.head? found
  have held := elementsNamed_of_filesAt? (filesAt?_located made mem) leads
  have component : file.component c entry.2.finalId ∈ d.elements := by
    have listed : file.component c entry.2.finalId ∈
        (Dir.atPath c.project.dirs entry.1).flatMap (Dir.fileComponents c) :=
      List.mem_flatMap.mpr ⟨entry.2, Dir.mem_atPath.mpr mem, List.mem_map_of_mem isFile⟩
    rw [← held] at listed
    exact (List.mem_filter.mp (List.mem_filter.mp listed).1).1
  have element : file.element c entry.2.finalId ∈ (file.component c entry.2.finalId).elements := by
    simp [File.component]
  have link : shortcut.elementFor c.project.dirs entry.2.finalId file.finalId file ∈
      (file.element c entry.2.finalId).elements := by
    simp only [File.element, elements_addAll, List.mem_append, List.mem_map]
    exact .inl (.inr ⟨shortcut, isShortcut, rfl⟩)
  exact mem_descendants component (List.mem_cons_of_mem _
    (mem_descendants element (List.mem_cons_of_mem _
      (mem_descendants link (List.mem_cons_self ..)))))

/-- The directory that a shortcut names is in the tree. -/
theorem exists_place (made : MadeFor c.project.standaloneBookings components [])
    {entry : List String × Dir} (mem : entry ∈ Dir.located c.project.dirs) {file : File}
    (isFile : file ∈ entry.2.files) {shortcut : Shortcut} (isShortcut : shortcut ∈ file.shortcuts)
    (place : shortcut.HasPlace) :
    ∃ path, ((c.root components).filesAt? path).isSome = true ∧
      path.getLast? = some (shortcut.directoryId c.project.dirs entry.2.finalId) ∧
        (shortcut.isElsewhere c.project.dirs = true →
          Dir.IsChainEnd c.project.dirs shortcut.location path) := by
  have declared : ∀ known ∈ Dir.located c.project.dirs,
      ((c.root components).filesAt? known.1).isSome = true := fun known isKnown => by
    rw [filesAt?_located made isKnown]
    rfl
  rw [Shortcut.directoryId, Shortcut.isElsewhere]
  cases place with
  | inl empty =>
    rw [if_pos empty]
    exact ⟨entry.1, declared entry mem, Dir.getLast?_of_mem_located mem, by simp [empty]⟩
  | inr named =>
    have notEmpty : shortcut.location.isEmpty = false := by
      rw [← Bool.not_eq_true]
      intro empty
      rw [String.isEmpty_iff.mp empty] at named
      exact named rfl
    simp only [notEmpty, Bool.false_eq_true, if_false, Bool.not_false, Bool.true_and]
    cases found : Dir.find? c.project.dirs shortcut.location with
    | some dir =>
      obtain ⟨path, among⟩ := Dir.mem_all.mp (Dir.find?_mem found)
      exact ⟨path, declared _ among, Dir.getLast?_of_mem_located among, by simp⟩
    | none =>
      have noted : shortcut.location ∈ c.undeclaredLocations.map Prod.fst := by
        refine Dir.mem_undeclaredLocations.mpr (Dir.mem_elsewhere.mpr ⟨file, ?_, shortcut,
          isShortcut, by simp [Shortcut.isElsewhere, notEmpty, found], rfl⟩)
        exact List.mem_flatMap.mpr ⟨entry.2, Dir.mem_all.mpr ⟨entry.1, mem⟩, isFile⟩
      obtain ⟨known, isKnown, equal⟩ := List.mem_map.mp noted
      obtain ⟨path, ends, present⟩ := Dir.exists_isChainEnd_of_mem placed_declaredTree.tidy
        (name_eq_of_tag (placed_declaredTree (c := c)).tag) hasDeclared_declaredTree isKnown
          (equal ▸ named)
      rw [equal] at ends
      refine ⟨path, (extended_installRoot made).isSome_filesAt present, ?_, fun _ => ends⟩
      -- the chain ends in the identifier of all names of the location
      obtain ⟨n, front, rfl, -⟩ := ends
      rw [List.getLast?_append, Dir.getLast?_chainIds, Folder.identifier_ofComponents]
      rfl

end Compilation

/-- The files of a prepared project are the declared ones with 64-bit folders where they are asked
for, apart from ids. -/
theorem Project.files_prepare (project : Project) (options : Options) :
    (Dir.allFiles (project.prepare options).project.dirs).map File.withoutIds =
      (Dir.allFiles (project.withSomeDir.widened options).dirs).map File.withoutIds := by
  have shaped : Dir.allFiles (project.shapedDirs options) =
      Dir.allFiles (project.withSomeDir.widened options).dirs :=
    Dir.readAll_shape (fun _ _ => rfl) (fun _ => rfl) (fun _ _ => rfl) _ _
  rw [← Dir.allFiles_withoutIdsAll, project.withoutIds_prepare options,
    Dir.allFiles_withoutIdsAll, shaped]

/-- Every shortcut of a file whose location is empty or has a name stands in a directory of the
document. -/
theorem Project.placesShortcuts_of_compile {project : Project} {options : Options} {output : Output}
    (compiled : project.compile options = .ok output) :
    ∃ c root, Compilation.ofProject options (project.prepare options).project = .ok c ∧
      (Dir.allFiles c.project.dirs).map File.withoutIds =
        (Dir.allFiles (project.withSomeDir.widened options).dirs).map File.withoutIds ∧
      (∃ package, output.document.elements = [package] ∧
        package.elementsNamed "Directory" = [root]) ∧
      root.id? = some Dir.rootId ∧
      ∀ entry ∈ Dir.located c.project.dirs, ∀ file ∈ entry.2.files, ∀ shortcut ∈ file.shortcuts,
        shortcut.HasPlace → shortcut.KeepsDirectory →
          c.PlacesShortcut root entry file shortcut := by
  obtain ⟨c, ledger, start, -, made⟩ := made_of_compile compiled
  have prepared : c.project = (project.prepare options).project :=
    (Compilation.project_of_ofProject start).1
  obtain ⟨extensions, package, components, document, madeFor, holds⟩ := made.holdsRoot
  have tidy : Tidy (c.root components) := (Compilation.extended_root madeFor).tidy
  refine ⟨c, c.root components, start, ?_, ⟨package, ?_, holds.directories⟩,
    id?_eq_of_tag (Compilation.tag_root madeFor),
    fun entry mem file isFile shortcut isShortcut place keeps => ⟨?_, ?_⟩⟩
  · rw [prepared]
    exact project.files_prepare options
  · rw [document]
    exact Compilation.elements_document
  · obtain ⟨d, found⟩ := Compilation.exists_directoriesAt madeFor mem
    exact ⟨d, found,
      Compilation.elementFor_mem_descendants madeFor mem isFile isShortcut found⟩
  · obtain ⟨path, present, last, ends⟩ :=
      Compilation.exists_place madeFor mem isFile isShortcut place
    obtain ⟨d, found, directory, identified⟩ := Compilation.exists_directory tidy present last
    exact ⟨path, d, _, found, directory, identified, Shortcut.directory_elementFor keeps, ends⟩

theorem Project.placesShortcut_twofold :
    ∃ (output : Output) (c : Compilation) (root : Element) (entry : List String × Dir) (file : File)
      (shortcut : Shortcut), Project.twofold.compile {} = .ok output ∧
        shortcut.isElsewhere c.project.dirs = true ∧
          c.PlacesShortcut root entry file shortcut := by
  obtain ⟨output, compiled⟩ := Project.exists_output
    (by decide +kernel : (Project.twofold.compile {}).isOk = true)
  obtain ⟨c, root, start, -, -, -, places⟩ := Project.placesShortcuts_of_compile compiled
  rw [(Compilation.project_of_ofProject start).1] at places
  have listed : ((Dir.located (Project.twofold.prepare {}).project.dirs).any fun entry =>
      entry.2.files.any fun file => file.shortcuts.any fun shortcut =>
        shortcut.isElsewhere (Project.twofold.prepare {}).project.dirs &&
          !(components shortcut.location).isEmpty && decide shortcut.KeepsDirectory) = true := by
    decide +kernel
  simp only [List.any_eq_true, Bool.and_eq_true, decide_eq_true_eq] at listed
  obtain ⟨entry, mem, file, isFile, shortcut, isShortcut, ⟨elsewhere, named⟩, keeps⟩ := listed
  refine ⟨output, c, root, entry, file, shortcut, compiled, ?_,
    places entry mem file isFile shortcut isShortcut (.inr (by simpa using named)) keeps⟩
  rw [(Compilation.project_of_ofProject start).1]
  exact elsewhere

end Installer
