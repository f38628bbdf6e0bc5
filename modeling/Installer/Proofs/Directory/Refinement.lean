import Installer.Proofs.Directory.Resolve
import Installer.Proofs.Product.Document

/-! # The document realises the directories of a project

`Compilation.Realises` says what has to hold of a document and the root directory in it so that it
stands for the prepared directories of a project, and `Project.realises_of_compile` says that it
holds of every document that a compilation gives.
-/

namespace Installer

open Markup (Element)
open Markup.Element

/-! ## Files and their components -/

namespace Markup.Element

/-- The files below a component are those directly inside it. -/
theorem IsComponent.descendantsNamed {e : Element} {id : String} {files : List Element}
    (shape : e.IsComponent id files) : e.descendantsNamed "File" = files := by
  have below : ∀ children : List Element, (∀ child ∈ children,
      (child.name = "File" ∧ ∀ x ∈ child.elements, Plain x) ∨ Plain child) →
      (children.flatMap subtree).filter (fun x => x.name == "File") =
        children.filter fun child => child.name == "File" := by
    intro children inside
    have none : ∀ {x : Element}, Plain x → x.subtree.filter (fun y => y.name == "File") = [] :=
      fun plain => List.filter_eq_nil_iff.mpr fun y mem => by
        simpa using plain.only "File" (by decide) y mem
    induction children with
    | nil => rfl
    | cons child rest ih =>
      rw [List.flatMap_cons, List.filter_append,
        ih fun x mem => inside x (List.mem_cons_of_mem _ mem)]
      rcases inside child (List.mem_cons_self ..) with ⟨file, plain⟩ | plain
      · have inner : (child.elements.flatMap subtree).filter (fun x => x.name == "File") = [] := by
          rw [List.filter_flatMap, List.flatMap_eq_nil_iff]
          exact fun x mem => none (plain x mem)
        rw [subtree, descendants_eq_flatMap, List.filter_cons, inner]
        simp [file]
      · have other : child.name ≠ "File" := (plain.only "File" (by decide)).here
        rw [none plain]
        simp [other]
  rw [Element.descendantsNamed, descendants_eq_flatMap, below _ shape.inside, ← shape.files_eq]
  rfl

end Markup.Element

namespace File

def KeepsId (file : File) : Prop :=
  ∀ pair ∈ file.attributes.pairs, pair.1 ≠ "Id"

instance (file : File) : Decidable file.KeepsId :=
  inferInstanceAs (Decidable (∀ pair ∈ file.attributes.pairs, pair.1 ≠ "Id"))

theorem id?_element (c : Compilation) (dirId : String) {file : File} (keeps : file.KeepsId) :
    (file.element c dirId).id? = some file.finalId := by
  have assembly : ∀ pair ∈ file.assemblyAttrs, pair.1 ≠ "Id" := by
    rw [assemblyAttrs]
    split
    next => simp
    next => simp
  have attributed : (((Element.mk "File"
      [("Id", file.finalId), ("Source", c.sourcePath file.name)] []).withAttrs
        file.attributes.pairs).withAttrs file.assemblyAttrs).id? = some file.finalId := by
    rw [id?_withAttrs _ assembly, id?_withAttrs _ keeps]
    rfl
  exact attributed

/-- The element is the component of a file in the directory `dirId`: the file's element is directly
inside it, and no other file is in it. -/
structure HasComponent (c : Compilation) (dirId : String) (file : File) (e : Element) : Prop where
  made : e = file.component c dirId
  name_eq : e.name = "Component"
  id_eq : e.id? = some file.componentId
  held : ∃ f, e.elementsNamed "File" = [f] ∧ e.descendantsNamed "File" = [f] ∧
    f.id? = some file.finalId

theorem hasComponent (c : Compilation) (dirId : String) {file : File} (keeps : file.KeepsId) :
    file.HasComponent c dirId (file.component c dirId) := by
  have shape := isComponent_file c dirId file
  exact ⟨rfl, shape.name_eq, shape.id_eq, file.element c dirId, shape.files_eq,
    shape.descendantsNamed, id?_element c dirId keeps⟩

end File

/-- The files of the components of some directories are their files. -/
theorem Dir.heldFileIds_fileComponents (c : Compilation) {dirs : List Dir}
    (keeps : ∀ file ∈ allFiles dirs, file.KeepsId) :
    heldFileIds (allFileComponents c dirs) =
      (allFiles dirs).map fun file => some file.finalId := by
  have held : ∀ (dirId : String) (files : List File), (∀ file ∈ files, file.KeepsId) →
      heldFileIds (files.map (File.component c dirId)) =
        files.map fun file => some file.finalId := by
    intro dirId files keeps
    induction files with
    | nil => rfl
    | cons file rest ih =>
      rw [List.forall_mem_cons] at keeps
      have first := (isComponent_file c dirId file).files_eq
      have later := ih keeps.2
      rw [heldFileIds] at later
      rw [heldFileIds, List.map_cons, List.flatMap_cons, later, first]
      simp [File.id?_element c dirId keeps.1]
  rw [allFileComponents, allFiles, List.map_flatMap]
  rw [allFiles] at keeps
  generalize all dirs = directories at keeps ⊢
  induction directories with
  | nil => rfl
  | cons dir rest ih =>
    rw [List.flatMap_cons, List.forall_mem_append] at keeps
    have later := ih keeps.2
    rw [heldFileIds] at later
    rw [List.flatMap_cons, List.flatMap_cons, heldFileIds, List.flatMap_append, later,
      ← heldFileIds, fileComponents, held _ _ keeps.1]

/-- Directories that became one hold the components of their files, one after another. -/
theorem Dir.forall₂_hasComponent {c : Compilation} {dirs : List Dir} {id : String}
    (same : ∀ dir ∈ dirs, dir.finalId = id)
    (keeps : ∀ file ∈ dirs.flatMap fun dir => dir.files, file.KeepsId) :
    List.Forall₂ (File.HasComponent c id) (dirs.flatMap fun dir => dir.files)
      (dirs.flatMap (fileComponents c)) := by
  have components : dirs.flatMap (fileComponents c) =
      (dirs.flatMap fun dir => dir.files).map (File.component c id) := by
    rw [List.map_flatMap]
    refine List.flatMap_congr fun dir mem => ?_
    rw [fileComponents, same dir mem]
  rw [components, List.forall₂_map_right_iff, List.forall₂_same]
  exact fun file mem => File.hasComponent c id (keeps file mem)

/-! ## The specification -/

/-- The document stands for the prepared directories of the project. -/
structure Compilation.Realises (c : Compilation) (document root : Element) : Prop where
  /-- The package has one directory, which is the root. -/
  inPackage : ∃ package, document.elements = [package] ∧ package.elementsNamed "Directory" = [root]
  rootId : root.id? = some Dir.rootId
  /-- All directories of the document are at or below the root. -/
  inside : ∀ d ∈ document.descendants, d.name = "Directory" → d ∈ root.subtree
  /-- Sibling directories have different ids. -/
  siblings : ∀ e ∈ document.subtree, e.directoryIds.Nodup
  /-- Every id path of a prepared directory is realised by one chain of nested directories. -/
  declared : ∀ entry ∈ Dir.located c.project.dirs, ∃ d, root.directoriesAt entry.1 = [d]
  /-- Every directory below the root is alone at the end of its chain, which realises the id path of
  a prepared directory or was made for a shortcut location that no directory is declared for. -/
  chains : ∀ d ∈ root.descendants, d.name = "Directory" →
    ∃ path, root.directoriesAt path = [d] ∧
      (path ∈ (Dir.located c.project.dirs).map Prod.fst ∨ c.IsUndeclaredPath path)
  /-- The components with files in a directory are those of the files that were declared for its id
  path, in the order of declaration. -/
  files : ∀ entry ∈ Dir.located c.project.dirs, ∀ d ∈ root.directoriesAt entry.1,
    List.Forall₂ (File.HasComponent c entry.2.finalId)
      ((Dir.atPath c.project.dirs entry.1).flatMap fun dir => dir.files)
      ((d.elementsNamed "Component").filter holdsFile)
  /-- The document has as many files as are declared. -/
  fileIds : ((document.descendantsNamed "File").map id?).Perm
    ((Dir.allFiles c.project.dirs).map fun file => some file.finalId)

/-! ## The proof -/

namespace Compilation

variable {c : Compilation} {components : List Element}

/-- In a directory at a path, the components with files are the ones that are counted there. -/
theorem elementsNamed_of_filesAt? {root d : Element} {path : List String} {dirs : List Dir}
    (files : root.filesAt? path = some (dirs.flatMap (Dir.fileComponents c)))
    (found : root.follow? path = some d) :
    (d.elementsNamed "Component").filter holdsFile = dirs.flatMap (Dir.fileComponents c) := by
  rw [filesAt?, heldAt?, found, Option.map_some, Option.map_some, Option.some.injEq] at files
  have components : ∀ x ∈ dirs.flatMap (Dir.fileComponents c), x.name = "Component" := by
    intro x mem
    obtain ⟨dir, -, among⟩ := List.mem_flatMap.mp mem
    obtain ⟨file, -, rfl⟩ := List.mem_map.mp among
    exact (isComponent_file c dir.finalId file).name_eq
  have kept : (dirs.flatMap (Dir.fileComponents c)).filter (fun x => x.name == "Component") =
      dirs.flatMap (Dir.fileComponents c) :=
    List.filter_eq_self.mpr fun x mem => by simpa using components x mem
  rw [← kept, ← files, holdings, List.filter_filter, List.filter_filter, elementsNamed,
    List.filter_filter]
  -- both filters look for components with files and differ in their order
  refine List.filter_congr fun x _ => ?_
  by_cases isComponent : x.name = "Component"
  · simp [isComponent]
  · have other : (x.name == "Component") = false := by simpa using isComponent
    simp [other]

/-- Below the root, the tree of declared directories holds what is declared for each path. -/
theorem filesAt?_declaredTree {path : List String} (below : path ≠ []) :
    c.declaredTree.filesAt? path =
      Dir.fileComponents? c (Dir.atPath c.project.dirs path) := by
  have empty : emptyRoot.filesAt? path = none := by
    cases path with
    | nil => exact absurd rfl below
    | cons id rest => rfl
  rw [placed_declaredTree.filesAt, empty, Option.merge_none_left]

/-- A directory below the root is a declared one or was made for a location. -/
theorem declared_or_made (madeFor : MadeFor c.project.standaloneBookings components [])
    {made : List String → Prop} {bookings : List Booking}
    (extended : Extended made bookings c.declaredTree c.tree) {path : List String}
    (mem : path ∈ (c.root components).places) :
    path ∈ (Dir.located c.project.dirs).map Prod.fst ∨ made path := by
  have whole := extended.trans ((extended_installRoot madeFor).mono fun _ impossible =>
    impossible.elim)
  obtain ⟨below, present⟩ := whole.tidy.mem_places.mp mem
  rw [← Dir.isSome_filesAt?] at present
  rcases whole.filesAt path with kept | ⟨-, -, isMade⟩
  · rw [kept, filesAt?_declaredTree below, Dir.fileComponents?] at present
    split at present
    next => cases present
    next some_ =>
      obtain ⟨dir, isAt⟩ := List.exists_mem_of_ne_nil _ (by simpa using some_)
      exact .inl (List.mem_map.mpr ⟨(path, dir), Dir.mem_atPath.mp isAt, rfl⟩)
  · exact .inr isMade

/-- All directories of a document are at or below the root that its package holds. -/
theorem mem_subtree_root {extensions : List Extension} {package root d : Element}
    (holds : package.HoldsRoot root) (mem : d ∈ ((rootElement extensions).add package).descendants)
    (directory : d.name = "Directory") : d ∈ root.subtree := by
  have packageName : package.name ≠ "Directory" := fun equal => holds.name_eq (by simp [equal])
  rw [descendants_eq_flatMap, elements_document, List.flatMap_singleton] at mem
  rcases List.mem_cons.mp mem with rfl | mem
  · exact absurd directory packageName
  · rw [descendants_eq_flatMap, List.mem_flatMap] at mem
    obtain ⟨child, isChild, among⟩ := mem
    by_cases other : child.name = "Directory"
    · exact holds.eq_root isChild other ▸ among
    · exact absurd directory ((holds.beside child isChild other).only _ (by decide) d among)

/-- When sibling directories of the root are different, those of the whole document are. -/
theorem nodup_directoryIds {extensions : List Extension} {package root : Element}
    (holds : package.HoldsRoot root) (tidy : Tidy root) :
    Everywhere (fun e => e.directoryIds.Nodup) ((rootElement extensions).add package) := by
  have packageName : package.name ≠ "Directory" := fun equal => holds.name_eq (by simp [equal])
  refine everywhere_iff.mpr ⟨?_, ?_⟩
  · rw [directoryIds_eq_nil]
    · exact List.nodup_nil
    · rw [elements_document]
      simpa using packageName
  · rw [elements_document, List.forall_mem_singleton]
    refine everywhere_iff.mpr ⟨?_, fun child isChild => ?_⟩
    · rw [directoryIds, holds.directories]
      simp
    · by_cases other : child.name = "Directory"
      · exact holds.eq_root isChild other ▸ tidy.everywhere_nodup
      · -- there are no directories in the other children at all
        have aside := holds.beside child isChild other
        exact (tidy_of_only (aside.only _ (by decide))).everywhere_nodup

theorem ne_nil_of_mem_located {entry : List String × Dir}
    (mem : entry ∈ Dir.located c.project.dirs) : entry.1 ≠ [] := fun nothing => by
  have last := Dir.getLast?_of_mem_located mem
  simp [nothing] at last

/-- The directories of the root at the id path of a prepared directory, and the files there. -/
theorem filesAt?_located (made : MadeFor c.project.standaloneBookings components [])
    {entry : List String × Dir} (mem : entry ∈ Dir.located c.project.dirs) :
    (c.root components).filesAt? entry.1 =
      some ((Dir.atPath c.project.dirs entry.1).flatMap (Dir.fileComponents c)) := by
  have found : entry.2 ∈ Dir.atPath c.project.dirs entry.1 := Dir.mem_atPath.mpr mem
  have nonempty : (Dir.atPath c.project.dirs entry.1).isEmpty = false := by
    simpa using List.ne_nil_of_mem found
  have declared : c.declaredTree.filesAt? entry.1 =
      some ((Dir.atPath c.project.dirs entry.1).flatMap (Dir.fileComponents c)) := by
    rw [filesAt?_declaredTree (ne_nil_of_mem_located mem), Dir.fileComponents?, nonempty]
    rfl
  -- what is added for locations and standalone components holds no files
  rcases (extended_root made).filesAt entry.1 with kept | ⟨missing, -, -⟩
  · exact kept.trans declared
  · rw [declared] at missing
    cases missing

theorem exists_directoriesAt (made : MadeFor c.project.standaloneBookings components [])
    {entry : List String × Dir} (mem : entry ∈ Dir.located c.project.dirs) :
    ∃ d, (c.root components).directoriesAt entry.1 = [d] := by
  have tidy : Tidy (c.root components) := (extended_root made).tidy
  have present := Dir.isSome_filesAt? (c.root components) entry.1
  rw [filesAt?_located made mem, Option.isSome_some] at present
  obtain ⟨d, found⟩ := Option.isSome_iff_exists.mp present.symm
  exact ⟨d, by rw [tidy.directoriesAt_eq, found]; rfl⟩

/-- Every directory below the root has a path of its own, which is a declared one or leads to a
shortcut location. -/
theorem exists_chain (made : MadeFor c.project.standaloneBookings components []) {d : Element}
    (mem : d ∈ (c.root components).descendants) (directory : d.name = "Directory") :
    ∃ path, (c.root components).directoriesAt path = [d] ∧
      (path ∈ (Dir.located c.project.dirs).map Prod.fst ∨ c.IsUndeclaredPath path) := by
  have tidy : Tidy (c.root components) := (extended_root made).tidy
  obtain ⟨path, below, found⟩ := tidy.exists_path d mem directory
  refine ⟨path, by rw [tidy.directoriesAt_eq, found]; rfl, ?_⟩
  exact declared_or_made made extended_tree (tidy.mem_places.mpr ⟨below, by rw [found]; rfl⟩)

theorem forall₂_hasComponent (made : MadeFor c.project.standaloneBookings components [])
    (keeps : ∀ file ∈ Dir.allFiles c.project.dirs, file.KeepsId) {entry : List String × Dir}
    (mem : entry ∈ Dir.located c.project.dirs) {d : Element}
    (found : d ∈ (c.root components).directoriesAt entry.1) :
    List.Forall₂ (File.HasComponent c entry.2.finalId)
      ((Dir.atPath c.project.dirs entry.1).flatMap fun dir => dir.files)
      ((d.elementsNamed "Component").filter holdsFile) := by
  have tidy : Tidy (c.root components) := (extended_root made).tidy
  rw [tidy.directoriesAt_eq, Option.mem_toList] at found
  rw [elementsNamed_of_filesAt? (filesAt?_located made mem) found]
  refine Dir.forall₂_hasComponent (fun x among => ?_) fun file among => keeps file ?_
  · -- an id path ends in the id of its directory
    have last := Dir.getLast?_of_mem_located (Dir.mem_atPath.mp among)
    rw [Dir.getLast?_of_mem_located mem, Option.some.injEq] at last
    exact last.symm
  · obtain ⟨x, isDir, isFile⟩ := List.mem_flatMap.mp among
    exact List.mem_flatMap.mpr ⟨x, Dir.mem_all.mpr ⟨_, Dir.mem_atPath.mp isDir⟩, isFile⟩

theorem realises_of_made {document : Element} {ledger : Ledger} (made : c.Made document ledger)
    (keeps : ∀ file ∈ Dir.allFiles c.project.dirs, file.KeepsId) :
    ∃ root, c.Realises document root := by
  have fileIds := made.fileIds
  rw [Dir.heldFileIds_fileComponents c keeps] at fileIds
  obtain ⟨extensions, package, components, rfl, madeFor, holds⟩ := made.holdsRoot
  have tidy : Tidy (c.root components) := (extended_root madeFor).tidy
  exact ⟨c.root components, {
    inPackage := ⟨package, elements_document, holds.directories⟩
    rootId := id?_eq_of_tag (tag_root madeFor)
    inside := fun d mem directory => mem_subtree_root holds mem directory
    siblings := nodup_directoryIds holds tidy
    declared := fun entry mem => exists_directoriesAt madeFor mem
    chains := fun d mem directory => exists_chain madeFor mem directory
    files := fun entry mem d found => forall₂_hasComponent madeFor keeps mem found
    fileIds }⟩

end Compilation

/-- Attributes are part of the outline of a file, so that preparing a project leaves them alone. -/
theorem Project.keepsId_prepare {project : Project} (options : Options)
    (keeps : ∀ file ∈ Dir.allFiles project.dirs, file.KeepsId) :
    ∀ file ∈ Dir.allFiles (project.prepare options).project.dirs, file.KeepsId := by
  intro file mem
  have mem' : file.outline ∈ (Dir.allFiles project.dirs).map File.outline := by
    rw [← project.outlines_prepare options]
    exact List.mem_map_of_mem mem
  obtain ⟨declared, among, equal⟩ := List.mem_map.mp mem'
  have attributes : declared.outline.attributes = file.outline.attributes :=
    congrArg File.attributes equal
  have same : file.attributes = declared.attributes := attributes.symm
  rw [File.KeepsId, same]
  exact keeps declared among

/-- The document of a compiled project realises its directories, and the files in them are the
declared ones. -/
theorem Project.realises_of_compile {project : Project} {options : Options} {output : Output}
    (compiled : project.compile options = .ok output)
    (keeps : ∀ file ∈ Dir.allFiles project.dirs, file.KeepsId) :
    ∃ c root, Compilation.ofProject options (project.prepare options).project = .ok c ∧
      (Dir.allFiles c.project.dirs).map File.outline =
        (Dir.allFiles project.dirs).map File.outline ∧
      c.Realises output.document root := by
  obtain ⟨c, ledger, start, -, made⟩ := Project.made_of_compile compiled
  have prepared : c.project = (project.prepare options).project :=
    (Compilation.project_of_ofProject start).1
  have outlines : (Dir.allFiles c.project.dirs).map File.outline =
      (Dir.allFiles project.dirs).map File.outline := by
    rw [prepared]
    exact project.outlines_prepare options
  have keeps' : ∀ file ∈ Dir.allFiles c.project.dirs, file.KeepsId :=
    prepared ▸ Project.keepsId_prepare options keeps
  obtain ⟨root, realises⟩ := Compilation.realises_of_made made keeps'
  exact ⟨c, root, start, outlines, realises⟩

/-- A project with a folder that is declared twice and with a file whose shortcut stands in a folder
that is not declared. -/
def Project.twofold : Project where
  name := "App"
  dirs := [
    ⟨{ name := "%ProgramFiles%\\App", files := [{ name := "app.exe", shortcuts :=
      [{ name := "App", location := "%ProgramMenu%\\Tools" }] }] }, []⟩,
    ⟨{ name := "%ProgramFiles%", files := [{ name := "readme.txt" }] }, []⟩]

theorem Project.realises_twofold :
    ∃ (output : Output) (c : Compilation) (root : Element),
      Project.twofold.compile {} = .ok output ∧ c.Realises output.document root := by
  obtain ⟨output, compiled⟩ := Project.exists_output
    (by decide +kernel : (Project.twofold.compile {}).isOk = true)
  have keeps : ∀ file ∈ Dir.allFiles Project.twofold.dirs, file.KeepsId := by decide +kernel
  obtain ⟨c, root, -, -, realises⟩ := Project.realises_of_compile compiled keeps
  exact ⟨output, c, root, compiled, realises⟩

end Installer
