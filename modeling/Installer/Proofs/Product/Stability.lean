import Installer.Proofs.Component.Places
import Installer.Proofs.Component.Stamps
import Installer.Proofs.Directory.Appended
import Installer.Proofs.Directory.Undeclared
import Installer.Proofs.Product.Home

/-! # Components stay when a project grows

A project gets one more directory behind the others.  The two compilations share everything up to
the new directory: the ids that were handed out, the tree of the directories before, and the numbers
and GUIDs of standalone components.  So every component is still in the document, and those of
directories are where they were.
-/

namespace Installer

open Markup (Element Focus)
open Markup.Element

/-! ## The same compilation with other directories -/

variable {c : Compilation} {dirs : List Dir}

/-- A file whose shortcuts name no locations does not depend on what directories there are. -/
theorem File.component_withDirs {file : File}
    (nowhere : ∀ shortcut ∈ file.shortcuts, shortcut.location = "") (dirId : String) :
    file.component (c.withDirs dirs) dirId = file.component c dirId := by
  have shortcuts : ∀ fileId,
      file.shortcuts.map (Shortcut.elementFor dirs dirId fileId file) =
        file.shortcuts.map (Shortcut.elementFor c.project.dirs dirId fileId file) := by
    intro fileId
    refine List.map_congr_left fun shortcut mem => ?_
    simp [Shortcut.elementFor, Shortcut.directoryId, nowhere shortcut mem]
  have element : file.element (c.withDirs dirs) dirId = file.element c dirId := by
    rw [File.element, File.element]
    show Element.addAll (Element.addAll _ (file.shortcuts.map
      (Shortcut.elementFor dirs dirId file.finalId file))) _ = _
    rw [shortcuts]
    rfl
  rw [component, component, element]
  rfl

namespace Dir

theorem contents_withDirs {dir : Dir}
    (nowhere : ∀ file ∈ dir.files, ∀ shortcut ∈ file.shortcuts, shortcut.location = "")
    (e : Element) : dir.contents (c.withDirs dirs) e = dir.contents c e := by
  have files : dir.files.map (File.component (c.withDirs dirs) dir.finalId) =
      dir.files.map (File.component c dir.finalId) :=
    List.map_congr_left fun file mem => File.component_withDirs (nowhere file mem) _
  rw [contents, contents, DirBody.contents, DirBody.contents, files]
  rfl

mutual

theorem place_withDirs : ∀ (dir : Dir) (parent : Element), locations dir = [] →
    dir.place (c.withDirs dirs) parent = dir.place c parent
  | ⟨body, below⟩, parent, nowhere => by
    have own : ∀ file ∈ body.files, ∀ shortcut ∈ file.shortcuts, shortcut.location = "" := by
      intro file mem
      rw [locations_eq, ← locationsIn_eq, locationsIn_eq_nil] at nowhere
      exact nowhere file (by simp [allFiles, mem])
    rw [locations, List.append_eq_nil_iff] at nowhere
    rw [place, place, filled, filled, contents_withDirs own, placeAll_withDirs below _ nowhere.2]

/-- Where shortcuts name no locations, placing does not depend on what directories there are. -/
theorem placeAll_withDirs : ∀ (placed : List Dir) (parent : Element), locationsIn placed = [] →
    placeAll (c.withDirs dirs) placed parent = placeAll c placed parent
  | [], parent, _ => rfl
  | dir :: rest, parent, nowhere => by
    rw [locationsIn, List.append_eq_nil_iff] at nowhere
    rw [placeAll, placeAll, place_withDirs dir parent nowhere.1,
      placeAll_withDirs rest _ nowhere.2]

end

theorem placeAll_append (placed more : List Dir) (parent : Element) :
    placeAll c (placed ++ more) parent = placeAll c more (placeAll c placed parent) := by
  induction placed generalizing parent with
  | nil => rfl
  | cons dir rest ih => rw [List.cons_append, placeAll, placeAll, ih]

theorem notedIn_eq_nil {known : List Dir} (placed : List Dir)
    (nowhere : locationsIn placed = []) : notedIn known placed = [] := by
  rw [locationsIn_eq_nil] at nowhere
  rw [notedIn_eq, List.flatMap_eq_nil_iff]
  intro file isFile
  rw [File.noted, List.flatMap_eq_nil_iff]
  intro shortcut isShortcut
  simp [Shortcut.noted, Shortcut.isElsewhere, nowhere file isFile shortcut isShortcut]

end Dir

namespace Compilation

theorem tree_of_nowhere (nowhere : Dir.locationsIn c.project.dirs = []) :
    c.tree = Dir.placeAll c c.project.dirs emptyRoot := by
  rw [tree, undeclaredLocations, Dir.notedIn_eq_nil _ nowhere]
  rfl

/-- The components in the tree are there when more directories follow. -/
theorem subperm_tree_withDirs {more : List Dir}
    (nowhere : Dir.locationsIn (c.project.dirs ++ more) = []) :
    List.Subperm c.tree.componentPlaces
      (c.withDirs (c.project.dirs ++ more)).tree.componentPlaces := by
  have first : Dir.locationsIn c.project.dirs = [] := by
    rw [Dir.locationsIn_append, List.append_eq_nil_iff] at nowhere
    exact nowhere.1
  rw [tree_of_nowhere first, tree_of_nowhere nowhere]
  show List.Subperm _ (Dir.placeAll _ (c.project.dirs ++ more) emptyRoot).componentPlaces
  rw [Dir.placeAll_append, Dir.placeAll_withDirs _ _ first]
  exact Dir.subperm_placeAll more _

/-! ## The components of a document -/

section Document

variable {document : Element} {ledger : Ledger} {components : List Element}

/-- The components of a document are those of the tree of directories and those of standalone
entities, which are all in one directory. -/
theorem BringsHome.exists_perm_componentPlaces (made : c.Made document ledger)
    (home : c.BringsHome c.tree document c.tree.installRoot components)
    (entities : ∀ x ∈ components, x.IsEntityComponent) :
    ∃ path, document.componentPlaces.Perm
      ((c.tree.componentPlaces ++ components.map fun x => (path, x)).map emptyRoot.enclose) := by
  obtain ⟨extensions, package, components', rfl, madeFor, holds⟩ := made.holdsRoot
  obtain ⟨package', single, directories, -⟩ := home.package
  obtain rfl : package = package' := List.singleton_inj.mp (elements_document.symm.trans single)
  -- the root that the package holds is the tree with the standalone components in it
  have root : c.root components' = c.root components :=
    List.singleton_inj.mp (holds.directories.symm.trans directories)
  rw [root] at holds
  have same : (c.root components).tag = emptyRoot.tag := root ▸ tag_root madeFor
  have directory : (c.root components).name ≠ "Component" := by
    rw [name_eq_of_tag same]
    decide
  have whole : ((rootElement extensions).add package).componentPlaces =
      (c.root components).componentPlaces.map emptyRoot.enclose := by
    have nameIn : package.name ∉ ["Directory", "Component"] := fun mem =>
      holds.name_eq (by simp only [List.mem_cons] at mem ⊢; tauto)
    have named : package.name ≠ "Component" := fun equal => nameIn (by simp [equal])
    have outer : package.name ≠ "Directory" := fun equal => nameIn (by simp [equal])
    rw [componentPlaces_eq, elements_document, List.flatMap_singleton,
      componentPlacesFrom_of_ne named, enclose_of_ne outer, List.map_id, componentPlaces_eq,
      holds.flatMap_elements fun x aside =>
        componentPlacesFrom_of_only (aside.only "Component" (by decide)),
      componentPlacesFrom_of_ne directory, enclose_eq_of_tag same]
  obtain ⟨path, isAt⟩ := (isPlace_installRoot c.tree).exists_isAt extended_tree.tidy
    (name_installRoot name_tree)
  obtain ⟨front, back, law⟩ := isAt.componentPlaces_put
  have old := law c.tree.installRoot.node rfl
  rw [isAt.isPlace.put_node] at old
  have added : components.flatMap componentPlacesFrom = components.map fun x => ([], x) := by
    rw [List.map_eq_flatMap]
    exact List.flatMap_congr fun x mem => (entities x mem).componentPlacesFrom
  refine ⟨path, whole ▸ List.Perm.map _ ?_⟩
  rw [Compilation.root, Focus.modify, law _ (tag_addAll _ _), componentPlaces_addAll, added, old]
  simp only [List.map_append, List.map_map, List.append_assoc]
  refine (List.perm_append_left_iff _).mpr ((List.perm_append_left_iff _).mpr ?_)
  exact (List.perm_append_comm.trans (.of_eq (by simp [Function.comp_def])))

/-- Nothing in the tree of directories is the component of a standalone entity. -/
theorem not_holdsEntity_of_mem_tree {place : List String × Element}
    (mem : place ∈ c.tree.componentPlaces) : ¬ place.2.HoldsEntity := by
  have named : place.2 ∈ c.tree.descendantsNamed "Component" :=
    map_snd_componentPlaces c.tree ▸ List.mem_map_of_mem mem
  have none : c.tree.entityComponents = [] := IsTreePart.entityComponents (isTreePart_tree c)
  rw [entityComponents, List.filter_eq_nil_iff] at none
  intro holds
  exact none place.2 (List.mem_cons_of_mem _ (List.mem_filter.mp named).1) (by simpa using holds)

end Document

end Compilation

/-! ## Compiling two projects -/

/-- The id and the GUID of an element. -/
def Markup.Element.stamp (e : Element) : Option String × Option String :=
  (e.id?, e.attrOf? "Guid")

/-- Every component of one document is in another one with its id and its GUID.  Those that hold no
standalone entity are there as they were, in the same directories. -/
structure Markup.Element.KeepsComponents (before after : Element) : Prop where
  stamps : List.Subperm ((before.descendantsNamed "Component").map stamp)
    ((after.descendantsNamed "Component").map stamp)
  places : List.Subperm (before.componentPlaces.filter fun place => ¬ place.2.HoldsEntity)
    after.componentPlaces

namespace Compilation

variable {more : List Dir} {document document' : Element} {components components' : List Element}
  {path path' : List String}

theorem snd_enclose (e : Element) (place : List String × Element) :
    (e.enclose place).2 = place.2 := by
  rw [enclose]
  split <;> rfl

/-- The components of a document are those of its tree and the standalone ones, as far as ids and
GUIDs go. -/
theorem perm_stamps (all : document.componentPlaces.Perm
      ((c.tree.componentPlaces ++ components.map fun x => (path, x)).map emptyRoot.enclose)) :
    ((document.descendantsNamed "Component").map stamp).Perm
      (c.tree.componentPlaces.map (fun place => place.2.stamp) ++ components.map stamp) := by
  rw [← map_snd_componentPlaces, List.map_map]
  refine (all.map _).trans (.of_eq ?_)
  simp [Function.comp_def, snd_enclose]

theorem keepsComponents (subperm : List.Subperm c.tree.componentPlaces
      (c.withDirs dirs).tree.componentPlaces)
    (all : document.componentPlaces.Perm
      ((c.tree.componentPlaces ++ components.map fun x => (path, x)).map emptyRoot.enclose))
    (all' : document'.componentPlaces.Perm
      (((c.withDirs dirs).tree.componentPlaces ++ components'.map fun x => (path', x)).map
        emptyRoot.enclose))
    (entities : ∀ x ∈ components, x.HoldsEntity)
    (same : components.map stamp = components'.map stamp) :
    document.KeepsComponents document' where
  stamps := by
    refine (perm_stamps all).subperm.trans (.trans ?_ (perm_stamps all').symm.subperm)
    rw [same]
    exact (subperm_map _ subperm).append (.refl _)
  places := by
    have kept : (document.componentPlaces.filter fun place => ¬ place.2.HoldsEntity).Perm
        (c.tree.componentPlaces.map emptyRoot.enclose) := by
      refine (all.filter _).trans (.of_eq ?_)
      rw [List.map_append, List.filter_append, List.filter_eq_self.mpr, List.filter_eq_nil_iff.mpr,
        List.append_nil]
      · simp only [List.map_map, List.forall_mem_map]
        intro x mem
        simpa [snd_enclose] using entities x mem
      · simp only [List.forall_mem_map]
        intro place mem
        simpa [snd_enclose] using not_holdsEntity_of_mem_tree mem
    refine kept.subperm.trans ((subperm_map _ subperm).trans ?_)
    refine List.Subperm.trans ?_ all'.symm.subperm
    rw [List.map_append]
    exact (List.sublist_append_left _ _).subperm

end Compilation

/-- A project gets one more directory, without declared ids, and no shortcut of a file names a
location.  Then all components stay. -/
theorem Project.keepsComponents_of_compile {project : Project} {dir : Dir} {options : Options}
    {output output' : Output} (some_ : project.dirs ≠ []) (ids : Dir.declaredIds dir = [])
    (nowhere : Dir.locationsIn (project.dirs ++ [dir]) = [])
    (compiled : project.compile options = .ok output)
    (compiled' : (project.withDirs (project.dirs ++ [dir])).compile options = .ok output') :
    output.document.KeepsComponents output'.document := by
  obtain ⟨c, ledger, pieces, start, made, -, areGiven, home⟩ := exists_pieces compiled
  obtain ⟨c', ledger', pieces', start', made', -, areGiven', home'⟩ := exists_pieces compiled'
  -- the second compilation is the first one with further directories
  have ids' : Dir.declaredIdsIn [dir] = [] := by simp [Dir.declaredIdsIn, ids]
  obtain ⟨added, prepared⟩ := exists_prepare_append some_ ids' nowhere options
  obtain ⟨sameProject, -⟩ := Compilation.project_of_ofProject start
  obtain ⟨sameProject', -⟩ := Compilation.project_of_ofProject start'
  have same : c' = c.withDirs (c.project.dirs ++ added) := by
    have second := Compilation.ofProject_withDirs options (project.prepare options).project
      ((project.prepare options).project.dirs ++ added)
    rw [← prepared, start, start', ← sameProject] at second
    exact Except.ok.inj second
  have nowhere' : Dir.locationsIn (c.project.dirs ++ added) = [] := by
    have some' : (project.withDirs (project.dirs ++ [dir])).dirs ≠ [] := by simp [withDirs]
    have both := locationsIn_prepare some' nowhere options
    rw [← sameProject', same] at both
    exact both
  subst same
  -- the standalone components have the ids of the same bookings
  obtain ⟨_, _, standalone⟩ := areGiven.standalone
  obtain ⟨_, _, standalone'⟩ := areGiven'.standalone
  have entities := (Compilation.areEntities_of_emitStandalone standalone).components
  have entities' := (Compilation.areEntities_of_emitStandalone standalone').components
  have stamped : ∀ x ∈ pieces.standalone.components, c.Stamps x :=
    (c.contract_emitStandalone.gives standalone).2.2
  have stamped' : ∀ x ∈ pieces'.standalone.components, c.Stamps x :=
    ((c.withDirs _).contract_emitStandalone.gives standalone').2.2
  have stamps : pieces.standalone.components.map stamp =
      pieces'.standalone.components.map stamp := by
    have ofIds : ∀ components : List Element, (∀ x ∈ components, c.Stamps x) →
        components.map stamp = (components.map id?).map fun id =>
          (id, id.map fun id => toString (c.seed.ofComponent id)) := by
      intro components stamped
      rw [List.map_map]
      exact List.map_congr_left fun x mem => congrArg (Prod.mk x.id?) (stamped x mem)
    rw [ofIds _ stamped, ofIds _ stamped', home.ids, home'.ids]
    rfl
  obtain ⟨_, all⟩ := home.exists_perm_componentPlaces made entities
  obtain ⟨_, all'⟩ := home'.exists_perm_componentPlaces made' entities'
  exact Compilation.keepsComponents (Compilation.subperm_tree_withDirs nowhere') all all'
    (fun x mem => (entities x mem).toHoldsEntity) stamps

/-- The program's directory once more, with a file and a folder beside the one it has. -/
def Dir.addition : Dir :=
  ⟨{ name := "%ProgramFiles%\\App", files := [{ name := "readme.txt" }] },
    [⟨{ name := "logs" }, []⟩]⟩

theorem Project.keepsComponents_furnished :
    ∃ output output', Project.furnished.compile {} = .ok output ∧
      (Project.furnished.withDirs (Project.furnished.dirs ++ [Dir.addition])).compile {} =
        .ok output' ∧
      (output.document.descendantsNamed "Component").length = 9 ∧
      (output'.document.descendantsNamed "Component").length = 11 ∧
      output.document.KeepsComponents output'.document := by
  obtain ⟨output, compiled, count⟩ := Project.exists_output_of_any
    (p := fun output => (output.document.descendantsNamed "Component").length == 9)
    (by decide +kernel : (Project.furnished.compile {}).toOption.any _ = true)
  obtain ⟨output', compiled', count'⟩ := Project.exists_output_of_any
    (p := fun output => (output.document.descendantsNamed "Component").length == 11)
    (by decide +kernel : ((Project.furnished.withDirs
      (Project.furnished.dirs ++ [Dir.addition])).compile {}).toOption.any _ = true)
  exact ⟨output, output', compiled, compiled', by simpa using count, by simpa using count',
    Project.keepsComponents_of_compile (List.cons_ne_nil _ _) (by decide) (by decide +kernel)
      compiled compiled'⟩

end Installer
