import Installer.Proofs.Directory.Tree
import Installer.Proofs.Markup.Place

/-! # The words of directories

Directories and all that they hold are written with a few element names.  None of them belongs to a
standalone entity or to a sequence, so such elements are never met in the tree of directories.
-/

namespace Installer

open Markup (Element Focus)
open Markup.Element

namespace Dir

/-- The names of the elements at and below the components of directories. -/
def componentWords : List String :=
  ["Component", "Condition", "CreateFolder", "util:PermissionEx", "File", "Shortcut",
   "ServiceInstall", "ServiceControl", "ProgId", "Extension", "Verb"]

/-- The names of the elements at and below directories. -/
def words : List String :=
  ["Directory", "Component", "Condition", "CreateFolder", "util:PermissionEx", "Merge", "File",
   "Shortcut", "ServiceInstall", "ServiceControl", "ProgId", "Extension", "Verb"]

end Dir

namespace Markup.Element

/-- Only the words of components in directories occur. -/
def IsDirPart (e : Element) : Prop :=
  Only (· ∈ Dir.componentWords) e

/-- Only the words of directories occur. -/
def IsTreePart (e : Element) : Prop :=
  Only (· ∈ Dir.words) e

theorem IsDirPart.isTreePart {e : Element} (part : e.IsDirPart) : e.IsTreePart :=
  Everywhere.mono part fun _ word =>
    (by decide : ∀ w ∈ Dir.componentWords, w ∈ Dir.words) _ word

end Markup.Element

variable (c : Compilation)

/-! ## What directories hold -/

@[simp] theorem only_component {allowed : String → Prop} {id : String} :
    Only allowed (c.component id) ↔ allowed "Component" := by
  simp [Compilation.component]

@[simp] theorem only_condition {allowed : String → Prop} {condition : Condition} :
    Only allowed condition.element ↔ allowed "Condition" := by
  simp [Condition.element]

@[simp] theorem only_permission {allowed : String → Prop} {permission : Permission} :
    Only allowed permission.element ↔ allowed "util:PermissionEx" := by
  simp [Permission.element]

theorem isDirPart_folder (id : String) : (DirBody.folderComponent c id).IsDirPart := by
  simp [IsDirPart, DirBody.folderComponent, Dir.componentWords]

theorem isDirPart_shortcut (dirId : String) (shortcut : Shortcut) :
    (shortcut.component c dirId).IsDirPart := by
  simp [IsDirPart, Shortcut.component, Dir.componentWords]

theorem isDirPart_permission (permission : Permission) : (permission.component c).IsDirPart := by
  simp [IsDirPart, Permission.component, Dir.componentWords]

/-- The component of a file grants nothing unless the file has permissions. -/
theorem only_file {allowed : String → Prop} {file : File}
    (words : ∀ word ∈ ["Component", "Condition", "File", "Shortcut", "ServiceInstall",
      "ServiceControl", "ProgId", "Extension", "Verb"], allowed word)
    (granted : ∀ permission ∈ file.permissions, allowed "util:PermissionEx") (dirId : String) :
    Only allowed (file.component c dirId) := by
  have element : Only allowed (file.element c dirId) := by
    rw [File.element, only_addAll, List.forall_mem_map]
    refine ⟨by simp [Shortcut.elementFor, words], fun permission mem => ?_⟩
    exact only_permission.mpr (granted permission mem)
  have service : ∀ service : ServiceInstaller,
      ∀ x ∈ [service.installElement, service.controlElement], Only allowed x := by
    simp [ServiceInstaller.installElement, ServiceInstaller.controlElement, words]
  have association : ∀ a : FileAssociation, Only allowed (a.element file.finalId) := by
    simp [FileAssociation.element, words]
  rw [File.component, only_addAll, only_add, only_addAll, List.forall_mem_append,
    List.forall_mem_map, List.forall_mem_flatMap]
  exact ⟨⟨by simp [words], element⟩, fun s _ => service s, fun a _ => association a⟩

theorem isDirPart_file (dirId : String) (file : File) : (file.component c dirId).IsDirPart :=
  only_file c (by decide) (fun _ _ => by decide) dirId

theorem isTreePart_mergeModule (module : MergeModule) : (module.element c).IsTreePart := by
  simp [IsTreePart, MergeModule.element, Dir.words]

/-! ## The tree -/

namespace Dir

/-- Around its merge modules a directory holds components. -/
theorem exists_contents_eq (dir : Dir) (e : Element) :
    ∃ front back, dir.contents c e =
        front ++ dir.mergeModules.map (MergeModule.element c) ++ back ∧
      ∀ x ∈ front ++ back, x.IsDirPart := by
  rw [contents]
  split
  next =>
    refine ⟨_, [], (List.append_nil _).symm, fun x mem => ?_⟩
    rw [List.append_nil] at mem
    split at mem
    next => cases mem
    next => exact List.mem_singleton.mp mem ▸ isDirPart_folder c _
  next =>
    refine ⟨_, _, rfl, ?_⟩
    simp only [List.forall_mem_append, List.forall_mem_map]
    refine ⟨⟨⟨fun x mem => ?_, fun file _ => isDirPart_file c _ file⟩,
      fun shortcut _ => isDirPart_shortcut c _ shortcut⟩,
      fun permission _ => isDirPart_permission c permission⟩
    split at mem
    next => exact List.mem_singleton.mp mem ▸ isDirPart_folder c _
    next => cases mem

theorem isTreePart_contents (dir : Dir) (e : Element) :
    ∀ x ∈ dir.contents c e, x.IsTreePart := by
  obtain ⟨front, back, contents, parts⟩ := exists_contents_eq c dir e
  rw [List.forall_mem_append] at parts
  simp only [contents, List.forall_mem_append, List.forall_mem_map]
  exact ⟨⟨fun x mem => (parts.1 x mem).isTreePart, fun module _ => isTreePart_mergeModule c module⟩,
    fun x mem => (parts.2 x mem).isTreePart⟩

variable {c} {allowed : String → Prop}

variable (c allowed) in
/-- What the directories hold, those below them included, is written with allowed names. -/
def HoldsOnly (dirs : List Dir) : Prop :=
  ∀ dir ∈ all dirs, ∀ e : Element, ∀ x ∈ dir.contents c e, Only allowed x

theorem only_placeIn (dir : Dir) {parent : Element} (directory : allowed "Directory")
    (old : Only allowed parent) : Only allowed (dir.placeIn parent).node ∧
      ∀ e : Element, Only allowed e → Only allowed ((dir.placeIn parent).put e) := by
  rcases focusChildOr_cases parent (hasNameAndId "Directory" dir.finalId) dir.element with
    ⟨place, -⟩ | missing
  · exact ⟨place.only_node old, fun e new => place.only old new⟩
  · rw [placeIn, missing]
    exact ⟨by simpa [element] using directory, fun e new => only_add.mpr ⟨old, new⟩⟩

mutual

theorem only_place (directory : allowed "Directory") : ∀ {dir : Dir} {parent : Element},
    HoldsOnly c allowed [dir] → Only allowed parent → Only allowed (dir.place c parent)
  | ⟨body, dirs⟩, parent, holds, old => by
    rw [HoldsOnly, all_cons, all_nil, List.append_nil, List.forall_mem_cons] at holds
    obtain ⟨node, put⟩ := only_placeIn ⟨body, dirs⟩ directory old
    rw [place]
    exact put _ (only_placeAll directory holds.2 (only_addAll.mpr ⟨node, holds.1 _⟩))

/-- Directories that hold allowed names are placed with allowed names. -/
theorem only_placeAll (directory : allowed "Directory") : ∀ {dirs : List Dir} {parent : Element},
    HoldsOnly c allowed dirs → Only allowed parent → Only allowed (placeAll c dirs parent)
  | [], parent, _, old => by
    rw [placeAll]
    exact old
  | dir :: rest, parent, holds, old => by
    rw [HoldsOnly, ← List.singleton_append, all_append, List.forall_mem_append] at holds
    rw [placeAll]
    exact only_placeAll directory holds.2 (only_place directory holds.1 old)

end

/-- A location leaves the tree as it is or has a chain placed in one of its directories. -/
theorem exists_placeLocation (root : Element) (location : String) (feature : Option String) :
    placeLocation c root location feature = root ∨
      ∃ (focus : Focus Element) (names : List String) (start : Nat), focus.IsPlace root ∧
        (root.name = "Directory" → focus.node.name = "Directory") ∧
        placeLocation c root location feature =
          focus.put ((chain names start feature).place c focus.node) := by
  simp only [placeLocation]
  split
  next => exact .inl rfl
  next =>
    refine .inr ?_
    split
    next => exact ⟨.whole root, _, _, .whole root, fun directory => directory, rfl⟩
    next =>
      split
      next focus found =>
        obtain ⟨place, here⟩ := isPlace_of_focus? found
        refine ⟨focus, _, _, place, fun _ => ?_, rfl⟩
        simp only [hasNameAndId, Bool.and_eq_true, beq_iff_eq] at here
        exact here.1
      next => exact ⟨.whole root, _, _, .whole root, fun directory => directory, rfl⟩

theorem only_placeLocations (directory : allowed "Directory")
    (chains : ∀ names start feature, HoldsOnly c allowed [chain names start feature])
    {root : Element} (old : Only allowed root) (locations : List (String × Option String)) :
    Only allowed (placeLocations c root locations) := by
  induction locations generalizing root with
  | nil => exact old
  | cons entry rest ih =>
    refine ih ?_
    rcases exists_placeLocation (c := c) root entry.1 entry.2 with
      same | ⟨focus, _, _, place, -, chained⟩
    · rwa [same]
    · rw [chained]
      exact place.only old (only_place directory (chains _ _ _) (place.only_node old))

end Dir

namespace Compilation

variable {c} {allowed : String → Prop}

theorem only_tree (directory : allowed "Directory") (holds : Dir.HoldsOnly c allowed c.project.dirs)
    (chains : ∀ names start feature, Dir.HoldsOnly c allowed [Dir.chain names start feature]) :
    Only allowed c.tree :=
  Dir.only_placeLocations directory chains
    (Dir.only_placeAll directory holds (by simpa [emptyRoot] using directory)) _

variable (c)

theorem isTreePart_tree : c.tree.IsTreePart :=
  only_tree (by decide) (fun dir _ => dir.isTreePart_contents c) fun _ _ _ dir _ =>
    dir.isTreePart_contents c

end Compilation

end Installer
