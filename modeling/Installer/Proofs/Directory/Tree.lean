import Installer.Proofs.Component.Shape
import Installer.Proofs.Directory.Placement
import Installer.Proofs.Markup.Directories

/-! # The tree that is placed

Directories are told apart by their id paths: the final ids from the outermost directory around one
down to itself.  `Placed` compares an element before and after directories are placed in it.  The
directories found afterwards are those that were there and those with an id path among the placed
ones, and each has the components of files that were declared for its id path, in that order.
-/

namespace Installer

open Markup (Element)
open Markup.Element

/-! ## Id paths -/

namespace Dir

mutual

def located : List Dir → List (List String × Dir)
  | [] => []
  | dir :: rest => locatedFrom dir ++ located rest
termination_by structural dirs => dirs

def locatedFrom : Dir → List (List String × Dir)
  | ⟨body, dirs⟩ =>
    ([finalId ⟨body, dirs⟩], ⟨body, dirs⟩) ::
      (located dirs).map fun entry => (finalId ⟨body, dirs⟩ :: entry.1, entry.2)
termination_by structural dir => dir

end

def atPath (dirs : List Dir) (path : List String) : List Dir :=
  ((located dirs).filter fun entry => entry.1 == path).map Prod.snd

def all (dirs : List Dir) : List Dir :=
  (located dirs).map Prod.snd

def allFiles (dirs : List Dir) : List File :=
  (all dirs).flatMap fun dir => dir.files

def fileComponents (c : Compilation) (dir : Dir) : List Element :=
  dir.files.map (File.component c dir.finalId)

def fileComponents? (c : Compilation) (dirs : List Dir) : Option (List Element) :=
  if dirs.isEmpty then none else some (dirs.flatMap (fileComponents c))

def allFileComponents (c : Compilation) (dirs : List Dir) : List Element :=
  (all dirs).flatMap (fileComponents c)

theorem located_append (dirs₁ dirs₂ : List Dir) :
    located (dirs₁ ++ dirs₂) = located dirs₁ ++ located dirs₂ := by
  induction dirs₁ with
  | nil => rfl
  | cons dir rest ih => simp [located, ih]

theorem located_singleton (body : DirBody) (dirs : List Dir) :
    located [⟨body, dirs⟩] = ([finalId ⟨body, dirs⟩], ⟨body, dirs⟩) ::
      (located dirs).map fun entry => (finalId ⟨body, dirs⟩ :: entry.1, entry.2) := by
  simp [located, locatedFrom]

@[simp] theorem all_nil : all [] = [] := rfl

@[simp] theorem all_cons (body : DirBody) (below rest : List Dir) :
    all (⟨body, below⟩ :: rest) = ⟨body, below⟩ :: (all below ++ all rest) := by
  simp [all, located, locatedFrom, Function.comp_def]

theorem all_append (dirs₁ dirs₂ : List Dir) : all (dirs₁ ++ dirs₂) = all dirs₁ ++ all dirs₂ := by
  simp [all, located_append]

theorem mem_atPath {dirs : List Dir} {path : List String} {dir : Dir} :
    dir ∈ atPath dirs path ↔ (path, dir) ∈ located dirs := by
  simp [atPath]

/-- Every id path ends in the id of its directory. -/
theorem getLast?_of_mem_located {path : List String} {dir : Dir} :
    ∀ {dirs : List Dir}, (path, dir) ∈ located dirs → path.getLast? = some dir.finalId
  | ⟨body, below⟩ :: rest, mem => by
    rw [located, locatedFrom] at mem
    simp only [List.cons_append, List.mem_cons, List.mem_append, List.mem_map] at mem
    rcases mem with equal | ⟨entry, among, equal⟩ | later
    · cases equal
      rfl
    · cases equal
      have last := getLast?_of_mem_located among
      cases path : entry.1 with
      | nil => simp [path] at last
      | cons first others =>
        rw [path] at last
        rw [List.getLast?_cons_cons, last]
    · exact getLast?_of_mem_located later

theorem atPath_nil (dirs : List Dir) : atPath dirs [] = [] := by
  rw [List.eq_nil_iff_forall_not_mem]
  intro dir mem
  have last := getLast?_of_mem_located (mem_atPath.mp mem)
  cases last

theorem atPath_append (dirs₁ dirs₂ : List Dir) (path : List String) :
    atPath (dirs₁ ++ dirs₂) path = atPath dirs₁ path ++ atPath dirs₂ path := by
  simp [atPath, located_append]

/-- A path into one directory begins with its id. -/
theorem atPath_singleton (body : DirBody) (dirs : List Dir) (id : String) (path : List String) :
    atPath [⟨body, dirs⟩] (id :: path) =
      if id = finalId ⟨body, dirs⟩ then
        (if path.isEmpty then [⟨body, dirs⟩] else []) ++ atPath dirs path
      else [] := by
  rw [atPath, located_singleton, List.filter_cons, List.filter_map]
  by_cases here : id = finalId ⟨body, dirs⟩
  · subst here
    -- the id is taken off the paths below
    have below : ((fun entry : List String × Dir => entry.1 == finalId ⟨body, dirs⟩ :: path) ∘
        fun entry : List String × Dir => (finalId ⟨body, dirs⟩ :: entry.1, entry.2)) =
          fun entry => entry.1 == path := by
      funext entry
      simp
    rw [below]
    cases path <;> simp [atPath, Function.comp_def]
  · have elsewhere : ((fun entry : List String × Dir => entry.1 == id :: path) ∘
        fun entry : List String × Dir => (finalId ⟨body, dirs⟩ :: entry.1, entry.2)) =
          fun _ => false := by
      funext entry
      simp [Ne.symm here]
    rw [elsewhere]
    simp [here, Ne.symm here]

theorem fileComponents?_append (c : Compilation) (dirs₁ dirs₂ : List Dir) :
    fileComponents? c (dirs₁ ++ dirs₂) =
      Option.merge (· ++ ·) (fileComponents? c dirs₁) (fileComponents? c dirs₂) := by
  cases dirs₁ <;> cases dirs₂ <;> simp [fileComponents?]

end Dir

/-! ## What one directory holds -/

variable {c : Compilation}

theorem isComponent_permission (permission : Permission) :
    (permission.component c).IsComponent permission.componentId [] :=
  (isComponent_component c _).add (by simpa [Plain] using plain_permission permission)

theorem DirBody.madeFor_contents (id : String) (body : DirBody) :
    MadeFor (body.bookings id) (body.contents c id) (body.files.map (File.component c id)) := by
  have folder : MadeFor (if body.feature.isSome then [⟨.folder id, body.feature⟩] else [])
      (if body.feature.isSome then [folderComponent c ("Component." ++ id)] else []) [] := by
    split
    next => exact .component (isComponent_folder c _)
    next => exact .nil
  have files : MadeFor (body.files.map fun file => ⟨.file file.finalId, file.feature⟩)
      (body.files.map (File.component c id)) (body.files.map (File.component c id)) :=
    .map_fileComponent fun file _ => isComponent_file c id file
  have shortcuts : MadeFor
      (body.shortcuts.map fun shortcut => ⟨.shortcut shortcut.finalId, shortcut.feature⟩)
      (body.shortcuts.map (Shortcut.component c id)) [] :=
    .map_component fun shortcut _ => isComponent_shortcut c id shortcut
  have modules : MadeFor [] (body.mergeModules.map (MergeModule.element c)) [] :=
    .plain (List.forall_mem_map.mpr fun module _ => plain_mergeModule c module)
  have permissions : MadeFor
      (body.permissions.map fun permission =>
        ⟨.permission permission.finalId, permission.feature⟩)
      (body.permissions.map (Permission.component c)) [] :=
    .map_component fun permission _ => isComponent_permission permission
  simpa [bookings, contents] using
    (((folder.append files).append shortcuts).append modules).append permissions

theorem DirBody.madeFor_emptyContents (id : String) (hasComponent : Bool) (body : DirBody) :
    MadeFor (body.emptyBookings id hasComponent) (body.emptyContents c id hasComponent) [] := by
  have modules : MadeFor [] (body.mergeModules.map (MergeModule.element c)) [] :=
    .plain (List.forall_mem_map.mpr fun module _ => plain_mergeModule c module)
  rw [emptyBookings, emptyContents]
  split
  next => simpa using MadeFor.nil.append modules
  next =>
    have folder : MadeFor [⟨.emptyFolder id, body.feature⟩]
        [folderComponent c (id ++ ".EmptyDirectory")] [] := .component (isComponent_folder c _)
    simpa using folder.append modules

namespace Dir

theorem files_of_isEmpty {dir : Dir} (empty : dir.isEmpty = true) : dir.files = [] := by
  simp only [isEmpty, Bool.and_eq_true, List.isEmpty_iff] at empty
  exact empty.1.1.1

/-- What a directory puts into its element is made for its own bookings, and the files are all
there, whatever the element holds already. -/
theorem madeFor_contents (dir : Dir) (e : Element) :
    MadeFor (dir.ownBookings e) (dir.contents c e) (dir.fileComponents c) := by
  rw [ownBookings, contents, fileComponents]
  split
  next empty =>
    rw [files_of_isEmpty empty]
    exact DirBody.madeFor_emptyContents _ _ _
  next => exact DirBody.madeFor_contents _ _

end Dir

/-! ## Placing declared directories -/

/-- The components of files directly inside the directory at a path, if there is a directory. -/
def Markup.Element.filesAt? (e : Element) (path : List String) : Option (List Element) :=
  (e.heldAt? path).map (List.filter holdsFile)

/-- `after` is `before` with the directories `dirs` placed in it, for which the bookings were
written. -/
structure Placed (c : Compilation) (dirs : List Dir) (bookings : List Booking)
    (before after : Element) : Prop where
  tidy : Tidy after
  tag : after.tag = before.tag
  filesAt : ∀ path, after.filesAt? path =
    Option.merge (· ++ ·) (before.filesAt? path) (Dir.fileComponents? c (Dir.atPath dirs path))
  componentIds : (after.idsNamed "Component").Perm
    (before.idsNamed "Component" ++ bookings.map fun booking => some booking.componentId)
  fileIds : (after.idsNamed "File").Perm
    (before.idsNamed "File" ++ heldFileIds (Dir.allFileComponents c dirs))
  featureIds : (after.idsNamed "Feature").Perm (before.idsNamed "Feature")

namespace Placed

variable {dirs dirs₁ dirs₂ : List Dir} {bookings bookings₁ bookings₂ : List Booking}
  {before between after : Element}

theorem refl (tidy : Tidy before) : Placed c [] [] before before where
  tidy := tidy
  tag := rfl
  filesAt := fun path => by simp [Dir.atPath, Dir.located, Dir.fileComponents?]
  componentIds := by simp
  fileIds := by simp [Dir.allFileComponents, heldFileIds]
  featureIds := .refl _

theorem trans (first : Placed c dirs₁ bookings₁ before between)
    (second : Placed c dirs₂ bookings₂ between after) :
    Placed c (dirs₁ ++ dirs₂) (bookings₁ ++ bookings₂) before after where
  tidy := second.tidy
  tag := second.tag.trans first.tag
  filesAt := fun path => by
    rw [second.filesAt, first.filesAt, Dir.atPath_append, Dir.fileComponents?_append]
    exact @Std.Associative.assoc _ (Option.merge (· ++ ·)) _ _ _ _
  componentIds := by
    rw [List.map_append, ← List.append_assoc]
    exact second.componentIds.trans (first.componentIds.append_right _)
  fileIds := by
    have both : heldFileIds (Dir.allFileComponents c (dirs₁ ++ dirs₂)) =
        heldFileIds (Dir.allFileComponents c dirs₁) ++
          heldFileIds (Dir.allFileComponents c dirs₂) := by
      simp [heldFileIds, Dir.allFileComponents, Dir.all_append]
    rw [both, ← List.append_assoc]
    exact second.fileIds.trans (first.fileIds.append_right _)
  featureIds := second.featureIds.trans first.featureIds

end Placed

namespace Dir

theorem hasNameAndId_element (dir : Dir) :
    hasNameAndId "Directory" dir.finalId dir.element = true := by
  simp [hasNameAndId, element, id?, attrOf?]

theorem isSubdirectory_placeIn {parent : Element} (dir : Dir) (tidy : Tidy parent)
    (directory : parent.name = "Directory") :
    (dir.placeIn parent).IsSubdirectory parent dir.finalId :=
  Markup.Focus.isSubdirectory_focusChildOr tidy directory dir.hasNameAndId_element rfl

/-- The element of a directory after the directory itself has put its contents there. -/
theorem filesAt?_filled {parent : Element} (dir : Dir) (tidy : Tidy parent)
    (directory : parent.name = "Directory") :
    (dir.filled c parent).filesAt? [] =
        some ((parent.filesAt? [dir.finalId]).getD [] ++ dir.fileComponents c) ∧
      ∀ first rest, (dir.filled c parent).filesAt? (first :: rest) =
        parent.filesAt? (dir.finalId :: first :: rest) := by
  have sub := dir.isSubdirectory_placeIn tidy directory
  have made := dir.madeFor_contents (c := c) (dir.placeIn parent).node
  -- what the directory puts into its element is not seen as a subdirectory
  have none : ∀ x ∈ dir.contents c (dir.placeIn parent).node, x.name ≠ "Directory" :=
    fun x mem => (made.only x mem "Directory" (by decide)).here
  constructor
  · have held := sub.node_nil
    rw [heldAt?_nil, Option.some.injEq] at held
    rw [filesAt?, filled, heldAt?_nil, holdings_addAll _ none, Option.map_some, List.filter_append,
      made.holders_eq, held, filesAt?]
    cases parent.heldAt? [dir.finalId] <;> rfl
  · intro first rest
    rw [filesAt?, filled, heldAt?_addAll_cons _ none, sub.node_cons]
    rfl

theorem tidy_filled {parent : Element} (dir : Dir) (tidy : Tidy parent)
    (directory : parent.name = "Directory") : Tidy (dir.filled c parent) :=
  (dir.isSubdirectory_placeIn tidy directory).tidy_node.addAll fun x mem =>
    (dir.madeFor_contents _).only x mem "Directory" (by decide)

/-- Placing one directory, when it is known what is placed inside its element. -/
theorem placed_put {parent inner : Element} (body : DirBody) (dirs : List Dir)
    {bookings : List Booking} (tidy : Tidy parent) (directory : parent.name = "Directory")
    (inside : Placed c dirs bookings (filled c ⟨body, dirs⟩ parent) inner) :
    Placed c [⟨body, dirs⟩]
      (ownBookings ⟨body, dirs⟩ (placeIn ⟨body, dirs⟩ parent).node ++ bookings)
      parent ((placeIn ⟨body, dirs⟩ parent).put inner) := by
  have sub := isSubdirectory_placeIn ⟨body, dirs⟩ tidy directory
  have made := madeFor_contents (c := c) ⟨body, dirs⟩ (placeIn ⟨body, dirs⟩ parent).node
  obtain ⟨atNode, belowNode⟩ := filesAt?_filled (c := c) ⟨body, dirs⟩ tidy directory
  have same : inner.tag = (placeIn ⟨body, dirs⟩ parent).node.tag := inside.tag
  refine ⟨sub.tidy_put _ same inside.tidy, sub.tag_put _, fun path => ?_, ?_, ?_, ?_⟩
  -- the parent itself, the directory that is placed, and what is below it
  · cases path with
    | nil =>
      rw [atPath_nil, filesAt?, sub.apart _ same [] (by simp), filesAt?]
      simp [fileComponents?]
    | cons id path =>
      by_cases here : id = finalId ⟨body, dirs⟩
      · subst here
        rw [filesAt?, sub.below _ same, ← filesAt?, inside.filesAt, atPath_singleton, if_pos rfl]
        cases path with
        | nil =>
          rw [atNode, atPath_nil]
          cases parent.filesAt? [finalId ⟨body, dirs⟩] <;> simp [fileComponents?]
        | cons first rest =>
          rw [belowNode]
          rfl
      -- other subdirectories of the parent stay as they are
      · have apart := sub.apart _ same (id :: path) (by simpa using here)
        rw [filesAt?, apart, ← filesAt?, atPath_singleton, if_neg here]
        simp [fileComponents?]
  · refine Markup.Focus.perm_append_of_exchange (sub.ids "Component" (by decide) inner) ?_
    have held := inside.componentIds
    rw [filled, idsNamed_addAll, made.componentIds, List.append_assoc] at held
    rwa [List.map_append]
  · refine Markup.Focus.perm_append_of_exchange (sub.ids "File" (by decide) inner) ?_
    have held := inside.fileIds
    rw [filled, idsNamed_addAll, made.fileIds, List.append_assoc] at held
    simpa [allFileComponents, heldFileIds] using held
  · have held := inside.featureIds
    rw [filled, idsNamed_addAll, made.featureIds] at held
    simpa using Markup.Focus.perm_append_of_exchange (sub.ids "Feature" (by decide) inner) held

mutual

/-- Directories of one id path become one element, and nothing is lost by it. -/
theorem placed_place : ∀ {dir : Dir} {parent : Element}, Tidy parent →
    parent.name = "Directory" → Placed c [dir] (dir.bookings c parent) parent (dir.place c parent)
  | ⟨body, dirs⟩, parent, tidy, directory => by
    have sub := isSubdirectory_placeIn ⟨body, dirs⟩ tidy directory
    have name : (filled c ⟨body, dirs⟩ parent).name = "Directory" :=
      (hasNameAndId_eq_true.mp sub.directory).1
    rw [bookings, place]
    exact placed_put body dirs tidy directory (placed_placeAll (tidy_filled _ tidy directory) name)

theorem placed_placeAll : ∀ {dirs : List Dir} {parent : Element}, Tidy parent →
    parent.name = "Directory" →
      Placed c dirs (bookingsAll c dirs parent) parent (placeAll c dirs parent)
  | [], parent, tidy, _ => .refl tidy
  | dir :: rest, parent, tidy, directory => by
    have first : Placed c [dir] (dir.bookings c parent) parent (dir.place c parent) :=
      placed_place tidy directory
    rw [bookingsAll, placeAll]
    exact first.trans (placed_placeAll first.tidy ((name_eq_of_tag first.tag).trans directory))

end

end Dir

end Installer
