import Installer.Proofs.Component.Numbering
import Installer.Proofs.Directory.Resolve
import Installer.Proofs.Product.Document

/-! # Ids of components

The ids of components are made in four ways: a prefix before the id of a directory, file or
permission, a suffix behind the id of an empty directory, the bare id of a shortcut, and a number
behind the stem of a family.  Ids of one kind are different where the pool hands them out.  Those of
different kinds may meet, and a special folder may be there more than once.  The main result says
exactly when the ids of all components of a document are different.
-/

namespace Installer

open Markup (Element)
open Markup.Element

/-! ## Kinds of origins -/

inductive OriginKind where
  | folder
  | file
  | permission
  | emptyFolder
  | shortcut
  | standalone
deriving DecidableEq, Repr

def OriginKind.all : List OriginKind :=
  [.folder, .file, .permission, .emptyFolder, .shortcut, .standalone]

def Origin.kind : Origin → OriginKind
  | .folder _ => .folder
  | .emptyFolder _ => .emptyFolder
  | .file _ => .file
  | .permission _ => .permission
  | .shortcut _ => .shortcut
  | .standalone _ _ => .standalone

def Booking.ofKind (kind : OriginKind) (bookings : List Booking) : List Booking :=
  bookings.filter fun booking => booking.origin.kind == kind

namespace Booking

theorem ofKind_append (kind : OriginKind) (front back : List Booking) :
    ofKind kind (front ++ back) = ofKind kind front ++ ofKind kind back :=
  List.filter_append ..

theorem perm_ofKind (bookings : List Booking) :
    (OriginKind.all.flatMap fun kind => ofKind kind bookings).Perm bookings :=
  perm_flatMap_filter (by decide) fun booking _ => by
    cases booking.origin <;> simp [OriginKind.all, Origin.kind]

/-- Bookings that are all of one kind. -/
theorem ofKind_map {α : Type} (kind kind' : OriginKind) (make : α → Booking) (entities : List α)
    (made : ∀ x, (make x).origin.kind = kind') :
    ofKind kind (entities.map make) = if kind' = kind then entities.map make else [] := by
  split
  next same =>
    exact List.filter_eq_self.mpr (List.forall_mem_map.mpr fun x _ => by simp [made, same])
  next other =>
    exact List.filter_eq_nil_iff.mpr (List.forall_mem_map.mpr fun x _ => by simp [made, other])

end Booking

open Booking (ofKind ofKind_append)

/-! ## Bookings of directories by kind -/

namespace Dir

/-- The bookings for a directory and for what it holds, which are none when it holds nothing. -/
def heldBookings (dir : Dir) : List Booking :=
  if dir.isEmpty then [] else dir.toDirBody.bookings dir.finalId

theorem ofKind_ownBookings {kind : OriginKind} (other : kind ≠ .emptyFolder) (dir : Dir)
    (e : Element) : ofKind kind (dir.ownBookings e) = ofKind kind dir.heldBookings := by
  rw [ownBookings, heldBookings]
  split
  next =>
    -- an empty directory has a placeholder at most
    refine List.filter_eq_nil_iff.mpr fun booking mem => ?_
    rw [DirBody.emptyBookings] at mem
    split at mem
    · cases mem
    · rw [List.mem_singleton.mp mem]
      simpa [Origin.kind] using Ne.symm other
  next => rfl

mutual

/-- Where a directory is placed does not matter for its bookings, except for placeholders. -/
theorem ofKind_bookings {c : Compilation} {kind : OriginKind} (other : kind ≠ .emptyFolder) :
    ∀ (dir : Dir) (parent : Element),
      ofKind kind (bookings c dir parent) = ofKind kind ((all [dir]).flatMap heldBookings)
  | ⟨body, dirs⟩, parent => by
    rw [bookings, ofKind_append, ofKind_ownBookings other, ofKind_bookingsAll other]
    simp [ofKind_append]

theorem ofKind_bookingsAll {c : Compilation} {kind : OriginKind} (other : kind ≠ .emptyFolder) :
    ∀ (dirs : List Dir) (parent : Element),
      ofKind kind (bookingsAll c dirs parent) = ofKind kind ((all dirs).flatMap heldBookings)
  | [], _ => rfl
  | dir :: rest, parent => by
    have split : all (dir :: rest) = all [dir] ++ all rest := all_append [dir] rest
    rw [bookingsAll, ofKind_append, ofKind_bookings other, ofKind_bookingsAll other, split,
      List.flatMap_append, ofKind_append]

end

/-- The directories of a shortcut location hold nothing. -/
theorem heldBookings_chain (names : List String) (start : Nat) (feature : Option String) :
    (all [chain names start feature]).flatMap heldBookings = [] := by
  rw [chain]
  -- each directory of the chain has a name, an id and the next one
  induction List.range' (start + 1) (names.length - 1 - start) with
  | nil => simp [ofNames, heldBookings, isEmpty]
  | cons n rest ih =>
    rw [List.foldr_cons, ofNames, all_cons, List.flatMap_cons, List.flatMap_append, ih]
    simp [heldBookings, DirBody.bookings]

theorem ofKind_locationsBookings {c : Compilation} {kind : OriginKind}
    (other : kind ≠ .emptyFolder) (entries : List (String × Option String)) (root : Element) :
    ofKind kind (locationsBookings c root entries) = [] := by
  have chained : ∀ names start feature e,
      ofKind kind (bookings c (chain names start feature) e) = [] := fun names start feature e => by
      rw [ofKind_bookings other, heldBookings_chain]
      rfl
  induction entries generalizing root with
  | nil => rfl
  | cons entry rest ih =>
    rw [locationsBookings, ofKind_append, ih, List.append_nil, locationBookings]
    split
    next => rfl
    next =>
      split
      next => exact chained _ _ _ _
      next =>
        split
        next => exact chained _ _ _ _
        next => exact chained _ _ _ _

end Dir

/-! ## The ids of a compilation -/

/-- The id of an empty directory that gets a placeholder. -/
def Origin.placeholder? : Origin → Option String
  | .emptyFolder id => some id
  | _ => none

namespace Compilation

variable (c : Compilation)

def folderIds : List String :=
  ((Dir.all c.project.dirs).filter fun dir => !dir.isEmpty && dir.feature.isSome).map Dir.finalId

def fileIds : List String :=
  (Dir.allFiles c.project.dirs).map File.finalId

def permissionIds : List String :=
  (Dir.all c.project.dirs).flatMap fun dir => dir.permissions.map Permission.finalId

def shortcutIds : List String :=
  (Dir.all c.project.dirs).flatMap fun dir => dir.shortcuts.map Shortcut.finalId

def placeholderIds : List String :=
  c.treeBookings.filterMap fun booking => booking.origin.placeholder?

def prefixedIds : List String :=
  c.folderIds ++ c.fileIds ++ c.permissionIds

def standaloneIds : List String :=
  c.project.standaloneBookings.map Booking.componentId

theorem ofKind_treeBookings {kind : OriginKind} (other : kind ≠ .emptyFolder) :
    ofKind kind c.treeBookings = (Dir.all c.project.dirs).flatMap fun dir =>
      ofKind kind dir.heldBookings := by
  rw [treeBookings, ofKind_append, Dir.ofKind_bookingsAll other,
    Dir.ofKind_locationsBookings other, List.append_nil]
  exact List.filter_flatMap ..

end Compilation

namespace Dir

theorem nothing_of_isEmpty {dir : Dir} (empty : dir.isEmpty = true) :
    dir.files = [] ∧ dir.shortcuts = [] ∧ dir.permissions = [] := by
  simp only [isEmpty, Bool.and_eq_true, List.isEmpty_iff] at empty
  exact ⟨empty.1.1.1, empty.1.1.2, empty.2⟩

/-- The ids of the components of a directory, by kind. -/
theorem componentIds_heldBookings (dir : Dir) :
    (ofKind .folder dir.heldBookings).map Booking.componentId =
        (if !dir.isEmpty && dir.feature.isSome then ["Component." ++ dir.finalId] else []) ∧
      (ofKind .file dir.heldBookings).map Booking.componentId =
        (dir.files.map File.finalId).map ("Component." ++ ·) ∧
      (ofKind .permission dir.heldBookings).map Booking.componentId =
        (dir.permissions.map Permission.finalId).map ("Component." ++ ·) ∧
      (ofKind .shortcut dir.heldBookings).map Booking.componentId =
        dir.shortcuts.map Shortcut.finalId ∧
      ofKind .standalone dir.heldBookings = [] := by
  rw [heldBookings]
  split
  next empty =>
    obtain ⟨noFiles, noShortcuts, noPermissions⟩ := nothing_of_isEmpty empty
    simp [ofKind, empty, noFiles, noShortcuts, noPermissions]
  next full =>
    have files := fun kind => Booking.ofKind_map kind .file
      (fun file => ⟨.file file.finalId, file.feature⟩) dir.files fun _ => rfl
    have shortcuts := fun kind => Booking.ofKind_map kind .shortcut
      (fun shortcut => ⟨.shortcut shortcut.finalId, shortcut.feature⟩) dir.shortcuts fun _ => rfl
    have permissions := fun kind => Booking.ofKind_map kind .permission
      (fun permission => ⟨.permission permission.finalId, permission.feature⟩) dir.permissions
      fun _ => rfl
    have folder := fun kind => Booking.ofKind_map kind .folder
      (fun feature => ⟨.folder dir.finalId, some feature⟩) dir.feature.toList fun _ => rfl
    have own : (if dir.feature.isSome then [⟨.folder dir.finalId, dir.feature⟩] else [] :
        List Booking) = dir.feature.toList.map fun feature =>
          ⟨.folder dir.finalId, some feature⟩ := by
      cases dir.feature <;> rfl
    simp only [DirBody.bookings, own, ofKind_append, files, shortcuts, permissions, folder]
    refine ⟨?_, ?_, ?_, ?_, ?_⟩
    · cases named : dir.feature <;> simp [full, Booking.componentId, Origin.componentId]
    all_goals simp [Booking.componentId, Origin.componentId, Function.comp_def]

end Dir

/-! ## All ids -/

theorem Project.ofKind_standaloneBookings (project : Project) (kind : OriginKind) :
    ofKind kind project.standaloneBookings =
      if .standalone = kind then project.standaloneBookings else [] := by
  obtain ⟨stop, numbered⟩ := project.numbered_standaloneBookings
  have kinds : ∀ booking ∈ project.standaloneBookings, booking.origin.kind = .standalone := by
    intro booking mem
    obtain ⟨f, n, origin, -, -⟩ := numbered.within booking mem
    rw [origin]
    rfl
  split
  next same => exact List.filter_eq_self.mpr fun booking mem => by simp [kinds booking mem, same]
  next other =>
    exact List.filter_eq_nil_iff.mpr fun booking mem => by simp [kinds booking mem, other]

namespace Compilation

variable (c : Compilation)

theorem componentIds_placeholders (bookings : List Booking) :
    (ofKind .emptyFolder bookings).map Booking.componentId =
      (bookings.filterMap fun booking => booking.origin.placeholder?).map
        (· ++ ".EmptyDirectory") := by
  induction bookings with
  | nil => rfl
  | cons booking rest ih =>
    obtain ⟨origin, feature⟩ := booking
    rw [← List.singleton_append, ofKind_append, List.map_append, ih, List.filterMap_append,
      List.map_append]
    cases origin <;> rfl

theorem componentIds_held {kind : OriginKind} (held : kind ≠ .emptyFolder)
    (inTree : kind ≠ .standalone) :
    (ofKind kind c.bookings).map Booking.componentId = (Dir.all c.project.dirs).flatMap fun dir =>
      (ofKind kind dir.heldBookings).map Booking.componentId := by
  rw [bookings, ofKind_append, c.ofKind_treeBookings held, c.project.ofKind_standaloneBookings,
    if_neg inTree.symm, List.append_nil, List.map_flatMap]

/-- The ids of the components of one kind. -/
theorem componentIds_ofKind :
    (ofKind .folder c.bookings).map Booking.componentId = c.folderIds.map ("Component." ++ ·) ∧
      (ofKind .file c.bookings).map Booking.componentId = c.fileIds.map ("Component." ++ ·) ∧
      (ofKind .permission c.bookings).map Booking.componentId =
        c.permissionIds.map ("Component." ++ ·) ∧
      (ofKind .emptyFolder c.bookings).map Booking.componentId =
        c.placeholderIds.map (· ++ ".EmptyDirectory") ∧
      (ofKind .shortcut c.bookings).map Booking.componentId = c.shortcutIds ∧
      (ofKind .standalone c.bookings).map Booking.componentId = c.standaloneIds := by
  have held := fun dir : Dir => dir.componentIds_heldBookings
  have folders : ∀ dirs : List Dir, (dirs.flatMap fun dir =>
      if !dir.isEmpty && dir.feature.isSome then ["Component." ++ dir.finalId] else []) =
        ((dirs.filter fun dir => !dir.isEmpty && dir.feature.isSome).map Dir.finalId).map
          ("Component." ++ ·) := by
    intro dirs
    induction dirs with
    | nil => rfl
    | cons dir rest ih =>
      rw [List.flatMap_cons, ih, List.filter_cons]
      split <;> rfl
  refine ⟨?_, ?_, ?_, ?_, ?_, ?_⟩
  · rw [c.componentIds_held (by decide) (by decide), folderIds, ← folders]
    exact List.flatMap_congr fun dir _ => (held dir).1
  · rw [c.componentIds_held (by decide) (by decide), fileIds, Dir.allFiles, List.map_flatMap,
      List.map_flatMap]
    exact List.flatMap_congr fun dir _ => (held dir).2.1
  · rw [c.componentIds_held (by decide) (by decide), permissionIds, List.map_flatMap]
    exact List.flatMap_congr fun dir _ => (held dir).2.2.1
  · -- only placeholders depend on where directories are placed
    rw [bookings, ofKind_append, c.project.ofKind_standaloneBookings, if_neg (by decide),
      List.append_nil]
    exact componentIds_placeholders _
  · rw [c.componentIds_held (by decide) (by decide), shortcutIds]
    exact List.flatMap_congr fun dir _ => (held dir).2.2.2.1
  · rw [bookings, ofKind_append, c.ofKind_treeBookings (by decide),
      c.project.ofKind_standaloneBookings, if_pos rfl,
      List.flatMap_eq_nil_iff.mpr fun dir _ => (held dir).2.2.2.2, List.nil_append]
    rfl

theorem perm_componentIds :
    (c.bookings.map Booking.componentId).Perm
      (c.prefixedIds.map ("Component." ++ ·) ++ c.placeholderIds.map (· ++ ".EmptyDirectory") ++
        c.shortcutIds ++ c.standaloneIds) := by
  have perm := ((Booking.perm_ofKind c.bookings).map Booking.componentId).symm
  obtain ⟨folders, files, permissions, placeholders, shortcuts, standalone⟩ := c.componentIds_ofKind
  simp only [OriginKind.all, List.flatMap_cons, List.flatMap_nil, List.append_nil, List.map_append,
    folders, files, permissions, placeholders, shortcuts, standalone] at perm
  simpa only [prefixedIds, List.map_append, List.append_assoc] using perm

/-! ## Ids that are apart -/

/-- What keeps the ids of components apart beside the pool: no two directories with a component of
their own have the same id, nor do two with a placeholder, and ids made in different ways do not
meet. -/
structure KeepsIdsApart : Prop where
  folders : c.folderIds.Nodup
  placeholders : c.placeholderIds.Nodup
  folders_files : c.folderIds.Disjoint c.fileIds
  folders_permissions : c.folderIds.Disjoint c.permissionIds
  files_permissions : c.fileIds.Disjoint c.permissionIds
  prefixed_placeholders : ∀ id ∈ c.prefixedIds, ∀ id' ∈ c.placeholderIds,
    "Component." ++ id ≠ id' ++ ".EmptyDirectory"
  prefixed_shortcuts : ∀ id ∈ c.prefixedIds, "Component." ++ id ∉ c.shortcutIds
  placeholders_shortcuts : ∀ id ∈ c.placeholderIds, id ++ ".EmptyDirectory" ∉ c.shortcutIds
  shortcuts_standalone : c.shortcutIds.Disjoint c.standaloneIds

variable {c}

theorem standaloneId_eq {id : String} (mem : id ∈ c.standaloneIds) :
    ∃ (family : Family) (n : Nat), id = family.stem ++ toString n := by
  obtain ⟨booking, among, rfl⟩ := List.mem_map.mp mem
  obtain ⟨stop, numbered⟩ := c.project.numbered_standaloneBookings
  obtain ⟨family, n, origin, -, -⟩ := numbered.within booking among
  exact ⟨family, n, by rw [Booking.componentId, origin, Origin.componentId]⟩

/-- The ids of the components are different just if those are that the pool does not keep apart. -/
theorem nodup_bookedIds_iff (files : c.fileIds.Nodup) (permissions : c.permissionIds.Nodup)
    (shortcuts : c.shortcutIds.Nodup) :
    (c.bookings.map Booking.componentId).Nodup ↔ c.KeepsIdsApart := by
  have prefixInjective : Function.Injective fun id => "Component." ++ id := fun a b equal =>
    (String.append_right_inj _).mp equal
  have suffixInjective : Function.Injective fun id => id ++ ".EmptyDirectory" := fun a b equal =>
    (String.append_left_inj _).mp equal
  -- numbers of families meet neither the ids with a prefix nor those with a suffix
  have prefixed : (c.prefixedIds.map ("Component." ++ ·)).Disjoint c.standaloneIds := by
    intro id memP memS
    obtain ⟨id', -, rfl⟩ := List.mem_map.mp memP
    obtain ⟨family, n, equal⟩ := standaloneId_eq memS
    exact family.component_append_ne id' n equal
  have suffixed : (c.placeholderIds.map (· ++ ".EmptyDirectory")).Disjoint c.standaloneIds := by
    intro id memP memS
    obtain ⟨id', -, rfl⟩ := List.mem_map.mp memP
    obtain ⟨family, n, equal⟩ := standaloneId_eq memS
    exact family.append_emptyDirectory_ne id' n equal
  have within : c.prefixedIds.Nodup ↔ ((c.folderIds.Nodup ∧ c.fileIds.Nodup ∧
      c.folderIds.Disjoint c.fileIds) ∧ c.permissionIds.Nodup ∧
        c.folderIds.Disjoint c.permissionIds ∧ c.fileIds.Disjoint c.permissionIds) := by
    rw [prefixedIds, List.nodup_append', List.nodup_append', List.disjoint_append_left]
  rw [c.perm_componentIds.nodup_iff, List.nodup_append', List.nodup_append', List.nodup_append',
    List.nodup_map_iff prefixInjective, List.nodup_map_iff suffixInjective, within]
  simp only [List.disjoint_append_left]
  -- what is left of both sides is about pairs of lists
  constructor
  · rintro ⟨⟨⟨⟨⟨folders, -, foldersFiles⟩, -, foldersPermissions, filesPermissions⟩, placeholders,
      prefixedPlaceholders⟩, -, prefixedShortcuts, placeholdersShortcuts⟩, -, -,
      shortcutsStandalone⟩
    refine ⟨folders, placeholders, foldersFiles, foldersPermissions, filesPermissions, ?_, ?_, ?_,
      shortcutsStandalone⟩
    · intro id mem id' mem' equal
      exact prefixedPlaceholders (List.mem_map_of_mem mem) (equal ▸ List.mem_map_of_mem mem')
    · exact fun id mem => prefixedShortcuts (List.mem_map_of_mem mem)
    · exact fun id mem => placeholdersShortcuts (List.mem_map_of_mem mem)
  · intro apart
    refine ⟨⟨⟨⟨⟨apart.folders, files, apart.folders_files⟩, permissions, apart.folders_permissions,
      apart.files_permissions⟩, apart.placeholders, ?_⟩, shortcuts, ?_, ?_⟩,
      c.project.nodup_standaloneIds, ⟨prefixed, suffixed⟩, apart.shortcuts_standalone⟩
    · intro id mem mem'
      obtain ⟨x, memX, rfl⟩ := List.mem_map.mp mem
      obtain ⟨y, memY, equal⟩ := List.mem_map.mp mem'
      exact apart.prefixed_placeholders x memX y memY equal.symm
    · intro id mem mem'
      obtain ⟨x, memX, rfl⟩ := List.mem_map.mp mem
      exact apart.prefixed_shortcuts x memX mem'
    · intro id mem mem'
      obtain ⟨x, memX, rfl⟩ := List.mem_map.mp mem
      exact apart.placeholders_shortcuts x memX mem'

end Compilation

end Installer
