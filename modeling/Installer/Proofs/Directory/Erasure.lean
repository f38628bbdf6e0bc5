import Installer.Proofs.Directory.Resolve

/-! # Directories without their ids

Final ids are all that the walk over the directories adds.  So whatever can be read from a tree
without looking at ids is the same before the walk and after it: the names that lead to a directory,
the locations of shortcuts, and what directories hold.
-/

namespace Installer

open IdPool

/-! ## Erasing ids -/

def Shortcut.withoutId (shortcut : Shortcut) : Shortcut :=
  { shortcut with id := none }

def Permission.withoutId (permission : Permission) : Permission :=
  { permission with id := none }

def MergeModule.withoutId (module : MergeModule) : MergeModule :=
  { module with id := none }

def File.withoutIds (file : File) : File :=
  { file with
    id := none
    shortcuts := file.shortcuts.map Shortcut.withoutId
    permissions := file.permissions.map Permission.withoutId }

def DirBody.withoutIds (body : DirBody) : DirBody :=
  { body with
    id := none
    files := body.files.map File.withoutIds
    shortcuts := body.shortcuts.map Shortcut.withoutId
    permissions := body.permissions.map Permission.withoutId
    mergeModules := body.mergeModules.map MergeModule.withoutId }

namespace Dir

mutual

def withoutIds : Dir → Dir
  | ⟨body, dirs⟩ => ⟨body.withoutIds, withoutIdsAll dirs⟩
termination_by structural dir => dir

def withoutIdsAll : List Dir → List Dir
  | [] => []
  | dir :: rest => withoutIds dir :: withoutIdsAll rest
termination_by structural dirs => dirs

end

end Dir

/-! ## The walk adds ids only -/

theorem Shortcut.withoutId_resolve (shortcut : Shortcut) (pool : IdPool) :
    (shortcut.resolve.run pool).1.withoutId = shortcut.withoutId := by
  rw [resolve]
  cases shortcut.id <;> rfl

theorem Permission.withoutId_resolve (permission : Permission) (pool : IdPool) :
    (permission.resolve.run pool).1.withoutId = permission.withoutId := by
  rw [resolve]
  cases permission.id <;> rfl

theorem MergeModule.withoutId_resolve (module : MergeModule) (pool : IdPool) :
    (module.resolve.run pool).1.withoutId = module.withoutId := by
  rw [resolve]
  cases module.id <;> rfl

theorem File.withoutIds_resolve (file : File) (pool : IdPool) :
    (file.resolve.run pool).1.withoutIds = file.withoutIds := by
  have carried : ∀ (id : String) (start : IdPool),
      File.withoutIds { file with
        id := some id
        shortcuts := ((file.shortcuts.mapM Shortcut.resolve).run start).1
        permissions := ((file.permissions.mapM Permission.resolve).run
          ((file.shortcuts.mapM Shortcut.resolve).run start).2).1 } = file.withoutIds := by
    intro id start
    simp only [withoutIds]
    rw [map_mapM Shortcut.withoutId_resolve, map_mapM Permission.withoutId_resolve]
  rw [resolve]
  cases file.id with
  | some id => exact carried id pool
  | none => exact carried _ _

theorem DirBody.withoutIds_resolve (id : String) (body : DirBody) (pool : IdPool) :
    ((body.resolve id).run pool).1.withoutIds = body.withoutIds := by
  have files := map_mapM File.withoutIds_resolve body.files pool
  have shortcuts := map_mapM Shortcut.withoutId_resolve body.shortcuts
  have permissions := map_mapM Permission.withoutId_resolve body.permissions
  have modules := map_mapM MergeModule.withoutId_resolve body.mergeModules
  show DirBody.withoutIds { body with
    id := some id
    files := ((body.files.mapM File.resolve).run pool).1
    shortcuts := ((body.shortcuts.mapM Shortcut.resolve).run _).1
    permissions := ((body.permissions.mapM Permission.resolve).run _).1
    mergeModules := ((body.mergeModules.mapM MergeModule.resolve).run _).1 } = _
  simp only [withoutIds, files, shortcuts, permissions, modules]

namespace Dir

mutual

theorem withoutIds_resolve (parentId : String) :
    ∀ (dir : Dir) (pool : IdPool), ((dir.resolve parentId).run pool).1.withoutIds = dir.withoutIds
  | ⟨body, dirs⟩, pool => by
    rw [resolve]
    have own := body.withoutIds_resolve ((body.resolveId parentId).run pool).1
      ((body.resolveId parentId).run pool).2
    have below := withoutIdsAll_resolveAll ((body.resolveId parentId).run pool).1 dirs
      ((body.resolve ((body.resolveId parentId).run pool).1).run
        ((body.resolveId parentId).run pool).2).2
    rw [withoutIds, ← own, ← below]
    rfl

/-- Apart from ids the walk changes nothing. -/
theorem withoutIdsAll_resolveAll (parentId : String) :
    ∀ (dirs : List Dir) (pool : IdPool),
      withoutIdsAll ((resolveAll parentId dirs).run pool).1 = withoutIdsAll dirs
  | [], pool => rfl
  | dir :: rest, pool => by
    rw [resolveAll]
    have first := withoutIds_resolve parentId dir pool
    have others := withoutIdsAll_resolveAll parentId rest ((dir.resolve parentId).run pool).2
    rw [withoutIdsAll, ← first, ← others]
    rfl

end

/-! ## Readings that do not see ids -/

theorem name_withoutIds (body : DirBody) : body.withoutIds.name = body.name := rfl

mutual

theorem withoutIds_eq_mapBody : ∀ dir : Dir, dir.withoutIds = mapBody DirBody.withoutIds dir
  | ⟨body, dirs⟩ => by rw [withoutIds, mapBody, withoutIdsAll_eq_mapBodies]

theorem withoutIdsAll_eq_mapBodies :
    ∀ dirs : List Dir, withoutIdsAll dirs = mapBodies DirBody.withoutIds dirs
  | [] => rfl
  | dir :: rest => by
    rw [withoutIdsAll, mapBodies, withoutIds_eq_mapBody, withoutIdsAll_eq_mapBodies]

end

/-- Names lead to the same directory. -/
theorem followIn?_withoutIdsAll (dirs : List Dir) (names : List String) :
    followIn? (withoutIdsAll dirs) names = (followIn? dirs names).map withoutIds := by
  rw [withoutIdsAll_eq_mapBodies, followIn?_mapBodies name_withoutIds,
    ← funext withoutIds_eq_mapBody]

theorem locations_files_withoutIds (files : List File) :
    ((files.map File.withoutIds).flatMap File.shortcuts).map Shortcut.location =
      (files.flatMap File.shortcuts).map Shortcut.location := by
  simp only [List.map_flatMap, List.flatMap_map, File.withoutIds, List.map_map]
  rfl

mutual

theorem locations_withoutIds : ∀ dir : Dir, locations dir.withoutIds = locations dir
  | ⟨body, dirs⟩ => by
    rw [withoutIds, locations, locations, locationsIn_withoutIdsAll]
    simp only [DirBody.withoutIds, locations_files_withoutIds]

/-- Shortcuts name the same locations. -/
theorem locationsIn_withoutIdsAll : ∀ dirs : List Dir,
    locationsIn (withoutIdsAll dirs) = locationsIn dirs
  | [] => rfl
  | dir :: rest => by
    rw [withoutIdsAll, locationsIn, locationsIn, locations_withoutIds, locationsIn_withoutIdsAll]

end

mutual

theorem allFiles_withoutIds : ∀ dir : Dir,
    allFiles [dir.withoutIds] = (allFiles [dir]).map File.withoutIds
  | ⟨body, dirs⟩ => by
    have below := allFiles_withoutIdsAll dirs
    rw [allFiles, allFiles, List.map_flatMap] at below
    rw [withoutIds, allFiles, allFiles, List.map_flatMap, all_cons, all_cons, List.flatMap_cons,
      List.flatMap_cons, all_nil, List.append_nil, List.append_nil, below]
    rfl

/-- The files are the same in the same order. -/
theorem allFiles_withoutIdsAll : ∀ dirs : List Dir,
    allFiles (withoutIdsAll dirs) = (allFiles dirs).map File.withoutIds
  | [] => rfl
  | dir :: rest => by
    have first := allFiles_withoutIds dir
    have others := allFiles_withoutIdsAll rest
    rw [withoutIdsAll, ← List.singleton_append, ← List.singleton_append (x := dir)]
    simp only [allFiles, all_append, List.flatMap_append, List.map_append] at first others ⊢
    rw [first, others]

end

/-- A reading of directories that does not see ids gives the same. -/
theorem readAll_withoutIdsAll {α : Type} {read : DirBody → List α}
    (blind : ∀ body : DirBody, read body.withoutIds = read body) (dirs : List Dir) :
    readAll read (withoutIdsAll dirs) = readAll read dirs := by
  rw [withoutIdsAll_eq_mapBodies, readAll_mapBodies blind]

end Dir

end Installer
