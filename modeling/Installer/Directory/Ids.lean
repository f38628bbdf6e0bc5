import Installer.Directory.Lookup
import Installer.Ident
import Installer.Project.Directory

/-! # Ids in the directory tree

Every directory, file, shortcut, permission and merge module gets its final id. Ids that the project
declares, and those of directories that shortcuts will call for, are put in use first.
-/

namespace Installer

/-! ## Ids in use from the start -/

namespace Dir

mutual

/-- The ids that the project declares for a directory, its files and all below it. -/
def declaredIds : Dir → List (IdKind × String)
  | ⟨body, dirs⟩ =>
    (body.id.toList.map fun id => (.directory, id)) ++
      (body.files.filterMap File.id).map (fun id => (.file, id)) ++ declaredIdsIn dirs
termination_by structural dir => dir

def declaredIdsIn : List Dir → List (IdKind × String)
  | [] => []
  | dir :: rest => declaredIds dir ++ declaredIdsIn rest
termination_by structural dirs => dirs

end

mutual

/-- The locations that shortcuts of files name in a directory and below it. -/
def locations : Dir → List String
  | ⟨body, dirs⟩ =>
    ((body.files.flatMap File.shortcuts).map Shortcut.location).filter (fun l => !l.isEmpty) ++
      locationsIn dirs
termination_by structural dir => dir

def locationsIn : List Dir → List String
  | [] => []
  | dir :: rest => locations dir ++ locationsIn rest
termination_by structural dirs => dirs

end

/-- The ids of the directories that will be made for a location: of its initial parts, from the
longest down to the first that is declared. Single names are left out. -/
def locationIds (dirs : List Dir) (location : String) : List String :=
  ((LogicalPath.initials location).takeWhile fun path =>
    2 ≤ (LogicalPath.components path).length && (find? dirs path).isNone).map Folder.identifier

/-- All ids that are in use before any is generated. -/
def reservedIds (dirs : List Dir) : List (IdKind × String) :=
  declaredIdsIn dirs ++
    (locationsIn dirs).flatMap fun location =>
      (locationIds dirs location).map fun id => (.directory, id)

end Dir

/-! ## Final ids -/

def Shortcut.resolve (shortcut : Shortcut) : StateM IdPool Shortcut :=
  match shortcut.id with
  | some _ => return shortcut
  | none => do
    return { shortcut with id := some (← IdPool.claim .shortcut (Folder.identifier shortcut.name)) }

def Permission.resolve (permission : Permission) : StateM IdPool Permission :=
  match permission.id with
  | some _ => return permission
  | none => do
    return { permission with id := some (← IdPool.number .permission "Permission") }

def MergeModule.resolve (module : MergeModule) : StateM IdPool MergeModule :=
  match module.id with
  | some _ => return module
  | none => do
    return { module with id := some (← IdPool.claim .mergeModule (Folder.identifier module.stem)) }

def File.resolve (file : File) : StateM IdPool File := do
  let id ← match file.id with
    | some id => pure id
    | none => IdPool.claim .file (Folder.identifier file.fileName)
  let shortcuts ← file.shortcuts.mapM Shortcut.resolve
  let permissions ← file.permissions.mapM Permission.resolve
  return { file with id := some id, shortcuts, permissions }

/-- The id of a directory inside the directory `parentId`: the one declared for it, the one of a
special folder, or a new one. -/
def DirBody.resolveId (parentId : String) (body : DirBody) : StateM IdPool String :=
  match body.id, Folder.specialId? body.name with
  | some id, _ => return id
  | none, some folder => return folder
  | none, none => IdPool.claim .directory (parentId ++ "." ++ Folder.identifier body.name)

def DirBody.resolve (id : String) (body : DirBody) : StateM IdPool DirBody := do
  let files ← body.files.mapM File.resolve
  let shortcuts ← body.shortcuts.mapM Shortcut.resolve
  let permissions ← body.permissions.mapM Permission.resolve
  let mergeModules ← body.mergeModules.mapM MergeModule.resolve
  return { body with id := some id, files, shortcuts, permissions, mergeModules }

namespace Dir

mutual

/-- The directory with final ids for itself and all below it. -/
def resolve (parentId : String) : Dir → StateM IdPool Dir
  | ⟨body, dirs⟩ => do
    let id ← body.resolveId parentId
    let body ← body.resolve id
    let dirs ← resolveAll id dirs
    return ⟨body, dirs⟩
termination_by structural dir => dir

def resolveAll (parentId : String) : List Dir → StateM IdPool (List Dir)
  | [] => return []
  | dir :: rest => do
    let dir ← resolve parentId dir
    let rest ← resolveAll parentId rest
    return dir :: rest
termination_by structural dirs => dirs

end

def rootId : String :=
  "TARGETDIR"

def withIds (dirs : List Dir) : StateM IdPool (List Dir) := do
  for (kind, id) in reservedIds dirs do
    IdPool.reserve kind id
  resolveAll rootId dirs

def finalId (dir : Dir) : String :=
  dir.id.getD (Folder.identifier dir.name)

end Dir

end Installer
