import Installer.Folder
import Installer.Project.Basic

/-! # The shape of the directory tree

Before ids are given out the tree is brought into its final shape: 32-bit folders give way to 64-bit
ones where the package is for 64-bit machines, a directory named by a path becomes a chain of
directories, and one directory is made the installation directory.
-/

namespace Installer

/-! ## 64-bit folders -/

def Shortcut.widen (shortcut : Shortcut) : Shortcut :=
  { shortcut with
    location := Folder.widen shortcut.location
    target := Folder.widen shortcut.target
    workingDir := shortcut.workingDir.map Folder.widen }

def ActionKind.widen : ActionKind → ActionKind
  | .quietCommand program args => .quietCommand (Folder.widen program) (Folder.widen args)
  | .pathFile program args workingDir =>
    .pathFile (Folder.widen program) (Folder.widen args) (Folder.widen workingDir)
  | .installedFile fileKey args => .installedFile fileKey (Folder.widen args)
  | .binaryFile binaryKey args => .binaryFile binaryKey (Folder.widen args)
  | kind => kind

def DirBody.widen (body : DirBody) : DirBody :=
  { body with
    name := Folder.widen body.name
    shortcuts := body.shortcuts.map Shortcut.widen
    files := body.files.map fun file =>
      { file with shortcuts := file.shortcuts.map Shortcut.widen } }

namespace Dir

mutual

/-- The directory and all below it with 64-bit folders. -/
def widen : Dir → Dir
  | ⟨body, dirs⟩ => ⟨body.widen, widenAll dirs⟩
termination_by structural dir => dir

def widenAll : List Dir → List Dir
  | [] => []
  | dir :: rest => widen dir :: widenAll rest
termination_by structural dirs => dirs

end

/-! ## Paths as names -/

/-- A directory that holds nothing but another one. -/
def enclose (name : String) (dir : Dir) : Dir :=
  { name, dirs := [dir] }

/-- The directory as a chain with one name of its path each. What it is and holds stays with the
last one; a directory with a single name stays as it is. -/
def chained (dir : Dir) : Dir :=
  let names := LogicalPath.components dir.name
  match names.dropLast with
  | [] => dir
  | outer => outer.foldr enclose { dir with name := names.getLastD dir.name }

mutual

/-- The directory with every path below it and its own made into chains. -/
def split : Dir → Dir
  | ⟨body, dirs⟩ => chained ⟨body, splitAll dirs⟩
termination_by structural dir => dir

def splitAll : List Dir → List Dir
  | [] => []
  | dir :: rest => split dir :: splitAll rest
termination_by structural dirs => dirs

end

/-! ## The installation directory -/

/-- Gives the directory an id unless it has one, from its declaration or as a special folder. -/
def withInstallId? (id : String) (dir : Dir) : Option Dir :=
  if dir.id.isSome || Folder.isSpecial dir.name then none else some { dir with id := some id }

mutual

/-- Gives `id` to the first directory on the way down that holds something or branches. Returns the
directory with the logical path of the one that got the id, or `none` where that one has an id. -/
def assignInstallId? (id : String) : Dir → Option (Dir × String)
  | ⟨body, dirs⟩ =>
    if body.shortcuts.isEmpty && body.files.isEmpty && dirs.length == 1 then
      (assignFirst? id dirs).map fun (dirs, path) => (⟨body, dirs⟩, body.name ++ "\\" ++ path)
    else (withInstallId? id ⟨body, dirs⟩).map fun dir => (dir, body.name)
termination_by structural dir => dir

/-- Gives `id` out on the way down from the first of the directories. -/
def assignFirst? (id : String) : List Dir → Option (List Dir × String)
  | [] => none
  | dir :: rest => (assignInstallId? id dir).map fun (dir, path) => (dir :: rest, path)
termination_by structural dirs => dirs

end

/-- The directory of a project that declares none. -/
def placeholder : Dir :=
  { name := "%ProgramFiles%\\WixTree\\DummyDir" }

end Dir

/-- The directories of a project in their final shape, with the logical path of the directory that
was made the installation directory. An empty `installId` makes none. -/
def Dir.shape (installId : String) (dirs : List Dir) : List Dir × Option String :=
  let dirs := splitAll dirs
  match if installId.isEmpty then none else assignFirst? installId dirs with
  | some (dirs, path) => (dirs, some path)
  | none => (dirs, none)

end Installer
