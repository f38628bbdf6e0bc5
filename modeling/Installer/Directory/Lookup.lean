import Installer.Folder
import Installer.Project.Directory

/-! # Finding directories

A declared directory is found by its id or by the logical path that leads to it. Names on a path are
compared as identifiers and without regard to case.
-/

namespace Installer.Dir

/-! ## By id -/

mutual

def findId? (id : String) : Dir → Option Dir
  | ⟨body, dirs⟩ => if body.id = some id then some ⟨body, dirs⟩ else findIdIn? id dirs
termination_by structural dir => dir

def findIdIn? (id : String) : List Dir → Option Dir
  | [] => none
  | dir :: rest => (findId? id dir).or (findIdIn? id rest)
termination_by structural dirs => dirs

end

/-! ## By path -/

/-- What two names must share to name the same directory. -/
def nameKey (name : String) : String :=
  String.ofList (Text.lowerAscii (Folder.identifier name).toList)

mutual

/-- The directory that the names lead to when this directory is the first of them. -/
def follow? : Dir → List String → Option Dir
  | _, [] => none
  | ⟨body, dirs⟩, name :: names =>
    if nameKey body.name = nameKey name then
      if names.isEmpty then some ⟨body, dirs⟩ else followIn? dirs names
    else none
termination_by structural dir => dir

def followIn? : List Dir → List String → Option Dir
  | [], _ => none
  | dir :: rest, names => (follow? dir names).or (followIn? rest names)
termination_by structural dirs => dirs

end

/-- The declared directory that a text refers to: by its id, which may be in brackets, or by its
path. -/
def find? (dirs : List Dir) (path : String) : Option Dir :=
  match LogicalPath.components path with
  | [name] =>
    (findIdIn? (String.ofList (Folder.unbracketed name.toList)) dirs).or (followIn? dirs [name])
  | names => followIn? dirs names

end Installer.Dir
