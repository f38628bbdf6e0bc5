import Installer.Text.Search

/-! # Logical paths

A logical path names a directory on the target machine by the names that lead to it, as in
`%ProgramFiles%\Acme\App`. Both kinds of slash separate names, and empty names count for nothing.
-/

namespace Installer.LogicalPath

def isSeparator (c : Char) : Bool :=
  c == '\\' || c == '/'

/-- The names that a path is made of. -/
def components (path : String) : List String :=
  ((path.toList.splitOnP isSeparator).filter fun name => !name.isEmpty).map String.ofList

def ofComponents (names : List String) : String :=
  "\\".intercalate names

/-- Every non-empty initial part of a path, the whole path first. -/
def initials (path : String) : List String :=
  let names := components path
  (List.range names.length).reverse.map fun n => ofComponents (names.take (n + 1))

/-- The last name of a path of files; the whole text when it has no separator. -/
def fileName (path : String) : String :=
  String.ofList (Text.afterLast isSeparator path.toList)

/-- The last name of a path of files, without what follows its last full stop. -/
def fileStem (path : String) : String :=
  String.ofList (Text.stem (Text.afterLast isSeparator path.toList))

/-- The path starts at a root or on a named drive. -/
def isAbsolute (path : String) : Bool :=
  match path.toList with
  | _ :: ':' :: _ => true
  | c :: _ => isSeparator c
  | [] => false

/-- `path` as seen from the directory `base`; an absolute path, or any path when there is no base,
stays as it is. -/
def under (base path : String) : String :=
  if base.isEmpty || isAbsolute path then path
  else
    match base.toList.getLast? with
    | some c => if isSeparator c then base ++ path else base ++ "\\" ++ path
    | none => path

end Installer.LogicalPath
