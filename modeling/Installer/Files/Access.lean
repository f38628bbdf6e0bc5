/-! # Access to files

What the library asks of a file system, and how that can fail.
-/

namespace Installer

inductive FileFault where
  | notFound
  | alreadyExists
  | isDirectory
  | notDirectory
  /-- A path or a name in it is too long. -/
  | nameTooLong
  /-- There is a null character in a path. -/
  | nullInPath
  | other (reason : String)
deriving DecidableEq, Repr

def FileFault.message : FileFault → String
  | .notFound => "No such file or directory (os error 2)"
  | .alreadyExists => "File exists (os error 17)"
  | .isDirectory => "Is a directory (os error 21)"
  | .notDirectory => "Not a directory (os error 20)"
  | .nameTooLong => "File name too long (os error 36)"
  | .nullInPath => "file name contained an unexpected NUL byte"
  | .other reason => reason

/-- The operations on files that the library uses, as actions of `m`. -/
class FileAccess (m : Type → Type) where
  /-- The text of a file. -/
  read : String → m (Except FileFault String)
  /-- There is a file or directory at the path. -/
  pathExists : String → m Bool
  /-- There is a file at the path. -/
  isFile : String → m Bool
  /-- There is a file at the path that can be run. -/
  isProgram : String → m Bool
  /-- Makes a directory with those it is in. -/
  makeDirs : String → m (Except FileFault Unit)
  /-- Puts a text into a file, which is made if need be. -/
  write : String → String → m (Except FileFault Unit)
  /-- Removes a file. -/
  remove : String → m (Except FileFault Unit)

end Installer
