import Installer.Text.Search

/-! # File paths

Paths of files on the machine that builds the package. A slash separates the names of a path, and a
path that begins with one is absolute. Slashes at the end and names `.` after the first count for
nothing.
-/

namespace Installer.Path

/-- The path without slashes and names `.` at its end, all with the last character first. -/
def trimReversed : List Char → List Char
  | ['/'] => ['/']
  | '/' :: rest => trimReversed rest
  | '.' :: '/' :: rest => trimReversed ('/' :: rest)
  | path => path

def trimmed (path : String) : List Char :=
  (trimReversed path.toList.reverse).reverse

def isSlash (c : Char) : Bool :=
  c == '/'

/-- The part of the path before its last name, up to a slash or empty. -/
def directoryPart (path : String) : List Char :=
  ((trimmed path).reverse.dropWhile fun c => !isSlash c).reverse

/-- The last name of the path, `none` where the path ends in no proper name. -/
def fileName? (path : String) : Option String :=
  let name := String.ofList (Text.afterLast isSlash (trimmed path))
  if name ∈ ["", ".", ".."] then none else some name

def parent? (path : String) : Option String :=
  if trimmed path ∈ [[], ['/']] then none
  else some (String.ofList (trimmed (String.ofList (directoryPart path))))

/-- What follows the last full stop of the last name. -/
def extension? (path : String) : Option String := do
  let name := (← fileName? path).toList
  if Text.stem name = name then none else some (String.ofList (Text.afterLast (· == '.') name))

/-- The path with an ending put behind the stem of its last name, in place of the one it has;
unchanged where there is no such name. -/
def setExtension (path ending : String) : String :=
  match fileName? path with
  | none => path
  | some name => String.ofList (directoryPart path ++ Text.stem name.toList ++ '.' :: ending.toList)

/-- The path with another ending of its last name. The old ending is cut off the end of the path
first, and where this leaves no proper name, as it does of `..x`, no other ending is put there. -/
def withExtension (path ending : String) : String :=
  let old := (extension? path).getD ""
  setExtension (String.ofList (path.toList.take (path.length - old.length))) ending

/-- `path` as seen from the directory `base`. -/
def join (base path : String) : String :=
  match base.toList.getLast?, path.toList with
  | _, '/' :: _ => path
  | none, _ => path
  | some '/', _ => base ++ path
  | _, _ => base ++ "/" ++ path

/-- The path without names `.` at its beginning and the slashes behind them. -/
def withoutLeadingDots (afterDot : Bool) : List Char → List Char
  | ['.'] => []
  | '.' :: '/' :: rest => withoutLeadingDots true rest
  | '/' :: rest => if afterDot then withoutLeadingDots true rest else '/' :: rest
  | path => path

end Installer.Path
