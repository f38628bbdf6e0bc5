import Installer.Files.Access
import Installer.Files.Path

/-! # Files in memory

A file tree is a value that answers the same operations as the file system below one directory, so
that whatever works on files can be run and reasoned about without any. The directory is in others,
without end, in which there is nothing else.
-/

namespace Installer

structure StoredFile where
  text : String
  executable : Bool := false
deriving DecidableEq

/-- The files and directories there are besides the current directory and those it is in, by the
names that lead to them from the current one. Names `..` stand only at the beginning. -/
structure FileTree where
  files : List (List String × StoredFile) := []
  dirs : List (List String) := []

namespace FileTree

/-! ## Finding -/

def hasDir (tree : FileTree) (names : List String) : Bool :=
  names.all (· == "..") || tree.dirs.contains names

/-- The names of what the directory `here` is in. -/
def above (here : List String) : List String :=
  if here.all (· == "..") then here ++ [".."] else here.dropLast

def file? (tree : FileTree) (names : List String) : Option StoredFile :=
  tree.files.lookup names

def maxNameSize : Nat :=
  255

def maxPathSize : Nat :=
  4095

/-- The fault of asking for something in what the names lead to, where that is no directory. -/
def noDirFault (tree : FileTree) (names : List String) : FileFault :=
  if (tree.file? names).isSome then .notDirectory else .notFound

/-- Follows the names of a path from the directory `here`. Only the last name may lead nowhere. -/
def walk (tree : FileTree) : List String → List String → Except FileFault (List String)
  | here, [] => .ok here
  | here, name :: rest =>
    if tree.hasDir here then
      if name ∈ ["", "."] then walk tree here rest
      else if name = ".." then walk tree (above here) rest
      else if maxNameSize < name.utf8ByteSize then .error .nameTooLong
      else walk tree (here ++ [name]) rest
    else .error (tree.noDirFault here)

/-- The names in a path. Absolute paths and the empty path have none that lead anywhere. -/
def namesOf (path : String) : Except FileFault (List String) :=
  match path.toList with
  | [] | '/' :: _ => .error .notFound
  | chars =>
    if chars.contains '\x00' then .error .nullInPath
    else if maxPathSize < path.utf8ByteSize then .error .nameTooLong
    else .ok ((chars.splitOnP Path.isSlash).map String.ofList)

/-- The names that a path leads along. -/
def resolve (tree : FileTree) (path : String) : Except FileFault (List String) := do
  tree.walk [] (← namesOf path)

def find (tree : FileTree) (path : String) : Except FileFault StoredFile := do
  let names ← tree.resolve path
  match tree.file? names with
  | some file => .ok file
  | none => .error (if tree.hasDir names then .isDirectory else .notFound)

def pathExists (tree : FileTree) (path : String) : Bool :=
  match tree.resolve path with
  | .ok names => tree.hasDir names || (tree.file? names).isSome
  | .error _ => false

def isFileWith (tree : FileTree) (p : StoredFile → Bool) (path : String) : Bool :=
  match tree.find path with
  | .ok file => p file
  | .error _ => false

/-! ## Changing -/

def makeDir (tree : FileTree) (path : String) : Except FileFault FileTree := do
  let names ← tree.resolve path
  if tree.hasDir names || (tree.file? names).isSome then .error .alreadyExists
  else if tree.hasDir names.dropLast then .ok { tree with dirs := tree.dirs ++ [names] }
  else .error (tree.noDirFault names.dropLast)

def isDir (tree : FileTree) (path : String) : Bool :=
  match tree.resolve path with
  | .ok names => tree.hasDir names
  | .error _ => false

/-- Makes a directory with those it is in, which are at most `depth`. -/
def makeDirsWithin : Nat → FileTree → String → Except FileFault FileTree
  | 0, tree, _ => .ok tree
  | depth + 1, tree, path =>
    if path.isEmpty then .ok tree
    else
      match tree.makeDir path with
      | .ok tree => .ok tree
      | .error .notFound => do
        let tree ← makeDirsWithin depth tree ((Path.parent? path).getD "")
        match tree.makeDir path with
        | .ok tree => .ok tree
        | .error fault => if tree.isDir path then .ok tree else .error fault
      | .error fault => if tree.isDir path then .ok tree else .error fault

def makeDirs (tree : FileTree) (path : String) : Except FileFault FileTree :=
  makeDirsWithin (path.length + 1) tree path

def putFile (names : List String) (file : StoredFile) :
    List (List String × StoredFile) → List (List String × StoredFile)
  | [] => [(names, file)]
  | entry :: rest =>
    if entry.1 = names then (names, { file with executable := entry.2.executable }) :: rest
    else entry :: putFile names file rest

/-- Puts a text into a file. A path with a slash at its end can only be that of a directory. -/
def write (tree : FileTree) (path text : String) : Except FileFault FileTree := do
  let written := (← namesOf path).reverse
  let last := (written.dropWhile String.isEmpty).reverse
  if written.head? = some "" ∧ last.getLast?.all (· ∉ [".", ".."]) then
    let dir ← tree.walk [] last.dropLast
    .error (if tree.hasDir dir then .isDirectory else tree.noDirFault dir)
  else
    let names ← tree.walk [] last
    if tree.hasDir names then .error .isDirectory
    else if tree.hasDir names.dropLast then
      .ok { tree with files := putFile names { text } tree.files }
    else .error (tree.noDirFault names.dropLast)

def remove (tree : FileTree) (path : String) : Except FileFault FileTree := do
  let names ← tree.resolve path
  match tree.file? names with
  | some _ => .ok { tree with files := tree.files.filter fun entry => entry.1 != names }
  | none => .error (if tree.hasDir names then .isDirectory else .notFound)

def filesBelow (tree : FileTree) : List (List String × StoredFile) :=
  tree.files.filter fun entry => entry.1.head? != some ".."

def paths (tree : FileTree) : List String :=
  tree.filesBelow.map fun entry => "/".intercalate entry.1

/-! ## The operations as actions -/

/-- Runs a change, which leaves the tree as it is when it fails. -/
def change (f : FileTree → Except FileFault FileTree) : StateM FileTree (Except FileFault Unit) :=
  fun tree =>
    match f tree with
    | .ok changed => (.ok (), changed)
    | .error fault => (.error fault, tree)

instance : FileAccess (StateM FileTree) where
  read path := fun tree => ((tree.find path).map StoredFile.text, tree)
  pathExists path := fun tree => (tree.pathExists path, tree)
  isFile path := fun tree => (tree.isFileWith (fun _ => true) path, tree)
  isProgram path := fun tree => (tree.isFileWith StoredFile.executable path, tree)
  makeDirs path := change (·.makeDirs path)
  write path text := change (·.write path text)
  remove path := change (·.remove path)

end FileTree

end Installer
