import Installer.Files.Path
import Installer.Output

/-! # Written source documents

A compiled project is written to a file, either for its own sake or as a step towards a package. In
the second case the file is temporary and is removed at the end unless the options keep it.
-/

namespace Installer

/-- A source document in a file. -/
structure Artifact where
  path : String
  /-- The files to remove at the end. -/
  tempFiles : List String := []
  output : Output
  /-- Temporary files are kept. -/
  keepsTempFiles : Bool := false

def Project.sourceName (project : Project) : String :=
  project.outFileName.getD project.name ++ ".wxs"

variable {m : Type → Type} [Monad m] [FileAccess m]

/-- Writes a text to a file, in a directory that is made if need be. -/
def writeBelow (path text : String) : m (Except FileFault Unit) := do
  let made ← match (Path.parent? path).filter fun dir => !dir.isEmpty with
    | some dir => FileAccess.makeDirs dir
    | none => pure (.ok ())
  match made with
  | .error fault => return .error fault
  | .ok () => FileAccess.write path text

namespace Project

def writeSource (options : Options) (project : Project) (path : String) :
    m (Except CompileError Artifact) := do
  match project.compile options with
  | .error e => return .error e
  | .ok output =>
    match ← writeBelow path output.toText with
    | .error fault => return .error (.file fault)
    | .ok () => return .ok { path, output, keepsTempFiles := options.preserveTempFiles }

def stageSource (options : Options) (project : Project) (dir : String) :
    m (Except CompileError Artifact) := do
  let path := Path.join dir project.sourceName
  return (← project.writeSource options path).map fun artifact =>
    { artifact with tempFiles := artifact.tempFiles ++ [path] }

end Project

namespace Artifact

/-- Removes those of the files that are there. Returns them. -/
def removeAll : List String → m (Except FileFault (List String))
  | [] => return .ok []
  | path :: rest => do
    if ← FileAccess.pathExists path then
      match ← FileAccess.remove path with
      | .error fault => return .error fault
      | .ok () => return (← removeAll rest).map (path :: ·)
    else removeAll rest

def cleanup (artifact : Artifact) : m (Except CompileError (List String)) := do
  if artifact.keepsTempFiles then return .ok []
  else return (← removeAll artifact.tempFiles).mapError .file

end Artifact

end Installer
