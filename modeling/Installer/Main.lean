import Installer.Command.Run

/-! # The program

Access to the file system, and the command line itself.
-/

namespace Installer

def FileFault.ofError : IO.Error → FileFault
  | .noFileOrDirectory _ _ _ | .noSuchThing _ _ _ => .notFound
  | .alreadyExists _ _ _ => .alreadyExists
  | .inappropriateType _ code _ => if code = 21 then .isDirectory else .notDirectory
  | .invalidArgument _ code _ => if code = 36 then .nameTooLong else .nullInPath
  | e => .other (toString e)

/-- Runs an action on files and keeps its fault. -/
def FileFault.catchFault {α : Type} (action : IO α) : IO (Except FileFault α) := do
  match ← action.toBaseIO with
  | .ok a => return .ok a
  | .error e => return .error (.ofError e)

def fileAt (path : String) :=
  (fun dir => dir / path) <$> IO.currentDir

def isFileAt (path : String) : IO Bool := do
  let file ← fileAt path
  return (← file.pathExists) && !(← file.isDir)

instance : FileAccess IO where
  read path := FileFault.catchFault do IO.FS.readFile (← fileAt path)
  pathExists path := do (← fileAt path).pathExists
  isFile := isFileAt
  isProgram := isFileAt
  makeDirs path := FileFault.catchFault do IO.FS.createDirAll (← fileAt path)
  write path text := FileFault.catchFault do IO.FS.writeFile (← fileAt path) text
  remove path := FileFault.catchFault do IO.FS.removeFile (← fileAt path)

def Surroundings.get : IO Surroundings := do
  let path := (← IO.getEnv "PATH").getD ""
  return {
    toolchainDir := ← IO.getEnv "WIX_TREE_WIXDIR"
    searchPath := (path.toList.splitOn ':').map String.ofList }

end Installer

open Installer in
def main (args : List String) : IO UInt32 := do
  let randomGuid : IO Guid := return .ofRandom (← IO.getRandomBytes 16).data.toList
  let outcome ← Command.runArgs (← Surroundings.get) randomGuid args
  IO.print outcome.text
  for line in outcome.faultLines do
    IO.eprintln line
  return outcome.exitCode.toUInt32
