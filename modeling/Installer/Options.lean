import Installer.Files.Access
import Installer.Files.Path
import Installer.Json.Record
import Installer.Manifest.Codec
import Installer.Project.Choice

/-! # Options

The options of a compilation, the files that hold them, and where such a file is looked for.
-/

namespace Installer

open Json (Value)

inductive OutputType where
  /-- An installer package. -/
  | msi
  /-- A merge module. -/
  | msm
deriving DecidableEq, Repr

instance : Choice OutputType where
  all := [.msi, .msm]
  name
    | .msi => "msi"
    | .msm => "msm"

structure Options where
  /-- The id of the installation directory where it has none; empty for no such id. -/
  installDirDefaultId : String := "INSTALLDIR"
  /-- Packages for 64-bit machines use the 64-bit folders. -/
  map64InstallDirs : Bool := true
  /-- Files written on the way are kept. -/
  preserveTempFiles : Bool := false
  /-- A licence may be in any format. -/
  allowNonRtfLicense : Bool := false
  outputType : OutputType := .msi
  /-- More arguments for the compile stage. -/
  candleOptions : String := "-sw1026"
  /-- More arguments for the link stage. -/
  lightOptions : String := "-sw1076 -sw1079"
  /-- The directory of the toolchain. -/
  wixLocation : Option String := none
deriving DecidableEq

namespace Options

/-! ## The written form -/

instance : Codec Options where
  encode options := .object
    [("installDirDefaultId", encode options.installDirDefaultId),
     ("map64InstallDirs", encode options.map64InstallDirs),
     ("preserveTempFiles", encode options.preserveTempFiles),
     ("allowNonRtfLicense", encode options.allowNonRtfLicense),
     ("outputType", encode options.outputType),
     ("candleOptions", encode options.candleOptions),
     ("lightOptions", encode options.lightOptions),
     ("wixLocation", encode options.wixLocation)]
  decodeVia? route v := do
    let members ← v.fields?
      ["installDirDefaultId", "map64InstallDirs", "preserveTempFiles", "allowNonRtfLicense",
       "outputType", "candleOptions", "lightOptions", "wixLocation"]
    return {
      installDirDefaultId := ← orDefault route members "installDirDefaultId" "INSTALLDIR"
      map64InstallDirs := ← orDefault route members "map64InstallDirs" true
      preserveTempFiles := ← orDefault route members "preserveTempFiles" false
      allowNonRtfLicense := ← orDefault route members "allowNonRtfLicense" false
      outputType := ← orDefault route members "outputType" .msi
      candleOptions := ← orDefault route members "candleOptions" "-sw1026"
      lightOptions := ← orDefault route members "lightOptions" "-sw1076 -sw1079"
      wixLocation := ← optional route members "wixLocation" }

/-- The members of an options file as they are read. Members of other names are passed over. -/
def record : Json.Record where
  fields :=
    [("installDirDefaultId", .text),
     ("map64InstallDirs", .flag),
     ("preserveTempFiles", .flag),
     ("allowNonRtfLicense", .flag),
     ("outputType", .choice ((Choice.all : List OutputType).map Choice.name)),
     ("candleOptions", .text),
     ("lightOptions", .text),
     ("wixLocation", .textOrNull)]
  others := .ignored

def ofJson (text : String) : Except Json.Fault Options := do
  let (members, rest) ← record.readListed text.toList
  Json.readEnd rest
  match decode? (.object members) with
  | some options => .ok options
  | none => .error .misfit

/-! ## Files -/

inductive LoadFault where
  | read (path : String) (fault : FileFault)
  | parse (path : String) (fault : Json.Fault)
deriving DecidableEq

/-- The text that is shown for a fault, up to the reason. -/
def LoadFault.message : LoadFault → String
  | .read path _ => "Failed to read config file " ++ path
  | .parse path _ => "Failed to parse config file " ++ path

variable {m : Type → Type} [Monad m] [FileAccess m]

def load (path : String) : m (Except LoadFault Options) := do
  match ← FileAccess.read path with
  | .error fault => return .error (.read path fault)
  | .ok text => return (ofJson text).mapError (.parse path)

/-- The names under which options are looked for, the preferred one first. -/
def fileNames : List String :=
  [".wixtreerc.json", "wixtree.json"]

/-- The options in the first of the files that holds some; a file that holds none is passed over. -/
def loadFirst? : List String → m (Option Options)
  | [] => return none
  | path :: rest => do
    if ← FileAccess.pathExists path then
      match ← load path with
      | .ok options => return some options
      | .error _ => loadFirst? rest
    else loadFirst? rest

/-- A directory and those it is in, as far as its path tells, of which there are at most `depth`. -/
def enclosing : Nat → String → List String
  | 0, _ => []
  | depth + 1, dir =>
    match Path.parent? dir with
    | some parent => dir :: enclosing depth parent
    | none => [dir]

/-- The options in the nearest file at or above a directory. -/
def findAndLoad? (start : String) : m (Option Options) :=
  loadFirst? <| (enclosing (start.length + 1) start).flatMap fun dir =>
    fileNames.map (Path.join dir)

end Options

end Installer
