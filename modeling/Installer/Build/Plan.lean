import Installer.Error
import Installer.Files.Path
import Installer.Options
import Installer.Source.Extension
import Installer.Text.Blank

/-! # Toolchains and build plans

A source document becomes a package in two stages: one program compiles it, the other links what the
first one leaves. A toolchain says where the two programs are, and a plan how both are called.
-/

namespace Installer

/-! ## Toolchains

The programs are found in a directory that the surroundings or the options name, or else among the
programs on the search path.
-/

/-- What the surroundings of a run say about programs. -/
structure Surroundings where
  /-- The directory of the toolchain, which counts more than the one in the options; an empty name
  counts for nothing. -/
  toolchainDir : Option String := none
  /-- The directories of the search path. -/
  searchPath : List String := []

/-- The programs of the two stages. -/
structure Toolchain where
  candle : String
  light : String
deriving DecidableEq, Repr

namespace Toolchain

/-- The programs by name alone, to be found when they are run. -/
def unresolved : Toolchain where
  candle := "candle.exe"
  light := "light.exe"

/-- The programs in a directory, whether they are there or not. -/
def inDir (dir : String) : Toolchain where
  candle := Path.join dir unresolved.candle
  light := Path.join dir unresolved.light

def dir? (surroundings : Surroundings) (options : Options) : Option String :=
  (surroundings.toolchainDir.filter fun dir => !dir.isEmpty).or options.wixLocation

variable {m : Type → Type} [Monad m] [FileAccess m]

def programIn (dir name : String) : String :=
  String.ofList (Path.withoutLeadingDots false (Path.join dir name).toList)

def findProgram? (name : String) : List String → m (Option String)
  | [] => return none
  | dir :: rest => do
    if ← FileAccess.isProgram (programIn dir name) then return some (programIn dir name)
    else findProgram? name rest

/-- The toolchain in a directory, where both programs must be there. -/
def locateIn (dir : String) : m (Except CompileError Toolchain) := do
  let toolchain := inDir dir
  if ← FileAccess.isFile toolchain.candle then
    if ← FileAccess.isFile toolchain.light then return .ok toolchain
    else return .error (.toolchainNotFound toolchain.light)
  else return .error (.toolchainNotFound toolchain.candle)

def locateOn (searchPath : List String) : m (Except CompileError Toolchain) := do
  match ← findProgram? "candle" searchPath with
  | none => return .error (.toolchainNotFound unresolved.candle)
  | some candle =>
    match ← findProgram? "light" searchPath with
    | none => return .error (.toolchainNotFound unresolved.light)
    | some light => return .ok { candle, light }

def locate (surroundings : Surroundings) (options : Options) : m (Except CompileError Toolchain) :=
  match dir? surroundings options with
  | some dir => locateIn dir
  | none => locateOn surroundings.searchPath

end Toolchain

/-! ## Plans -/

/-- The call of one program. -/
structure Stage where
  program : String
  args : List String
deriving DecidableEq, Repr

namespace Stage

/-- An argument in quotes if it is empty or holds a blank, so that it stays one word. -/
def quoted (arg : String) : String :=
  if arg.isEmpty || arg.toList.any Text.isBlank then "\"" ++ arg ++ "\"" else arg

def commandLine (stage : Stage) : String :=
  " ".intercalate ((stage.program :: stage.args).map quoted)

end Stage

/-- The calls that make a package, with the files that they leave. -/
structure BuildPlan where
  compile : Stage
  link : Stage
  package : String
  /-- Files that are of no use once the package is there. -/
  intermediates : List String
deriving DecidableEq, Repr

namespace BuildPlan

/-- The arguments that an option text gives. -/
def extraArgs (text : String) : List String :=
  (Text.words text.toList).map String.ofList

def extensionArgs (extensions : List Extension) : List String :=
  extensions.flatMap fun extension => ["-ext", extension.library]

/-- The plan for a source document that needs the given extensions. -/
def ofSource (toolchain : Toolchain) (options : Options) (source : String)
    (extensions : List Extension) (culture : String) : BuildPlan :=
  let object := Path.withExtension source "wixobj"
  let package := Path.withExtension source (Choice.name options.outputType)
  { compile :=
      { program := toolchain.candle
        args :=
          extraArgs options.candleOptions ++ extensionArgs extensions ++ [source, "-out", object] }
    link :=
      { program := toolchain.light
        args :=
          extraArgs options.lightOptions ++ [object, "-out", package] ++ extensionArgs extensions ++
            ["-cultures:" ++ culture] }
    package
    intermediates := [object, Path.withExtension source "wixpdb"] }

end BuildPlan

end Installer
