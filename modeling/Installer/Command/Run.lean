import Installer.Build.Artifact
import Installer.Build.Plan
import Installer.Command.Basic
import Installer.Guid.Named
import Installer.Manifest.Format

/-! # Running commands

A command works on files and ends with lines of output or with a fault. What it needs of the world
is access to files, the surroundings, and a source of random GUIDs.
-/

namespace Installer.Command

inductive Fault where
  | options (fault : Options.LoadFault)
  /-- The manifest could not be read. -/
  | manifest (path : String) (reason : CompileError)
  /-- The project could not be compiled or written. -/
  | compile (reason : CompileError)
  | unknownFormat (name : String)
  | missingId
  | missingSeed

def Fault.message : Fault → String
  | .options fault => fault.message
  | .manifest path _ => "Failed to load " ++ path
  | .compile reason => reason.message
  | .unknownFormat name => "Unknown GUID format: " ++ name
  | .missingId => "Either an id or --random is required"
  | .missingSeed => "--seed is required to derive a GUID from an id"

/-- What lies behind a fault, if that is more than its own text says. -/
def Fault.reason? : Fault → Option String
  | .options (.read _ fault) => some fault.message
  | .options (.parse _ fault) => some (CompileError.json fault).message
  | .manifest _ reason => some reason.message
  | _ => none

/-- What a command leaves: its output, and a fault if it failed. -/
structure Outcome where
  exitCode : UInt8
  /-- The lines of the output. -/
  lines : List String := []
  fault : Option String := none
  /-- What lies behind the fault. -/
  reason : Option String := none

namespace Outcome

def text (outcome : Outcome) : String :=
  String.join (outcome.lines.map fun line => line ++ "\n")

/-- The lines that report the fault and what lies behind it. -/
def faultLines (outcome : Outcome) : List String :=
  match outcome.fault with
  | none => []
  | some fault =>
    ("Error: " ++ fault) ::
      outcome.reason.toList.flatMap fun reason => ["", "Caused by:", "    " ++ reason]

def ofResult : Except Fault (List String) → Outcome
  | .ok lines => { exitCode := 0, lines }
  | .error fault => { exitCode := 1, fault := some fault.message, reason := fault.reason? }

end Outcome

variable {m : Type → Type} [Monad m] [FileAccess m]

/-! ## What commands share -/

abbrev Step (m : Type → Type) : Type → Type :=
  ExceptT Fault m

def attempt {ε α : Type} (fault : ε → Fault) (step : m (Except ε α)) : Step m α :=
  ExceptT.mk (do return (← step).mapError fault)

def manifestDir (manifest : String) : String :=
  (Path.parent? manifest).getD "."

/-- The options for a manifest: those in the named file, or else those in the nearest file above the
manifest, or else the usual ones. -/
def loadOptions (manifest : String) (config : Option String) (isModule : Bool) :
    Step m Options := do
  let options ← match config with
    | some path => attempt .options (Options.load path)
    | none =>
      let found ← (Options.findAndLoad? (manifestDir manifest) : m (Option Options))
      pure (found.getD {})
  return if isModule then { options with outputType := .msm } else options

def loadProject (manifest : String) : Step m Project :=
  attempt (.manifest manifest) (Manifest.load manifest)

def defaultOutput (manifest : String) (project : Project) : String :=
  Path.join (manifestDir manifest) project.sourceName

/-! ## Reports -/

def titleLines (project : Project) : List String :=
  ["  Name:        " ++ project.name, "  Version:     " ++ project.version]

def artifactLines (options : Options) (project : Project) (artifact : Artifact) : List String :=
  let output := artifact.output
  ["Generated: " ++ artifact.path, ""] ++ titleLines project ++
    ["  ProductId:   " ++ output.productId.format .braces,
     "  UpgradeCode: " ++ output.upgradeCode.format .braces] ++
    (output.installDir.toList.flatMap fun path =>
      ["", "  Auto-generated InstallDir ID:",
       "    " ++ options.installDirDefaultId ++ "=" ++ path]) ++
    output.packaging.map fun request =>
      "  Package " ++ request.assembly ++ " -> " ++ request.output

def summaryLines (project : Project) (output : Output) : List String :=
  let count (name : String) : String := toString (output.document.descendantsNamed name).length
  ["Project is valid", ""] ++ titleLines project ++
    ["  Directories: " ++ count "Directory", "  Components:  " ++ count "Component",
     "  Files:       " ++ count "File", "  Features:    " ++ count "Feature",
     "  Actions:     " ++ count "CustomAction"] ++
    if output.extensions.isEmpty then []
    else ["  Extensions:  " ++ ", ".intercalate (output.extensions.map Extension.library)]

/-! ## The commands -/

def runCompile (manifest : String) (output config : Option String) (isModule keepsFiles : Bool) :
    Step m (List String) := do
  let found ← loadOptions manifest config isModule
  let options := if keepsFiles then { found with preserveTempFiles := true } else found
  let project ← loadProject manifest
  let path := output.getD (defaultOutput manifest project)
  let artifact ← attempt .compile (project.writeSource options path)
  return artifactLines options project artifact

/-- Compiles a manifest and reports what it gives. -/
def runValidate (manifest : String) (config : Option String) : Step m (List String) := do
  let options ← loadOptions manifest config false
  let project ← loadProject manifest
  let output ← attempt .compile (pure (project.compile options))
  return summaryLines project output

/-- Prints the calls that would make the package. Programs that are not found are called by name. -/
def runPlan (surroundings : Surroundings) (manifest : String) (config : Option String)
    (isModule : Bool) : Step m (List String) := do
  let options ← loadOptions manifest config isModule
  let project ← loadProject manifest
  let output ← attempt .compile (pure (project.compile options))
  let located ← (Toolchain.locate surroundings options : m (Except CompileError Toolchain))
  let toolchain := match located with
    | .ok toolchain => toolchain
    | .error _ => .unresolved
  let plan := BuildPlan.ofSource toolchain options (defaultOutput manifest project)
    output.extensions project.language
  return [plan.compile.commandLine, plan.link.commandLine]

def runGuid (randomGuid : m Guid) (id : Option String) (seed : Option Guid) (isRandom : Bool)
    (format : String) : Step m (List String) := do
  match Guid.Style.ofName? format with
  | none => throw (.unknownFormat format)
  | some style =>
    let guid ← if isRandom then (randomGuid : Step m Guid)
      else
        match id, seed with
        | none, _ => throw .missingId
        | some _, none => throw .missingSeed
        | some id, some seed => pure (seed.ofComponent id)
    return [guid.format style]

def run (surroundings : Surroundings) (randomGuid : m Guid) (command : Command) : m Outcome := do
  let result : Step m (List String) := match command with
    | .compile manifest output config isModule keepsFiles =>
      runCompile manifest output config isModule keepsFiles
    | .validate manifest config => runValidate manifest config
    | .plan manifest config isModule => runPlan surroundings manifest config isModule
    | .guid id seed isRandom format => runGuid randomGuid id seed isRandom format
  return .ofResult (← result.run)

/-! ## The whole program -/

def helpLines : List String :=
  ["Declarative project tree to WiX source compiler", "",
   "Usage: wix-tree [--verbose] COMMAND", "",
   "Commands:",
   "  compile MANIFEST [-o FILE] [-c FILE] [--msm] [-k]   write the WiX source",
   "  validate MANIFEST [-c FILE]                         compile and report",
   "  plan MANIFEST [-c FILE] [--msm]                     print the toolchain commands",
   "  guid [ID] [-s GUID] [-r] [-f FORMAT]                print a GUID"]

/-- The outcome of a command line that gives no command. -/
def Usage.outcome : Usage → Outcome
  | .wrong => { exitCode := 2, fault := some "wrong usage, see --help" }
  | .help => { exitCode := 0, lines := helpLines }
  | .version => { exitCode := 0, lines := ["wix-tree 0.1.0"] }

def runArgs (surroundings : Surroundings) (randomGuid : m Guid) (args : List String) :
    m Outcome := do
  match ofArgs args with
  | .error usage => return usage.outcome
  | .ok command => run surroundings randomGuid command

end Installer.Command
