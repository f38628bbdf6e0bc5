import Installer.Command.Arguments
import Installer.Guid.Basic

/-! # Commands

The commands of the program, and how a command line gives one.
-/

namespace Installer

inductive Command where
  /-- Writes the source document of a manifest. -/
  | compile (manifest : String) (output config : Option String) (isModule keepsFiles : Bool)
  /-- Compiles a manifest and reports what it gives. -/
  | validate (manifest : String) (config : Option String)
  /-- Prints the calls that would make the package. -/
  | plan (manifest : String) (config : Option String) (isModule : Bool)
  /-- Prints a GUID: that of a component, or a random one. -/
  | guid (id : Option String) (seed : Option Guid) (isRandom : Bool) (format : String)

namespace Command

/-! ## Options -/

/-- Asks for a log of the run. Commands keep none, so it changes nothing. -/
def verboseOption : OptionSpec := { name := "verbose", letter := 'v' }

def versionOption : OptionSpec := { name := "version", letter := 'V' }

/-- Names the file for the source document. -/
def outputOption : OptionSpec := { name := "output", letter := 'o', hasValue := true }

def configOption : OptionSpec := { name := "config", letter := 'c', hasValue := true }

def moduleOption : OptionSpec := { name := "msm" }

/-- Keeps files that are written on the way. -/
def keepOption : OptionSpec := { name := "keep", letter := 'k' }

def seedOption : OptionSpec := { name := "seed", letter := 's', hasValue := true }

def randomOption : OptionSpec := { name := "random", letter := 'r' }

def formatOption : OptionSpec :=
  { name := "format", letter := 'f', hasValue := true, mayBeEmpty := true }

/-! ## Commands from arguments -/

/-- The only other argument, which is a path. -/
def pathArgument (args : Arguments) : Except Usage String :=
  match args.others with
  | [path] => if path.isEmpty then .error .wrong else .ok path
  | _ => .error .wrong

def seedArgument (args : Arguments) : Except Usage (Option Guid) :=
  match args.value? seedOption.name with
  | none => .ok none
  | some text =>
    match Guid.ofString? text with
    | some seed => .ok (some seed)
    | none => .error .wrong

/-- The only other argument, if there is one. -/
def optionalArgument (args : Arguments) : Except Usage (Option String) :=
  match args.others with
  | [] => .ok none
  | [arg] => .ok (some arg)
  | _ => .error .wrong

/-- The options of a command by its name, and the command that they and other arguments make. -/
def reader? (name : String) : Option (List OptionSpec × (Arguments → Except Usage Command)) :=
  match name with
  | "compile" =>
    some ([outputOption, configOption, moduleOption, keepOption], fun args => do
      return .compile (← pathArgument args) (args.value? outputOption.name)
        (args.value? configOption.name) (args.has moduleOption.name) (args.has keepOption.name))
  | "validate" =>
    some ([configOption], fun args => do
      return .validate (← pathArgument args) (args.value? configOption.name))
  | "plan" =>
    some ([configOption, moduleOption], fun args => do
      return .plan (← pathArgument args) (args.value? configOption.name)
        (args.has moduleOption.name))
  | "guid" =>
    some ([seedOption, randomOption, formatOption], fun args => do
      return .guid (← optionalArgument args) (← seedArgument args) (args.has randomOption.name)
        ((args.value? formatOption.name).getD "hyphens"))
  | _ => none

def ofArgs (args : List String) : Except Usage Command := do
  let (before, rest) ← readArguments [verboseOption, versionOption] true (args.length + 1) {} args
  if before.has versionOption.name then .error .version
  else
    match rest with
    | [] => .error .wrong
    | "help" :: _ => .error .help
    | name :: rest =>
      match reader? name with
      | none => .error .wrong
      | some (specs, make) =>
        let (after, _) ← readArguments (verboseOption :: specs) false (rest.length + 1) {} rest
        make after

end Command

end Installer
