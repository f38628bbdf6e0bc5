import Installer.Project.Attributes
import Installer.Project.Choice

/-! # Custom actions

What a project does beside installing, and where in the installation it is done.
-/

namespace Installer

/-! ## Placement -/

/-- On which side of its anchor an action runs. -/
inductive When where
  | before
  | after
deriving DecidableEq, Repr

instance : Choice When where
  all := [.before, .after]
  name
    | .before => "Before"
    | .after => "After"

inductive Step where
  /-- The action declared just before. -/
  | previousAction
  /-- The action declared just before; the start of the installation for the first one. -/
  | previousActionOrInstallInitialize
  /-- The action declared just before; the end of the installation for the first one. -/
  | previousActionOrInstallFinalize
  /-- An action of the given name. -/
  | named (name : String)
deriving DecidableEq, Repr

namespace Step

def installInitialize : String :=
  "InstallInitialize"

def installFinalize : String :=
  "InstallFinalize"

def findRelatedProducts : String :=
  "FindRelatedProducts"

def ofString (name : String) : Step :=
  if name = "PreviousAction" then .previousAction
  else if name = "PreviousActionOrInstallInitialize" then .previousActionOrInstallInitialize
  else if name = "PreviousActionOrInstallFinalize" then .previousActionOrInstallFinalize
  else .named name

def toString : Step → String
  | .previousAction => "PreviousAction"
  | .previousActionOrInstallInitialize => "PreviousActionOrInstallInitialize"
  | .previousActionOrInstallFinalize => "PreviousActionOrInstallFinalize"
  | .named name => name

end Step

/-- The tables of actions that an installation runs through. -/
inductive Sequence where
  | installExecute
  | installUI
  | adminExecute
  | adminUI
  | advertiseExecute
deriving DecidableEq, Repr

instance : Choice Sequence where
  all := [.installExecute, .installUI, .adminExecute, .adminUI, .advertiseExecute]
  name
    | .installExecute => "InstallExecuteSequence"
    | .installUI => "InstallUISequence"
    | .adminExecute => "AdminExecuteSequence"
    | .adminUI => "AdminUISequence"
    | .advertiseExecute => "AdvertiseExecuteSequence"

/-- How the installer treats the result of an action. -/
inductive Return where
  | check
  | ignore
  | asyncNoWait
  | asyncWait
deriving DecidableEq, Repr

instance : Choice Return where
  all := [.check, .ignore, .asyncNoWait, .asyncWait]
  name
    | .check => "check"
    | .ignore => "ignore"
    | .asyncNoWait => "asyncNoWait"
    | .asyncWait => "asyncWait"

/-- In which phase of the installation an action runs. -/
inductive Execute where
  | immediate
  | deferred
  | rollback
  | commit
  | oncePerProcess
  | firstSequence
  | secondSequence
deriving DecidableEq, Repr

instance : Choice Execute where
  all := [.immediate, .deferred, .rollback, .commit, .oncePerProcess, .firstSequence,
    .secondSequence]
  name
    | .immediate => "immediate"
    | .deferred => "deferred"
    | .rollback => "rollback"
    | .commit => "commit"
    | .oncePerProcess => "oncePerProcess"
    | .firstSequence => "firstSequence"
    | .secondSequence => "secondSequence"

/-! ## Actions -/

inductive ActionKind where
  /-- Gives a property a value. -/
  | setProperty (property value : String)
  /-- Runs a script that stands in the project. -/
  | script (code : String)
  /-- Calls a procedure of a script file. -/
  | scriptFile (scriptFile procedure : String)
  /-- Calls a method of a managed assembly; a deferred call sees the listed properties, each given
  as `NAME` or `NAME=value`. -/
  | managed (assembly method : String) (usesProperties : List String)
  /-- Runs a command line without a window. -/
  | quietCommand (program args : String)
  /-- Runs a file that the package installs. -/
  | installedFile (fileKey args : String)
  /-- Runs a program that the package carries. -/
  | binaryFile (binaryKey args : String)
  /-- Runs a program of the target machine. -/
  | pathFile (program args workingDir : String)
deriving DecidableEq, Repr

structure CustomAction where
  name : String
  id : Option String := none
  kind : ActionKind
  placed : When := .after
  step : Step := .named Step.installFinalize
  /-- A number in the sequence, which counts more than the step. -/
  sequenceNumber : Option UInt32 := none
  /-- The sequences that run the action; none at all where the list is empty. -/
  sequences : List Sequence := [.installExecute]
  condition : String := "1"
  execute : Execute := .immediate
  result : Return := .check
  impersonate : Bool := true
  attributes : Attributes := .empty

end Installer
