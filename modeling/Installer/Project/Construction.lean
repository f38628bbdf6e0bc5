import Installer.Project.Basic

/-! # Making projects step by step

Functions that add one thing to a description, or say in one word what takes several fields. All
other fields are set directly.
-/

namespace Installer

/-! ## Directories and files -/

def Permission.grant (permission : Permission) (right : String) : Permission :=
  { permission with rights := permission.rights ++ [right] }

namespace File

def addShortcut (file : File) (shortcut : Shortcut) : File :=
  { file with shortcuts := file.shortcuts ++ [shortcut] }

def addAssociation (file : File) (association : FileAssociation) : File :=
  { file with associations := file.associations ++ [association] }

def addPermission (file : File) (permission : Permission) : File :=
  { file with permissions := file.permissions ++ [permission] }

def inAssemblyCache (file : File) (architecture : ProcessorArchitecture) : File :=
  { file with registerInGac := true, processorArchitecture := architecture }

end File

namespace Dir

def addDir (dir sub : Dir) : Dir :=
  { dir with dirs := dir.dirs ++ [sub] }

def addFile (dir : Dir) (file : File) : Dir :=
  { dir with files := dir.files ++ [file] }

def addShortcut (dir : Dir) (shortcut : Shortcut) : Dir :=
  { dir with shortcuts := dir.shortcuts ++ [shortcut] }

def addPermission (dir : Dir) (permission : Permission) : Dir :=
  { dir with permissions := dir.permissions ++ [permission] }

def addMergeModule (dir : Dir) (module : MergeModule) : Dir :=
  { dir with mergeModules := dir.mergeModules ++ [module] }

end Dir

/-! ## Features, actions and variables -/

namespace Feature

/-- The feature, to be installed only if the user says so. -/
def disabled (feature : Feature) : Feature :=
  { feature with isEnabled := false }

/-- The feature, which the user cannot leave out. -/
def mandatory (feature : Feature) : Feature :=
  { feature with allowChange := false }

end Feature

namespace CustomAction

def deferred (action : CustomAction) : CustomAction :=
  { action with execute := .deferred, impersonate := false }

/-- The action with the properties that it sees, if it calls a managed assembly. -/
def withProperties (action : CustomAction) (properties : List String) : CustomAction :=
  match action.kind with
  | .managed assembly method _ => { action with kind := .managed assembly method properties }
  | _ => action

end CustomAction

/-- The variable, whose value goes behind the one that is there. -/
def EnvVar.appended (var : EnvVar) : EnvVar :=
  { var with part := some .last }

end Installer
