import Installer.Files.Access
import Installer.Json.Reader

/-! # Errors

Everything that can stop a project from being read or compiled, by cause.
-/

namespace Installer

inductive CompileError where
  /-- The first action is placed against an action before it. -/
  | previousActionUnavailable (action : String)
  /-- An item of a manifest is of no known kind. -/
  | unrecognizedEntity (kind : String)
  /-- A merge module belongs to the default feature, which is not written. -/
  | mergeModuleWithoutFeature (module defaultFeature : String)
  /-- The licence is in a format that the dialogs cannot show. -/
  | licenseNotRtf (path : String)
  /-- An entity belongs to a feature that the project does not declare. -/
  | unknownFeature (entity feature : String)
  /-- A reference to a property names none. -/
  | emptyPropertyRef
  /-- No culture has the name of the project's language. -/
  | unknownLanguage (language : String)
  /-- A program of the toolchain is not there. -/
  | toolchainNotFound (program : String)
  /-- A file could not be read or written. -/
  | file (fault : FileFault)
  /-- A text is no manifest in YAML. -/
  | yaml
  /-- A text is no manifest in JSON. -/
  | json (fault : Json.Fault)
deriving DecidableEq

namespace CompileError

def message : CompileError → String
  | previousActionUnavailable action =>
    "Custom action '" ++ action ++ "' is placed after the previous action, " ++
      "but it is the very first action in the sequence"
  | unrecognizedEntity kind => "Unrecognized entity type among project items: " ++ kind
  | mergeModuleWithoutFeature module defaultFeature =>
    "Merge module '" ++ module ++ "' does not belong to any feature and the default feature '" ++
      defaultFeature ++ "' is not present"
  | licenseNotRtf path =>
    "License file must have 'rtf' file extension: " ++ path ++
      " (set allow_non_rtf_license to override)"
  | unknownFeature entity feature => entity ++ " references undeclared feature '" ++ feature ++ "'"
  | emptyPropertyRef => "PropertyRef id must be set before compiling the project"
  | unknownLanguage language => "Unsupported language: " ++ language
  | toolchainNotFound program => "WiX toolset binary not found: " ++ program
  | file fault => "Failed to read or write file: " ++ fault.message
  | yaml => "Failed to parse YAML"
  | json .malformed => "Failed to parse JSON: the text is not well formed"
  | json .misfit => "Failed to parse JSON: the value does not fit"

/-- The error lies in the project and would come again; files and programs may be there next time.
-/
def isConfiguration : CompileError → Bool
  | file _ | toolchainNotFound _ => false
  | _ => true

end CompileError

end Installer
