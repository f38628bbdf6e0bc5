import Installer.Manifest.Codec
import Installer.Project.Directory

/-! # The written form of directories -/

namespace Installer

open Json (Key Value)

/-- A condition is written in full, by the names of its members; its text alone is read as well. -/
instance : Codec Condition where
  encode condition := .object
    [("text", encode condition.text), ("attributes", encode condition.attributes)]
  decodeVia?
    | _, .string text => some { text }
    | route, .object members => do
      let members ← Value.fieldsOf? ["text", "attributes"] members
      return {
        text := ← required route members "text"
        attributes := ← orDefault route members "attributes" .empty }
    | _, _ => none

instance : Codec Permission where
  encode permission := .object
    [("user", encode permission.user),
     ("id", encode permission.id),
     ("domain", encode permission.domain),
     ("rights", encode permission.rights),
     ("feature", encode permission.feature),
     ("attributes", encode permission.attributes)]
  decodeVia? route v := do
    let members ← v.fields? ["user", "id", "domain", "rights", "feature", "attributes"]
    return {
      user := ← required route members "user"
      id := ← optional route members "id"
      domain := ← optional route members "domain"
      rights := ← orDefault route members "rights" []
      feature := ← optional route members "feature"
      attributes := ← orDefault route members "attributes" .empty }

instance : Codec Shortcut where
  encode shortcut := .object
    [("name", encode shortcut.name),
     ("id", encode shortcut.id),
     ("target", encode shortcut.target),
     ("arguments", encode shortcut.arguments),
     ("location", encode shortcut.location),
     ("working_dir", encode shortcut.workingDir),
     ("feature", encode shortcut.feature),
     ("condition", encode shortcut.condition),
     ("attributes", encode shortcut.attributes)]
  decodeVia? route v := do
    let members ← v.fields?
      ["name", "id", "target", "arguments", "location", "working_dir", "feature", "condition",
       "attributes"]
    return {
      name := ← required route members "name"
      id := ← optional route members "id"
      target := ← orDefault route members "target" ""
      arguments := ← orDefault route members "arguments" ""
      location := ← orDefault route members "location" ""
      workingDir := ← optional route members "working_dir"
      feature := ← optional route members "feature"
      condition := ← optional route members "condition"
      attributes := ← orDefault route members "attributes" .empty }

instance : Codec FileAssociation where
  encode association := .object
    [("extension", encode association.extension),
     ("content_type", encode association.contentType),
     ("description", encode association.description),
     ("command", encode association.command),
     ("arguments", encode association.arguments),
     ("advertise", encode association.advertise),
     ("icon", encode association.icon),
     ("icon_index", encode association.iconIndex),
     ("sequence", encode association.sequence)]
  decodeVia? route v := do
    let members ← v.fields?
      ["extension", "content_type", "description", "command", "arguments", "advertise", "icon",
       "icon_index", "sequence"]
    return {
      extension := ← required route members "extension"
      contentType := ← optional route members "content_type"
      description := ← optional route members "description"
      command := ← orDefault route members "command" "open"
      arguments := ← orDefault route members "arguments" "\"%1\""
      advertise := ← orDefault route members "advertise" false
      icon := ← optional route members "icon"
      iconIndex := ← orDefault route members "icon_index" 0
      sequence := ← orDefault route members "sequence" 1 }

instance : Codec ServiceInstaller where
  encode service := .object
    [("name", encode service.name),
     ("display_name", encode service.displayName),
     ("description", encode service.description),
     ("start_type", encode service.startType),
     ("service_type", encode service.serviceType),
     ("error_control", encode service.errorControl),
     ("account", encode service.account),
     ("password", encode service.password),
     ("arguments", encode service.arguments),
     ("start_on", encode service.startOn),
     ("stop_on", encode service.stopOn),
     ("remove_on", encode service.removeOn)]
  decodeVia? route v := do
    let members ← v.fields?
      ["name", "display_name", "description", "start_type", "service_type", "error_control",
       "account", "password", "arguments", "start_on", "stop_on", "remove_on"]
    return {
      name := ← required route members "name"
      displayName := ← optional route members "display_name"
      description := ← optional route members "description"
      startType := ← orDefault route members "start_type" "auto"
      serviceType := ← orDefault route members "service_type" "ownProcess"
      errorControl := ← orDefault route members "error_control" "normal"
      account := ← optional route members "account"
      password := ← optional route members "password"
      arguments := ← optional route members "arguments"
      startOn := ← orDefault route members "start_on" (some "install")
      stopOn := ← orDefault route members "stop_on" (some "both")
      removeOn := ← orDefault route members "remove_on" (some "uninstall") }

instance : Codec File where
  encode file := .object
    [("name", encode file.name),
     ("id", encode file.id),
     ("feature", encode file.feature),
     ("condition", encode file.condition),
     ("attributes", encode file.attributes),
     ("associations", encode file.associations),
     ("shortcuts", encode file.shortcuts),
     ("permissions", encode file.permissions),
     ("register_in_gac", encode file.registerInGac),
     ("processor_architecture", encode file.processorArchitecture),
     ("service", encode file.service)]
  decodeVia? route v := do
    let members ← v.fields?
      ["name", "id", "feature", "condition", "attributes", "associations", "shortcuts",
       "permissions", "register_in_gac", "processor_architecture", "service"]
    return {
      name := ← required route members "name"
      id := ← optional route members "id"
      feature := ← optional route members "feature"
      condition := ← optional route members "condition"
      attributes := ← orDefault route members "attributes" .empty
      associations := ← orDefault route members "associations" []
      shortcuts := ← orDefault route members "shortcuts" []
      permissions := ← orDefault route members "permissions" []
      registerInGac := ← orDefault route members "register_in_gac" false
      processorArchitecture := ← orDefault route members "processor_architecture" .msil
      service := ← optional route members "service" }

instance : Codec MergeModule where
  encode module := .object
    [("source_file", encode module.sourceFile),
     ("id", encode module.id),
     ("feature", encode module.feature),
     ("file_compression", encode module.fileCompression),
     ("attributes", encode module.attributes)]
  decodeVia? route v := do
    let members ← v.fields? ["source_file", "id", "feature", "file_compression", "attributes"]
    return {
      sourceFile := ← required route members "source_file"
      id := ← optional route members "id"
      feature := ← optional route members "feature"
      fileCompression := ← orDefault route members "file_compression" true
      attributes := ← orDefault route members "attributes" .empty }

/-! ## Directories inside directories -/

namespace DirBody

def encodeMembers (body : DirBody) : List (Key × Value) :=
  [("name", encode body.name),
   ("id", encode body.id),
   ("feature", encode body.feature),
   ("files", encode body.files),
   ("shortcuts", encode body.shortcuts),
   ("permissions", encode body.permissions),
   ("merge_modules", encode body.mergeModules)]

def decodeMembers? (route : Route) (members : List (String × Value)) : Option DirBody := do
  return {
    name := ← required route members "name"
    id := ← optional route members "id"
    feature := ← optional route members "feature"
    files := ← orDefault route members "files" []
    shortcuts := ← orDefault route members "shortcuts" []
    permissions := ← orDefault route members "permissions" []
    mergeModules := ← orDefault route members "merge_modules" [] }

end DirBody

namespace Dir

def memberNames : List String :=
  ["name", "id", "feature", "dirs", "files", "shortcuts", "permissions", "merge_modules"]

mutual

def encode : Dir → Value
  | ⟨body, dirs⟩ => .object (("dirs", .array (encodeAll dirs)) :: body.encodeMembers)
termination_by structural dir => dir

def encodeAll : List Dir → List Value
  | [] => []
  | dir :: rest => encode dir :: encodeAll rest
termination_by structural dirs => dirs

end

mutual

def decodeVia? (route : Route) : Value → Option Dir
  | .object members => do
    let body ← (Value.fieldsOf? memberNames members).bind (DirBody.decodeMembers? route)
    let dirs ← decodeNested? route members
    return ⟨body, dirs⟩
  | .array items => do
    let body ← (Value.listed? memberNames items).bind (DirBody.decodeMembers? route)
    let dirs ← decodeListed? route (memberNames.idxOf "dirs") items
    return ⟨body, dirs⟩
  | _ => none
termination_by structural v => v

/-- The subdirectories among the members of a directory; none where the member is not there. -/
def decodeNested? (route : Route) : List (Key × Value) → Option (List Dir)
  | [] => some []
  | (key, member) :: rest =>
    if key.among? memberNames = some "dirs" then decodeArray? route member
    else decodeNested? route rest
termination_by structural members => members

/-- The subdirectories at their place among listed members. -/
def decodeListed? (route : Route) : Nat → List Value → Option (List Dir)
  | _, [] => some []
  | 0, item :: _ => decodeArray? route item
  | n + 1, _ :: rest => decodeListed? route n rest
termination_by structural _ items => items

def decodeArray? (route : Route) : Value → Option (List Dir)
  | .array items => decodeAll? route items
  | _ => none
termination_by structural v => v

def decodeAll? (route : Route) : List Value → Option (List Dir)
  | [] => some []
  | item :: rest => do
    let dir ← decodeVia? route item
    let dirs ← decodeAll? route rest
    return dir :: dirs
termination_by structural items => items

end

end Dir

instance : Codec Dir where
  encode := Dir.encode
  decodeVia? := Dir.decodeVia?

end Installer
