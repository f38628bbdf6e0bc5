import Installer.Source.Shortcut

/-! # Components of files

Every file is alone in a component, which carries the file's condition, its service and the file
types it is registered for.
-/

namespace Installer

open Markup (Element)

def Permission.element (permission : Permission) : Element :=
  let user := (({ name := "util:PermissionEx" : Element }).attr "User" permission.user).attr?
    "Domain" permission.domain
  (user.withAttrs (permission.rights.map fun right => (right, "yes"))).withAttrs
    permission.attributes.pairs

def FileAssociation.element (fileId : String) (a : FileAssociation) : Element :=
  let starts := if a.advertise then ("Sequence", toString a.sequence) else ("TargetFile", fileId)
  let verb : Element :=
    { name := "Verb"
      attrs := [starts, ("Id", a.command), ("Command", a.command), ("Argument", a.arguments)] }
  let extension : Element :=
    { name := "Extension"
      attrs := [("Id", a.extension), ("ContentType", a.effectiveContentType)] }
  let icon := match a.icon with
    | none => []
    | some icon =>
      [("Icon", if icon.isEmpty then fileId else icon), ("IconIndex", toString a.iconIndex)]
  let progId : Element :=
    { name := "ProgId"
      attrs :=
        [("Id", a.extension ++ ".file"), ("Advertise", yesNo a.advertise),
         ("Description", a.effectiveDescription)] ++ icon }
  progId.add (extension.add verb)

namespace ServiceInstaller

def installElement (service : ServiceInstaller) : Element :=
  let named : Element :=
    { name := "ServiceInstall", attrs := [("Id", service.name), ("Name", service.name)] }
  let described := (named.attr? "DisplayName" service.displayName).attr?
    "Description" service.description
  let typed := described.withAttrs
    [("Type", service.serviceType), ("Start", service.startType),
     ("ErrorControl", service.errorControl)]
  ((typed.attr? "Account" service.account).attr? "Password" service.password).attr?
    "Arguments" service.arguments

/-- The element that starts, stops and removes the service. -/
def controlElement (service : ServiceInstaller) : Element :=
  let named : Element :=
    { name := "ServiceControl"
      attrs := [("Id", service.name ++ ".Control"), ("Name", service.name)] }
  (((named.attr? "Start" service.startOn).attr? "Stop" service.stopOn).attr?
    "Remove" service.removeOn).attr "Wait" "yes"

end ServiceInstaller

namespace File

def finalId (file : File) : String :=
  file.id.getD (Folder.identifier file.fileName)

def componentId (file : File) : String :=
  "Component." ++ file.finalId

def assemblyAttrs (file : File) : List (String × String) :=
  if file.registerInGac then
    [("KeyPath", "yes"), ("Assembly", ".net"), ("AssemblyManifest", file.finalId),
     ("ProcessorArchitecture", Choice.name file.processorArchitecture)]
  else []

def element (c : Compilation) (dirId : String) (file : File) : Element :=
  let source : Element :=
    { name := "File", attrs := [("Id", file.finalId), ("Source", c.sourcePath file.name)] }
  let shortcuts := file.shortcuts.map (Shortcut.elementFor c.project.dirs dirId file.finalId file)
  (((source.withAttrs file.attributes.pairs).withAttrs file.assemblyAttrs).addAll shortcuts).addAll
    (file.permissions.map Permission.element)

def component (c : Compilation) (dirId : String) (file : File) : Element :=
  let services := file.service.toList.flatMap fun service =>
    [service.installElement, service.controlElement]
  (((c.component file.componentId).addAll (file.condition.map Condition.element).toList).add
    (file.element c dirId)).addAll
    (services ++ file.associations.map (FileAssociation.element file.finalId))

def emit (c : Compilation) (dirId : String) (file : File) : Emit Element := do
  Emit.assign c.project ("file '" ++ file.name ++ "'") file.feature file.componentId
  for shortcut in file.shortcuts do
    shortcut.noteLocation c.project.dirs
  unless file.permissions.isEmpty do
    Emit.note (·.addExtension .util)
  return file.component c dirId

end File

end Installer
