import Installer.Markup.Focus
import Installer.Source.File

/-! # Directories in the source document

The declared directories become nested elements under one root. Two directories with one id inside
the same directory share an element. An empty directory gets a component that makes it, unless its
element has a component already. The directories of shortcut locations come last.
-/

namespace Installer

open Markup (Element)

/-! ## What one directory holds -/

namespace DirBody

/-- The component that makes a directory. -/
def folderComponent (c : Compilation) (id : String) : Element :=
  (c.component id).add { name := "CreateFolder" }

def emitFolder (c : Compilation) (body : DirBody) (id : String) : Emit Element := do
  Emit.assign c.project ("directory '" ++ body.name ++ "'") body.feature id
  return folderComponent c id

end DirBody

/-- The id of the component that sets a directory's permission. -/
def Permission.componentId (permission : Permission) : String :=
  "Component." ++ permission.id.getD (Folder.identifier permission.user)

def Permission.emit (c : Compilation) (permission : Permission) : Emit Element := do
  Emit.assign c.project ("permission for '" ++ permission.user ++ "'") permission.feature
    permission.componentId
  return (c.component permission.componentId).add
    (({ name := "CreateFolder" : Element }).add permission.element)

namespace MergeModule

def finalId (module : MergeModule) : String :=
  module.id.getD (Folder.identifier module.stem)

/-- The element that merges the module into a directory. -/
def element (c : Compilation) (module : MergeModule) : Element :=
  ({ name := "Merge",
     attrs :=
      [("Id", module.finalId), ("FileCompression", yesNo module.fileCompression),
       ("Language", toString c.culture.locale), ("SourceFile", module.sourceFile),
       ("DiskId", "1")] : Element }).withAttrs module.attributes.pairs

/-- Makes the element of a merge module. Its feature gets to know of it when there are features. -/
def emit (c : Compilation) (module : MergeModule) : Emit Element := do
  Emit.checkFeature c.project ("merge module '" ++ module.sourceFile ++ "'") module.feature
  Emit.note (·.addMergeModule module.finalId module.feature)
  return module.element c

end MergeModule

namespace DirBody

def emitPermissions (c : Compilation) (body : DirBody) : Emit (List Element) := do
  unless body.permissions.isEmpty do
    Emit.note (·.addExtension .util)
  body.permissions.mapM (Permission.emit c)

def emitContents (c : Compilation) (id : String) (body : DirBody) : Emit (List Element) := do
  let folder ← if body.feature.isSome then
      (fun e => [e]) <$> body.emitFolder c ("Component." ++ id)
    else pure []
  let files ← body.files.mapM (File.emit c id)
  let shortcuts ← body.shortcuts.mapM (Shortcut.emit c id)
  let modules ← body.mergeModules.mapM (MergeModule.emit c)
  let permissions ← body.emitPermissions c
  return folder ++ files ++ shortcuts ++ modules ++ permissions

/-- Makes all that the empty directory `id` holds; `hasComponent` tells whether there is a component
for it already. -/
def emitEmpty (c : Compilation) (id : String) (hasComponent : Bool) (body : DirBody) :
    Emit (List Element) := do
  let folder ← if hasComponent then pure []
    else (fun e => [e]) <$> body.emitFolder c (id ++ ".EmptyDirectory")
  let modules ← body.mergeModules.mapM (MergeModule.emit c)
  return folder ++ modules

end DirBody

/-! ## The tree -/

namespace Dir

def element (dir : Dir) : Element :=
  { name := "Directory"
    attrs := [("Id", dir.finalId), ("Name", (Folder.specialId? dir.name).getD dir.name)] }

/-- Makes all that the directory itself holds into `e`, its element. -/
def emitBody (c : Compilation) (dir : Dir) (e : Element) : Emit Element :=
  if dir.isEmpty then
    return e.addAll (← dir.emitEmpty c dir.finalId (e.child? "Component").isSome)
  else return e.addAll (← dir.emitContents c dir.finalId)

mutual

def emit (c : Compilation) : Dir → Element → Emit Element
  | ⟨body, dirs⟩, parent => do
    let dir : Dir := ⟨body, dirs⟩
    let place := parent.focusChildOr (Element.hasNameAndId "Directory" dir.finalId) dir.element
    let e ← dir.emitBody c place.node
    return place.put (← emitAll c dirs e)
termination_by structural dir => dir

def emitAll (c : Compilation) : List Dir → Element → Emit Element
  | [], parent => return parent
  | dir :: rest, parent => do
    let parent ← emit c dir parent
    emitAll c rest parent
termination_by structural dirs => dirs

end

/-! ## Shortcut locations -/

/-- The longest declared proper initial part of a location, with the number of its names. -/
def anchor? (dirs : List Dir) (location : String) : Option (Dir × Nat) :=
  ((LogicalPath.initials location).drop 1).findSome? fun path =>
    (find? dirs path).map fun dir => (dir, (LogicalPath.components path).length)

/-- The directory at the first `n` names of a path, known by the identifier of the path so far. -/
def ofNames (names : List String) (n : Nat) (feature : Option String) (dirs : List Dir) : Dir :=
  { name := names.getD (n - 1) ""
    id := some (Folder.identifier (LogicalPath.ofComponents (names.take n)))
    feature, dirs }

/-- The directories of a path after its first `start` names, each inside the one before. The last
one has the feature. -/
def chain (names : List String) (start : Nat) (feature : Option String) : Dir :=
  (List.range' (start + 1) (names.length - 1 - start)).foldr
    (fun n inner => ofNames names n none [inner]) (ofNames names names.length feature [])

/-- Makes the directories of a shortcut location under `root`: inside the longest declared initial
part of its path, or else directly inside `root`. -/
def emitLocation (c : Compilation) (root : Element) (location : String) (feature : Option String) :
    Emit Element :=
  let names := LogicalPath.components location
  if names.isEmpty then return root
  else
    match anchor? c.project.dirs location with
    | none => emit c (chain names 0 feature) root
    | some (dir, n) =>
      match root.focusById? "Directory" dir.finalId with
      | some place => place.modifyM (emit c (chain names n feature))
      | none => emit c (chain names n feature) root

def emitLocations (c : Compilation) (root : Element) : Emit Element := do
  (← get).locations.foldlM (fun root entry => emitLocation c root entry.1 entry.2) root

def emitTree (c : Compilation) : Emit Element := do
  let root : Element := { name := "Directory", attrs := [("Id", rootId), ("Name", "SourceDir")] }
  emitLocations c (← emitAll c c.project.dirs root)

end Dir

/-! ## The home of standalone components -/

namespace Markup.Element

mutual

/-- The directory that receives standalone components, at or below the directory `e`: the first one
with a component on the way down through first subdirectories, or the last one on that way. -/
def installRoot : Element → Focus Element
  | ⟨name, attrs, children⟩ =>
    let e : Element := ⟨name, attrs, children⟩
    if (e.child? "Component").isSome then .whole e
    else
      match installRootIn? children with
      | some place => place.within fun nodes => ⟨name, attrs, nodes⟩
      | none => .whole e
termination_by structural e => e

/-- The directory that receives standalone components, at or below the first directory among the
nodes. -/
def installRootIn? : List (Node Element) → Option (Focus (List (Node Element)))
  | [] => none
  | .element child :: rest =>
    if child.name == "Directory" then
      some ((installRoot child).within fun e => .element e :: rest)
    else (installRootIn? rest).map (·.within fun nodes => .element child :: nodes)
  | .text content :: rest =>
    (installRootIn? rest).map (·.within fun nodes => .text content :: nodes)
  | .cdata content :: rest =>
    (installRootIn? rest).map (·.within fun nodes => .cdata content :: nodes)
termination_by structural nodes => nodes

end

end Markup.Element

end Installer
