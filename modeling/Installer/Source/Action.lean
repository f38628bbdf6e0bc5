import Installer.Markup.Focus
import Installer.Source.Definition
import Installer.Text.Blank

/-! # Custom actions in the source document

An action has a definition, some also a helper that sets a property for it, and one entry in each of
its sequences. An entry is placed by a number or against another action: the one that its step
names, or the action declared just before.
-/

namespace Installer

open Markup (Element)

/-! ## Placement -/

inductive Placement where
  | number (n : UInt32)
  | anchor (side : When) (action : String)
deriving DecidableEq, Repr

/-- The attribute that places an entry. -/
def Placement.pair : Placement → String × String
  | .number n => ("Sequence", toString n)
  | .anchor side action => (Choice.name side, action)

/-- The action that a step stands for when `previous` is the action before, if there is one. -/
def Step.anchor? (previous : Option String) : Step → Option String
  | .previousAction => previous
  | .previousActionOrInstallInitialize => some (previous.getD installInitialize)
  | .previousActionOrInstallFinalize => some (previous.getD installFinalize)
  | .named name => some name

/-- Where the entries of an action stand when `previous` is the action before; there has to be one
if the action is placed against it. -/
def CustomAction.placement (previous : Option String) (action : CustomAction) :
    Except CompileError Placement :=
  match action.sequenceNumber, action.step.anchor? previous with
  | some n, _ => .ok (.number n)
  | none, some anchor => .ok (.anchor action.placed anchor)
  | none, none => .error (.previousActionUnavailable action.name)

/-! ## What actions give -/

structure ActionElements where
  /-- Definitions of actions and of the binaries that they call. -/
  definitions : List Element := []
  /-- Entries of sequences. -/
  entries : List (Sequence × Element) := []

namespace ActionElements

protected def append (s t : ActionElements) : ActionElements :=
  ⟨s.definitions ++ t.definitions, s.entries ++ t.entries⟩

instance : Append ActionElements := ⟨ActionElements.append⟩

end ActionElements

namespace CustomAction

/-- One entry for the action `id` in each sequence of `action`. -/
def schedule (action : CustomAction) (id : String) (condition : Option String)
    (placement : Placement) : List (Sequence × Element) :=
  action.sequences.map fun sequence =>
    let entry : Element :=
      { name := "Custom"
        attrs := [("Action", id), placement.pair]
        children := (condition.map .text).toList }
    (sequence, entry)

/-! ## Definitions -/

/-- The definition of an action, with the extra attributes of the project. -/
def definition (action : CustomAction) (attrs : List (String × String)) : Element :=
  (({ name := "CustomAction" : Element }).withAttrs attrs).withAttrs action.attributes.pairs

/-- The attributes that tell when and as whom an action runs and what its result means. -/
def returnAttr (action : CustomAction) : String × String :=
  ("Return", Choice.name action.result)

@[inherit_doc returnAttr]
def executeAttr (action : CustomAction) : String × String :=
  ("Execute", Choice.name action.execute)

@[inherit_doc returnAttr]
def impersonateAttr (action : CustomAction) : String × String :=
  ("Impersonate", yesNo action.impersonate)

/-- The three attributes in the order of definitions that begin with the result. -/
def resultFirst (action : CustomAction) : List (String × String) :=
  [action.returnAttr, action.executeAttr, action.impersonateAttr]

/-- The three attributes in the order of definitions that end with the result. -/
def resultLast (action : CustomAction) : List (String × String) :=
  [action.impersonateAttr, action.executeAttr, action.returnAttr]

def commandLine (program args : String) : String :=
  let args := Folder.commandText args
  let quoted := "\"" ++ Folder.commandText program ++ "\""
  if args.isEmpty then quoted else quoted ++ " " ++ args

/-- How properties are handed to a deferred action: `NAME` becomes `NAME=[NAME]`, and `NAME=value`
stays. -/
def propertyMapping (properties : List String) : String :=
  let names := (properties.map fun p => Text.trim p.toList).filter fun p => !p.isEmpty
  ";".intercalate <| names.map fun p =>
    let name := String.ofList p
    if p.contains '=' then name else name ++ "=[" ++ name ++ "]"

/-- The key of the binary that an action brings along. -/
def fileKey (id : String) : String :=
  id ++ "_File"

def binaryElement (id source : String) : Element :=
  { name := "Binary", attrs := [("Id", fileKey id), ("SourceFile", source)] }

/-- The key of the binary among the definitions that holds the file `source`. -/
def binaryWith? (source : String) (definitions : List Element) : Option String :=
  (definitions.find? fun e => e.name == "Binary" && e.attrOf? "SourceFile" == some source).bind
    Element.id?

def emitManagedBinary (c : Compilation) (made : List Element) (id assembly : String) :
    Emit (String × List Element) := do
  let source := c.sourcePath assembly
  match binaryWith? (c.packagedPath source) made with
  | some key => return (key, [])
  | none =>
    let packaged ← c.package source
    return (fileKey id, [binaryElement id packaged])

/-- A helper that gives a property its value. -/
def settingElement (id property value : String) : Element :=
  { name := "CustomAction", attrs := [("Id", id), ("Property", property), ("Value", value)] }

/-- The directory that a program of the target machine is run in. -/
def workingDirId (dirs : List Dir) (workingDir : String) : String :=
  match Dir.find? dirs workingDir with
  | some dir => dir.finalId
  | none => Folder.identifier workingDir

/-! ## Whole actions -/

/-- Makes the elements of the action with the given id and placement. The definitions made for the
actions before are needed to share binaries. -/
def emitKind (c : Compilation) (made : List Element) (id : String) (placement : Placement)
    (action : CustomAction) : Emit ActionElements := do
  let entries := action.schedule id (some action.condition) placement
  let alone (attrs : List (String × String)) : ActionElements :=
    ⟨[action.definition (("Id", id) :: attrs)], entries⟩
  match action.kind with
  | .setProperty property value => return alone [("Property", property), ("Value", value)]
  | .script code =>
    let script : Element :=
      { name := "CustomAction"
        attrs := ("Id", id) :: ("Script", "vbscript") :: action.resultFirst
        children := [.cdata code] }
    return ⟨[script.withAttrs action.attributes.pairs], entries⟩
  | .scriptFile scriptFile procedure =>
    let called := alone <|
      ("BinaryKey", fileKey id) :: ("VBScriptCall", procedure) :: action.resultFirst
    return ⟨[binaryElement id (c.sourcePath scriptFile)], []⟩ ++ called
  | .managed assembly method usesProperties =>
    let (key, binaries) ← emitManagedBinary c made id assembly
    let called := alone <| ("BinaryKey", key) :: ("DllEntry", method) :: action.resultLast
    let helper : ActionElements :=
      if action.execute = .deferred ∧ !usesProperties.isEmpty then
        let setId := "Set_" ++ id ++ "_Props"
        ⟨[settingElement setId id (propertyMapping usesProperties)],
          action.schedule setId none (.anchor .before id)⟩
      else {}
    return ⟨binaries, []⟩ ++ helper ++ called
  | .quietCommand program args =>
    Emit.note (·.addExtension .util)
    let setId := "Set_" ++ id ++ "_CmdLine"
    let setting := (settingElement setId "QtExecCmdLine" (commandLine program args)).withAttrs
      action.attributes.pairs
    let runs : Element :=
      { name := "CustomAction"
        attrs := ("Id", id) :: ("BinaryKey", "WixCA") :: ("DllEntry", "CAQuietExec") ::
          action.resultLast }
    return ⟨[setting, runs],
      action.schedule setId (some action.condition) placement ++
        action.schedule id (some action.condition) (.anchor .after setId)⟩
  | .installedFile fileKey args =>
    return alone <| ("ExeCommand", Folder.commandText args) ::
      (action.resultFirst ++ [("FileKey", fileKey)])
  | .binaryFile binaryKey args =>
    return alone <| ("ExeCommand", Folder.commandText args) ::
      (action.resultLast ++ [("BinaryKey", binaryKey)])
  | .pathFile program args workingDir =>
    return alone <| ("ExeCommand", commandLine program args) ::
      (action.resultFirst ++ [("Directory", workingDirId c.project.dirs workingDir)])

def emit (c : Compilation) (previous : Option String) (made : List Element)
    (action : CustomAction) : Emit (String × ActionElements) := do
  let id ← Emit.idOr .action action.id action.name
  let placement ← action.placement previous
  return (id, ← action.emitKind c made id placement)

/-- Makes the elements of the actions that follow `previous` and those that gave `made`. -/
def emitFrom (c : Compilation) (previous : Option String) (made : ActionElements) :
    List CustomAction → Emit ActionElements
  | [] => return made
  | action :: rest => do
    let (id, elements) ← action.emit c previous made.definitions
    emitFrom c (some id) (made ++ elements) rest

def emitAll (c : Compilation) : Emit ActionElements := do
  for id in c.project.actions.filterMap CustomAction.id do
    Emit.withIds (IdPool.reserve .action id)
  emitFrom c none {} c.project.actions

end CustomAction

/-- The product with one more entry in a sequence, which is put at the end if it is a new one. -/
def Markup.Element.addEntry (product : Element) (sequence : Sequence) (entry : Element) : Element :=
  (product.focusNamed (Choice.name sequence)).modify (·.add entry)

end Installer
