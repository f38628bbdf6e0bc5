import Installer.Files.Path
import Installer.Json.Record
import Installer.Manifest.Item
import Installer.Yaml.Value

/-! # Formats of manifests

A manifest is the written form of a project with an optional list of items, in JSON or in YAML. The
ending of a file tells the format of the manifest in it: `.json` in any case stands for JSON, and
everything else for YAML.
-/

namespace Installer.Manifest

open Json (Key Value)
open Yaml (Node Scalar)

/-! ## JSON

The list of items is read where it stands, the project once all members are there, and the items in
their order at the very end; the first thing that is wrong decides the error.
-/

def record : Json.Record where
  fields := [("items", .list)]
  others := .any

def project? (members : List (Key × Value)) : Option Project :=
  decodeVia? .buffered (.object members)

/-- The items among the members of a manifest. Of members with one key in an item the last counts.
-/
def items (members : List (Key × Value)) : List Value :=
  match members.lookup (.name "items") with
  | some (.array items) => items.map Value.distinct
  | _ => []

def withItems (project : Project) (items : List Value) : Except CompileError Project :=
  items.foldlM (fun project item => return project.add (← Entity.ofItem item)) project

def ofJson (text : String) : Except CompileError Project := do
  let (members, rest) ← (record.readObject text.toList).mapError .json
  match project? members with
  | none => .error (.json .misfit)
  | some project =>
    (Json.readEnd rest).mapError .json
    withItems project (items members)

/-! ## YAML

A manifest in YAML has the members that one in JSON has. Their names are the characters of their
keys. Items are reduced to plain values before they are read, with every key in them as a name.
-/

/-- How many sequences and mappings may stand inside one another below the members of a manifest. -/
def maxDepth : Nat :=
  127

/-- The list of items, which may be left empty. -/
def itemsValue? : Node → Option Value
  | .scalar s => if s = .empty then some (.array []) else none
  | .sequence items => (Node.sequence items).value? .named maxDepth
  | .mapping _ => none

/-- The member of a manifest that an entry of a mapping makes. -/
def member? : Node × Node → Option (Key × Value)
  | (.scalar key, node) => do
    let v ← if key.text = "items" then itemsValue? node else node.value? .resolved maxDepth
    return (.name key.text, v)
  | _ => none

/-- The members of a manifest. There is at most one list of items. -/
def members? (entries : List (Node × Node)) : Option (List (Key × Value)) := do
  let members ← entries.mapM member?
  if (members.filter fun member => member.1 == .name "items").length ≤ 1 then some members else none

def ofYaml (text : String) : Except CompileError Project :=
  match Node.ofText? text with
  | some (.mapping entries) =>
    match members? entries with
    | some members =>
      match project? members with
      | some project => withItems project (items members)
      | none => .error .yaml
    | none => .error .yaml
  | _ => .error .yaml

/-! ## Files -/

def isJson (path : String) : Bool :=
  match Path.extension? path with
  | some ending => Text.lowerAscii ending.toList == "json".toList
  | none => false

def load {m : Type → Type} [Monad m] [FileAccess m] (path : String) :
    m (Except CompileError Project) := do
  match ← FileAccess.read path with
  | .error fault => return .error (.file fault)
  | .ok text => return if isJson path then ofJson text else ofYaml text

end Installer.Manifest
