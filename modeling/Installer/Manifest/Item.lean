import Installer.Error
import Installer.Json.Printer
import Installer.Manifest.Project

/-! # Items of a manifest

Besides its typed collections a manifest may list items of any kind. Each item says what it is by
its member `kind`, and the rest of it is read like an entry of the collection of that kind.
-/

namespace Installer.Entity

open Json (Value)

/-- Reads an entity of the given kind, `none` for a kind that there is not. -/
def reader? (kind : String) : Option (Value → Option Entity) :=
  match kind with
  | "dir" => some fun v => (decode? v).map .dir
  | "action" => some fun v => (decode? v).map .action
  | "registry" => some fun v => (decode? v).map .registry
  | "env" => some fun v => (decode? v).map .env
  | "property" => some fun v => (decode? v).map .property
  | "binary" => some fun v => (decode? v).map .binary
  | "user" => some fun v => (decode? v).map .user
  | "sql" => some fun v => (decode? v).map .sql
  | "certificate" => some fun v => (decode? v).map .certificate
  | "launch-condition" => some fun v => (decode? v).map .launchCondition
  | "feature" => some fun v => (decode? v).map .feature
  | _ => none

def ofTagged (kind : String) (v : Value) : Except CompileError Entity :=
  match reader? kind with
  | none => .error (.unrecognizedEntity kind)
  | some read =>
    match read v with
    | some entity => .ok entity
    | none => .error (.json .misfit)

def missingKind : String :=
  "<missing kind>"

def ofItem (item : Value) : Except CompileError Entity :=
  match item with
  | .object members =>
    match members.lookup (.name "kind") with
    | some (.string kind) =>
      ofTagged kind (.object (members.eraseP fun member => member.1 == .name "kind"))
    | some kind => .error (.unrecognizedEntity kind.sorted.print)
    | none => .error (.unrecognizedEntity missingKind)
  | _ => .error (.unrecognizedEntity missingKind)

end Installer.Entity
