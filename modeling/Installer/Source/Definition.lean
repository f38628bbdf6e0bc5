import Installer.Markup.Element
import Installer.Source.Compilation
import Installer.Source.Ledger

/-! # Definitions in the source document

Launch conditions, properties and binaries have one element each, directly in the product.
-/

namespace Installer

open Markup (Element)

def LaunchCondition.element (condition : LaunchCondition) : Element :=
  (({ name := "Condition", attrs := [("Message", condition.message)] : Element }).addCData
    condition.condition).withAttrs condition.attributes.pairs

/-! ## Properties -/

def RegistrySearch.element (propertyName : String) (search : RegistrySearch) : Element :=
  ({ name := "RegistrySearch",
     attrs :=
      [("Id", propertyName ++ "_RegSearch"), ("Root", Choice.name search.root),
       ("Key", search.key), ("Type", "raw")] : Element }).attr?
    "Name" (if search.entryName.isEmpty then none else some search.entryName)

def Property.element (property : Property) : Element :=
  let named : Element := { name := "Property", attrs := [("Id", property.name)] }
  let valued := match property.registry with
    | none => named.attr "Value" property.value
    | some search =>
      (named.attr? "Value" (if property.value.isEmpty then none else some property.value)).add
        (search.element property.name)
  valued.withAttrs property.attributes.pairs

/-- Makes the element of a property. A reference must name its property. -/
def Property.emit (property : Property) : Emit Element :=
  if property.isRef then
    if property.name.isEmpty then Emit.fail .emptyPropertyRef
    else return { name := "PropertyRef", attrs := [("Id", property.name)] }
  else return property.element

/-! ## Binaries -/

/-- Requests the packaging of the assembly at `source`. Returns where the packaged form is put. -/
def Compilation.package (c : Compilation) (source : String) : Emit String := do
  let output := c.packagedPath source
  Emit.note (·.addPackaging { assembly := source, output })
  return output

namespace Binary

/-- The name that the id of a binary is made of. -/
def idName (binary : Binary) : String :=
  LogicalPath.fileName binary.name

/-- The path of what goes into the package. A managed assembly is packaged for it. -/
def emitSource (c : Compilation) (binary : Binary) : Emit String :=
  let source := c.sourcePath binary.name
  if binary.managed then c.package source else return source

def emit (c : Compilation) (binary : Binary) : Emit Element := do
  let id ← Emit.idOr .binary binary.id binary.idName
  let source ← binary.emitSource c
  return ({ name := "Binary", attrs := [("Id", id), ("SourceFile", source)] : Element }).withAttrs
    binary.attributes.pairs

end Binary

end Installer
