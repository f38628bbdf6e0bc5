import Installer.Source.Directory
import Installer.Source.Feature
import Installer.Source.Interface
import Installer.Source.Standalone
import Installer.Source.Upgrade

/-! # Source documents

The element of a product is put together from what the project holds, its children are brought into
their final order, and it becomes a merge module where one is wanted.
-/

namespace Installer

open Markup (Element)

namespace Compilation

/-! ## The start of a product -/

def packageElement (c : Compilation) : Element :=
  let project := c.project
  let described : Element :=
    { name := "Package"
      attrs :=
        [("InstallerVersion", "200"), ("Compressed", "yes"),
         ("Description", project.description.getD project.name),
         ("Platform", Choice.name project.platform),
         ("SummaryCodepage", toString c.culture.codepage),
         ("Languages", toString c.culture.locale),
         ("InstallScope", Choice.name project.installScope)] }
  (described.attr? "Id"
    (if project.emitConsistentPackageId then some (toString c.productId) else none)).withAttrs
    project.packageAttributes.pairs

/-- The element of the file that holds everything that is installed. -/
def mediaElement (c : Compilation) : Element :=
  ({ name := "Media",
     attrs :=
      [("Id", "1"), ("Cabinet", Folder.identifier c.project.name ++ ".cab"),
       ("EmbedCab", "yes")] : Element }).withAttrs c.project.mediaAttributes.pairs

/-- The element of the product with what every product has. -/
def productElement (c : Compilation) : Element :=
  let project := c.project
  let named : Element :=
    { name := "Product"
      attrs :=
        [("Id", toString c.productId), ("Name", project.name),
         ("Language", toString c.culture.locale), ("Codepage", toString c.culture.codepage),
         ("Version", project.version), ("UpgradeCode", toString c.upgradeCode)] }
  ((named.attr? "Manufacturer" project.manufacturer).withAttrs project.attributes.pairs).addAll
    [c.packageElement, c.mediaElement]

/-! ## The whole product -/

def emitInstalled (c : Compilation) : Emit Element := do
  let root := (← Dir.emitTree c).installRoot
  let standalone ← c.emitStandalone
  return (c.productElement.addAll (c.project.launchConditions.map LaunchCondition.element)).addAll
    (root.modify (·.addAll standalone.components) :: standalone.declarations)

end Compilation

/-- The product with the definitions of actions at its end and their entries in its sequences. -/
def Markup.Element.addActions (product : Element) (actions : ActionElements) : Element :=
  actions.entries.foldl (fun product entry => product.addEntry entry.1 entry.2)
    (product.addAll actions.definitions)

/-- The id of the directory of standalone components in a product. -/
def Markup.Element.installRootId? (product : Element) : Option String :=
  (Element.installRootIn? product.children).bind (·.node.id?)

namespace Compilation

/-- Makes the whole product, its children in the order of their making. -/
def emitProduct (c : Compilation) : Emit Element := do
  let installed ← c.emitInstalled
  let properties ← c.project.properties.mapM Property.emit
  let actions ← CustomAction.emitAll c
  let binaries ← c.project.binaries.mapM (Binary.emit c)
  let features := c.project.featureElements (← get)
  let dialogs ← c.emitInterface installed.installRootId?
  let environment ← liftM c.variableElements
  let product := ((installed.addAll properties).addActions actions).addAll
    (binaries ++ features ++ dialogs ++ environment)
  let product ← liftM (c.project.wireMergeModules (← get) product)
  match c.project.upgradeStrategy with
  | none => return product
  | some strategy => return product.addActions (strategy.elements c)

end Compilation

/-! ## The order of a product -/

namespace Product

/-- The names of the elements that others refer to, in the order in which they end a product. -/
def trailingNames : List String :=
  ["CustomAction", "Binary", "UIRef", "Feature"]

def isSequence (e : Element) : Bool :=
  "Sequence".toList.isSuffixOf e.name.toList

def moveToEnd (p : Element → Bool) (product : Element) : Element :=
  let (taken, rest) := product.takeChildren p
  rest.addAll taken

/-- Moves what others refer to, and then the sequences, to the end of the product. -/
def reorder (product : Element) : Element :=
  moveToEnd isSequence <|
    trailingNames.foldl (fun product name => moveToEnd (fun e => e.name == name) product) product

end Product

/-! ## Merge modules -/

namespace Compilation

def modulePackage (c : Compilation) (package : Element) : Element :=
  ((package.withoutAttr "Compressed").attr "Id" (toString c.productId)).attr? "Manufacturer"
    c.project.manufacturer

/-- The merge module with the contents of a product. It has neither features nor media. -/
def moduleElement (c : Compilation) (product : Element) : Element :=
  let (_, rest) := product.takeChildren fun e => e.name == "Feature" || e.name == "Media"
  let module : Element :=
    { rest with
      name := "Module"
      attrs :=
        [("Id", Folder.identifier c.project.name), ("Codepage", toString c.culture.codepage),
         ("Language", toString c.culture.locale), ("Version", c.project.version)] }
  match module.focusChild? fun e => e.name == "Package" with
  | some place => place.modify c.modulePackage
  | none => module

/-! ## Documents -/

/-- The name space of the elements that need no extension. -/
def coreNameSpace : String :=
  "http://schemas.microsoft.com/wix/2006/wi"

/-- The root element of a document that needs the given extensions, without its child. -/
def rootElement (extensions : List Extension) : Element :=
  ({ name := "Wix", attrs := [("xmlns", coreNameSpace)] : Element }).withAttrs <|
    extensions.filterMap fun extension => do
      return ("xmlns:" ++ (← extension.elementPrefix?), ← extension.nameSpace?)

def emitDocument (c : Compilation) : Emit Element := do
  let product := Product.reorder (← c.emitProduct)
  let child := match c.options.outputType with
    | .msi => product
    | .msm => c.moduleElement product
  return (rootElement (Extension.ordered (← get).extensions)).add child

end Compilation

end Installer
