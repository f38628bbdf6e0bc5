import Installer.Markup.Document
import Installer.Markup.Layout
import Installer.Source.Product

/-! # Compiling projects

A project becomes a source document, together with what has to be known about it to build a package.
-/

namespace Installer

structure Output where
  /-- The root element of the source document. -/
  document : Markup.Element
  /-- The logical path of the directory that was made the installation directory. -/
  installDir : Option String
  /-- The seed of the product's GUIDs. -/
  productGuid : Guid
  productId : Guid
  upgradeCode : Guid
  extensions : List Extension
  packaging : List PackagingRequest

namespace Output

def toText (output : Output) : String :=
  Markup.Layout.format output.document.toXml

end Output

namespace Project

def compile (options : Options) (project : Project) : Except CompileError Output := do
  let prepared := project.prepare options
  let c ← Compilation.ofProject options prepared.project
  let (document, ledger) ← c.emitDocument.run { ids := prepared.ids }
  return {
    document
    installDir := prepared.installDir
    productGuid := c.seed
    productId := c.productId
    upgradeCode := c.upgradeCode
    extensions := Extension.ordered ledger.extensions
    packaging := ledger.packaging }

end Project

end Installer
