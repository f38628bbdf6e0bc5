import Installer.Source.Definition

/-! # The user interface in the source document

A package may refer to a set of dialogs, which a program of the project's own can replace, and give
the pictures and the licence that the dialogs show.
-/

namespace Installer

open Markup (Element)

namespace Compilation

/-- The elements that refer to the set of dialogs. The dialog for the installation directory is told
which one that is. -/
def dialogElements (c : Compilation) (installRootId : Option String) : List Element :=
  match c.project.ui.dialogSet? with
  | none => []
  | some dialogs =>
    let installDir := if c.project.ui = .installDir then installRootId.toList else []
    (installDir.map fun id =>
      { name := "Property", attrs := [("Id", "WIXUI_INSTALLDIR"), ("Value", id)] }) ++
      [{ name := "UIRef", attrs := [("Id", dialogs)] }]

def emitInterface (c : Compilation) (installRootId : Option String) : Emit (List Element) := do
  let dialogs := c.dialogElements installRootId
  unless dialogs.isEmpty do
    Emit.note (·.addExtension .ui)
  match c.project.embeddedUi with
  | none => return dialogs
  | some binary =>
    let program : Element :=
      { name := "EmbeddedUI"
        attrs :=
          [("Id", binary.id.getD (Folder.identifier binary.idName)),
           ("SourceFile", ← binary.emitSource c)] }
    return (dialogs.filter fun e => e.name != "UIRef") ++ [({ name := "UI" : Element }).add program]

/-! ## Pictures and licence -/

def variableElement (c : Compilation) (id path : String) : Element :=
  { name := "WixVariable", attrs := [("Id", id), ("Value", c.sourcePath path)] }

/-- The path ends as those of rich text files do. -/
def isRichText (path : String) : Bool :=
  ".rtf".toList.isSuffixOf (Text.lowerAscii path.toList)

/-- The elements that give files to the dialogs. A licence must be rich text unless the options
allow any format. -/
def variableElements (c : Compilation) : Except CompileError (List Element) :=
  let pictures :=
    (c.project.bannerImage.toList.map (c.variableElement "WixUIBannerBmp")) ++
      (c.project.backgroundImage.toList.map (c.variableElement "WixUIDialogBmp"))
  match c.project.licenceFile with
  | none => .ok pictures
  | some path =>
    if c.options.allowNonRtfLicense || isRichText path then
      .ok (pictures ++ [c.variableElement "WixUILicenseRtf" path])
    else .error (.licenseNotRtf path)

end Compilation

end Installer
