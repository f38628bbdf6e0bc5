import Installer.Directory.Ids
import Installer.Markup.Element
import Installer.Source.Compilation
import Installer.Source.Ledger

/-! # Shortcuts

A shortcut of a file stands inside the element of the file and may name another directory; where no
such directory is declared the ledger notes the location, so that one is made later. A shortcut of a
directory has a component of its own.
-/

namespace Installer

open Markup (Element)

namespace Shortcut

/-! ## Shortcuts of files -/

/-- The id of the directory that the shortcut stands in, given the id of the one its file is in. -/
def directoryId (dirs : List Dir) (ownDirId : String) (shortcut : Shortcut) : String :=
  if shortcut.location.isEmpty then ownDirId
  else
    match Dir.find? dirs shortcut.location with
    | some dir => dir.finalId
    | none => Folder.identifier shortcut.location

/-- The shortcut names a location for which no directory is declared. -/
def isElsewhere (dirs : List Dir) (shortcut : Shortcut) : Bool :=
  !shortcut.location.isEmpty && (Dir.find? dirs shortcut.location).isNone

/-- The identifier of the declared working directory. -/
def workingDirId? (shortcut : Shortcut) : Option String :=
  (shortcut.workingDir.filter fun dir => !dir.isEmpty).map Folder.identifier

def finalId (shortcut : Shortcut) : String :=
  shortcut.id.getD (Folder.identifier shortcut.name)

def linkName (shortcut : Shortcut) : String :=
  shortcut.name ++ ".lnk"

/-- The file name of a shortcut of a file, which takes the file's name if it has none. -/
def linkNameFor (file : File) (shortcut : Shortcut) : String :=
  if shortcut.name.isEmpty then LogicalPath.fileStem file.name else shortcut.linkName

def elementFor (dirs : List Dir) (dirId fileId : String) (file : File) (shortcut : Shortcut) :
    Element :=
  let location := shortcut.directoryId dirs dirId
  ({ name := "Shortcut",
     attrs :=
      [("Id", "Shortcut." ++ fileId ++ "." ++ shortcut.finalId),
       ("WorkingDirectory", shortcut.workingDirId?.getD location),
       ("Directory", location),
       ("Name", shortcut.linkNameFor file)] : Element }).withAttrs shortcut.attributes.pairs

def noteLocation (dirs : List Dir) (shortcut : Shortcut) : Emit Unit :=
  if shortcut.isElsewhere dirs then
    Emit.note (·.addLocation shortcut.location shortcut.feature)
  else return

/-! ## Shortcuts of directories -/

/-- The directory part of a target without brackets: `[INSTALLDIR]bin\app.exe` gives
`INSTALLDIRbin\`. A target without a directory part is taken whole. -/
def targetDir (target : String) : String :=
  let endsDir (c : Char) : Bool := LogicalPath.isSeparator c || c == ']'
  let front := (target.toList.reverse.dropWhile fun c => !endsDir c).reverse
  if front.isEmpty then target
  else String.ofList (front.filter fun c => c != '[' && c != ']')

def component (c : Compilation) (dirId : String) (shortcut : Shortcut) : Element :=
  let workingDir := shortcut.workingDirId?.getD (targetDir shortcut.target)
  let unlessEmpty (text : String) : Option String := if text.isEmpty then none else some text
  let link := ((((({ name := "Shortcut" : Element }).attr "Id"
    (dirId ++ "." ++ shortcut.finalId)).attr?
    "WorkingDirectory" (unlessEmpty workingDir)).attr "Target" shortcut.target).attr?
    "Arguments" (unlessEmpty shortcut.arguments)).attr "Name" shortcut.linkName
  ((c.component shortcut.finalId).addAll (shortcut.condition.map Condition.element).toList).add
    (link.withAttrs shortcut.attributes.pairs)

def emit (c : Compilation) (dirId : String) (shortcut : Shortcut) : Emit Element := do
  Emit.assign c.project ("shortcut '" ++ shortcut.name ++ "'") shortcut.feature shortcut.finalId
  return shortcut.component c dirId

end Shortcut

end Installer
