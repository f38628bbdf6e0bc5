import Installer.LogicalPath
import Installer.Project.Attributes
import Installer.Project.Choice

/-! # Directories and what they hold

The tree of directories that an installation creates, with files, shortcuts, permissions and merge
modules. A directory may be named by a whole logical path; what it holds then belongs to the
innermost directory of the path.
-/

namespace Installer

/-! ## What a file carries -/

/-- Access rights for one user on a file or directory. -/
structure Permission where
  user : String
  id : Option String := none
  domain : Option String := none
  /-- The rights that are granted. -/
  rights : List String := []
  feature : Option String := none
  attributes : Attributes := .empty

/-- A shortcut. A directory's own shortcut has a component to itself; one of a file stands in
`location`, or beside the file. -/
structure Shortcut where
  name : String
  id : Option String := none
  target : String := ""
  arguments : String := ""
  /-- A logical path, a special folder or the id of a directory. -/
  location : String := ""
  workingDir : Option String := none
  feature : Option String := none
  condition : Option Condition := none
  attributes : Attributes := .empty

structure FileAssociation where
  extension : String
  contentType : Option String := none
  description : Option String := none
  command : String := "open"
  arguments : String := "\"%1\""
  advertise : Bool := false
  /-- The id of an icon file; an empty text stands for the associated file itself. -/
  icon : Option String := none
  iconIndex : UInt32 := 0
  sequence : UInt32 := 1

def FileAssociation.effectiveContentType (a : FileAssociation) : String :=
  a.contentType.getD ("application/" ++ a.extension)

def FileAssociation.effectiveDescription (a : FileAssociation) : String :=
  a.description.getD (a.extension ++ " file")

/-- A service of the operating system that a file implements. -/
structure ServiceInstaller where
  name : String
  displayName : Option String := none
  description : Option String := none
  startType : String := "auto"
  serviceType : String := "ownProcess"
  errorControl : String := "normal"
  account : Option String := none
  password : Option String := none
  arguments : Option String := none
  startOn : Option String := some "install"
  stopOn : Option String := some "both"
  removeOn : Option String := some "uninstall"

inductive ProcessorArchitecture where
  | msil
  | x86
  | x64
  | ia64
deriving DecidableEq, Repr

instance : Choice ProcessorArchitecture where
  all := [.msil, .x86, .x64, .ia64]
  name
    | .msil => "msil"
    | .x86 => "x86"
    | .x64 => "x64"
    | .ia64 => "ia64"

/-! ## Files and merge modules -/

structure File where
  /-- Where the file is when the package is built. -/
  name : String
  id : Option String := none
  feature : Option String := none
  condition : Option Condition := none
  attributes : Attributes := .empty
  associations : List FileAssociation := []
  shortcuts : List Shortcut := []
  permissions : List Permission := []
  /-- The file is registered in the global assembly cache. -/
  registerInGac : Bool := false
  processorArchitecture : ProcessorArchitecture := .msil
  service : Option ServiceInstaller := none

def File.fileName (file : File) : String :=
  LogicalPath.fileName file.name

structure MergeModule where
  sourceFile : String
  id : Option String := none
  feature : Option String := none
  fileCompression : Bool := true
  attributes : Attributes := .empty

/-- The name of the module's file without its ending. -/
def MergeModule.stem (module : MergeModule) : String :=
  LogicalPath.fileStem module.sourceFile

/-! ## Directories -/

/-- What a directory is and holds, its subdirectories apart. -/
structure DirBody where
  name : String
  id : Option String := none
  feature : Option String := none
  files : List File := []
  shortcuts : List Shortcut := []
  permissions : List Permission := []
  mergeModules : List MergeModule := []

structure Dir extends DirBody where
  dirs : List Dir := []

/-- There is nothing to install in the directory and nothing below it. -/
def Dir.isEmpty (dir : Dir) : Bool :=
  dir.files.isEmpty && dir.shortcuts.isEmpty && dir.dirs.isEmpty && dir.permissions.isEmpty

end Installer
