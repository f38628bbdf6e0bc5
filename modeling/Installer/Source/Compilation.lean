import Installer.Error
import Installer.Directory.Ids
import Installer.Directory.Shape
import Installer.Guid.Named
import Installer.Markup.Element
import Installer.Options

/-! # Compilations

A compilation begins with a project whose directory tree has its final shape and its final ids. What
stays the same while it is compiled: the prepared project, the options, and the GUIDs and the
culture that follow from the project.
-/

namespace Installer

open Markup (Element)

/-! ## Prepared projects -/

/-- A project with its directories in final form. -/
structure Prepared where
  project : Project
  /-- The logical path of the directory that was made the installation directory. -/
  installDir : Option String
  /-- The ids in use. -/
  ids : IdPool

def Project.withSomeDir (project : Project) : Project :=
  if project.dirs.isEmpty then { project with dirs := [Dir.placeholder] } else project

/-- The project with 64-bit folders if it is for 64-bit machines. -/
def Project.widened (options : Options) (project : Project) : Project :=
  if project.platform = .x64 ∧ options.map64InstallDirs then
    { project with
      dirs := Dir.widenAll project.dirs
      actions := project.actions.map fun action => { action with kind := action.kind.widen } }
  else project

def Project.prepare (options : Options) (project : Project) : Prepared :=
  let project := project.withSomeDir.widened options
  let (dirs, installDir) := Dir.shape options.installDirDefaultId project.dirs
  let (dirs, ids) := (Dir.withIds dirs).run {}
  { project := { project with dirs }, installDir, ids }

/-! ## What a compilation works from -/

/-- What the compilation of one project works from. -/
structure Compilation where
  /-- The project in its prepared form. -/
  project : Project
  options : Options
  /-- What every GUID of the product follows from. -/
  seed : Guid
  productId : Guid
  upgradeCode : Guid
  culture : Culture

namespace Compilation

def ofProject (options : Options) (project : Project) : Except CompileError Compilation :=
  let seed := project.guid.getD (.productSeed project.name)
  match project.culture? with
  | none => .error (.unknownLanguage project.language)
  | some culture => .ok {
      project
      options
      seed
      productId := project.productId.getD (seed.ofVersion project.version)
      upgradeCode := project.upgradeCode.getD seed.upgradeCode
      culture }

/-! ## Paths of files -/

def sourcePath (c : Compilation) (name : String) : String :=
  LogicalPath.under c.project.sourceBaseDir name

/-- Where the packaged form of a managed assembly is put. -/
def packagedPath (c : Compilation) (assembly : String) : String :=
  LogicalPath.under c.project.outDir (LogicalPath.fileStem assembly ++ ".CA.dll")

/-! ## Elements that everything is made of -/

/-- A component with its id and the GUID that follows from it. -/
def component (c : Compilation) (id : String) : Element :=
  { name := "Component", attrs := [("Id", id), ("Guid", toString (c.seed.ofComponent id))] }

end Compilation

/-- The word for a truth value in an attribute. -/
def yesNo (b : Bool) : String :=
  if b then "yes" else "no"

def Condition.element (condition : Condition) : Element :=
  (({ name := "Condition" : Element }).addCData condition.text).withAttrs condition.attributes.pairs

end Installer
