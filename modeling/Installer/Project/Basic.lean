import Installer.Folder
import Installer.Guid.Basic
import Installer.Project.Action
import Installer.Project.Attributes
import Installer.Project.Directory
import Installer.Project.Standalone

/-! # Projects

A project describes one product and everything that its package installs.
-/

namespace Installer

/-! ## Features -/

structure FeatureCondition where
  level : UInt32
  text : String
deriving DecidableEq

/-- A group of components that the user may choose. -/
structure Feature where
  name : String
  id : Option String := none
  description : String := ""
  /-- The user may leave the feature out. -/
  allowChange : Bool := true
  /-- The feature is installed unless the user says otherwise. -/
  isEnabled : Bool := true
  /-- The name of the feature that this one belongs to. -/
  parent : Option String := none
  configurableDir : Option String := none
  condition : Option FeatureCondition := none
  attributes : Attributes := .empty

/-- The id of the feature, made of its name where none is given. -/
def Feature.effectiveId (feature : Feature) : String :=
  feature.id.getD (Folder.identifier feature.name)

/-! ## Upgrades -/

/-- A range of versions of the product. The text `%this%` stands for the version being built. -/
structure VersionRange where
  minimum : String
  maximum : Option String := none
  includeMinimum : Bool := false
  includeMaximum : Bool := false
  migrateFeatures : Option Bool := none
deriving DecidableEq

namespace VersionRange

/-- What stands for the version being built. -/
def thisVersion : String :=
  "%this%"

def olderThanThis : VersionRange :=
  { minimum := "0.0.0.1", maximum := some thisVersion, includeMinimum := true }

def newerThanThis : VersionRange :=
  { minimum := thisVersion }

end VersionRange

structure UpgradeStrategy where
  /-- The versions that are removed. -/
  upgradeVersions : Option VersionRange := none
  /-- The versions that block the installation. -/
  preventDowngradingVersions : Option VersionRange := none
  newerProductInstalledErrorMessage : Option String := none
  /-- The action after which the old version is removed. -/
  removeExistingProductAfter : String := Step.installInitialize
deriving DecidableEq

/-- Older versions are removed, newer ones block the installation. -/
def UpgradeStrategy.standard : UpgradeStrategy where
  upgradeVersions := some .olderThanThis
  preventDowngradingVersions := some .newerThanThis
  newerProductInstalledErrorMessage := some "Newer version already installed"

/-! ## Cultures -/

/-- The locale number and the code page of a culture. -/
structure Culture where
  locale : UInt32
  codepage : UInt32
deriving DecidableEq, Repr

namespace Culture

def known : List (String × Culture) :=
  [("ar-SA", ⟨1025, 1256⟩),
   ("zh-TW", ⟨1028, 950⟩),
   ("cs-CZ", ⟨1029, 1250⟩),
   ("da-DK", ⟨1030, 1252⟩),
   ("de-DE", ⟨1031, 1252⟩),
   ("el-GR", ⟨1032, 1253⟩),
   ("en-US", ⟨1033, 1252⟩),
   ("fi-FI", ⟨1035, 1252⟩),
   ("fr-FR", ⟨1036, 1252⟩),
   ("he-IL", ⟨1037, 1255⟩),
   ("hu-HU", ⟨1038, 1250⟩),
   ("it-IT", ⟨1040, 1252⟩),
   ("ja-JP", ⟨1041, 932⟩),
   ("ko-KR", ⟨1042, 949⟩),
   ("nl-NL", ⟨1043, 1252⟩),
   ("nb-NO", ⟨1044, 1252⟩),
   ("pl-PL", ⟨1045, 1250⟩),
   ("pt-BR", ⟨1046, 1252⟩),
   ("ru-RU", ⟨1049, 1251⟩),
   ("hr-HR", ⟨1050, 1250⟩),
   ("sk-SK", ⟨1051, 1250⟩),
   ("sv-SE", ⟨1053, 1252⟩),
   ("th-TH", ⟨1054, 874⟩),
   ("tr-TR", ⟨1055, 1254⟩),
   ("uk-UA", ⟨1058, 1251⟩),
   ("sl-SI", ⟨1060, 1250⟩),
   ("et-EE", ⟨1061, 1257⟩),
   ("lv-LV", ⟨1062, 1257⟩),
   ("lt-LT", ⟨1063, 1257⟩),
   ("zh-CN", ⟨2052, 936⟩),
   ("en-GB", ⟨2057, 1252⟩),
   ("pt-PT", ⟨2070, 1252⟩),
   ("es-ES", ⟨3082, 1252⟩)]

/-- The culture of the given name; the case of the name does not matter. -/
def ofName? (name : String) : Option Culture :=
  (known.find? fun entry => entry.1.toLower == name.toLower).map (·.2)

end Culture

/-! ## Settings of a package -/

inductive Platform where
  | x86
  | x64
deriving DecidableEq, Repr

instance : Choice Platform where
  all := [.x86, .x64]
  name
    | .x86 => "x86"
    | .x64 => "x64"

inductive InstallScope where
  | perMachine
  | perUser
deriving DecidableEq, Repr

instance : Choice InstallScope where
  all := [.perMachine, .perUser]
  name
    | .perMachine => "perMachine"
    | .perUser => "perUser"

inductive UiKind where
  | progressOnly
  | minimal
  | installDir
  | featureTree
  | mondo
  | advanced
deriving DecidableEq, Repr

instance : Choice UiKind where
  all := [.progressOnly, .minimal, .installDir, .featureTree, .mondo, .advanced]
  name
    | .progressOnly => "progress-only"
    | .minimal => "minimal"
    | .installDir => "install-dir"
    | .featureTree => "feature-tree"
    | .mondo => "mondo"
    | .advanced => "advanced"

/-- The set of dialogs that the package refers to, if it refers to one. -/
def UiKind.dialogSet? : UiKind → Option String
  | .progressOnly => none
  | .minimal => some "WixUI_Minimal"
  | .installDir => some "WixUI_InstallDir"
  | .featureTree => some "WixUI_FeatureTree"
  | .mondo => some "WixUI_Mondo"
  | .advanced => some "WixUI_Advanced"

/-! ## The project -/

structure Project where
  name : String
  version : String := "1.0.0.0"
  /-- The seed of every generated GUID. -/
  guid : Option Guid := none
  upgradeCode : Option Guid := none
  productId : Option Guid := none
  language : String := "en-US"
  codepage : Option UInt32 := none
  platform : Platform := .x86
  installScope : InstallScope := .perMachine
  description : Option String := none
  manufacturer : Option String := none
  /-- The feature of everything that names none. -/
  defaultFeature : Feature := { name := "Complete" }
  features : List Feature := []
  dirs : List Dir := []
  actions : List CustomAction := []
  regValues : List RegValue := []
  envVars : List EnvVar := []
  properties : List Property := []
  users : List User := []
  sqlDatabases : List SqlDatabase := []
  certificates : List Certificate := []
  binaries : List Binary := []
  launchConditions : List LaunchCondition := []
  ui : UiKind := .minimal
  /-- A program of the project's own that takes the place of the dialogs. -/
  embeddedUi : Option Binary := none
  bannerImage : Option String := none
  backgroundImage : Option String := none
  licenceFile : Option String := none
  upgradeStrategy : Option UpgradeStrategy := none
  /-- The directory from which source files are named. -/
  sourceBaseDir : String := ""
  /-- The directory of generated files. -/
  outDir : String := "."
  outFileName : Option String := none
  /-- The package has the same id as the product. -/
  emitConsistentPackageId : Bool := false
  attributes : Attributes := .empty
  packageAttributes : Attributes := .empty
  mediaAttributes : Attributes := .empty

inductive Entity where
  | dir (dir : Dir)
  | action (action : CustomAction)
  | registry (value : RegValue)
  | env (var : EnvVar)
  | property (property : Property)
  | binary (binary : Binary)
  | user (user : User)
  | sql (database : SqlDatabase)
  | certificate (certificate : Certificate)
  | launchCondition (condition : LaunchCondition)
  | feature (feature : Feature)

namespace Project

/-- The project with one more entity, behind the others of its kind. -/
def add (project : Project) : Entity → Project
  | .dir dir => { project with dirs := project.dirs ++ [dir] }
  | .action action => { project with actions := project.actions ++ [action] }
  | .registry value => { project with regValues := project.regValues ++ [value] }
  | .env var => { project with envVars := project.envVars ++ [var] }
  | .property property => { project with properties := project.properties ++ [property] }
  | .binary binary => { project with binaries := project.binaries ++ [binary] }
  | .user user => { project with users := project.users ++ [user] }
  | .sql database => { project with sqlDatabases := project.sqlDatabases ++ [database] }
  | .certificate certificate =>
    { project with certificates := project.certificates ++ [certificate] }
  | .launchCondition condition =>
    { project with launchConditions := project.launchConditions ++ [condition] }
  | .feature feature => { project with features := project.features ++ [feature] }

def feature? (project : Project) (name : String) : Option Feature :=
  if project.defaultFeature.name = name then some project.defaultFeature
  else project.features.find? fun feature => feature.name == name

/-- The default feature and every other one that does not have its name. -/
def allFeatures (project : Project) : List Feature :=
  project.defaultFeature ::
    project.features.filter fun feature => feature.name != project.defaultFeature.name

/-- The culture of the project's language, with the project's own code page if it has one. -/
def culture? (project : Project) : Option Culture :=
  (Culture.ofName? project.language).map fun culture =>
    { culture with codepage := project.codepage.getD culture.codepage }

end Project

end Installer
