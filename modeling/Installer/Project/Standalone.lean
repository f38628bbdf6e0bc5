import Installer.Project.Attributes
import Installer.Project.Choice

/-! # Standalone entities

What an installation sets up apart from directories and files: registry values, environment
variables, user accounts, databases and certificates. Properties and binaries go with the package
and are not installed.
-/

namespace Installer

/-! ## Registry values -/

inductive RegistryHive where
  | localMachine
  | currentUser
  | classesRoot
  | users
  /-- The local machine for an installation per machine, the current user otherwise. -/
  | machineOrUser
deriving DecidableEq, Repr

instance : Choice RegistryHive where
  all := [.localMachine, .currentUser, .classesRoot, .users, .machineOrUser]
  name
    | .localMachine => "HKLM"
    | .currentUser => "HKCU"
    | .classesRoot => "HKCR"
    | .users => "HKU"
    | .machineOrUser => "HKMU"

def RegistryHive.longName? : RegistryHive → Option String
  | .localMachine => some "HKEY_LOCAL_MACHINE"
  | .currentUser => some "HKEY_CURRENT_USER"
  | .classesRoot => some "HKEY_CLASSES_ROOT"
  | .users => some "HKEY_USERS"
  | .machineOrUser => none

inductive RegValueKind where
  | string
  | integer
  | expandable
  | multiString
  | binary
deriving DecidableEq, Repr

instance : Choice RegValueKind where
  all := [.string, .integer, .expandable, .multiString, .binary]
  name
    | .string => "string"
    | .integer => "integer"
    | .expandable => "expandable"
    | .multiString => "multiString"
    | .binary => "binary"

inductive RegistryKeyAction where
  | create
  | createAndRemoveOnUninstall
  | none
deriving DecidableEq, Repr

instance : Choice RegistryKeyAction where
  all := [.create, .createAndRemoveOnUninstall, .none]
  name
    | .create => "create"
    | .createAndRemoveOnUninstall => "createAndRemoveOnUninstall"
    | .none => "none"

structure RegValue where
  root : RegistryHive
  key : String
  /-- The name of the value, empty for the default value of the key. -/
  name : String := ""
  value : String := ""
  kind : RegValueKind := .string
  keyAction : Option RegistryKeyAction := none
  forceCreateOnInstall : Bool := false
  forceDeleteOnUninstall : Bool := false
  /-- The value goes to the 64-bit registry. -/
  win64 : Bool := false
  feature : Option String := none
  condition : Option Condition := none
  attributes : Attributes := .empty

/-! ## Environment variables -/

inductive EnvVarAction where
  | set
  | create
  | remove
deriving DecidableEq, Repr

instance : Choice EnvVarAction where
  all := [.set, .create, .remove]
  name
    | .set => "set"
    | .create => "create"
    | .remove => "remove"

inductive EnvVarPart where
  | all
  | first
  | last
deriving DecidableEq, Repr

instance : Choice EnvVarPart where
  all := [.all, .first, .last]
  name
    | .all => "all"
    | .first => "first"
    | .last => "last"

structure EnvVar where
  name : String
  value : String := ""
  id : Option String := none
  part : Option EnvVarPart := none
  action : EnvVarAction := .set
  /-- The variable stays when the package is removed. -/
  permanent : Bool := false
  /-- The variable is one of the system and not of a user. -/
  system : Bool := true
  feature : Option String := none
  condition : Option Condition := none
  attributes : Attributes := .empty

/-! ## Users -/

/-- An account of the machine or of a domain. -/
structure User where
  name : String
  id : Option String := none
  domain : Option String := none
  password : Option String := none
  createUser : Option Bool := none
  updateIfExists : Option Bool := none
  removeOnUninstall : Option Bool := none
  failIfExists : Option Bool := none
  passwordNeverExpires : Option Bool := none
  canNotChangePassword : Option Bool := none
  feature : Option String := none
  attributes : Attributes := .empty

/-- The settings that only an installed user has, each with the attribute that writes it. -/
def User.flags (user : User) : List (String × Option Bool) :=
  [("CreateUser", user.createUser),
   ("UpdateIfExists", user.updateIfExists),
   ("RemoveOnUninstall", user.removeOnUninstall),
   ("FailIfExists", user.failIfExists),
   ("PasswordNeverExpires", user.passwordNeverExpires),
   ("CanNotChangePassword", user.canNotChangePassword)]

/-- The installation sets the account up; without such a setting it is only referred to. -/
def User.isInstalled (user : User) : Bool :=
  user.flags.any fun flag => flag.2.isSome

/-! ## Databases -/

structure SqlExecution where
  onInstall : Bool := false
  onReinstall : Bool := false
  onUninstall : Bool := false
  continueOnError : Bool := false
  sequence : Option UInt32 := none

structure SqlString where
  sql : String
  id : Option String := none
  execution : SqlExecution := {}
  feature : Option String := none

structure SqlScript where
  binaryKey : String
  id : Option String := none
  execution : SqlExecution := {}
  feature : Option String := none

structure SqlDatabase where
  database : String
  server : String
  id : Option String := none
  instanceName : Option String := none
  user : Option String := none
  createOnInstall : Option Bool := none
  createOnReinstall : Option Bool := none
  createOnUninstall : Option Bool := none
  dropOnInstall : Option Bool := none
  dropOnReinstall : Option Bool := none
  dropOnUninstall : Option Bool := none
  confirmOverwrite : Option Bool := none
  continueOnError : Option Bool := none
  strings : List SqlString := []
  scripts : List SqlScript := []
  feature : Option String := none

/-- The settings that only an installed database has, each with the attribute that writes it. -/
def SqlDatabase.flags (db : SqlDatabase) : List (String × Option Bool) :=
  [("CreateOnInstall", db.createOnInstall),
   ("CreateOnReinstall", db.createOnReinstall),
   ("CreateOnUninstall", db.createOnUninstall),
   ("DropOnInstall", db.dropOnInstall),
   ("DropOnReinstall", db.dropOnReinstall),
   ("DropOnUninstall", db.dropOnUninstall),
   ("ConfirmOverwrite", db.confirmOverwrite),
   ("ContinueOnError", db.continueOnError)]

/-- The installation creates or drops the database. -/
def SqlDatabase.isInstalled (db : SqlDatabase) : Bool :=
  db.flags.any fun flag => flag.2.isSome

/-! ## Certificates -/

structure Certificate where
  name : String
  id : Option String := none
  storeLocation : String
  storeName : String
  binaryKey : Option String := none
  certificatePath : Option String := none
  pfxPassword : Option String := none
  request : Bool := false
  overwrite : Bool := false
  feature : Option String := none
  attributes : Attributes := .empty

/-! ## Properties and binaries -/

/-- A look-up in the registry that gives a property its first value. -/
structure RegistrySearch where
  root : RegistryHive
  key : String
  /-- The name of the value, empty for the default value of the key. -/
  entryName : String := ""

/-- A property of the installer: one with a value, one looked up in the registry, or a reference to
one that is defined elsewhere. -/
structure Property where
  name : String
  value : String := ""
  registry : Option RegistrySearch := none
  /-- The property is defined elsewhere. -/
  isRef : Bool := false
  attributes : Attributes := .empty

/-- A file that the package carries without installing it. -/
structure Binary where
  /-- Where the file is when the package is built. -/
  name : String
  id : Option String := none
  /-- The file is a managed assembly, which has to be packaged before it can be called. -/
  managed : Bool := false
  attributes : Attributes := .empty

end Installer
