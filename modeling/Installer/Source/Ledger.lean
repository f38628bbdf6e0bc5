import Installer.Error
import Installer.Ident
import Installer.Project.Basic
import Installer.Source.Extension

/-! # The ledger of a compilation

While the elements of a source document are made, a ledger is kept of what later parts of the
document depend on: the ids in use, which component belongs to which feature, the shortcut locations
and merge modules met so far, the extensions that are needed and the assemblies to package. Every
list grows at its end, so it tells the order of events.
-/

namespace Installer

/-- A managed assembly that has to be packaged before the source document can be built. -/
structure PackagingRequest where
  assembly : String
  output : String
deriving DecidableEq, Repr

structure Ledger where
  ids : IdPool := {}
  /-- Each component with the feature it was declared for. -/
  components : List (String × Option String) := []
  /-- Each shortcut location that no directory is declared for, with the feature of the first
  shortcut there. -/
  locations : List (String × Option String) := []
  /-- The id of each merge module with the feature it was declared for. -/
  mergeModules : List (String × Option String) := []
  extensions : List Extension := []
  packaging : List PackagingRequest := []

/-- A step of the compilation: it keeps the ledger and may find a fault. -/
abbrev Emit : Type → Type :=
  StateT Ledger (Except CompileError)

namespace Ledger

/-! ## Entries -/

def addComponent (ledger : Ledger) (id : String) (feature : Option String) : Ledger :=
  { ledger with components := ledger.components ++ [(id, feature)] }

/-- The ledger with a location, if it is a new one. -/
def addLocation (ledger : Ledger) (location : String) (feature : Option String) : Ledger :=
  if ledger.locations.any fun entry => entry.1 == location then ledger
  else { ledger with locations := ledger.locations ++ [(location, feature)] }

def addMergeModule (ledger : Ledger) (id : String) (feature : Option String) : Ledger :=
  { ledger with mergeModules := ledger.mergeModules ++ [(id, feature)] }

def addExtension (ledger : Ledger) (extension : Extension) : Ledger :=
  { ledger with extensions := ledger.extensions ++ [extension] }

def addPackaging (ledger : Ledger) (request : PackagingRequest) : Ledger :=
  if ledger.packaging.contains request then ledger
  else { ledger with packaging := ledger.packaging ++ [request] }

/-- The components declared for a feature, in the order in which they were made. -/
def componentsOf (ledger : Ledger) (feature : Option String) : List String :=
  (ledger.components.filter fun entry => entry.2 == feature).map Prod.fst

end Ledger

namespace Emit

/-! ## Steps -/

def fail {α : Type} (fault : CompileError) : Emit α :=
  throw fault

def note (f : Ledger → Ledger) : Emit Unit :=
  modify f

def withIds {α : Type} (step : StateM IdPool α) : Emit α :=
  modifyGet fun ledger =>
    let (result, ids) := step.run ledger.ids
    (result, { ledger with ids })

/-- The declared id, or a new one made of `name`. -/
def idOr (kind : IdKind) (declared : Option String) (name : String) : Emit String :=
  match declared with
  | some id => return id
  | none => withIds (IdPool.claim kind (Folder.identifier name))

/-- A feature that is named must be declared. The `entity` that names it is shown in the fault. -/
def checkFeature (project : Project) (entity : String) (feature : Option String) : Emit Unit :=
  match feature with
  | none => return
  | some name =>
    if (project.feature? name).isSome then return else fail (.unknownFeature entity name)

/-- Notes a component for the feature that its `entity` names. -/
def assign (project : Project) (entity : String) (feature : Option String) (id : String) :
    Emit Unit := do
  checkFeature project entity feature
  note (·.addComponent id feature)

end Emit

end Installer
