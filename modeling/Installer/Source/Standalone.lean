import Installer.Markup.Element
import Installer.Source.Compilation
import Installer.Source.Ledger

/-! # Standalone entities in the source document

Registry values, environment variables, users, databases and certificates belong to no directory.
Those that the installation sets up have components, numbered within their family, which all go to
one directory; those it only refers to are declared in the product itself.
-/

namespace Installer

open Markup (Element)

structure StandaloneElements where
  /-- Components, for a directory. -/
  components : List Element := []
  /-- Declarations, for the product. -/
  declarations : List Element := []

namespace StandaloneElements

protected def append (s t : StandaloneElements) : StandaloneElements :=
  ⟨s.components ++ t.components, s.declarations ++ t.declarations⟩

instance : Append StandaloneElements := ⟨StandaloneElements.append⟩

end StandaloneElements

/-- Sets an attribute for each setting that is made. -/
def Markup.Element.withFlags (e : Element) (flags : List (String × Option Bool)) : Element :=
  flags.foldl (fun e flag => e.attr? flag.1 (flag.2.map yesNo)) e

/-- Makes a component that holds `parts`, for the feature that the `entity` names. -/
def Compilation.emitComponent (c : Compilation) (entity : String) (feature : Option String)
    (id : String) (parts : List Element) : Emit Element := do
  Emit.assign c.project entity feature id
  return (c.component id).addAll parts

/-! ## Registry values -/

namespace RegValue

def keyElement (value : RegValue) : Element :=
  let root := ({ name := "RegistryKey" : Element }).attr "Root" (Choice.name value.root)
  let flag (b : Bool) : Option String := if b then some "yes" else none
  (((root.attr? "Key" (if value.key.isEmpty then none else some value.key)).attr?
    "Action" (value.keyAction.map Choice.name)).attr?
    "ForceCreateOnInstall" (flag value.forceCreateOnInstall)).attr?
    "ForceDeleteOnUninstall" (flag value.forceDeleteOnUninstall)

/-- The element of the value. A value of several texts has one line for each. -/
def valueElement (value : RegValue) : Element :=
  let typed : Element :=
    { name := "RegistryValue", attrs := [("Type", Choice.name value.kind), ("KeyPath", "yes")] }
  let named := (typed.attr? "Name" (if value.name.isEmpty then none else some value.name)).withAttrs
    value.attributes.pairs
  let text := Folder.commandText value.value
  match value.kind with
  | .multiString => named.addAll <| (Text.lines text.toList).map fun line =>
      ({ name := "MultiStringValue" : Element }).addText (String.ofList line)
  | _ => named.attr "Value" text

def component (c : Compilation) (id : String) (value : RegValue) : Element :=
  let component := c.component id
  let component := if value.win64 then component.attr "Win64" "yes" else component
  (component.addAll (value.condition.map Condition.element).toList).add
    (value.keyElement.add value.valueElement)

def emit (c : Compilation) (n : Nat) (value : RegValue) : Emit Element := do
  let id := "Registry" ++ toString n
  Emit.assign c.project ("registry value '" ++ value.name ++ "'") value.feature id
  return value.component c id

end RegValue

/-! ## Environment variables -/

namespace EnvVar

def element (id : String) (var : EnvVar) : Element :=
  let named : Element :=
    { name := "Environment"
      attrs := [("Id", id), ("Name", var.name), ("Value", Folder.commandText var.value)] }
  ((named.attr? "Part" (var.part.map Choice.name)).withAttrs
    [("Action", Choice.name var.action), ("Permanent", yesNo var.permanent),
     ("System", yesNo var.system)]).withAttrs var.attributes.pairs

def emit (c : Compilation) (n : Nat) (var : EnvVar) : Emit Element := do
  let id := "EnvVars" ++ toString n
  Emit.assign c.project ("environment variable '" ++ var.name ++ "'") var.feature id
  let varId ← Emit.idOr .envVar var.id var.name
  return ((c.component id).addAll (var.condition.map Condition.element).toList).add
    (var.element varId)

end EnvVar

/-! ## Users -/

namespace User

def element (id : String) (user : User) : Element :=
  let named : Element := { name := "util:User", attrs := [("Id", id), ("Name", user.name)] }
  ((((named.attr? "Domain" user.domain).attr? "Password" user.password).withFlags
    user.flags)).withAttrs user.attributes.pairs

def emitAll (c : Compilation) (count : Nat) : List User → Emit StandaloneElements
  | [] => return {}
  | user :: rest => do
    let e := user.element (← Emit.idOr .user user.id user.name)
    if user.isInstalled then
      let component ← c.emitComponent ("user '" ++ user.name ++ "'") user.feature
        ("User" ++ toString (count + 1)) [e]
      return { components := [component] } ++ (← emitAll c (count + 1) rest)
    else return { declarations := [e] } ++ (← emitAll c count rest)

end User

/-! ## Databases -/

/-- The attributes that tell when a statement or a script is run. -/
def SqlExecution.attrs (execution : SqlExecution) : List (String × String) :=
  ([("ExecuteOnInstall", execution.onInstall), ("ExecuteOnReinstall", execution.onReinstall),
    ("ExecuteOnUninstall", execution.onUninstall),
    ("ContinueOnError", execution.continueOnError)].filter Prod.snd).map
      (fun flag => (flag.1, "yes")) ++
    (execution.sequence.map fun n => ("Sequence", toString n)).toList

def SqlString.element (id : String) (dbId : Option String) (sql : SqlString) : Element :=
  ((({ name := "sql:SqlString", attrs := [("Id", id), ("SQL", sql.sql)] : Element }).attr?
    "SqlDb" dbId)).withAttrs sql.execution.attrs

def SqlScript.element (id : String) (dbId : Option String) (script : SqlScript) : Element :=
  ((({ name := "sql:SqlScript",
       attrs := [("Id", id), ("BinaryKey", script.binaryKey)] : Element }).attr?
    "SqlDb" dbId)).withAttrs script.execution.attrs

namespace SqlDatabase

/-- The element of a database without its statements. -/
def element (id : String) (db : SqlDatabase) : Element :=
  let named : Element :=
    { name := "sql:SqlDatabase"
      attrs := [("Id", id), ("Database", db.database), ("Server", db.server)] }
  ((named.attr? "Instance" db.instanceName).attr? "User" db.user).withFlags db.flags

def stringId (dbId : String) (sql : SqlString) (n : Nat) : String :=
  sql.id.getD (dbId ++ ".SqlString" ++ toString (n + 1))

def scriptId (dbId : String) (script : SqlScript) (n : Nat) : String :=
  script.id.getD (dbId ++ ".SqlScript" ++ toString (n + 1))

/-- The elements of the statements and scripts of a database. -/
def parts (db : SqlDatabase) (dbId : String) (reference : Option String) : List Element :=
  db.strings.mapIdx (fun n sql => sql.element (stringId dbId sql n) reference) ++
    db.scripts.mapIdx (fun n script => script.element (scriptId dbId script n) reference)

/-- How many components of each family have been made for databases. -/
structure Counts where
  databases : Nat := 0
  strings : Nat := 0
  scripts : Nat := 0

/-- Makes the elements of an installed database: one component, with everything inside. -/
def emitInstalled (c : Compilation) (counts : Counts) (dbId : String) (db : SqlDatabase) :
    Emit StandaloneElements := do
  let component ← c.emitComponent ("database '" ++ db.database ++ "'") db.feature
    ("SqlDatabase" ++ toString (counts.databases + 1))
    [(db.element dbId).addAll (db.parts dbId none)]
  return { components := [component] }

/-- Makes the elements of a database that is only referred to: a declaration, and a component for
each statement and each script. -/
def emitReferred (c : Compilation) (counts : Counts) (dbId : String) (db : SqlDatabase) :
    Emit StandaloneElements := do
  let strings ← db.strings.zipIdx.mapM fun (sql, n) =>
    c.emitComponent ("SQL string of '" ++ db.database ++ "'") sql.feature
      ("SqlString" ++ toString (counts.strings + n + 1)) [sql.element (stringId dbId sql n) dbId]
  let scripts ← db.scripts.zipIdx.mapM fun (script, n) =>
    c.emitComponent ("SQL script of '" ++ db.database ++ "'") script.feature
      ("SqlScript" ++ toString (counts.scripts + n + 1))
      [script.element (scriptId dbId script n) dbId]
  return { components := strings ++ scripts, declarations := [db.element dbId] }

def emitAll (c : Compilation) (counts : Counts) : List SqlDatabase → Emit StandaloneElements
  | [] => return {}
  | db :: rest => do
    let dbId ← Emit.idOr .database db.id db.database
    if db.isInstalled then
      let first ← db.emitInstalled c counts dbId
      return first ++ (← emitAll c { counts with databases := counts.databases + 1 } rest)
    else
      let first ← db.emitReferred c counts dbId
      return first ++ (← emitAll c
        { counts with
          strings := counts.strings + db.strings.length
          scripts := counts.scripts + db.scripts.length } rest)

end SqlDatabase

/-! ## Certificates -/

namespace Certificate

def element (id : String) (cert : Certificate) : Element :=
  let named : Element :=
    { name := "iis:Certificate"
      attrs :=
        [("Id", id), ("Name", cert.name), ("StoreLocation", cert.storeLocation),
         ("StoreName", cert.storeName)] }
  let kept := ((named.attr? "BinaryKey" cert.binaryKey).attr?
    "CertificatePath" cert.certificatePath).attr? "PFXPassword" cert.pfxPassword
  (kept.withAttrs [("Request", yesNo cert.request), ("Overwrite", yesNo cert.overwrite)]).withAttrs
    cert.attributes.pairs

def emit (c : Compilation) (n : Nat) (cert : Certificate) : Emit Element := do
  let id := "Certificate" ++ toString n
  Emit.assign c.project ("certificate '" ++ cert.name ++ "'") cert.feature id
  return (c.component id).add (cert.element (← Emit.idOr .certificate cert.id cert.name))

end Certificate

/-! ## All of them -/

/-- Notes that an extension is needed if there is anything that needs it. -/
def Emit.need {α : Type} (extension : Extension) (entities : List α) : Emit Unit := do
  unless entities.isEmpty do
    note (·.addExtension extension)

def Compilation.emitStandalone (c : Compilation) : Emit StandaloneElements := do
  let values ← (c.project.regValues.zipIdx 1).mapM fun (value, n) => value.emit c n
  let vars ← (c.project.envVars.zipIdx 1).mapM fun (var, n) => var.emit c n
  Emit.need .util c.project.users
  let users ← User.emitAll c 0 c.project.users
  Emit.need .sql c.project.sqlDatabases
  let databases ← SqlDatabase.emitAll c {} c.project.sqlDatabases
  Emit.need .iis c.project.certificates
  let certificates ← (c.project.certificates.zipIdx 1).mapM fun (cert, n) => cert.emit c n
  return { components := values ++ vars } ++ users ++ databases ++ { components := certificates }

end Installer
