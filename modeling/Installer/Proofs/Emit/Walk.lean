import Installer.Proofs.Emit.Steps
import Installer.Source.Product

/-! # What all steps do to the ledger

A compilation adds entries to the lists of its ledger and puts ids in use.  A preorder of ledgers
that admits these changes holds across every step of it, whatever the relation is about.  A step
that gives ids needs this for the kinds of its ids alone.
-/

namespace Installer

open Markup (Element)
open Emit

namespace Ledger

/-- The relation holds when an entry is added to one of the lists. -/
structure AdmitsEntries (R : Ledger → Ledger → Prop) : Prop where
  component (ledger : Ledger) (id : String) (feature : Option String) :
    R ledger (ledger.addComponent id feature)
  location (ledger : Ledger) (location : String) (feature : Option String) :
    R ledger (ledger.addLocation location feature)
  mergeModule (ledger : Ledger) (id : String) (feature : Option String) :
    R ledger (ledger.addMergeModule id feature)
  extension (ledger : Ledger) (extension : Extension) : R ledger (ledger.addExtension extension)
  packaging (ledger : Ledger) (request : PackagingRequest) :
    R ledger (ledger.addPackaging request)

/-- The relation holds when an id of the kind is put in use. -/
structure AdmitsIds (R : Ledger → Ledger → Prop) (kind : IdKind) : Prop where
  claim (ledger : Ledger) (name : String) :
    R ledger { ledger with ids := ((IdPool.claim kind name).run ledger.ids).2 }
  reserve (ledger : Ledger) (id : String) :
    R ledger { ledger with ids := ((IdPool.reserve kind id).run ledger.ids).2 }

end Ledger

variable {R : Ledger → Ledger → Prop} [IsPreorder Ledger R] {c : Compilation}

theorem Ledger.AdmitsIds.within_idOr {kind : IdKind} (ids : AdmitsIds R kind)
    (declared : Option String) (name : String) : Within R (idOr kind declared name) :=
  .idOr (fun ledger => ids.claim ledger _) declared

/-- A property writes nothing down. -/
theorem Property.within_emit (property : Property) : Within R property.emit := by
  rw [emit]
  split
  next =>
    split
    next => exact .fail _
    next => exact .pure _
  next => exact .pure _

section

variable (admits : Ledger.AdmitsEntries R)
include admits

theorem Ledger.AdmitsEntries.within_assign (project : Project) (entity : String)
    (feature : Option String) (id : String) : Within R (assign project entity feature id) :=
  .assign (fun ledger => admits.component ledger _ _) project entity

theorem Ledger.AdmitsEntries.within_need {α : Type} (extension : Extension) (entities : List α) :
    Within R (need extension entities) := by
  rw [need]
  exact .noteUnless (fun ledger => admits.extension ledger _) (.pure _)

/-! ## Directories -/

theorem Shortcut.within_noteLocation (dirs : List Dir) (shortcut : Shortcut) :
    Within R (shortcut.noteLocation dirs) := by
  rw [noteLocation]
  split
  next => exact .note fun ledger => admits.location ledger _ _
  next => exact .pure _

theorem File.within_emit (dirId : String) (file : File) : Within R (file.emit c dirId) :=
  (admits.within_assign _ _ _ _).bind fun _ =>
    (Within.forIn (Shortcut.within_noteLocation admits c.project.dirs) file.shortcuts).bind fun _ =>
      .noteUnless (fun ledger => admits.extension ledger _) (.pure _)

theorem Shortcut.within_emit (dirId : String) (shortcut : Shortcut) :
    Within R (shortcut.emit c dirId) :=
  (admits.within_assign _ _ _ _).bind fun _ => .pure _

theorem Permission.within_emit (permission : Permission) : Within R (permission.emit c) :=
  (admits.within_assign _ _ _ _).bind fun _ => .pure _

theorem MergeModule.within_emit (module : MergeModule) : Within R (module.emit c) :=
  (Within.checkFeature _ _ _).bind fun _ =>
    (Within.note fun ledger => admits.mergeModule ledger _ _).bind fun _ => .pure _

namespace DirBody

theorem within_emitFolder (body : DirBody) (id : String) : Within R (body.emitFolder c id) :=
  (admits.within_assign _ _ _ _).bind fun _ => .pure _

theorem within_emitPermissions (body : DirBody) : Within R (body.emitPermissions c) :=
  .noteUnless (fun ledger => admits.extension ledger _)
    (.mapM (Permission.within_emit admits) body.permissions)

theorem within_emitContents (id : String) (body : DirBody) : Within R (body.emitContents c id) := by
  have rest : ∀ folder : List Element, Within R (do
      let files ← body.files.mapM (File.emit c id)
      let shortcuts ← body.shortcuts.mapM (Shortcut.emit c id)
      let modules ← body.mergeModules.mapM (MergeModule.emit c)
      let permissions ← body.emitPermissions c
      return folder ++ files ++ shortcuts ++ modules ++ permissions) := fun folder =>
    (Within.mapM (File.within_emit admits id) body.files).bind fun _ =>
      (Within.mapM (Shortcut.within_emit admits id) body.shortcuts).bind fun _ =>
        (Within.mapM (MergeModule.within_emit admits) body.mergeModules).bind fun _ =>
          (body.within_emitPermissions admits).bind fun _ => .pure _
  rw [emitContents]
  split
  next => exact ((body.within_emitFolder admits _).map _).bind rest
  next => exact (Within.pure []).bind rest

theorem within_emitEmpty (id : String) (hasComponent : Bool) (body : DirBody) :
    Within R (body.emitEmpty c id hasComponent) := by
  have rest : ∀ folder : List Element, Within R (do
      let modules ← body.mergeModules.mapM (MergeModule.emit c)
      return folder ++ modules) := fun folder =>
    (Within.mapM (MergeModule.within_emit admits) body.mergeModules).bind fun _ => .pure _
  rw [emitEmpty]
  split
  next => exact (Within.pure []).bind rest
  next => exact ((body.within_emitFolder admits _).map _).bind rest

end DirBody

theorem Dir.within_emitBody (dir : Dir) (e : Element) : Within R (dir.emitBody c e) := by
  rw [emitBody]
  split
  next => exact (dir.within_emitEmpty admits _ _).bind fun _ => .pure _
  next => exact (dir.within_emitContents admits _).bind fun _ => .pure _

end

namespace Dir

mutual

theorem within_emit (admits : Ledger.AdmitsEntries R) :
    ∀ (dir : Dir) (parent : Element), Within R (dir.emit c parent)
  | ⟨body, dirs⟩, parent => by
    rw [emit]
    exact (within_emitBody admits _ _).bind fun e =>
      (within_emitAll admits dirs e).bind fun _ => .pure _

theorem within_emitAll (admits : Ledger.AdmitsEntries R) :
    ∀ (dirs : List Dir) (parent : Element), Within R (emitAll c dirs parent)
  | [], parent => .pure parent
  | dir :: rest, parent => by
    rw [emitAll]
    exact (within_emit admits dir parent).bind fun parent => within_emitAll admits rest parent

end

variable (admits : Ledger.AdmitsEntries R)
include admits

theorem within_emitLocation (root : Element) (location : String) (feature : Option String) :
    Within R (emitLocation c root location feature) := by
  simp only [emitLocation]
  split
  next => exact .pure root
  next =>
    split
    next => exact within_emit admits _ root
    next =>
      split
      next place _ => exact (within_emit admits _ place.node).bind fun _ => .pure _
      next => exact within_emit admits _ root

theorem within_emitLocations (root : Element) : Within R (emitLocations c root) := by
  have each : ∀ (root : Element) (entry : String × Option String),
      Within R (emitLocation c root entry.1 entry.2) := fun root entry =>
    within_emitLocation admits root entry.1 entry.2
  exact Within.bind .get fun ledger => .foldlM each ledger.locations root

theorem within_emitTree : Within R (emitTree c) := by
  rw [emitTree]
  exact (within_emitAll admits _ _).bind fun tree => within_emitLocations admits tree

end Dir

/-! ## Standalone entities -/

section

variable (admits : Ledger.AdmitsEntries R)
include admits

theorem Compilation.within_emitComponent (entity : String) (feature : Option String) (id : String)
    (parts : List Element) : Within R (c.emitComponent entity feature id parts) :=
  (admits.within_assign _ _ _ _).bind fun _ => .pure _

theorem RegValue.within_emitAll (values : List (RegValue × Nat)) :
    Within R (values.mapM fun (value, n) => value.emit c n) :=
  .mapM (fun _ => (admits.within_assign _ _ _ _).bind fun _ => .pure _) values

theorem EnvVar.within_emitAll (ids : Ledger.AdmitsIds R .envVar) (vars : List (EnvVar × Nat)) :
    Within R (vars.mapM fun (var, n) => var.emit c n) :=
  .mapM (fun _ => (admits.within_assign _ _ _ _).bind fun _ =>
    (ids.within_idOr _ _).bind fun _ => .pure _) vars

theorem Certificate.within_emitAll (ids : Ledger.AdmitsIds R .certificate)
    (certificates : List (Certificate × Nat)) :
    Within R (certificates.mapM fun (cert, n) => cert.emit c n) :=
  .mapM (fun _ => (admits.within_assign _ _ _ _).bind fun _ =>
    (ids.within_idOr _ _).bind fun _ => .pure _) certificates

theorem User.within_emitAll (ids : Ledger.AdmitsIds R .user) (count : Nat) (users : List User) :
    Within R (emitAll c count users) := by
  induction users generalizing count with
  | nil => exact .pure _
  | cons user rest ih =>
    rw [emitAll]
    refine (ids.within_idOr _ _).bind fun id => ?_
    dsimp only
    split
    next =>
      exact (Compilation.within_emitComponent admits _ _ _ _).bind fun _ =>
        (ih _).bind fun _ => .pure _
    next => exact (ih _).bind fun _ => .pure _

namespace SqlDatabase

theorem within_emitInstalled (counts : Counts) (dbId : String) (db : SqlDatabase) :
    Within R (db.emitInstalled c counts dbId) :=
  (Compilation.within_emitComponent admits _ _ _ _).bind fun _ => .pure _

theorem within_emitReferred (counts : Counts) (dbId : String) (db : SqlDatabase) :
    Within R (db.emitReferred c counts dbId) :=
  (Within.mapM (fun _ => Compilation.within_emitComponent admits _ _ _ _) _).bind fun _ =>
    (Within.mapM (fun _ => Compilation.within_emitComponent admits _ _ _ _) _).bind fun _ => .pure _

theorem within_emitAll (ids : Ledger.AdmitsIds R .database) (counts : Counts)
    (dbs : List SqlDatabase) : Within R (emitAll c counts dbs) := by
  induction dbs generalizing counts with
  | nil => exact .pure _
  | cons db rest ih =>
    rw [emitAll]
    refine (ids.within_idOr _ _).bind fun id => ?_
    split
    next =>
      exact (db.within_emitInstalled admits counts id).bind fun _ => (ih _).bind fun _ => .pure _
    next =>
      exact (db.within_emitReferred admits counts id).bind fun _ => (ih _).bind fun _ => .pure _

end SqlDatabase

namespace Compilation

/-- The kinds of ids that standalone entities are given. -/
def standaloneKinds : List IdKind :=
  [.envVar, .user, .database, .certificate]

theorem within_emitStandalone (ids : ∀ kind ∈ standaloneKinds, Ledger.AdmitsIds R kind) :
    Within R c.emitStandalone := by
  simp only [standaloneKinds, List.forall_mem_cons] at ids
  obtain ⟨var, user, database, certificate, -⟩ := ids
  rw [emitStandalone]
  refine Within.bind (RegValue.within_emitAll admits _) fun _ =>
    Within.bind (EnvVar.within_emitAll admits var _) fun _ => ?_
  refine Within.bind (admits.within_need _ _) fun _ =>
    Within.bind (User.within_emitAll admits user _ _) fun _ => ?_
  refine Within.bind (admits.within_need _ _) fun _ =>
    Within.bind (SqlDatabase.within_emitAll admits database _ _) fun _ => ?_
  exact Within.bind (admits.within_need _ _) fun _ =>
    Within.bind (Certificate.within_emitAll admits certificate _) fun _ => .pure _

theorem within_emitInstalled (ids : ∀ kind ∈ standaloneKinds, Ledger.AdmitsIds R kind) :
    Within R c.emitInstalled :=
  (Dir.within_emitTree admits).bind fun _ =>
    (within_emitStandalone admits ids).bind fun _ => .pure _

end Compilation

/-! ## Binaries, actions and dialogs -/

theorem Compilation.within_package (source : String) : Within R (c.package source) :=
  (Within.note fun ledger => admits.packaging ledger _).bind fun _ => .pure _

namespace Binary

theorem within_emitSource (binary : Binary) : Within R (binary.emitSource c) := by
  rw [emitSource]
  split
  next => exact Compilation.within_package admits _
  next => exact .pure _

theorem within_emit (ids : Ledger.AdmitsIds R .binary) (binary : Binary) :
    Within R (binary.emit c) :=
  (ids.within_idOr _ _).bind fun _ => (binary.within_emitSource admits).bind fun _ => .pure _

end Binary

namespace CustomAction

theorem within_emitKind (made : List Element) (id : String) (placement : Placement)
    (action : CustomAction) : Within R (action.emitKind c made id placement) := by
  rw [emitKind]
  cases action.kind with
  | managed assembly method usesProperties =>
    refine Within.bind ?_ fun _ => .pure _
    rw [emitManagedBinary]
    split
    next => exact .pure _
    next => exact (Compilation.within_package admits _).bind fun _ => .pure _
  | quietCommand program args =>
    exact (Within.note fun ledger => admits.extension ledger _).bind fun _ => .pure _
  | setProperty | script | scriptFile | installedFile | binaryFile | pathFile => exact .pure _

theorem within_emitFrom (ids : Ledger.AdmitsIds R .action) (previous : Option String)
    (made : ActionElements) (actions : List CustomAction) :
    Within R (emitFrom c previous made actions) := by
  induction actions generalizing previous made with
  | nil => exact .pure made
  | cons action rest ih =>
    rw [emitFrom, emit]
    refine Within.bind ?_ fun _ => ih _ _
    exact (ids.within_idOr _ _).bind fun id => (Within.liftM _).bind fun placement =>
      (within_emitKind admits _ _ _ _).bind fun _ => .pure _

theorem within_emitAll (ids : Ledger.AdmitsIds R .action) : Within R (emitAll c) :=
  (Within.forIn (fun _ => .withIds fun ledger => ids.reserve ledger _) _).bind fun _ =>
    within_emitFrom admits ids _ _ _

end CustomAction

theorem Compilation.within_emitInterface (c : Compilation) (rootId : Option String) :
    Within R (c.emitInterface rootId) := by
  refine Within.noteUnless (fun ledger => admits.extension ledger _) ?_
  cases c.project.embeddedUi with
  | none => exact .pure _
  | some binary => exact (binary.within_emitSource admits).bind fun _ => .pure _

end

end Installer
