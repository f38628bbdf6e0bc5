import Installer.Proofs.Emit.Walk
import Installer.Proofs.Ident.Given

/-! # Which steps touch the ids of a kind

Ids are claimed for standalone entities, actions and binaries alone, each in steps of their own, and
reserved for actions.  All other steps leave the ids of a kind as they are.
-/

namespace Installer

open Markup (Element)

namespace Ledger

def SameIds (kind : IdKind) (before after : Ledger) : Prop :=
  IdPool.AgreeOn kind before.ids after.ids

instance (kind : IdKind) : IsPreorder Ledger (SameIds kind) where
  refl ledger := .refl ledger.ids
  trans _ _ _ := IdPool.AgreeOn.trans

theorem SameIds.of_eq {kind : IdKind} {before after : Ledger} (same : after.ids = before.ids) :
    SameIds kind before after := by
  rw [SameIds, same]
  exact .refl _

variable {kind other : IdKind}

theorem admitsEntries_sameIds (kind : IdKind) : AdmitsEntries (SameIds kind) where
  component _ _ _ := .of_eq rfl
  location ledger location feature := by
    refine .of_eq ?_
    rw [addLocation]
    split <;> rfl
  mergeModule _ _ _ := .of_eq rfl
  extension _ _ := .of_eq rfl
  packaging ledger request := by
    refine .of_eq ?_
    rw [addPackaging]
    split <;> rfl

theorem admitsIds_sameIds (apart : kind ≠ other) : AdmitsIds (SameIds kind) other where
  claim ledger _ := .of_claim apart _ ledger.ids
  reserve ledger _ := .of_reserve apart _ ledger.ids

end Ledger

open Ledger (admitsEntries_sameIds admitsIds_sameIds)

namespace Emit

variable {α : Type} {kind : IdKind}

abbrev KeepsIds (kind : IdKind) (step : Emit α) : Prop :=
  Within (Ledger.SameIds kind) step

theorem keepsIds_assign (project : Project) (entity : String) (feature : Option String)
    (id : String) : KeepsIds kind (assign project entity feature id) :=
  (admitsEntries_sameIds kind).within_assign project entity feature id

theorem keepsIds_need (extension : Extension) (entities : List α) :
    KeepsIds kind (need extension entities) :=
  (admitsEntries_sameIds kind).within_need extension entities

/-- An entity gets its id from the pool of the ledger. -/
theorem gives_idOr_iff {declared : Option String} {name result : String} {before after : Ledger} :
    (idOr kind declared name).Gives before result after ↔
      result = ((IdPool.give kind ⟨declared, name⟩).run before.ids).1 ∧
        after = { before with ids := ((IdPool.give kind ⟨declared, name⟩).run before.ids).2 } := by
  cases declared with
  | some id =>
    rw [idOr, gives_pure, eq_comm, @eq_comm _ before]
    rfl
  | none =>
    rw [idOr, IdPool.give_of_undeclared rfl]
    exact gives_withIds

end Emit

open Emit

variable {c : Compilation} {kind : IdKind}

/-- The tree of directories is made with ids that were all given before. -/
theorem Dir.keepsIds_emitTree : KeepsIds kind (emitTree c) :=
  within_emitTree (admitsEntries_sameIds kind)

/-! ## Standalone entities -/

theorem Compilation.keepsIds_emitComponent (entity : String) (feature : Option String) (id : String)
    (parts : List Element) : KeepsIds kind (c.emitComponent entity feature id parts) :=
  within_emitComponent (admitsEntries_sameIds kind) entity feature id parts

theorem RegValue.keepsIds_emitAll (values : List (RegValue × Nat)) :
    KeepsIds kind (values.mapM fun (value, n) => value.emit c n) :=
  within_emitAll (admitsEntries_sameIds kind) values

theorem EnvVar.keepsIds_emitAll (apart : kind ≠ .envVar) (vars : List (EnvVar × Nat)) :
    KeepsIds kind (vars.mapM fun (var, n) => var.emit c n) :=
  within_emitAll (admitsEntries_sameIds kind) (admitsIds_sameIds apart) vars

theorem User.keepsIds_emitAll (apart : kind ≠ .user) (count : Nat) (users : List User) :
    KeepsIds kind (emitAll c count users) :=
  within_emitAll (admitsEntries_sameIds kind) (admitsIds_sameIds apart) count users

namespace SqlDatabase

theorem keepsIds_emitInstalled (counts : Counts) (dbId : String) (db : SqlDatabase) :
    KeepsIds kind (db.emitInstalled c counts dbId) :=
  within_emitInstalled (admitsEntries_sameIds kind) counts dbId db

theorem keepsIds_emitReferred (counts : Counts) (dbId : String) (db : SqlDatabase) :
    KeepsIds kind (db.emitReferred c counts dbId) :=
  within_emitReferred (admitsEntries_sameIds kind) counts dbId db

theorem keepsIds_emitAll (apart : kind ≠ .database) (counts : Counts) (dbs : List SqlDatabase) :
    KeepsIds kind (emitAll c counts dbs) :=
  within_emitAll (admitsEntries_sameIds kind) (admitsIds_sameIds apart) counts dbs

end SqlDatabase

/-- Directories and standalone entities leave the ids of actions and binaries alone. -/
theorem Compilation.keepsIds_emitInstalled (apart : kind ∉ standaloneKinds) :
    KeepsIds kind c.emitInstalled :=
  within_emitInstalled (admitsEntries_sameIds kind) fun _ among =>
    admitsIds_sameIds fun same => apart (same ▸ among)

/-! ## Properties, binaries and actions -/

theorem Property.keepsIds_emit (property : Property) : KeepsIds kind property.emit :=
  property.within_emit

theorem Binary.keepsIds_emitSource (binary : Binary) : KeepsIds kind (binary.emitSource c) :=
  binary.within_emitSource (admitsEntries_sameIds kind)

theorem CustomAction.keepsIds_emitAll (apart : kind ≠ .action) : KeepsIds kind (emitAll c) :=
  within_emitAll (admitsEntries_sameIds kind) (admitsIds_sameIds apart)

end Installer
