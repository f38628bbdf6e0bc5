import Installer.Proofs.Component.Standalone
import Installer.Proofs.Emit.Contract

/-! # Contracts for standalone entities

The emission of standalone entities succeeds exactly if the features of all bookings are declared.
It writes no merge modules, and the GUID of each component follows from its id alone.
-/

namespace Installer

open Markup (Element)
open Markup.Element
open Emit (Contract)

namespace Compilation

/-- The GUID of the element is the one that its id has in this compilation. -/
def Stamps (c : Compilation) (e : Element) : Prop :=
  e.attrOf? "Guid" = e.id?.map fun id => toString (c.seed.ofComponent id)

variable {c : Compilation}

theorem stamps_component (id : String) : c.Stamps (c.component id) := by
  simp [Stamps, component, attrOf?, Element.id?, List.lookup_cons]

/-- The GUID is seen in the tag. -/
theorem Stamps.of_attrs {e f : Element} (stamps : c.Stamps e) (same : f.attrs = e.attrs) :
    c.Stamps f := by
  simpa only [Stamps, attrOf?, Element.id?, same] using stamps

theorem Stamps.attr {e : Element} (stamps : c.Stamps e) {name : String} (id : name ≠ "Id")
    (guid : name ≠ "Guid") (value : String) : c.Stamps (e.attr name value) := by
  rw [Stamps, Element.id?, attrOf?_attr_of_ne e guid.symm, attrOf?_attr_of_ne e id.symm]
  exact stamps

theorem contract_emitComponent (entity id : String) (feature : Option String)
    (parts : List Element) :
    Contract (c.emitComponent entity feature id parts) (c.project.Declares feature) []
      c.Stamps := by
  have made : c.Stamps ((c.component id).addAll parts) := (stamps_component id).of_attrs rfl
  exact (Contract.assign entity feature id).yields fun _ _ => made

end Compilation

variable {c : Compilation}

/-! ## Single entities -/

theorem RegValue.contract_emit (n : Nat) (value : RegValue) :
    Contract (value.emit c n) (c.project.Declares value.feature) [] c.Stamps := by
  have start : ∀ id, c.Stamps
      (if value.win64 then (c.component id).attr "Win64" "yes" else c.component id) := by
    intro id
    split
    next => exact (c.stamps_component id).attr (by decide) (by decide) _
    next => exact c.stamps_component id
  have made : ∀ id, c.Stamps (value.component c id) := fun id => (start id).of_attrs rfl
  exact (Contract.assign _ _ _).yields fun _ _ => made _

theorem EnvVar.contract_emit (n : Nat) (var : EnvVar) :
    Contract (var.emit c n) (c.project.Declares var.feature) [] c.Stamps := by
  have made : ∀ id varId, c.Stamps
      (((c.component id).addAll (var.condition.map Condition.element).toList).add
        (var.element varId)) := fun id _ => (c.stamps_component id).of_attrs rfl
  exact ((Contract.assign _ _ _).andThen fun _ => (Contract.idOr _ _ _).yields fun varId _ =>
    made _ varId).congr (by simp) rfl fun _ holds => holds

theorem Certificate.contract_emit (n : Nat) (cert : Certificate) :
    Contract (cert.emit c n) (c.project.Declares cert.feature) [] c.Stamps := by
  have made : ∀ id certId, c.Stamps ((c.component id).add (cert.element certId)) :=
    fun id _ => (c.stamps_component id).of_attrs rfl
  exact ((Contract.assign _ _ _).andThen fun _ => (Contract.idOr _ _ _).yields fun certId _ =>
    made _ certId).congr (by simp) rfl fun _ holds => holds

/-! ## Families -/

def StandaloneElements.AreStamped (c : Compilation) (elements : StandaloneElements) : Prop :=
  ∀ x ∈ elements.components, c.Stamps x

namespace StandaloneElements.AreStamped

variable {elements₁ elements₂ : StandaloneElements}

theorem append (first : elements₁.AreStamped c) (second : elements₂.AreStamped c) :
    (elements₁ ++ elements₂).AreStamped c :=
  List.forall_mem_append.mpr ⟨first, second⟩

theorem none {declarations : List Element} :
    StandaloneElements.AreStamped c { declarations } := by
  simp [AreStamped]

end StandaloneElements.AreStamped

theorem Emit.contract_need {α : Type} (extension : Extension) (entities : List α) :
    Contract (Emit.need extension entities) True [] fun _ => True := by
  rw [need]
  split
  next => exact .returns trivial
  next => exact .noteExtension extension

theorem User.contract_emitAll (users : List User) (count : Nat) :
    Contract (emitAll c count users) (c.project.DeclaresAll (bookings count users)) []
      (·.AreStamped c) := by
  induction users generalizing count with
  | nil => exact (Contract.returns .none).congr (by simp [bookings]) rfl fun _ holds => holds
  | cons user rest ih =>
    rw [emitAll, bookings]
    refine (Contract.idOr .user user.id user.name).after fun id => ?_
    split
    next installed =>
      refine ((c.contract_emitComponent _ _ user.feature _).bind fun component stamped =>
        (ih (count + 1)).yields fun others stamped' => ?_).congr (by simp) rfl
          fun _ holds => holds
      exact StandaloneElements.AreStamped.append (by simpa [StandaloneElements.AreStamped]) stamped'
    next referred => exact (ih count).yields fun others stamped => .append .none stamped

namespace SqlDatabase

theorem contract_emitInstalled (db : SqlDatabase) (counts : Counts) (dbId : String) :
    Contract (db.emitInstalled c counts dbId) (c.project.Declares db.feature) []
      (·.AreStamped c) := by
  refine (c.contract_emitComponent _ _ db.feature _).yields fun component stamped => ?_
  simpa [StandaloneElements.AreStamped] using stamped

theorem contract_emitReferred (db : SqlDatabase) (counts : Counts) (dbId : String) :
    Contract (db.emitReferred c counts dbId)
      (c.project.DeclaresAll (db.referredBookings counts)) [] (·.AreStamped c) := by
  have strings := Contract.mapM_forall (fun sql : SqlString × Nat =>
    c.contract_emitComponent ("SQL string of '" ++ db.database ++ "'")
      ("SqlString" ++ toString (counts.strings + sql.2 + 1)) sql.1.feature
        [sql.1.element (stringId dbId sql.1 sql.2) dbId]) db.strings.zipIdx
  have scripts := Contract.mapM_forall (fun script : SqlScript × Nat =>
    c.contract_emitComponent ("SQL script of '" ++ db.database ++ "'")
      ("SqlScript" ++ toString (counts.scripts + script.2 + 1)) script.1.feature
        [script.1.element (scriptId dbId script.1 script.2) dbId]) db.scripts.zipIdx
  exact (strings.bind fun _ stamped => scripts.yields fun _ stamped' =>
    List.forall_mem_append.mpr ⟨stamped, stamped'⟩).congr (by simp [referredBookings]) rfl
      fun _ holds => holds

theorem contract_emitAll (dbs : List SqlDatabase) (counts : Counts) :
    Contract (emitAll c counts dbs) (c.project.DeclaresAll (bookings counts dbs)) []
      (·.AreStamped c) := by
  induction dbs generalizing counts with
  | nil => exact (Contract.returns .none).congr (by simp [bookings]) rfl fun _ holds => holds
  | cons db rest ih =>
    rw [emitAll, bookings]
    refine (Contract.idOr .database db.id db.database).after fun dbId => ?_
    split
    next installed =>
      exact ((db.contract_emitInstalled counts dbId).bind fun first stamped =>
        (ih _).yields fun others stamped' => .append stamped stamped').congr (by simp) rfl
          fun _ holds => holds
    next referred =>
      exact ((db.contract_emitReferred counts dbId).bind fun first stamped =>
        (ih _).yields fun others stamped' => .append stamped stamped').congr (by simp) rfl
          fun _ holds => holds

end SqlDatabase

/-! ## All of them -/

theorem Compilation.contract_emitStandalone (c : Compilation) :
    Contract c.emitStandalone (c.project.DeclaresAll c.project.standaloneBookings) []
      (·.AreStamped c) := by
  have values := Contract.mapM_forall (fun entry : RegValue × Nat =>
    entry.1.contract_emit (c := c) entry.2) (c.project.regValues.zipIdx 1)
  have vars := Contract.mapM_forall (fun entry : EnvVar × Nat =>
    entry.1.contract_emit (c := c) entry.2) (c.project.envVars.zipIdx 1)
  have certificates := Contract.mapM_forall (fun entry : Certificate × Nat =>
    entry.1.contract_emit (c := c) entry.2) (c.project.certificates.zipIdx 1)
  refine (values.bind fun _ first => vars.bind fun _ second =>
    (Emit.contract_need .util c.project.users).after fun _ =>
    (User.contract_emitAll c.project.users 0).bind fun users third =>
    (Emit.contract_need .sql c.project.sqlDatabases).after fun _ =>
    (SqlDatabase.contract_emitAll c.project.sqlDatabases {}).bind fun databases fourth =>
    (Emit.contract_need .iis c.project.certificates).after fun _ =>
    certificates.yields fun _ fifth => ?_).congr ?_ rfl fun _ holds => holds
  · have own : StandaloneElements.AreStamped c { components := _ ++ _ } :=
      List.forall_mem_append.mpr ⟨first, second⟩
    exact ((own.append third).append fourth).append fifth
  · simp [Project.standaloneBookings, Family.bookings]

end Installer
