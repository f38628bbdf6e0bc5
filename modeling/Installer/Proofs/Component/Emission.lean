import Installer.Proofs.Emit.Steps
import Installer.Source.Standalone

/-! # What the components of standalone entities have in common

A property of components and one of declarations hold of all that is made for the standalone
entities of a project if they hold of what is made for each entity.
-/

namespace Installer

open Markup (Element)
open Emit

/-- Every component and every declaration has its property. -/
structure StandaloneElements.Each (whole part : Element → Prop) (elements : StandaloneElements) :
    Prop where
  components : ∀ x ∈ elements.components, whole x
  declarations : ∀ x ∈ elements.declarations, part x

namespace StandaloneElements.Each

variable {whole part : Element → Prop} {elements₁ elements₂ : StandaloneElements}

theorem nil : StandaloneElements.Each whole part {} :=
  ⟨List.forall_mem_nil _, List.forall_mem_nil _⟩

theorem append (first : elements₁.Each whole part) (second : elements₂.Each whole part) :
    (elements₁ ++ elements₂).Each whole part :=
  ⟨List.forall_mem_append.mpr ⟨first.components, second.components⟩,
    List.forall_mem_append.mpr ⟨first.declarations, second.declarations⟩⟩

theorem of_components {components : List Element} (each : ∀ x ∈ components, whole x) :
    StandaloneElements.Each whole part { components } :=
  ⟨each, List.forall_mem_nil _⟩

end StandaloneElements.Each

/-- The elements of the project's standalone entities have one property, and the components that
hold them have another. -/
structure Compilation.Establishes (c : Compilation) (whole part : Element → Prop) : Prop where
  around : ∀ id {x}, part x → whole ((c.component id).add x)
  values : ∀ value ∈ c.project.regValues, ∀ id, whole (value.component c id)
  vars : ∀ var ∈ c.project.envVars, ∀ id varId,
    whole (((c.component id).addAll (var.condition.map Condition.element).toList).add
      (var.element varId))
  users : ∀ user ∈ c.project.users, ∀ id, part (user.element id)
  databases : ∀ db ∈ c.project.sqlDatabases, ∀ id, part (db.element id)
  installed : ∀ db ∈ c.project.sqlDatabases, ∀ id,
    part ((db.element id).addAll (db.parts id none))
  strings : ∀ db ∈ c.project.sqlDatabases, ∀ (sql : SqlString) id dbId, part (sql.element id dbId)
  scripts : ∀ db ∈ c.project.sqlDatabases, ∀ (script : SqlScript) id dbId,
    part (script.element id dbId)
  certificates : ∀ cert ∈ c.project.certificates, ∀ id, part (cert.element id)

namespace Compilation.Establishes

variable {c : Compilation} {whole part : Element → Prop} (establishes : c.Establishes whole part)
include establishes

theorem emitComponent {x : Element} (holds : part x) (entity : String) (feature : Option String)
    (id : String) : Yields (c.emitComponent entity feature id [x]) whole :=
  .after fun _ => .returns (establishes.around id holds)

theorem emitUsers {users : List User} (known : ∀ user ∈ users, user ∈ c.project.users)
    (count : Nat) : Yields (User.emitAll c count users) (StandaloneElements.Each whole part) := by
  -- the count only numbers the components, which is why it is free
  induction users generalizing count with
  | nil => exact .returns .nil
  | cons user rest ih =>
    rw [List.forall_mem_cons] at known
    rw [User.emitAll]
    refine .after fun id => ?_
    have own := establishes.users user known.1 id
    split
    next =>
      refine (establishes.emitComponent own _ _ _).bind fun component holds =>
        (ih known.2 _).bind fun others holds' => .returns (.append (.of_components ?_) holds')
      exact List.forall_mem_singleton.mpr holds
    next =>
      exact (ih known.2 _).bind fun others holds =>
        .returns (.append ⟨List.forall_mem_nil _, List.forall_mem_singleton.mpr own⟩ holds)

theorem emitInstalled {db : SqlDatabase} (known : db ∈ c.project.sqlDatabases)
    (counts : SqlDatabase.Counts) (dbId : String) :
    Yields (db.emitInstalled c counts dbId) (StandaloneElements.Each whole part) :=
  (establishes.emitComponent (establishes.installed db known dbId) _ _ _).bind fun _ holds =>
    .returns (.of_components (List.forall_mem_singleton.mpr holds))

theorem emitReferred {db : SqlDatabase} (known : db ∈ c.project.sqlDatabases)
    (counts : SqlDatabase.Counts) (dbId : String) :
    Yields (db.emitReferred c counts dbId) (StandaloneElements.Each whole part) := by
  refine (Yields.mapM fun entry _ =>
    establishes.emitComponent (establishes.strings db known entry.1 _ _) _ _ _).bind fun _ first =>
      (Yields.mapM fun entry _ => establishes.emitComponent
        (establishes.scripts db known entry.1 _ _) _ _ _).bind fun _ second =>
          .returns ⟨List.forall_mem_append.mpr ⟨first, second⟩, ?_⟩
  exact List.forall_mem_singleton.mpr (establishes.databases db known dbId)

theorem emitDatabases {dbs : List SqlDatabase} (known : ∀ db ∈ dbs, db ∈ c.project.sqlDatabases)
    (counts : SqlDatabase.Counts) :
    Yields (SqlDatabase.emitAll c counts dbs) (StandaloneElements.Each whole part) := by
  induction dbs generalizing counts with
  | nil => exact .returns .nil
  | cons db rest ih =>
    rw [List.forall_mem_cons] at known
    rw [SqlDatabase.emitAll]
    refine .after fun dbId => ?_
    split
    next =>
      exact (establishes.emitInstalled known.1 counts dbId).bind fun _ holds =>
        (ih known.2 _).bind fun _ holds' => .returns (holds.append holds')
    next =>
      exact (establishes.emitReferred known.1 counts dbId).bind fun _ holds =>
        (ih known.2 _).bind fun _ holds' => .returns (holds.append holds')

theorem emitStandalone : Yields c.emitStandalone (StandaloneElements.Each whole part) := by
  have valueSteps : Yields ((c.project.regValues.zipIdx 1).mapM fun entry => entry.1.emit c entry.2)
      fun results => ∀ x ∈ results, whole x := .mapM fun entry mem => .after fun _ =>
    .returns (establishes.values _ (List.fst_mem_of_mem_zipIdx mem) _)
  have varSteps : Yields ((c.project.envVars.zipIdx 1).mapM fun entry => entry.1.emit c entry.2)
      fun results => ∀ x ∈ results, whole x := .mapM fun entry mem => .after fun _ =>
    .after fun varId => .returns (establishes.vars _ (List.fst_mem_of_mem_zipIdx mem) _ varId)
  have certificateSteps : Yields ((c.project.certificates.zipIdx 1).mapM fun entry =>
      entry.1.emit c entry.2) fun results => ∀ x ∈ results, whole x := .mapM fun entry mem =>
    .after fun _ => .after fun certId => .returns (establishes.around _
      (establishes.certificates _ (List.fst_mem_of_mem_zipIdx mem) certId))
  refine valueSteps.bind fun _ values => varSteps.bind fun _ vars => .after fun _ =>
    (establishes.emitUsers (fun _ mem => mem) 0).bind fun _ users => .after fun _ =>
      (establishes.emitDatabases (fun _ mem => mem) _).bind fun _ databases => .after fun _ =>
        certificateSteps.bind fun _ certificates => .returns ?_
  have first : StandaloneElements.Each whole part _ :=
    .of_components (List.forall_mem_append.mpr ⟨values, vars⟩)
  exact ((first.append users).append databases).append (.of_components certificates)

end Compilation.Establishes

end Installer
