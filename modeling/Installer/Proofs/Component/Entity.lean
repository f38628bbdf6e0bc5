import Installer.Proofs.Component.Emission
import Installer.Proofs.Component.Shape
import Installer.Proofs.Directory.Words

/-! # Entities in their components

The component of a standalone entity can be told by what is directly inside it: a registry key, a
variable, a user, a database, a statement, a script or a certificate.  Directories never hold one,
and the declarations of entities that are only referred to hold nothing else.
-/

namespace Installer

open Markup (Element)
open Markup.Element
open Emit

/-- The names of the elements at and below those of standalone entities. -/
def entityWords : List String :=
  ["RegistryKey", "RegistryValue", "MultiStringValue", "Environment", "util:User",
   "sql:SqlDatabase", "sql:SqlString", "sql:SqlScript", "iis:Certificate"]

namespace Markup.Element

def IsEntity (e : Element) : Prop :=
  Only (· ∈ entityWords) e

structure HoldsEntity (e : Element) : Prop where
  name_eq : e.name = "Component"
  entity : ∃ child ∈ e.elements, child.name ∈ entityWords

/-- The element is a component with an entity directly inside it, and there is at most a condition
beside entities. -/
structure IsEntityComponent (e : Element) : Prop extends HoldsEntity e where
  words : ∀ child ∈ e.elements, Only (· ∈ "Condition" :: entityWords) child

theorem holdsEntity_iff {e : Element} :
    e.HoldsEntity ↔ e.name = "Component" ∧ ∃ child ∈ e.elements, child.name ∈ entityWords :=
  ⟨fun holds => ⟨holds.name_eq, holds.entity⟩, fun ⟨name, entity⟩ => ⟨name, entity⟩⟩

instance (e : Element) : Decidable e.HoldsEntity :=
  decidable_of_iff' _ holdsEntity_iff

def entityComponents (e : Element) : List Element :=
  e.subtree.filter fun x => x.HoldsEntity

/-- The property is seen in the tags of an element and of its children. -/
theorem holdsEntity_congr {x y : Element} (same : x.tag = y.tag)
    (inside : x.elements.map tag = y.elements.map tag) : x.HoldsEntity ↔ y.HoldsEntity := by
  have tags : ∀ e : Element, (∃ child ∈ e.elements, child.name ∈ entityWords) ↔
      ∃ t ∈ e.elements.map tag, t.1 ∈ entityWords := by
    simp [tag]
  rw [holdsEntity_iff, holdsEntity_iff, tags, tags, inside, name_eq_of_tag same]

theorem entityComponents_eq {e : Element} (other : e.name ≠ "Component") :
    e.entityComponents = e.elements.flatMap entityComponents := by
  have hidden : ¬ decide e.HoldsEntity = true := fun holds =>
    other (of_decide_eq_true holds).name_eq
  rw [entityComponents, filter_subtree, if_neg hidden]
  rfl

theorem entityComponents_of_only {e : Element} (only : Only (· ≠ "Component") e) :
    e.entityComponents = [] := by
  rw [entityComponents, List.filter_eq_nil_iff]
  intro x mem holds
  exact only x mem (of_decide_eq_true holds).name_eq

theorem IsTreePart.entityComponents {e : Element} (part : e.IsTreePart) :
    e.entityComponents = [] := by
  rw [Element.entityComponents, List.filter_eq_nil_iff]
  intro x mem holds
  obtain ⟨child, inside, word⟩ := (of_decide_eq_true holds).entity
  have apart : ∀ w ∈ Dir.words, w ∉ entityWords := by decide
  exact apart _ ((Everywhere.inside part x mem).child inside).here word

theorem IsEntityComponent.only_inside {e : Element} (component : e.IsEntityComponent) :
    ∀ child ∈ e.elements, Only (· ≠ "Component") child := fun child mem =>
  Everywhere.mono (component.words child mem) fun x word same => by
    rw [same] at word
    exact absurd word (by decide)

theorem IsEntityComponent.entityComponents {e : Element} (component : e.IsEntityComponent) :
    e.entityComponents = [e] := by
  have inside : e.elements.flatMap Element.entityComponents = [] :=
    List.flatMap_eq_nil_iff.mpr fun child mem =>
      entityComponents_of_only (component.only_inside child mem)
  rw [Element.entityComponents, filter_subtree, if_pos (by simpa using component.toHoldsEntity)]
  exact congrArg (e :: ·) inside

theorem IsEntity.name_mem {e : Element} (entity : e.IsEntity) : e.name ∈ entityWords :=
  Everywhere.here entity

theorem isEntityComponent_add {start part : Element} (named : start.name = "Component")
    (conditions : ∀ child ∈ start.elements, Only (· ∈ "Condition" :: entityWords) child)
    (entity : part.IsEntity) : (start.add part).IsEntityComponent where
  name_eq := named
  entity := ⟨part, by simp, entity.name_mem⟩
  words := by
    rw [elements_add, List.forall_mem_append, List.forall_mem_singleton]
    exact ⟨conditions, Everywhere.mono entity fun _ word => List.mem_cons_of_mem _ word⟩

end Markup.Element

/-! ## Elements of entities -/

section Words

variable {allowed : String → Prop}

theorem only_value
    (words : ∀ word ∈ ["RegistryKey", "RegistryValue", "MultiStringValue"], allowed word)
    (value : RegValue) : Only allowed (value.keyElement.add value.valueElement) := by
  have content : Only allowed value.valueElement := by
    rw [RegValue.valueElement]
    cases value.kind <;> simp [words]
  rw [only_add]
  exact ⟨by simp [RegValue.keyElement, words], content⟩

@[simp] theorem only_variable {id : String} {var : EnvVar} :
    Only allowed (var.element id) ↔ allowed "Environment" := by
  simp [EnvVar.element]

@[simp] theorem only_user {id : String} {user : User} :
    Only allowed (user.element id) ↔ allowed "util:User" := by
  simp [User.element]

@[simp] theorem only_database {id : String} {db : SqlDatabase} :
    Only allowed (db.element id) ↔ allowed "sql:SqlDatabase" := by
  simp [SqlDatabase.element]

@[simp] theorem only_sqlString {id : String} {dbId : Option String} {sql : SqlString} :
    Only allowed (sql.element id dbId) ↔ allowed "sql:SqlString" := by
  simp [SqlString.element]

@[simp] theorem only_sqlScript {id : String} {dbId : Option String} {script : SqlScript} :
    Only allowed (script.element id dbId) ↔ allowed "sql:SqlScript" := by
  simp [SqlScript.element]

@[simp] theorem only_certificate {id : String} {cert : Certificate} :
    Only allowed (cert.element id) ↔ allowed "iis:Certificate" := by
  simp [Certificate.element]

theorem only_databaseParts (string : allowed "sql:SqlString") (script : allowed "sql:SqlScript")
    (db : SqlDatabase) (dbId : String) (reference : Option String) :
    ∀ x ∈ db.parts dbId reference, Only allowed x := by
  rw [SqlDatabase.parts, List.forall_mem_append]
  constructor
  · intro x mem
    obtain ⟨n, _, rfl⟩ := List.mem_mapIdx.mp mem
    exact only_sqlString.mpr string
  · intro x mem
    obtain ⟨n, _, rfl⟩ := List.mem_mapIdx.mp mem
    exact only_sqlScript.mpr script

end Words

theorem isEntity_value (value : RegValue) : (value.keyElement.add value.valueElement).IsEntity :=
  only_value (by decide) value

theorem isEntity_variable (id : String) (var : EnvVar) : (var.element id).IsEntity :=
  only_variable.mpr (by decide)

theorem isEntity_user (id : String) (user : User) : (user.element id).IsEntity :=
  only_user.mpr (by decide)

theorem isEntity_sqlString (id : String) (dbId : Option String) (sql : SqlString) :
    (sql.element id dbId).IsEntity :=
  only_sqlString.mpr (by decide)

theorem isEntity_sqlScript (id : String) (dbId : Option String) (script : SqlScript) :
    (script.element id dbId).IsEntity :=
  only_sqlScript.mpr (by decide)

theorem isEntity_database (id : String) (db : SqlDatabase) : (db.element id).IsEntity :=
  only_database.mpr (by decide)

theorem isEntity_databaseParts (db : SqlDatabase) (dbId : String) (reference : Option String) :
    ∀ x ∈ db.parts dbId reference, x.IsEntity :=
  only_databaseParts (by decide) (by decide) db dbId reference

theorem isEntity_certificate (id : String) (cert : Certificate) : (cert.element id).IsEntity :=
  only_certificate.mpr (by decide)

/-- At most a condition stands before the entity. -/
theorem conditions_of_empty {start : Element} {condition : Option Condition}
    (empty : start.elements = []) :
    ∀ child ∈ (start.addAll (condition.map Condition.element).toList).elements,
      Only (· ∈ "Condition" :: entityWords) child := by
  rw [elements_addAll, empty, List.nil_append]
  cases condition <;> simp

theorem RegValue.isEntityComponent (c : Compilation) (id : String) (value : RegValue) :
    (value.component c id).IsEntityComponent := by
  have entity := isEntity_value value
  rw [component]
  split
  next => exact isEntityComponent_add rfl (conditions_of_empty rfl) entity
  next => exact isEntityComponent_add rfl (conditions_of_empty rfl) entity

/-! ## Emission -/

/-- All components hold an entity each, and all declarations are entities. -/
structure StandaloneElements.AreEntities (elements : StandaloneElements) : Prop where
  components : ∀ x ∈ elements.components, x.IsEntityComponent
  declarations : ∀ x ∈ elements.declarations, x.IsEntity

namespace Compilation

variable {c : Compilation} {before after : Ledger}

/-- Elements of families that the project has no entities of are not written. -/
theorem establishes_only {allowed : String → Prop}
    (words : ∀ word ∈ ["Component", "Condition", "RegistryKey", "RegistryValue",
      "MultiStringValue", "Environment"], allowed word)
    (users : ∀ user ∈ c.project.users, allowed "util:User")
    (databases : ∀ db ∈ c.project.sqlDatabases,
      ∀ word ∈ ["sql:SqlDatabase", "sql:SqlString", "sql:SqlScript"], allowed word)
    (certificates : ∀ cert ∈ c.project.certificates, allowed "iis:Certificate") :
    c.Establishes (Only allowed) (Only allowed) where
  around id _ part := only_add.mpr ⟨by simp [words], part⟩
  values value _ id := by
    have content := only_value (fun word mem => words word (by simp at mem ⊢; tauto)) value
    rw [RegValue.component]
    split <;> simp [words, content]
  vars var _ id varId := by simp [words]
  users user mem id := only_user.mpr (users user mem)
  databases db mem id := by simpa using databases db mem _ (by decide)
  installed db mem id := by
    have words := databases db mem
    rw [only_addAll]
    refine ⟨by simp [words], ?_⟩
    exact only_databaseParts (words _ (by decide)) (words _ (by decide)) db id none
  strings db mem sql id dbId := by simpa using databases db mem _ (by decide)
  scripts db mem script id dbId := by simpa using databases db mem _ (by decide)
  certificates cert mem id := only_certificate.mpr (certificates cert mem)

theorem establishes_entities (c : Compilation) : c.Establishes IsEntityComponent IsEntity where
  around id _ entity := isEntityComponent_add rfl (by simp [component, elements]) entity
  values value _ id := value.isEntityComponent c id
  vars var _ id varId :=
    isEntityComponent_add rfl (conditions_of_empty rfl) (isEntity_variable varId var)
  users user _ id := isEntity_user id user
  databases db _ id := isEntity_database id db
  installed db _ id := only_addAll.mpr ⟨isEntity_database id db, isEntity_databaseParts db id none⟩
  strings _ _ sql id dbId := isEntity_sqlString id dbId sql
  scripts _ _ script id dbId := isEntity_sqlScript id dbId script
  certificates cert _ id := isEntity_certificate id cert

theorem areEntities_of_emitStandalone {result : StandaloneElements}
    (given : c.emitStandalone.Gives before result after) : result.AreEntities :=
  have each := c.establishes_entities.emitStandalone _ _ _ given
  ⟨each.components, each.declarations⟩

end Compilation

end Installer
