import Installer.Proofs.Component.Entity
import Installer.Proofs.Component.Numbering
import Installer.Proofs.Emit.Ids
import Mathlib.Data.List.Forall2

/-! # How standalone entities are set up

Every entity of a family that is installed is alone in a component of its own, and the components of
a family are numbered from one.  Users and databases that are only referred to are declared without
a component.  What stands for the entities is listed here family by family, and the emission is
shown to give just that.
-/

namespace Installer

open Markup (Element)
open Markup.Element
open Emit

/-! ## Entities and their elements -/

def Family.word : Family → String
  | .registry => "RegistryKey"
  | .environment => "Environment"
  | .user => "util:User"
  | .database => "sql:SqlDatabase"
  | .sqlString => "sql:SqlString"
  | .sqlScript => "sql:SqlScript"
  | .certificate => "iis:Certificate"

theorem Family.word_inj {f g : Family} : f.word = g.word ↔ f = g := by
  cases f <;> cases g <;> simp [word]

/-- Each entity has an id, which is the declared one if there is one. -/
def AreIdsOf {α : Type} (declared : α → Option String) (entities : List α) (ids : List String) :
    Prop :=
  List.Forall₂ (fun x id => ∀ given, declared x = some given → id = given) entities ids

structure EntityIds where
  envVars : List String
  users : List String
  databases : List String
  certificates : List String

structure EntityIds.AreFor (ids : EntityIds) (project : Project) : Prop where
  envVars : AreIdsOf EnvVar.id project.envVars ids.envVars
  users : AreIdsOf User.id project.users ids.users
  databases : AreIdsOf SqlDatabase.id project.sqlDatabases ids.databases
  certificates : AreIdsOf Certificate.id project.certificates ids.certificates

/-! ## What ids are made from -/

def EnvVar.naming (var : EnvVar) : Naming :=
  ⟨var.id, var.name⟩

def User.naming (user : User) : Naming :=
  ⟨user.id, user.name⟩

def SqlDatabase.naming (db : SqlDatabase) : Naming :=
  ⟨db.id, db.database⟩

def Certificate.naming (cert : Certificate) : Naming :=
  ⟨cert.id, cert.name⟩

/-- The ids that the entities of the project get from a pool, each kind for itself. -/
def Project.entityIds (project : Project) (pool : IdPool) : EntityIds where
  envVars := pool.idsFor .envVar (project.envVars.map EnvVar.naming)
  users := pool.idsFor .user (project.users.map User.naming)
  databases := pool.idsFor .database (project.sqlDatabases.map SqlDatabase.naming)
  certificates := pool.idsFor .certificate (project.certificates.map Certificate.naming)

theorem areIdsOf_idsFor {α : Type} (naming : α → Naming) (kind : IdKind) (entities : List α)
    (pool : IdPool) : AreIdsOf (fun x => (naming x).declared) entities
      (pool.idsFor kind (entities.map naming)) := by
  refine (List.forall₂_map_left_iff.mp (IdPool.forall₂_idsFor kind _ pool)).imp ?_
  intro x id takes given declared
  change (naming x).declared = some given at declared
  rw [Naming.Takes, declared] at takes
  exact takes

/-- Whatever the pool, declared ids are kept. -/
theorem Project.areFor_entityIds (project : Project) (pool : IdPool) :
    (project.entityIds pool).AreFor project where
  envVars := areIdsOf_idsFor EnvVar.naming _ _ _
  users := areIdsOf_idsFor User.naming _ _ _
  databases := areIdsOf_idsFor SqlDatabase.naming _ _ _
  certificates := areIdsOf_idsFor Certificate.naming _ _ _

namespace User

def installedElements (users : List (User × String)) : List Element :=
  (users.filter fun user => user.1.isInstalled).map fun user => user.1.element user.2

def referredElements (users : List (User × String)) : List Element :=
  (users.filter fun user => !user.1.isInstalled).map fun user => user.1.element user.2

end User

namespace SqlDatabase

/-- The elements of the installed databases, with their statements and scripts inside, which do not
name the database. -/
def installedElements (dbs : List (SqlDatabase × String)) : List Element :=
  (dbs.filter fun db => db.1.isInstalled).map fun db =>
    (db.1.element db.2).addAll
      ((db.1.strings.mapIdx fun n sql => sql.element (stringId db.2 sql n) none) ++
        db.1.scripts.mapIdx fun n script => script.element (scriptId db.2 script n) none)

def referredElements (dbs : List (SqlDatabase × String)) : List Element :=
  (dbs.filter fun db => !db.1.isInstalled).map fun db => db.1.element db.2

/-- The elements of the statements of a database, which name it by the id of its element. -/
def stringElements (db : SqlDatabase × String) : List Element :=
  db.1.strings.mapIdx fun n sql => sql.element (stringId db.2 sql n) (db.1.element db.2).id?

/-- The elements of the scripts of a database, which name it by the id of its element. -/
def scriptElements (db : SqlDatabase × String) : List Element :=
  db.1.scripts.mapIdx fun n script =>
    script.element (scriptId db.2 script n) (db.1.element db.2).id?

/-- The elements that databases give to components, by family. -/
def setUp (dbs : List (SqlDatabase × String)) : Family → List Element
  | .database => installedElements dbs
  | .sqlString => (dbs.filter fun db => !db.1.isInstalled).flatMap stringElements
  | .sqlScript => (dbs.filter fun db => !db.1.isInstalled).flatMap scriptElements
  | _ => []

end SqlDatabase

namespace Project

/-- The elements that are to be alone in a component each, by family. -/
def setUp (project : Project) (ids : EntityIds) : Family → List Element
  | .registry => project.regValues.map fun value => value.keyElement.add value.valueElement
  | .environment => List.zipWith (fun var id => var.element id) project.envVars ids.envVars
  | .user => User.installedElements (project.users.zip ids.users)
  | .certificate =>
    List.zipWith (fun cert id => cert.element id) project.certificates ids.certificates
  | family => SqlDatabase.setUp (project.sqlDatabases.zip ids.databases) family

def referred (project : Project) (ids : EntityIds) : List Element :=
  User.referredElements (project.users.zip ids.users) ++
    SqlDatabase.referredElements (project.sqlDatabases.zip ids.databases)

end Project

/-! ## Components and their entities -/

namespace Markup.Element

/-- A condition has its text alone in it. -/
def isCondition (e : Element) : Bool :=
  e.name == "Condition" && e.elements.isEmpty

theorem isCondition_element (condition : Condition) : condition.element.isCondition = true := by
  have leaf : (({ name := "Condition" } : Element).addCData condition.text).elements = [] := rfl
  have named : (({ name := "Condition" } : Element).addCData condition.text).name = "Condition" :=
    rfl
  simp [isCondition, Condition.element, leaf, named]

theorem isCondition_of_ne {e : Element} (other : e.name ≠ "Condition") :
    e.isCondition = false := by
  simp [isCondition, other]

/-- The id of a component with the elements in it, conditions apart. -/
def row (e : Element) : Option String × List Element :=
  (e.id?, e.elements.filter fun x => !x.isCondition)

/-- The component holds an entity of the family. -/
def isOf (family : Family) (e : Element) : Bool :=
  e.elements.any fun x => x.name == family.word

/-- What conditions do not give, the entity alone gives. -/
theorem flatMap_elements_of_row {α : Type} {e entity : Element} {id : Option String}
    (own : e.row = (id, [entity])) {f : Element → List α}
    (nothing : ∀ x : Element, x.isCondition = true → f x = []) :
    e.elements.flatMap f = f entity := by
  have inside : e.elements.filter (fun x => !x.isCondition) = [entity] := congrArg Prod.snd own
  have apart : ∀ list : List Element,
      list.flatMap f = (list.filter fun x => !x.isCondition).flatMap f := by
    intro list
    induction list with
    | nil => rfl
    | cons x rest ih =>
      cases condition : x.isCondition with
      | true => rw [List.flatMap_cons, nothing x condition, ih]; simp [condition]
      | false => rw [List.flatMap_cons, ih]; simp [condition]
  rw [apart, inside, List.flatMap_singleton]

theorem isOf_of_row {e entity : Element} {id : Option String} (own : e.row = (id, [entity]))
    (family : Family) : e.isOf family = (entity.name == family.word) := by
  have inside : e.elements.filter (fun x => !x.isCondition) = [entity] := congrArg Prod.snd own
  have seen : ∀ x : Element, (!x.isCondition && x.name == family.word) =
      (x.name == family.word) := by
    intro x
    by_cases named : x.name = family.word
    · have other : x.name ≠ "Condition" := named ▸ (by cases family <;> decide)
      simp [named, isCondition_of_ne other]
    · simp [named]
  have any : (e.elements.filter fun x => !x.isCondition).any
      (fun x => x.name == family.word) = e.isOf family := by
    rw [List.any_filter, isOf]
    simp only [seen]
  rw [← any, inside, List.any_cons, List.any_nil, Bool.or_false]

end Markup.Element

def Family.rows (family : Family) (start : Nat) (entities : List Element) :
    List (Option String × List Element) :=
  (entities.zipIdx start).map fun entry => (some (family.stem ++ toString entry.2), [entry.1])

namespace Family

theorem rows_nil (family : Family) (start : Nat) : family.rows start [] = [] := rfl

theorem rows_cons (family : Family) (start : Nat) (e : Element) (rest : List Element) :
    family.rows start (e :: rest) =
      (some (family.stem ++ toString start), [e]) :: family.rows (start + 1) rest := rfl

theorem rows_append (family : Family) (start : Nat) (front back : List Element) :
    family.rows start (front ++ back) =
      family.rows start front ++ family.rows (start + front.length) back := by
  rw [rows, List.zipIdx_append, List.map_append]
  rfl

def only (family : Family) (entities : List Element) (g : Family) : List Element :=
  if g = family then entities else []

theorem only_self (family : Family) (entities : List Element) :
    family.only entities family = entities := if_pos rfl

theorem only_of_ne {family g : Family} (other : g ≠ family) (entities : List Element) :
    family.only entities g = [] := if_neg other

theorem only_append (family : Family) (front back : List Element) (g : Family) :
    family.only (front ++ back) g = family.only front g ++ family.only back g := by
  by_cases same : g = family
  · rw [same, only_self, only_self, only_self]
  · rw [only_of_ne same, only_of_ne same, only_of_ne same, List.append_nil]

end Family

/-! ## What the emission gives -/

namespace StandaloneElements

/-- Every component holds an entity of some family.  Those of each family are the components of the
given entities, numbered above the counts, and the declarations are the given ones. -/
structure SetsUp (counts : Family → Nat) (elements : StandaloneElements)
    (own : Family → List Element) (declared : List Element) : Prop where
  alone : ∀ x ∈ elements.components, ∃ (family : Family) (id : Option String) (entity : Element),
    x.row = (id, [entity]) ∧ entity.name = family.word
  components : ∀ family, (elements.components.filter (isOf family)).map row =
    family.rows (counts family + 1) (own family)
  declarations : elements.declarations = declared

variable {counts : Family → Nat} {elements elements₁ elements₂ : StandaloneElements}
  {own own₁ own₂ : Family → List Element} {declared declared₁ declared₂ : List Element}

namespace SetsUp

theorem nil : SetsUp counts {} (fun _ => []) [] :=
  ⟨nofun, fun _ => rfl, rfl⟩

theorem append (first : SetsUp counts elements₁ own₁ declared₁)
    (second : SetsUp (fun family => counts family + (own₁ family).length) elements₂ own₂
      declared₂) :
    SetsUp counts (elements₁ ++ elements₂) (fun family => own₁ family ++ own₂ family)
      (declared₁ ++ declared₂) where
  alone := List.forall_mem_append.mpr ⟨first.alone, second.alone⟩
  components family := by
    have both : (elements₁ ++ elements₂).components =
        elements₁.components ++ elements₂.components := rfl
    rw [both, List.filter_append, List.map_append, first.components, second.components,
      Family.rows_append, Nat.add_right_comm]
  declarations := congrArg₂ (· ++ ·) first.declarations second.declarations

theorem congr (sets : SetsUp counts elements own₁ declared)
    (same : ∀ family, own₂ family = own₁ family) : SetsUp counts elements own₂ declared :=
  ⟨sets.alone, fun family => by rw [same, sets.components], sets.declarations⟩

/-- Components with an entity each, all of one family. -/
theorem of_rows {family : Family} {components entities : List Element}
    (rows : components.map row = family.rows (counts family + 1) entities)
    (words : ∀ e ∈ entities, e.name = family.word) :
    SetsUp counts { components } (family.only entities) [] := by
  have single : ∀ x ∈ components, ∃ (id : Option String) (entity : Element),
      x.row = (id, [entity]) ∧ entity.name = family.word := by
    intro x mem
    have among : x.row ∈ family.rows (counts family + 1) entities := rows ▸ List.mem_map_of_mem mem
    obtain ⟨entry, inside, same⟩ := List.mem_map.mp among
    exact ⟨_, _, same.symm, words _ (List.fst_mem_of_mem_zipIdx inside)⟩
  refine ⟨fun x mem => ⟨family, single x mem⟩, fun g => ?_, rfl⟩
  -- every component is one of the family
  have isOf_eq : ∀ x ∈ components, x.isOf g = (family.word == g.word) := by
    intro x mem
    obtain ⟨id, entity, own, named⟩ := single x mem
    rw [isOf_of_row own, named]
  rw [List.filter_congr isOf_eq]
  by_cases same : g = family
  · subst same
    simp [Family.only_self, rows]
  · have other : ¬ family.word = g.word := fun equal => same (Family.word_inj.mp equal).symm
    simp [Family.only_of_ne same, other, Family.rows_nil]

theorem of_declarations (counts : Family → Nat) (declared : List Element) :
    SetsUp counts { declarations := declared } (fun _ => []) declared :=
  ⟨nofun, fun _ => rfl, rfl⟩

end SetsUp

end StandaloneElements

/-! ## Rows of components -/

variable {c : Compilation} {before after : Ledger}

namespace Markup.Element

/-- At most a condition stands beside the entity. -/
theorem row_add {start entity : Element} {condition : Option Condition}
    (empty : start.elements = []) (other : entity.name ≠ "Condition") :
    ((start.addAll (condition.map Condition.element).toList).add entity).row =
      (start.id?, [entity]) := by
  have conditions : (condition.map Condition.element).toList.filter
      (fun x => !x.isCondition) = [] := by
    cases condition <;> simp [isCondition_element]
  refine Prod.ext rfl ?_
  rw [row, elements_add, elements_addAll, empty, List.nil_append, List.filter_append, conditions]
  simp [isCondition_of_ne other]

end Markup.Element

theorem Compilation.row_of_emitComponent {entity id : String} {feature : Option String}
    {part result : Element} (other : part.name ≠ "Condition")
    (given : (c.emitComponent entity feature id [part]).Gives before result after) :
    result.row = (some id, [part]) := by
  simp only [emitComponent, gives_bind, gives_pure] at given
  obtain ⟨_, _, -, rfl, -⟩ := given
  refine Prod.ext rfl ?_
  rw [row, elements_addAll]
  simp [component, isCondition_of_ne other]

theorem RegValue.row_component (id : String) (value : RegValue) :
    (value.component c id).row = (some id, [value.keyElement.add value.valueElement]) := by
  have other : (value.keyElement.add value.valueElement).name ≠ "Condition" := by
    simp [keyElement]
  rw [component]
  split
  next => exact row_add rfl other
  next => exact row_add rfl other

theorem EnvVar.row_of_emit {var : EnvVar} {n : Nat} {result : Element}
    (given : (var.emit c n).Gives before result after) :
    ∃ id, IdPool.Serves .envVar [var.naming] before.ids after.ids [id] ∧
      result.row = (some ("EnvVars" ++ toString n), [var.element id]) := by
  simp only [emit, gives_bind, gives_pure, gives_idOr_iff] at given
  obtain ⟨_, _, booked, id, _, ⟨rfl, rfl⟩, rfl, rfl⟩ := given
  exact ⟨_, .nothing_trans (keepsIds_assign _ _ _ _ _ _ _ booked) (.give var.naming _),
    row_add rfl (by simp [element])⟩

theorem Certificate.row_of_emit {cert : Certificate} {n : Nat} {result : Element}
    (given : (cert.emit c n).Gives before result after) :
    ∃ id, IdPool.Serves .certificate [cert.naming] before.ids after.ids [id] ∧
      result.row = (some ("Certificate" ++ toString n), [cert.element id]) := by
  simp only [emit, gives_bind, gives_pure, gives_idOr_iff] at given
  obtain ⟨_, _, booked, id, _, ⟨rfl, rfl⟩, rfl, rfl⟩ := given
  have single : ∀ id, ((c.component ("Certificate" ++ toString n)).add (cert.element id)).row =
      (some ("Certificate" ++ toString n), [cert.element id]) := by
    refine fun id => Prod.ext rfl ?_
    rw [row, elements_add]
    simp [Compilation.component, element, isCondition]
  exact ⟨_, .nothing_trans (keepsIds_assign _ _ _ _ _ _ _ booked) (.give cert.naming _), single _⟩

/-! ## Components of lists -/

/-- What is read off the results of a step is known for each member of a list. -/
theorem Emit.map_of_mapM {α β γ : Type} {step : α → Emit β} {read : β → γ} {expected : α → γ}
    (each : ∀ (x : α) (before : Ledger) (result : β) (after : Ledger),
      (step x).Gives before result after → read result = expected x)
    {xs : List α} {results : List β} (given : (xs.mapM step).Gives before results after) :
    results.map read = xs.map expected := by
  induction xs generalizing before results with
  | nil =>
    obtain ⟨rfl, rfl⟩ := gives_mapM_nil.mp given
    rfl
  | cons x xs ih =>
    obtain ⟨result, between, others, first, rest, rfl⟩ := gives_mapM_cons.mp given
    rw [List.map_cons, List.map_cons, each x _ _ _ first, ih rest]

/-- Components of entities that get an id each. -/
theorem Family.rows_of_mapM {α : Type} (family : Family) (kind : IdKind) (naming : α → Naming)
    (make : α → String → Element) {step : α × Nat → Emit Element}
    (each : ∀ (x : α) (n : Nat) (before : Ledger) (result : Element) (after : Ledger),
      (step (x, n)).Gives before result after →
        ∃ id, IdPool.Serves kind [naming x] before.ids after.ids [id] ∧
          result.row = (some (family.stem ++ toString n), [make x id]))
    {xs : List α} {start : Nat} {results : List Element}
    (given : ((xs.zipIdx start).mapM step).Gives before results after) :
    results.map row = family.rows start
      (List.zipWith make xs (before.ids.idsFor kind (xs.map naming))) := by
  induction xs generalizing start before results with
  | nil =>
    obtain ⟨rfl, rfl⟩ := gives_mapM_nil.mp given
    rfl
  | cons x xs ih =>
    obtain ⟨result, between, others, first, rest, rfl⟩ := gives_mapM_cons.mp given
    obtain ⟨id, serves, own⟩ := each x start _ _ _ first
    obtain ⟨rfl, agree⟩ := IdPool.Serves.single_iff.mp serves
    rw [List.map_cons, own, ih rest, List.map_cons, IdPool.idsFor_cons, agree.idsFor_eq,
      List.zipWith_cons_cons, rows_cons]

/-- What holds of all elements that are made with ids holds of those in a list. -/
theorem forall_mem_zipWith {α : Type} {p : Element → Prop} {make : α → String → Element}
    (each : ∀ x id, p (make x id)) (xs : List α) (ids : List String) :
    ∀ e ∈ List.zipWith make xs ids, p e := by
  intro e mem
  rw [← List.map_uncurry_zip_eq_zipWith] at mem
  obtain ⟨pair, _, rfl⟩ := List.mem_map.mp mem
  exact each pair.1 pair.2

/-- Entities whose elements depend on their own places, numbered from a count on. -/
theorem Family.rows_mapIdx {α : Type} (family : Family) (make : Nat → α → Element) (xs : List α)
    (count : Nat) : family.rows (count + 1) (xs.mapIdx make) =
      xs.zipIdx.map fun entry =>
        (some (family.stem ++ toString (count + entry.2 + 1)), [make entry.2 entry.1]) := by
  refine List.ext_getElem (by simp [rows]) fun i _ _ => ?_
  simp [rows, Nat.add_right_comm]

/-! ## Attributes of entities -/

namespace Markup.Element

theorem attrOf?_attr?_of_ne (e : Element) {name name' : String} (other : name' ≠ name)
    (value : Option String) : (e.attr? name value).attrOf? name' = e.attrOf? name' := by
  cases value with
  | none => rfl
  | some value => exact attrOf?_attr_of_ne e other value

@[simp] theorem name_withFlags (e : Element) (flags : List (String × Option Bool)) :
    (e.withFlags flags).name = e.name := by
  induction flags generalizing e with
  | nil => rfl
  | cons flag rest ih => exact (ih _).trans (name_attr? ..)

@[simp] theorem elements_withFlags (e : Element) (flags : List (String × Option Bool)) :
    (e.withFlags flags).elements = e.elements := by
  induction flags generalizing e with
  | nil => rfl
  | cons flag rest ih => exact (ih _).trans (elements_attr? ..)

theorem attrOf?_withFlags (e : Element) {name : String} {flags : List (String × Option Bool)}
    (other : ∀ flag ∈ flags, flag.1 ≠ name) :
    (e.withFlags flags).attrOf? name = e.attrOf? name := by
  induction flags generalizing e with
  | nil => rfl
  | cons flag rest ih =>
    rw [List.forall_mem_cons] at other
    exact (ih _ other.2).trans (attrOf?_attr?_of_ne e other.1.symm _)

end Markup.Element

theorem SqlDatabase.id?_element (id : String) (db : SqlDatabase) :
    (db.element id).id? = some id := by
  rw [id?, element, attrOf?_withFlags _ (by simp [flags]), attrOf?_attr?_of_ne _ (by decide),
    attrOf?_attr?_of_ne _ (by decide)]
  rfl

/-- The names of the attributes that tell when a statement or a script is run. -/
def SqlExecution.words : List String :=
  ["ExecuteOnInstall", "ExecuteOnReinstall", "ExecuteOnUninstall", "ContinueOnError", "Sequence"]

theorem SqlExecution.name_attrs (execution : SqlExecution) :
    ∀ name ∈ execution.attrs.map Prod.fst, name ∈ words := by
  rw [List.forall_mem_map, attrs, List.forall_mem_append]
  constructor
  · refine List.forall_mem_map.mpr fun flag mem => ?_
    have among := (List.mem_filter.mp mem).1
    simp only [List.mem_cons, List.not_mem_nil, or_false] at among
    rcases among with rfl | rfl | rfl | rfl <;> simp [words]
  · cases execution.sequence <;> simp [words]

theorem SqlExecution.attrOf?_withAttrs_attrs (execution : SqlExecution) (e : Element) :
    (e.withAttrs execution.attrs).attrOf? "SqlDb" = e.attrOf? "SqlDb" := by
  refine attrOf?_withAttrs e fun pair mem same => ?_
  have word := execution.name_attrs pair.1 (List.mem_map_of_mem mem)
  rw [same] at word
  exact absurd word (by decide)

/-- A statement names its database if it is given a reference, and otherwise it does not. -/
theorem SqlString.sqlDb_element (id : String) (reference : Option String) (sql : SqlString) :
    (sql.element id reference).attrOf? "SqlDb" = reference := by
  rw [element, sql.execution.attrOf?_withAttrs_attrs]
  cases reference with
  | none => rfl
  | some reference => exact attrOf?_attr_self ..

theorem SqlScript.sqlDb_element (id : String) (reference : Option String) (script : SqlScript) :
    (script.element id reference).attrOf? "SqlDb" = reference := by
  rw [element, script.execution.attrOf?_withAttrs_attrs]
  cases reference with
  | none => rfl
  | some reference => exact attrOf?_attr_self ..

namespace SqlDatabase

/-- All statements and scripts inside a database are given the same reference. -/
theorem sqlDb_parts (db : SqlDatabase) (dbId : String) (reference : Option String) :
    ∀ x ∈ db.parts dbId reference, x.attrOf? "SqlDb" = reference := by
  rw [parts, List.forall_mem_append]
  constructor
  · intro x mem
    obtain ⟨n, _, rfl⟩ := List.mem_mapIdx.mp mem
    exact SqlString.sqlDb_element ..
  · intro x mem
    obtain ⟨n, _, rfl⟩ := List.mem_mapIdx.mp mem
    exact SqlScript.sqlDb_element ..

theorem sqlDb_linked (db : SqlDatabase × String) :
    ∀ x ∈ stringElements db ++ scriptElements db, x.attrOf? "SqlDb" = some db.2 := by
  rw [stringElements, scriptElements, id?_element]
  exact sqlDb_parts db.1 db.2 (some db.2)

end SqlDatabase

/-! ## Users -/

theorem User.name_element (id : String) (user : User) :
    (user.element id).name = Family.user.word := by
  simp [element, Family.word]

theorem User.setsUp_of_emitAll {users : List User} {count : Nat} {result : StandaloneElements}
    (given : (emitAll c count users).Gives before result after) :
    ∀ counts : Family → Nat, counts .user = count →
      result.SetsUp counts
        (Family.user.only (installedElements
          (users.zip (before.ids.idsFor .user (users.map User.naming)))))
        (referredElements (users.zip (before.ids.idsFor .user (users.map User.naming)))) := by
  induction users generalizing count before result with
  | nil =>
    obtain ⟨rfl, -⟩ := gives_pure.mp given
    refine fun counts _ => StandaloneElements.SetsUp.nil.congr fun family => ?_
    cases family <;> rfl
  | cons user rest ih =>
    simp only [emitAll, gives_bind, gives_idOr_iff] at given
    obtain ⟨id, _, ⟨isId, rfl⟩, given⟩ := given
    change id = ((IdPool.give .user user.naming).run before.ids).1 at isId
    rw [List.map_cons, IdPool.idsFor_cons, ← isId]
    split at given
    next installed =>
      simp only [gives_bind, gives_pure] at given
      obtain ⟨component, between, made, _, _, others, rfl, rfl⟩ := given
      have row := Compilation.row_of_emitComponent (by simp [name_element, Family.word]) made
      have agree : IdPool.AgreeOn .user ((IdPool.give .user user.naming).run before.ids).2
          between.ids := c.keepsIds_emitComponent _ _ _ _ _ _ _ made
      have sets := ih others
      rw [← agree.idsFor_eq] at sets
      intro counts counted
      have first : StandaloneElements.SetsUp counts { components := [component] }
          (Family.user.only [user.element id]) [] :=
        .of_rows (by rw [List.map_singleton, row, counted]; rfl) (by simp [name_element])
      have own : ∀ rest : List (User × String), installedElements ((user, id) :: rest) =
          [user.element id] ++ installedElements rest := by
        simp [installedElements, installed]
      have declared : ∀ rest : List (User × String), referredElements ((user, id) :: rest) =
          [] ++ referredElements rest := by
        simp [referredElements, installed]
      rw [List.zip_cons_cons, own, declared]
      refine (first.append (sets _ ?_)).congr fun family => Family.only_append ..
      rw [Family.only_self, counted, List.length_singleton]
    next referred =>
      simp only [gives_bind, gives_pure] at given
      obtain ⟨_, _, others, rfl, rfl⟩ := given
      intro counts counted
      -- no component is made here, and the number of the next one stays
      have first := StandaloneElements.SetsUp.of_declarations counts [user.element id]
      have own : ∀ rest : List (User × String), installedElements ((user, id) :: rest) =
          installedElements rest := by
        simp [installedElements, referred]
      have declared : ∀ rest : List (User × String), referredElements ((user, id) :: rest) =
          [user.element id] ++ referredElements rest := by
        simp [referredElements, referred]
      rw [List.zip_cons_cons, own, declared]
      exact (first.append (ih others _ counted)).congr fun family => (List.nil_append _).symm

/-! ## Databases -/

namespace SqlDatabase

variable {db : SqlDatabase} {counts : Counts} {start : Family → Nat} {dbId : String}

theorem setsUp_of_emitInstalled (counted : Counted start counts) {result : StandaloneElements}
    (given : (db.emitInstalled c counts dbId).Gives before result after) :
    result.SetsUp start
      (Family.database.only [(db.element dbId).addAll (db.parts dbId none)]) [] := by
  simp only [emitInstalled, gives_bind, gives_pure] at given
  obtain ⟨component, _, made, rfl, -⟩ := given
  have row := Compilation.row_of_emitComponent (by simp [element]) made
  refine .of_rows ?_ (by simp [element, Family.word])
  rw [List.map_singleton, row, counted.databases]
  rfl

def referredSetUp (db : SqlDatabase × String) (family : Family) : List Element :=
  Family.sqlString.only (stringElements db) family ++
    Family.sqlScript.only (scriptElements db) family

theorem name_stringElements (db : SqlDatabase × String) :
    ∀ e ∈ stringElements db, e.name = Family.sqlString.word := by
  intro e mem
  obtain ⟨n, _, rfl⟩ := List.mem_mapIdx.mp mem
  simp [SqlString.element, Family.word]

theorem name_scriptElements (db : SqlDatabase × String) :
    ∀ e ∈ scriptElements db, e.name = Family.sqlScript.word := by
  intro e mem
  obtain ⟨n, _, rfl⟩ := List.mem_mapIdx.mp mem
  simp [SqlScript.element, Family.word]

theorem setsUp_of_emitReferred (counted : Counted start counts) {result : StandaloneElements}
    (given : (db.emitReferred c counts dbId).Gives before result after) :
    result.SetsUp start (referredSetUp (db, dbId)) [db.element dbId] := by
  simp only [emitReferred, gives_bind, gives_pure] at given
  obtain ⟨strings, _, stringSteps, scripts, _, scriptSteps, rfl, -⟩ := given
  have stringRows : strings.map row =
      Family.sqlString.rows (start .sqlString + 1) (stringElements (db, dbId)) := by
    rw [stringElements, Family.rows_mapIdx, id?_element, counted.strings]
    exact map_of_mapM (fun entry _ _ _ step =>
      Compilation.row_of_emitComponent (by simp [SqlString.element]) step) stringSteps
  have scriptRows : scripts.map row =
      Family.sqlScript.rows (start .sqlScript + 1) (scriptElements (db, dbId)) := by
    rw [scriptElements, Family.rows_mapIdx, id?_element, counted.scripts]
    exact map_of_mapM (fun entry _ _ _ step =>
      Compilation.row_of_emitComponent (by simp [SqlScript.element]) step) scriptSteps
  have declared := StandaloneElements.SetsUp.of_declarations start [db.element dbId]
  have withStrings := declared.append (.of_rows stringRows (name_stringElements _))
  have none : Family.sqlString.only (stringElements (db, dbId)) .sqlScript = [] :=
    Family.only_of_ne (by decide) _
  exact withStrings.append (.of_rows (by rw [none]; exact scriptRows) (name_scriptElements _))

theorem setsUp_of_emitAll {dbs : List SqlDatabase} {result : StandaloneElements}
    (given : (emitAll c counts dbs).Gives before result after) :
    ∀ start, Counted start counts →
      result.SetsUp start
        (setUp (dbs.zip (before.ids.idsFor .database (dbs.map SqlDatabase.naming))))
        (referredElements
          (dbs.zip (before.ids.idsFor .database (dbs.map SqlDatabase.naming)))) := by
  induction dbs generalizing counts before result with
  | nil =>
    obtain ⟨rfl, -⟩ := gives_pure.mp given
    refine fun start _ => StandaloneElements.SetsUp.nil.congr fun family => ?_
    cases family <;> rfl
  | cons db rest ih =>
    simp only [emitAll, gives_bind, gives_idOr_iff] at given
    obtain ⟨dbId, _, ⟨isId, rfl⟩, given⟩ := given
    change dbId = ((IdPool.give .database db.naming).run before.ids).1 at isId
    rw [List.map_cons, IdPool.idsFor_cons, ← isId]
    split at given
    next installed =>
      simp only [gives_bind, gives_pure] at given
      obtain ⟨_, between, made, _, _, others, rfl, rfl⟩ := given
      have agree : IdPool.AgreeOn .database ((IdPool.give .database db.naming).run before.ids).2
          between.ids := db.keepsIds_emitInstalled _ _ _ _ _ made
      have sets := ih others
      rw [← agree.idsFor_eq] at sets
      intro start counted
      have first := setsUp_of_emitInstalled counted made
      have counted' : Counted (fun family => start family + (Family.database.only
            [(db.element dbId).addAll (db.parts dbId none)] family).length)
          { counts with databases := counts.databases + 1 } :=
        ⟨congrArg (· + 1) counted.databases, counted.strings, counted.scripts⟩
      have declared : ∀ rest : List (SqlDatabase × String),
          referredElements ((db, dbId) :: rest) = [] ++ referredElements rest := by
        simp [referredElements, installed]
      rw [List.zip_cons_cons, declared]
      refine (first.append (sets _ counted')).congr fun family => ?_
      cases family <;> simp [setUp, installedElements, installed, Family.only, parts]
    next referred =>
      simp only [gives_bind, gives_pure] at given
      obtain ⟨_, between, made, _, _, others, rfl, rfl⟩ := given
      have agree : IdPool.AgreeOn .database ((IdPool.give .database db.naming).run before.ids).2
          between.ids := db.keepsIds_emitReferred _ _ _ _ _ made
      have sets := ih others
      rw [← agree.idsFor_eq] at sets
      intro start counted
      have first := setsUp_of_emitReferred counted made
      have counted' : Counted
          (fun family => start family + (referredSetUp (db, dbId) family).length)
          { counts with
            strings := counts.strings + db.strings.length
            scripts := counts.scripts + db.scripts.length } := by
        constructor <;>
          simp [referredSetUp, Family.only, stringElements, scriptElements, counted.databases,
            counted.strings, counted.scripts]
      have declared : ∀ rest : List (SqlDatabase × String),
          referredElements ((db, dbId) :: rest) =
            [db.element dbId] ++ referredElements rest := by
        simp [referredElements, referred]
      rw [List.zip_cons_cons, declared]
      refine (first.append (sets _ counted')).congr fun family => ?_
      cases family <;>
        simp [setUp, referredSetUp, installedElements, referred, Family.only]

end SqlDatabase

/-! ## All entities -/

namespace Compilation

/-- The standalone entities of the project are set up by the components and declarations that are
given, with ids from the pool of the ledger. -/
theorem setsUp_of_emitStandalone {result : StandaloneElements}
    (given : c.emitStandalone.Gives before result after) :
    result.SetsUp (fun _ => 0) (c.project.setUp (c.project.entityIds before.ids))
      (c.project.referred (c.project.entityIds before.ids)) := by
  simp only [emitStandalone, gives_bind, gives_pure] at given
  obtain ⟨values, afterValues, valueSteps, vars, afterVars, varSteps, _, beforeUsers, needsUtil,
    users, afterUsers, userSteps, _, beforeDatabases, needsSql, databases, afterDatabases,
    databaseSteps, _, beforeCertificates, needsIis, certificates, _, certificateSteps, rfl, -⟩ :=
    given
  have valueRows : values.map row = Family.registry.rows 1
      (c.project.regValues.map fun value => value.keyElement.add value.valueElement) := by
    rw [Family.rows, List.zipIdx_map, List.map_map]
    refine map_of_mapM (fun entry _ result _ step => ?_) valueSteps
    simp only [RegValue.emit, gives_bind, gives_pure] at step
    obtain ⟨_, _, -, rfl, -⟩ := step
    exact RegValue.row_component _ _
  -- each kind finds its ids as they were in the beginning
  have toVars {kind : IdKind} : before.SameIds kind afterValues :=
    RegValue.keepsIds_emitAll _ _ _ _ valueSteps
  have toUsers {kind : IdKind} (apart : kind ≠ .envVar) : before.SameIds kind beforeUsers :=
    (toVars.trans (EnvVar.keepsIds_emitAll apart _ _ _ _ varSteps)).trans
      (keepsIds_need _ _ _ _ _ needsUtil)
  have toDatabases {kind : IdKind} (var : kind ≠ .envVar) (user : kind ≠ .user) :
      before.SameIds kind beforeDatabases :=
    ((toUsers var).trans (User.keepsIds_emitAll user _ _ _ _ _ userSteps)).trans
      (keepsIds_need _ _ _ _ _ needsSql)
  have toCertificates {kind : IdKind} (var : kind ≠ .envVar) (user : kind ≠ .user)
      (database : kind ≠ .database) : before.SameIds kind beforeCertificates :=
    ((toDatabases var user).trans
      (SqlDatabase.keepsIds_emitAll database _ _ _ _ _ databaseSteps)).trans
        (keepsIds_need _ _ _ _ _ needsIis)
  have varRows := Family.environment.rows_of_mapM .envVar EnvVar.naming
    (fun var id => var.element id) (fun _ _ _ _ _ => EnvVar.row_of_emit) varSteps
  have certRows := Family.certificate.rows_of_mapM .certificate Certificate.naming
    (fun cert id => cert.element id) (fun _ _ _ _ _ => Certificate.row_of_emit) certificateSteps
  have userSets := User.setsUp_of_emitAll userSteps
  have databaseSets := SqlDatabase.setsUp_of_emitAll databaseSteps
  rw [← IdPool.AgreeOn.idsFor_eq toVars] at varRows
  rw [← IdPool.AgreeOn.idsFor_eq (toUsers (by decide))] at userSets
  rw [← IdPool.AgreeOn.idsFor_eq (toDatabases (by decide) (by decide))] at databaseSets
  rw [← IdPool.AgreeOn.idsFor_eq (toCertificates (by decide) (by decide) (by decide))] at certRows
  have first : StandaloneElements.SetsUp (fun _ => 0) { components := values } _ [] :=
    .of_rows valueRows (by simp [RegValue.keyElement, Family.word])
  have withVars := first.append (.of_rows varRows
    (forall_mem_zipWith (by simp [EnvVar.element, Family.word]) _ _))
  have withUsers := withVars.append (userSets _ rfl)
  have withDatabases := withUsers.append (databaseSets _ ⟨rfl, rfl, rfl⟩)
  have all := withDatabases.append (.of_rows certRows
    (forall_mem_zipWith (by simp [Certificate.element, Family.word]) _ _))
  refine ⟨all.alone, ?_, ?_⟩
  · intro family
    refine (all.components family).trans (congrArg (family.rows 1) ?_)
    cases family <;> simp [Project.setUp, Project.entityIds, SqlDatabase.setUp, Family.only]
  · exact all.declarations.trans (List.append_nil _)

end Compilation

end Installer
