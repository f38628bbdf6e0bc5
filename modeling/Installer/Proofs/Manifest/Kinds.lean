import Installer.Manifest.Item

/-! # The eleven kinds of entries

An entry of a manifest is of one of eleven kinds.  It stands in the collection of its kind, or among
the items with the tag of the kind.  Here is what the kinds have in common: how a project keeps the
entries of each, and that the tag is passed over when an entry is read (`decodeVia?_untagged`).
-/

namespace Installer.Entity

open Json (Key Value)

inductive Kind where
  | dir
  | action
  | registry
  | env
  | property
  | binary
  | user
  | sql
  | certificate
  | launchCondition
  | feature
deriving DecidableEq

namespace Kind

def all : List Kind :=
  [.dir, .action, .registry, .env, .property, .binary, .user, .sql, .certificate,
   .launchCondition, .feature]

theorem mem_all (kind : Kind) : kind ∈ all := by
  cases kind <;> decide

def tag : Kind → String
  | .dir => "dir"
  | .action => "action"
  | .registry => "registry"
  | .env => "env"
  | .property => "property"
  | .binary => "binary"
  | .user => "user"
  | .sql => "sql"
  | .certificate => "certificate"
  | .launchCondition => "launch-condition"
  | .feature => "feature"

def collection : Kind → String
  | .dir => "dirs"
  | .action => "actions"
  | .registry => "reg_values"
  | .env => "env_vars"
  | .property => "properties"
  | .binary => "binaries"
  | .user => "users"
  | .sql => "sql_databases"
  | .certificate => "certificates"
  | .launchCondition => "launch_conditions"
  | .feature => "features"

def Entry : Kind → Type
  | .dir => Dir
  | .action => CustomAction
  | .registry => RegValue
  | .env => EnvVar
  | .property => Property
  | .binary => Binary
  | .user => User
  | .sql => SqlDatabase
  | .certificate => Certificate
  | .launchCondition => LaunchCondition
  | .feature => Feature

instance codec : (kind : Kind) → Codec kind.Entry
  | .dir => inferInstanceAs (Codec Dir)
  | .action => inferInstanceAs (Codec CustomAction)
  | .registry => inferInstanceAs (Codec RegValue)
  | .env => inferInstanceAs (Codec EnvVar)
  | .property => inferInstanceAs (Codec Property)
  | .binary => inferInstanceAs (Codec Binary)
  | .user => inferInstanceAs (Codec User)
  | .sql => inferInstanceAs (Codec SqlDatabase)
  | .certificate => inferInstanceAs (Codec Certificate)
  | .launchCondition => inferInstanceAs (Codec LaunchCondition)
  | .feature => inferInstanceAs (Codec Feature)

def entity : (kind : Kind) → kind.Entry → Entity
  | .dir => Entity.dir
  | .action => Entity.action
  | .registry => Entity.registry
  | .env => Entity.env
  | .property => Entity.property
  | .binary => Entity.binary
  | .user => Entity.user
  | .sql => Entity.sql
  | .certificate => Entity.certificate
  | .launchCondition => Entity.launchCondition
  | .feature => Entity.feature

def entries (project : Project) : (kind : Kind) → List kind.Entry
  | .dir => project.dirs
  | .action => project.actions
  | .registry => project.regValues
  | .env => project.envVars
  | .property => project.properties
  | .binary => project.binaries
  | .user => project.users
  | .sql => project.sqlDatabases
  | .certificate => project.certificates
  | .launchCondition => project.launchConditions
  | .feature => project.features

theorem entries_add_self (project : Project) {kind : Kind} (entry : kind.Entry) :
    kind.entries (project.add (kind.entity entry)) = kind.entries project ++ [entry] := by
  cases kind <;> rfl

theorem entries_add_of_ne (project : Project) {kind other : Kind} (ne : other ≠ kind)
    (entry : other.Entry) : kind.entries (project.add (other.entity entry)) =
      kind.entries project := by
  cases kind <;> cases other <;> first | rfl | exact absurd rfl ne

theorem reader?_tag (kind : Kind) :
    reader? kind.tag = some fun v => (decode? v : Option kind.Entry).map kind.entity := by
  cases kind <;> rfl

theorem reader?_eq_none {tag : String} (unknown : ∀ kind : Kind, kind.tag ≠ tag) :
    reader? tag = none := by
  unfold reader?
  split
  case h_12 => rfl
  all_goals first
    | exact absurd rfl (unknown .dir)
    | exact absurd rfl (unknown .action)
    | exact absurd rfl (unknown .registry)
    | exact absurd rfl (unknown .env)
    | exact absurd rfl (unknown .property)
    | exact absurd rfl (unknown .binary)
    | exact absurd rfl (unknown .user)
    | exact absurd rfl (unknown .sql)
    | exact absurd rfl (unknown .certificate)
    | exact absurd rfl (unknown .launchCondition)
    | exact absurd rfl (unknown .feature)

end Kind

end Installer.Entity

namespace Installer.Project

open Entity

def bare (project : Project) : Project :=
  { project with
    dirs := [], actions := [], regValues := [], envVars := [], properties := [], binaries := [],
    users := [], sqlDatabases := [], certificates := [], launchConditions := [], features := [] }

def withEntries (project : Project) (entries : (kind : Kind) → List kind.Entry) : Project :=
  { project with
    dirs := entries .dir
    actions := entries .action
    regValues := entries .registry
    envVars := entries .env
    properties := entries .property
    binaries := entries .binary
    users := entries .user
    sqlDatabases := entries .sql
    certificates := entries .certificate
    launchConditions := entries .launchCondition
    features := entries .feature }

@[simp] theorem bare_withEntries (project : Project)
    (entries : (kind : Kind) → List kind.Entry) : (project.withEntries entries).bare =
      project.bare :=
  rfl

@[simp] theorem entries_withEntries (project : Project)
    (entries : (kind : Kind) → List kind.Entry) (kind : Kind) :
    kind.entries (project.withEntries entries) = entries kind := by
  cases kind <;> rfl

theorem bare_add (project : Project) (entity : Entity) :
    (project.add entity).bare = project.bare := by
  cases entity <;> rfl

theorem withEntries_bare (project : Project) :
    project.bare.withEntries (Kind.entries project) = project :=
  rfl

theorem ext_entries {project other : Project} (bare : project.bare = other.bare)
    (entries : ∀ kind : Kind, kind.entries project = kind.entries other) : project = other := by
  rw [← withEntries_bare project, ← withEntries_bare other, bare, funext entries]

end Installer.Project

namespace Installer.Entity.Kind

open Json (Key Value)
open Json.Value (fieldsOf?)

/-! ## Tags are passed over -/

def without (name : String) (members : List (Key × Value)) : List (Key × Value) :=
  members.filter fun member => member.1 != .name name

theorem fieldsOf?_without {name : String} {names : List String} (unknown : name ∉ names)
    (members : List (Key × Value)) :
    fieldsOf? names (without name members) = fieldsOf? names members := by
  have fields : (without name members).filterMap
        (fun member => (member.1.among? names).map (·, member.2)) =
      members.filterMap fun member => (member.1.among? names).map (·, member.2) := by
    rw [without, List.filterMap_filter]
    congr 1
    funext member
    by_cases same : member.1 = .name name <;> simp [same, Key.among?, unknown]
  have strays : (without name members).any (fun member => member.1 == .stray) =
      members.any fun member => member.1 == .stray := by
    rw [without, List.any_filter]
    congr 1
    funext member
    by_cases same : member.1 = .name name <;> simp [same]
  rw [fieldsOf?, fieldsOf?, fields, strays]

/-- A record is read the same without a member that it does not have. -/
theorem bind_fields?_without {α : Type} {name : String} {names : List String}
    {read : List (String × Value) → Option α} (unknown : name ∉ names)
    (members : List (Key × Value)) :
    ((Value.object (without name members)).fields? names >>= read) =
      ((Value.object members).fields? names >>= read) := by
  rw [Value.fields?, Value.fields?, fieldsOf?_without unknown]

theorem decodeNested?_without (route : Route) {name : String} (unknown : name ∉ Dir.memberNames)
    (members : List (Key × Value)) :
    Dir.decodeNested? route (without name members) = Dir.decodeNested? route members := by
  induction members with
  | nil => rfl
  | cons member rest ih =>
    obtain ⟨key, v⟩ := member
    by_cases same : key = .name name
    · subst same
      have passed : (Key.name name).among? Dir.memberNames ≠ some "dirs" := by
        simp [Key.among?, unknown]
      rw [Dir.decodeNested?, if_neg passed, ← ih]
      simp [without]
    · have kept : without name ((key, v) :: rest) = (key, v) :: without name rest := by
        simp [without, same]
      rw [kept, Dir.decodeNested?, Dir.decodeNested?, ih]

theorem mem_kinds_of_kindOf? {v : Value} {kind : String × List String}
    (found : ActionKind.kindOf? v = some kind) : kind ∈ ActionKind.kinds := by
  unfold ActionKind.kindOf? at found
  split at found
  · exact List.mem_of_find?_eq_some found
  · exact List.mem_of_getElem? found
  · cases found

theorem decodeMembers?_without (route : Route) {name : String} (isType : name ≠ "type")
    (unknown : ∀ kind ∈ ActionKind.kinds, name ∉ kind.2) (members : List (Key × Value)) :
    ActionKind.decodeMembers? route (without name members) =
      ActionKind.decodeMembers? route members := by
  have types : ActionKind.typeOf? (without name members) = ActionKind.typeOf? members := by
    rw [ActionKind.typeOf?, ActionKind.typeOf?, without, List.filter_filter]
    congr 2
    funext member
    by_cases type : member.1 = .name "type" <;> simp [type, isType.symm]
  rw [ActionKind.decodeMembers?, ActionKind.decodeMembers?, types]
  cases found : (ActionKind.typeOf? members).bind ActionKind.kindOf? with
  | none => rfl
  | some kind =>
    obtain ⟨v, _, found⟩ := Option.bind_eq_some_iff.mp found
    have unknown := unknown kind (mem_kinds_of_kindOf? found)
    simp only [Option.bind_eq_bind, Option.bind_some, fieldsOf?_without unknown]

theorem partition_without (name : String) (members : List (Key × Value)) :
    (without name members).partition (fun member => CustomAction.ownsKey member.1) =
      (without name (members.partition fun member => CustomAction.ownsKey member.1).1,
        without name (members.partition fun member => CustomAction.ownsKey member.1).2) := by
  simp only [List.partition_eq_filter_filter, without, List.filter_filter, Bool.and_comm]

/-- An entry is read the same with its tag as without. -/
theorem decodeVia?_untagged (route : Route) (kind : Kind) (members : List (Key × Value)) :
    (decodeVia? route (.object (without "kind" members)) : Option kind.Entry) =
      decodeVia? route (.object members) := by
  cases kind with
  | dir =>
    change Dir.decodeVia? route _ = Dir.decodeVia? route _
    rw [Dir.decodeVia?, Dir.decodeVia?, fieldsOf?_without (by decide),
      decodeNested?_without route (by decide)]
  | action =>
    change (decodeVia? route _ : Option CustomAction) = decodeVia? route _
    have own : "kind" ∉ CustomAction.memberNames := by decide
    simp only [decodeVia?, partition_without, fieldsOf?_without own,
      decodeMembers?_without route (by decide : "kind" ≠ "type") (by decide)]
  | registry => exact bind_fields?_without (by decide) members
  | env => exact bind_fields?_without (by decide) members
  | property => exact bind_fields?_without (by decide) members
  | binary => exact bind_fields?_without (by decide) members
  | user => exact bind_fields?_without (by decide) members
  | sql => exact bind_fields?_without (by decide) members
  | certificate => exact bind_fields?_without (by decide) members
  | launchCondition => exact bind_fields?_without (by decide) members
  | feature => exact bind_fields?_without (by decide) members

end Installer.Entity.Kind
