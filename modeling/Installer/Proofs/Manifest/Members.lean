import Installer.Proofs.Manifest.Kinds
import Installer.Proofs.Manifest.Written

/-! # What the members of a project say

A project is read from members if and only if each of its fields is what its member is read as
(`Project.decodeVia?_object_iff`).  So the entries of a project can be exchanged by exchanging the
members that list them (`Project.WrittenIn.withEntries`).
-/

namespace Installer

open Json (Key Value)
open Json.Value (fieldsOf?)
open Entity

/-! ## Members by name -/

namespace Json.Value

def Named (members : List (Key × Value)) : Prop :=
  ∀ member ∈ members, ∃ name, member.1 = .name name

theorem fieldsOf?_eq_filterMap {names : List String} {members : List (Key × Value)}
    {fields : List (String × Value)} (found : fieldsOf? names members = some fields) :
    fields = members.filterMap fun member => (member.1.among? names).map (·, member.2) := by
  rw [fieldsOf?] at found
  split at found
  · cases found
  · exact (Option.some.inj found).symm

theorem lookup_filterMap {names : List String} {name : String} (known : name ∈ names) :
    ∀ {members : List (Key × Value)}, Named members →
      (members.filterMap fun member => (member.1.among? names).map (·, member.2)).lookup name =
        members.lookup (.name name)
  | [], _ => rfl
  | (key, v) :: rest, named => by
    obtain ⟨text, rfl⟩ := named _ List.mem_cons_self
    have others := lookup_filterMap known fun member mem =>
      named member (List.mem_cons_of_mem _ mem)
    by_cases same : name = text
    · subst same
      simp [Key.among?, known]
    · have ne : (Key.name name == Key.name text) = false := by simp [same]
      rw [List.lookup_cons, ne, ← others]
      have ne : (name == text) = false := by simp [same]
      by_cases listed : text ∈ names <;> simp [Key.among?, listed, List.lookup_cons, ne]

theorem lookup_of_fieldsOf? {names : List String} {members : List (Key × Value)}
    {fields : List (String × Value)} (named : Named members)
    (found : fieldsOf? names members = some fields) {name : String} (known : name ∈ names) :
    fields.lookup name = members.lookup (.name name) := by
  rw [fieldsOf?_eq_filterMap found, lookup_filterMap known named]

theorem exists_fieldsOf? (names : List String) {members : List (Key × Value)}
    (named : Named members) (distinct : (members.map Prod.fst).Nodup) :
    ∃ fields, fieldsOf? names members = some fields := by
  have noStray : (members.any fun member => member.1 == .stray) = false := by
    rw [List.any_eq_false]
    intro member mem
    obtain ⟨name, key⟩ := named member mem
    simp [key]
  have nodup : ((members.filterMap fun member =>
      (member.1.among? names).map (·, member.2)).map Prod.fst).Nodup := by
    have keys : (members.filterMap fun member =>
        (member.1.among? names).map (·, member.2)).map Prod.fst =
          (members.map Prod.fst).filterMap (Key.among? names) := by
      rw [List.map_filterMap, List.filterMap_map]
      congr 1
      funext member
      simp [Function.comp_def]
    rw [keys, List.Nodup, List.pairwise_filterMap]
    refine distinct.imp_of_mem ?_
    intro _ _ mem otherMem ne found read otherFound otherRead
    obtain ⟨member, listed, rfl⟩ := List.mem_map.mp mem
    obtain ⟨other, otherListed, rfl⟩ := List.mem_map.mp otherMem
    obtain ⟨name, key⟩ := named member listed
    obtain ⟨otherName, otherKey⟩ := named other otherListed
    rw [key, Key.among?, Option.ite_none_right_eq_some] at read
    rw [otherKey, Key.among?, Option.ite_none_right_eq_some] at otherRead
    rintro rfl
    exact ne (by rw [key, otherKey, Option.some.inj read.2, Option.some.inj otherRead.2])
  exact ⟨_, by rw [fieldsOf?, noStray, if_neg (by simpa using nodup)]⟩

end Json.Value

/-! ## The members of a project -/

section

variable {α : Type} [Codec α] {route : Route} {members others : List (String × Value)}
  {name : String} {default : α}

theorem required_congr (same : others.lookup name = members.lookup name) :
    (required route others name : Option α) = required route members name := by
  rw [required, required, same]

theorem orDefault_congr (same : others.lookup name = members.lookup name) :
    orDefault route others name default = orDefault route members name default := by
  rw [orDefault, orDefault, same]

end

namespace Project

def memberNames : List String :=
  ["name", "version", "guid", "upgrade_code", "product_id", "language", "codepage", "platform",
   "install_scope", "description", "manufacturer", "default_feature", "features", "dirs",
   "actions", "reg_values", "env_vars", "properties", "users", "sql_databases", "certificates",
   "binaries", "launch_conditions", "ui", "embedded_ui", "banner_image", "background_image",
   "licence_file", "major_upgrade_strategy", "source_base_dir", "out_dir", "out_file_name",
   "emit_consistent_package_id", "attributes", "package_attributes", "media_attributes"]

def encodeMembers (project : Project) : List (Key × Value) :=
  project.encodeIdentity ++ project.encodeContent ++ project.encodePackaging

/-- Each field of the project is what its member is read as. -/
structure WrittenIn (members : List (String × Value)) (project : Project) : Prop where
  name : required .buffered members "name" = some project.name
  version : orDefault .buffered members "version" "1.0.0.0" = some project.version
  guid : optional .buffered members "guid" = some project.guid
  upgradeCode : optional .buffered members "upgrade_code" = some project.upgradeCode
  productId : optional .buffered members "product_id" = some project.productId
  language : orDefault .buffered members "language" "en-US" = some project.language
  codepage : optional .buffered members "codepage" = some project.codepage
  platform : orDefault .buffered members "platform" .x86 = some project.platform
  installScope : orDefault .buffered members "install_scope" .perMachine = some project.installScope
  description : optional .buffered members "description" = some project.description
  manufacturer : optional .buffered members "manufacturer" = some project.manufacturer
  defaultFeature :
    orDefault .buffered members "default_feature" { name := "Complete" } =
      some project.defaultFeature
  entries : ∀ kind : Kind,
    orDefault .buffered members kind.collection [] = some (kind.entries project)
  ui : orDefault .buffered members "ui" .minimal = some project.ui
  embeddedUi : optional .buffered members "embedded_ui" = some project.embeddedUi
  bannerImage : optional .buffered members "banner_image" = some project.bannerImage
  backgroundImage : optional .buffered members "background_image" = some project.backgroundImage
  licenceFile : optional .buffered members "licence_file" = some project.licenceFile
  upgradeStrategy :
    optional .buffered members "major_upgrade_strategy" = some project.upgradeStrategy
  sourceBaseDir : orDefault .buffered members "source_base_dir" "" = some project.sourceBaseDir
  outDir : orDefault .buffered members "out_dir" "." = some project.outDir
  outFileName : optional .buffered members "out_file_name" = some project.outFileName
  emitConsistentPackageId :
    orDefault .buffered members "emit_consistent_package_id" false =
      some project.emitConsistentPackageId
  attributes : orDefault .buffered members "attributes" .empty = some project.attributes
  packageAttributes :
    orDefault .buffered members "package_attributes" .empty = some project.packageAttributes
  mediaAttributes :
    orDefault .buffered members "media_attributes" .empty = some project.mediaAttributes

theorem decodeVia?_object_iff {members : List (Key × Value)} {project : Project} :
    decodeVia? .buffered (.object members) = some project ↔
      ∃ fields, fieldsOf? memberNames members = some fields ∧ project.WrittenIn fields := by
  constructor
  · intro read
    obtain ⟨fields, found, read⟩ := Option.bind_eq_some_iff.mp read
    -- one bind for each field
    iterate 36 replace ⟨_, _, read⟩ := Option.bind_eq_some_iff.mp read
    cases read
    refine ⟨fields, found, ?_⟩
    constructor
    case entries => intro kind; cases kind <;> assumption
    all_goals assumption
  · rintro ⟨fields, found, written⟩
    have dirs : orDefault .buffered fields "dirs" [] = some project.dirs := written.entries .dir
    have actions : orDefault .buffered fields "actions" [] = some project.actions :=
      written.entries .action
    have registry : orDefault .buffered fields "reg_values" [] = some project.regValues :=
      written.entries .registry
    have env : orDefault .buffered fields "env_vars" [] = some project.envVars :=
      written.entries .env
    have properties : orDefault .buffered fields "properties" [] = some project.properties :=
      written.entries .property
    have binaries : orDefault .buffered fields "binaries" [] = some project.binaries :=
      written.entries .binary
    have users : orDefault .buffered fields "users" [] = some project.users := written.entries .user
    have sql : orDefault .buffered fields "sql_databases" [] = some project.sqlDatabases :=
      written.entries .sql
    have certificates : orDefault .buffered fields "certificates" [] = some project.certificates :=
      written.entries .certificate
    have conditions :
        orDefault .buffered fields "launch_conditions" [] = some project.launchConditions :=
      written.entries .launchCondition
    have features : orDefault .buffered fields "features" [] = some project.features :=
      written.entries .feature
    obtain ⟨⟩ := written
    refine Option.bind_eq_some_iff.mpr ⟨fields, found, ?_⟩
    iterate 36 refine Option.bind_eq_some_iff.mpr ⟨_, by assumption, ?_⟩
    rfl

/-- The entries of a project are exchanged by exchanging the members that list them. -/
theorem WrittenIn.withEntries {members others : List (String × Value)} {project : Project}
    (written : project.WrittenIn members) {entries : (kind : Kind) → List kind.Entry}
    (same : ∀ name ∈ memberNames, name ∉ Kind.all.map Kind.collection →
      others.lookup name = members.lookup name)
    (listed : ∀ kind : Kind, orDefault .buffered others kind.collection [] = some (entries kind)) :
    (project.withEntries entries).WrittenIn others := by
  -- what is not in the collections is read as before
  have required {α : Type} [Codec α] {name : String} {a : α}
      (read : required .buffered members name = some a)
      (known : name ∈ memberNames) (single : name ∉ Kind.all.map Kind.collection) :
      required .buffered others name = some a := by
    rw [required_congr (same name known single), read]
  have orDefault {α : Type} [Codec α] {name : String} {default a : α}
      (read : orDefault .buffered members name default = some a) (known : name ∈ memberNames)
      (single : name ∉ Kind.all.map Kind.collection) :
      orDefault .buffered others name default = some a := by
    rw [orDefault_congr (same name known single), read]
  constructor
  case entries => simpa using listed
  case name => exact required written.name (by decide) (by decide)
  case version => exact orDefault written.version (by decide) (by decide)
  case guid => exact orDefault written.guid (by decide) (by decide)
  case upgradeCode => exact orDefault written.upgradeCode (by decide) (by decide)
  case productId => exact orDefault written.productId (by decide) (by decide)
  case language => exact orDefault written.language (by decide) (by decide)
  case codepage => exact orDefault written.codepage (by decide) (by decide)
  case platform => exact orDefault written.platform (by decide) (by decide)
  case installScope => exact orDefault written.installScope (by decide) (by decide)
  case description => exact orDefault written.description (by decide) (by decide)
  case manufacturer => exact orDefault written.manufacturer (by decide) (by decide)
  case defaultFeature => exact orDefault written.defaultFeature (by decide) (by decide)
  case ui => exact orDefault written.ui (by decide) (by decide)
  case embeddedUi => exact orDefault written.embeddedUi (by decide) (by decide)
  case bannerImage => exact orDefault written.bannerImage (by decide) (by decide)
  case backgroundImage => exact orDefault written.backgroundImage (by decide) (by decide)
  case licenceFile => exact orDefault written.licenceFile (by decide) (by decide)
  case upgradeStrategy => exact orDefault written.upgradeStrategy (by decide) (by decide)
  case sourceBaseDir => exact orDefault written.sourceBaseDir (by decide) (by decide)
  case outDir => exact orDefault written.outDir (by decide) (by decide)
  case outFileName => exact orDefault written.outFileName (by decide) (by decide)
  case emitConsistentPackageId =>
    exact orDefault written.emitConsistentPackageId (by decide) (by decide)
  case attributes => exact orDefault written.attributes (by decide) (by decide)
  case packageAttributes => exact orDefault written.packageAttributes (by decide) (by decide)
  case mediaAttributes => exact orDefault written.mediaAttributes (by decide) (by decide)

end Project

end Installer
