import Installer.Manifest.Project
import Installer.Proofs.Manifest.Codec

/-! # What was written of a manifest is read back

Everything that a manifest holds is read back from its written form: records by their members,
directories with what is below them, and projects with all their entries.
-/

/-! ## Records are read back

Every record of a manifest but actions and projects is read back from its written form, whatever it
holds, and that form is plain.  An action is as long as its step is one that can be read, and a
project as long as all its actions are.
-/

namespace Installer

open Json (Key Value)
open Codec

/-! ## Choices -/

instance : Choice.Lawful When := ⟨by intro a; cases a <;> decide⟩

instance : Choice.Lawful Sequence := ⟨by intro a; cases a <;> decide⟩

instance : Choice.Lawful Return := ⟨by intro a; cases a <;> decide⟩

instance : Choice.Lawful Execute := ⟨by intro a; cases a <;> decide⟩

instance : Choice.Lawful ProcessorArchitecture := ⟨by intro a; cases a <;> decide⟩

instance : Choice.Lawful RegValueKind := ⟨by intro a; cases a <;> decide⟩

instance : Choice.Lawful RegistryKeyAction := ⟨by intro a; cases a <;> decide⟩

instance : Choice.Lawful EnvVarAction := ⟨by intro a; cases a <;> decide⟩

instance : Choice.Lawful EnvVarPart := ⟨by intro a; cases a <;> decide⟩

instance : Choice.Lawful Platform := ⟨by intro a; cases a <;> decide⟩

instance : Choice.Lawful InstallScope := ⟨by intro a; cases a <;> decide⟩

instance : Choice.Lawful UiKind := ⟨by intro a; cases a <;> decide⟩

/-- The short name of a root is found before any long name is looked at. -/
instance : Lawful RegistryHive := ⟨by intro route hive; cases hive <;> rfl⟩

instance : Plain RegistryHive := ⟨fun _ => trivial⟩

/-! ## What directories hold -/

attribute [local simp] required orDefault optional List.lookup_cons Value.HavePlain

instance : Lawful Condition where
  decodeVia?_encode _ _ := bind_fieldsOf? ["text", "attributes"]
    rfl (by decide) (by decide) (by simp)

instance : Solid Condition := ⟨fun _ => object_ne_null⟩

instance : Plain Condition := ⟨fun _ => isPlain_object (by simp)⟩

instance : Lawful Permission where
  decodeVia?_encode _ _ := bind_fields? ["user", "id", "domain", "rights", "feature", "attributes"]
    rfl (by decide) (by decide) (by simp)

instance : Plain Permission := ⟨fun _ => isPlain_object (by simp)⟩

instance : Lawful Shortcut where
  decodeVia?_encode _ _ := bind_fields?
    ["name", "id", "target", "arguments", "location", "working_dir", "feature", "condition",
     "attributes"] rfl (by decide) (by decide) (by simp)

instance : Plain Shortcut := ⟨fun _ => isPlain_object (by simp)⟩

instance : Lawful FileAssociation where
  decodeVia?_encode _ _ := bind_fields?
    ["extension", "content_type", "description", "command", "arguments", "advertise", "icon",
     "icon_index", "sequence"] rfl (by decide) (by decide) (by simp)

instance : Plain FileAssociation := ⟨fun _ => isPlain_object (by simp)⟩

instance : Lawful ServiceInstaller where
  decodeVia?_encode _ _ := bind_fields?
    ["name", "display_name", "description", "start_type", "service_type", "error_control",
     "account", "password", "arguments", "start_on", "stop_on", "remove_on"]
    rfl (by decide) (by decide) (by simp)

instance : Solid ServiceInstaller := ⟨fun _ => object_ne_null⟩

instance : Plain ServiceInstaller := ⟨fun _ => isPlain_object (by simp)⟩

instance : Lawful File where
  decodeVia?_encode _ _ := bind_fields?
    ["name", "id", "feature", "condition", "attributes", "associations", "shortcuts",
     "permissions", "register_in_gac", "processor_architecture", "service"]
    rfl (by decide) (by decide) (by simp)

instance : Plain File := ⟨fun _ => isPlain_object (by simp)⟩

instance : Lawful MergeModule where
  decodeVia?_encode _ _ :=
    bind_fields? ["source_file", "id", "feature", "file_compression", "attributes"]
    rfl (by decide) (by decide) (by simp)

instance : Plain MergeModule := ⟨fun _ => isPlain_object (by simp)⟩

/-! ## Standalone entities -/

instance : Lawful RegValue where
  decodeVia?_encode _ _ := bind_fields?
    ["root", "key", "name", "value", "type", "key_action", "force_create_on_install",
     "force_delete_on_uninstall", "win64", "feature", "condition", "attributes"]
    rfl (by decide) (by decide) (by simp)

instance : Plain RegValue := ⟨fun _ => isPlain_object (by simp)⟩

instance : Lawful EnvVar where
  decodeVia?_encode _ _ := bind_fields?
    ["name", "value", "id", "part", "action", "permanent", "system", "feature", "condition",
     "attributes"] rfl (by decide) (by decide) (by simp)

instance : Plain EnvVar := ⟨fun _ => isPlain_object (by simp)⟩

instance : Lawful User where
  decodeVia?_encode _ _ := bind_fields?
    ["name", "id", "domain", "password", "create_user", "update_if_exists", "remove_on_uninstall",
     "fail_if_exists", "password_never_expires", "can_not_change_password", "feature",
     "attributes"] rfl (by decide) (by decide) (by simp)

instance : Plain User := ⟨fun _ => isPlain_object (by simp)⟩

instance : Lawful SqlString where
  decodeVia?_encode _ _ := bind_fields?
    ["sql", "id", "feature", "execute_on_install", "execute_on_reinstall", "execute_on_uninstall",
     "continue_on_error", "sequence"] rfl (by decide) (by decide) (by
      simp [SqlExecution.encodeMembers, SqlExecution.decodeMembers?])

instance : Plain SqlString := ⟨fun _ => isPlain_object (by simp [SqlExecution.encodeMembers])⟩

instance : Lawful SqlScript where
  decodeVia?_encode _ _ := bind_fields?
    ["binary_key", "id", "feature", "execute_on_install", "execute_on_reinstall",
     "execute_on_uninstall", "continue_on_error", "sequence"] rfl (by decide) (by decide) (by
      simp [SqlExecution.encodeMembers, SqlExecution.decodeMembers?])

instance : Plain SqlScript := ⟨fun _ => isPlain_object (by simp [SqlExecution.encodeMembers])⟩

instance : Lawful SqlDatabase where
  decodeVia?_encode _ _ := bind_fields?
    ["database", "server", "id", "instance", "user", "create_on_install", "create_on_reinstall",
     "create_on_uninstall", "drop_on_install", "drop_on_reinstall", "drop_on_uninstall",
     "confirm_overwrite", "continue_on_error", "strings", "scripts", "feature"]
    rfl (by decide) (by decide) (by simp)

instance : Plain SqlDatabase := ⟨fun _ => isPlain_object (by simp)⟩

instance : Lawful Certificate where
  decodeVia?_encode _ _ := bind_fields?
    ["name", "id", "store_location", "store_name", "binary_key", "certificate_path",
     "pfx_password", "request", "overwrite", "feature", "attributes"]
    rfl (by decide) (by decide) (by simp)

instance : Plain Certificate := ⟨fun _ => isPlain_object (by simp)⟩

instance : Lawful RegistrySearch where
  decodeVia?_encode _ _ := bind_fields? ["root", "key", "entry_name"] rfl (by decide) (by decide)
    (by simp)

instance : Solid RegistrySearch := ⟨fun _ => object_ne_null⟩

instance : Plain RegistrySearch := ⟨fun _ => isPlain_object (by simp)⟩

instance : Lawful Property where
  decodeVia?_encode _ _ := bind_fields? ["name", "value", "registry", "ref", "attributes"]
    rfl (by decide) (by decide) (by simp)

instance : Plain Property := ⟨fun _ => isPlain_object (by simp)⟩

instance : Lawful Binary where
  decodeVia?_encode _ _ := bind_fields? ["name", "id", "managed", "attributes"]
    rfl (by decide) (by decide) (by simp)

instance : Solid Binary := ⟨fun _ => object_ne_null⟩

instance : Plain Binary := ⟨fun _ => isPlain_object (by simp)⟩

instance : Lawful LaunchCondition where
  decodeVia?_encode _ _ := bind_fields? ["condition", "message", "attributes"]
    rfl (by decide) (by decide) (by simp)

instance : Plain LaunchCondition := ⟨fun _ => isPlain_object (by simp)⟩

/-! ## Features and upgrades -/

instance : Lawful FeatureCondition where
  decodeVia?_encode _ _ := bind_fields? ["level", "text"] rfl (by decide) (by decide) (by simp)

instance : Solid FeatureCondition := ⟨fun _ => object_ne_null⟩

instance : Plain FeatureCondition := ⟨fun _ => isPlain_object (by simp)⟩

instance : Lawful Feature where
  decodeVia?_encode _ _ := bind_fields?
    ["name", "id", "description", "allow_change", "is_enabled", "parent", "configurable_dir",
     "condition", "attributes"] rfl (by decide) (by decide) (by simp)

instance : Plain Feature := ⟨fun _ => isPlain_object (by simp)⟩

instance : Lawful VersionRange where
  decodeVia?_encode _ _ := bind_fields?
    ["minimum", "maximum", "include_minimum", "include_maximum", "migrate_features"]
    rfl (by decide) (by decide) (by simp)

instance : Solid VersionRange := ⟨fun _ => object_ne_null⟩

instance : Plain VersionRange := ⟨fun _ => isPlain_object (by simp)⟩

instance : Lawful UpgradeStrategy where
  decodeVia?_encode _ _ := bind_fields?
    ["upgrade_versions", "prevent_downgrading_versions", "newer_product_installed_error_message",
     "remove_existing_product_after"] rfl (by decide) (by decide) (by simp)

instance : Solid UpgradeStrategy := ⟨fun _ => object_ne_null⟩

instance : Plain UpgradeStrategy := ⟨fun _ => isPlain_object (by simp)⟩

/-! ## Directories, actions and projects are read back

A directory is read back with all that is below it.  An action has a step that is written as a bare
name, so the name must not be the word for another step; every step that was read is like that
(`Step.readsBack_ofString`).
-/

attribute [local simp] required orDefault optional List.lookup_cons Value.HavePlain

/-! ## Directories -/

namespace Dir

theorem decodeMembers?_encodeMembers (route : Route) (body : DirBody) (below : Value) :
    (Value.fieldsOf? memberNames ((.name "dirs", below) :: body.encodeMembers)).bind
      (DirBody.decodeMembers? route) = some body :=
  bind_fieldsOf?
    ["dirs", "name", "id", "feature", "files", "shortcuts", "permissions", "merge_modules"]
    rfl (by decide) (by decide) (by simp [DirBody.encodeMembers, DirBody.decodeMembers?])

section

variable (route : Route)

mutual

theorem decodeVia?_encode : ∀ dir : Dir, decodeVia? route (encode dir) = some dir
  | ⟨body, dirs⟩ => by
    have nested : decodeNested? route
        ((.name "dirs", .array (encodeAll dirs)) :: body.encodeMembers) = some dirs := by
      rw [decodeNested?, if_pos (by decide), decodeArray?, decodeAll?_encodeAll dirs]
    rw [encode, decodeVia?, decodeMembers?_encodeMembers, nested]
    rfl

theorem decodeAll?_encodeAll : ∀ dirs : List Dir, decodeAll? route (encodeAll dirs) = some dirs
  | [] => rfl
  | dir :: rest => by
    rw [encodeAll, decodeAll?, decodeVia?_encode dir, decodeAll?_encodeAll rest]
    rfl

end

end

mutual

theorem isPlain_encode : ∀ dir : Dir, (encode dir).IsPlain
  | ⟨body, dirs⟩ => by
    have below : (Value.array (encodeAll dirs)).IsPlain := arePlain_encodeAll dirs
    exact isPlain_object (by simp [below, DirBody.encodeMembers])

theorem arePlain_encodeAll : ∀ dirs : List Dir, Value.ArePlain (encodeAll dirs)
  | [] => trivial
  | dir :: rest => ⟨isPlain_encode dir, arePlain_encodeAll rest⟩

end

end Dir

instance : Lawful Dir := ⟨Dir.decodeVia?_encode⟩

instance : Plain Dir := ⟨Dir.isPlain_encode⟩

/-! ## Actions -/

namespace ActionKind

theorem decodeMembers?_eq {route : Route} {members : List (Key × Value)}
    {kind : String × List String} {fields : List (String × Value)}
    (type : (typeOf? members).bind kindOf? = some kind)
    (found : Value.fieldsOf? kind.2 members = some fields) :
    decodeMembers? route members = decodeFields? route fields kind.1 := by
  simp [decodeMembers?, type, found]

theorem decodeMembers?_encodeMembers (route : Route) (kind : ActionKind) :
    decodeMembers? route kind.encodeMembers = some kind := by
  cases kind <;>
    refine (decodeMembers?_eq (by simp [encodeMembers, typeOf?, kindOf?, kinds]; rfl)
      (by simp [encodeMembers, Value.fieldsOf?, Key.among?]; rfl)).trans ?_ <;>
    simp [decodeFields?]

end ActionKind

instance : Plain Step := ⟨fun _ => trivial⟩

instance : Plain CustomAction where
  isPlain_encode action := by
    have own : Value.HavePlain action.encodeMembers := by
      simp [CustomAction.encodeMembers]
    have others : Value.HavePlain action.kind.encodeMembers := by
      cases action.kind <;> simp [ActionKind.encodeMembers, Value.IsPlain]
    exact isPlain_object (Value.havePlain_append own others)

def Step.ReadsBack (step : Step) : Prop :=
  ofString step.toString = step

theorem Step.readsBack_ofString (name : String) : (ofString name).ReadsBack := by
  unfold ofString
  split
  next => rfl
  split
  next => rfl
  split
  next => rfl
  next other => simp [ReadsBack, toString, ofString, *]

namespace CustomAction

theorem ownsKey_of_mem_encodeMembers {action : CustomAction} {member : Key × Value}
    (mem : member ∈ action.encodeMembers) : ownsKey member.1 = true := by
  have known : member.1 ∈ memberNames.map Key.name := List.mem_map_of_mem mem
  obtain ⟨name, mem, same⟩ := List.mem_map.mp known
  rw [← same, ownsKey, List.contains_iff_mem]
  exact mem

theorem not_ownsKey_of_mem_encodeMembers {kind : ActionKind} {member : Key × Value}
    (mem : member ∈ kind.encodeMembers) : ownsKey member.1 = false := by
  have others : ∀ key ∈ kind.encodeMembers.map Prod.fst, ownsKey key = false := by
    cases kind <;> simp [ActionKind.encodeMembers, ownsKey, memberNames]
  exact others _ (List.mem_map_of_mem mem)

theorem partition_encodeMembers (action : CustomAction) :
    (action.encodeMembers ++ action.kind.encodeMembers).partition
        (fun member => ownsKey member.1) = (action.encodeMembers, action.kind.encodeMembers) := by
  have own : ∀ member ∈ action.encodeMembers, ownsKey member.1 = true :=
    fun _ mem => ownsKey_of_mem_encodeMembers mem
  have others : ∀ member ∈ action.kind.encodeMembers, ownsKey member.1 = false :=
    fun _ mem => not_ownsKey_of_mem_encodeMembers mem
  rw [List.partition_eq_filter_filter, List.filter_append, List.filter_append,
    List.filter_eq_self.mpr own, List.filter_eq_nil_iff.mpr (by simpa using others),
    List.filter_eq_nil_iff.mpr (by simpa using own),
    List.filter_eq_self.mpr (by simpa using others)]
  simp

theorem decodeVia?_encode (route : Route) {action : CustomAction}
    (step : action.step.ReadsBack) : decodeVia? route (encode action) = some action := by
  have fields : Value.fieldsOf? memberNames action.encodeMembers =
      some (memberNames.zip (action.encodeMembers.map Prod.snd)) :=
    fieldsOf?_eq_some memberNames rfl (by decide) (by decide)
  have readStep : (decodeVia? route (encode action.step) : Option Step) = some action.step :=
    congrArg some step
  simp only [decodeVia?, encode, partition_encodeMembers, ActionKind.decodeMembers?_encodeMembers,
    fields, Option.bind_eq_bind, Option.bind_some]
  simp [encodeMembers, memberNames, readStep]

end CustomAction

/-! ## Projects -/

namespace Project

def StepsReadBack (project : Project) : Prop :=
  ∀ action ∈ project.actions, action.step.ReadsBack

theorem decodeVia?_encode (route : Route) {project : Project} (steps : project.StepsReadBack) :
    decodeVia? route (encode project) = some project := by
  have readActions : (decodeVia? route (encode project.actions) : Option (List CustomAction)) =
      some project.actions :=
    decodeVia?_list fun action mem => CustomAction.decodeVia?_encode route (steps action mem)
  exact bind_fields?
    ["name", "version", "guid", "upgrade_code", "product_id", "language", "codepage", "platform",
     "install_scope", "description", "manufacturer", "default_feature", "features", "dirs",
     "actions", "reg_values", "env_vars", "properties", "users", "sql_databases", "certificates",
     "binaries", "launch_conditions", "ui", "embedded_ui", "banner_image", "background_image",
     "licence_file", "major_upgrade_strategy", "source_base_dir", "out_dir", "out_file_name",
     "emit_consistent_package_id", "attributes", "package_attributes", "media_attributes"]
    rfl (by decide) (by decide)
    (by simp [encodeIdentity, encodeContent, encodePackaging, readActions])

end Project

instance : Plain Project where
  isPlain_encode project := isPlain_object (by
    simp [Project.encodeIdentity, Project.encodeContent, Project.encodePackaging])

end Installer
