import Installer.Manifest.Directory
import Installer.Project.Standalone

/-! # The written form of standalone entities, properties and binaries -/

namespace Installer

open Json (Key Value)

/-! ## Registry and environment -/

/-- A root of the registry is written by its short name and read by its long name as well. -/
instance : Codec RegistryHive where
  encode hive := .string (Choice.name hive)
  decodeVia? := Codec.choice? fun text =>
    (Choice.ofName? text).or
      (Choice.all.find? fun hive : RegistryHive => hive.longName? == some text)

instance : Codec RegValue where
  encode value := .object
    [("root", encode value.root),
     ("key", encode value.key),
     ("name", encode value.name),
     ("value", encode value.value),
     ("type", encode value.kind),
     ("key_action", encode value.keyAction),
     ("force_create_on_install", encode value.forceCreateOnInstall),
     ("force_delete_on_uninstall", encode value.forceDeleteOnUninstall),
     ("win64", encode value.win64),
     ("feature", encode value.feature),
     ("condition", encode value.condition),
     ("attributes", encode value.attributes)]
  decodeVia? route v := do
    let members ← v.fields?
      ["root", "key", "name", "value", "type", "key_action", "force_create_on_install",
       "force_delete_on_uninstall", "win64", "feature", "condition", "attributes"]
    return {
      root := ← required route members "root"
      key := ← required route members "key"
      name := ← orDefault route members "name" ""
      value := ← orDefault route members "value" ""
      kind := ← orDefault route members "type" .string
      keyAction := ← optional route members "key_action"
      forceCreateOnInstall := ← orDefault route members "force_create_on_install" false
      forceDeleteOnUninstall := ← orDefault route members "force_delete_on_uninstall" false
      win64 := ← orDefault route members "win64" false
      feature := ← optional route members "feature"
      condition := ← optional route members "condition"
      attributes := ← orDefault route members "attributes" .empty }

instance : Codec EnvVar where
  encode var := .object
    [("name", encode var.name),
     ("value", encode var.value),
     ("id", encode var.id),
     ("part", encode var.part),
     ("action", encode var.action),
     ("permanent", encode var.permanent),
     ("system", encode var.system),
     ("feature", encode var.feature),
     ("condition", encode var.condition),
     ("attributes", encode var.attributes)]
  decodeVia? route v := do
    let members ← v.fields?
      ["name", "value", "id", "part", "action", "permanent", "system", "feature", "condition",
       "attributes"]
    return {
      name := ← required route members "name"
      value := ← orDefault route members "value" ""
      id := ← optional route members "id"
      part := ← optional route members "part"
      action := ← orDefault route members "action" .set
      permanent := ← orDefault route members "permanent" false
      system := ← orDefault route members "system" true
      feature := ← optional route members "feature"
      condition := ← optional route members "condition"
      attributes := ← orDefault route members "attributes" .empty }

/-! ## Users, databases and certificates -/

instance : Codec User where
  encode user := .object
    [("name", encode user.name),
     ("id", encode user.id),
     ("domain", encode user.domain),
     ("password", encode user.password),
     ("create_user", encode user.createUser),
     ("update_if_exists", encode user.updateIfExists),
     ("remove_on_uninstall", encode user.removeOnUninstall),
     ("fail_if_exists", encode user.failIfExists),
     ("password_never_expires", encode user.passwordNeverExpires),
     ("can_not_change_password", encode user.canNotChangePassword),
     ("feature", encode user.feature),
     ("attributes", encode user.attributes)]
  decodeVia? route v := do
    let members ← v.fields?
      ["name", "id", "domain", "password", "create_user", "update_if_exists", "remove_on_uninstall",
       "fail_if_exists", "password_never_expires", "can_not_change_password", "feature",
       "attributes"]
    return {
      name := ← required route members "name"
      id := ← optional route members "id"
      domain := ← optional route members "domain"
      password := ← optional route members "password"
      createUser := ← optional route members "create_user"
      updateIfExists := ← optional route members "update_if_exists"
      removeOnUninstall := ← optional route members "remove_on_uninstall"
      failIfExists := ← optional route members "fail_if_exists"
      passwordNeverExpires := ← optional route members "password_never_expires"
      canNotChangePassword := ← optional route members "can_not_change_password"
      feature := ← optional route members "feature"
      attributes := ← orDefault route members "attributes" .empty }

namespace SqlExecution

def encodeMembers (execution : SqlExecution) : List (Key × Value) :=
  [("execute_on_install", encode execution.onInstall),
   ("execute_on_reinstall", encode execution.onReinstall),
   ("execute_on_uninstall", encode execution.onUninstall),
   ("continue_on_error", encode execution.continueOnError),
   ("sequence", encode execution.sequence)]

def decodeMembers? (route : Route) (members : List (String × Value)) : Option SqlExecution := do
  return {
    onInstall := ← orDefault route members "execute_on_install" false
    onReinstall := ← orDefault route members "execute_on_reinstall" false
    onUninstall := ← orDefault route members "execute_on_uninstall" false
    continueOnError := ← orDefault route members "continue_on_error" false
    sequence := ← optional route members "sequence" }

end SqlExecution

instance : Codec SqlString where
  encode statement := .object <|
    ("sql", encode statement.sql) :: ("id", encode statement.id) ::
    ("feature", encode statement.feature) :: statement.execution.encodeMembers
  decodeVia? route v := do
    let members ← v.fields?
      ["sql", "id", "execute_on_install", "execute_on_reinstall", "execute_on_uninstall",
       "continue_on_error", "sequence", "feature"]
    return {
      sql := ← required route members "sql"
      id := ← optional route members "id"
      execution := ← SqlExecution.decodeMembers? route members
      feature := ← optional route members "feature" }

instance : Codec SqlScript where
  encode script := .object <|
    ("binary_key", encode script.binaryKey) :: ("id", encode script.id) ::
    ("feature", encode script.feature) :: script.execution.encodeMembers
  decodeVia? route v := do
    let members ← v.fields?
      ["binary_key", "id", "execute_on_install", "execute_on_reinstall", "execute_on_uninstall",
       "continue_on_error", "sequence", "feature"]
    return {
      binaryKey := ← required route members "binary_key"
      id := ← optional route members "id"
      execution := ← SqlExecution.decodeMembers? route members
      feature := ← optional route members "feature" }

instance : Codec SqlDatabase where
  encode db := .object
    [("database", encode db.database),
     ("server", encode db.server),
     ("id", encode db.id),
     ("instance", encode db.instanceName),
     ("user", encode db.user),
     ("create_on_install", encode db.createOnInstall),
     ("create_on_reinstall", encode db.createOnReinstall),
     ("create_on_uninstall", encode db.createOnUninstall),
     ("drop_on_install", encode db.dropOnInstall),
     ("drop_on_reinstall", encode db.dropOnReinstall),
     ("drop_on_uninstall", encode db.dropOnUninstall),
     ("confirm_overwrite", encode db.confirmOverwrite),
     ("continue_on_error", encode db.continueOnError),
     ("strings", encode db.strings),
     ("scripts", encode db.scripts),
     ("feature", encode db.feature)]
  decodeVia? route v := do
    let members ← v.fields?
      ["database", "server", "id", "instance", "user", "create_on_install", "create_on_reinstall",
       "create_on_uninstall", "drop_on_install", "drop_on_reinstall", "drop_on_uninstall",
       "confirm_overwrite", "continue_on_error", "strings", "scripts", "feature"]
    return {
      database := ← required route members "database"
      server := ← required route members "server"
      id := ← optional route members "id"
      instanceName := ← optional route members "instance"
      user := ← optional route members "user"
      createOnInstall := ← optional route members "create_on_install"
      createOnReinstall := ← optional route members "create_on_reinstall"
      createOnUninstall := ← optional route members "create_on_uninstall"
      dropOnInstall := ← optional route members "drop_on_install"
      dropOnReinstall := ← optional route members "drop_on_reinstall"
      dropOnUninstall := ← optional route members "drop_on_uninstall"
      confirmOverwrite := ← optional route members "confirm_overwrite"
      continueOnError := ← optional route members "continue_on_error"
      strings := ← orDefault route members "strings" []
      scripts := ← orDefault route members "scripts" []
      feature := ← optional route members "feature" }

instance : Codec Certificate where
  encode certificate := .object
    [("name", encode certificate.name),
     ("id", encode certificate.id),
     ("store_location", encode certificate.storeLocation),
     ("store_name", encode certificate.storeName),
     ("binary_key", encode certificate.binaryKey),
     ("certificate_path", encode certificate.certificatePath),
     ("pfx_password", encode certificate.pfxPassword),
     ("request", encode certificate.request),
     ("overwrite", encode certificate.overwrite),
     ("feature", encode certificate.feature),
     ("attributes", encode certificate.attributes)]
  decodeVia? route v := do
    let members ← v.fields?
      ["name", "id", "store_location", "store_name", "binary_key", "certificate_path",
       "pfx_password", "request", "overwrite", "feature", "attributes"]
    return {
      name := ← required route members "name"
      id := ← optional route members "id"
      storeLocation := ← required route members "store_location"
      storeName := ← required route members "store_name"
      binaryKey := ← optional route members "binary_key"
      certificatePath := ← optional route members "certificate_path"
      pfxPassword := ← optional route members "pfx_password"
      request := ← orDefault route members "request" false
      overwrite := ← orDefault route members "overwrite" false
      feature := ← optional route members "feature"
      attributes := ← orDefault route members "attributes" .empty }

/-! ## Properties, binaries and launch conditions -/

instance : Codec RegistrySearch where
  encode search := .object
    [("root", encode search.root),
     ("key", encode search.key),
     ("entry_name", encode search.entryName)]
  decodeVia? route v := do
    let members ← v.fields? ["root", "key", "entry_name"]
    return {
      root := ← required route members "root"
      key := ← required route members "key"
      entryName := ← orDefault route members "entry_name" "" }

instance : Codec Property where
  encode property := .object
    [("name", encode property.name),
     ("value", encode property.value),
     ("registry", encode property.registry),
     ("ref", encode property.isRef),
     ("attributes", encode property.attributes)]
  decodeVia? route v := do
    let members ← v.fields? ["name", "value", "registry", "ref", "attributes"]
    return {
      name := ← required route members "name"
      value := ← orDefault route members "value" ""
      registry := ← optional route members "registry"
      isRef := ← orDefault route members "ref" false
      attributes := ← orDefault route members "attributes" .empty }

instance : Codec Binary where
  encode binary := .object
    [("name", encode binary.name),
     ("id", encode binary.id),
     ("managed", encode binary.managed),
     ("attributes", encode binary.attributes)]
  decodeVia? route v := do
    let members ← v.fields? ["name", "id", "managed", "attributes"]
    return {
      name := ← required route members "name"
      id := ← optional route members "id"
      managed := ← orDefault route members "managed" false
      attributes := ← orDefault route members "attributes" .empty }

instance : Codec LaunchCondition where
  encode condition := .object
    [("condition", encode condition.condition),
     ("message", encode condition.message),
     ("attributes", encode condition.attributes)]
  decodeVia? route v := do
    let members ← v.fields? ["condition", "message", "attributes"]
    return {
      condition := ← required route members "condition"
      message := ← required route members "message"
      attributes := ← orDefault route members "attributes" .empty }

end Installer
