import Installer.Manifest.Action
import Installer.Manifest.Directory
import Installer.Manifest.Standalone
import Installer.Project.Basic

/-! # The written form of projects -/

namespace Installer

open Json (Key Value)

/-! ## Features and upgrades -/

instance : Codec FeatureCondition where
  encode condition := .object
    [("level", encode condition.level), ("text", encode condition.text)]
  decodeVia? route v := do
    let members ← v.fields? ["level", "text"]
    return { level := ← required route members "level", text := ← required route members "text" }

instance : Codec Feature where
  encode feature := .object
    [("name", encode feature.name),
     ("id", encode feature.id),
     ("description", encode feature.description),
     ("allow_change", encode feature.allowChange),
     ("is_enabled", encode feature.isEnabled),
     ("parent", encode feature.parent),
     ("configurable_dir", encode feature.configurableDir),
     ("condition", encode feature.condition),
     ("attributes", encode feature.attributes)]
  decodeVia? route v := do
    let members ← v.fields?
      ["name", "id", "description", "allow_change", "is_enabled", "parent", "configurable_dir",
       "condition", "attributes"]
    return {
      name := ← required route members "name"
      id := ← optional route members "id"
      description := ← orDefault route members "description" ""
      allowChange := ← orDefault route members "allow_change" true
      isEnabled := ← orDefault route members "is_enabled" true
      parent := ← optional route members "parent"
      configurableDir := ← optional route members "configurable_dir"
      condition := ← optional route members "condition"
      attributes := ← orDefault route members "attributes" .empty }

instance : Codec VersionRange where
  encode range := .object
    [("minimum", encode range.minimum),
     ("maximum", encode range.maximum),
     ("include_minimum", encode range.includeMinimum),
     ("include_maximum", encode range.includeMaximum),
     ("migrate_features", encode range.migrateFeatures)]
  decodeVia? route v := do
    let members ← v.fields?
      ["minimum", "maximum", "include_minimum", "include_maximum", "migrate_features"]
    return {
      minimum := ← required route members "minimum"
      maximum := ← optional route members "maximum"
      includeMinimum := ← orDefault route members "include_minimum" false
      includeMaximum := ← orDefault route members "include_maximum" false
      migrateFeatures := ← optional route members "migrate_features" }

instance : Codec UpgradeStrategy where
  encode strategy := .object
    [("upgrade_versions", encode strategy.upgradeVersions),
     ("prevent_downgrading_versions", encode strategy.preventDowngradingVersions),
     ("newer_product_installed_error_message",
       encode strategy.newerProductInstalledErrorMessage),
     ("remove_existing_product_after", encode strategy.removeExistingProductAfter)]
  decodeVia? route v := do
    let members ← v.fields?
      ["upgrade_versions", "prevent_downgrading_versions", "newer_product_installed_error_message",
       "remove_existing_product_after"]
    return {
      upgradeVersions := ← optional route members "upgrade_versions"
      preventDowngradingVersions := ← optional route members "prevent_downgrading_versions"
      newerProductInstalledErrorMessage :=
        ← optional route members "newer_product_installed_error_message"
      removeExistingProductAfter :=
        ← orDefault route members "remove_existing_product_after" Step.installInitialize }

/-! ## Projects -/

namespace Project

/-- The members that write what a project is called and made for. -/
def encodeIdentity (project : Project) : List (Key × Value) :=
  [("name", encode project.name),
   ("version", encode project.version),
   ("guid", encode project.guid),
   ("upgrade_code", encode project.upgradeCode),
   ("product_id", encode project.productId),
   ("language", encode project.language),
   ("codepage", encode project.codepage),
   ("platform", encode project.platform),
   ("install_scope", encode project.installScope),
   ("description", encode project.description),
   ("manufacturer", encode project.manufacturer)]

/-- The members that write what a project installs. -/
def encodeContent (project : Project) : List (Key × Value) :=
  [("default_feature", encode project.defaultFeature),
   ("features", encode project.features),
   ("dirs", encode project.dirs),
   ("actions", encode project.actions),
   ("reg_values", encode project.regValues),
   ("env_vars", encode project.envVars),
   ("properties", encode project.properties),
   ("users", encode project.users),
   ("sql_databases", encode project.sqlDatabases),
   ("certificates", encode project.certificates),
   ("binaries", encode project.binaries),
   ("launch_conditions", encode project.launchConditions)]

/-- The members that write how a project is packaged and shown. -/
def encodePackaging (project : Project) : List (Key × Value) :=
  [("ui", encode project.ui),
   ("embedded_ui", encode project.embeddedUi),
   ("banner_image", encode project.bannerImage),
   ("background_image", encode project.backgroundImage),
   ("licence_file", encode project.licenceFile),
   ("major_upgrade_strategy", encode project.upgradeStrategy),
   ("source_base_dir", encode project.sourceBaseDir),
   ("out_dir", encode project.outDir),
   ("out_file_name", encode project.outFileName),
   ("emit_consistent_package_id", encode project.emitConsistentPackageId),
   ("attributes", encode project.attributes),
   ("package_attributes", encode project.packageAttributes),
   ("media_attributes", encode project.mediaAttributes)]

end Project

instance : Codec Project where
  encode project := .object
    (project.encodeIdentity ++ project.encodeContent ++ project.encodePackaging)
  decodeVia? route v := do
    let members ← v.fields?
      ["name", "version", "guid", "upgrade_code", "product_id", "language", "codepage", "platform",
       "install_scope", "description", "manufacturer", "default_feature", "features", "dirs",
       "actions", "reg_values", "env_vars", "properties", "users", "sql_databases", "certificates",
       "binaries", "launch_conditions", "ui", "embedded_ui", "banner_image", "background_image",
       "licence_file", "major_upgrade_strategy", "source_base_dir", "out_dir", "out_file_name",
       "emit_consistent_package_id", "attributes", "package_attributes", "media_attributes"]
    return {
      name := ← required route members "name"
      version := ← orDefault route members "version" "1.0.0.0"
      guid := ← optional route members "guid"
      upgradeCode := ← optional route members "upgrade_code"
      productId := ← optional route members "product_id"
      language := ← orDefault route members "language" "en-US"
      codepage := ← optional route members "codepage"
      platform := ← orDefault route members "platform" .x86
      installScope := ← orDefault route members "install_scope" .perMachine
      description := ← optional route members "description"
      manufacturer := ← optional route members "manufacturer"
      defaultFeature := ← orDefault route members "default_feature" { name := "Complete" }
      features := ← orDefault route members "features" []
      dirs := ← orDefault route members "dirs" []
      actions := ← orDefault route members "actions" []
      regValues := ← orDefault route members "reg_values" []
      envVars := ← orDefault route members "env_vars" []
      properties := ← orDefault route members "properties" []
      users := ← orDefault route members "users" []
      sqlDatabases := ← orDefault route members "sql_databases" []
      certificates := ← orDefault route members "certificates" []
      binaries := ← orDefault route members "binaries" []
      launchConditions := ← orDefault route members "launch_conditions" []
      ui := ← orDefault route members "ui" .minimal
      embeddedUi := ← optional route members "embedded_ui"
      bannerImage := ← optional route members "banner_image"
      backgroundImage := ← optional route members "background_image"
      licenceFile := ← optional route members "licence_file"
      upgradeStrategy := ← optional route members "major_upgrade_strategy"
      sourceBaseDir := ← orDefault route members "source_base_dir" ""
      outDir := ← orDefault route members "out_dir" "."
      outFileName := ← optional route members "out_file_name"
      emitConsistentPackageId := ← orDefault route members "emit_consistent_package_id" false
      attributes := ← orDefault route members "attributes" .empty
      packageAttributes := ← orDefault route members "package_attributes" .empty
      mediaAttributes := ← orDefault route members "media_attributes" .empty }

end Installer
