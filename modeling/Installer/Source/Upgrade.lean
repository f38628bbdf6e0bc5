import Installer.Source.Action

/-! # Upgrades in the source document

A package can remove older versions of its product and refuse to be installed over newer ones.
-/

namespace Installer

open Markup (Element)

namespace VersionRange

/-- The version with the version being built in place of what stands for it. -/
def expand (thisVersionText version : String) : String :=
  String.ofList (Text.replace thisVersion.toList thisVersionText.toList version.toList)

def lowerAttrs (version : String) (range : VersionRange) : List (String × String) :=
  [("Minimum", expand version range.minimum), ("IncludeMinimum", yesNo range.includeMinimum)]

/-- Whether the choice of features is taken over. -/
def migrationAttrs (range : VersionRange) : List (String × String) :=
  (range.migrateFeatures.map fun b => ("MigrateFeatures", yesNo b)).toList

def upgradeElement (version : String) (range : VersionRange) : Element :=
  { name := "UpgradeVersion"
    attrs :=
      range.lowerAttrs version ++
        (range.maximum.map fun text => ("Maximum", expand version text)).toList ++
        [("IncludeMaximum", yesNo range.includeMaximum), ("Property", "UPGRADEFOUND")] ++
        range.migrationAttrs }

/-- The property that is set when a newer version is found. -/
def newerFound : String :=
  "NEWPRODUCTFOUND"

def blockingElement (version : String) (range : VersionRange) : Element :=
  { name := "UpgradeVersion"
    attrs :=
      range.lowerAttrs version ++ [("OnlyDetect", "yes"), ("Property", newerFound)] ++
        range.migrationAttrs }

end VersionRange

namespace UpgradeStrategy

/-- The id of the action that refuses the installation. -/
def guardId : String :=
  "PreventDowngrading"

def element (c : Compilation) (strategy : UpgradeStrategy) : Element :=
  let version := c.project.version
  ({ name := "Upgrade", attrs := [("Id", toString c.upgradeCode)] : Element }).addAll
    ((strategy.upgradeVersions.map (·.upgradeElement version)).toList ++
      (strategy.preventDowngradingVersions.map (·.blockingElement version)).toList)

def guardElements (message : String) : ActionElements :=
  let entry : Element :=
    { name := "Custom"
      attrs := [("Action", guardId), ("After", Step.findRelatedProducts)]
      children := [.text VersionRange.newerFound] }
  { definitions := [{ name := "CustomAction", attrs := [("Id", guardId), ("Error", message)] }]
    entries := [(.installExecute, entry), (.installUI, entry)] }

def removalEntry (strategy : UpgradeStrategy) : Sequence × Element :=
  (.installExecute,
    { name := "RemoveExistingProducts"
      attrs := [("After", strategy.removeExistingProductAfter)] })

/-- The elements of a strategy. Nothing is scheduled unless newer versions block the installation.
-/
def elements (c : Compilation) (strategy : UpgradeStrategy) : ActionElements :=
  let guarded : ActionElements :=
    if strategy.preventDowngradingVersions.isNone then {}
    else
      (match strategy.newerProductInstalledErrorMessage with
        | some message => guardElements message
        | none => {}) ++ { entries := [strategy.removalEntry] }
  { definitions := [strategy.element c] } ++ guarded

end UpgradeStrategy

end Installer
