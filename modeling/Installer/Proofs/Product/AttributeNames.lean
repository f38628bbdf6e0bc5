import Installer.Proofs.Directory.Generated
import Installer.Proofs.Markup.Sound

/-! # The attribute names that a project gives

Most attributes have names that are fixed.  A project brings in names of its own, those of extra
attributes and of the rights that permissions grant, and preparing a project leaves them alone.
-/

namespace Installer

open Markup (AreNames)

/-! ## Names of entities -/

def Attributes.names (attributes : Attributes) : List String :=
  attributes.pairs.map Prod.fst

def Condition.attributeNames (condition : Option Condition) : List String :=
  condition.toList.flatMap fun condition => condition.attributes.names

/-- Every right that is granted has an attribute. -/
def Permission.attributeNames (permission : Permission) : List String :=
  permission.rights ++ permission.attributes.names

/-- The names for a shortcut of a directory. A shortcut of a file is written without condition. -/
def Shortcut.attributeNames (shortcut : Shortcut) : List String :=
  Condition.attributeNames shortcut.condition ++ shortcut.attributes.names

def File.attributeNames (file : File) : List String :=
  Condition.attributeNames file.condition ++ file.attributes.names ++
    file.shortcuts.flatMap (fun shortcut => shortcut.attributes.names) ++
      file.permissions.flatMap Permission.attributeNames

def RegValue.attributeNames (value : RegValue) : List String :=
  Condition.attributeNames value.condition ++ value.attributes.names

def EnvVar.attributeNames (var : EnvVar) : List String :=
  Condition.attributeNames var.condition ++ var.attributes.names

/-! ## Names of directories -/

namespace DirBody

def attributeNames (body : DirBody) : List String :=
  body.files.flatMap File.attributeNames ++ body.shortcuts.flatMap Shortcut.attributeNames ++
    body.mergeModules.flatMap (fun module => module.attributes.names) ++
      body.permissions.flatMap Permission.attributeNames

theorem isContent_attributeNames : IsContent attributeNames where
  name _ _ := rfl
  id _ _ := rfl
  widen body := by
    simp only [attributeNames, widen, List.flatMap_map, File.attributeNames]
    rfl
  nothing _ := rfl

theorem attributeNames_withoutIds (body : DirBody) :
    body.withoutIds.attributeNames = body.attributeNames := by
  simp only [attributeNames, withoutIds, List.flatMap_map, File.attributeNames, File.withoutIds]
  rfl

end DirBody

/-- Directories in a chain hold nothing. -/
theorem Dir.readAll_chain {α : Type} {read : DirBody → List α}
    (nothing : ∀ name id feature, read { name, id, feature } = []) (names : List String)
    (start : Nat) (feature : Option String) : readAll read [chain names start feature] = [] := by
  rw [chain]
  induction List.range' (start + 1) (names.length - 1 - start) with
  | nil => simp [ofNames, nothing, readAll]
  | cons n rest ih => rw [List.foldr_cons, ofNames, readAll_singleton, nothing, ih, List.nil_append]

/-! ## Names of projects -/

namespace Project

def attributeNames (project : Project) : List String :=
  project.attributes.names ++ project.packageAttributes.names ++ project.mediaAttributes.names ++
    Dir.readAll DirBody.attributeNames project.dirs ++
      project.actions.flatMap (fun action => action.attributes.names) ++
        project.regValues.flatMap RegValue.attributeNames ++
          project.envVars.flatMap EnvVar.attributeNames ++
            project.users.flatMap (fun user => user.attributes.names) ++
              project.certificates.flatMap (fun cert => cert.attributes.names) ++
                project.properties.flatMap (fun property => property.attributes.names) ++
                  project.binaries.flatMap (fun binary => binary.attributes.names) ++
                    project.launchConditions.flatMap (fun item => item.attributes.names) ++
                      project.allFeatures.flatMap (fun feature => feature.attributes.names)

theorem attributeNames_prepare (project : Project) (options : Options) :
    (project.prepare options).project.attributeNames = project.attributeNames := by
  have dirs := project.readAll_prepare options DirBody.isContent_attributeNames
    DirBody.attributeNames_withoutIds
  obtain ⟨_, actions, prepared, same⟩ := project.exists_prepare options
  have kept : actions.flatMap (fun action => action.attributes.names) =
      project.actions.flatMap fun action => action.attributes.names := by
    rcases same with rfl | rfl
    · rfl
    · rw [List.flatMap_map]
      rfl
  simp only [attributeNames, dirs]
  simp only [prepared, kept, allFeatures]

/-- The attribute names that the project gives are names of XML, kind by kind. -/
structure NamesAttributes (project : Project) : Prop where
  product : AreNames project.attributes.names
  package : AreNames project.packageAttributes.names
  media : AreNames project.mediaAttributes.names
  dirs : AreNames (Dir.readAll DirBody.attributeNames project.dirs)
  actions : ∀ action ∈ project.actions, AreNames action.attributes.names
  values : ∀ value ∈ project.regValues, AreNames value.attributeNames
  vars : ∀ var ∈ project.envVars, AreNames var.attributeNames
  users : ∀ user ∈ project.users, AreNames user.attributes.names
  certificates : ∀ cert ∈ project.certificates, AreNames cert.attributes.names
  properties : ∀ property ∈ project.properties, AreNames property.attributes.names
  binaries : ∀ binary ∈ project.binaries, AreNames binary.attributes.names
  conditions : ∀ item ∈ project.launchConditions, AreNames item.attributes.names
  features : ∀ feature ∈ project.allFeatures, AreNames feature.attributes.names

theorem namesAttributes_iff {project : Project} :
    project.NamesAttributes ↔ AreNames project.attributeNames := by
  simp only [attributeNames, Markup.areNames_append, Markup.areNames_flatMap]
  constructor
  · rintro ⟨product, package, media, dirs, actions, values, vars, users, certificates, properties,
      binaries, conditions, features⟩
    exact ⟨⟨⟨⟨⟨⟨⟨⟨⟨⟨⟨⟨product, package⟩, media⟩, dirs⟩, actions⟩, values⟩, vars⟩, users⟩,
      certificates⟩, properties⟩, binaries⟩, conditions⟩, features⟩
  · rintro ⟨⟨⟨⟨⟨⟨⟨⟨⟨⟨⟨⟨product, package⟩, media⟩, dirs⟩, actions⟩, values⟩, vars⟩, users⟩,
      certificates⟩, properties⟩, binaries⟩, conditions⟩, features⟩
    exact ⟨product, package, media, dirs, actions, values, vars, users, certificates, properties,
      binaries, conditions, features⟩

end Project

end Installer
