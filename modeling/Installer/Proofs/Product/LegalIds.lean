import Installer.Proofs.Directory.LegalIds
import Installer.Proofs.Product.ActionIds
import Installer.Proofs.Product.EntityIds

/-! # Legal ids in the document

When a project declares no ids, those in its document are all made of names.  They are legal just if
no name, and no location for which a directory is made, is hidden.  Hidden names of directories do
no harm, and an id that is assigned to the installation directory has to be legal itself.
-/

namespace Installer

open Markup (Element)
open Markup.Element
open Emit
open Folder (IsLegal IsPlain IsHidden)

/-- The names of the elements with ids that are made of names. -/
def identifiedWords : List String :=
  ["File", "Component", "Directory", "Merge", "Feature", "CustomAction", "Binary",
    Family.environment.word, Family.user.word, Family.database.word, Family.certificate.word]

/-- Every one of these ids is there and legal. -/
def AreLegal (ids : List (Option String)) : Prop :=
  ∀ id? ∈ ids, ∃ id, id? = some id ∧ IsLegal id

theorem areLegal_map_some {ids : List String} :
    AreLegal (ids.map some) ↔ ∀ id ∈ ids, IsLegal id := by
  simp [AreLegal]

theorem areLegal_of_perm {ids : List (Option String)} {texts : List String}
    (perm : ids.Perm (texts.map some)) : AreLegal ids ↔ ∀ id ∈ texts, IsLegal id := by
  rw [← areLegal_map_some, AreLegal, AreLegal]
  simp only [perm.mem_iff]

/-- All elements of a document whose ids are made of names have legal ids. -/
def Markup.Element.HasLegalIds (document : Element) : Prop :=
  ∀ word ∈ identifiedWords, AreLegal (document.idsNamed word)

namespace Project

/-! ## Names that ids are made of -/

def allNamings (project : Project) : List Naming :=
  Dir.readAll (fun body => body.files.map File.naming) project.dirs ++
    Dir.readAll (fun body => body.shortcuts.map Shortcut.naming) project.dirs ++
      project.actions.map CustomAction.naming ++ project.binaries.map Binary.naming ++
        project.namings .mergeModule ++ project.namings .envVar ++ project.namings .user ++
          project.namings .database ++ project.namings .certificate

/-- No name that an id in the document is made of is hidden, and if the installation directory is
assigned an id, that one is legal. -/
structure HidesNothing (project : Project) (options : Options) (document : Element) : Prop where
  entities : ∀ naming ∈ project.allNamings, ¬ IsHidden naming.name
  features : ∀ feature ∈ project.allFeatures,
    some feature.effectiveId ∈ document.idsNamed "Feature" → ¬ IsHidden feature.name
  locations : ∀ location ∈ Dir.elsewhere (project.prepare options).project.dirs,
    ¬ IsHidden location
  installDir : (project.prepare options).installDir.isSome = true →
    IsLegal options.installDirDefaultId

structure KeepsIds (project : Project) : Prop extends project.KeepsEntityIds where
  files : ∀ file ∈ Dir.allFiles project.dirs, file.KeepsId
  actions : ∀ action ∈ project.actions, action.KeepsId

variable {project : Project} {options : Options} {output : Output} {c : Compilation}
  {document : Element}

theorem WithoutIds.undeclared (without : project.WithoutIds) :
    ∀ naming ∈ project.allNamings, naming.declared = none := by
  have given := without
  simp only [WithoutIds, givenIds, List.forall_mem_append, List.forall_mem_map] at given
  obtain ⟨⟨⟨⟨⟨⟨-, actions⟩, binaries, -⟩, envVars⟩, users⟩, databases⟩, certificates⟩ := given
  simp only [allNamings, namings, List.forall_mem_append, List.forall_mem_map]
  refine ⟨⟨⟨⟨⟨⟨⟨⟨?_, ?_⟩, actions⟩, binaries⟩, ?_⟩, envVars⟩, users⟩, ?_⟩, certificates⟩
  · refine without.held _ fun body id mem => ?_
    rw [List.map_map] at mem
    simp only [DirBody.givenIds, List.mem_cons, List.mem_append]
    exact .inr (.inl (.inl (.inl mem)))
  · refine without.held _ fun body id mem => ?_
    rw [List.map_map] at mem
    simp only [DirBody.givenIds, DirBody.allShortcuts, List.map_append, List.mem_cons,
      List.mem_append]
    exact .inr (.inl (.inl (.inr (.inr mem))))
  · refine without.held DirBody.mergeModules fun body id mem => ?_
    simp only [DirBody.givenIds, List.mem_cons, List.mem_append]
    exact .inr (.inr mem)
  · exact fun db mem => databases _ (List.mem_flatMap.mpr ⟨db, mem, List.mem_cons_self ..⟩)

/-! ## The tree -/

theorem areLegal_files {ledger : Ledger} (made : c.Made document ledger)
    (keeps : ∀ file ∈ Dir.allFiles c.project.dirs, file.KeepsId) :
    AreLegal (document.idsNamed "File") ↔ ∀ id ∈ c.fileIds, IsLegal id := by
  refine areLegal_of_perm ?_
  rw [idsNamed_of_name_ne (made.name_document ▸ by decide), Compilation.fileIds, List.map_map]
  exact made.fileIds.trans (.of_eq (Dir.heldFileIds_fileComponents c keeps))

theorem areLegal_components {ledger : Ledger} (made : c.Made document ledger) :
    AreLegal (document.idsNamed "Component") ↔
      ∀ booking ∈ c.bookings, IsLegal booking.componentId := by
  rw [← List.forall_mem_map (P := IsLegal)]
  refine areLegal_of_perm ?_
  rw [idsNamed_of_name_ne (made.name_document ▸ by decide), List.map_map]
  exact made.componentIds

/-- The ids of directories are those of the declared ones and of the parts of locations. -/
theorem areLegal_directories {ledger : Ledger} (made : c.Made document ledger) :
    AreLegal (document.idsNamed "Directory") ↔
      (∀ dir ∈ Dir.all c.project.dirs, IsLegal dir.finalId) ∧
        ∀ part ∈ Dir.undeclaredParts c.project.dirs,
          IsLegal (Folder.identifier (LogicalPath.ofComponents part)) := by
  obtain ⟨components, madeFor, ids⟩ := made.directoryIds
  have tidy : Tidy (c.root components) := (Compilation.extended_root madeFor).tidy
  rw [idsNamed_of_name_ne (made.name_document ▸ by decide), ids, AreLegal, List.forall_mem_cons,
    List.forall_mem_map]
  constructor
  · rintro ⟨-, places⟩
    have shown : ∀ id, (∃ path ∈ (c.root components).places, path.getLast? = some id) →
        IsLegal id := by
      rintro id ⟨path, mem, last⟩
      obtain ⟨id', same, legal⟩ := places path mem
      rw [last, Option.some.injEq] at same
      exact same ▸ legal
    refine ⟨fun dir mem => shown _ ?_, fun part mem => shown _ ?_⟩
    · obtain ⟨path, located⟩ := Dir.mem_all.mp mem
      exact (Compilation.exists_place_iff madeFor).mpr (.inl ⟨_, located, rfl⟩)
    · exact (Compilation.exists_place_iff madeFor).mpr (.inr ⟨part, mem, rfl⟩)
  · rintro ⟨dirs, parts⟩
    refine ⟨⟨Dir.rootId, rfl, by decide⟩, fun path mem => ?_⟩
    have last := List.getLast?_eq_some_getLast (tidy.mem_places.mp mem).1
    refine ⟨_, last, ?_⟩
    rcases (Compilation.exists_place_iff madeFor).mp ⟨path, mem, last⟩ with
      ⟨entry, located, same⟩ | ⟨part, isPart, same⟩
    · exact same ▸ dirs entry.2 (Dir.mem_all.mpr ⟨entry.1, located⟩)
    · exact same ▸ parts part isPart

/-- A part of a location begins as the location does. -/
theorem isLegal_parts_iff {dirs : List Dir} :
    (∀ part ∈ Dir.undeclaredParts dirs,
        IsLegal (Folder.identifier (LogicalPath.ofComponents part))) ↔
      ∀ location ∈ Dir.elsewhere dirs, ¬ IsHidden location := by
  simp only [Folder.isLegal_identifier_iff]
  constructor
  · rintro parts location mem hidden
    have named : LogicalPath.components location ≠ [] := fun empty => by
      obtain ⟨name, first, -⟩ := hidden
      simp [empty] at first
    have lt : Dir.declaredLength dirs location < _ := Dir.declaredLength_lt named
    have whole := Dir.mem_newParts.mpr ⟨_, lt, le_rfl, rfl⟩
    refine parts _ (List.mem_flatMap.mpr ⟨location, mem, whole⟩) ?_
    exact (Folder.isHidden_take (by omega)).mpr hidden
  · intro locations part mem
    obtain ⟨location, elsewhere, new⟩ := List.mem_flatMap.mp mem
    obtain ⟨m, above, -, rfl⟩ := Dir.mem_newParts.mp new
    rw [Folder.isHidden_take (by omega)]
    exact locations location elsewhere

/-- Declared directories have legal ids if the installation directory has. -/
theorem isLegal_finalId_iff (without : project.WithoutIds) (options : Options) :
    (∀ dir ∈ Dir.all (project.prepare options).project.dirs, IsLegal dir.finalId) ↔
      ((project.prepare options).installDir.isSome = true →
        IsLegal options.installDirDefaultId) := by
  constructor
  · intro dirs assigned
    have given : options.installDirDefaultId ∈ Dir.explicitIds (project.shapedDirs options) := by
      rw [(project.perm_explicitIds options).mem_iff, if_pos assigned]
      exact List.mem_append_left _ (List.mem_singleton_self _)
    obtain ⟨entry, located, same⟩ := project.exists_finalId options given
    exact same ▸ dirs entry.2 (Dir.mem_all.mpr ⟨entry.1, located⟩)
  · exact isLegal_finalId without

/-- Where directories have legal ids, those of components are spoiled by shortcuts alone. -/
theorem areLegal_components_iff (without : project.WithoutIds) {ledger : Ledger}
    (prepared : c.project = (project.prepare options).project) (made : c.Made document ledger)
    (dirs : ∀ dir ∈ Dir.all c.project.dirs, IsLegal dir.finalId)
    (locations : ∀ location ∈ Dir.elsewhere c.project.dirs, ¬ IsHidden location)
    {files shortcuts : List Naming}
    (ofFiles : List.Forall₂ Naming.Takes files c.fileIds)
    (ofShortcuts : List.Forall₂ Naming.Takes shortcuts c.shortcutIds)
    (undeclared : ∀ naming ∈ files ++ shortcuts, naming.declared = none) :
    AreLegal (document.idsNamed "Component") ↔ ∀ naming ∈ shortcuts, ¬ IsHidden naming.name := by
  rw [List.forall_mem_append] at undeclared
  have placeholders := Compilation.isLegal_placeholderIds dirs locations
  have folders : ∀ id ∈ c.folderIds, IsPlain id :=
    List.forall_mem_map.mpr fun dir mem => (dirs dir (List.mem_filter.mp mem).1).plain
  have permissions : ∀ id ∈ c.permissionIds, IsPlain id := by
    rw [Compilation.permissionIds, prepared]
    exact isPlain_permissionIds without options
  have prefixed : ∀ id ∈ c.prefixedIds, IsPlain id := by
    rw [Compilation.prefixedIds, List.forall_mem_append, List.forall_mem_append]
    exact ⟨⟨folders, Naming.forall_isPlain ofFiles undeclared.1⟩, permissions⟩
  rw [areLegal_components made, Compilation.isLegal_componentIds placeholders prefixed,
    Naming.forall_isLegal_iff ofShortcuts undeclared.2]

/-! ## The package -/

theorem areLegal_entities (keeps : project.KeepsEntityIds)
    (compiled : project.compile options = .ok output) (kind : EntityKind)
    (undeclared : ∀ naming ∈ project.namings kind, naming.declared = none) :
    AreLegal (output.document.idsNamed kind.word) ↔
      ∀ naming ∈ project.namings kind, ¬ IsHidden naming.name := by
  rw [areLegal_of_perm (perm_entityIds keeps compiled kind)]
  exact Naming.forall_isLegal_iff (IdPool.forall₂_idsFor ..) undeclared

theorem forall₂_actionIds (project : Project) :
    List.Forall₂ Naming.Takes (project.actions.map CustomAction.naming) project.actionIds := by
  rw [actionIds, CustomAction.mainIds, CustomAction.idsFrom_eq]
  exact IdPool.forall₂_idsFor ..

/-- The ids of actions stand inside those of their helpers, where they do no harm. -/
theorem areLegal_actions (compiled : project.compile options = .ok output)
    (keeps : ∀ action ∈ project.actions, action.KeepsId)
    (undeclared : ∀ naming ∈ project.actions.map CustomAction.naming, naming.declared = none) :
    AreLegal (output.document.idsNamed "CustomAction") ↔ ∀ id ∈ project.actionIds, IsLegal id := by
  have plain := Naming.forall_isPlain project.forall₂_actionIds undeclared
  rw [areLegal_of_perm (perm_actionIds compiled keeps), List.forall_mem_append,
    List.forall_mem_append, and_iff_left]
  constructor
  · intro helper mem
    obtain ⟨⟨action, id⟩, among, found⟩ := List.mem_filterMap.mp mem
    have own := plain id (List.of_mem_zip among).2
    have start : IsLegal ("Set_" ++ id) := (by decide : IsLegal "Set_").append own
    rcases CustomAction.helperId?_cases found with rfl | rfl
    · exact start.append (by decide)
    · exact start.append (by decide)
  · intro id mem
    obtain ⟨message, -, rfl⟩ := Option.map_eq_some_iff.mp (Option.mem_toList.mp mem)
    decide

/-- A binary that an action brings along has an id that goes on from that of the action. -/
theorem areLegal_binaries (compiled : project.compile options = .ok output)
    (keeps : project.KeepsEntityIds) (actions : ∀ id ∈ project.actionIds, IsLegal id) :
    AreLegal (output.document.idsNamed "Binary") ↔
      ∀ id ∈ IdPool.idsFor .binary (project.binaries.map Binary.naming) {}, IsLegal id := by
  obtain ⟨c, ledger, start, given, -⟩ := made_of_compile compiled
  obtain ⟨package, pieces, single, areGiven, has⟩ :=
    Compilation.hasChildren_of_emitDocument rfl given
  rw [Compilation.idsNamed_definitions rfl given single
      (Compilation.leaves_of_hasChildren areGiven has) (by decide),
    Compilation.binaries_of_hasChildren areGiven has, List.map_append,
    binaryIds keeps start areGiven, AreLegal, List.forall_mem_append, and_iff_right]
  · exact areLegal_map_some
  · refine List.forall_mem_map.mpr fun e mem => ?_
    obtain ⟨defined, named⟩ := List.mem_filter.mp mem
    obtain ⟨owner, own, key⟩ :=
      (definesActions start areGiven).binaries e defined (by simpa using named)
    exact ⟨_, key, (actions owner own).append (by decide)⟩

/-- What references to merge modules bring along is declared. -/
theorem forall_mem_foldl_shownWith (p : Option String → Prop)
    (declared : ∀ feature ∈ project.allFeatures, p feature.element.id?)
    (features : List (Option String)) {shown : List (Option String)}
    (before : ∀ id? ∈ shown, p id?) :
    ∀ id? ∈ features.foldl project.shownWith shown, p id? := by
  induction features generalizing shown with
  | nil => exact before
  | cons feature rest ih =>
    refine ih ?_
    rw [shownWith]
    split
    next => exact before
    next found same =>
      split
      next => exact before
      next =>
        obtain ⟨name, -, isFeature⟩ := Option.bind_eq_some_iff.mp same
        exact List.forall_mem_append.mpr
          ⟨before, List.forall_mem_singleton.mpr (declared found (mem_of_feature? isFeature).1)⟩

/-- Every feature that is shown is one of the project. -/
theorem exists_feature_of_mem (compiled : project.compile options = .ok output)
    (kept : project.KeepsFeatureIds) : ∀ id? ∈ output.document.idsNamed "Feature",
      ∃ feature ∈ project.allFeatures, id? = some feature.effectiveId := by
  obtain ⟨c, ledger, start, given, -⟩ := made_of_compile compiled
  have same : c.project.allFeatures = project.allFeatures := by
    rw [(Compilation.project_of_ofProject start).1, project.allFeatures_prepare options]
  have declared : ∀ feature ∈ c.project.allFeatures, ∃ found ∈ project.allFeatures,
      feature.element.id? = some found.effectiveId := by
    rw [same]
    exact fun feature mem => ⟨feature, mem, id?_element (kept feature mem)⟩
  cases chosen : c.options.outputType with
  | msm =>
    rw [Compilation.featureIds_of_msm chosen rfl given]
    exact nofun
  | msi =>
    obtain ⟨added, ids⟩ := Compilation.perm_featureIds_of_msi chosen rfl rfl given
    intro id? mem
    refine forall_mem_foldl_shownWith (fun id? => ∃ feature ∈ project.allFeatures,
      id? = some feature.effectiveId) declared added (fun id? own => ?_) id? (ids.mem_iff.mp mem)
    obtain ⟨feature, among, rfl⟩ := List.mem_map.mp own
    exact declared feature (List.mem_filter.mp among).1

theorem areLegal_features (without : project.WithoutIds) (kept : project.KeepsFeatureIds)
    (compiled : project.compile options = .ok output) :
    AreLegal (output.document.idsNamed "Feature") ↔ ∀ feature ∈ project.allFeatures,
      some feature.effectiveId ∈ output.document.idsNamed "Feature" → ¬ IsHidden feature.name := by
  have made : ∀ feature ∈ project.allFeatures,
      (IsLegal feature.effectiveId ↔ ¬ IsHidden feature.name) := by
    intro feature mem
    have all : feature ∈ project.defaultFeature :: project.features :=
      List.cons_subset_cons _ (List.filter_subset_self _) mem
    have listed : feature.id ∈ project.givenIds := by
      simp only [givenIds, List.mem_append]
      exact .inl (.inl (.inl (.inl (.inl (.inl (.inr (List.mem_map_of_mem all)))))))
    rw [Feature.effectiveId, without _ listed]
    exact Folder.isLegal_identifier_iff
  constructor
  · intro legal feature mem isShown
    obtain ⟨id, same, own⟩ := legal _ isShown
    rw [← made feature mem, Option.some.inj same]
    exact own
  · intro seen id? isShown
    obtain ⟨feature, mem, rfl⟩ := exists_feature_of_mem compiled kept id? isShown
    exact ⟨_, rfl, (made feature mem).mpr (seen feature mem isShown)⟩

/-! ## Compiled projects -/

/-- The document of a project without declared ids has none but legal ids just if no name that they
are made of is hidden. -/
theorem hasLegalIds_iff_of_compile (compiled : project.compile options = .ok output)
    (without : project.WithoutIds) (keeps : project.KeepsIds) :
    output.document.HasLegalIds ↔ project.HidesNothing options output.document := by
  obtain ⟨c, ledger, start, -, made⟩ := made_of_compile compiled
  have prepared := (Compilation.project_of_ofProject start).1
  have undeclared := without.undeclared
  simp only [allNamings, List.forall_mem_append] at undeclared
  obtain ⟨⟨⟨⟨⟨⟨⟨⟨files, shortcuts⟩, actions⟩, binaries⟩, modules⟩, envVars⟩, users⟩, databases⟩,
    certificates⟩ := undeclared
  -- nothing has a declared id, so the ids of a kind are legal just if its names make legal ones
  have ofFiles := prepared ▸ project.forall₂_fileIds options
  have ofShortcuts := prepared ▸ project.forall₂_shortcutIds options
  have fileIds := (areLegal_files made (prepared ▸ keepsId_prepare options keeps.files)).trans
    (Naming.forall_isLegal_iff ofFiles files)
  have directoryIds : AreLegal (output.document.idsNamed "Directory") ↔ _ ∧ _ :=
    (areLegal_directories made).trans
      (and_congr (prepared ▸ isLegal_finalId_iff without options) isLegal_parts_iff)
  have featureIds := areLegal_features without keeps.features compiled
  have actionIds := areLegal_actions compiled keeps.actions actions
  have ofActions := Naming.forall_isLegal_iff project.forall₂_actionIds actions
  have ofBinaries := Naming.forall_isLegal_iff
    (IdPool.forall₂_idsFor .binary (project.binaries.map Binary.naming) {}) binaries
  have entityIds := areLegal_entities keeps.toKeepsEntityIds compiled
  have componentIds := fun dirs locations => areLegal_components_iff without prepared made dirs
    locations ofFiles ofShortcuts (List.forall_mem_append.mpr ⟨files, shortcuts⟩)
  simp only [HasLegalIds, identifiedWords, List.forall_mem_cons]
  constructor
  · rintro ⟨file, component, directory, module, feature, action, binary, envVar, user, database,
      certificate, -⟩
    obtain ⟨installDir, locations⟩ := directoryIds.mp directory
    have actionsLegal := actionIds.mp action
    have dirs := (areLegal_directories made).mp directory
    refine ⟨?_, featureIds.mp feature, prepared ▸ locations, installDir⟩
    simp only [allNamings, List.forall_mem_append]
    exact ⟨⟨⟨⟨⟨⟨⟨⟨fileIds.mp file, (componentIds dirs.1 locations).mp component⟩,
      ofActions.mp actionsLegal⟩,
      ofBinaries.mp ((areLegal_binaries compiled keeps.toKeepsEntityIds actionsLegal).mp binary)⟩,
      (entityIds .mergeModule modules).mp module⟩, (entityIds .envVar envVars).mp envVar⟩,
      (entityIds .user users).mp user⟩, (entityIds .database databases).mp database⟩,
      (entityIds .certificate certificates).mp certificate⟩
  · rintro ⟨entities, features, locations, installDir⟩
    simp only [allNamings, List.forall_mem_append] at entities
    obtain ⟨⟨⟨⟨⟨⟨⟨⟨files', shortcuts'⟩, actions'⟩, binaries'⟩, modules'⟩, envVars'⟩, users'⟩,
      databases'⟩, certificates'⟩ := entities
    -- the binaries that actions bring have ids made of those of the actions
    have actionsLegal := ofActions.mpr actions'
    have directory := directoryIds.mpr ⟨installDir, prepared ▸ locations⟩
    have dirs := (areLegal_directories made).mp directory
    exact ⟨fileIds.mpr files', (componentIds dirs.1 (prepared ▸ locations)).mpr shortcuts',
      directory, (entityIds .mergeModule modules).mpr modules', featureIds.mpr features,
      actionIds.mpr actionsLegal, (areLegal_binaries compiled keeps.toKeepsEntityIds
        actionsLegal).mpr (ofBinaries.mpr binaries'),
      (entityIds .envVar envVars).mpr envVars', (entityIds .user users).mpr users',
      (entityIds .database databases).mpr databases',
      (entityIds .certificate certificates).mpr certificates', List.forall_mem_nil _⟩

/-- A project with one file and with a variable whose name begins with a digit. -/
def configured (name : String) : Project where
  name := "App"
  dirs := [⟨{ name := "%ProgramFiles%\\App", files := [{ name }] }, []⟩]
  envVars := [{ name := "7ZIP HOME", value := "[INSTALLDIR]" }]

theorem keepsIds_configured (name : String) : (configured name).KeepsIds := by
  have files : Dir.allFiles (configured name).dirs = [{ name }] := rfl
  have noModules : Dir.modulesIn (configured name).dirs = [] := rfl
  refine ⟨⟨by simp [noModules], ?_, ?_, ?_, ?_, ?_⟩,
    by simp [files, File.KeepsId, Attributes.empty],
    ?_⟩ <;>
  simp [KeepsFeatureIds, allFeatures, configured, Attributes.empty]

theorem hasLegalIds_configured :
    ∃ output, (configured "app.ini").compile {} = .ok output ∧ output.document.HasLegalIds := by
  obtain ⟨output, compiled⟩ := exists_output
    (by decide +kernel : ((configured "app.ini").compile {}).isOk = true)
  refine ⟨output, compiled, (hasLegalIds_iff_of_compile compiled (by decide +kernel)
    (keepsIds_configured _)).mpr ⟨by decide +kernel, ?_, by decide +kernel, by decide +kernel⟩⟩
  have features : ∀ feature ∈ (configured "app.ini").allFeatures, ¬ IsHidden feature.name := by
    decide +kernel
  exact fun feature mem _ => features feature mem

/-- The id of a file whose name begins with a full stop does so too. -/
theorem not_hasLegalIds_configured :
    ∃ output, (configured ".htaccess").compile {} = .ok output ∧
      (configured ".htaccess").WithoutIds ∧ (configured ".htaccess").KeepsIds ∧
        ¬ output.document.HasLegalIds := by
  obtain ⟨output, compiled, ids⟩ := exists_output_of_any
    (by decide +kernel : ((configured ".htaccess").compile {}).toOption.any (fun output =>
      output.document.idsNamed "File" == [some ".htaccess"]) = true)
  refine ⟨output, compiled, by decide +kernel, keepsIds_configured _, fun legal => ?_⟩
  have files := legal "File" (by simp [identifiedWords])
  rw [beq_iff_eq.mp ids] at files
  obtain ⟨id, same, isLegal⟩ := files _ (List.mem_singleton_self _)
  rw [← Option.some.inj same] at isLegal
  exact absurd isLegal (by decide)

end Project

end Installer
