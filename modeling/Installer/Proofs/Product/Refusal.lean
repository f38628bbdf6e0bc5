import Installer.Proofs.Directory.Declared
import Installer.Proofs.Product.ModuleOrder

/-! # When a compilation is refused

A project asks for the features that its files and other entities name.  Where directories and the
shortcuts of files name declared features only and every merge module names one, a compilation is
refused for five reasons and no others.
-/

namespace Installer

open Markup (Element)

/-! ## What a project asks for -/

namespace Project

/-- The project asks for the feature: something names it that cannot be installed without it. -/
inductive Asks (project : Project) : Option String → Prop where
  | file {dir file} (holder : dir ∈ Dir.all project.dirs) (held : file ∈ dir.files) :
      Asks project file.feature
  | shortcut {dir shortcut} (holder : dir ∈ Dir.all project.dirs)
      (held : shortcut ∈ dir.shortcuts) : Asks project shortcut.feature
  | permission {dir permission} (holder : dir ∈ Dir.all project.dirs)
      (held : permission ∈ dir.permissions) : Asks project permission.feature
  | mergeModule {dir module} (holder : dir ∈ Dir.all project.dirs)
      (held : module ∈ dir.mergeModules) : Asks project module.feature
  | regValue {value} (among : value ∈ project.regValues) : Asks project value.feature
  | envVar {var} (among : var ∈ project.envVars) : Asks project var.feature
  | certificate {cert} (among : cert ∈ project.certificates) : Asks project cert.feature
  | user {user} (among : user ∈ project.users) (installed : user.isInstalled = true) :
      Asks project user.feature
  | database {db} (among : db ∈ project.sqlDatabases) (installed : db.isInstalled = true) :
      Asks project db.feature
  | sqlString {db sql} (among : db ∈ project.sqlDatabases) (referred : db.isInstalled = false)
      (held : sql ∈ db.strings) : Asks project sql.feature
  | sqlScript {db script} (among : db ∈ project.sqlDatabases) (referred : db.isInstalled = false)
      (held : script ∈ db.scripts) : Asks project script.feature

/-- The reasons for which a project is not compiled. -/
inductive IsRefused (options : Options) (project : Project) : Prop where
  | language (unknown : Culture.ofName? project.language = none)
  | feature {feature} (asked : project.Asks feature) (undeclared : ¬ project.Declares feature)
  | reference {property} (among : property ∈ project.properties) (isRef : property.isRef = true)
      (unnamed : property.name = "")
  | placement {action} (first : project.actions.head? = some action)
      (step : action.step = .previousAction) (unnumbered : action.sequenceNumber = none)
  | licence {path} (given : project.licenceFile = some path)
      (strict : options.allowNonRtfLicense = false)
      (other : ¬ ".rtf".toList <:+ path.toList.map Char.toLower)

end Project

/-! ## Bookings of standalone entities -/

section Standalone

variable {project : Project}

/-- Numbered entities ask for the same features as entities without a number. -/
theorem declaresAll_zipIdx {α : Type} {origin : α × Nat → Origin} {feature : α → Option String}
    {entities : List α} {start : Nat} :
    project.DeclaresAll
        ((entities.zipIdx start).map fun entry => ⟨origin entry, feature entry.1⟩) ↔
      ∀ x ∈ entities, project.Declares (feature x) := by
  rw [Project.declaresAll_map]
  conv_rhs => rw [← List.zipIdx_map_fst start entities, List.forall_mem_map]

theorem declaresAll_familyBookings {α : Type} {family : Family} {feature : α → Option String}
    {entities : List α} : project.DeclaresAll (family.bookings feature entities) ↔
      ∀ x ∈ entities, project.Declares (feature x) :=
  declaresAll_zipIdx

theorem User.declaresAll_bookings {count : Nat} {users : List User} :
    project.DeclaresAll (bookings count users) ↔
      ∀ user ∈ users, user.isInstalled = true → project.Declares user.feature := by
  induction users generalizing count with
  | nil => simp [bookings]
  | cons user rest ih =>
    rw [bookings, List.forall_mem_cons]
    split
    next installed => simp [installed, ih]
    next referred => simp [referred, ih]

namespace SqlDatabase

/-- What a database that is only referred to asks for. -/
theorem declaresAll_referredBookings {counts : Counts} {db : SqlDatabase} :
    project.DeclaresAll (db.referredBookings counts) ↔
      (∀ sql ∈ db.strings, project.Declares sql.feature) ∧
        ∀ script ∈ db.scripts, project.Declares script.feature := by
  rw [referredBookings, Project.declaresAll_append, declaresAll_zipIdx, declaresAll_zipIdx]

theorem declaresAll_bookings {counts : Counts} {dbs : List SqlDatabase} :
    project.DeclaresAll (bookings counts dbs) ↔ ∀ db ∈ dbs,
      (db.isInstalled = true → project.Declares db.feature) ∧
        (db.isInstalled = false → (∀ sql ∈ db.strings, project.Declares sql.feature) ∧
          ∀ script ∈ db.scripts, project.Declares script.feature) := by
  induction dbs generalizing counts with
  | nil => simp [bookings]
  | cons db rest ih =>
    rw [bookings, List.forall_mem_cons]
    split
    next installed => simp [installed, ih]
    next referred => simp [referred, ih, declaresAll_referredBookings]

end SqlDatabase

end Standalone

namespace Project

variable {project : Project} {options : Options}

theorem declaresAll_standaloneBookings : project.DeclaresAll project.standaloneBookings ↔
    (∀ value ∈ project.regValues, project.Declares value.feature) ∧
      (∀ var ∈ project.envVars, project.Declares var.feature) ∧
      (∀ user ∈ project.users, user.isInstalled = true → project.Declares user.feature) ∧
      (∀ db ∈ project.sqlDatabases, (db.isInstalled = true → project.Declares db.feature) ∧
        (db.isInstalled = false → (∀ sql ∈ db.strings, project.Declares sql.feature) ∧
          ∀ script ∈ db.scripts, project.Declares script.feature)) ∧
      ∀ cert ∈ project.certificates, project.Declares cert.feature := by
  simp only [standaloneBookings, declaresAll_append, declaresAll_familyBookings,
    User.declaresAll_bookings, SqlDatabase.declaresAll_bookings, and_assoc]

/-- Everything that the project asks for is declared, sorted by where it is asked for. -/
theorem declares_of_asks_iff :
    (∀ feature, project.Asks feature → project.Declares feature) ↔
      project.DeclaresEach (Dir.readAll DirBody.askedFeatures project.dirs) ∧
        project.DeclaresModules (Dir.modulesIn project.dirs) ∧
          project.DeclaresAll project.standaloneBookings := by
  simp only [declaresAll_standaloneBookings, DeclaresEach, DeclaresModules, Dir.modulesIn,
    Dir.readAll, List.forall_mem_flatMap, DirBody.askedFeatures, List.forall_mem_append,
    List.forall_mem_map]
  constructor
  · intro declared
    refine ⟨fun dir holder => ⟨⟨fun _ held => declared _ (.file holder held),
      fun _ held => declared _ (.shortcut holder held)⟩,
      fun _ held => declared _ (.permission holder held)⟩,
      fun dir holder _ held => declared _ (.mergeModule holder held),
      fun _ among => declared _ (.regValue among), fun _ among => declared _ (.envVar among),
      fun _ among installed => declared _ (.user among installed), fun db among =>
      ⟨fun installed => declared _ (.database among installed), fun referred =>
        ⟨fun _ held => declared _ (.sqlString among referred held),
          fun _ held => declared _ (.sqlScript among referred held)⟩⟩,
      fun _ among => declared _ (.certificate among)⟩
  · rintro ⟨held, modules, values, vars, users, databases, certificates⟩ feature asked
    cases asked with
    | file holder file => exact (held _ holder).1.1 _ file
    | shortcut holder shortcut => exact (held _ holder).1.2 _ shortcut
    | permission holder permission => exact (held _ holder).2 _ permission
    | mergeModule holder module => exact modules _ holder _ module
    | regValue among => exact values _ among
    | envVar among => exact vars _ among
    | certificate among => exact certificates _ among
    | user among installed => exact users _ among installed
    | database among installed => exact (databases _ among).1 installed
    | sqlString among referred sql => exact ((databases _ among).2 referred).1 _ sql
    | sqlScript among referred script => exact ((databases _ among).2 referred).2 _ script

/-! ## What a compilation needs of its project -/

theorem exists_ofProject_iff : (∃ c, Compilation.ofProject options project = .ok c) ↔
    Culture.ofName? project.language ≠ none := by
  rw [Compilation.ofProject, culture?]
  cases Culture.ofName? project.language <;> simp

theorem isOk_placement_none_iff {action : CustomAction} :
    (action.placement none).isOk = true ↔
      (action.step = .previousAction → action.sequenceNumber ≠ none) := by
  rw [CustomAction.placement]
  cases action.sequenceNumber <;> cases action.step <;>
    simp [Step.anchor?, Except.isOk, Except.toBool]

end Project

namespace Compilation

variable {c : Compilation} {project : Project} {options : Options}

theorem isRichText_iff {path : String} : isRichText path = true ↔
    ".rtf".toList <:+ path.toList.map Char.toLower := by
  rw [isRichText, List.isSuffixOf_iff_suffix]
  rfl

theorem isOk_variableElements_iff : c.variableElements.isOk = true ↔
    ∀ path ∈ c.project.licenceFile, c.options.allowNonRtfLicense = false →
      ".rtf".toList <:+ path.toList.map Char.toLower := by
  rw [variableElements]
  cases c.project.licenceFile with
  | none => simp [Except.isOk, Except.toBool]
  | some path =>
    simp only [Option.mem_def, Option.some.injEq, forall_eq', ← isRichText_iff]
    cases c.options.allowNonRtfLicense <;> cases isRichText path <;>
      simp [Except.isOk, Except.toBool]

/-! ## The needs of a prepared project -/

variable (start : ofProject options (project.prepare options).project = .ok c)
  (own : ∀ dir ∈ Dir.all project.dirs, project.Declares dir.feature)
  (links : ∀ file ∈ Dir.allFiles project.dirs, ∀ shortcut ∈ file.shortcuts,
    project.Declares shortcut.feature)

include start own links

/-- The preparation changes neither what directories hold nor standalone entities, so that the same
features are asked for. -/
theorem declaresAll_bookings_iff : c.project.DeclaresAll c.bookings ↔
    project.DeclaresEach (Dir.readAll DirBody.askedFeatures project.dirs) ∧
      project.DeclaresAll project.standaloneBookings := by
  obtain ⟨dirs, actions, same, -⟩ := project.exists_prepare options
  have prepared : c.project = { project with dirs, actions } :=
    (project_of_ofProject start).1.trans same
  have kept : ∀ {read : DirBody → List (Option String)}, DirBody.IsContent read →
      (∀ body : DirBody, read body.withoutIds = read body) →
        Dir.readAll read c.project.dirs = Dir.readAll read project.dirs := by
    intro read content blind
    rw [(project_of_ofProject start).1]
    exact project.readAll_prepare options content blind
  have declares : ∀ features, c.project.DeclaresEach features ↔ project.DeclaresEach features := by
    rw [prepared]
    exact fun _ => Iff.rfl
  have own' : ∀ dir ∈ Dir.all c.project.dirs, c.project.Declares dir.feature := by
    rw [← Project.declaresEach_ownFeatures, declares,
      kept DirBody.isContent_ownFeatures fun _ => rfl]
    exact Project.declaresEach_ownFeatures.mpr own
  have links' : c.project.DeclaresEach (Dir.readAll DirBody.linkFeatures c.project.dirs) := by
    rw [declares, kept DirBody.isContent_linkFeatures DirBody.linkFeatures_withoutIds]
    exact Project.declaresEach_linkFeatures.mpr links
  rw [bookings, Project.declaresAll_append, declaresAll_treeBookings own' links', declares,
    kept DirBody.isContent_askedFeatures DirBody.askedFeatures_withoutIds]
  refine and_congr_right fun _ => ?_
  rw [prepared]
  exact Iff.rfl

end Compilation

namespace Project

variable {project : Project} {options : Options} {c : Compilation}

/-- The first action may name other folders when the project is prepared, but it is placed as it
was. -/
theorem placed_iff
    (start : Compilation.ofProject options (project.prepare options).project = .ok c) :
    (∀ first ∈ c.project.actions.head?, (first.placement none).isOk = true) ↔
      ∀ first ∈ project.actions.head?, first.step = .previousAction →
        first.sequenceNumber ≠ none := by
  obtain ⟨dirs, actions, same, widened⟩ := project.exists_prepare options
  rw [(Compilation.project_of_ofProject start).1, same]
  simp only [isOk_placement_none_iff]
  rcases widened with rfl | rfl
  · exact Iff.rfl
  · cases project.actions <;> simp [CustomAction.widen]

theorem exists_start_iff :
    (∃ c, Compilation.ofProject options (project.prepare options).project = .ok c) ↔
      Culture.ofName? project.language ≠ none := by
  obtain ⟨dirs, actions, same, -⟩ := project.exists_prepare options
  rw [exists_ofProject_iff, same]

/-! ## Refusal -/

section

variable (own : ∀ dir ∈ Dir.all project.dirs, project.Declares dir.feature)
  (links : ∀ file ∈ Dir.allFiles project.dirs, ∀ shortcut ∈ file.shortcuts,
    project.Declares shortcut.feature)
include own links

/-- Each reason is one that a compilation does not get past. -/
theorem not_isRefused_of_isOk (compiled : (project.compile options).isOk = true) :
    ¬ project.IsRefused options := by
  obtain ⟨c, start, needs, modules'⟩ := isOk_compile.mp compiled
  intro refused
  obtain ⟨dirs, actions, same, -⟩ := project.exists_prepare options
  obtain ⟨prepared, given⟩ := Compilation.project_of_ofProject start
  rw [same] at prepared
  -- each reason contradicts one of the needs that were met
  cases refused with
  | language unknown => exact exists_start_iff.mp ⟨c, start⟩ unknown
  | feature asked undeclared =>
    obtain ⟨held, standalone⟩ :=
      (Compilation.declaresAll_bookings_iff start own links).mp needs.booked
    refine undeclared (declares_of_asks_iff.mpr ⟨held, ?_, standalone⟩ _ asked)
    exact List.forall_mem_map.mp ((needsModules_iff start _).mp modules').1
  | reference among isRef unnamed =>
    have named := needs.named _ (by rw [prepared]; exact among) isRef
    simp [unnamed] at named
  | placement first step unnumbered =>
    exact (placed_iff start).mp needs.placed _ first step unnumbered
  | licence path strict other =>
    refine other (Compilation.isOk_variableElements_iff.mp needs.licensed _ ?_ ?_)
    · rw [prepared]
      exact path
    · rw [given]
      exact strict

/-- Nothing else stops a compilation. -/
theorem isOk_compile_of_not_isRefused
    (modules : ∀ dir ∈ Dir.all project.dirs, ∀ module ∈ dir.mergeModules, module.feature ≠ none)
    (sound : ¬ project.IsRefused options) : (project.compile options).isOk = true := by
  rw [isOk_compile]
  obtain ⟨c, start⟩ : ∃ c, Compilation.ofProject options (project.prepare options).project =
      .ok c :=
    exists_start_iff.mpr fun unknown => sound (.language unknown)
  obtain ⟨dirs, actions, same, -⟩ := project.exists_prepare options
  obtain ⟨prepared, given⟩ := Compilation.project_of_ofProject start
  rw [same] at prepared
  obtain ⟨held, declared, standalone⟩ := declares_of_asks_iff.mp fun feature asked =>
    not_not.mp fun undeclared => sound (.feature asked undeclared)
  refine ⟨c, start, ⟨?_, ?_, ?_, ?_⟩, ?_⟩
  · exact (Compilation.declaresAll_bookings_iff start own links).mpr ⟨held, standalone⟩
  · intro property among isRef
    rw [prepared] at among
    rw [Bool.eq_false_iff, ne_eq, String.isEmpty_iff]
    exact fun unnamed => sound (.reference among isRef unnamed)
  · exact (placed_iff start).mpr fun first here step unnumbered =>
      sound (.placement here step unnumbered)
  · refine Compilation.isOk_variableElements_iff.mpr fun path here strict => ?_
    rw [prepared] at here
    rw [given] at strict
    exact not_not.mp fun other => sound (.licence here strict other)
  · refine (needsModules_iff start _).mpr ⟨List.forall_mem_map.mpr declared, ?_⟩
    -- no module looks for the default feature
    intro front back split
    have unnamed : none ∈ (Dir.modulesIn project.dirs).map MergeModule.feature := by
      rw [split]
      exact List.mem_append_right _ (List.mem_cons_self ..)
    obtain ⟨module, among, none_⟩ := List.mem_map.mp unnamed
    obtain ⟨dir, holder, here⟩ := List.mem_flatMap.mp among
    exact absurd none_ (modules dir holder module here)

theorem isOk_compile_iff_not_isRefused
    (modules : ∀ dir ∈ Dir.all project.dirs, ∀ module ∈ dir.mergeModules, module.feature ≠ none) :
    (project.compile options).isOk = true ↔ ¬ project.IsRefused options :=
  ⟨not_isRefused_of_isOk own links, isOk_compile_of_not_isRefused own links modules⟩

end

/-- Where directories and the shortcuts of files name declared features only and every merge module
names some feature, a compilation fails if and only if there is a reason to refuse it. -/
theorem exists_compile_eq_error_iff
    (own : ∀ dir ∈ Dir.all project.dirs, project.Declares dir.feature)
    (links : ∀ file ∈ Dir.allFiles project.dirs, ∀ shortcut ∈ file.shortcuts,
      project.Declares shortcut.feature)
    (modules : ∀ dir ∈ Dir.all project.dirs, ∀ module ∈ dir.mergeModules, module.feature ≠ none) :
    (∃ fault, project.compile options = .error fault) ↔ project.IsRefused options := by
  have criterion : (project.compile options).isOk = true ↔ ¬ project.IsRefused options :=
    isOk_compile_iff_not_isRefused own links modules
  cases compiled : project.compile options with
  | error fault =>
    have refused : project.IsRefused options := by
      rw [compiled] at criterion
      exact not_not.mp fun sound => by simpa [Except.isOk, Except.toBool] using criterion.mpr sound
    exact iff_of_true ⟨fault, rfl⟩ refused
  | ok output =>
    rw [compiled] at criterion
    refine iff_of_false ?_ (criterion.mp rfl)
    rintro ⟨_, equal⟩
    cases equal

/-- A directory with a merge module for a feature that is not among those of its project. -/
def misspeltDir : Dir where
  name := "%ProgramFiles%\\App"
  feature := some "Core"
  files := [{ name := "app.exe", shortcuts := [{ name := "App", feature := some "Core" }] }]
  mergeModules := [{ sourceFile := "runtime.msm", feature := some "Cor" }]

def misspelt : Project where
  name := "App"
  features := [{ name := "Core" }]
  dirs := [misspeltDir]

theorem exists_compile_misspelt_eq_error :
    (∃ fault, misspelt.compile {} = .error fault) ∧ misspelt.IsRefused {} := by
  have holder : Dir.all misspelt.dirs = [misspeltDir] := rfl
  have core : misspelt.Declares (some "Core") := by
    rintro name ⟨⟩
    decide
  have refused : misspelt.IsRefused {} := by
    have asked : misspelt.Asks (some "Cor") :=
      .mergeModule (holder ▸ List.mem_cons_self ..) (List.mem_cons_self ..)
    refine .feature asked fun declared => ?_
    have missing : (misspelt.feature? "Cor").isSome = false := by decide
    simpa [missing] using declared "Cor" rfl
  refine ⟨(exists_compile_eq_error_iff ?_ ?_ ?_).mpr refused, refused⟩
  · simpa [holder, misspeltDir] using core
  · simpa [Dir.allFiles, holder, misspeltDir] using core
  · simp [holder, misspeltDir]

end Project

end Installer
