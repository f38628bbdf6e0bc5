import Installer.Proofs.Component.Emission
import Installer.Proofs.Component.Setup
import Installer.Proofs.Directory.Housed
import Installer.Proofs.Markup.Sound
import Installer.Proofs.Product.AttributeNames
import Installer.Proofs.Product.Lasting

/-! # Components and directories that are well-formed

The tree of directories and all components in it are sound if the attribute names that the project
gives for what directories hold are names of XML.
-/

/-! ## Components that are well-formed

Components and all that is in them are sound if the attribute names that the project gives for them
are names of XML.
-/

namespace Installer

open Markup (AreNames Element Focus Node)
open Markup.Element
open Emit

variable {c : Compilation}

/-! ## What every component may hold -/

theorem Markup.Element.Nest.withFlags {e : Element} {flags : List (String × Option Bool)}
    (nest : Nest e) (names : AreNames (flags.map Prod.fst)) : Nest (e.withFlags flags) := by
  induction flags generalizing e with
  | nil => exact nest
  | cons flag rest ih =>
    rw [List.map_cons, Markup.areNames_cons] at names
    exact ih (nest_attr?.mpr ⟨nest, fun _ => names.1⟩) names.2

@[simp] theorem nest_component (id : String) : Nest (c.component id) := by
  simp +decide [Compilation.component]

theorem sound_condition {condition : Condition} (names : AreNames condition.attributes.names) :
    Sound condition.element := by
  have own : Sound (({ name := "Condition" : Element }).addCData condition.text) := by
    simp +decide [addCData, addNodes]
  exact sound_withAttrs.mpr ⟨own, names⟩

theorem sound_conditions {condition : Option Condition}
    (names : AreNames (Condition.attributeNames condition)) :
    ∀ x ∈ (condition.map Condition.element).toList, Sound x := by
  cases condition with
  | none => exact nofun
  | some condition =>
    exact List.forall_mem_singleton.mpr
      (sound_condition (by simpa [Condition.attributeNames] using names))

/-! ## Files and directories -/

theorem sound_permission {permission : Permission} (names : AreNames permission.attributeNames) :
    Sound permission.element := by
  rw [Permission.attributeNames, Markup.areNames_append] at names
  have rights : (permission.rights.map fun right => (right, "yes")).map Prod.fst =
      permission.rights := by simp [Function.comp_def]
  have user : Sound ((({ name := "util:PermissionEx" : Element }).attr "User" permission.user).attr?
      "Domain" permission.domain) := by simp +decide
  rw [Permission.element, sound_withAttrs, sound_withAttrs, rights]
  exact ⟨⟨user, names.1⟩, names.2⟩

theorem sound_association (fileId : String) (a : FileAssociation) : Sound (a.element fileId) := by
  cases icon : a.icon <;> cases advertise : a.advertise <;>
    simp +decide [FileAssociation.element, icon, advertise]

theorem sound_service (service : ServiceInstaller) :
    ∀ x ∈ [service.installElement, service.controlElement], Sound x := by
  simp +decide [ServiceInstaller.installElement, ServiceInstaller.controlElement]

theorem sound_fileShortcut (dirs : List Dir) (dirId fileId : String) (file : File)
    {shortcut : Shortcut} (names : AreNames shortcut.attributes.names) :
    Sound (shortcut.elementFor dirs dirId fileId file) := by
  have own := names
  rw [Attributes.names] at own
  simp +decide [Shortcut.elementFor, own]

theorem sound_shortcut (dirId : String) {shortcut : Shortcut}
    (names : AreNames shortcut.attributeNames) : Sound (shortcut.component c dirId) := by
  rw [Shortcut.attributeNames, Markup.areNames_append] at names
  have own := names.2
  rw [Attributes.names] at own
  have conditions := sound_conditions names.1
  rw [Shortcut.component, sound_add, nest_addAll]
  exact ⟨⟨nest_component _, conditions⟩, by simp +decide [own]⟩

theorem nest_file (dirId : String) {file : File} (names : AreNames file.attributeNames) :
    Nest (file.element c dirId) := by
  simp only [File.attributeNames, Markup.areNames_append, Markup.areNames_flatMap] at names
  obtain ⟨⟨⟨-, own⟩, shortcuts⟩, permissions⟩ := names
  have assembly : AreNames (file.assemblyAttrs.map Prod.fst) := by
    rw [File.assemblyAttrs]
    split <;> simp +decide
  rw [File.element, nest_addAll, nest_addAll, nest_withAttrs, nest_withAttrs, List.forall_mem_map,
    List.forall_mem_map]
  exact ⟨⟨⟨⟨by simp +decide, own⟩, assembly⟩,
    fun shortcut mem => sound_fileShortcut _ _ _ _ (shortcuts shortcut mem)⟩,
    fun permission mem => sound_permission (permissions permission mem)⟩

theorem sound_file (dirId : String) {file : File} (names : AreNames file.attributeNames) :
    Sound (file.component c dirId) := by
  have element := nest_file (c := c) dirId names
  simp only [File.attributeNames, Markup.areNames_append] at names
  have conditions := sound_conditions names.1.1.1
  refine Nest.sound ?_
  rw [File.component, nest_addAll, nest_add, nest_addAll, List.forall_mem_append,
    List.forall_mem_flatMap, List.forall_mem_map]
  exact ⟨⟨⟨nest_component _, conditions⟩, element.sound⟩,
    fun service _ => sound_service service, fun a _ => sound_association _ a⟩

theorem sound_mergeModule {module : MergeModule} (names : AreNames module.attributes.names) :
    Sound (module.element c) := by
  rw [Attributes.names] at names
  simp +decide [MergeModule.element, names]

theorem sound_permissionComponent {permission : Permission}
    (names : AreNames permission.attributeNames) : Sound (permission.component c) := by
  simp +decide [Permission.component, sound_permission names]

theorem sound_folder (id : String) : Sound (DirBody.folderComponent c id) := by
  simp +decide [DirBody.folderComponent]

/-! ## Elements of entities -/

theorem sound_value {value : RegValue} (names : AreNames value.attributes.names) :
    Sound (value.keyElement.add value.valueElement) := by
  have key : Nest value.keyElement := by simp +decide [RegValue.keyElement]
  have line : ∀ text, Sound (({ name := "MultiStringValue" : Element }).addText text) := fun text =>
    by simp +decide [addText, addNodes]
  have content : Nest value.valueElement := by
    rw [RegValue.valueElement]
    split
    next =>
      rw [nest_addAll, nest_withAttrs, List.forall_mem_map]
      exact ⟨⟨by simp +decide, names⟩, fun _ _ => line _⟩
    next =>
      rw [nest_attr, nest_withAttrs]
      exact ⟨⟨by simp +decide, names⟩, by decide⟩
  exact sound_add.mpr ⟨key, content.sound⟩

theorem sound_registry (id : String) {value : RegValue} (names : AreNames value.attributeNames) :
    Sound (value.component c id) := by
  rw [RegValue.attributeNames, Markup.areNames_append] at names
  have start :
      Nest (if value.win64 then (c.component id).attr "Win64" "yes" else c.component id) := by
    split <;> simp +decide
  rw [RegValue.component, sound_add, nest_addAll]
  exact ⟨⟨start, sound_conditions names.1⟩, sound_value names.2⟩

theorem sound_variable (id : String) {var : EnvVar} (names : AreNames var.attributes.names) :
    Sound (var.element id) := by
  rw [EnvVar.element, sound_withAttrs]
  exact ⟨by simp +decide, names⟩

theorem sound_user (id : String) {user : User} (names : AreNames user.attributes.names) :
    Sound (user.element id) := by
  rw [User.element, sound_withAttrs]
  have named : Nest ((({ name := "util:User",
                         attrs := [("Id", id), ("Name", user.name)] : Element }).attr?
      "Domain" user.domain).attr? "Password" user.password) := by simp +decide
  exact ⟨(named.withFlags (by simp +decide [User.flags])).sound, names⟩

theorem names_execution (execution : SqlExecution) : AreNames (execution.attrs.map Prod.fst) :=
  fun name mem => (by decide : ∀ word ∈ SqlExecution.words, Markup.Xml.isName word.toList = true)
    name (execution.name_attrs name mem)

theorem sound_sqlString (id : String) (dbId : Option String) (sql : SqlString) :
    Sound (sql.element id dbId) := by
  rw [SqlString.element, sound_withAttrs]
  exact ⟨by simp +decide, names_execution _⟩

theorem sound_sqlScript (id : String) (dbId : Option String) (script : SqlScript) :
    Sound (script.element id dbId) := by
  rw [SqlScript.element, sound_withAttrs]
  exact ⟨by simp +decide, names_execution _⟩

theorem nest_database (id : String) (db : SqlDatabase) : Nest (db.element id) := by
  rw [SqlDatabase.element]
  exact Nest.withFlags (by simp +decide) (by simp +decide [SqlDatabase.flags])

theorem sound_databaseParts (db : SqlDatabase) (dbId : String) (reference : Option String) :
    ∀ x ∈ db.parts dbId reference, Sound x := by
  rw [SqlDatabase.parts, List.forall_mem_append]
  constructor
  · intro x mem
    obtain ⟨n, _, rfl⟩ := List.mem_mapIdx.mp mem
    exact sound_sqlString _ _ _
  · intro x mem
    obtain ⟨n, _, rfl⟩ := List.mem_mapIdx.mp mem
    exact sound_sqlScript _ _ _

theorem sound_certificate (id : String) {cert : Certificate}
    (names : AreNames cert.attributes.names) : Sound (cert.element id) := by
  rw [Certificate.element, sound_withAttrs]
  exact ⟨by simp +decide, names⟩

/-- All that is made for the project's entities is sound. -/
theorem Compilation.establishes_sound (names : c.project.NamesAttributes) :
    c.Establishes Sound Sound where
  around id _ sound := sound_add.mpr ⟨nest_component id, sound⟩
  values value mem id := sound_registry id (names.values value mem)
  vars var mem id varId := by
    have own := names.vars var mem
    rw [EnvVar.attributeNames, Markup.areNames_append] at own
    exact sound_add.mpr ⟨nest_addAll.mpr ⟨nest_component id, sound_conditions own.1⟩,
      sound_variable varId own.2⟩
  users user mem id := sound_user id (names.users user mem)
  databases db _ id := (nest_database id db).sound
  installed db _ id := (nest_addAll.mpr ⟨nest_database id db, sound_databaseParts db id none⟩).sound
  strings _ _ sql id dbId := sound_sqlString id dbId sql
  scripts _ _ script id dbId := sound_sqlScript id dbId script
  certificates cert mem id := sound_certificate id (names.certificates cert mem)

/-! ## Directories that are well-formed

The tree of directories is sound if the attribute names that the project gives for what directories
hold are names of XML.
-/

namespace Markup.Element

/-! ## Changes of sound elements -/

theorem Fit.holdsElements {e : Element} (fit : Fit e) (other : e.name ∉ wordyNames) :
    e.HoldsElements := by
  cases fit.children with
  | inl nested => exact nested
  | inr plain => exact absurd plain.1 other

theorem Sound.nest {e : Element} (sound : Sound e) (other : e.name ∉ wordyNames) : Nest e :=
  ⟨sound, sound.here.holdsElements other⟩

/-- A child element may take the place of another. -/
theorem holdsElements_replace {name : String} {attrs : List (String × String)}
    {front back : List (Node Element)} {old : Element} (new : Element)
    (nested : HoldsElements ⟨name, attrs, front ++ .element old :: back⟩) :
    HoldsElements ⟨name, attrs, front ++ .element new :: back⟩ := by
  simp only [HoldsElements, List.forall_mem_append, List.forall_mem_cons] at nested ⊢
  exact ⟨nested.1, rfl, nested.2.2⟩

theorem lasting_fit : Lasting Fit where
  replace := by
    intro name attrs front back old new fit
    refine ⟨fit.named, fit.attrs, fit.distinct, .inl ?_⟩
    cases fit.children with
    | inl nested => exact holdsElements_replace new nested
    | inr plain => cases plain.2 (.element old) (by simp)
  add := by
    intro e child fit growing
    have nested := fit.holdsElements
      ((by decide : ∀ name ∈ growingNames, name ∉ wordyNames) _ growing)
    have added : (e.addAll [child]).HoldsElements := holdsElements_addAll.mpr nested
    exact ⟨fit.named, fit.attrs, fit.distinct, .inl added⟩
  select := by
    intro e keep fit
    refine ⟨fit.named, fit.attrs, fit.distinct, ?_⟩
    exact fit.children.imp (fun nested node mem => nested node (List.mem_filter.mp mem).1)
      fun plain => ⟨plain.1, fun node mem => plain.2 node (List.mem_filter.mp mem).1⟩

theorem Nest.put {focus : Focus Element} {whole new : Element} (old : Nest whole)
    (place : focus.IsPlace whole) (below : Nest new) : Nest (focus.put new) where
  sound := lasting_fit.everywhere_put place old.sound below.sound
  nested := by
    cases place with
    | whole _ => exact below.nested
    | child name attrs front back _ => exact holdsElements_replace _ old.nested

theorem Nest.node {focus : Focus Element} {whole : Element} (old : Nest whole)
    (place : focus.IsPlace whole) (directory : focus.node.name = "Directory") : Nest focus.node :=
  Sound.nest (place.everywhere_node old.sound) (directory ▸ by decide)

end Markup.Element

/-! ## The tree -/

namespace Dir

theorem sound_contents {dir : Dir} (names : AreNames dir.toDirBody.attributeNames) (e : Element) :
    ∀ x ∈ dir.contents c e, Sound x := by
  simp only [DirBody.attributeNames, Markup.areNames_append, Markup.areNames_flatMap] at names
  obtain ⟨⟨⟨files, shortcuts⟩, modules⟩, permissions⟩ := names
  have modules : ∀ x ∈ dir.mergeModules.map (MergeModule.element c), Sound x :=
    List.forall_mem_map.mpr fun module mem => sound_mergeModule (modules module mem)
  rw [contents]
  split
  next =>
    rw [DirBody.emptyContents, List.forall_mem_append]
    refine ⟨?_, modules⟩
    split <;> simp [sound_folder]
  next =>
    simp only [DirBody.contents, List.forall_mem_append, List.forall_mem_map]
    refine ⟨⟨⟨⟨?_, fun file mem => sound_file _ (files file mem)⟩,
      fun shortcut mem => sound_shortcut _ (shortcuts shortcut mem)⟩,
      List.forall_mem_map.mp modules⟩,
      fun permission mem => sound_permissionComponent (permissions permission mem)⟩
    split <;> simp [sound_folder]

theorem nest_placeIn (dir : Dir) {parent : Element} (old : Nest parent) :
    Nest (dir.placeIn parent).node ∧ ∀ e : Element, Nest e → Nest ((dir.placeIn parent).put e) := by
  -- the directory is put where there is one with its id, or else behind the other children
  rcases focusChildOr_cases parent (hasNameAndId "Directory" dir.finalId) dir.element with
    ⟨place, found⟩ | missing
  · exact ⟨old.node place (hasNameAndId_eq_true.mp found).1, fun e new => old.put place new⟩
  · rw [placeIn, missing]
    exact ⟨by simp +decide [element], fun e new => nest_add.mpr ⟨old, new.sound⟩⟩

mutual

theorem nest_place : ∀ {dir : Dir} {parent : Element},
    AreNames (readAll DirBody.attributeNames [dir]) → Nest parent → Nest (dir.place c parent)
  | ⟨body, dirs⟩, parent, names, old => by
    rw [readAll_singleton, Markup.areNames_append] at names
    obtain ⟨node, put⟩ := nest_placeIn ⟨body, dirs⟩ old
    have filled : Nest (filled c ⟨body, dirs⟩ parent) :=
      nest_addAll.mpr ⟨node, sound_contents names.1 _⟩
    rw [place]
    exact put _ (nest_placeAll names.2 filled)

theorem nest_placeAll : ∀ {dirs : List Dir} {parent : Element},
    AreNames (readAll DirBody.attributeNames dirs) → Nest parent → Nest (placeAll c dirs parent)
  | [], parent, _, old => by
    rw [placeAll]
    exact old
  | dir :: rest, parent, names, old => by
    rw [← List.singleton_append, readAll_append, Markup.areNames_append] at names
    rw [placeAll]
    exact nest_placeAll names.2 (nest_place names.1 old)

end

/-- Directories that are made for a location bring no names in. -/
theorem nest_placeLocation {root : Element} (old : Nest root) (directory : root.name = "Directory")
    (location : String) (feature : Option String) :
    Nest (placeLocation c root location feature) := by
  rcases exists_placeLocation (c := c) root location feature with
    same | ⟨focus, names, start, place, inside, chained⟩
  · rwa [same]
  · have nothing : AreNames (readAll DirBody.attributeNames [chain names start feature]) := by
      rw [readAll_chain fun _ _ _ => rfl]
      exact Markup.areNames_nil
    rw [chained]
    exact old.put place (nest_place nothing (old.node place (inside directory)))

theorem nest_placeLocations {root : Element} (old : Nest root) (directory : root.name = "Directory")
    (locations : List (String × Option String)) : Nest (placeLocations c root locations) := by
  induction locations generalizing root with
  | nil => exact old
  | cons entry rest ih =>
    have named := name_eq_of_tag (tag_placeLocation (c := c) root entry.1 entry.2)
    exact ih (nest_placeLocation old directory _ _) (named.trans directory)

end Dir

theorem Compilation.nest_tree (names : c.project.NamesAttributes) : Nest c.tree := by
  have empty : Nest emptyRoot := by simp +decide [emptyRoot]
  have declared : c.declaredTree.name = "Directory" :=
    name_eq_of_tag (Dir.tag_placeAll c.project.dirs emptyRoot)
  exact Dir.nest_placeLocations (Dir.nest_placeAll names.dirs empty) declared _

end Installer
