import Installer.Proofs.Component.Setup
import Installer.Proofs.Directory.ModuleIds
import Installer.Proofs.Product.Home
import Installer.Proofs.Product.Supplies

/-! # Standalone entities in the document

Every registry value, variable and certificate, and every user and database that is installed, is
alone in a component, and so is every statement and script of a database that is not.  What is only
referred to is declared in the package itself.  There are no elements of entities beyond these.
-/

namespace Installer

open Markup (Element)
open Markup.Element
open Emit

/-! ## Lists sorted by keys -/

theorem flatMap_ite_eq {κ β : Type} [DecidableEq κ] {keys : List κ} {key : κ} (nodup : keys.Nodup)
    (mem : key ∈ keys) (found : List β) :
    keys.flatMap (fun other => if other = key then found else []) = found := by
  have misses : ∀ list : List κ, key ∉ list →
      list.flatMap (fun other => if other = key then found else []) = [] :=
    fun list missing => List.flatMap_eq_nil_iff.mpr fun other among =>
      if_neg (ne_of_mem_of_not_mem among missing)
  obtain ⟨front, back, rfl⟩ := List.append_of_mem mem
  obtain ⟨apart, -⟩ := List.nodup_cons.mp (List.nodup_middle.mp nodup)
  rw [List.mem_append, not_or] at apart
  rw [List.flatMap_append, List.flatMap_cons, misses _ apart.1, misses _ apart.2, if_pos rfl,
    List.nil_append, List.append_nil]

/-- What the members of a list give can be sorted by keys, if each member has one key or else gives
nothing and has none. -/
theorem perm_flatMap_of_keys {κ α β : Type} [DecidableEq κ] {keys : List κ} (nodup : keys.Nodup)
    (has : κ → α → Bool) (f : α → List β) {xs : List α}
    (keyed : ∀ x ∈ xs, (∃ key ∈ keys, ∀ other ∈ keys, has other x = (other == key)) ∨ f x = []) :
    (xs.flatMap f).Perm (keys.flatMap fun key => (xs.filter (has key)).flatMap f) := by
  induction xs with
  | nil => simp
  | cons x rest ih =>
    rw [List.forall_mem_cons] at keyed
    have own : keys.flatMap (fun key => if has key x then f x else []) = f x := by
      rcases keyed.1 with ⟨key, mem, hits⟩ | nothing
      · rw [← flatMap_ite_eq nodup mem (f x)]
        exact List.flatMap_congr fun other among => by
          rw [flatMap_ite_eq nodup mem, hits other among]
          simp
      · rw [nothing]
        simp
    have each : (keys.flatMap fun key => ((x :: rest).filter (has key)).flatMap f) =
        keys.flatMap fun key =>
          (if has key x then f x else []) ++ (rest.filter (has key)).flatMap f := by
      refine List.flatMap_congr fun key _ => ?_
      rw [List.filter_cons]
      split <;> rfl
    rw [List.flatMap_cons, each]
    refine ((ih keyed.2).append_left (f x)).trans ?_
    conv_lhs => rw [← own]
    exact List.flatMap_append_perm ..

/-! ## Entities in a document -/

def Family.all : List Family :=
  [.registry, .environment, .user, .database, .sqlString, .sqlScript, .certificate]

/-- The entities of the project are in the document, each once and in its form. -/
structure Project.SetsUp (project : Project) (ids : EntityIds) (document : Element) : Prop where
  /-- What has a declared id keeps it. -/
  areIds : ids.AreFor project
  /-- The components of each family are numbered from one and hold an entity each. -/
  components : ∀ family, (document.entityComponents.filter (isOf family)).map row =
    family.rows 1 (project.setUp ids family)
  /-- What is only referred to is declared in the package. -/
  declarations : ∃ package, document.elements = [package] ∧ ∀ word ∈ entityWords,
    package.elementsNamed word = (project.referred ids).filter fun x => x.name == word
  /-- Inside the element of a database nothing names a database. -/
  nested : ∀ e ∈ project.setUp ids .database, ∀ x ∈ e.elements, x.attrOf? "SqlDb" = none
  /-- What has a component of its own names the database by the id that its element has. -/
  linked : ∀ db ∈ project.sqlDatabases.zip ids.databases,
    (db.1.element db.2).id? = some db.2 ∧
      ∀ x ∈ SqlDatabase.stringElements db ++ SqlDatabase.scriptElements db,
        x.attrOf? "SqlDb" = some db.2
  /-- There are no other elements of entities. -/
  all : (document.subtree.filter fun x => x.name ∈ entityWords).Perm
    ((Family.all.flatMap (project.setUp ids) ++ project.referred ids).flatMap subtree)

namespace Markup.Element

def entities (e : Element) : List Element :=
  e.subtree.filter fun x => x.name ∈ entityWords

theorem entities_eq {e : Element} (other : e.name ∉ entityWords) :
    e.entities = e.elements.flatMap entities := by
  rw [entities, filter_subtree, if_neg (by simpa using other)]
  rfl

theorem entities_of_only {e : Element} (only : Only (· ∉ entityWords) e) : e.entities = [] :=
  List.filter_eq_nil_iff.mpr fun x mem => by simpa using only x mem

theorem IsEntity.entities {e : Element} (entity : e.IsEntity) : e.entities = e.subtree :=
  List.filter_eq_self.mpr fun x mem => by simpa using entity x mem

/-- Nothing but its entity is an entity in a component. -/
theorem entities_of_row {e entity : Element} {id : Option String} (own : e.row = (id, [entity]))
    (named : e.name = "Component") : e.entities = entity.entities := by
  rw [entities_eq (named ▸ by decide)]
  refine flatMap_elements_of_row own fun x condition => ?_
  rw [isCondition, Bool.and_eq_true, beq_iff_eq, List.isEmpty_iff] at condition
  rw [entities_eq (condition.1 ▸ by decide), condition.2, List.flatMap_nil]

end Markup.Element

/-! ## The entities of a project -/

theorem SqlDatabase.isEntity_setUp (dbs : List (SqlDatabase × String)) (family : Family) :
    ∀ e ∈ setUp dbs family, e.IsEntity := by
  cases family with
  | database =>
    exact List.forall_mem_map.mpr fun db _ => only_addAll.mpr
      ⟨isEntity_database db.2 db.1, isEntity_databaseParts db.1 db.2 none⟩
  | sqlString =>
    refine List.forall_mem_flatMap.mpr fun db _ e mem => ?_
    obtain ⟨n, _, rfl⟩ := List.mem_mapIdx.mp mem
    exact isEntity_sqlString _ _ _
  | sqlScript =>
    refine List.forall_mem_flatMap.mpr fun db _ e mem => ?_
    obtain ⟨n, _, rfl⟩ := List.mem_mapIdx.mp mem
    exact isEntity_sqlScript _ _ _
  | registry | environment | user | certificate => exact nofun

namespace Project

theorem isEntity_setUp (project : Project) (ids : EntityIds) (family : Family) :
    ∀ e ∈ project.setUp ids family, e.IsEntity := by
  cases family with
  | registry => exact List.forall_mem_map.mpr fun value _ => isEntity_value value
  | environment =>
    exact forall_mem_zipWith (fun var id => isEntity_variable id var) _ _
  | user => exact List.forall_mem_map.mpr fun user _ => isEntity_user user.2 user.1
  | certificate =>
    exact forall_mem_zipWith (fun cert id => isEntity_certificate id cert) _ _
  | database => exact SqlDatabase.isEntity_setUp _ .database
  | sqlString => exact SqlDatabase.isEntity_setUp _ .sqlString
  | sqlScript => exact SqlDatabase.isEntity_setUp _ .sqlScript

theorem isEntity_referred (project : Project) (ids : EntityIds) :
    ∀ e ∈ project.referred ids, e.IsEntity := by
  rw [referred, List.forall_mem_append]
  exact ⟨List.forall_mem_map.mpr fun user _ => isEntity_user user.2 user.1,
    List.forall_mem_map.mpr fun db _ => isEntity_database db.2 db.1⟩

end Project

/-! ## Entities of components -/

theorem Family.flatMap_entities_of_rows {family : Family} {start : Nat}
    {components entities : List Element} (rows : components.map row = family.rows start entities)
    (named : ∀ x ∈ components, x.name = "Component") (each : ∀ e ∈ entities, e.IsEntity) :
    components.flatMap Element.entities = entities.flatMap subtree := by
  induction entities generalizing start components with
  | nil =>
    rw [rows_nil, List.map_eq_nil_iff] at rows
    rw [rows, List.flatMap_nil, List.flatMap_nil]
  | cons entity rest ih =>
    obtain ⟨x, others, rfl, own, rows⟩ := List.map_eq_cons_iff.mp rows
    rw [List.forall_mem_cons] at named each
    rw [List.flatMap_cons, List.flatMap_cons, entities_of_row own named.1, each.1.entities,
      ih rows named.2 each.2]

/-- The components of entities give the entities, each once. -/
theorem perm_entities_of_setsUp {elements : StandaloneElements} {own : Family → List Element}
    {declared : List Element} (sets : elements.SetsUp (fun _ => 0) own declared)
    (named : ∀ x ∈ elements.components, x.name = "Component")
    (each : ∀ family, ∀ e ∈ own family, e.IsEntity) :
    (elements.components.flatMap Element.entities).Perm
      ((Family.all.flatMap own).flatMap subtree) := by
  have nodup : Family.all.Nodup := by decide
  refine (perm_flatMap_of_keys nodup isOf Element.entities fun x mem => ?_).trans (.of_eq ?_)
  · obtain ⟨family, id, entity, row, word⟩ := sets.alone x mem
    refine .inl ⟨family, by cases family <;> decide, fun other _ => ?_⟩
    rw [isOf_of_row row, word]
    exact decide_eq_decide.mpr (Family.word_inj.trans eq_comm)
  rw [List.flatMap_assoc]
  refine List.flatMap_congr fun family _ => ?_
  exact Family.flatMap_entities_of_rows (sets.components family)
    (fun x mem => named x (List.mem_filter.mp mem).1) (each family)

/-! ## Entities of a package -/

namespace Compilation

variable {c : Compilation} {before after : Ledger}

/-- Among the pieces of a package only declarations have the names of entities. -/
theorem filter_parts_of_entity {pieces : Pieces} (areGiven : pieces.AreGiven c before)
    {word : String} (isWord : word ∈ entityWords) :
    (pieces.parts c).filter (fun x => x.name == word) =
      pieces.standalone.declarations.filter fun x => x.name == word := by
  have given : Filling.IsGiven c (c.homeId? pieces.standalone.components)
      ⟨pieces.properties, pieces.actions, pieces.binaries, pieces.dialogs, pieces.environment⟩ :=
    ⟨areGiven.properties, areGiven.actions, areGiven.binaries, areGiven.dialogs,
      areGiven.environment⟩
  have missing : ∀ elements : List Element, (∀ x ∈ elements, Only (· ∈ packageWords) x) →
      elements.filter (fun x => x.name == word) = [] := fun elements only =>
    filter_name_eq_nil fun x mem same =>
      (by decide : ∀ w ∈ packageWords, w ∉ entityWords) _ (only x mem).here (same ▸ isWord)
  have properties := missing _ fun x mem => (given.areParts.properties x mem).packageWords
  have actions := missing _ fun x mem => (given.areParts.actions.definitions x mem).packageWords
  have binaries := missing _ fun x mem => (given.areParts.binaries x mem).packageWords
  have dialogs := missing _ fun x mem => (given.areParts.dialogs x mem).packageWords
  have environment := missing _ fun x mem => (given.areParts.environment x mem).packageWords
  have upgrades := missing _ (packageWords_upgradeElements (c := c)).definitions
  have other : word ∉ ["Condition", "Directory"] := fun mem =>
    (by decide : ∀ w ∈ ["Condition", "Directory"], w ∉ entityWords) word mem isWord
  simp only [areGiven.filter_parts other, List.filter_append, properties, actions, binaries,
    dialogs, environment, upgrades, List.append_nil]

theorem entities_root (c : Compilation) (components : List Element) :
    (c.root components).entities = components.flatMap Element.entities :=
  filter_root components (fun x y same _ => by rw [name_eq_of_tag same])
    (fun x directory => by rw [directory]; decide)
    (entities_of_only (Everywhere.mono (isTreePart_tree c) fun _ word =>
      (by decide : ∀ w ∈ Dir.words, w ∉ entityWords) _ word))

/-- Directories and declarations alone give entities in a package. -/
theorem perm_entities_of_package {package root : Element} {declared : List Element}
    (name : package.name ∈ ["Product", "Module"])
    (directories : package.elementsNamed "Directory" = [root])
    (declarations : ∀ word ∈ entityWords,
      package.elementsNamed word = declared.filter fun x => x.name == word)
    (entities : ∀ x ∈ declared, x.IsEntity)
    (others : ∀ x ∈ package.elements, x.name ≠ "Directory" → x.name ∉ entityWords →
      x.entities = []) :
    package.entities.Perm (root.entities ++ declared.flatMap subtree) := by
  have outer : package.name ∉ entityWords :=
    (by decide : ∀ w ∈ ["Product", "Module"], w ∉ entityWords) _ name
  have nodup : ("Directory" :: entityWords).Nodup := by decide
  -- the children of the package, and the declarations, sorted by their names
  have children := perm_flatMap_of_keys nodup (fun word x => x.name == word) Element.entities
    fun x mem => by
      by_cases key : x.name ∈ "Directory" :: entityWords
      · exact .inl ⟨x.name, key, fun other _ => BEq.comm⟩
      · rw [List.mem_cons, not_or] at key
        exact .inr (others x mem key.1 key.2)
  have sorted := perm_flatMap_of_keys (List.nodup_cons.mp nodup).2
    (fun word x => x.name == word) Element.entities
    fun x mem => .inl ⟨x.name, (entities x mem).name_mem, fun other _ => BEq.comm⟩
  have same : declared.flatMap Element.entities = declared.flatMap subtree :=
    List.flatMap_congr fun x mem => (entities x mem).entities
  have named : entityWords.flatMap (fun word =>
      (package.elements.filter fun x => x.name == word).flatMap Element.entities) =
        entityWords.flatMap fun word =>
          (declared.filter fun x => x.name == word).flatMap Element.entities :=
    List.flatMap_congr fun word isWord => congrArg _ (declarations word isWord)
  have first : (package.elements.filter fun x => x.name == "Directory").flatMap
      Element.entities = root.entities := by
    have found : (package.elements.filter fun x => x.name == "Directory") = [root] := directories
    rw [found, List.flatMap_singleton]
  rw [entities_eq outer, ← same]
  refine children.trans ?_
  rw [List.flatMap_cons, first, named]
  exact sorted.symm.append_left _

theorem Made.entities_document {document package : Element} {ledger : Ledger}
    (made : c.Made document ledger) (single : document.elements = [package]) :
    document.entities = package.entities := by
  obtain ⟨extensions, _, _, named, -, -⟩ := made.holdsRoot
  have outer : document.name ∉ entityWords := by
    rw [named]
    simp [rootElement, entityWords]
  rw [entities_eq outer, single, List.flatMap_singleton]

/-- The entities of a document are in the tree of directories or declared. -/
theorem perm_entities_of_document {document package : Element} {components declared : List Element}
    (home : c.BringsHome c.tree document c.tree.installRoot components)
    (fresh : before.locations = []) (given : c.emitDocument.Gives before document after)
    (single : document.elements = [package])
    (declarations : ∀ word ∈ entityWords,
      package.elementsNamed word = declared.filter fun x => x.name == word)
    (entities : ∀ x ∈ declared, x.IsEntity) :
    package.entities.Perm ((c.root components).entities ++ declared.flatMap subtree) := by
  obtain ⟨_, single', name, others⟩ := words_of_emitDocument fresh given
  obtain ⟨_, single'', directories, -⟩ := home.package
  rw [List.singleton_inj.mp (single'.symm.trans single)] at name others
  rw [List.singleton_inj.mp (single''.symm.trans single)] at directories
  refine perm_entities_of_package name directories declarations entities
    fun x mem directory entity => entities_of_only ?_
  exact Everywhere.mono (others x mem directory entity) fun _ word =>
    (by decide : ∀ w ∈ packageWords, w ∉ entityWords) _ word

end Compilation

namespace Project

variable {project : Project} {options : Options} {output : Output}

/-- Preparing a project leaves its entities alone, and they find no ids of their kinds in use. -/
theorem setsUp_standalone {c : Compilation} {pieces : Compilation.Pieces}
    (start : Compilation.ofProject options (project.prepare options).project = .ok c)
    (areGiven : pieces.AreGiven c { ids := (project.prepare options).ids }) :
    pieces.standalone.SetsUp (fun _ => 0) (project.setUp (project.entityIds {}))
      (project.referred (project.entityIds {})) := by
  obtain ⟨begun, _, standaloneSteps, same⟩ := areGiven.drawsStandalone
  have sets := Compilation.setsUp_of_emitStandalone standaloneSteps
  obtain ⟨dirs, actions, prepared, -⟩ := project.exists_prepare options
  rw [(Compilation.project_of_ofProject start).1, prepared] at sets
  have agree {kind : IdKind} (apart : kind ∉ [IdKind.directory, .file, .shortcut, .mergeModule]) :
      IdPool.AgreeOn kind begun.ids {} :=
    ((project.agreeOn_prepare options apart).trans (same kind)).symm
  have ids : project.entityIds begun.ids = project.entityIds {} := by
    rw [entityIds, entityIds, (agree (by decide)).idsFor_eq, (agree (by decide)).idsFor_eq,
      (agree (by decide)).idsFor_eq, (agree (by decide)).idsFor_eq]
  rw [← ids]
  exact sets.congr fun family => by cases family <;> rfl

theorem sqlDb_nested (project : Project) (ids : EntityIds) :
    ∀ e ∈ project.setUp ids .database, ∀ x ∈ e.elements, x.attrOf? "SqlDb" = none := by
  refine List.forall_mem_map.mpr fun db _ x mem => ?_
  have bare : (db.1.element db.2).elements = [] := by simp [SqlDatabase.element]
  rw [elements_addAll, bare, List.nil_append] at mem
  exact db.1.sqlDb_parts db.2 none x mem

/-- The standalone entities are in the document that is made of a project, with the ids that they
get from an empty pool. -/
theorem setsUp_of_made {c : Compilation} {ledger : Ledger} {document : Element}
    (start : Compilation.ofProject options (project.prepare options).project = .ok c)
    (given : c.emitDocument.Gives { ids := (project.prepare options).ids } document ledger)
    (made : c.Made document ledger) : project.SetsUp (project.entityIds {}) document := by
  obtain ⟨package, pieces, single, areGiven, has⟩ :=
    Compilation.hasChildren_of_emitDocument rfl given
  have some_ : c.project.dirs ≠ [] := by
    rw [(Compilation.project_of_ofProject start).1]
    exact project.dirs_prepare_ne_nil options
  have home := Compilation.bringsHome_of_made some_ made single areGiven has
  have sets := setsUp_standalone start areGiven
  have declarations : ∀ word ∈ entityWords, package.elementsNamed word =
      (project.referred (project.entityIds {})).filter fun x => x.name == word := by
    intro word isWord
    have kept := (by decide : ∀ w ∈ entityWords, w ∉ changingNames ++ Sequence.names) word isWord
    rw [has.named word kept, Compilation.filter_parts_of_entity areGiven isWord, sets.declarations]
  exact {
    areIds := project.areFor_entityIds {}
    components := by
      rw [home.entities]
      exact sets.components
    declarations := ⟨package, single, declarations⟩
    nested := project.sqlDb_nested _
    linked := fun db _ => ⟨db.1.id?_element db.2, SqlDatabase.sqlDb_linked db⟩
    all := by
      have inPackage := made.entities_document single
      have inRoot := perm_entities_of_setsUp sets
        (fun x mem => (areGiven.areEntities.components x mem).name_eq)
        (project.isEntity_setUp _)
      rw [← c.entities_root] at inRoot
      refine (List.Perm.of_eq inPackage).trans ?_
      refine (Compilation.perm_entities_of_document home rfl given single declarations
        (project.isEntity_referred _)).trans ?_
      rw [List.flatMap_append]
      exact inRoot.append_right _ }

/-- The standalone entities of a compiled project are in its document, each once and in its form. -/
theorem setsUp_of_compile (compiled : project.compile options = .ok output) :
    project.SetsUp (project.entityIds {}) output.document := by
  obtain ⟨c, ledger, start, given, made⟩ := Project.made_of_compile compiled
  exact setsUp_of_made start given made

theorem setsUp_furnished :
    ∃ output, Project.furnished.compile {} = .ok output ∧
      Project.furnished.SetsUp (Project.furnished.entityIds {}) output.document ∧
      (Project.furnished.entityIds {}).databases = ["Log", "App"] ∧
      (output.document.entityComponents.filter (isOf .sqlScript)).map row =
        [(some "SqlScript1", [SqlScript.element "Log.SqlScript1" "Log" { binaryKey := "Setup" }])] ∧
      (output.document.entityComponents.filter (isOf .database)).map row =
        [(some "SqlDatabase1",
          [(SqlDatabase.element "App"
              { database := "App", server := "local", createOnInstall := some true }).add
            (SqlString.element "App.SqlString1" none { sql := "CREATE TABLE Log" })])] := by
  obtain ⟨output, compiled⟩ := Project.exists_output
    (by decide +kernel : (Project.furnished.compile {}).isOk = true)
  have sets := setsUp_of_compile compiled
  have databases : (Project.furnished.entityIds {}).databases = ["Log", "App"] := by decide +kernel
  have scriptId : "Log" ++ ".SqlScript" ++ toString (0 + 1) = "Log.SqlScript1" := by decide
  have stringId : "App" ++ ".SqlString" ++ toString (0 + 1) = "App.SqlString1" := by decide
  have scriptStem : Family.sqlScript.stem ++ toString 1 = "SqlScript1" := by decide
  have databaseStem : Family.database.stem ++ toString 1 = "SqlDatabase1" := by decide
  refine ⟨output, compiled, sets, databases, ?_, ?_⟩
  · simp only [sets.components, setUp, databases]
    rw [← scriptStem, ← scriptId]
    rfl
  · simp only [sets.components, setUp, databases]
    rw [← databaseStem, ← stringId]
    rfl

end Project

end Installer
