import Installer.Proofs.Product.Payload
import Installer.Proofs.Product.Setup
import Installer.Proofs.Product.Success

/-! # The ids of entities in the document

A document shows the ids that the entities of each kind got, one element for each of them, and the
features that components are booked for.  A pool is told of the ids that it makes alone, and the id
of a feature is not made by a pool at all, so that ids which are declared, or made of similar names,
may be the same.
-/

namespace Installer

open Markup (Element)
open Markup.Element
open Emit

/-! ## Kinds of entities -/

inductive EntityKind where
  | mergeModule
  | envVar
  | user
  | database
  | certificate

namespace EntityKind

def idKind : EntityKind → IdKind
  | .mergeModule => .mergeModule
  | .envVar => .envVar
  | .user => .user
  | .database => .database
  | .certificate => .certificate

def word : EntityKind → String
  | .mergeModule => "Merge"
  | .envVar => Family.environment.word
  | .user => Family.user.word
  | .database => Family.database.word
  | .certificate => Family.certificate.word

end EntityKind

def Binary.naming (binary : Binary) : Naming :=
  ⟨binary.id, binary.idName⟩

namespace Project

/-- What the ids of the entities of a kind are made from. -/
def namings (project : Project) : EntityKind → List Naming
  | .mergeModule => (Dir.modulesIn project.dirs).map MergeModule.naming
  | .envVar => project.envVars.map EnvVar.naming
  | .user => project.users.map User.naming
  | .database => project.sqlDatabases.map SqlDatabase.naming
  | .certificate => project.certificates.map Certificate.naming

structure KeepsEntityIds (project : Project) : Prop where
  modules : ∀ module ∈ Dir.modulesIn project.dirs, ∀ pair ∈ module.attributes.pairs, pair.1 ≠ "Id"
  envVars : ∀ var ∈ project.envVars, ∀ pair ∈ var.attributes.pairs, pair.1 ≠ "Id"
  users : ∀ user ∈ project.users, ∀ pair ∈ user.attributes.pairs, pair.1 ≠ "Id"
  certificates : ∀ cert ∈ project.certificates, ∀ pair ∈ cert.attributes.pairs, pair.1 ≠ "Id"
  binaries : ∀ binary ∈ project.binaries, ∀ pair ∈ binary.attributes.pairs, pair.1 ≠ "Id"
  features : project.KeepsFeatureIds

end Project

/-! ## The elements of single entities -/

theorem EnvVar.id?_element (id : String) {var : EnvVar}
    (kept : ∀ pair ∈ var.attributes.pairs, pair.1 ≠ "Id") : (var.element id).id? = some id := by
  rw [id?, element, attrOf?_withAttrs _ kept, attrOf?_withAttrs _ (by simp),
    attrOf?_attr?_of_ne _ (by decide)]
  rfl

theorem User.id?_element (id : String) {user : User}
    (kept : ∀ pair ∈ user.attributes.pairs, pair.1 ≠ "Id") : (user.element id).id? = some id := by
  rw [id?, element, attrOf?_withAttrs _ kept, attrOf?_withFlags _ (by simp [flags]),
    attrOf?_attr?_of_ne _ (by decide), attrOf?_attr?_of_ne _ (by decide)]
  rfl

theorem Certificate.id?_element (id : String) {cert : Certificate}
    (kept : ∀ pair ∈ cert.attributes.pairs, pair.1 ≠ "Id") : (cert.element id).id? = some id := by
  rw [id?, element, attrOf?_withAttrs _ kept, attrOf?_withAttrs _ (by simp),
    attrOf?_attr?_of_ne _ (by decide), attrOf?_attr?_of_ne _ (by decide),
    attrOf?_attr?_of_ne _ (by decide)]
  rfl

namespace Markup.Element

/-- Elements of one name that have no others of a name inside. -/
theorem flatMap_idsNamed {word name : String} {elements : List Element}
    (named : ∀ e ∈ elements, e.name = name)
    (below : ∀ e ∈ elements, ∀ x ∈ e.elements, Only (· ≠ word) x) :
    elements.flatMap (idsNamed word) = if name = word then elements.map id? else [] := by
  have single : ∀ e ∈ elements, e.idsNamed word = if name = word then [e.id?] else [] := by
    intro e mem
    have inner : e.elements.flatMap (idsNamed word) = [] :=
      List.flatMap_eq_nil_iff.mpr fun x inside => idsNamed_of_only (below e mem x inside)
    rw [idsNamed_eq_flatMap, inner, List.append_nil, named e mem]
  rw [List.flatMap_congr single]
  by_cases same : name = word
  · simp only [same, if_true]
    exact (List.map_eq_flatMap ..).symm
  · simp [same]

end Markup.Element

/-! ## Standalone entities -/

/-- Each entity that has an id shows it. -/
theorem map_id?_zip {α : Type} {xs : List α} {ids : List String} (make : α → String → Element)
    (same : xs.length = ids.length) (each : ∀ x ∈ xs, ∀ id, (make x id).id? = some id) :
    (xs.zip ids).map (fun pair => (make pair.1 pair.2).id?) = ids.map some := by
  have own : ∀ pair ∈ xs.zip ids, (make pair.1 pair.2).id? = some pair.2 :=
    fun pair mem => each _ (List.of_mem_zip mem).1 _
  have ids_eq : (xs.zip ids).map Prod.snd = ids := List.map_snd_zip (Nat.le_of_eq same.symm)
  rw [List.map_congr_left own, ← ids_eq, List.map_map, ids_eq]
  rfl

theorem map_id?_zipWith {α : Type} {xs : List α} {ids : List String} {make : α → String → Element}
    (same : xs.length = ids.length) (each : ∀ x ∈ xs, ∀ id, (make x id).id? = some id) :
    (List.zipWith make xs ids).map id? = ids.map some := by
  rw [← List.map_uncurry_zip_eq_zipWith, List.map_map]
  exact map_id?_zip make same each

theorem IdPool.length_idsFor (kind : IdKind) (namings : List Naming) (pool : IdPool) :
    (idsFor kind namings pool).length = namings.length :=
  (forall₂_idsFor kind namings pool).length_eq.symm

/-- The names of the elements of standalone entities with ids. -/
def standaloneWords : List String :=
  ["Environment", "util:User", "sql:SqlDatabase", "iis:Certificate"]

/-- The element is one of the family, and no entity with an id is inside. -/
structure Family.IsSole (family : Family) (e : Element) : Prop where
  name_eq : e.name = family.word
  below : ∀ x ∈ e.elements, Only (· ∉ standaloneWords) x

namespace Family

theorem isSole_leaf {family : Family} {e : Element} (name_eq : e.name = family.word)
    (empty : e.elements = []) : family.IsSole e :=
  ⟨name_eq, empty ▸ nofun⟩

theorem isSole_value (value : RegValue) :
    Family.registry.IsSole (value.keyElement.add value.valueElement) := by
  have valueOnly : Only (· ∉ standaloneWords) value.valueElement := by
    rw [RegValue.valueElement]
    cases value.kind <;> simp [standaloneWords]
  exact ⟨by simp [RegValue.keyElement, word], by simpa [RegValue.keyElement] using valueOnly⟩

theorem isSole_variable (var : EnvVar) (id : String) : Family.environment.IsSole (var.element id) :=
  isSole_leaf (by simp [EnvVar.element, word]) (by simp [EnvVar.element])

theorem isSole_user (user : User) (id : String) : Family.user.IsSole (user.element id) :=
  isSole_leaf (User.name_element id user) (by simp [User.element])

theorem isSole_certificate (cert : Certificate) (id : String) :
    Family.certificate.IsSole (cert.element id) :=
  isSole_leaf (by simp [Certificate.element, word]) (by simp [Certificate.element])

theorem isSole_string (sql : SqlString) (id : String) (reference : Option String) :
    Family.sqlString.IsSole (sql.element id reference) :=
  isSole_leaf (by simp [SqlString.element, word]) (by simp [SqlString.element])

theorem isSole_script (script : SqlScript) (id : String) (reference : Option String) :
    Family.sqlScript.IsSole (script.element id reference) :=
  isSole_leaf (by simp [SqlScript.element, word]) (by simp [SqlScript.element])

theorem isSole_database (db : SqlDatabase) (id : String) :
    Family.database.IsSole (db.element id) :=
  isSole_leaf (by simp [SqlDatabase.element, word]) (by simp [SqlDatabase.element])

/-- Statements and scripts inside a database are no entities with ids. -/
theorem isSole_installedDatabase (db : SqlDatabase) (id : String) (reference : Option String) :
    Family.database.IsSole ((db.element id).addAll (db.parts id reference)) := by
  refine ⟨(isSole_database db id).name_eq, fun x mem => ?_⟩
  have leaf : (db.element id).elements = [] := by simp [SqlDatabase.element]
  rw [elements_addAll, leaf, List.nil_append, SqlDatabase.parts, List.mem_append] at mem
  rcases mem with mem | mem
  · obtain ⟨n, _, rfl⟩ := List.mem_mapIdx.mp mem
    simp [SqlString.element, standaloneWords]
  · obtain ⟨n, _, rfl⟩ := List.mem_mapIdx.mp mem
    simp [SqlScript.element, standaloneWords]

/-- The elements of a family show their own ids alone. -/
theorem flatMap_idsNamed {family : Family} {elements : List Element} {word : String}
    (sole : ∀ e ∈ elements, family.IsSole e) (isWord : word ∈ standaloneWords) :
    elements.flatMap (idsNamed word) = if family.word = word then elements.map id? else [] :=
  Markup.Element.flatMap_idsNamed (fun e mem => (sole e mem).name_eq) fun e mem x inside =>
    Everywhere.mono ((sole e mem).below x inside) fun _ other same => other (same ▸ isWord)

end Family

namespace Project

variable {project : Project} {ids : EntityIds} {document : Element}

theorem isSole_setUp (project : Project) (ids : EntityIds) (family : Family) :
    ∀ e ∈ project.setUp ids family, family.IsSole e := by
  cases family with
  | registry => exact List.forall_mem_map.mpr fun value _ => Family.isSole_value value
  | environment =>
    exact forall_mem_zipWith Family.isSole_variable _ _
  | user => exact List.forall_mem_map.mpr fun user _ => Family.isSole_user user.1 user.2
  | database =>
    exact List.forall_mem_map.mpr fun db _ => Family.isSole_installedDatabase db.1 db.2 none
  | sqlString =>
    refine List.forall_mem_flatMap.mpr fun db _ e mem => ?_
    obtain ⟨n, _, rfl⟩ := List.mem_mapIdx.mp mem
    exact Family.isSole_string _ _ _
  | sqlScript =>
    refine List.forall_mem_flatMap.mpr fun db _ e mem => ?_
    obtain ⟨n, _, rfl⟩ := List.mem_mapIdx.mp mem
    exact Family.isSole_script _ _ _
  | certificate =>
    exact forall_mem_zipWith Family.isSole_certificate _ _

theorem isSole_referredUsers (users : List (User × String)) :
    ∀ e ∈ User.referredElements users, Family.user.IsSole e :=
  List.forall_mem_map.mpr fun user _ => Family.isSole_user user.1 user.2

theorem isSole_referredDatabases (dbs : List (SqlDatabase × String)) :
    ∀ e ∈ SqlDatabase.referredElements dbs, Family.database.IsSole e :=
  List.forall_mem_map.mpr fun db _ => Family.isSole_database db.1 db.2

/-- The ids of one name in a document are those of the entities of one family. -/
theorem perm_idsNamed (sets : project.SetsUp ids document) (family : Family)
    (isWord : family.word ∈ standaloneWords) :
    (document.idsNamed family.word).Perm ((project.setUp ids family).map id? ++
      ((if Family.user = family then
          (User.referredElements (project.users.zip ids.users)).map id? else []) ++
        if Family.database = family then
          (SqlDatabase.referredElements (project.sqlDatabases.zip ids.databases)).map id?
        else [])) := by
  have entity : ∀ x : Element, (x.name == family.word) =
      (decide (x.name ∈ entityWords) && x.name == family.word) := by
    intro x
    by_cases named : x.name = family.word
    · have among : family.word ∈ entityWords :=
        (by decide : ∀ w ∈ standaloneWords, w ∈ entityWords) _ isWord
      simp [named, among]
    · simp [named]
  have found := (sets.all.filter fun x => x.name == family.word).map id?
  rw [List.filter_filter] at found
  refine (List.Perm.of_eq ?_).trans (found.trans (.of_eq ?_))
  · rw [idsNamed, List.filter_congr fun x _ => entity x]
    refine congrArg _ (List.filter_congr fun x _ => Bool.and_comm _ _)
  · have all : ∀ elements : List Element,
        ((elements.flatMap subtree).filter fun x => x.name == family.word).map id? =
          elements.flatMap (idsNamed family.word) := by
      intro elements
      rw [List.filter_flatMap, List.map_flatMap]
      rfl
    have own : Family.all.flatMap (fun other => if other = family then
        (project.setUp ids other).map id? else []) = (project.setUp ids family).map id? := by
      cases family <;> simp [Family.all]
    rw [all, List.flatMap_append, List.flatMap_assoc,
      List.flatMap_congr fun other _ =>
        Family.flatMap_idsNamed (project.isSole_setUp ids other) isWord]
    simp only [Family.word_inj, own, referred, List.flatMap_append,
      Family.flatMap_idsNamed (isSole_referredUsers _) isWord,
      Family.flatMap_idsNamed (isSole_referredDatabases _) isWord]

/-- Entities that are installed and entities that are only referred to are all entities. -/
theorem perm_map_filter {α β : Type} (p : α → Bool) (f : α → β) (xs : List α) :
    ((xs.filter p).map f ++ (xs.filter fun x => !p x).map f).Perm (xs.map f) := by
  rw [← List.map_append]
  exact (List.filter_append_perm p xs).map f

/-- Standalone entities are in the document with the ids that an empty pool gives to their kind. -/
theorem perm_standaloneIds (keeps : project.KeepsEntityIds)
    (sets : project.SetsUp (project.entityIds {}) document) {kind : EntityKind}
    (standalone : kind ≠ .mergeModule) : (document.idsNamed kind.word).Perm
      ((IdPool.idsFor kind.idKind (project.namings kind) {}).map some) := by
  have length : ∀ {α : Type} (xs : List α) (kind : IdKind) (naming : α → Naming),
      xs.length = (IdPool.idsFor kind (xs.map naming) {}).length := by
    intro α xs kind naming
    rw [IdPool.length_idsFor, List.length_map]
  cases kind with
  | mergeModule => exact absurd rfl standalone
  | envVar =>
    refine (perm_idsNamed sets .environment (by decide)).trans (.of_eq ?_)
    rw [if_neg (by decide), if_neg (by decide), List.append_nil, List.append_nil]
    exact map_id?_zipWith (length _ _ _) fun var mem id =>
      var.id?_element id (keeps.envVars var mem)
  | certificate =>
    refine (perm_idsNamed sets .certificate (by decide)).trans (.of_eq ?_)
    rw [if_neg (by decide), if_neg (by decide), List.append_nil, List.append_nil]
    exact map_id?_zipWith (length _ _ _) fun cert mem id =>
      cert.id?_element id (keeps.certificates cert mem)
  | user =>
    refine (perm_idsNamed sets .user (by decide)).trans ?_
    rw [if_pos rfl, if_neg (by decide), List.append_nil, setUp, User.installedElements,
      User.referredElements, List.map_map, List.map_map]
    refine (perm_map_filter _ _ _).trans (.of_eq ?_)
    exact map_id?_zip (fun user id => User.element id user) (length project.users .user User.naming)
      fun user mem id => user.id?_element id (keeps.users user mem)
  | database =>
    refine (perm_idsNamed sets .database (by decide)).trans ?_
    have own : project.setUp (project.entityIds {}) .database = SqlDatabase.installedElements
        (project.sqlDatabases.zip (project.entityIds {}).databases) := rfl
    rw [if_neg (by decide), if_pos rfl, List.nil_append, own, SqlDatabase.installedElements,
      SqlDatabase.referredElements, List.map_map, List.map_map]
    refine (perm_map_filter _ _ _).trans (.of_eq ?_)
    exact map_id?_zip (fun db id => SqlDatabase.element id db)
      (length project.sqlDatabases .database SqlDatabase.naming) fun db _ id => db.id?_element id

end Project

/-! ## Merge modules -/

namespace Compilation

variable {c : Compilation} {before after : Ledger}

/-- A name that is neither one of a package nor one of entities occurs in the tree of directories
alone. -/
theorem perm_idsNamed_root {document package : Element} {components : List Element}
    (home : c.BringsHome c.tree document c.tree.installRoot components)
    (fresh : before.locations = []) (given : c.emitDocument.Gives before document after)
    (single : document.elements = [package])
    (declarations : ∀ x ∈ package.elements, x.name ∈ entityWords → x.IsEntity) {word : String}
    (other : word ∉ "Wix" :: packageWords ++ entityWords) (outer : document.name = "Wix") :
    (document.idsNamed word).Perm ((c.root components).idsNamed word) := by
  simp only [List.cons_append, List.mem_cons, List.mem_append, not_or] at other
  obtain ⟨notWix, notPackage, notEntity⟩ := other
  obtain ⟨_, single', name, others⟩ := words_of_emitDocument fresh given
  obtain ⟨_, single'', directories, -⟩ := home.package
  rw [List.singleton_inj.mp (single'.symm.trans single)] at name others
  rw [List.singleton_inj.mp (single''.symm.trans single)] at directories
  have inner : package.name ≠ word := fun same =>
    notPackage (same ▸ (by decide : ∀ w ∈ ["Product", "Module"], w ∈ packageWords) _ name)
  -- the word occurs neither in the package beside its directories nor in entities
  have nothing : ∀ x ∈ package.elements, x.name ≠ "Directory" → x.idsNamed word = [] := by
    intro x mem directory
    apply idsNamed_of_only
    by_cases entity : x.name ∈ entityWords
    · exact Everywhere.mono (declarations x mem entity) fun _ among same => notEntity (same ▸ among)
    · exact Everywhere.mono (others x mem directory entity) fun _ among same =>
        notPackage (same ▸ among)
  have children : (package.elements.flatMap (idsNamed word)).Perm
      (["Directory"].flatMap fun key =>
        (package.elements.filter fun x => x.name == key).flatMap (idsNamed word)) := by
    refine perm_flatMap_of_keys (List.nodup_singleton _) _ _ fun x mem => ?_
    by_cases directory : x.name = "Directory"
    · exact .inl ⟨_, List.mem_singleton_self _, fun other _ => by rw [directory, BEq.comm]⟩
    · exact .inr (nothing x mem directory)
  have found : (package.elements.filter fun x => x.name == "Directory") = [c.root components] :=
    directories
  rw [idsNamed_eq_flatMap, if_neg (outer ▸ Ne.symm notWix), single, List.nil_append,
    List.flatMap_singleton, idsNamed_eq_flatMap, if_neg inner, List.nil_append]
  refine children.trans (.of_eq ?_)
  rw [List.flatMap_singleton, found, List.flatMap_singleton]

theorem Made.name_document {document : Element} {ledger : Ledger} (made : c.Made document ledger) :
    document.name = "Wix" := by
  obtain ⟨extensions, _, _, rfl, -, -⟩ := made.holdsRoot
  simp [rootElement]

end Compilation

namespace Project

variable {project : Project} {options : Options} {output : Output}

/-- Merge modules are in the document with the ids that an empty pool gives them. -/
theorem perm_moduleIds (keeps : project.KeepsEntityIds)
    (compiled : project.compile options = .ok output) :
    (output.document.idsNamed "Merge").Perm
      ((IdPool.idsFor .mergeModule (project.namings .mergeModule) {}).map some) := by
  obtain ⟨c, ledger, start, given, made⟩ := Project.made_of_compile compiled
  obtain ⟨package, pieces, single, areGiven, has⟩ :=
    Compilation.hasChildren_of_emitDocument rfl given
  have prepared := (Compilation.project_of_ofProject start).1
  have home := Compilation.bringsHome_of_made (prepared ▸ project.dirs_prepare_ne_nil options)
    made single areGiven has
  obtain ⟨_, single', declared⟩ := (setsUp_of_made start given made).declarations
  rw [List.singleton_inj.mp (single'.symm.trans single)] at declared
  have declarations : ∀ x ∈ package.elements, x.name ∈ entityWords → x.IsEntity := by
    intro x mem isWord
    have among : x ∈ package.elementsNamed x.name := List.mem_filter.mpr ⟨mem, beq_self_eq_true _⟩
    rw [declared _ isWord] at among
    exact project.isEntity_referred _ x (List.mem_filter.mp among).1
  have seen := (c.perm_survey_root areGiven.areEntities.components).filterMap Sight.module?
  have kept := prepared ▸ project.attributes_modulesIn_prepare options keeps.modules
  have modules : ((c.root pieces.standalone.components).idsNamed "Merge").Perm
      ((Dir.modulesIn c.project.dirs).map fun module => some module.finalId) := by
    have ids := seen.map fun t => t.2.lookup "Id"
    rw [filterMap_module?_survey, List.filterMap_map, List.map_map, List.map_filterMap] at ids
    refine ids.trans (.of_eq ?_)
    rw [← List.map_congr_left fun module mem => MergeModule.id?_element (kept module mem),
      ← List.filterMap_eq_map]
    rfl
  refine (Compilation.perm_idsNamed_root home rfl given single declarations (by decide)
    made.name_document).trans (modules.trans (.of_eq ?_))
  rw [namings, ← project.moduleIds_prepare options, ← prepared, List.map_map]
  rfl

theorem perm_entityIds (keeps : project.KeepsEntityIds)
    (compiled : project.compile options = .ok output) (kind : EntityKind) :
    (output.document.idsNamed kind.word).Perm
      ((IdPool.idsFor kind.idKind (project.namings kind) {}).map some) := by
  by_cases isModule : kind = .mergeModule
  · subst isModule
    exact perm_moduleIds keeps compiled
  · obtain ⟨c, ledger, start, given, made⟩ := Project.made_of_compile compiled
    exact perm_standaloneIds keeps (setsUp_of_made start given made) isModule

end Project

/-! ## Binaries -/

theorem Binary.ids_of_mapM {c : Compilation} {before after : Ledger} {binaries : List Binary}
    {results : List Element}
    (kept : ∀ binary ∈ binaries, ∀ pair ∈ binary.attributes.pairs, pair.1 ≠ "Id")
    (given : (binaries.mapM (Binary.emit c)).Gives before results after) :
    results.map id? =
      (IdPool.idsFor .binary (binaries.map Binary.naming) before.ids).map some := by
  induction binaries generalizing before results with
  | nil =>
    obtain ⟨rfl, rfl⟩ := gives_mapM_nil.mp given
    rfl
  | cons binary rest ih =>
    obtain ⟨result, between, others, first, later, rfl⟩ := gives_mapM_cons.mp given
    rw [List.forall_mem_cons] at kept
    simp only [emit, gives_bind, gives_pure, gives_idOr_iff] at first
    obtain ⟨id, _, ⟨rfl, rfl⟩, source, sourced, steps, rfl, rfl⟩ := first
    have agree : IdPool.AgreeOn .binary ((IdPool.give .binary binary.naming).run before.ids).2
        sourced.ids := keepsIds_emitSource binary _ _ _ steps
    rw [List.map_cons, List.map_cons, IdPool.idsFor_cons, List.map_cons, ih kept.2 later,
      agree.idsFor_eq, id?, attrOf?_withAttrs _ kept.1]
    rfl

/-- The own binaries of a project have the ids that an empty pool gives them. -/
theorem Project.binaryIds {project : Project} {options : Options} {c : Compilation}
    {pieces : Compilation.Pieces} (keeps : project.KeepsEntityIds)
    (start : Compilation.ofProject options (project.prepare options).project = .ok c)
    (areGiven : pieces.AreGiven c { ids := (project.prepare options).ids }) :
    pieces.binaries.map id? =
      (IdPool.idsFor .binary (project.binaries.map Binary.naming) {}).map some := by
  obtain ⟨begun, _, steps, same⟩ := areGiven.drawsBinaries
  obtain ⟨dirs, actions, prepared, -⟩ := project.exists_prepare options
  have binaries : c.project.binaries = project.binaries := by
    rw [(Compilation.project_of_ofProject start).1, prepared]
  have agree : IdPool.AgreeOn .binary {} begun.ids :=
    (project.agreeOn_prepare options (by decide)).trans same
  rw [binaries] at steps
  rw [Binary.ids_of_mapM keeps.binaries steps, agree.idsFor_eq]

/-! ## Features -/

namespace Project

variable {project : Project} {shown : List (Option String)}

/-- What a reference to a merge module brings along is new. -/
theorem nodup_shownWith (kept : project.KeepsFeatureIds) (feature : Option String) :
    (project.shownWith shown feature).Nodup ↔ shown.Nodup := by
  rw [shownWith]
  cases found : feature.bind project.feature? with
  | none => exact .rfl
  | some declared =>
    obtain ⟨name, -, isFeature⟩ := Option.bind_eq_some_iff.mp found
    have id : declared.element.id? = some declared.effectiveId :=
      id?_element (kept declared (mem_of_feature? isFeature).1)
    simp only
    split
    next => exact .rfl
    next missing =>
      rw [id, List.nodup_append_comm, List.singleton_append, List.nodup_cons]
      exact and_iff_right missing

/-- References to merge modules bring no id along that is shown already. -/
theorem nodup_foldl_shownWith (kept : project.KeepsFeatureIds) (features : List (Option String)) :
    (features.foldl project.shownWith shown).Nodup ↔ shown.Nodup := by
  induction features generalizing shown with
  | nil => exact .rfl
  | cons feature rest ih => exact ih.trans (nodup_shownWith kept feature)

end Project

namespace Compilation

variable {c : Compilation} {before after : Ledger} {document : Element}

/-- A merge module has no features. -/
theorem elementsNamed_moduleElement (c : Compilation) (product : Element) :
    (c.moduleElement product).elementsNamed "Feature" = [] := by
  have members :
      (product.takeChildren fun x => x.name == "Feature" || x.name == "Media").2.elements =
      product.elements.filter fun x => !(x.name == "Feature" || x.name == "Media") :=
    elements_takeChildren _ _
  rw [moduleElement]
  generalize product.takeChildren (fun x => x.name == "Feature" || x.name == "Media") = pair
    at members ⊢
  obtain ⟨taken, rest⟩ := pair
  have left : ∀ attrs, elementsNamed ⟨"Module", attrs, rest.children⟩ "Feature" = [] := by
    intro attrs
    have children : elements ⟨"Module", attrs, rest.children⟩ = rest.elements := rfl
    rw [elementsNamed, children, members, List.filter_filter, List.filter_eq_nil_iff]
    intro x _
    by_cases feature : x.name = "Feature" <;> simp [feature]
  simp only
  split
  next place found =>
    rw [focusChild?, Option.map_eq_some_iff] at found
    obtain ⟨⟨child, put⟩, among, rfl⟩ := found
    obtain ⟨front, back, children, isPackage, -, rfl⟩ := focusAmong?_eq_some among
    replace children : rest.children = front ++ .element child :: back := children
    rw [children] at left
    have package : child.name = "Package" := by simpa using isPackage
    exact (elementsNamed_replace (HasChildren.name_modulePackage c child)
      (package ▸ by decide)).trans (left _)
  next => exact left _

theorem featureIds_of_msm (msm : c.options.outputType = .msm) (fresh : before.locations = [])
    (given : c.emitDocument.Gives before document after) : document.idsNamed "Feature" = [] := by
  simp only [emitDocument, gives_bind, gives_get, gives_pure, msm] at given
  obtain ⟨product, _, productSteps, _, _, ⟨rfl, rfl⟩, rfl, rfl⟩ := given
  obtain ⟨pieces, -, has⟩ := hasChildren_of_emitProduct fresh productSteps
  have has' := has.reorder.moduleElement c
  refine idsNamed_of_only (only_iff.mpr ⟨by simp [rootElement], ?_⟩)
  rw [elements_document, List.forall_mem_singleton]
  refine only_iff.mpr ⟨?_, fun x mem => has'.featureless x mem fun feature => ?_⟩
  · exact ne_of_mem_of_not_mem has'.name_mem (by decide)
  · have among : x ∈ (c.moduleElement (Product.reorder product)).elementsNamed "Feature" :=
      List.mem_filter.mpr ⟨mem, beq_iff_eq.mpr feature⟩
    rw [elementsNamed_moduleElement] at among
    exact absurd among List.not_mem_nil

/-- The features of an installer are those that components are booked for, and those that references
to merge modules bring along. -/
theorem perm_featureIds_of_msi (msi : c.options.outputType = .msi) (nowhere : before.locations = [])
    (none : before.components = []) (given : c.emitDocument.Gives before document after) :
    ∃ features : List (Option String), (document.idsNamed "Feature").Perm
      (features.foldl c.project.shownWith c.shown) := by
  simp only [emitDocument, gives_bind, gives_get, gives_pure, msi] at given
  obtain ⟨product, _, productSteps, _, _, ⟨rfl, rfl⟩, rfl, rfl⟩ := given
  obtain ⟨filled, wired, filledSteps, wiring, rfl⟩ := gives_emitProduct_iff.mp productSteps
  obtain ⟨entries, has, shown⟩ :=
    (showsFeatures_of_emitFilled nowhere none filledSteps).wireMergeModules wiring
  have upgraded : (c.withUpgrade wired).HasFeatures entries := by
    rw [withUpgrade]
    split
    next => exact has
    next strategy _ => exact has.addActions strategy.areParts_elements
  have found : ∀ extensions, List.Perm _ _ := fun extensions =>
    (upgraded.reorder.entries_document extensions).map FeatureEntry.id?
  simp only [List.map_map, shown] at found
  rw [idsNamed_of_name_ne (by simp [rootElement])]
  exact ⟨_, found _⟩

/-- The features that components are booked for are among all features. -/
theorem shown_sublist (kept : c.project.KeepsFeatureIds) :
    c.shown.Sublist (c.project.allFeatures.map fun feature => some feature.effectiveId) := by
  have ids : (c.project.allFeatures.map fun feature => some feature.effectiveId) =
      c.project.allFeatures.map fun feature => feature.element.id? :=
    List.map_congr_left fun feature mem => (Project.id?_element (kept feature mem)).symm
  rw [ids]
  exact List.filter_sublist.map _

end Compilation

/-! ## Compiled projects -/

/-- When the ids of entities are different in the document of a compilation. -/
structure Project.TellsApart (project : Project) (c : Compilation) (document : Element) :
    Prop where
  /-- There is an element for every entity, with the id that an empty pool gives it. -/
  ids : ∀ kind : EntityKind, (document.idsNamed kind.word).Perm
    ((IdPool.idsFor kind.idKind (project.namings kind) {}).map some)
  /-- Ids that are made are all different, but not always from those that are declared. -/
  entities : ∀ kind : EntityKind, (document.idsNamed kind.word).Nodup ↔
    IdPool.AreApart kind.idKind (project.namings kind)
  /-- The binaries of the project stand behind those that actions bring along. -/
  binaries : ∃ package brought own, document.elements = [package] ∧
    package.elementsNamed "Binary" = brought ++ own ∧
      own.map id? = (IdPool.idsFor .binary (project.binaries.map Binary.naming) {}).map some ∧
        ((own.map id?).Nodup ↔ IdPool.AreApart .binary (project.binaries.map Binary.naming))
  /-- Only an installer has features, and it shows those that components are booked for. -/
  features : (document.idsNamed "Feature").Nodup ↔ (c.options.outputType = .msi → c.shown.Nodup)
  shown : c.shown.Sublist (project.allFeatures.map fun feature => some feature.effectiveId)

namespace Project

variable {project : Project} {options : Options} {output : Output}

theorem nodup_map_some {ids : List String} : (ids.map some).Nodup ↔ ids.Nodup :=
  List.nodup_map_iff (Option.some_injective String)

/-- In a compiled project the ids of one kind of entities are different just if the declared ones
are, and none of them is one that is made for an entity without a declared id.  The ids of features
are different just if those of the features with components are. -/
theorem tellsApart_of_compile (compiled : project.compile options = .ok output)
    (keeps : project.KeepsEntityIds) :
    ∃ c, Compilation.ofProject options (project.prepare options).project = .ok c ∧
      project.TellsApart c output.document := by
  obtain ⟨c, ledger, start, given, -⟩ := made_of_compile compiled
  have features : c.project.allFeatures = project.allFeatures := by
    rw [(Compilation.project_of_ofProject start).1, project.allFeatures_prepare options]
  have kept : c.project.KeepsFeatureIds := by
    rw [KeepsFeatureIds, features]
    exact keeps.features
  have ids := perm_entityIds keeps compiled
  refine ⟨c, start,
    { ids, entities := fun kind => ?_, binaries := ?_, features := ?_, shown := ?_ }⟩
  · rw [(ids kind).nodup_iff, nodup_map_some, IdPool.nodup_idsFor_iff]
  · obtain ⟨package, pieces, single, areGiven, has⟩ :=
      Compilation.hasChildren_of_emitDocument rfl given
    have own := binaryIds keeps start areGiven
    refine ⟨package, _, pieces.binaries, single,
      Compilation.binaries_of_hasChildren areGiven has, own, ?_⟩
    rw [own, nodup_map_some, IdPool.nodup_idsFor_iff]
  · cases chosen : c.options.outputType with
    | msi =>
      obtain ⟨added, ids⟩ := Compilation.perm_featureIds_of_msi chosen rfl rfl given
      simpa using ids.nodup_iff.trans (nodup_foldl_shownWith kept added)
    | msm => simp [Compilation.featureIds_of_msm chosen rfl given]
  · exact features ▸ Compilation.shown_sublist kept

/-- A project with two variables of one name, and one more whose id is declared. -/
def homonymous (id : String) : Project where
  name := "App"
  dirs := [⟨{ name := "%ProgramFiles%\\App", files := [{ name := "app.exe" }] }, []⟩]
  envVars := [{ name := "PATH", value := "bin" }, { name := "PATH", value := "lib" },
    { name := "APP_PATH", value := "bin", id := some id }]

theorem keepsEntityIds_homonymous (id : String) : (homonymous id).KeepsEntityIds := by
  have noModules : ∀ module ∈ Dir.modulesIn (homonymous id).dirs,
      ∀ pair ∈ module.attributes.pairs, pair.1 ≠ "Id" := nofun
  refine ⟨noModules, ?_, ?_, ?_, ?_, ?_⟩ <;>
    simp [KeepsFeatureIds, allFeatures, homonymous, Attributes.empty]

theorem tellsApart_homonymous :
    ∃ output c, (homonymous "AppPath").compile {} = .ok output ∧
      (homonymous "AppPath").TellsApart c output.document ∧
        (output.document.idsNamed "Environment").Nodup := by
  obtain ⟨output, compiled⟩ := exists_output
    (by decide +kernel : ((homonymous "AppPath").compile {}).isOk = true)
  obtain ⟨c, -, apart⟩ := tellsApart_of_compile compiled (keepsEntityIds_homonymous _)
  have different : IdPool.AreApart .envVar ((homonymous "AppPath").namings .envVar) := by
    decide +kernel
  exact ⟨output, c, compiled, apart, (apart.entities .envVar).mpr different⟩

/-- The one declared id is also made for a variable without one, so that two variables have it. -/
theorem not_nodup_homonymous :
    ∃ output, (homonymous "PATH").compile {} = .ok output ∧ (homonymous "PATH").KeepsEntityIds ∧
      ((homonymous "PATH").envVars.filterMap EnvVar.id).Nodup ∧
        ¬ (output.document.idsNamed "Environment").Nodup := by
  obtain ⟨output, compiled, ids⟩ := exists_output_of_any
    (by decide +kernel : ((homonymous "PATH").compile {}).toOption.any (fun output =>
      output.document.idsNamed "Environment" ==
        [some "PATH", some "PATH.1", some "PATH"]) = true)
  refine ⟨output, compiled, keepsEntityIds_homonymous _, by decide, ?_⟩
  rw [beq_iff_eq.mp ids]
  decide

end Project

end Installer
