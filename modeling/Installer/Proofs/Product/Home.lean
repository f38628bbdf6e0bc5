import Installer.Proofs.Action.Run
import Installer.Proofs.Directory.Housed
import Installer.Proofs.Product.Pieces

/-! # Standalone components in the document

All components of standalone entities are in one directory of the document, and that directory had a
component before the first of them.  The dialogs are told the same directory: the search for it is
made again for them, in the finished product, and ends where it ended before.
-/

namespace Installer

open Markup (Element Focus)
open Markup.Element
open Emit

/-! ## Properties -/

/-- The property that tells the dialogs which directory is the installation directory. -/
def homeProperty (id : String) : Element :=
  { name := "Property", attrs := [("Id", "WIXUI_INSTALLDIR"), ("Value", id)] }

def Project.propertyElements (project : Project) : List Element :=
  (project.properties.filter fun property => !property.isRef).map Property.element

theorem Property.name_element (property : Property) : property.element.name = "Property" := by
  cases registry : property.registry <;> simp [element, registry]

theorem Property.name_of_emit {property : Property} {before after : Ledger} {result : Element}
    (given : property.emit.Gives before result after) :
    result.name ∈ ["Property", "PropertyRef"] := by
  rw [emit] at given
  split at given
  next =>
    split at given
    next => exact absurd given gives_fail
    next =>
      obtain ⟨rfl, -⟩ := gives_pure.mp given
      simp
  next =>
    obtain ⟨rfl, -⟩ := gives_pure.mp given
    simp [property.name_element]

theorem Property.filter_of_mapM {properties : List Property} {results : List Element}
    {before after : Ledger} (given : (properties.mapM emit).Gives before results after) :
    results.filter (fun x => x.name == "Property") =
      (properties.filter fun property => !property.isRef).map element := by
  induction properties generalizing before results with
  | nil =>
    obtain ⟨rfl, rfl⟩ := gives_mapM_nil.mp given
    rfl
  | cons property rest ih =>
    obtain ⟨result, between, others, first, later, rfl⟩ := gives_mapM_cons.mp given
    rw [emit] at first
    split at first
    next isRef =>
      split at first
      next => cases first
      next =>
        obtain ⟨rfl, -⟩ := gives_pure.mp first
        rw [List.filter_cons_of_neg (by simp), ih later, List.filter_cons_of_neg (by simp [isRef])]
    next defined =>
      obtain ⟨rfl, -⟩ := gives_pure.mp first
      rw [List.filter_cons_of_pos (by simp [name_element]), ih later,
        List.filter_cons_of_pos (by simpa using defined), List.map_cons]

theorem Binary.leaf_of_emit {c : Compilation} {before after : Ledger} {binary : Binary}
    {result : Element} (given : (binary.emit c).Gives before result after) :
    result.name = "Binary" ∧ result.elements = [] := by
  simp only [emit, gives_bind, gives_pure] at given
  obtain ⟨_, _, -, _, _, -, rfl, -⟩ := given
  simp

namespace Compilation

variable {c : Compilation} {before after : Ledger}

theorem filter_property_of_emitInterface {installRootId : Option String} {result : List Element}
    (given : (c.emitInterface installRootId).Gives before result after) :
    result.filter (fun x => x.name == "Property") =
      if c.project.ui = .installDir then installRootId.toList.map homeProperty else [] := by
  have dialogs : (c.dialogElements installRootId).filter (fun x => x.name == "Property") =
      if c.project.ui = .installDir then installRootId.toList.map homeProperty else [] := by
    rw [dialogElements]
    cases ui : c.project.ui <;> cases installRootId <;> simp [UiKind.dialogSet?, homeProperty]
  obtain ⟨between, -, given⟩ := gives_noteUnless given
  split at given
  next =>
    obtain ⟨rfl, -⟩ := gives_pure.mp given
    exact dialogs
  next =>
    simp only [gives_bind, gives_pure] at given
    obtain ⟨source, _, -, rfl, -⟩ := given
    -- the program of the project takes the place of a reference, not of a property
    have kept : ∀ x : Element, ((x.name == "Property") && (x.name != "UIRef")) =
        (x.name == "Property") := fun x => by
      by_cases named : x.name = "Property" <;> simp [named]
    rw [List.filter_append, List.filter_filter, ← dialogs]
    simp [kept]

/-! ## The names of pieces -/

/-- The pieces of a package have few names, directories and declarations apart. -/
structure Pieces.AreNamed (c : Compilation) (pieces : Pieces) : Prop where
  properties : ∀ x ∈ pieces.properties, x.name ∈ ["Property", "PropertyRef"]
  definitions : ∀ x ∈ pieces.actions.definitions, x.name ∈ ["CustomAction", "Binary"]
  binaries : ∀ x ∈ pieces.binaries, x.name ∈ ["Binary"]
  dialogs : ∀ x ∈ pieces.dialogs, x.name ∈ ["Property", "UIRef", "UI"]
  environment : ∀ x ∈ pieces.environment, x.name ∈ ["WixVariable"]
  upgrades : ∀ x ∈ c.upgradeElements.definitions, x.name ∈ ["Upgrade", "CustomAction"]

theorem name_emitInterface {installRootId : Option String} {result : List Element}
    (given : (c.emitInterface installRootId).Gives before result after) :
    ∀ x ∈ result, x.name ∈ ["Property", "UIRef", "UI"] := by
  have dialogs : ∀ x ∈ c.dialogElements installRootId, x.name ∈ ["Property", "UIRef", "UI"] := by
    rw [dialogElements]
    cases c.project.ui <;> cases installRootId <;> simp [UiKind.dialogSet?]
  obtain ⟨between, -, given⟩ := gives_noteUnless given
  split at given
  next =>
    obtain ⟨rfl, -⟩ := gives_pure.mp given
    exact dialogs
  next =>
    simp only [gives_bind, gives_pure] at given
    obtain ⟨source, _, -, rfl, -⟩ := given
    rw [List.forall_mem_append]
    exact ⟨fun x mem => dialogs x (List.mem_filter.mp mem).1, by simp⟩

theorem name_upgradeElements :
    ∀ x ∈ c.upgradeElements.definitions, x.name ∈ ["Upgrade", "CustomAction"] := by
  rw [upgradeElements]
  split
  next => simp
  next strategy _ =>
    simp only [UpgradeStrategy.elements, ActionElements.definitions_append,
      List.forall_mem_append, List.forall_mem_singleton]
    refine ⟨by simp [UpgradeStrategy.element], ?_⟩
    split
    next => simp
    next =>
      rw [ActionElements.definitions_append, List.forall_mem_append]
      refine ⟨?_, by simp⟩
      split <;> simp [UpgradeStrategy.guardElements]

theorem Pieces.AreGiven.areNamed {pieces : Pieces} (areGiven : pieces.AreGiven c before) :
    pieces.AreNamed c where
  properties := by
    obtain ⟨_, _, steps⟩ := areGiven.properties
    exact Yields.mapM (fun property _ _ _ _ given => property.name_of_emit given) _ _ _ steps
  definitions x mem := by
    obtain ⟨_, _, steps⟩ := areGiven.actions
    obtain ⟨_, run, -⟩ := CustomAction.isRun_of_emitAll steps
    rcases run.name_definitions x mem with named | named <;> simp [named]
  binaries := by
    obtain ⟨_, _, steps⟩ := areGiven.binaries
    refine Yields.mapM (fun binary _ _ result _ given => ?_) _ _ _ steps
    exact List.mem_singleton.mpr (binary.leaf_of_emit given).1
  dialogs := by
    obtain ⟨_, _, steps⟩ := areGiven.dialogs
    exact name_emitInterface steps
  environment x mem := by
    obtain ⟨id, path, rfl⟩ := exists_variableElement areGiven.environment x mem
    simp [variableElement]
  upgrades := name_upgradeElements

theorem filter_of_names {elements : List Element} {names : List String} {word : String}
    (named : ∀ x ∈ elements, x.name ∈ names) (other : word ∉ names) :
    elements.filter (fun x => x.name == word) = [] :=
  filter_name_eq_nil fun x mem same => other (same ▸ named x mem)

/-! ## The home in a document -/

/-- All components of standalone entities in the document are the given ones, which are in the
directory at `home` in the tree.  That is where the search ends in the tree, before each of them and
after the last one, and the directory had a component from the start. -/
structure BringsHome (c : Compilation) (tree document : Element) (home : Focus Element)
    (components : List Element) : Prop where
  isHome : home.IsHome tree
  directory : home.node.name = "Directory"
  owns : home.node.Owns
  oneByOne : components.foldl (fun tree x => tree.installRoot.modify (·.add x)) tree =
    home.put (home.node.addAll components)
  ids : components.map id? =
    c.project.standaloneBookings.map fun booking => some booking.componentId
  entities : document.entityComponents = components
  package : ∃ package, document.elements = [package] ∧
    package.elementsNamed "Directory" = [home.put (home.node.addAll components)] ∧
      (c.project.ui = .installDir → ∃ id, home.node.id? = some id ∧
        package.elementsNamed "Property" = c.project.propertyElements ++ [homeProperty id])

/-- The properties of a package are those that the project defines and the one for the dialogs. -/
theorem properties_of_hasChildren {package : Element} {pieces : Pieces}
    (areGiven : pieces.AreGiven c before)
    (has : package.HasChildren (pieces.parts c) (pieces.entries c)) :
    package.elementsNamed "Property" = c.project.propertyElements ++
      if c.project.ui = .installDir then
        (c.homeId? pieces.standalone.components).toList.map homeProperty else [] := by
  obtain ⟨_, _, propertySteps⟩ := areGiven.properties
  obtain ⟨_, _, dialogSteps⟩ := areGiven.dialogs
  have named := areGiven.areNamed
  rw [has.named "Property" (by decide), areGiven.filter_parts (by decide)]
  simp only [List.filter_append,
    areGiven.filter_declarations (by decide : "Property" ∉ entityWords),
    filter_of_names named.definitions (by decide : "Property" ∉ _),
    filter_of_names named.binaries (by decide : "Property" ∉ _),
    filter_of_names named.environment (by decide : "Property" ∉ _),
    filter_of_names named.upgrades (by decide : "Property" ∉ _),
    Property.filter_of_mapM propertySteps, filter_property_of_emitInterface dialogSteps,
    List.nil_append, List.append_nil]
  rfl

/-- The binaries of a package are those of its actions and its own. -/
theorem binaries_of_hasChildren {package : Element} {pieces : Pieces}
    (areGiven : pieces.AreGiven c before)
    (has : package.HasChildren (pieces.parts c) (pieces.entries c)) :
    package.elementsNamed "Binary" =
      pieces.actions.definitions.filter (fun x => x.name == "Binary") ++ pieces.binaries := by
  have named := areGiven.areNamed
  have own : pieces.binaries.filter (fun x => x.name == "Binary") = pieces.binaries :=
    List.filter_eq_self.mpr fun x mem => by simpa using named.binaries x mem
  rw [has.named "Binary" (by decide), areGiven.filter_parts (by decide)]
  simp only [List.filter_append, areGiven.filter_declarations (by decide : "Binary" ∉ entityWords),
    filter_of_names named.properties (by decide : "Binary" ∉ _), own,
    filter_of_names named.dialogs (by decide : "Binary" ∉ _),
    filter_of_names named.environment (by decide : "Binary" ∉ _),
    filter_of_names named.upgrades (by decide : "Binary" ∉ _), List.nil_append, List.append_nil]

/-- The actions of a package are those of its project, and the one of its upgrades. -/
theorem customActions_of_hasChildren {package : Element} {pieces : Pieces}
    (areGiven : pieces.AreGiven c before)
    (has : package.HasChildren (pieces.parts c) (pieces.entries c)) :
    package.elementsNamed "CustomAction" =
      pieces.actions.definitions.filter (fun x => x.name == "CustomAction") ++
        c.upgradeElements.definitions.filter fun x => x.name == "CustomAction" := by
  have named := areGiven.areNamed
  rw [has.named "CustomAction" (by decide), areGiven.filter_parts (by decide)]
  simp only [List.filter_append,
    areGiven.filter_declarations (by decide : "CustomAction" ∉ entityWords),
    filter_of_names named.properties (by decide : "CustomAction" ∉ _),
    filter_of_names named.binaries (by decide : "CustomAction" ∉ _),
    filter_of_names named.dialogs (by decide : "CustomAction" ∉ _),
    filter_of_names named.environment (by decide : "CustomAction" ∉ _), List.nil_append,
    List.append_nil]

/-- What is found neither in the tree nor as a directory is found in standalone components only. -/
theorem filter_root {q : Element → Bool} (components : List Element)
    (sees : ∀ x y : Element, x.tag = y.tag → x.elements.map tag = y.elements.map tag → q x = q y)
    (directory : ∀ x : Element, x.name = "Directory" → q x = false)
    (nothing : c.tree.subtree.filter q = []) :
    (c.root components).subtree.filter q =
      components.flatMap fun x => x.subtree.filter q := by
  have place : c.tree.installRoot.IsPlace c.tree := isPlace_installRoot c.tree
  have hidden : ¬ q (c.tree.installRoot.node.addAll components) = true := by
    rw [directory _ (by rw [name_addAll, name_installRoot name_tree])]
    exact Bool.false_ne_true
  have clean : Everywhere (fun x => ¬ q x = true) c.tree := List.filter_eq_nil_iff.mp nothing
  have old : c.tree.installRoot.node.elements.flatMap (fun x => x.subtree.filter q) = [] :=
    List.flatMap_eq_nil_iff.mpr fun x mem =>
      List.filter_eq_nil_iff.mpr ((place.everywhere_node clean).child mem)
  have whole := place.filter_put (e := c.tree.installRoot.node.addAll components) sees nothing rfl
  refine whole.trans ?_
  rw [filter_subtree, if_neg hidden, elements_addAll, List.flatMap_append, old]
  rfl

/-- Nothing but standalone components holds entities in the tree of directories. -/
theorem entityComponents_root {components : List Element}
    (entities : ∀ x ∈ components, x.IsEntityComponent) :
    (c.root components).entityComponents = components := by
  have alone : ∀ components : List Element, (∀ x ∈ components, x.IsEntityComponent) →
      components.flatMap entityComponents = components := by
    intro components entities
    induction components with
    | nil => rfl
    | cons x rest ih =>
      rw [List.forall_mem_cons] at entities
      rw [List.flatMap_cons, entities.1.entityComponents, ih entities.2, List.singleton_append]
  have found := filter_root components
    (fun x y same inside => decide_eq_decide.mpr (holdsEntity_congr same inside))
    (fun x named => decide_eq_false fun holds => absurd (named ▸ holds.name_eq) (by decide))
    (IsTreePart.entityComponents (isTreePart_tree c))
  exact found.trans (alone components entities)

/-- In the document components of entities are in the root directory only. -/
theorem entityComponents_document {document package root : Element}
    (name : document.name ≠ "Component") (single : document.elements = [package])
    (holds : package.HoldsRoot root) : document.entityComponents = root.entityComponents := by
  have outer : package.name ≠ "Component" := fun equal => holds.name_eq (by simp [equal])
  rw [entityComponents_eq name, single, List.flatMap_singleton, entityComponents_eq outer]
  exact holds.flatMap_elements fun x aside =>
    entityComponents_of_only (aside.only "Component" (by decide))

theorem ids_of_madeFor {bookings : List Booking} {components : List Element}
    (made : MadeFor bookings components [])
    (entities : ∀ x ∈ components, x.IsEntityComponent) :
    components.map id? = bookings.map fun booking => some booking.componentId := by
  rw [← made.componentIds]
  clear made
  induction components with
  | nil => rfl
  | cons x rest ih =>
    rw [List.forall_mem_cons] at entities
    have inside : x.elements.flatMap (idsNamed "Component") = [] :=
      List.flatMap_eq_nil_iff.mpr fun child mem =>
        idsNamed_of_only (entities.1.only_inside child mem)
    rw [List.map_cons, List.flatMap_cons, ih entities.2, idsNamed_eq_flatMap,
      if_pos entities.1.name_eq, inside, List.append_nil, List.singleton_append]

theorem exists_id_installRoot : ∃ id, c.tree.installRoot.node.id? = some id := by
  have tidy : Tidy c.tree := extended_tree.tidy
  obtain ⟨path, isAt⟩ := (isPlace_installRoot c.tree).exists_isAt tidy (name_installRoot name_tree)
  have leads := isAt.follow
  rcases List.eq_nil_or_concat' path with rfl | ⟨front, id, rfl⟩
  · rw [follow?, Option.some.injEq] at leads
    rw [← leads]
    exact ⟨Dir.rootId, id?_eq_of_tag tag_tree⟩
  · exact ⟨id, follow?_id leads⟩

theorem bringsHome_of_made {document package : Element} {ledger : Ledger} {pieces : Pieces}
    (some_ : c.project.dirs ≠ []) (made : c.Made document ledger)
    (single : document.elements = [package]) (areGiven : pieces.AreGiven c before)
    (has : package.HasChildren (pieces.parts c) (pieces.entries c)) :
    c.BringsHome c.tree document c.tree.installRoot pieces.standalone.components := by
  obtain ⟨_, _, standaloneSteps⟩ := areGiven.standalone
  obtain ⟨areFor, -⟩ := gives_emitStandalone standaloneSteps
  have entities := areGiven.areEntities.components
  have owns : c.tree.installRoot.node.Owns :=
    (Markup.Focus.isHome_installRoot c.tree).owns (housed_tree some_) name_tree
  obtain ⟨oneByOne, stays⟩ := foldl_modify_installRoot owns pieces.standalone.components
  obtain ⟨extensions, package', components, rfl, -, holds⟩ := made.holdsRoot
  obtain rfl : package' = package := List.singleton_inj.mp (elements_document.symm.trans single)
  -- the root of the document is the one that the pieces give
  have root : c.root pieces.standalone.components = c.root components := by
    have among : c.root pieces.standalone.components ∈ package'.elementsNamed "Directory" := by
      rw [has.named "Directory" (by decide)]
      refine List.mem_filter.mpr ⟨by simp [Pieces.parts], ?_⟩
      simp [areGiven.name_root]
    simpa [holds.directories] using among
  rw [← root] at holds
  refine ⟨Markup.Focus.isHome_installRoot c.tree, name_installRoot name_tree, owns, oneByOne,
    ids_of_madeFor areFor.made entities, ?_, package', elements_document, holds.directories,
    fun ui => ?_⟩
  · have name : ((rootElement extensions).add package').name ≠ "Component" := by
      simp [rootElement]
    rw [entityComponents_document name elements_document holds, entityComponents_root entities]
  · obtain ⟨id, found⟩ := exists_id_installRoot (c := c)
    have home : c.homeId? pieces.standalone.components = some id := by
      rw [homeId?, Compilation.root, stays]
      exact found
    refine ⟨id, found, ?_⟩
    rw [properties_of_hasChildren areGiven has, if_pos ui, home]
    rfl

end Compilation

/-! ## Compiling a project -/

/-- A project that compiles has a compilation with pieces, and it brings them home. -/
theorem Project.exists_pieces {project : Project} {options : Options} {output : Output}
    (compiled : project.compile options = .ok output) :
    ∃ c ledger pieces, Compilation.ofProject options (project.prepare options).project = .ok c ∧
      c.Made output.document ledger ∧ c.project.dirs ≠ [] ∧
      Compilation.Pieces.AreGiven c { ids := (project.prepare options).ids } pieces ∧
      c.BringsHome c.tree output.document c.tree.installRoot pieces.standalone.components := by
  obtain ⟨c, ledger, start, given, made⟩ := Project.made_of_compile compiled
  obtain ⟨package, pieces, single, areGiven, has⟩ :=
    Compilation.hasChildren_of_emitDocument rfl given
  have some_ : c.project.dirs ≠ [] := by
    rw [(Compilation.project_of_ofProject start).1]
    exact project.dirs_prepare_ne_nil options
  exact ⟨c, ledger, pieces, start, made, some_, areGiven,
    Compilation.bringsHome_of_made some_ made single areGiven has⟩

theorem Project.exists_bringsHome {project : Project} {options : Options} {output : Output}
    (compiled : project.compile options = .ok output) :
    ∃ c ledger after components,
      Compilation.ofProject options (project.prepare options).project = .ok c ∧
        c.Made output.document ledger ∧ c.project.dirs ≠ [] ∧
        (Dir.emitTree c).Gives { ids := (project.prepare options).ids } c.tree after ∧
        c.BringsHome c.tree output.document c.tree.installRoot components := by
  obtain ⟨c, ledger, pieces, start, made, some_, areGiven, home⟩ := Project.exists_pieces compiled
  obtain ⟨after, treeSteps⟩ := areGiven.tree
  exact ⟨c, ledger, after, _, start, made, some_, treeSteps, home⟩

/-- The standalone components of a compiled project are all at home, in a directory that had a
component before.  No directory without subdirectories is left without a component. -/
theorem Project.bringsHome_of_compile {project : Project} {options : Options} {output : Output}
    (compiled : project.compile options = .ok output) :
    ∃ c after tree home components,
      Compilation.ofProject options (project.prepare options).project = .ok c ∧
        (Dir.emitTree c).Gives { ids := (project.prepare options).ids } tree after ∧
        (∀ d ∈ tree.subtree, d.name = "Directory" → (∀ x ∈ d.elements, x.name ≠ "Directory") →
          d.Owns) ∧
        c.BringsHome tree output.document home components := by
  obtain ⟨c, ledger, after, components, start, -, some_, treeSteps, bringsHome⟩ :=
    Project.exists_bringsHome compiled
  exact ⟨c, after, c.tree, _, components, start, treeSteps,
    fun d mem directory leaf => (Compilation.housed_tree some_).owns_of_leaf mem directory leaf,
    bringsHome⟩

/-- A project with entities of all kinds, whose only files are two directories down. -/
def Project.furnished : Project where
  name := "App"
  ui := .installDir
  dirs := [⟨{ name := "%ProgramFiles%\\App" },
    [⟨{ name := "bin", files := [{ name := "app.exe" }] }, []⟩,
     ⟨{ name := "docs" }, []⟩]⟩]
  regValues := [{ root := .localMachine, key := "Software\\App" }]
  envVars := [{ name := "APP_HOME", value := "[INSTALLDIR]" }]
  users := [{ name := "reader" }, { name := "writer", createUser := some true }]
  sqlDatabases :=
    [{ database := "Log", server := "local", strings := [{ sql := "DELETE FROM Log" }],
       scripts := [{ binaryKey := "Setup" }] },
     { database := "App", server := "local", createOnInstall := some true,
       strings := [{ sql := "CREATE TABLE Log" }] }]
  certificates :=
    [{ name := "App", storeLocation := "localMachine", storeName := "root",
       certificatePath := some "app.cer" }]

theorem Project.bringsHome_furnished :
    ∃ output c after tree home components, Project.furnished.compile {} = .ok output ∧
      (Dir.emitTree c).Gives { ids := (Project.furnished.prepare {}).ids } tree after ∧
      c.BringsHome tree output.document home components ∧
      components.map id? = ["Registry1", "EnvVars1", "User1", "SqlString1", "SqlScript1",
        "SqlDatabase1", "Certificate1"].map some := by
  obtain ⟨output, compiled⟩ := Project.exists_output
    (by decide +kernel : (Project.furnished.compile {}).isOk = true)
  obtain ⟨c, after, tree, home, components, start, treeSteps, -, bringsHome⟩ :=
    Project.bringsHome_of_compile compiled
  refine ⟨output, c, after, tree, home, components, compiled, treeSteps, bringsHome, ?_⟩
  rw [bringsHome.ids, (Compilation.project_of_ofProject start).1]
  decide +kernel

end Installer
