import Installer.Output
import Installer.Proofs.Component.Standalone
import Installer.Proofs.Directory.Location
import Installer.Proofs.Directory.Shape
import Installer.Proofs.Emit.Ids
import Installer.Proofs.Product.Features

/-! # The document of a compilation

A compilation that succeeds has written the bookings of the directories and those of the standalone
entities, in this order, and its document is a product or a merge module around one root directory.
That root is the tree of directories with the standalone components in the installation directory.
-/

namespace Installer

open Markup (Element Focus)
open Markup.Element
open Emit

namespace Compilation

def bookings (c : Compilation) : List Booking :=
  c.treeBookings ++ c.project.standaloneBookings

/-- The tree of directories with the standalone components in it. -/
def root (c : Compilation) (components : List Element) : Element :=
  c.tree.installRoot.modify (·.addAll components)

variable {c : Compilation} {before after : Ledger}

/-! ## The tree -/

theorem tidy_emptyRoot : Tidy emptyRoot :=
  tidy_iff.mpr ⟨tidyTags_of_none rfl, by simp [emptyRoot]⟩

theorem placed_declaredTree :
    Placed c c.project.dirs (Dir.bookingsAll c c.project.dirs emptyRoot) emptyRoot c.declaredTree :=
  Dir.placed_placeAll tidy_emptyRoot rfl

theorem hasDeclared_declaredTree : Dir.HasDeclared c c.declaredTree := by
  intro entry mem
  have found : entry.2 ∈ Dir.atPath c.project.dirs entry.1 := Dir.mem_atPath.mpr mem
  have some_ : Dir.fileComponents? c (Dir.atPath c.project.dirs entry.1) ≠ none := by
    cases dirs : Dir.atPath c.project.dirs entry.1 with
    | nil => simp [dirs] at found
    | cons dir rest => simp [Dir.fileComponents?]
  obtain ⟨held, held_eq⟩ := Option.ne_none_iff_exists'.mp some_
  rw [placed_declaredTree.filesAt, held_eq]
  cases emptyRoot.filesAt? entry.1 <;> rfl

/-- The id path belongs to a directory made for one of the shortcut locations that no directory is
declared for. -/
def IsUndeclaredPath (c : Compilation) (path : List String) : Prop :=
  ∃ entry ∈ c.undeclaredLocations, c.IsLocationPath entry.1 path

theorem extended_tree :
    Extended c.IsUndeclaredPath (Dir.locationsBookings c c.declaredTree c.undeclaredLocations)
      c.declaredTree c.tree :=
  Dir.extended_placeLocations placed_declaredTree.tidy
    (name_eq_of_tag (placed_declaredTree (c := c)).tag) hasDeclared_declaredTree _

theorem tag_tree : c.tree.tag = emptyRoot.tag :=
  extended_tree.tag.trans placed_declaredTree.tag

theorem name_tree : c.tree.name = "Directory" :=
  name_eq_of_tag tag_tree

/-! ## The root -/

section Root

variable {components : List Element}

/-- The standalone components bring no directories. -/
theorem extended_installRoot (made : MadeFor c.project.standaloneBookings components []) :
    Extended (fun _ => False) c.project.standaloneBookings c.tree (c.root components) := by
  have place : c.tree.installRoot.IsPlace c.tree := isPlace_installRoot c.tree
  have tidy : Tidy c.tree := extended_tree.tidy
  have added : Extended (fun _ => False) c.project.standaloneBookings c.tree.installRoot.node
      (c.tree.installRoot.node.addAll components) := .addAll (place.everywhere_node tidy) made
  obtain ⟨front, -, extended⟩ := added.within place tidy (name_installRoot name_tree)
  exact extended.mono fun path ⟨_, _, impossible⟩ => impossible

/-- The root is what the declared directories give, extended by directories for shortcut locations
and by the standalone components. -/
theorem extended_root (made : MadeFor c.project.standaloneBookings components []) :
    Extended c.IsUndeclaredPath
      (Dir.locationsBookings c c.declaredTree c.undeclaredLocations ++
        c.project.standaloneBookings) c.declaredTree (c.root components) :=
  extended_tree.trans ((extended_installRoot made).mono fun _ impossible => impossible.elim)

theorem tag_root (made : MadeFor c.project.standaloneBookings components []) :
    (c.root components).tag = emptyRoot.tag :=
  (extended_root made).tag.trans placed_declaredTree.tag

/-- Each booking has its component in the root. -/
theorem componentIds_root (made : MadeFor c.project.standaloneBookings components []) :
    ((c.root components).idsNamed "Component").Perm
      (c.bookings.map fun booking => some booking.componentId) := by
  have declared := (placed_declaredTree (c := c)).componentIds
  rw [show emptyRoot.idsNamed "Component" = [] from rfl, List.nil_append] at declared
  rw [bookings, treeBookings, List.append_assoc, List.map_append]
  exact (extended_root made).componentIds.trans (declared.append_right _)

theorem fileIds_root (made : MadeFor c.project.standaloneBookings components []) :
    ((c.root components).idsNamed "File").Perm
      (heldFileIds (Dir.allFileComponents c c.project.dirs)) := by
  have declared := (placed_declaredTree (c := c)).fileIds
  rw [show emptyRoot.idsNamed "File" = [] from rfl, List.nil_append] at declared
  exact (extended_root made).fileIds.trans declared

theorem noFeature_root (made : MadeFor c.project.standaloneBookings components []) :
    Only (· ≠ "Feature") (c.root components) := by
  have none := (extended_root made).featureIds.trans (placed_declaredTree (c := c)).featureIds
  rw [show emptyRoot.idsNamed "Feature" = [] from rfl, List.perm_nil] at none
  exact only_of_idsNamed none

end Root

/-! ## The product -/

theorem plain_productElement (c : Compilation) :
    Plain (c.productElement.addAll (c.project.launchConditions.map LaunchCondition.element)) := by
  rw [Plain, only_addAll, List.forall_mem_map, only_iff]
  refine ⟨⟨by simp [productElement], ?_⟩, fun x _ => (isBasicPart_launchCondition x).plain⟩
  simp only [productElement, elements_addAll, elements_withAttrs, elements_attr?,
    elements_mk_nil, List.forall_mem_append, List.forall_mem_cons]
  exact ⟨by simp, (isBasicPart_package c).plain, (isBasicPart_media c).plain, by simp⟩

theorem gives_emitInstalled {product : Element} (fresh : before.locations = [])
    (given : c.emitInstalled.Gives before product after) :
    ∃ components, MadeFor c.project.standaloneBookings components [] ∧
      product.IsProduct (c.root components) [] ∧
      after.components = before.components ++ c.bookings.map Booking.line ∧
      ∀ booking ∈ c.bookings, ∀ name, booking.feature = some name →
        (c.project.feature? name).isSome = true := by
  simp only [emitInstalled, gives_bind, gives_pure] at given
  obtain ⟨tree, between, treeSteps, standalone, _, standaloneSteps, rfl, rfl⟩ := given
  obtain ⟨rfl, treeComponents, treeDeclared⟩ := Dir.gives_emitTree fresh treeSteps
  obtain ⟨areFor, books⟩ := gives_emitStandalone standaloneSteps
  refine ⟨standalone.components, areFor.made, ?_, ?_, ?_⟩
  · have directory : (c.root standalone.components).name = "Directory" :=
      name_eq_of_tag (tag_root areFor.made)
    rw [addAll_cons]
    exact (IsProduct.of_plain (plain_productElement c) directory
      (noFeature_root areFor.made)).addPlain areFor.plain
  · rw [books.components, treeComponents, bookings, List.map_append, List.append_assoc]
  · rw [bookings, List.forall_mem_append]
    exact ⟨treeDeclared, books.declared⟩

/-- Puts everything else into the product, apart from references to merge modules and upgrades. -/
def emitFilledWith (c : Compilation) (installed : Element) : Emit Element := do
  let properties ← c.project.properties.mapM Property.emit
  let actions ← CustomAction.emitAll c
  let binaries ← c.project.binaries.mapM (Binary.emit c)
  let features := c.project.featureElements (← get)
  let dialogs ← c.emitInterface installed.installRootId?
  let environment ← liftM c.variableElements
  return ((installed.addAll properties).addActions actions).addAll
    (binaries ++ features ++ dialogs ++ environment)

/-- Makes the product before merge modules are referred to. -/
def emitFilled (c : Compilation) : Emit Element := do
  emitFilledWith c (← c.emitInstalled)

/-- The actions of upgrades are put into a product in the end. -/
def withUpgrade (c : Compilation) (product : Element) : Element :=
  match c.project.upgradeStrategy with
  | none => product
  | some strategy => product.addActions (strategy.elements c)

/-- A product is filled, then its merge modules are referred to, and in the end come the upgrades.
-/
theorem gives_emitProduct_iff {product : Element} :
    c.emitProduct.Gives before product after ↔ ∃ filled wired,
      c.emitFilled.Gives before filled after ∧
        c.project.wireMergeModules after filled = .ok wired ∧ product = c.withUpgrade wired := by
  have steps : c.emitProduct = do
      let product ← c.emitFilled
      let product ← liftM (c.project.wireMergeModules (← get) product)
      return c.withUpgrade product := by
    simp only [emitProduct, emitFilled, emitFilledWith, withUpgrade, bind_assoc, pure_bind]
    cases c.project.upgradeStrategy <;> rfl
  rw [steps]
  simp only [gives_bind, gives_get, gives_liftM, gives_pure]
  constructor
  · rintro ⟨filled, _, filledSteps, _, _, ⟨rfl, rfl⟩, wired, _, ⟨wiring, rfl⟩, rfl, rfl⟩
    exact ⟨filled, wired, filledSteps, wiring, rfl⟩
  · rintro ⟨filled, wired, filledSteps, wiring, rfl⟩
    exact ⟨filled, _, filledSteps, _, _, ⟨rfl, rfl⟩, wired, _, ⟨wiring, rfl⟩, rfl, rfl⟩

/-- What is put into a product beside its directories and its features. -/
structure Filling where
  properties : List Element
  actions : ActionElements
  binaries : List Element
  dialogs : List Element
  environment : List Element

namespace Filling

/-- Each is given by its step of the compilation. -/
structure IsGiven (c : Compilation) (installRootId : Option String) (filling : Filling) : Prop where
  properties : ∃ before after,
    (c.project.properties.mapM Property.emit).Gives before filling.properties after
  actions : ∃ before after, (CustomAction.emitAll c).Gives before filling.actions after
  binaries : ∃ before after,
    (c.project.binaries.mapM (Binary.emit c)).Gives before filling.binaries after
  dialogs : ∃ before after, (c.emitInterface installRootId).Gives before filling.dialogs after
  environment : c.variableElements = .ok filling.environment

/-- Actions and binaries find the ids of their kinds as they are in the ledger `start`. -/
structure Draws (c : Compilation) (start : Ledger) (filling : Filling) : Prop where
  actions : ∃ before after, (CustomAction.emitAll c).Gives before filling.actions after ∧
    start.SameIds .action before
  binaries : ∃ before after,
    (c.project.binaries.mapM (Binary.emit c)).Gives before filling.binaries after ∧
      start.SameIds .binary before

structure AreParts (filling : Filling) : Prop where
  properties : ∀ x ∈ filling.properties, x.IsBasicPart
  actions : filling.actions.AreParts
  binaries : ∀ x ∈ filling.binaries, x.IsBasicPart
  dialogs : ∀ x ∈ filling.dialogs, x.IsPart
  environment : ∀ x ∈ filling.environment, x.IsBasicPart

def fill (filling : Filling) (installed : Element) (features : List Element) : Element :=
  (((((installed.addAll filling.properties).addActions filling.actions).addAll
    filling.binaries).addAll features).addAll filling.dialogs).addAll filling.environment

end Filling

theorem gives_emitFilledWith {installed product : Element}
    (given : (c.emitFilledWith installed).Gives before product after) :
    ∃ filling : Filling, filling.IsGiven c installed.installRootId? ∧ filling.AreParts ∧
      product = filling.fill installed (c.project.featureElements after) ∧
      Ledger.Books c.project before after [] [] ∧ filling.Draws c before := by
  simp only [emitFilledWith, gives_bind, gives_get, gives_liftM, gives_pure] at given
  obtain ⟨properties, _, propertySteps, actions, _, actionSteps, binaries, _, binarySteps, _,
    built, ⟨rfl, rfl⟩, dialogs, last, dialogSteps, environment, _, ⟨pictures, rfl⟩, rfl,
    rfl⟩ := given
  obtain ⟨propertyParts, propertyBooks⟩ : _ ∧ Ledger.Books c.project _ _ [] [] :=
    gives_mapM_basicParts (fun _ _ _ _ => Property.gives_emit) propertySteps
  obtain ⟨actionParts, actionBooks⟩ : _ ∧ Ledger.Books c.project _ _ [] [] :=
    CustomAction.gives_emitAll actionSteps
  obtain ⟨binaryParts, binaryBooks⟩ : _ ∧ Ledger.Books c.project _ _ [] [] :=
    gives_mapM_basicParts (fun _ _ _ _ => Binary.gives_emit) binarySteps
  obtain ⟨dialogParts, dialogBooks⟩ : _ ∧ Ledger.Books c.project _ _ [] [] :=
    gives_emitInterface dialogSteps
  -- nothing is booked between the making of the features and the end
  have features : c.project.featureElements built = c.project.featureElements last :=
    Project.featureElements_congr (by rw [dialogBooks.components]; simp)
  have toActions {kind : IdKind} : before.SameIds kind _ :=
    Within.mapM Property.keepsIds_emit _ _ _ _ propertySteps
  have toBinaries : before.SameIds .binary _ :=
    toActions.trans (CustomAction.keepsIds_emitAll (by decide) _ _ _ actionSteps)
  refine ⟨⟨properties, actions, binaries, dialogs, environment⟩, ?_, ?_, ?_, ?_,
    ⟨⟨_, _, actionSteps, toActions⟩, ⟨_, _, binarySteps, toBinaries⟩⟩⟩
  · exact ⟨⟨_, _, propertySteps⟩, ⟨_, _, actionSteps⟩, ⟨_, _, binarySteps⟩, ⟨_, _, dialogSteps⟩,
      pictures⟩
  · exact ⟨propertyParts, actionParts, binaryParts, dialogParts,
      isBasicPart_variableElements pictures⟩
  · rw [features, addAll_append, addAll_append, addAll_append]
    rfl
  · exact ((propertyBooks.trans_nil actionBooks).trans_nil binaryBooks).trans_nil dialogBooks

theorem gives_emitFilled {product : Element} (fresh : before.locations = [])
    (given : c.emitFilled.Gives before product after) :
    ∃ components, MadeFor c.project.standaloneBookings components [] ∧
      product.IsProduct (c.root components)
        ((c.project.featureElements after).flatMap featureEntries) ∧
      after.components = before.components ++ c.bookings.map Booking.line ∧
      ∀ booking ∈ c.bookings, ∀ name, booking.feature = some name →
        (c.project.feature? name).isSome = true := by
  simp only [emitFilled, gives_bind] at given
  obtain ⟨installed, _, installSteps, fillSteps⟩ := given
  obtain ⟨components, made, start, written, declared⟩ := gives_emitInstalled fresh installSteps
  obtain ⟨filling, -, parts, rfl, books, -⟩ := gives_emitFilledWith fillSteps
  refine ⟨components, made, ?_, by rw [books.components, written]; simp, declared⟩
  have withActions := (start.addBasicParts parts.properties).addActions parts.actions
  have withFeatures := (withActions.addBasicParts parts.binaries).addFeatures
    (c.project.aside_featureElements after)
  rw [List.nil_append] at withFeatures
  exact (withFeatures.addParts parts.dialogs).addBasicParts parts.environment

theorem gives_emitProduct {product : Element} (fresh : before.locations = [])
    (given : c.emitProduct.Gives before product after) :
    ∃ components later, MadeFor c.project.standaloneBookings components [] ∧
      product.IsProduct (c.root components)
        ((c.project.featureElements after).flatMap featureEntries ++ later) ∧
      (∀ entry ∈ later, ∃ name feature, c.project.feature? name = some feature ∧
        entry = feature.entry []) ∧
      after.components = before.components ++ c.bookings.map Booking.line ∧
      ∀ booking ∈ c.bookings, ∀ name, booking.feature = some name →
        (c.project.feature? name).isSome = true := by
  obtain ⟨filled, wired, filledSteps, wiring, rfl⟩ := gives_emitProduct_iff.mp given
  obtain ⟨components, made, isProduct, ledger, declared⟩ := gives_emitFilled fresh filledSteps
  obtain ⟨later, wiredProduct, undeclared⟩ := isProduct.wireMergeModules wiring
  refine ⟨components, later, made, ?_, undeclared, ledger, declared⟩
  rw [withUpgrade]
  split
  next => exact wiredProduct
  next strategy _ => exact wiredProduct.addActions strategy.areParts_elements

/-! ## The document -/

theorem elements_document {extensions : List Extension} {package : Element} :
    ((rootElement extensions).add package).elements = [package] := by
  simp [rootElement]

/-- What a successful compilation leaves behind: a document around one root directory, and a ledger
with the bookings. -/
structure Made (c : Compilation) (document : Element) (ledger : Ledger) : Prop where
  holdsRoot : ∃ extensions package components,
    document = (rootElement extensions).add package ∧
      MadeFor c.project.standaloneBookings components [] ∧ package.HoldsRoot (c.root components)
  components : ledger.components = c.bookings.map Booking.line
  declared : ∀ booking ∈ c.bookings, ∀ name, booking.feature = some name →
    (c.project.feature? name).isSome = true
  features : c.options.outputType = .msi → ∃ later,
    ((document.descendantsNamed "Feature").map featureEntry).Perm
        ((c.project.featureElements ledger).flatMap featureEntries ++ later) ∧
      ∀ entry ∈ later, ∃ name feature, c.project.feature? name = some feature ∧
        entry = feature.entry []

theorem gives_emitDocument {document : Element} (fresh : before.locations = [])
    (none : before.components = []) (given : c.emitDocument.Gives before document after) :
    c.Made document after := by
  simp only [emitDocument, gives_bind, gives_get, gives_pure] at given
  obtain ⟨product, _, productSteps, _, _, ⟨rfl, rfl⟩, rfl, rfl⟩ := given
  obtain ⟨components, later, made, isProduct, undeclared, written, declared⟩ :=
    gives_emitProduct fresh productSteps
  refine ⟨⟨_, _, components, rfl, made, ?_⟩, by rw [written, none, List.nil_append], declared,
    fun msi => ⟨later, ?_, undeclared⟩⟩
  · split
    next => exact isProduct.holds.reorder
    next => exact isProduct.holds.reorder.moduleElement c
  · rw [msi]
    exact isProduct.has.reorder.entries_document _

namespace Made

variable {document : Element} {ledger : Ledger}

/-- Directories, components and files of the document are those of the root directory. -/
theorem idsNamed_eq {extensions : List Extension} {package root : Element}
    (holds : package.HoldsRoot root) (name : String)
    (inner : name ∈ ["Directory", "Component", "File"]) :
    (((rootElement extensions).add package).descendantsNamed name).map id? =
      root.idsNamed name := by
  have other : (rootElement extensions).name ≠ name := by
    rintro rfl
    simp [rootElement] at inner
  -- the root element with its extensions is not counted
  have plain : (rootElement extensions).idsNamed name = [] := by
    refine idsNamed_of_only (only_iff.mpr ⟨other, ?_⟩)
    simp [rootElement]
  have other' : ((rootElement extensions).add package).name ≠ name := other
  rw [← idsNamed_of_name_ne other', idsNamed_add, plain, List.nil_append, holds.idsNamed_eq inner]

/-- The directories of the document are the root and those at the places in it. -/
theorem directoryIds (made : c.Made document ledger) :
    ∃ components, MadeFor c.project.standaloneBookings components [] ∧
      (document.descendantsNamed "Directory").map id? =
        some Dir.rootId :: (c.root components).places.map List.getLast? := by
  obtain ⟨extensions, package, components, rfl, madeFor, holds⟩ := made.holdsRoot
  refine ⟨components, madeFor, ?_⟩
  have tidy : Tidy (c.root components) := (extended_root madeFor).tidy
  have name : (c.root components).name = "Directory" := name_eq_of_tag (tag_root madeFor)
  have rootId : (c.root components).id? = some Dir.rootId := id?_eq_of_tag (tag_root madeFor)
  rw [idsNamed_eq holds "Directory" (by decide), idsNamed, subtree,
    List.filter_cons_of_pos (by simp [name]), List.map_cons, rootId, ← tidy.directoryIds_eq]
  rfl

/-- The components of the document are those of the bookings. -/
theorem componentIds (made : c.Made document ledger) :
    ((document.descendantsNamed "Component").map id?).Perm
      (c.bookings.map fun booking => some booking.componentId) := by
  obtain ⟨extensions, package, components, rfl, madeFor, holds⟩ := made.holdsRoot
  rw [idsNamed_eq holds "Component" (by decide)]
  exact componentIds_root madeFor

/-- The files of the document are those of the declared directories. -/
theorem fileIds (made : c.Made document ledger) :
    ((document.descendantsNamed "File").map id?).Perm
      (heldFileIds (Dir.allFileComponents c c.project.dirs)) := by
  obtain ⟨extensions, package, components, rfl, madeFor, holds⟩ := made.holdsRoot
  rw [idsNamed_eq holds "File" (by decide)]
  exact fileIds_root madeFor

end Made

end Compilation

/-! ## Compiling a project -/

theorem Compilation.project_of_ofProject {options : Options} {project : Project} {c : Compilation}
    (start : ofProject options project = .ok c) : c.project = project ∧ c.options = options := by
  rw [ofProject] at start
  split at start
  next => cases start
  next =>
    cases start
    exact ⟨rfl, rfl⟩

/-- A project that compiles has a compilation that made the document. -/
theorem Project.made_of_compile {project : Project} {options : Options} {output : Output}
    (compiled : project.compile options = .ok output) :
    ∃ c ledger, Compilation.ofProject options (project.prepare options).project = .ok c ∧
      c.emitDocument.Gives { ids := (project.prepare options).ids } output.document ledger ∧
      c.Made output.document ledger := by
  simp only [compile, bind, Except.bind, pure, Except.pure] at compiled
  cases start : Compilation.ofProject options (project.prepare options).project with
  | error fault =>
    rw [start] at compiled
    cases compiled
  | ok c =>
    simp only [start] at compiled
    cases run : c.emitDocument.run { ids := (project.prepare options).ids } with
    | error fault =>
      rw [run] at compiled
      cases compiled
    | ok pair =>
      simp only [run] at compiled
      cases compiled
      exact ⟨c, pair.2, rfl, run, Compilation.gives_emitDocument rfl rfl run⟩

/-- What the output says beside the document is what the ledger says in the end. -/
theorem Project.ledger_of_compile {project : Project} {options : Options} {output : Output}
    {c : Compilation} {ledger : Ledger} (compiled : project.compile options = .ok output)
    (start : Compilation.ofProject options (project.prepare options).project = .ok c)
    (given : c.emitDocument.Gives { ids := (project.prepare options).ids } output.document
      ledger) :
    output.extensions = Extension.ordered ledger.extensions ∧
      output.packaging = ledger.packaging := by
  have run : c.emitDocument.run { ids := (project.prepare options).ids } =
      .ok (output.document, ledger) := given
  simp only [compile, start, run, bind, Except.bind, pure, Except.pure, Except.ok.injEq] at compiled
  rw [← compiled]
  exact ⟨rfl, rfl⟩

theorem Project.installDir_of_compile {project : Project} {options : Options} {output : Output}
    (compiled : project.compile options = .ok output) :
    output.installDir = (project.prepare options).installDir := by
  simp only [compile, bind, Except.bind, pure, Except.pure] at compiled
  split at compiled
  next => cases compiled
  next =>
    split at compiled
    next => cases compiled
    next =>
      cases compiled
      rfl

theorem Project.exists_output {project : Project} {options : Options}
    (succeeds : (project.compile options).isOk = true) :
    ∃ output, project.compile options = .ok output := by
  cases result : project.compile options with
  | ok output => exact ⟨output, rfl⟩
  | error fault =>
    rw [result] at succeeds
    cases succeeds

/-- A property that is computed for the output of a compilation holds of an output. -/
theorem Project.exists_output_of_any {project : Project} {options : Options} {p : Output → Bool}
    (holds : (project.compile options).toOption.any p = true) :
    ∃ output, project.compile options = .ok output ∧ p output = true := by
  cases result : project.compile options with
  | ok output =>
    rw [result] at holds
    exact ⟨output, rfl, holds⟩
  | error fault =>
    rw [result] at holds
    cases holds

end Installer
