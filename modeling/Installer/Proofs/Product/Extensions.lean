import Installer.Proofs.Directory.Granted
import Installer.Proofs.Product.Home
import Installer.Proofs.Product.Supplies

/-! # The extensions of a document

The name of an element that belongs to an extension has the prefix of the extension.  Whatever makes
such elements notes the extension, and the root element declares the prefixes of all extensions that
were noted in the end.  So no prefix in a document is undeclared.
-/

namespace Installer

open Markup (Element)
open Markup.Element
open Emit
open Ledger (admitsEntries_grows admitsIds_grows)

/-! ## Names that need an extension -/

/-- The prefix of a name, which stands before the first colon. -/
def Markup.qualifier? (name : String) : Option String :=
  if ':' ∈ name.toList then some (String.ofList (name.toList.takeWhile (· != ':'))) else none

/-- Elements of the given name can be used together with the extensions. -/
structure Extension.Allow (extensions : List Extension) (name : String) : Prop where
  qualifier : ∀ q ∈ Markup.qualifier? name,
    ∃ extension ∈ extensions, extension.elementPrefix? = some q
  dialogs : name = "UIRef" → .ui ∈ extensions

namespace Extension.Allow

variable {extensions : List Extension} {name : String}

theorem iff : Allow extensions name ↔
    (∀ q ∈ Markup.qualifier? name, ∃ extension ∈ extensions, extension.elementPrefix? = some q) ∧
      (name = "UIRef" → .ui ∈ extensions) :=
  ⟨fun allow => ⟨allow.qualifier, allow.dialogs⟩, fun both => ⟨both.1, both.2⟩⟩

instance : Decidable (Allow extensions name) :=
  decidable_of_iff' _ iff

theorem mono {more : List Extension} (included : extensions ⊆ more)
    (allow : Allow extensions name) : Allow more name where
  qualifier q mem := by
    obtain ⟨extension, used, named⟩ := allow.qualifier q mem
    exact ⟨extension, included used, named⟩
  dialogs named := included (allow.dialogs named)

/-- A name that needs no extension can be used with any. -/
theorem of_plain (plain : Allow [] name) : Allow extensions name :=
  plain.mono (List.nil_subset _)

theorem of_mem {extension : Extension} (used : extension ∈ extensions)
    (allow : Allow [extension] name) : Allow extensions name :=
  allow.mono (by simpa using used)

variable {words : List String}

theorem all_of_plain (plain : ∀ word ∈ words, Allow [] word) :
    ∀ word ∈ words, Allow extensions word :=
  fun word mem => .of_plain (plain word mem)

theorem all_of_mem {extension : Extension} (used : extension ∈ extensions)
    (allow : ∀ word ∈ words, Allow [extension] word) : ∀ word ∈ words, Allow extensions word :=
  fun word mem => .of_mem used (allow word mem)

end Extension.Allow

open Extension (Allow)

/-! ## What a project needs -/

namespace Compilation

variable {c : Compilation} {before after : Ledger} {extensions : List Extension}

/-- The extensions that the entities of the project need are among the given ones. -/
structure IsServedBy (c : Compilation) (extensions : List Extension) : Prop where
  permissions : Dir.readAll DirBody.granted c.project.dirs ≠ [] → .util ∈ extensions
  users : c.project.users ≠ [] → .util ∈ extensions
  databases : c.project.sqlDatabases ≠ [] → .sql ∈ extensions
  certificates : c.project.certificates ≠ [] → .iis ∈ extensions
  dialogs : c.project.ui.dialogSet? ≠ none → .ui ∈ extensions

/-! ### Where extensions are noted -/

/-- Each family of standalone entities notes its extension before its elements are made. -/
theorem extensions_of_emitStandalone {elements : StandaloneElements}
    (given : c.emitStandalone.Gives before elements after) :
    (c.project.users ≠ [] → .util ∈ after.extensions) ∧
      (c.project.sqlDatabases ≠ [] → .sql ∈ after.extensions) ∧
        (c.project.certificates ≠ [] → .iis ∈ after.extensions) := by
  simp only [emitStandalone, gives_bind, gives_pure] at given
  obtain ⟨_, _, -, _, _, -, _, _, needsUsers, _, _, userSteps, _, _, needsDatabases, _, _,
    databaseSteps, _, _, needsCertificates, _, _, certificateSteps, -, rfl⟩ := given
  have users := User.within_emitAll admitsEntries_grows (admitsIds_grows _) _ _ _ _ _ userSteps
  have sql := admitsEntries_grows.within_need _ _ _ _ _ needsDatabases
  have databases := SqlDatabase.within_emitAll admitsEntries_grows (admitsIds_grows _) _ _ _ _ _
    databaseSteps
  have iis := admitsEntries_grows.within_need _ _ _ _ _ needsCertificates
  have certificates := Certificate.within_emitAll admitsEntries_grows (admitsIds_grows _) _ _ _ _
    certificateSteps
  have sinceDatabases := trans_of Ledger.Grows databases (trans_of Ledger.Grows iis certificates)
  have sinceUsers := trans_of Ledger.Grows users (trans_of Ledger.Grows sql sinceDatabases)
  exact ⟨fun some => sinceUsers.extensions (notes_need some _ _ _ needsUsers),
    fun some => sinceDatabases.extensions (notes_need some _ _ _ needsDatabases),
    fun some => certificates.extensions (notes_need some _ _ _ needsCertificates)⟩

theorem notes_emitInterface (dialogs : c.project.ui.dialogSet? ≠ none) (rootId : Option String) :
    Notes .ui (c.emitInterface rootId) := by
  obtain ⟨set, some⟩ := Option.ne_none_iff_exists'.mp dialogs
  refine .noteUnless (by simp [dialogElements, some]) ?_
  cases c.project.embeddedUi with
  | none => exact .pure _
  | some binary => exact (binary.within_emitSource admitsEntries_grows).bind fun _ => .pure _

theorem grows_emitFilledWith (installed : Element) : Grows (c.emitFilledWith installed) :=
  (Within.mapM Property.within_emit _).bind fun _ =>
    (CustomAction.within_emitAll admitsEntries_grows (admitsIds_grows _)).bind fun _ =>
      (Within.mapM Binary.grows_emit _).bind fun _ => Within.bind .get fun _ =>
        (grows_emitInterface c _).bind fun _ => (Within.liftM _).bind fun _ => .pure _

theorem notes_emitFilledWith (dialogs : c.project.ui.dialogSet? ≠ none) (installed : Element) :
    Notes .ui (c.emitFilledWith installed) :=
  .later fun _ => .later fun _ => .later fun _ => .later fun _ =>
    (notes_emitInterface dialogs _).first fun _ => (Within.liftM _).bind fun _ => .pure _

/-- Whatever the project needs is noted in the end. -/
theorem isServedBy_of_emitDocument {document : Element}
    (given : c.emitDocument.Gives before document after) : c.IsServedBy after.extensions := by
  simp only [emitDocument, gives_bind, gives_get, gives_pure] at given
  obtain ⟨product, _, productSteps, _, _, ⟨rfl, rfl⟩, -, rfl⟩ := given
  obtain ⟨filled, _, filledSteps, -, -⟩ := gives_emitProduct_iff.mp productSteps
  simp only [emitFilled, emitInstalled, gives_bind, gives_pure] at filledSteps
  obtain ⟨_, _, ⟨_, _, treeSteps, _, _, standaloneSteps, -, rfl⟩, fillSteps⟩ := filledSteps
  have standalone := within_emitStandalone admitsEntries_grows
    (fun kind _ => admitsIds_grows kind) _ _ _ standaloneSteps
  have filling := grows_emitFilledWith _ _ _ _ fillSteps
  obtain ⟨users, databases, certificates⟩ := extensions_of_emitStandalone standaloneSteps
  have sinceTree := trans_of Ledger.Grows standalone filling
  exact {
    permissions := fun granted =>
      sinceTree.extensions (Dir.notes_emitTree granted _ _ _ treeSteps)
    users := fun some => filling.extensions (users some)
    databases := fun some => filling.extensions (databases some)
    certificates := fun some => filling.extensions (certificates some)
    dialogs := fun some => notes_emitFilledWith some _ _ _ _ fillSteps }

/-! ### Where elements of extensions are -/

namespace IsServedBy

variable (served : c.IsServedBy extensions)
include served

theorem only_tree : Only (Allow extensions) c.tree := by
  by_cases granted : Dir.readAll DirBody.granted c.project.dirs = []
  · intro x mem
    have other : x.name ≠ "util:PermissionEx" := only_tree_of_readAll_granted granted x mem
    have plain : ∀ word ∈ Dir.words, word ≠ "util:PermissionEx" → Allow [] word := by decide
    exact .of_plain (plain _ (c.isTreePart_tree x mem) other)
  · have words : ∀ word ∈ Dir.words, Allow extensions word :=
      Allow.all_of_mem (served.permissions granted) (by decide)
    exact Everywhere.mono c.isTreePart_tree fun x => words _

theorem establishes : c.Establishes (Only (Allow extensions)) (Only (Allow extensions)) := by
  refine establishes_only (Allow.all_of_plain (by decide)) (fun user mem => ?_) (fun db mem => ?_)
    fun cert mem => ?_
  · exact .of_mem (served.users (List.ne_nil_of_mem mem)) (by decide)
  · exact Allow.all_of_mem (served.databases (List.ne_nil_of_mem mem)) (by decide)
  · exact .of_mem (served.certificates (List.ne_nil_of_mem mem)) (by decide)

/-- With the extensions that serve the project, all that goes into the package can be used. -/
theorem supplies : c.Supplies (fun _ => True) fun e => Allow extensions e.name := by
  refine supplies_only (Allow.all_of_plain (by decide)) (fun given x mem _ => ?_) fun given => ?_
  · have each := served.establishes.emitStandalone _ _ _ given
    have place : c.tree.installRoot.IsPlace c.tree := isPlace_installRoot c.tree
    have home : Only (Allow extensions) c.tree.installRoot.node := place.only_node served.only_tree
    rcases List.mem_cons.mp mem with rfl | declared
    · exact place.only served.only_tree (only_addAll.mpr ⟨home, each.components⟩)
    · exact each.declarations x declared
  · exact only_emitInterface (Allow.all_of_plain (by decide))
      (fun some => .of_mem (served.dialogs some) (by decide)) given

end IsServedBy

theorem only_rootElement (used extensions : List Extension) :
    Only (Allow extensions) (rootElement used) := by
  have plain : Allow extensions "Wix" := .of_plain (by decide)
  simpa [rootElement] using plain

/-- All elements of the document can be used with the extensions that are noted in the end. -/
theorem only_of_emitDocument {document : Element} (fresh : before.locations = [])
    (given : c.emitDocument.Gives before document after) :
    ∃ package, document = (rootElement (Extension.ordered after.extensions)).add package ∧
      Only (Allow after.extensions) document := by
  have served := isServedBy_of_emitDocument given
  obtain ⟨package, rfl, keeps⟩ := served.supplies.keeps_of_emitDocument fresh given
  have inside : Only (Allow after.extensions) package :=
    everywhere_iff.mpr ⟨keeps.own, fun x mem => keeps.children x mem trivial⟩
  exact ⟨package, rfl, only_add.mpr ⟨only_rootElement _ _, inside⟩⟩

end Compilation

/-! ## The root element -/

namespace Extension

theorem mem_ordered {extension : Extension} {used : List Extension} :
    extension ∈ ordered used ↔ extension ∈ used := by
  cases extension <;> simp [ordered, all]

/-- An extension with a prefix has a name space for it. -/
theorem exists_nameSpace {extension : Extension} {q : String}
    (named : extension.elementPrefix? = some q) : ∃ space, extension.nameSpace? = some space := by
  cases extension with
  | ui => cases named
  | util | sql | iis => exact ⟨_, rfl⟩

end Extension

theorem Compilation.attrOf?_rootElement {used : List Extension} {extension : Extension}
    (mem : extension ∈ used) {q space : String} (named : extension.elementPrefix? = some q)
    (spaced : extension.nameSpace? = some space) :
    (rootElement (Extension.ordered used)).attrOf? ("xmlns:" ++ q) = some space := by
  rw [rootElement]
  refine attrOf?_withAttrs_of_mem _ ?_ (List.mem_filterMap.mpr
    ⟨extension, Extension.mem_ordered.mpr mem, by simp [named, spaced]⟩)
  exact ((List.filter_sublist.filterMap _).map Prod.fst).nodup (by decide)

/-! ## Compiling a project -/

/-- Every prefix of an element name in the document is declared by the root element and belongs to
an extension of the output.  Sets of dialogs are referred to with the extension for them. -/
structure Output.DeclaresExtensions (output : Output) : Prop where
  qualifiers : ∀ e ∈ output.document.subtree, ∀ q, Markup.qualifier? e.name = some q →
    ∃ extension ∈ output.extensions, extension.elementPrefix? = some q ∧
      ∃ space, extension.nameSpace? = some space ∧
        output.document.attrOf? ("xmlns:" ++ q) = some space
  dialogs : ∀ e ∈ output.document.subtree, e.name = "UIRef" → .ui ∈ output.extensions

theorem Project.declaresExtensions_of_compile {project : Project} {options : Options}
    {output : Output} (compiled : project.compile options = .ok output) :
    output.DeclaresExtensions := by
  obtain ⟨c, ledger, start, given, -⟩ := Project.made_of_compile compiled
  obtain ⟨package, root, only⟩ := Compilation.only_of_emitDocument rfl given
  have listed : ∀ extension, extension ∈ output.extensions ↔ extension ∈ ledger.extensions := by
    rw [(Project.ledger_of_compile compiled start given).1]
    exact fun extension => Extension.mem_ordered
  refine ⟨fun e mem q qualified => ?_, fun e mem reference => ?_⟩
  · obtain ⟨extension, used, named⟩ := (only e mem).qualifier q qualified
    obtain ⟨space, spaced⟩ := Extension.exists_nameSpace named
    refine ⟨extension, (listed _).mpr used, named, space, spaced, ?_⟩
    rw [root]
    exact Compilation.attrOf?_rootElement used named spaced
  · exact (listed _).mpr ((only e mem).dialogs reference)

/-- A furnished project whose program only administrators may change. -/
def Project.secured : Project :=
  { Project.furnished with
    dirs := [⟨{ name := "%ProgramFiles%\\App",
                files := [{ name := "app.exe", permissions := [{ user := "Administrators" }] }] },
              []⟩] }

theorem Project.declaresExtensions_secured :
    ∃ output, Project.secured.compile {} = .ok output ∧ output.DeclaresExtensions ∧
      output.extensions = [.util, .sql, .iis, .ui] ∧
        ["util:PermissionEx", "util:User", "sql:SqlDatabase", "iis:Certificate", "UIRef"] ⊆
          output.document.subtree.map Element.name := by
  obtain ⟨output, compiled, holds⟩ := Project.exists_output_of_any
    (by decide +kernel : (Project.secured.compile {}).toOption.any (fun output =>
      decide (output.extensions = [.util, .sql, .iis, .ui] ∧
        ["util:PermissionEx", "util:User", "sql:SqlDatabase", "iis:Certificate", "UIRef"] ⊆
          output.document.subtree.map Element.name)) = true)
  exact ⟨output, compiled, Project.declaresExtensions_of_compile compiled, of_decide_eq_true holds⟩

end Installer
