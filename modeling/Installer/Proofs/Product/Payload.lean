import Installer.Proofs.Action.Payload
import Installer.Proofs.Product.ActionIds

/-! # Packaged assemblies in the document

Managed actions that are packaged into the same file share a binary, and the file is told by the
name of the assembly without its directory.  So two assemblies with one name in two directories
share a binary, and only the first of them is packaged.
-/

namespace Installer

open Markup (Element)
open Markup.Element
open Emit

/-- The binary that a package has under a key. -/
def Markup.Element.binary? (package : Element) (key : String) : Option Element :=
  (package.elementsNamed "Binary").find? fun x => x.id? == some key

namespace Compilation

variable {c : Compilation} {steps : List ActionStep} {package : Element}
  {requests : List PackagingRequest}

/-- A managed action calls the binary of the first action for the same file.  If that one is managed
too, its assembly is to be packaged into the file. -/
structure PacksManaged (c : Compilation) (steps : List ActionStep) (package : Element)
    (requests : List PackagingRequest) : Prop where
  defined : ∀ step ∈ steps, step.definition ∈ package.elementsNamed "CustomAction" ∧
    step.definition.id? = some step.id
  calls : ∀ step ∈ steps, ∀ source, step.action.assembly? c = some source →
    ∃ owner, c.owner? steps (c.packagedPath source) = some owner ∧
      step.definition.attrOf? "BinaryKey" = some (CustomAction.fileKey owner.id) ∧
      CustomAction.binaryElement owner.id (c.packagedPath source) ∈
        package.elementsNamed "Binary" ∧
      ∀ first, owner.action.assembly? c = some first → ⟨first, c.packagedPath source⟩ ∈ requests

/-- The keys of managed actions tell the files of their binaries. -/
structure SharesByFile (c : Compilation) (steps : List ActionStep) (package : Element) : Prop where
  binary : ∀ step ∈ steps, ∀ source, step.action.assembly? c = some source →
    ∃ key binary, step.definition.attrOf? "BinaryKey" = some key ∧
      package.binary? key = some binary ∧
      binary.attrOf? "SourceFile" = some (c.packagedPath source)
  shared : ∀ s ∈ steps, ∀ t ∈ steps, ∀ a b, s.action.assembly? c = some a →
    t.action.assembly? c = some b →
      (s.definition.attrOf? "BinaryKey" = t.definition.attrOf? "BinaryKey" ↔
        c.packagedPath a = c.packagedPath b)

/-- Every managed action has its assembly packaged into the file of the binary that it calls, and
shares the binary with the actions for the same assembly only. -/
structure PacksBySource (c : Compilation) (steps : List ActionStep) (package : Element)
    (requests : List PackagingRequest) : Prop where
  requested : ∀ step ∈ steps, ∀ source, step.action.assembly? c = some source →
    ∃ key binary file, step.definition.attrOf? "BinaryKey" = some key ∧
      package.binary? key = some binary ∧ binary.attrOf? "SourceFile" = some file ∧
      ⟨source, file⟩ ∈ requests
  shared : ∀ s ∈ steps, ∀ t ∈ steps, ∀ a b, s.action.assembly? c = some a →
    t.action.assembly? c = some b →
      (s.definition.attrOf? "BinaryKey" = t.definition.attrOf? "BinaryKey" ↔ a = b)

/-- No action brings the file that the assembly of another one is packaged into. -/
def PackagedApart (c : Compilation) (steps : List ActionStep) : Prop :=
  ∀ s ∈ steps, ∀ t ∈ steps, ∀ source, s.action.assembly? c = some source →
    t.action.payload? c = some (c.packagedPath source) → t.action.assembly? c = some source

theorem SharesByFile.packsBySource (shares : c.SharesByFile steps package)
    (packs : c.PacksManaged steps package requests) (apart : c.PackagedApart steps) :
    c.PacksBySource steps package requests where
  requested step isStep source managed := by
    obtain ⟨owner, owns, -, -, requested⟩ := packs.calls step isStep source managed
    obtain ⟨key, binary, called, found, file⟩ := shares.binary step isStep source managed
    have same := apart step isStep owner (List.mem_of_find?_eq_some owns) source managed
      (payload?_of_owner? owns)
    exact ⟨key, binary, _, called, found, file, requested source same⟩
  shared s isStep t isStep' a b managed managed' := by
    rw [shares.shared s isStep t isStep' a b managed managed']
    refine ⟨fun file => ?_, congrArg c.packagedPath⟩
    have payload := CustomAction.payload?_of_assembly? managed'
    rw [← file] at payload
    have same := apart s isStep t isStep' a managed payload
    exact Option.some.inj (same.symm.trans managed')

/-! ## Requests -/

variable {before after : Ledger} {pieces : Pieces}

/-- No request that the actions make is lost. -/
theorem exists_emitAll_of_emitDocument {document : Element}
    (given : c.emitDocument.Gives before document after) :
    ∃ start actions later, (CustomAction.emitAll c).Gives start actions later ∧
      later.packaging ⊆ after.packaging := by
  simp only [emitDocument, gives_bind, gives_get, gives_pure] at given
  obtain ⟨product, _, productSteps, _, _, ⟨rfl, rfl⟩, rfl, rfl⟩ := given
  obtain ⟨filled, wired, filledSteps, -, -⟩ := gives_emitProduct_iff.mp productSteps
  simp only [emitFilled, emitFilledWith, gives_bind, gives_get, gives_liftM, gives_pure]
    at filledSteps
  obtain ⟨_, _, -, _, _, -, actions, later, actionSteps, _, _, binarySteps, _, _, ⟨rfl, rfl⟩, _, _,
    dialogSteps, _, _, ⟨-, rfl⟩, -, rfl⟩ := filledSteps
  have binaries : Ledger.Grows _ _ := Within.mapM Binary.grows_emit _ _ _ _ binarySteps
  have dialogs := c.grows_emitInterface _ _ _ _ dialogSteps
  exact ⟨_, actions, later, actionSteps, List.Subset.trans binaries.packaging dialogs.packaging⟩

/-- The first action for a file has its assembly packaged into it. -/
theorem requested_of_emitDocument {document : Element} {path source : String}
    {action : CustomAction} (keeps : ∀ action ∈ c.project.actions, action.KeepsKeys)
    (given : c.emitDocument.Gives before document after)
    (first : c.project.actions.find? (fun x => x.payload? c == some path) = some action)
    (managed : action.assembly? c = some source) : ⟨source, path⟩ ∈ after.packaging := by
  obtain ⟨start, actions, later, actionSteps, kept⟩ := exists_emitAll_of_emitDocument given
  obtain ⟨steps, -, sameActions, -, packs⟩ := CustomAction.exists_packs_of_emitAll keeps actionSteps
  rw [← sameActions, List.find?_map, Option.map_eq_some_iff] at first
  obtain ⟨owner, owns, rfl⟩ := first
  exact kept (packs.requested path owner source rfl owns managed)

/-! ## Binaries of a package -/

theorem binary?_eq {definitions others : List Element}
    (packs : c.Packs [] steps definitions requests)
    (distinct : (steps.map ActionStep.id).Nodup)
    (binaries : package.elementsNamed "Binary" =
      definitions.filter (fun x => x.name == "Binary") ++ others)
    {path : String} {owner : ActionStep} (owns : c.owner? steps path = some owner) :
    package.binary? (CustomAction.fileKey owner.id) =
      some (CustomAction.binaryElement owner.id path) := by
  have first := packs.owned.first path
  rw [List.nil_append, owns, Option.map_some] at first
  have mem := List.mem_of_find?_eq_some first
  have isBinary : CustomAction.binaryElement owner.id path ∈
      definitions.filter fun x => x.name == "Binary" := List.mem_filter.mpr ⟨mem, rfl⟩
  rw [Element.binary?, binaries, List.find?_append]
  cases found : (definitions.filter fun x => x.name == "Binary").find?
      fun x => x.id? == some (CustomAction.fileKey owner.id) with
  | none =>
    have other := List.find?_eq_none.mp found _ isBinary
    simp [CustomAction.id?_binaryElement] at other
  | some x =>
    -- a binary with the key is one of the owner, and that is for the one file of its action
    have among := List.mem_filter.mp (List.mem_of_find?_eq_some found)
    have key := List.find?_some found
    obtain ⟨step, isStep, path', payload, rfl⟩ := packs.owned.only x among.1 (eq_of_beq among.2)
    rw [CustomAction.id?_binaryElement, beq_iff_eq, Option.some.injEq, CustomAction.fileKey,
      CustomAction.fileKey, String.append_left_inj] at key
    have same : step = owner := List.inj_on_of_nodup_map distinct isStep
      (List.mem_of_find?_eq_some owns) key
    rw [same, payload?_of_owner? owns, Option.some.injEq] at payload
    rw [same, payload]
    rfl

/-! ## Actions of a package -/

/-- The actions of a package are defined in it, and so are the binaries that they call. -/
theorem packsManaged_of_hasChildren {made : List PackagingRequest}
    (keeps : ∀ action ∈ c.project.actions, action.KeepsKeys)
    (run : IsRun none [] steps pieces.actions)
    (actions : steps.map ActionStep.action = c.project.actions)
    (packs : c.Packs [] steps pieces.actions.definitions made)
    (has : package.HasChildren (pieces.parts c) (pieces.entries c))
    (asked : ∀ path source action,
      c.project.actions.find? (fun x => x.payload? c == some path) = some action →
        action.assembly? c = some source → ⟨source, path⟩ ∈ requests) :
    c.PacksManaged steps package requests where
  defined step isStep := by
    have among : step.action ∈ c.project.actions := actions ▸ List.mem_map_of_mem isStep
    have keyed : step.IsKeyed pieces.actions.definitions := by
      simpa using run.isKeyed step isStep (keeps step.action among)
    have defined : step.definition ∈ steps.flatMap ActionStep.definitions :=
      List.mem_flatMap.mpr ⟨step, isStep, step.mem_definitions_self⟩
    rw [← run.customActions, List.mem_filter, beq_iff_eq] at defined
    exact ⟨mem_elementsNamed has (.inl defined.1) defined.2 (by decide), keyed.own⟩
  calls step isStep source managed := by
    obtain ⟨owner, owns, called⟩ := packs.calls step isStep source managed
    have found := packs.owned.first (c.packagedPath source)
    rw [List.nil_append] at owns found
    rw [owns, Option.map_some] at found
    have defined : CustomAction.binaryElement owner.id (c.packagedPath source) ∈
        package.elementsNamed "Binary" :=
      mem_elementsNamed has (.inl (List.mem_of_find?_eq_some found)) rfl (by decide)
    refine ⟨owner, owns, called, defined, fun first managed' => asked _ _ owner.action ?_ managed'⟩
    rw [← actions, List.find?_map]
    exact congrArg (Option.map ActionStep.action) owns

theorem sharesByFile_of_hasChildren {made : List PackagingRequest}
    (packs : c.Packs [] steps pieces.actions.definitions made)
    (distinct : (steps.map ActionStep.id).Nodup) (areGiven : pieces.AreGiven c before)
    (has : package.HasChildren (pieces.parts c) (pieces.entries c)) :
    c.SharesByFile steps package where
  binary step isStep source managed := by
    have binaries := binaries_of_hasChildren areGiven has
    obtain ⟨owner, owns, called⟩ := packs.calls step isStep source managed
    exact ⟨_, _, called, binary?_eq packs distinct binaries owns, rfl⟩
  shared _ isStep _ isStep' _ _ := packs.binaryKey_eq_iff distinct isStep isStep'

end Compilation

namespace Project

variable {project : Project} {options : Options} {output : Output}

/-- The managed actions of a compiled project share binaries by file.  If no two actions declare the
same id and none brings the file of another one's assembly, they share them by assembly, and all
assemblies are packaged. -/
theorem packsManaged_of_compile (compiled : project.compile options = .ok output)
    (keeps : ∀ action ∈ project.actions, action.KeepsKeys) :
    ∃ c steps package,
      Compilation.ofProject options (project.prepare options).project = .ok c ∧
        output.document.elements = [package] ∧ project.HasSteps options package steps ∧
        c.PacksManaged steps package output.packaging ∧
        ((project.actions.filterMap CustomAction.id).Nodup → c.SharesByFile steps package ∧
          (c.PackagedApart steps → c.PacksBySource steps package output.packaging)) := by
  obtain ⟨c, ledger, start, given, -⟩ := Project.made_of_compile compiled
  obtain ⟨package, pieces, single, areGiven, has⟩ :=
    Compilation.hasChildren_of_emitDocument rfl given
  obtain ⟨begun, _, actionSteps, same⟩ := areGiven.drawsActions
  have kept : ∀ action ∈ c.project.actions, action.KeepsKeys := by
    rw [(Compilation.project_of_ofProject start).1]
    exact project.keepsKeys_prepare options keeps
  obtain ⟨steps, run, actions, ids, packs⟩ := CustomAction.exists_packs_of_emitAll kept actionSteps
  have hasSteps := hasSteps_of_isRun start areGiven has run actions
    (ids.trans (mainIds_of_sameIds start same))
  have packed : c.PacksManaged steps package output.packaging := by
    refine Compilation.packsManaged_of_hasChildren kept run actions packs has
      fun path source action first managed => ?_
    rw [(ledger_of_compile compiled start given).2]
    exact Compilation.requested_of_emitDocument kept given first managed
  refine ⟨c, steps, package, start, single, hasSteps, packed, fun distinct => ?_⟩
  have apart : (steps.map ActionStep.id).Nodup := by
    rw [hasSteps.ids, nodup_actionIds_iff]
    exact distinct
  have shares := Compilation.sharesByFile_of_hasChildren packs apart areGiven has
  exact ⟨shares, shares.packsBySource packed⟩

/-- A project with two actions for one assembly and a script. -/
def assembled : Project where
  name := "App"
  actions := [
    { name := "First", kind := .managed "bin\\Setup.dll" "First" [] },
    { name := "Second", kind := .managed "bin\\Setup.dll" "Second" [] },
    { name := "Third", kind := .scriptFile "run.vbs" "Main" }]

theorem packsManaged_assembled :
    ∃ (output : Output) (c : Compilation) (steps : List ActionStep) (package : Element),
      Project.assembled.compile {} = .ok output ∧ output.document.elements = [package] ∧
      Project.assembled.HasSteps {} package steps ∧
      steps.map ActionStep.id = ["First", "Second", "Third"] ∧
      c.PacksManaged steps package output.packaging ∧ c.SharesByFile steps package := by
  obtain ⟨output, compiled⟩ := Project.exists_output
    (by decide +kernel : (Project.assembled.compile {}).isOk = true)
  obtain ⟨c, steps, package, start, single, hasSteps, packs, shares⟩ :=
    Project.packsManaged_of_compile compiled (by decide +kernel)
  have ids : Project.assembled.actionIds = ["First", "Second", "Third"] := by decide +kernel
  exact ⟨output, c, steps, package, compiled, single, hasSteps, hasSteps.ids.trans ids, packs,
    (shares (by decide +kernel)).1⟩

/-- A project with two assemblies of one name. -/
def rivals : Project where
  name := "App"
  dirs := [⟨{ name := "%ProgramFiles%\\App", files := [{ name := "app.exe" }] }, []⟩]
  actions := [
    { name := "First", kind := .managed "a\\Setup.dll" "First" [] },
    { name := "Second", kind := .managed "b\\Setup.dll" "Second" [] }]

/-- The second assembly is not packaged. -/
theorem not_packsBySource_rivals :
    ∃ output, Project.rivals.compile {} = .ok output ∧
      (∀ action ∈ Project.rivals.actions, action.KeepsKeys) ∧
      output.packaging = [⟨"a\\Setup.dll", ".\\Setup.CA.dll"⟩] ∧
      ∀ (c : Compilation) (steps : List ActionStep) (package : Element),
        Compilation.ofProject {} (Project.rivals.prepare {}).project = .ok c →
          steps.map ActionStep.action = Project.rivals.actions →
            ¬ c.PacksBySource steps package output.packaging := by
  obtain ⟨output, compiled, computed⟩ := Project.exists_output_of_any
    (by decide +kernel : ((Project.rivals.compile {}).toOption.any fun output =>
      output.packaging == [⟨"a\\Setup.dll", ".\\Setup.CA.dll"⟩]) = true)
  rw [beq_iff_eq] at computed
  refine ⟨output, compiled, by decide +kernel, computed,
    fun c steps package start actions packs => ?_⟩
  have source : c.sourcePath "b\\Setup.dll" = "b\\Setup.dll" := by
    obtain ⟨dirs, actions, same, -⟩ := Project.rivals.exists_prepare {}
    rw [Compilation.sourcePath, (Compilation.project_of_ofProject start).1, same]
    show LogicalPath.under Project.rivals.sourceBaseDir "b\\Setup.dll" = "b\\Setup.dll"
    decide
  obtain ⟨_, _, rfl, -, later⟩ := List.map_eq_cons_iff.mp actions
  obtain ⟨second, _, rfl, action, -⟩ := List.map_eq_cons_iff.mp later
  have managed : second.action.assembly? c = some "b\\Setup.dll" := by
    rw [action]
    exact congrArg some source
  obtain ⟨_, _, file, -, -, -, requested⟩ := packs.requested second (by simp) _ managed
  rw [computed] at requested
  simp at requested

end Project

end Installer
