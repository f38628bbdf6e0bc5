import Installer.Proofs.Emit.Steps
import Installer.Proofs.Markup.Subtree
import Installer.Source.Action

/-! # What one action gives

An action of any kind is defined once and has its own entries; two kinds also have a helper with
entries in front of these.  `ActionStep.Makes` says so without naming the kinds, and
`CustomAction.makes_of_emitKind` proves it for each of them.
-/

namespace Installer

open Markup (Element)
open Markup.Element
open Emit

namespace ActionElements

@[simp] theorem definitions_append (s t : ActionElements) :
    (s ++ t).definitions = s.definitions ++ t.definitions :=
  rfl

@[simp] theorem entries_append (s t : ActionElements) :
    (s ++ t).entries = s.entries ++ t.entries :=
  rfl

@[ext] theorem ext {s t : ActionElements} (definitions : s.definitions = t.definitions)
    (entries : s.entries = t.entries) : s = t := by
  cases s
  cases t
  cases definitions
  cases entries
  rfl

theorem append_nil (s : ActionElements) : s ++ {} = s := by
  ext1 <;> simp

theorem nil_append (s : ActionElements) : {} ++ s = s := by
  ext1 <;> simp

theorem append_assoc (s t u : ActionElements) : s ++ t ++ u = s ++ (t ++ u) := by
  ext1 <;> simp

end ActionElements

/-! ## Steps -/

namespace CustomAction

/-- The action stands behind the action before, whatever it is, and has no number. -/
def IsUnplaced (action : CustomAction) : Prop :=
  action.sequenceNumber = none ∧ action.step = .previousAction

instance (action : CustomAction) : Decidable action.IsUnplaced :=
  inferInstanceAs (Decidable (_ ∧ _))

/-- The action calls a binary that it brings along itself. -/
def BringsBinary (action : CustomAction) : Prop :=
  match action.kind with
  | .scriptFile .. | .managed .. => True
  | _ => False

def KeepsKeys (action : CustomAction) : Prop :=
  ∀ pair ∈ action.attributes.pairs, pair.1 ≠ "Id" ∧ pair.1 ≠ "BinaryKey"

instance (action : CustomAction) : Decidable action.KeepsKeys :=
  inferInstanceAs (Decidable (∀ pair ∈ action.attributes.pairs, _ ∧ _))

end CustomAction

/-- The action that sets a property for another one. -/
structure Helper where
  id : String
  definition : Element
  condition : Option String
  placement : Placement

/-- An action of a run with the id and the placement that it has there. -/
structure ActionStep where
  action : CustomAction
  id : String
  placement : Placement
  /-- The element that defines the action itself. -/
  definition : Element

namespace ActionStep

/-- The helper of an action. That of a quiet command takes the placement and the condition of the
action; that of a deferred managed action runs before the action, whenever this one might. -/
def helper? (step : ActionStep) : Option Helper :=
  match step.action.kind with
  | .managed _ _ usesProperties =>
    let id := "Set_" ++ step.id ++ "_Props"
    if step.action.execute = .deferred ∧ !usesProperties.isEmpty then
      some {
        id
        definition :=
          CustomAction.settingElement id step.id (CustomAction.propertyMapping usesProperties)
        condition := none
        placement := .anchor .before step.id }
    else none
  | .quietCommand program args =>
    let id := "Set_" ++ step.id ++ "_CmdLine"
    some {
      id
      definition :=
        (CustomAction.settingElement id "QtExecCmdLine"
          (CustomAction.commandLine program args)).withAttrs step.action.attributes.pairs
      condition := some step.action.condition
      placement := step.placement }
  | _ => none

/-- Where the action itself runs: a quiet command has left its placement to the helper. -/
def ownPlacement (step : ActionStep) : Placement :=
  match step.action.kind with
  | .quietCommand .. => .anchor .after ("Set_" ++ step.id ++ "_CmdLine")
  | _ => step.placement

def entries (step : ActionStep) : List (Sequence × Element) :=
  (step.helper?.toList.flatMap fun helper =>
    step.action.schedule helper.id helper.condition helper.placement) ++
    step.action.schedule step.id (some step.action.condition) step.ownPlacement

def definitions (step : ActionStep) : List Element :=
  (step.helper?.map Helper.definition).toList ++ [step.definition]

/-- The keys that the definitions are found by are those that others use: the action has its id, and
the binary that it brings along is among `definitions`. -/
structure IsKeyed (step : ActionStep) (definitions : List Element) : Prop where
  own : step.definition.id? = some step.id
  helper : ∀ helper ∈ step.helper?, helper.definition.id? = some helper.id
  binary : step.action.BringsBinary → ∃ key, step.definition.attrOf? "BinaryKey" = some key ∧
    ∃ binary ∈ definitions, binary.name = "Binary" ∧ binary.id? = some key

theorem IsKeyed.mono {step : ActionStep} {few many : List Element} (keyed : step.IsKeyed few)
    (subset : few ⊆ many) : step.IsKeyed many where
  own := keyed.own
  helper := keyed.helper
  binary := fun brings =>
    let ⟨key, called, binary, mem, found⟩ := keyed.binary brings
    ⟨key, called, binary, subset mem, found⟩

/-- The step gives `elements` when `made` are the definitions made before. -/
structure Makes (step : ActionStep) (made : List Element) (elements : ActionElements) : Prop where
  entries : elements.entries = step.entries
  definitions : ∃ binaries : List Element, (∀ binary ∈ binaries, binary.name = "Binary") ∧
    elements.definitions = binaries ++ step.definitions
  named : ∀ definition ∈ step.definitions, definition.name = "CustomAction"
  keyed : step.action.KeepsKeys → step.IsKeyed (made ++ elements.definitions)

end ActionStep

namespace CustomAction

variable {c : Compilation} {before after : Ledger}

@[simp] theorem ids_addPackaging (ledger : Ledger) (request : PackagingRequest) :
    (ledger.addPackaging request).ids = ledger.ids := by
  rw [Ledger.addPackaging]
  split <;> rfl

@[simp] theorem ids_addExtension (ledger : Ledger) (extension : Extension) :
    (ledger.addExtension extension).ids = ledger.ids :=
  rfl

/-- Nothing can go wrong once the placement is known. -/
theorem not_fails_emitKind {made : List Element} {id : String} {placement : Placement}
    {action : CustomAction} {fault : CompileError} :
    ¬ (action.emitKind c made id placement).Fails before fault := by
  simp only [emitKind]
  cases kind : action.kind with
  | managed assembly method usesProperties =>
    simp only [emitManagedBinary, Compilation.package]
    split <;> simp
  | quietCommand program args => simp
  | setProperty | script | scriptFile | installedFile | binaryFile | pathFile => simp

/-- The binary of a managed assembly is a new one or one of those made before. -/
theorem binary_of_emitManagedBinary {made : List Element} {id assembly : String}
    {result : String × List Element}
    (given : (emitManagedBinary c made id assembly).Gives before result after) :
    after.ids = before.ids ∧ (∀ binary ∈ result.2, binary.name = "Binary") ∧
      ∃ binary ∈ made ++ result.2, binary.name = "Binary" ∧ binary.id? = some result.1 := by
  simp only [emitManagedBinary] at given
  split at given
  next key shared =>
    obtain ⟨rfl, rfl⟩ := gives_pure.mp given
    obtain ⟨binary, found, named⟩ := Option.bind_eq_some_iff.mp shared
    have isBinary := List.find?_some found
    simp only [Bool.and_eq_true, beq_iff_eq] at isBinary
    exact ⟨rfl, by simp, binary, by simpa using List.mem_of_find?_eq_some found, isBinary.1, named⟩
  next =>
    simp only [Compilation.package, gives_bind, gives_note, gives_pure] at given
    obtain ⟨_, _, ⟨_, _, rfl, rfl, rfl⟩, rfl, rfl⟩ := given
    exact ⟨by simp, by simp [binaryElement], _, List.mem_append_right _ (List.mem_singleton_self _),
      rfl, rfl⟩

/-! ## The definitions of one action -/

@[simp] theorem name_definition (action : CustomAction) (attrs : List (String × String)) :
    (action.definition attrs).name = "CustomAction" := by
  simp [definition]

theorem KeepsKeys.attrOf?_withAttrs {action : CustomAction} (keeps : action.KeepsKeys)
    (e : Element) {name : String} (key : name = "Id" ∨ name = "BinaryKey") :
    (e.withAttrs action.attributes.pairs).attrOf? name = e.attrOf? name := by
  refine Element.attrOf?_withAttrs e fun pair mem => ?_
  obtain ⟨notId, notKey⟩ := keeps pair mem
  rcases key with rfl | rfl
  · exact notId
  · exact notKey

theorem KeepsKeys.id?_withAttrs {action : CustomAction} (keeps : action.KeepsKeys) (e : Element) :
    (e.withAttrs action.attributes.pairs).id? = e.id? :=
  keeps.attrOf?_withAttrs e (.inl rfl)

theorem KeepsKeys.id?_definition {action : CustomAction} (keeps : action.KeepsKeys) (id : String)
    {attrs : List (String × String)} (other : "Id" ∉ attrs.map Prod.fst) :
    (action.definition (("Id", id) :: attrs)).id? = some id := by
  rw [definition, keeps.id?_withAttrs]
  exact attrOf?_withAttrs_cons _ "Id" id fun pair mem same =>
    other (same ▸ List.mem_map_of_mem mem)

theorem KeepsKeys.binaryKey_definition {action : CustomAction} (keeps : action.KeepsKeys)
    (id key : String) {attrs : List (String × String)} (other : "BinaryKey" ∉ attrs.map Prod.fst) :
    (action.definition (("Id", id) :: ("BinaryKey", key) :: attrs)).attrOf? "BinaryKey" =
      some key := by
  rw [definition, keeps.attrOf?_withAttrs _ (.inr rfl)]
  exact attrOf?_withAttrs_cons (({ name := "CustomAction" : Element }).attr "Id" id) "BinaryKey" key
    fun pair mem same => other (same ▸ List.mem_map_of_mem mem)

@[simp] theorem names_resultFirst (action : CustomAction) :
    action.resultFirst.map Prod.fst = ["Return", "Execute", "Impersonate"] :=
  rfl

@[simp] theorem names_resultLast (action : CustomAction) :
    action.resultLast.map Prod.fst = ["Impersonate", "Execute", "Return"] :=
  rfl

end CustomAction

namespace ActionStep

theorem name_helper {step : ActionStep} {helper : Helper} (mem : helper ∈ step.helper?) :
    helper.definition.name = "CustomAction" := by
  rw [helper?] at mem
  split at mem
  next =>
    split at mem
    next =>
      cases mem
      rfl
    next => cases mem
  next =>
    cases mem
    simp [CustomAction.settingElement]
  next => cases mem

theorem id?_helper {step : ActionStep} (keeps : step.action.KeepsKeys) {helper : Helper}
    (mem : helper ∈ step.helper?) : helper.definition.id? = some helper.id := by
  rw [helper?] at mem
  split at mem
  next =>
    split at mem
    next =>
      cases mem
      rfl
    next => cases mem
  next =>
    cases mem
    rw [keeps.id?_withAttrs]
    rfl
  next => cases mem

theorem Makes.of_binaries {step : ActionStep} {made : List Element} {elements : ActionElements}
    (binaries : List Element) (isBinary : ∀ binary ∈ binaries, binary.name = "Binary")
    (definitions : elements.definitions = binaries ++ step.definitions)
    (entries : elements.entries = step.entries)
    (named : step.definition.name = "CustomAction")
    (own : step.action.KeepsKeys → step.definition.id? = some step.id)
    (binary : step.action.KeepsKeys → step.action.BringsBinary →
      ∃ key, step.definition.attrOf? "BinaryKey" = some key ∧
        ∃ binary ∈ made ++ binaries, binary.name = "Binary" ∧ binary.id? = some key) :
    step.Makes made elements where
  entries := entries
  definitions := ⟨binaries, isBinary, definitions⟩
  named := by
    intro definition mem
    rcases List.mem_append.mp mem with mem | mem
    · obtain ⟨helper, found, rfl⟩ := Option.map_eq_some_iff.mp (Option.mem_toList.mp mem)
      exact name_helper found
    · exact List.mem_singleton.mp mem ▸ named
  keyed := fun keeps =>
    { own := own keeps
      helper := fun helper => id?_helper keeps
      binary := fun brings => by
        obtain ⟨key, called, binary, mem, found⟩ := binary keeps brings
        rw [definitions, ← List.append_assoc]
        exact ⟨key, called, binary, List.mem_append_left _ mem, found⟩ }

theorem Makes.alone {step : ActionStep} {made : List Element} (single : step.helper? = none)
    (kept : step.ownPlacement = step.placement) (none : ¬ step.action.BringsBinary)
    (named : step.definition.name = "CustomAction")
    (own : step.action.KeepsKeys → step.definition.id? = some step.id) :
    step.Makes made ⟨[step.definition],
      step.action.schedule step.id (some step.action.condition) step.placement⟩ :=
  .of_binaries [] (by simp) (by simp [ActionStep.definitions, single])
    (by simp [ActionStep.entries, single, kept]) named own fun _ brings => absurd brings none

end ActionStep

namespace CustomAction

variable {c : Compilation} {before after : Ledger}

theorem makes_of_emitKind {made : List Element} {id : String} {placement : Placement}
    {action : CustomAction} {elements : ActionElements}
    (given : (action.emitKind c made id placement).Gives before elements after) :
    after.ids = before.ids ∧
      ∃ definition, ActionStep.Makes ⟨action, id, placement, definition⟩ made elements := by
  simp only [emitKind] at given
  cases kind : action.kind with
  | setProperty property value =>
    simp only [kind] at given
    obtain ⟨rfl, rfl⟩ := gives_pure.mp given
    exact ⟨rfl, _, .alone (by simp [ActionStep.helper?, kind])
      (by simp [ActionStep.ownPlacement, kind]) (by simp [BringsBinary, kind])
      (name_definition ..) fun keeps => keeps.id?_definition id (by simp)⟩
  | script code =>
    simp only [kind] at given
    obtain ⟨rfl, rfl⟩ := gives_pure.mp given
    exact ⟨rfl, _, .alone (by simp [ActionStep.helper?, kind])
      (by simp [ActionStep.ownPlacement, kind]) (by simp [BringsBinary, kind])
      (name_withAttrs ..) fun keeps => keeps.id?_withAttrs _⟩
  | scriptFile scriptFile procedure =>
    simp only [kind] at given
    obtain ⟨rfl, rfl⟩ := gives_pure.mp given
    exact ⟨rfl, _, .of_binaries [binaryElement id (c.sourcePath scriptFile)]
      (by simp [binaryElement]) (by simp [ActionStep.definitions, ActionStep.helper?, kind]; rfl)
      (by simp [ActionStep.entries, ActionStep.helper?, ActionStep.ownPlacement, kind])
      (name_definition ..) (fun keeps => keeps.id?_definition id (by simp))
      fun keeps _ => ⟨fileKey id, keeps.binaryKey_definition id _ (by simp), _,
        List.mem_append_right _ (List.mem_singleton_self _), rfl, rfl⟩⟩
  | managed assembly method usesProperties =>
    simp only [kind, gives_bind] at given
    obtain ⟨⟨key, binaries⟩, between, managed, given⟩ := given
    obtain ⟨ids, isBinary, binary⟩ := binary_of_emitManagedBinary managed
    obtain ⟨rfl, rfl⟩ := gives_pure.mp given
    refine ⟨ids, action.definition (("Id", id) :: ("BinaryKey", key) :: ("DllEntry", method) ::
      action.resultLast), .of_binaries binaries isBinary ?_ ?_ (name_definition ..)
      (fun keeps => keeps.id?_definition id (by simp))
      fun keeps _ => ⟨key, keeps.binaryKey_definition id _ (by simp), binary⟩⟩
    · simp only [ActionStep.definitions, ActionStep.helper?, kind]
      split <;> simp
    · simp only [ActionStep.entries, ActionStep.helper?, ActionStep.ownPlacement, kind]
      split <;> simp
  | quietCommand program args =>
    simp only [kind, gives_bind, gives_note] at given
    obtain ⟨_, _, rfl, given⟩ := given
    obtain ⟨rfl, rfl⟩ := gives_pure.mp given
    exact ⟨rfl, _, .of_binaries [] (by simp)
      (by simp [ActionStep.definitions, ActionStep.helper?, kind]; rfl)
      (by simp [ActionStep.entries, ActionStep.helper?, ActionStep.ownPlacement, kind])
      rfl (fun _ => rfl) fun _ brings => by simp [BringsBinary, kind] at brings⟩
  | installedFile fileKey args | binaryFile binaryKey args | pathFile program args workingDir =>
    simp only [kind] at given
    obtain ⟨rfl, rfl⟩ := gives_pure.mp given
    exact ⟨rfl, _, .alone (by simp [ActionStep.helper?, kind])
      (by simp [ActionStep.ownPlacement, kind]) (by simp [BringsBinary, kind])
      (name_definition ..) fun keeps => keeps.id?_definition id (by simp)⟩

end CustomAction

end Installer
