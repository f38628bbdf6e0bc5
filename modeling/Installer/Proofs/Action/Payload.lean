import Installer.Proofs.Action.Schedule
import Installer.Proofs.Emit.Growth
import Installer.Proofs.Ident.Pool

/-! # Binaries that actions bring along

A managed action calls a packaged assembly, and the file that an assembly is packaged into follows
from its name alone.  The first action of a project that brings a file owns the binary for it: later
managed actions for the same file call the binary of the owner, and only the owner has its assembly
packaged.
-/

namespace Installer

open Markup (Element)
open Markup.Element
open Emit

/-! ## Files of actions -/

namespace CustomAction

def assembly? (c : Compilation) (action : CustomAction) : Option String :=
  match action.kind with
  | .managed assembly .. => some (c.sourcePath assembly)
  | _ => none

/-- The file of the binary that the action brings along, or shares with an action before. -/
def payload? (c : Compilation) (action : CustomAction) : Option String :=
  match action.kind with
  | .managed assembly .. => some (c.packagedPath (c.sourcePath assembly))
  | .scriptFile scriptFile .. => some (c.sourcePath scriptFile)
  | _ => none

variable {c : Compilation}

theorem payload?_of_assembly? {action : CustomAction} {source : String}
    (managed : action.assembly? c = some source) :
    action.payload? c = some (c.packagedPath source) := by
  rw [assembly?] at managed
  split at managed
  next kind =>
    rw [Option.some.injEq] at managed
    rw [payload?, kind, ← managed]
  next => cases managed

@[simp] theorem assembly?_widen (action : CustomAction) :
    action.widen.assembly? c = action.assembly? c := by
  cases kind : action.kind <;> simp [assembly?, widen, ActionKind.widen, kind]

end CustomAction

def Compilation.owner? (c : Compilation) (steps : List ActionStep) (path : String) :
    Option ActionStep :=
  steps.find? fun step => step.action.payload? c == some path

/-! ## Binaries among definitions -/

def Markup.Element.isBinaryFor (path : String) (e : Element) : Bool :=
  e.name == "Binary" && e.attrOf? "SourceFile" == some path

namespace CustomAction

theorem binaryWith?_eq (path : String) (definitions : List Element) :
    binaryWith? path definitions = (definitions.find? (isBinaryFor path)).bind id? :=
  rfl

theorem isBinaryFor_binaryElement (path id source : String) :
    (binaryElement id source).isBinaryFor path = (source == path) := by
  have file : (binaryElement id source).attrOf? "SourceFile" = some source := rfl
  have name : (binaryElement id source).name = "Binary" := rfl
  simp [isBinaryFor, file, name]

theorem id?_binaryElement (id source : String) :
    (binaryElement id source).id? = some (fileKey id) := rfl

theorem find?_isBinaryFor_of_name {definitions : List Element} (path : String)
    (other : ∀ x ∈ definitions, x.name = "CustomAction") :
    definitions.find? (isBinaryFor path) = none :=
  List.find?_eq_none.mpr fun x mem => by simp [isBinaryFor, other x mem]

end CustomAction

/-- The binaries among the definitions are for files that the steps bring, and the first one for a
file is that of the owner of the file. -/
structure Compilation.Owned (c : Compilation) (steps : List ActionStep)
    (definitions : List Element) : Prop where
  first : ∀ path, definitions.find? (isBinaryFor path) =
    (c.owner? steps path).map fun owner => CustomAction.binaryElement owner.id path
  only : ∀ x ∈ definitions, x.name = "Binary" → ∃ step ∈ steps, ∃ path,
    step.action.payload? c = some path ∧ x = CustomAction.binaryElement step.id path

/-- The action of the step, if it is managed, calls the binary of the owner of its file. -/
def Compilation.CallsOwner (c : Compilation) (steps : List ActionStep) (step : ActionStep) : Prop :=
  ∀ source, step.action.assembly? c = some source →
    ∃ owner, c.owner? steps (c.packagedPath source) = some owner ∧
      step.definition.attrOf? "BinaryKey" = some (CustomAction.fileKey owner.id)

namespace Compilation

variable {c : Compilation} {front steps : List ActionStep} {made : List Element} {path : String}

theorem owner?_append (front back : List ActionStep) (path : String) :
    c.owner? (front ++ back) path = (c.owner? front path).or (c.owner? back path) :=
  List.find?_append

theorem CallsOwner.append {step : ActionStep} (calls : c.CallsOwner front step)
    (back : List ActionStep) : c.CallsOwner (front ++ back) step := by
  intro source managed
  obtain ⟨owner, owns, called⟩ := calls source managed
  exact ⟨owner, by rw [owner?_append, owns, Option.some_or], called⟩

theorem Owned.nil : c.Owned [] [] :=
  ⟨fun _ => rfl, nofun⟩

theorem Owned.binaryWith?_eq (owned : c.Owned steps made) (path : String) :
    CustomAction.binaryWith? path made =
      (c.owner? steps path).map fun owner => CustomAction.fileKey owner.id := by
  rw [CustomAction.binaryWith?_eq, owned.first path]
  cases c.owner? steps path <;> rfl

end Compilation

/-! ## The definitions of one action -/

theorem ActionStep.Makes.getLast?_definitions {step : ActionStep} {made : List Element}
    {elements : ActionElements} (makes : step.Makes made elements) :
    elements.definitions.getLast? = some step.definition := by
  obtain ⟨binaries, -, definitions⟩ := makes.definitions
  rw [definitions, ActionStep.definitions, ← List.append_assoc, List.getLast?_concat]

namespace CustomAction

variable {c : Compilation} {before after : Ledger}

/-- What the definitions of one action add to those made before: a binary for the file that the
action brings, unless the action is managed and the file has one, and the call of that binary. -/
structure Brings (c : Compilation) (made : List Element) (id : String) (action : CustomAction)
    (definitions : List Element) : Prop where
  binaries : ∀ path, made.find? (isBinaryFor path) = none →
    definitions.find? (isBinaryFor path) =
      if action.payload? c = some path then some (binaryElement id path) else none
  only : ∀ x ∈ definitions, x.name = "Binary" →
    ∃ path, action.payload? c = some path ∧ x = binaryElement id path
  called : ∀ source, action.assembly? c = some source → ∃ definition,
    definitions.getLast? = some definition ∧ definition.attrOf? "BinaryKey" =
      some ((binaryWith? (c.packagedPath source) made).getD (fileKey id))

theorem Brings.of_plain {made definitions : List Element} {id : String} {action : CustomAction}
    (none : action.payload? c = none) (named : ∀ x ∈ definitions, x.name = "CustomAction") :
    Brings c made id action definitions where
  binaries path _ := by
    rw [find?_isBinaryFor_of_name path named, none]
    rfl
  only x mem binary := absurd ((named x mem).symm.trans binary) (by decide)
  called source managed := by
    rw [payload?_of_assembly? managed] at none
    cases none

/-- A binary for the file that the action brings stands before its other definitions, unless there
was one before. -/
theorem Brings.of_binary {made binaries others : List Element} {id path : String}
    {action : CustomAction} (payload : action.payload? c = some path)
    (alone : binaries = [binaryElement id path] ∨
      binaries = [] ∧ made.find? (isBinaryFor path) ≠ none)
    (named : ∀ x ∈ others, x.name = "CustomAction")
    (called : ∀ source, action.assembly? c = some source → ∃ definition,
      others.getLast? = some definition ∧ definition.attrOf? "BinaryKey" =
        some ((binaryWith? (c.packagedPath source) made).getD (fileKey id))) :
    Brings c made id action (binaries ++ others) where
  binaries path' missing := by
    rw [List.find?_append, find?_isBinaryFor_of_name path' named, Option.or_none, payload]
    rcases alone with rfl | ⟨rfl, found⟩
    · by_cases same : path = path' <;> simp [same, isBinaryFor_binaryElement]
    · have other : path ≠ path' := by
        rintro rfl
        exact found missing
      simp [other]
  only x mem binary := by
    rcases List.mem_append.mp mem with mem | mem
    · rcases alone with rfl | ⟨rfl, -⟩
      · exact ⟨path, payload, List.mem_singleton.mp mem⟩
      · cases mem
    · exact absurd ((named x mem).symm.trans binary) (by decide)
  called source managed := by
    obtain ⟨definition, last, key⟩ := called source managed
    exact ⟨definition, by rw [List.getLast?_append, last]; rfl, key⟩

/-- The binary of a managed action is looked up among those made before. A new one is packaged. -/
theorem eq_of_emitManagedBinary {made : List Element} {id assembly : String}
    {result : String × List Element}
    (given : (emitManagedBinary c made id assembly).Gives before result after) :
    let source := c.sourcePath assembly
    let found := binaryWith? (c.packagedPath source) made
    result.1 = found.getD (fileKey id) ∧
      result.2 = (if found.isSome then [] else [binaryElement id (c.packagedPath source)]) ∧
      (found = none → ⟨source, c.packagedPath source⟩ ∈ after.packaging) := by
  simp only [emitManagedBinary] at given
  split at given
  next key shared =>
    obtain ⟨rfl, -⟩ := gives_pure.mp given
    simp [shared]
  next new =>
    simp only [Compilation.package, gives_bind, gives_note, gives_pure] at given
    obtain ⟨_, _, ⟨_, _, rfl, rfl, rfl⟩, rfl, rfl⟩ := given
    simp [new, Ledger.mem_packaging_addPackaging]

theorem brings_of_emitKind {made : List Element} {id : String} {placement : Placement}
    {action : CustomAction} {elements : ActionElements} (keeps : action.KeepsKeys)
    (given : (action.emitKind c made id placement).Gives before elements after) :
    Brings c made id action elements.definitions := by
  simp only [emitKind] at given
  cases kind : action.kind with
  | managed assembly method usesProperties =>
    simp only [kind, gives_bind] at given
    obtain ⟨⟨key, binaries⟩, between, managed, given⟩ := given
    obtain ⟨key_eq, binaries_eq, -⟩ := eq_of_emitManagedBinary managed
    obtain ⟨rfl, rfl⟩ := gives_pure.mp given
    generalize setting : (if action.execute = .deferred ∧ (!usesProperties.isEmpty) = true then _
      else _ : ActionElements) = helper
    have settings : ∀ x ∈ helper.definitions, x.name = "CustomAction" := by
      rw [← setting]
      split <;> simp [settingElement]
    have payload : action.payload? c = some (c.packagedPath (c.sourcePath assembly)) := by
      simp [payload?, kind]
    rw [ActionElements.definitions_append, ActionElements.definitions_append, List.append_assoc]
    -- the setting of a deferred action stands between its binary and its call
    refine .of_binary payload ?_ (List.forall_mem_append.mpr
      ⟨settings, List.forall_mem_singleton.mpr (name_definition ..)⟩) fun source same => ?_
    · cases found : binaryWith? (c.packagedPath (c.sourcePath assembly)) made with
      | none => exact .inl (by rw [binaries_eq, found]; rfl)
      | some shared =>
        refine .inr ⟨by rw [binaries_eq, found]; rfl, fun missing => ?_⟩
        rw [binaryWith?_eq, missing] at found
        cases found
    · simp only [assembly?, kind, Option.some.injEq] at same
      subst same
      refine ⟨_, List.getLast?_concat, ?_⟩
      rw [← key_eq]
      exact keeps.binaryKey_definition id key (by simp)
  | scriptFile scriptFile procedure =>
    simp only [kind] at given
    obtain ⟨rfl, rfl⟩ := gives_pure.mp given
    exact .of_binary (by simp [payload?, kind]) (.inl rfl) (by simp) (by simp [assembly?, kind])
  | quietCommand program args =>
    simp only [kind, gives_bind, gives_note] at given
    obtain ⟨_, _, rfl, given⟩ := given
    obtain ⟨rfl, rfl⟩ := gives_pure.mp given
    refine .of_plain (by simp [payload?, kind]) ?_
    simp [settingElement]
  | script code =>
    simp only [kind] at given
    obtain ⟨rfl, rfl⟩ := gives_pure.mp given
    exact .of_plain (by simp [payload?, kind]) (by simp)
  | setProperty | installedFile | binaryFile | pathFile =>
    simp only [kind] at given
    obtain ⟨rfl, rfl⟩ := gives_pure.mp given
    exact .of_plain (by simp [payload?, kind]) (by simp)

theorem requested_of_emitKind {made : List Element} {id : String} {placement : Placement}
    {action : CustomAction} {elements : ActionElements} {source : String}
    (given : (action.emitKind c made id placement).Gives before elements after)
    (managed : action.assembly? c = some source)
    (new : binaryWith? (c.packagedPath source) made = none) :
    ⟨source, c.packagedPath source⟩ ∈ after.packaging := by
  simp only [emitKind] at given
  cases kind : action.kind with
  | managed assembly method usesProperties =>
    simp only [kind, gives_bind] at given
    obtain ⟨⟨key, binaries⟩, between, packaged, given⟩ := given
    obtain ⟨rfl, rfl⟩ := gives_pure.mp given
    simp only [assembly?, kind, Option.some.injEq] at managed
    subst managed
    exact (eq_of_emitManagedBinary packaged).2.2 new
  | setProperty | script | scriptFile | quietCommand | installedFile | binaryFile | pathFile =>
    simp [assembly?, kind] at managed

end CustomAction

/-! ## Whole runs -/

/-- Each file that the steps bring has its first binary from its owner, a managed step calls the
binary of the owner of its file, and a managed owner has its assembly packaged. -/
structure Compilation.Packs (c : Compilation) (front steps : List ActionStep)
    (definitions : List Element) (requests : List PackagingRequest) : Prop where
  owned : c.Owned (front ++ steps) definitions
  calls : ∀ step ∈ steps, c.CallsOwner (front ++ steps) step
  requested : ∀ path owner source, c.owner? front path = none → c.owner? steps path = some owner →
    owner.action.assembly? c = some source → ⟨source, path⟩ ∈ requests

namespace Compilation

variable {c : Compilation} {front steps : List ActionStep} {made definitions : List Element}
  {requests : List PackagingRequest} {step : ActionStep}

theorem owner?_append_singleton (front : List ActionStep) (step : ActionStep) (path : String) :
    c.owner? (front ++ [step]) path =
      (c.owner? front path).or
        (if step.action.payload? c = some path then some step else none) := by
  rw [owner?_append]
  by_cases own : step.action.payload? c = some path <;> simp [owner?, own]

/-- What a step adds to the definitions is found first if nobody owns the file yet. -/
theorem Owned.append_step (owned : c.Owned front made)
    (brings : CustomAction.Brings c made step.id step.action definitions) :
    c.Owned (front ++ [step]) (made ++ definitions) where
  first path := by
    rw [List.find?_append, owned.first path, owner?_append_singleton]
    cases owner : c.owner? front path with
    | some owner => rfl
    | none =>
      have missing : made.find? (isBinaryFor path) = none := by rw [owned.first path, owner]; rfl
      rw [Option.map_none, Option.none_or, Option.none_or, brings.binaries path missing]
      split <;> rfl
  only x mem binary := by
    rcases List.mem_append.mp mem with old | new
    · obtain ⟨owner, isStep, path, payload, same⟩ := owned.only x old binary
      exact ⟨owner, List.mem_append_left _ isStep, path, payload, same⟩
    · obtain ⟨path, payload, same⟩ := brings.only x new binary
      exact ⟨step, by simp, path, payload, same⟩

theorem Owned.callsOwner (owned : c.Owned front made)
    (brings : CustomAction.Brings c made step.id step.action definitions)
    (last : definitions.getLast? = some step.definition) : c.CallsOwner (front ++ [step]) step := by
  intro source managed
  obtain ⟨definition, last', called⟩ := brings.called source managed
  obtain rfl : definition = step.definition := Option.some.inj (last'.symm.trans last)
  rw [owned.binaryWith?_eq] at called
  rw [owner?_append_singleton, if_pos (CustomAction.payload?_of_assembly? managed)]
  cases owns : c.owner? front (c.packagedPath source) with
  | some owner => exact ⟨owner, rfl, by rw [called, owns]; rfl⟩
  | none => exact ⟨step, rfl, by rw [called, owns]; rfl⟩

theorem Packs.nil (owned : c.Owned front definitions) : c.Packs front [] definitions requests where
  owned := by rwa [List.append_nil]
  calls := by simp
  requested := by simp [owner?]

theorem Packs.cons (packs : c.Packs (front ++ [step]) steps definitions requests)
    (calls : c.CallsOwner (front ++ [step]) step)
    (requested : ∀ source, step.action.assembly? c = some source →
      c.owner? front (c.packagedPath source) = none →
        ⟨source, c.packagedPath source⟩ ∈ requests) :
    c.Packs front (step :: steps) definitions requests where
  owned := by
    rw [List.append_cons]
    exact packs.owned
  calls := by
    rw [List.append_cons, List.forall_mem_cons]
    exact ⟨calls.append steps, packs.calls⟩
  requested := by
    intro path owner source nobody found managed
    -- the owner is the step at the head or a later one, for which the head is in front
    by_cases own : step.action.payload? c = some path
    · rw [owner?, List.find?_cons_of_pos (by simp [own]), Option.some.injEq] at found
      subst found
      rw [CustomAction.payload?_of_assembly? managed, Option.some.injEq] at own
      subst own
      exact requested source managed nobody
    · rw [owner?, List.find?_cons_of_neg (by simpa using own)] at found
      have unowned : c.owner? (front ++ [step]) path = none := by
        rw [owner?_append_singleton, nobody, if_neg own]
        rfl
      exact packs.requested path owner source unowned found managed

end Compilation

namespace CustomAction

variable {c : Compilation} {before after : Ledger}

theorem exists_packs_of_emitFrom {actions : List CustomAction} {previous : Option String}
    {made result : ActionElements} {front : List ActionStep}
    (owned : c.Owned front made.definitions) (keeps : ∀ action ∈ actions, action.KeepsKeys)
    (given : (emitFrom c previous made actions).Gives before result after) :
    ∃ steps elements, result = made ++ elements ∧ IsRun previous made.definitions steps elements ∧
      steps.map ActionStep.action = actions ∧
      steps.map ActionStep.id = idsFrom before.ids actions ∧
      c.Packs front steps result.definitions after.packaging := by
  induction actions generalizing previous made front before with
  | nil =>
    obtain ⟨rfl, rfl⟩ := gives_pure.mp given
    exact ⟨[], {}, (made.append_nil).symm, .nil, rfl, rfl, .nil owned⟩
  | cons action rest ih =>
    simp only [emitFrom, emit, gives_bind, gives_pure, gives_liftM, gives_idOr_iff] at given
    obtain ⟨⟨id, elements⟩, _, ⟨_, _, ⟨rfl, rfl⟩, placement, _, ⟨placed, rfl⟩, _, _, first,
      same, rfl⟩, others⟩ := given
    cases same
    rw [List.forall_mem_cons] at keeps
    obtain ⟨kept, definition, makes⟩ := makes_of_emitKind first
    have brings := brings_of_emitKind keeps.1 first
    have owned' : c.Owned (front ++ [⟨action, _, placement, definition⟩])
        (made ++ elements).definitions := owned.append_step brings
    obtain ⟨steps, others', rfl, run, sameActions, sameIds, packs⟩ := ih owned' keeps.2 others
    refine ⟨⟨action, _, placement, definition⟩ :: steps, elements ++ others',
      made.append_assoc elements others', .cons placed makes run,
      by rw [List.map_cons, sameActions], ?_, ?_⟩
    · rw [List.map_cons, sameIds, kept]
      rfl
    · refine packs.cons (owned.callsOwner brings makes.getLast?_definitions) ?_
      intro source managed nobody
      -- the file belongs to nobody, so this action asks for the assembly
      have new : binaryWith? (c.packagedPath source) made.definitions = none := by
        rw [owned.binaryWith?_eq, nobody]
        rfl
      exact (grows_emitFrom _ _ _ _ _ _ others).packaging (requested_of_emitKind first managed new)

theorem exists_packs_of_emitAll {result : ActionElements}
    (keeps : ∀ action ∈ c.project.actions, action.KeepsKeys)
    (given : (emitAll c).Gives before result after) :
    ∃ steps, IsRun none [] steps result ∧ steps.map ActionStep.action = c.project.actions ∧
      steps.map ActionStep.id = mainIds c.project.actions before.ids ∧
      c.Packs [] steps result.definitions after.packaging := by
  simp only [emitAll, gives_bind, gives_reserve] at given
  obtain ⟨_, _, rfl, given⟩ := given
  obtain ⟨steps, elements, rfl, run, actions, ids, packs⟩ :=
    exists_packs_of_emitFrom Compilation.Owned.nil keeps given
  exact ⟨steps, (ActionElements.nil_append elements).symm ▸ run, actions, ids, packs⟩

/-! ## Ids of actions -/

/-- The ids of actions are their declared ids, which are in use, and others, which are not. -/
theorem nodup_idsFrom {actions : List CustomAction} {pool : IdPool}
    (distinct : (actions.filterMap CustomAction.id).Nodup)
    (reserved : ∀ id ∈ actions.filterMap CustomAction.id, pool.isUsed .action id = true) :
    (idsFrom pool actions).Nodup ∧ ∀ id ∈ idsFrom pool actions,
      id ∈ actions.filterMap CustomAction.id ∨ pool.isUsed .action id = false := by
  induction actions generalizing pool with
  | nil => simp [idsFrom]
  | cons action rest ih =>
    rw [idsFrom, claimId]
    cases declared : action.id with
    | some id =>
      rw [List.filterMap_cons_some declared] at distinct reserved ⊢
      rw [List.nodup_cons] at distinct
      rw [List.forall_mem_cons] at reserved
      obtain ⟨nodup, origin⟩ := ih distinct.2 reserved.2
      refine ⟨List.nodup_cons.mpr ⟨fun again => ?_, nodup⟩, List.forall_mem_cons.mpr
        ⟨.inl (List.mem_cons_self ..), fun other mem => ?_⟩⟩
      · rcases origin id again with twice | unused
        · exact distinct.1 twice
        · exact Bool.false_ne_true (unused.symm.trans reserved.1)
      · exact (origin other mem).imp_left (List.mem_cons_of_mem id)
    | none =>
      rw [List.filterMap_cons_none declared] at distinct reserved ⊢
      -- declared ids are in use by now, and what is made later is not in use after this id is made
      have hands := IdPool.hands_claim .action (Folder.identifier action.name) pool
      have fresh := hands.fresh _ (List.mem_singleton_self _)
      obtain ⟨nodup, origin⟩ := ih distinct fun id mem =>
        (hands.used id).mpr (.inl (reserved id mem))
      refine ⟨List.nodup_cons.mpr ⟨fun again => ?_, nodup⟩, List.forall_mem_cons.mpr
        ⟨.inr fresh, fun other mem => (origin other mem).imp_right fun unused => ?_⟩⟩
      · rcases origin _ again with declared | unused
        · exact Bool.false_ne_true (fresh.symm.trans (reserved _ declared))
        · have used := (hands.used _).mpr (.inr (List.mem_singleton_self _))
          exact Bool.false_ne_true (unused.symm.trans used)
      · exact Bool.eq_false_iff.mpr fun used =>
          Bool.false_ne_true (unused.symm.trans ((hands.used other).mpr (.inl used)))

theorem isUsed_reserveIds (ids : List String) (pool : IdPool) :
    ∀ id, (id ∈ ids ∨ pool.isUsed .action id = true) →
      (ids.foldl (fun pool id => ((IdPool.reserve .action id).run pool).2) pool).isUsed
        .action id = true := by
  induction ids generalizing pool with
  | nil => simp
  | cons first rest ih =>
    intro id known
    refine ih _ id ?_
    rw [IdPool.isUsed_reserve]
    rcases known with mem | used
    · rcases List.mem_cons.mp mem with rfl | mem
      · exact .inr (.inl rfl)
      · exact .inl mem
    · exact .inr (.inr used)

/-- No two actions have the same id if no two declare the same. -/
theorem nodup_mainIds {actions : List CustomAction} (pool : IdPool)
    (distinct : (actions.filterMap CustomAction.id).Nodup) : (mainIds actions pool).Nodup :=
  (nodup_idsFrom distinct fun id mem => isUsed_reserveIds _ pool id (.inl mem)).1

end CustomAction

/-! ## Shared binaries -/

namespace Compilation

variable {c : Compilation} {steps : List ActionStep} {definitions : List Element}
  {requests : List PackagingRequest}

theorem payload?_of_owner? {path : String} {owner : ActionStep}
    (owns : c.owner? steps path = some owner) : owner.action.payload? c = some path := by
  simpa using List.find?_some owns

/-- Managed actions call the same binary if and only if their assemblies are packaged into the same
file. -/
theorem Packs.binaryKey_eq_iff (packs : c.Packs [] steps definitions requests)
    (distinct : (steps.map ActionStep.id).Nodup) {s t : ActionStep} (isStep : s ∈ steps)
    (isStep' : t ∈ steps) {a b : String} (managed : s.action.assembly? c = some a)
    (managed' : t.action.assembly? c = some b) :
    s.definition.attrOf? "BinaryKey" = t.definition.attrOf? "BinaryKey" ↔
      c.packagedPath a = c.packagedPath b := by
  obtain ⟨owner, owns, called⟩ := packs.calls s isStep a managed
  obtain ⟨owner', owns', called'⟩ := packs.calls t isStep' b managed'
  rw [List.nil_append] at owns owns'
  rw [called, called', Option.some.injEq]
  constructor
  · intro same
    -- the keys tell the ids of the owners apart, and those the owners
    have sameId : owner.id = owner'.id := by
      rw [CustomAction.fileKey, CustomAction.fileKey] at same
      exact (String.append_left_inj _).mp same
    have mem := List.mem_of_find?_eq_some owns
    have mem' := List.mem_of_find?_eq_some owns'
    have one : owner = owner' := List.inj_on_of_nodup_map distinct mem mem' sameId
    have path := payload?_of_owner? owns
    rw [one, payload?_of_owner? owns'] at path
    exact (Option.some.inj path).symm
  · intro same
    rw [same, owns', Option.some.injEq] at owns
    rw [owns]

end Compilation

end Installer
