import Installer.Proofs.Action.Payload
import Installer.Proofs.Ident.Given
import Mathlib.Data.List.Perm.Subperm

/-! # The ids of actions

Declared ids are put in use before any id is made of a name, so that the actions of a project are
told apart.  A helper has no id from the pool: its id is made by putting fixed texts around that of
its action, and the pool does not hear of it.
-/

namespace Installer

open Markup (Element)
open Markup.Element
open Emit

namespace CustomAction

/-! ## Own ids -/

/-- What the id of an action is made from. -/
def naming (action : CustomAction) : Naming :=
  ⟨action.id, action.name⟩

theorem idsFrom_eq (pool : IdPool) (actions : List CustomAction) :
    idsFrom pool actions = pool.idsFor .action (actions.map naming) := by
  induction actions generalizing pool with
  | nil => rfl
  | cons action rest ih =>
    rw [idsFrom, ih, List.map_cons, IdPool.idsFor_cons]
    rfl

/-- Of a pool only the ids of actions matter for those of the actions of a project. -/
theorem mainIds_congr {pool pool' : IdPool} (agree : IdPool.AgreeOn .action pool pool')
    (actions : List CustomAction) : mainIds actions pool = mainIds actions pool' := by
  rw [mainIds, mainIds, idsFrom_eq, idsFrom_eq]
  exact (agree.reserveAll _).idsFor_eq _

theorem length_mainIds (actions : List CustomAction) (pool : IdPool) :
    (mainIds actions pool).length = actions.length := by
  rw [mainIds, idsFrom_eq, ← (IdPool.forall₂_idsFor _ _ _).length_eq, List.length_map]

/-- Declared ids are kept. -/
theorem subperm_mainIds (actions : List CustomAction) (pool : IdPool) :
    (actions.filterMap CustomAction.id).Subperm (mainIds actions pool) := by
  have perm := IdPool.perm_idsFor .action (actions.map naming)
    ((actions.filterMap CustomAction.id).foldl
      (fun pool id => ((IdPool.reserve .action id).run pool).2) pool)
  rw [List.filterMap_map] at perm
  rw [mainIds, idsFrom_eq]
  exact (List.sublist_append_left _ _).subperm.trans perm.symm.subperm

/-! ## Ids of helpers -/

def helperId? (action : CustomAction) (id : String) : Option String :=
  match action.kind with
  | .managed _ _ usesProperties =>
    if action.execute = .deferred ∧ !usesProperties.isEmpty then some ("Set_" ++ id ++ "_Props")
    else none
  | .quietCommand .. => some ("Set_" ++ id ++ "_CmdLine")
  | _ => none

theorem helperId?_cases {action : CustomAction} {id helper : String}
    (found : action.helperId? id = some helper) :
    helper = "Set_" ++ id ++ "_Props" ∨ helper = "Set_" ++ id ++ "_CmdLine" := by
  rw [helperId?] at found
  split at found
  next =>
    split at found
    next => exact .inl (Option.some.inj found).symm
    next => cases found
  next => exact .inr (Option.some.inj found).symm
  next => cases found

/-- Helpers of actions with different ids have different ids. -/
theorem helperId?_inj {action action' : CustomAction} {id id' helper : String}
    (found : action.helperId? id = some helper) (found' : action'.helperId? id' = some helper) :
    id = id' := by
  have last : ∀ text : String, ("Set_" ++ text ++ "_Props").toList.getLast? = some 's' ∧
      ("Set_" ++ text ++ "_CmdLine").toList.getLast? = some 'e' := by
    simp [String.toList_append, List.getLast?_cons, List.getLast?_append]
  rcases helperId?_cases found with rfl | rfl
  · rcases helperId?_cases found' with same | same
    · simpa using same
    · have ends := (last id).1
      rw [same, (last id').2] at ends
      simp at ends
  · rcases helperId?_cases found' with same | same
    · have ends := (last id).2
      rw [same, (last id').1] at ends
      simp at ends
    · simpa using same

theorem nodup_helperIds {actions : List CustomAction} {ids : List String}
    (same : actions.length = ids.length) (nodup : ids.Nodup) :
    ((actions.zip ids).filterMap fun entry => entry.1.helperId? entry.2).Nodup := by
  have apart : (actions.zip ids).Pairwise fun entry entry' => entry.2 ≠ entry'.2 := by
    rw [← List.pairwise_map (R := (· ≠ ·)), List.map_snd_zip (Nat.le_of_eq same.symm)]
    exact nodup
  refine List.Pairwise.filterMap _ (fun entry entry' other helper found helper' found' => ?_) apart
  rintro rfl
  exact other (helperId?_inj found found')

/-! ## Definitions -/

def KeepsId (action : CustomAction) : Prop :=
  ∀ pair ∈ action.attributes.pairs, pair.1 ≠ "Id"

/-- The ids of all that an action with the given id defines, its helper first. -/
def definedIds (action : CustomAction) (id : String) : List String :=
  (action.helperId? id).toList ++ [id]

end CustomAction

/-- The elements define actions with these ids, as long as `kept` holds, and binaries with the keys
of `owners`. -/
structure Defines (kept : Prop) (owners ids : List String) (definitions : List Element) : Prop where
  ids : kept → (definitions.filter fun x => x.name == "CustomAction").map id? = ids.map some
  binaries : ∀ x ∈ definitions, x.name = "Binary" →
    ∃ owner ∈ owners, x.id? = some (CustomAction.fileKey owner)
  leaves : ∀ x ∈ definitions, x.elements = []

namespace Defines

variable {kept kept' : Prop} {owners owners' ids ids' : List String}
  {definitions definitions' : List Element}

theorem nil : Defines kept owners [] [] :=
  ⟨fun _ => rfl, nofun, nofun⟩

theorem append (first : Defines kept owners ids definitions)
    (second : Defines kept owners ids' definitions') :
    Defines kept owners (ids ++ ids') (definitions ++ definitions') where
  ids keeps := by
    rw [List.filter_append, List.map_append, first.ids keeps, second.ids keeps, List.map_append]
  binaries := List.forall_mem_append.mpr ⟨first.binaries, second.binaries⟩
  leaves := List.forall_mem_append.mpr ⟨first.leaves, second.leaves⟩

theorem mono (defines : Defines kept owners ids definitions) (weaker : kept' → kept)
    (subset : owners ⊆ owners') : Defines kept' owners' ids definitions where
  ids keeps := defines.ids (weaker keeps)
  binaries x mem isBinary := by
    obtain ⟨owner, among, key⟩ := defines.binaries x mem isBinary
    exact ⟨owner, subset among, key⟩
  leaves := defines.leaves

theorem binary (id source : String) :
    Defines kept [id] [] [CustomAction.binaryElement id source] where
  ids _ := rfl
  binaries := List.forall_mem_singleton.mpr fun _ => ⟨id, List.mem_singleton_self _, rfl⟩
  leaves := List.forall_mem_singleton.mpr rfl

theorem action {id : String} {e : Element} (named : e.name = "CustomAction")
    (identified : kept → e.id? = some id) (leaf : e.elements = []) :
    Defines kept owners [id] [e] where
  ids keeps := by simp [named, identified keeps]
  binaries := List.forall_mem_singleton.mpr fun isBinary => by simp [named] at isBinary
  leaves := List.forall_mem_singleton.mpr leaf

end Defines

namespace CustomAction

variable {c : Compilation} {before after : Ledger}

/-- The definition of an action with the given id, whatever else it says. -/
theorem defines_definition (action : CustomAction) (id : String) (owners : List String)
    {attrs : List (String × String)} (other : "Id" ∉ attrs.map Prod.fst) :
    Defines action.KeepsId owners [id] [action.definition (("Id", id) :: attrs)] := by
  refine .action (name_definition ..) (fun keeps => ?_) (by simp [definition])
  rw [id?, definition, attrOf?_withAttrs _ keeps]
  exact attrOf?_withAttrs_cons _ "Id" id fun pair mem same =>
    other (same ▸ List.mem_map_of_mem mem)

/-- A binary for a managed assembly is made for the action that calls it, or not at all. -/
theorem defines_of_emitManagedBinary {kept : Prop} {made : List Element} {id assembly : String}
    {result : String × List Element}
    (given : (emitManagedBinary c made id assembly).Gives before result after) :
    Defines kept [id] [] result.2 := by
  simp only [emitManagedBinary] at given
  split at given
  next =>
    obtain ⟨rfl, -⟩ := gives_pure.mp given
    exact .nil
  next =>
    simp only [gives_bind, gives_pure] at given
    obtain ⟨packaged, _, -, rfl, -⟩ := given
    exact .binary id packaged

/-- An action defines itself and its helper, and a binary only under its own key. -/
theorem defines_of_emitKind {made : List Element} {id : String} {placement : Placement}
    {action : CustomAction} {elements : ActionElements}
    (given : (action.emitKind c made id placement).Gives before elements after) :
    Defines action.KeepsId [id] (action.definedIds id) elements.definitions := by
  simp only [emitKind] at given
  cases kind : action.kind with
  | setProperty property value =>
    simp only [kind] at given
    obtain ⟨rfl, -⟩ := gives_pure.mp given
    have single : action.helperId? id = none := by simp [helperId?, kind]
    rw [definedIds, single]
    exact action.defines_definition id [id] (by simp)
  | script code =>
    simp only [kind] at given
    obtain ⟨rfl, -⟩ := gives_pure.mp given
    have single : action.helperId? id = none := by simp [helperId?, kind]
    rw [definedIds, single]
    exact .action (name_withAttrs ..) (fun keeps => attrOf?_withAttrs _ keeps) (by simp; rfl)
  | scriptFile scriptFile procedure =>
    simp only [kind] at given
    obtain ⟨rfl, -⟩ := gives_pure.mp given
    have single : action.helperId? id = none := by simp [helperId?, kind]
    rw [definedIds, single]
    exact (Defines.binary id _).append (action.defines_definition id [id] (by simp))
  | managed assembly method usesProperties =>
    simp only [kind, gives_bind] at given
    obtain ⟨⟨key, binaries⟩, between, managed, given⟩ := given
    obtain ⟨rfl, -⟩ := gives_pure.mp given
    have first : Defines action.KeepsId [id] [] binaries := defines_of_emitManagedBinary managed
    have last := action.defines_definition id [id]
      (by simp : "Id" ∉ (("BinaryKey", key) :: ("DllEntry", method) :: action.resultLast).map
        Prod.fst)
    -- the helper is defined behind the binary and before the action
    simp only [definedIds, helperId?, kind]
    split
    next =>
      have helper : Defines action.KeepsId [id] ["Set_" ++ id ++ "_Props"]
          [settingElement ("Set_" ++ id ++ "_Props") id (propertyMapping usesProperties)] :=
        .action rfl (fun _ => rfl) rfl
      exact (first.append helper).append last
    next => exact (first.append .nil).append last
  | quietCommand program args =>
    simp only [kind, gives_bind, gives_note] at given
    obtain ⟨_, _, -, given⟩ := given
    obtain ⟨rfl, -⟩ := gives_pure.mp given
    have helper : Defines action.KeepsId [id] ["Set_" ++ id ++ "_CmdLine"]
        [(settingElement ("Set_" ++ id ++ "_CmdLine") "QtExecCmdLine"
          (commandLine program args)).withAttrs action.attributes.pairs] :=
      .action (name_withAttrs ..) (fun keeps => attrOf?_withAttrs _ keeps)
        (by simp [settingElement])
    simp only [definedIds, helperId?, kind]
    exact helper.append (.action rfl (fun _ => rfl) rfl)
  | installedFile fileKey args | binaryFile binaryKey args | pathFile program args workingDir =>
    simp only [kind] at given
    obtain ⟨rfl, -⟩ := gives_pure.mp given
    have single : action.helperId? id = none := by simp [helperId?, kind]
    rw [definedIds, single]
    exact action.defines_definition id [id] (by simp)

/-! ## Whole runs -/

theorem defines_of_emitFrom {actions : List CustomAction} {previous : Option String}
    {made result : ActionElements} {kept : Prop} {owners ids : List String}
    (keeps : kept → ∀ action ∈ actions, action.KeepsId)
    (subset : idsFrom before.ids actions ⊆ owners)
    (defines : Defines kept owners ids made.definitions)
    (given : (emitFrom c previous made actions).Gives before result after) :
    Defines kept owners
      (ids ++ (actions.zip (idsFrom before.ids actions)).flatMap fun entry =>
        entry.1.definedIds entry.2) result.definitions := by
  induction actions generalizing previous made ids before with
  | nil =>
    obtain ⟨rfl, -⟩ := gives_pure.mp given
    simpa using defines
  | cons action rest ih =>
    simp only [emitFrom, emit, gives_bind, gives_pure, gives_liftM, gives_idOr_iff] at given
    obtain ⟨⟨id, elements⟩, _, ⟨_, _, ⟨rfl, rfl⟩, placement, _, ⟨-, rfl⟩, _, _, first, same, rfl⟩,
      others⟩ := given
    cases same
    rw [idsFrom, List.cons_subset] at subset
    have ids := (makes_of_emitKind first).1
    have here := (defines_of_emitKind first).mono
      (fun all => keeps all action (List.mem_cons_self ..))
      (List.cons_subset.mpr ⟨subset.1, List.nil_subset _⟩)
    have later := ih (fun all other mem => keeps all other (List.mem_cons_of_mem _ mem))
      (by rw [ids]; exact subset.2) (defines.append here) others
    rw [ids, List.append_assoc] at later
    exact later

/-- All actions of a project are defined with their ids and with those of their helpers. -/
theorem defines_of_emitAll {result : ActionElements}
    (given : (emitAll c).Gives before result after) :
    Defines (∀ action ∈ c.project.actions, action.KeepsId) (mainIds c.project.actions before.ids)
      ((c.project.actions.zip (mainIds c.project.actions before.ids)).flatMap fun entry =>
        entry.1.definedIds entry.2) result.definitions := by
  simp only [emitAll, gives_bind, gives_reserve] at given
  obtain ⟨_, _, rfl, given⟩ := given
  have defines := defines_of_emitFrom (fun keeps => keeps) (List.Subset.refl _) .nil given
  rwa [List.nil_append] at defines

/-- The own ids of actions, and the ids of helpers. -/
theorem perm_definedIds {actions : List CustomAction} {ids : List String}
    (same : actions.length = ids.length) :
    ((actions.zip ids).flatMap fun entry => entry.1.definedIds entry.2).Perm
      (ids ++ (actions.zip ids).filterMap fun entry => entry.1.helperId? entry.2) := by
  have own : (actions.zip ids).flatMap (fun entry => [entry.2]) = ids := by
    rw [← List.map_eq_flatMap]
    exact List.map_snd_zip (Nat.le_of_eq same.symm)
  have helpers : (actions.zip ids).flatMap (fun entry => (entry.1.helperId? entry.2).toList) =
      (actions.zip ids).filterMap fun entry => entry.1.helperId? entry.2 := by
    rw [List.filterMap_eq_flatMap_toList]
  have both := (List.flatMap_append_perm (actions.zip ids)
    (fun entry => (entry.1.helperId? entry.2).toList) fun entry => [entry.2]).symm
  rw [own, helpers] at both
  exact both.trans List.perm_append_comm

end CustomAction

end Installer
