import Installer.Proofs.Action.Step

/-! # Runs over the declared actions

What an action hands on to the one declared next is its own id, whatever else it gives.  `IsRun`
describes a run by one `ActionStep` for each action; where the entries stand is read off the steps
(`IsRun.standsAt`).
-/

namespace Installer

open Markup (Element)
open Markup.Element
open Emit

namespace CustomAction

variable {c : Compilation} {before after : Ledger}

/-! ## Ids -/

def claimId (action : CustomAction) : StateM IdPool String :=
  match action.id with
  | some id => pure id
  | none => IdPool.claim .action (Folder.identifier action.name)

def idsFrom (pool : IdPool) : List CustomAction → List String
  | [] => []
  | action :: rest => (action.claimId.run pool).1 :: idsFrom (action.claimId.run pool).2 rest

/-- The ids of all actions: those that are declared are put in use before one is made. -/
def mainIds (actions : List CustomAction) (pool : IdPool) : List String :=
  idsFrom ((actions.filterMap CustomAction.id).foldl
    (fun pool id => ((IdPool.reserve .action id).run pool).2) pool) actions

theorem gives_idOr_iff {action : CustomAction} {result : String} :
    (Emit.idOr .action action.id action.name).Gives before result after ↔
      result = (action.claimId.run before.ids).1 ∧
        after = { before with ids := (action.claimId.run before.ids).2 } := by
  rw [Emit.idOr.eq_def, claimId]
  cases action.id with
  | some id =>
    rw [gives_pure, eq_comm, @eq_comm _ before]
    rfl
  | none => exact gives_withIds

theorem not_fails_idOr {action : CustomAction} {fault : CompileError} :
    ¬ (Emit.idOr .action action.id action.name).Fails before fault := by
  rw [Emit.idOr.eq_def]
  split <;> simp

/-! ## Placements -/

/-- The first action alone may have nothing to be placed against. -/
theorem placement_eq_error {previous : Option String} {action : CustomAction}
    {fault : CompileError} :
    action.placement previous = .error fault ↔
      previous = none ∧ action.IsUnplaced ∧ fault = .previousActionUnavailable action.name := by
  rw [placement, IsUnplaced]
  cases action.sequenceNumber with
  | some n => simp
  | none =>
    cases action.step <;> cases previous <;> simp [Step.anchor?, eq_comm]

end CustomAction

/-! ## Whole runs -/

/-- The step stands for what its action gives, whatever was made before. -/
def ActionStep.IsEmitted (c : Compilation) (step : ActionStep) : Prop :=
  ∃ before made elements after,
    (step.action.emitKind c made step.id step.placement).Gives before elements after ∧
      step.Makes made elements

/-- The steps of a run over the actions that follow `previous`, where `made` are the definitions
made before. -/
inductive IsRun : Option String → List Element → List ActionStep → ActionElements → Prop
  | nil {previous : Option String} {made : List Element} : IsRun previous made [] {}
  | cons {previous : Option String} {made : List Element} {step : ActionStep}
      {steps : List ActionStep} {elements others : ActionElements}
      (placed : step.action.placement previous = .ok step.placement)
      (makes : step.Makes made elements)
      (rest : IsRun (some step.id) (made ++ elements.definitions) steps others) :
      IsRun previous made (step :: steps) (elements ++ others)

namespace CustomAction

variable {c : Compilation} {before after : Ledger}

theorem isRun_of_emitFrom {actions : List CustomAction} {previous : Option String}
    {made result : ActionElements}
    (given : (emitFrom c previous made actions).Gives before result after) :
    ∃ steps elements, result = made ++ elements ∧ IsRun previous made.definitions steps elements ∧
      steps.map ActionStep.action = actions ∧
      steps.map ActionStep.id = idsFrom before.ids actions ∧
      ∀ step ∈ steps, step.IsEmitted c := by
  induction actions generalizing previous made before with
  | nil =>
    obtain ⟨rfl, rfl⟩ := gives_pure.mp given
    exact ⟨[], {}, (made.append_nil).symm, .nil, rfl, rfl, List.forall_mem_nil _⟩
  | cons action rest ih =>
    simp only [emitFrom, emit, gives_bind, gives_pure, gives_liftM, gives_idOr_iff] at given
    obtain ⟨⟨id, elements⟩, _, ⟨_, _, ⟨rfl, rfl⟩, placement, _, ⟨placed, rfl⟩, _, _, first,
      same, rfl⟩, others⟩ := given
    cases same
    obtain ⟨kept, definition, makes⟩ := makes_of_emitKind first
    obtain ⟨steps, rest, rfl, run, sameActions, sameIds, emitted⟩ := ih others
    refine ⟨⟨action, _, placement, definition⟩ :: steps, elements ++ rest,
      made.append_assoc elements rest, .cons placed makes run, by rw [List.map_cons, sameActions],
      ?_, List.forall_mem_cons.mpr ⟨⟨_, _, _, _, first, makes⟩, emitted⟩⟩
    rw [List.map_cons, sameIds, kept]
    rfl

theorem fails_emit_iff {previous : Option String} {made : List Element} {action : CustomAction}
    {fault : CompileError} :
    (action.emit c previous made).Fails before fault ↔
      previous = none ∧ action.IsUnplaced ∧ fault = .previousActionUnavailable action.name := by
  rw [← placement_eq_error]
  simp only [emit, fails_bind, fails_liftM, fails_pure, not_fails_idOr,
    not_fails_emitKind, gives_idOr_iff]
  simp

/-- A run fails just if its first action has nothing to be placed against. -/
theorem fails_emitFrom_iff {actions : List CustomAction} {previous : Option String}
    {made : ActionElements} {fault : CompileError} :
    (emitFrom c previous made actions).Fails before fault ↔
      previous = none ∧ ∃ first rest, actions = first :: rest ∧ first.IsUnplaced ∧
        fault = .previousActionUnavailable first.name := by
  induction actions generalizing previous made before with
  | nil => simp [emitFrom]
  | cons action rest ih =>
    rw [emitFrom, fails_bind]
    constructor
    · rintro (failed | ⟨⟨id, elements⟩, _, -, failed⟩)
      · obtain ⟨first, unplaced, same⟩ := fails_emit_iff.mp failed
        exact ⟨first, action, rest, rfl, unplaced, same⟩
      · -- every later action has one before it
        cases (ih.mp failed).1
    · rintro ⟨first, _, _, same, unplaced, rfl⟩
      cases same
      exact .inl (fails_emit_iff.mpr ⟨first, unplaced, rfl⟩)

theorem gives_reserve {ids : List String} {result : PUnit} :
    (forIn ids PUnit.unit fun id _ => do
      withIds (IdPool.reserve .action id)
      pure (ForInStep.yield PUnit.unit) : Emit PUnit).Gives before result after ↔
    after = { before with
      ids := ids.foldl (fun pool id => ((IdPool.reserve .action id).run pool).2) before.ids } := by
  induction ids generalizing before with
  | nil => simp [eq_comm]
  | cons id rest ih =>
    simp only [List.forIn_cons, gives_bind, gives_pure, gives_withIds]
    constructor
    · rintro ⟨_, _, ⟨_, _, ⟨-, rfl⟩, rfl, rfl⟩, others⟩
      exact ih.mp others
    · intro others
      exact ⟨_, _, ⟨(), _, ⟨trivial, rfl⟩, rfl, rfl⟩, ih.mpr others⟩

theorem not_fails_reserve {ids : List String} {fault : CompileError} :
    ¬ (forIn ids PUnit.unit fun id _ => do
      withIds (IdPool.reserve .action id)
      pure (ForInStep.yield PUnit.unit) : Emit PUnit).Fails before fault := by
  induction ids generalizing before with
  | nil => simp
  | cons id rest ih =>
    simp only [List.forIn_cons, fails_bind, fails_pure, fails_withIds, gives_bind, gives_pure]
    rintro (impossible | ⟨_, between, ⟨_, _, -, rfl, -⟩, others⟩)
    · simp at impossible
    · exact ih others

theorem isRun_of_emitAll {result : ActionElements}
    (given : (emitAll c).Gives before result after) :
    ∃ steps, IsRun none [] steps result ∧ steps.map ActionStep.action = c.project.actions ∧
      steps.map ActionStep.id = mainIds c.project.actions before.ids ∧
      ∀ step ∈ steps, step.IsEmitted c := by
  simp only [emitAll, gives_bind, gives_reserve] at given
  obtain ⟨_, _, rfl, given⟩ := given
  obtain ⟨steps, elements, rfl, run, actions, ids, emitted⟩ := isRun_of_emitFrom given
  exact ⟨steps, (ActionElements.nil_append elements).symm ▸ run, actions, ids, emitted⟩

theorem fails_emitAll_iff {fault : CompileError} :
    (emitAll c).Fails before fault ↔
      ∃ first rest, c.project.actions = first :: rest ∧ first.IsUnplaced ∧
        fault = .previousActionUnavailable first.name := by
  simp only [emitAll, fails_bind, not_fails_reserve, gives_reserve, fails_emitFrom_iff, true_and,
    false_or]
  simp

end CustomAction

/-! ## What a run leaves behind -/

namespace IsRun

variable {previous : Option String} {made : List Element} {steps : List ActionStep}
  {elements : ActionElements}

theorem entries (run : IsRun previous made steps elements) :
    elements.entries = steps.flatMap ActionStep.entries := by
  induction run with
  | nil => rfl
  | cons placed makes rest ih =>
    rw [ActionElements.entries_append, makes.entries, ih, List.flatMap_cons]

theorem name_definitions (run : IsRun previous made steps elements) :
    ∀ x ∈ elements.definitions, x.name = "CustomAction" ∨ x.name = "Binary" := by
  induction run with
  | nil => simp
  | cons placed makes rest ih =>
    obtain ⟨binaries, isBinary, definitions⟩ := makes.definitions
    rw [ActionElements.definitions_append, definitions, List.forall_mem_append,
      List.forall_mem_append]
    exact ⟨⟨fun x mem => .inr (isBinary x mem), fun x mem => .inl (makes.named x mem)⟩, ih⟩

def before (previous : Option String) (ids : List String) : Nat → Option String
  | 0 => previous
  | i + 1 => ids[i]?

theorem placed (run : IsRun previous made steps elements) {i : Nat} {step : ActionStep}
    (found : steps[i]? = some step) :
    step.action.placement (before previous (steps.map ActionStep.id) i) = .ok step.placement := by
  induction run generalizing i with
  | nil => simp at found
  | @cons previous made first steps elements others placed makes rest ih =>
    cases i with
    | zero =>
      cases found
      exact placed
    | succ i =>
      have inner := ih found
      cases i with
      | zero => exact inner
      | succ i => exact inner

end IsRun

/-! ## Placements of a run -/

/-- The placement of the action at a place of a run: its number if it has one, and otherwise a side
of the action that its step names or of the one declared just before, whose id is among `ids`.  For
the first action the shorthands stand for the start and the end of the installation. -/
inductive StandsAt (ids : List String) (action : CustomAction) : Nat → Placement → Prop
  | number {i : Nat} {n : UInt32} (numbered : action.sequenceNumber = some n) :
      StandsAt ids action i (.number n)
  | named {i : Nat} {name : String} (unnumbered : action.sequenceNumber = none)
      (step : action.step = .named name) :
      StandsAt ids action i (.anchor action.placed name)
  | previous {i : Nat} {id : String} (unnumbered : action.sequenceNumber = none)
      (relative : ∀ name, action.step ≠ .named name) (before : ids[i]? = some id) :
      StandsAt ids action (i + 1) (.anchor action.placed id)
  | start (unnumbered : action.sequenceNumber = none)
      (step : action.step = .previousActionOrInstallInitialize) :
      StandsAt ids action 0 (.anchor action.placed "InstallInitialize")
  | finish (unnumbered : action.sequenceNumber = none)
      (step : action.step = .previousActionOrInstallFinalize) :
      StandsAt ids action 0 (.anchor action.placed "InstallFinalize")

namespace StandsAt

variable {ids : List String} {action : CustomAction} {placement : Placement}

theorem of_first (placed : action.placement none = .ok placement) :
    StandsAt ids action 0 placement := by
  rw [CustomAction.placement] at placed
  cases number : action.sequenceNumber with
  | some n =>
    simp only [number, Except.ok.injEq] at placed
    exact placed ▸ .number number
  | none =>
    simp only [number] at placed
    cases step : action.step with
    | previousAction => simp [step, Step.anchor?] at placed
    | previousActionOrInstallInitialize =>
      simp only [step, Step.anchor?, Option.getD_none, Except.ok.injEq] at placed
      exact placed ▸ .start number step
    | previousActionOrInstallFinalize =>
      simp only [step, Step.anchor?, Option.getD_none, Except.ok.injEq] at placed
      exact placed ▸ .finish number step
    | named name =>
      simp only [step, Step.anchor?, Except.ok.injEq] at placed
      exact placed ▸ .named number step

theorem of_later {i : Nat} {id : String} (before : ids[i]? = some id)
    (placed : action.placement (some id) = .ok placement) :
    StandsAt ids action (i + 1) placement := by
  rw [CustomAction.placement] at placed
  cases number : action.sequenceNumber with
  | some n =>
    simp only [number, Except.ok.injEq] at placed
    exact placed ▸ .number number
  | none =>
    simp only [number] at placed
    cases step : action.step with
    | previousAction | previousActionOrInstallInitialize | previousActionOrInstallFinalize =>
      simp only [step, Step.anchor?, Option.getD_some, Except.ok.injEq] at placed
      exact placed ▸ .previous number (by simp [step]) before
    | named name =>
      simp only [step, Step.anchor?, Except.ok.injEq] at placed
      exact placed ▸ .named number step

end StandsAt

theorem IsRun.standsAt {steps : List ActionStep} {elements : ActionElements}
    (run : IsRun none [] steps elements) {i : Nat} {step : ActionStep}
    (found : steps[i]? = some step) :
    StandsAt (steps.map ActionStep.id) step.action i step.placement := by
  have placed := run.placed found
  cases i with
  | zero => exact .of_first placed
  | succ i =>
    have inside : i + 1 < steps.length := (List.getElem?_eq_some_iff.mp found).1
    have before : (steps.map ActionStep.id)[i]? = some steps[i].id := by
      rw [List.getElem?_map, List.getElem?_eq_getElem (Nat.lt_of_succ_lt inside)]
      rfl
    exact .of_later before (by simpa [IsRun.before, before] using placed)

/-! ## Resolution of placements -/

/-- The steps stand for the declared actions and give the entries of `elements`.  What an action may
be placed against is the id of another step, never that of a helper. -/
structure ArePlaced (c : Compilation) (pool : IdPool) (steps : List ActionStep)
    (elements : ActionElements) : Prop where
  actions : steps.map ActionStep.action = c.project.actions
  ids : steps.map ActionStep.id = CustomAction.mainIds c.project.actions pool
  entries : elements.entries = steps.flatMap ActionStep.entries
  standsAt : ∀ i step, steps[i]? = some step →
    StandsAt (steps.map ActionStep.id) step.action i step.placement

theorem CustomAction.exists_arePlaced {c : Compilation} {before after : Ledger}
    {elements : ActionElements} (given : (emitAll c).Gives before elements after) :
    ∃ steps, IsRun none [] steps elements ∧ ArePlaced c before.ids steps elements := by
  obtain ⟨steps, run, actions, ids, -⟩ := isRun_of_emitAll given
  exact ⟨steps, run, actions, ids, run.entries, fun i step => run.standsAt⟩

/-- The actions of a project are placed as they are declared.  The only fault is a first action that
has nothing to stand behind. -/
theorem CustomAction.arePlaced_emitAll (c : Compilation) (before : Ledger) :
    (∀ fault, (emitAll c).Fails before fault ↔
      ∃ first rest, c.project.actions = first :: rest ∧ first.IsUnplaced ∧
        fault = .previousActionUnavailable first.name) ∧
    ((∀ first ∈ c.project.actions.head?, ¬ first.IsUnplaced) →
      ∃ elements after steps, (emitAll c).Gives before elements after ∧
        ArePlaced c before.ids steps elements) := by
  refine ⟨fun fault => fails_emitAll_iff, fun placeable => ?_⟩
  have never : ∀ fault, ¬ (emitAll c).Fails before fault := by
    intro fault failed
    obtain ⟨first, rest, same, unplaced, -⟩ := fails_emitAll_iff.mp failed
    exact placeable first (by simp [same]) unplaced
  obtain ⟨elements, after, given⟩ := exists_gives never
  obtain ⟨steps, -, placed⟩ := exists_arePlaced given
  exact ⟨elements, after, steps, given, placed⟩

/-- A project whose actions are of several kinds, two of them with helpers.  All but the first have
the same name, so that their ids are numbered. -/
def Project.staged : Project where
  name := "Staged"
  upgradeStrategy := some .standard
  actions :=
    [{ name := "Start", kind := .setProperty "MODE" "full",
       step := .previousActionOrInstallInitialize },
     { name := "Work", kind := .quietCommand "tool.exe" "", sequenceNumber := some 5 },
     { name := "Work", kind := .managed "Tasks.dll" "Run" ["MODE"], step := .previousAction,
       placed := .before, execute := .deferred, sequences := [] },
     { name := "Work", kind := .scriptFile "work.vbs" "Main", step := .previousAction,
       sequences := [.installUI, .installExecute, .installUI] }]

theorem CustomAction.arePlaced_staged :
    ∃ c elements after steps, c.project = Project.staged ∧
      (emitAll c).Gives {} elements after ∧ ArePlaced c {} steps elements ∧
      steps.map ActionStep.id = ["Start", "Work", "Work.1", "Work.2"] := by
  let c : Compilation :=
    { project := .staged, options := {}, seed := ⟨1⟩, productId := ⟨2⟩, upgradeCode := ⟨3⟩,
      culture := ⟨1033, 1252⟩ }
  have placeable : ∀ first ∈ c.project.actions.head?, ¬ first.IsUnplaced := by
    simp [c, Project.staged, IsUnplaced]
  obtain ⟨elements, after, steps, given, placed⟩ := (arePlaced_emitAll c {}).2 placeable
  have ids : mainIds Project.staged.actions {} = ["Start", "Work", "Work.1", "Work.2"] := by
    decide +kernel
  exact ⟨c, elements, after, steps, rfl, given, placed, placed.ids.trans ids⟩

end Installer
