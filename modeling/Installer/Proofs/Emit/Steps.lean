import Installer.Source.Ledger
import Mathlib.Order.Defs.Unbundled

/-! # What steps give

A step of the compilation either finds a fault or gives a result together with a new ledger.  The
relations `Fails` and `Gives` name the two outcomes, and the lemmas take a step apart into the steps
that it is made of, so that no proof about emission has to open the monad itself.
-/

namespace Installer

namespace Emit

variable {α β : Type} {before after : Ledger}

/-- The step takes the ledger `before` to `after` and gives `result`. -/
def Gives (step : Emit α) (before : Ledger) (result : α) (after : Ledger) : Prop :=
  step.run before = .ok (result, after)

/-! ## Steps made of steps -/

@[simp] theorem gives_pure {value result : α} :
    Gives (pure value) before result after ↔ value = result ∧ before = after := by
  have run : (pure value : Emit α).run before = .ok (value, before) := rfl
  simp only [Gives, run, Except.ok.injEq, Prod.mk.injEq]

@[simp] theorem gives_bind {step : Emit α} {next : α → Emit β} {result : β} :
    Gives (step >>= next) before result after ↔
      ∃ value between,
        step.Gives before value between ∧ (next value).Gives between result after := by
  simp only [Gives, StateT.run_bind]
  cases run : step.run before with
  | error fault => simp [bind, Except.bind]
  | ok pair =>
    obtain ⟨value, between⟩ := pair
    constructor
    · exact fun given => ⟨value, between, rfl, given⟩
    · rintro ⟨_, _, equal, given⟩
      cases equal
      exact given

@[simp] theorem gives_map {step : Emit α} {f : α → β} {result : β} :
    Gives (f <$> step) before result after ↔
      ∃ value, step.Gives before value after ∧ f value = result := by
  rw [map_eq_pure_bind, gives_bind]
  constructor
  · rintro ⟨value, between, given, last⟩
    obtain ⟨equal, rfl⟩ := gives_pure.mp last
    exact ⟨value, given, equal⟩
  · rintro ⟨value, given, equal⟩
    exact ⟨value, after, given, gives_pure.mpr ⟨equal, rfl⟩⟩

@[simp] theorem gives_fail {fault : CompileError} {result : α} :
    ¬ Gives (fail fault) before result after := by
  have run : (fail fault : Emit α).run before = .error fault := rfl
  simp [Gives, run]

@[simp] theorem gives_note {change : Ledger → Ledger} {result : Unit} :
    Gives (note change) before result after ↔ after = change before := by
  have run : (note change).run before = .ok ((), change before) := rfl
  simp [Gives, run, eq_comm]

@[simp] theorem gives_get {result : Ledger} :
    Gives get before result after ↔ result = before ∧ after = before := by
  have run : (get : Emit Ledger).run before = .ok (before, before) := rfl
  simp [Gives, run, eq_comm]

@[simp] theorem gives_liftM {step : Except CompileError α} {result : α} :
    Gives (liftM step) before result after ↔ step = .ok result ∧ before = after := by
  cases step with
  | error fault =>
    have run : (liftM (.error fault : Except CompileError α) : Emit α).run before = .error fault :=
      rfl
    simp [Gives, run]
  | ok value =>
    have run : (liftM (.ok value : Except CompileError α) : Emit α).run before =
        .ok (value, before) := rfl
    simp [Gives, run]

@[simp] theorem gives_withIds {step : StateM IdPool α} {result : α} :
    Gives (withIds step) before result after ↔
      result = (step.run before.ids).1 ∧
        after = { before with ids := (step.run before.ids).2 } := by
  have run : (withIds step).run before =
      .ok ((step.run before.ids).1, { before with ids := (step.run before.ids).2 }) := rfl
  simp only [Gives, run, Except.ok.injEq, Prod.mk.injEq, eq_comm]

/-! ## Steps over lists -/

@[simp] theorem gives_mapM_nil {step : α → Emit β} {results : List β} :
    Gives ([].mapM step) before results after ↔ results = [] ∧ after = before := by
  simp [eq_comm]

@[simp] theorem gives_mapM_cons {step : α → Emit β} {first : α} {rest : List α}
    {results : List β} :
    Gives ((first :: rest).mapM step) before results after ↔
      ∃ result between others, (step first).Gives before result between ∧
        (rest.mapM step).Gives between others after ∧ results = result :: others := by
  simp only [List.mapM_cons, gives_bind, gives_pure]
  constructor
  · rintro ⟨result, between, given, others, last, rest, rfl, rfl⟩
    exact ⟨result, between, others, given, rest, rfl⟩
  · rintro ⟨result, between, others, given, rest, rfl⟩
    exact ⟨result, between, given, others, after, rest, rfl, rfl⟩

/-! ## Steps that fail -/

/-- The step finds `fault` when it starts from the ledger `before`. -/
def Fails (step : Emit α) (before : Ledger) (fault : CompileError) : Prop :=
  step.run before = .error fault

variable {fault : CompileError}

theorem exists_gives {step : Emit α} (never : ∀ fault, ¬ Fails step before fault) :
    ∃ result after, step.Gives before result after := by
  cases run : step.run before with
  | error fault => exact absurd run (never fault)
  | ok pair => exact ⟨pair.1, pair.2, run⟩

@[simp] theorem fails_pure {value : α} : ¬ Fails (pure value) before fault := by
  have run : (pure value : Emit α).run before = .ok (value, before) := rfl
  simp [Fails, run]

@[simp] theorem fails_bind {step : Emit α} {next : α → Emit β} :
    Fails (step >>= next) before fault ↔
      Fails step before fault ∨
        ∃ value between, step.Gives before value between ∧ Fails (next value) between fault := by
  simp only [Fails, Gives, StateT.run_bind]
  cases run : step.run before with
  | error other => simp [bind, Except.bind]
  | ok pair =>
    obtain ⟨value, between⟩ := pair
    constructor
    · exact fun failed => .inr ⟨value, between, rfl, failed⟩
    · rintro (impossible | ⟨_, _, equal, failed⟩)
      · cases impossible
      · cases equal
        exact failed

@[simp] theorem fails_map {step : Emit α} {f : α → β} :
    Fails (f <$> step) before fault ↔ Fails step before fault := by
  rw [map_eq_pure_bind, fails_bind]
  simp

@[simp] theorem fails_note {change : Ledger → Ledger} : ¬ Fails (note change) before fault := by
  have run : (note change).run before = .ok ((), change before) := rfl
  simp [Fails, run]

@[simp] theorem fails_liftM {step : Except CompileError α} :
    Fails (liftM step) before fault ↔ step = .error fault := by
  cases step with
  | error other =>
    have run : (liftM (.error other : Except CompileError α) : Emit α).run before = .error other :=
      rfl
    simp [Fails, run]
  | ok value =>
    have run : (liftM (.ok value : Except CompileError α) : Emit α).run before =
        .ok (value, before) := rfl
    simp [Fails, run]

@[simp] theorem fails_withIds {step : StateM IdPool α} : ¬ Fails (withIds step) before fault := by
  have run : (withIds step).run before =
      .ok ((step.run before.ids).1, { before with ids := (step.run before.ids).2 }) := rfl
  simp [Fails, run]

end Emit

/-! ## What steps yield

A property that every result of a step has, whatever the ledger is.  To follow one property through
many steps is shorter this way than to take each step apart.
-/

namespace Emit

variable {α β : Type}

def Yields (step : Emit α) (post : α → Prop) : Prop :=
  ∀ before result after, step.Gives before result after → post result

namespace Yields

variable {step : Emit α} {next : α → Emit β} {post : α → Prop} {post' : β → Prop}

theorem returns {value : α} (holds : post value) : Yields (pure value) post :=
  fun _ _ _ given => (gives_pure.mp given).1 ▸ holds

theorem bind (first : Yields step post) (second : ∀ value, post value → Yields (next value) post') :
    Yields (step >>= next) post' := by
  intro before result after given
  obtain ⟨value, between, given, last⟩ := gives_bind.mp given
  exact second value (first _ _ _ given) _ _ _ last

/-- A step after one whose result may be any. -/
theorem after (second : ∀ value, Yields (next value) post') : Yields (step >>= next) post' := by
  have any : Yields step fun _ => True := fun _ _ _ _ => trivial
  exact any.bind fun value _ => second value

theorem mapM {make : α → Emit β} {xs : List α} (each : ∀ x ∈ xs, Yields (make x) post') :
    Yields (xs.mapM make) fun results => ∀ result ∈ results, post' result := by
  induction xs with
  | nil => exact returns nofun
  | cons x rest ih =>
    rw [List.forall_mem_cons] at each
    rw [List.mapM_cons]
    exact each.1.bind fun first holds => (ih each.2).bind fun others holds' =>
      returns (List.forall_mem_cons.mpr ⟨holds, holds'⟩)

/-- A step before which an extension is noted or not. -/
theorem noteUnless {skip : Bool} {extension : Extension} (rest : Yields step post) :
    Yields (if skip = true then step else do
      Emit.note (·.addExtension extension)
      step) post := by
  cases skip with
  | true => exact rest
  | false => exact after fun _ => rest

end Yields

/-! ## What a step does to the ledger

A relation between ledgers that is reflexive and transitive holds across a step made of steps if it
holds across each of them.
-/

/-- Whatever the step does, the ledger before it and the one after it are related. -/
def Within (R : Ledger → Ledger → Prop) (step : Emit α) : Prop :=
  ∀ before result after, step.Gives before result after → R before after

namespace Within

variable {R : Ledger → Ledger → Prop} [IsPreorder Ledger R] {step : Emit α} {next : α → Emit β}

theorem pure (value : α) : Within R (Pure.pure value) := fun before _ _ given =>
  (gives_pure.mp given).2 ▸ refl_of R before

theorem bind (first : Within R step) (second : ∀ value, Within R (next value)) :
    Within R (step >>= next) := by
  intro before result after given
  obtain ⟨value, between, given, last⟩ := gives_bind.mp given
  exact trans_of R (first _ _ _ given) (second value _ _ _ last)

omit [IsPreorder Ledger R] in
theorem map (within : Within R step) (f : α → β) : Within R (f <$> step) := by
  intro before result after given
  obtain ⟨value, given, -⟩ := gives_map.mp given
  exact within _ _ _ given

omit [IsPreorder Ledger R] in
theorem fail (fault : CompileError) : Within R (Emit.fail fault : Emit α) :=
  fun _ _ _ given => absurd given gives_fail

omit [IsPreorder Ledger R] in
theorem note {change : Ledger → Ledger} (allowed : ∀ ledger, R ledger (change ledger)) :
    Within R (note change) := fun before _ _ given =>
  gives_note.mp given ▸ allowed before

omit [IsPreorder Ledger R] in
theorem withIds {claim : StateM IdPool α}
    (allowed : ∀ ledger : Ledger, R ledger { ledger with ids := (claim.run ledger.ids).2 }) :
    Within R (withIds claim) := fun before _ _ given =>
  (gives_withIds.mp given).2 ▸ allowed before

theorem get : Within R MonadState.get := fun before _ _ given =>
  (gives_get.mp given).2 ▸ refl_of R before

theorem liftM (result : Except CompileError α) : Within R (liftM result) := fun before _ _ given =>
  (gives_liftM.mp given).2 ▸ refl_of R before

theorem mapM {make : α → Emit β} (each : ∀ x, Within R (make x)) (xs : List α) :
    Within R (xs.mapM make) := by
  induction xs with
  | nil => exact pure []
  | cons x rest ih =>
    rw [List.mapM_cons]
    exact (each x).bind fun _ => ih.bind fun _ => pure _

theorem foldlM {step : β → α → Emit β} (each : ∀ state x, Within R (step state x)) (xs : List α)
    (state : β) : Within R (xs.foldlM step state) := by
  induction xs generalizing state with
  | nil => exact pure state
  | cons x rest ih =>
    rw [List.foldlM_cons]
    exact (each state x).bind fun state => ih state

theorem forIn {body : α → Emit Unit} (each : ∀ x, Within R (body x)) (xs : List α) :
    Within R (ForIn.forIn xs PUnit.unit fun x _ => do
      body x
      Pure.pure (ForInStep.yield PUnit.unit)) := by
  induction xs with
  | nil => exact pure PUnit.unit
  | cons x rest ih =>
    rw [List.forIn_cons]
    exact ((each x).bind fun _ => pure _).bind fun
      | .done state => pure state
      | .yield _ => ih

/-- A step before which an extension is noted or not. -/
theorem noteUnless {skip : Bool} {extension : Extension}
    (allowed : ∀ ledger : Ledger, R ledger (ledger.addExtension extension))
    (rest : Within R step) :
    Within R (if skip = true then step else do
      Emit.note (·.addExtension extension)
      step) := by
  cases skip with
  | true => exact rest
  | false => exact (note allowed).bind fun _ => rest

theorem checkFeature (project : Project) (entity : String) (feature : Option String) :
    Within R (checkFeature project entity feature) := by
  cases feature with
  | none => exact pure ()
  | some name =>
    rw [Emit.checkFeature]
    split
    next => exact pure ()
    next => exact fail _

theorem assign {id : String} {feature : Option String}
    (allowed : ∀ ledger : Ledger, R ledger (ledger.addComponent id feature)) (project : Project)
    (entity : String) : Within R (assign project entity feature id) :=
  (checkFeature project entity feature).bind fun _ => note allowed

theorem idOr {kind : IdKind} {name : String}
    (allowed : ∀ ledger : Ledger, R ledger
      { ledger with ids := ((IdPool.claim kind (Folder.identifier name)).run ledger.ids).2 })
    (declared : Option String) : Within R (idOr kind declared name) := by
  cases declared with
  | some id => exact pure id
  | none =>
    rw [Emit.idOr]
    exact withIds allowed

end Within

end Emit

end Installer
