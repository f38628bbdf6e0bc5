import Installer.Proofs.Component.Booking

/-! # Contracts of steps

A contract of a step says when the step succeeds, which merge modules it writes into the ledger and
what holds of its result.  The first two do not depend on the ledger that the step begins with.
Steps made of steps have contracts made of theirs.
-/

namespace Installer

def Project.Declares (project : Project) (feature : Option String) : Prop :=
  ∀ name, feature = some name → (project.feature? name).isSome = true

def Project.DeclaresAll (project : Project) (bookings : List Booking) : Prop :=
  ∀ booking ∈ bookings, project.Declares booking.feature

namespace Project

variable {project : Project}

@[simp] theorem declaresAll_nil : project.DeclaresAll [] := by
  simp [DeclaresAll]

@[simp] theorem declaresAll_singleton {booking : Booking} :
    project.DeclaresAll [booking] ↔ project.Declares booking.feature := by
  simp [DeclaresAll]

@[simp] theorem declaresAll_append {front back : List Booking} :
    project.DeclaresAll (front ++ back) ↔
      project.DeclaresAll front ∧ project.DeclaresAll back :=
  List.forall_mem_append

@[simp] theorem declaresAll_cons {booking : Booking} {rest : List Booking} :
    project.DeclaresAll (booking :: rest) ↔
      project.Declares booking.feature ∧ project.DeclaresAll rest :=
  List.forall_mem_cons

@[simp] theorem declaresAll_map {α : Type} {make : α → Booking} {entities : List α} :
    project.DeclaresAll (entities.map make) ↔
      ∀ x ∈ entities, project.Declares (make x).feature :=
  List.forall_mem_map

end Project

namespace Emit

variable {α β : Type}

/-- The step succeeds if and only if `needs` holds.  It writes `modules`, and its result has the
property `post`. -/
structure Contract (step : Emit α) (needs : Prop) (modules : List (String × Option String))
    (post : α → Prop) : Prop where
  succeeds : needs → ∀ before, ∃ result after, step.Gives before result after
  gives : ∀ {before result after}, step.Gives before result after →
    needs ∧ after.mergeModules = before.mergeModules ++ modules ∧ post result

namespace Contract

variable {step : Emit α} {next : α → Emit β} {needs needs' : Prop} {post : α → Prop}
  {post' : β → Prop} {modules modules' : List (String × Option String)}

theorem congr (contract : Contract step needs modules post) {other : α → Prop}
    (same : needs ↔ needs') (written : modules = modules')
    (implied : ∀ result, post result → other result) :
    Contract step needs' modules' other where
  succeeds := fun need => contract.succeeds (same.mpr need)
  gives := fun given => by
    obtain ⟨need, modules, result⟩ := contract.gives given
    exact ⟨same.mp need, written ▸ modules, implied _ result⟩

theorem forget (contract : Contract step needs modules post) :
    Contract step needs modules fun _ => True :=
  contract.congr .rfl rfl fun _ _ => trivial

theorem pure (value : α) : Contract (pure value) True [] (· = value) where
  succeeds := fun _ before => ⟨value, before, gives_pure.mpr ⟨rfl, rfl⟩⟩
  gives := fun given => by
    obtain ⟨rfl, rfl⟩ := gives_pure.mp given
    exact ⟨trivial, by simp, rfl⟩

theorem returns {value : α} (holds : post value) : Contract (Pure.pure value) True [] post :=
  (pure value).congr .rfl rfl fun _ same => same ▸ holds

theorem fail (fault : CompileError) : Contract (fail fault : Emit α) False [] fun _ => True where
  succeeds := False.elim
  gives := fun given => absurd given gives_fail

theorem bind (first : Contract step needs modules post)
    (second : ∀ value, post value → Contract (next value) needs' modules' post') :
    Contract (step >>= next) (needs ∧ needs') (modules ++ modules') post' where
  succeeds := by
    intro ⟨need, need'⟩ before
    obtain ⟨value, between, given⟩ := first.succeeds need before
    obtain ⟨result, after, given'⟩ :=
      (second value (first.gives given).2.2).succeeds need' between
    exact ⟨result, after, gives_bind.mpr ⟨value, between, given, given'⟩⟩
  gives := by
    intro before result after given
    obtain ⟨value, between, first', last⟩ := gives_bind.mp given
    obtain ⟨need, written, holds⟩ := first.gives first'
    obtain ⟨need', written', holds'⟩ := (second value holds).gives last
    exact ⟨⟨need, need'⟩, by rw [written', written, List.append_assoc], holds'⟩

/-- A step and then one whose contract does not depend on the result. -/
theorem andThen (first : Contract step needs modules post)
    (second : ∀ value, Contract (next value) needs' modules' post') :
    Contract (step >>= next) (needs ∧ needs') (modules ++ modules') post' :=
  first.bind fun value _ => second value

/-- A step whose result is known and then one for this result. -/
theorem bindEq {value : α} (first : Contract step needs modules (· = value))
    (second : Contract (next value) needs' modules' post') :
    Contract (step >>= next) (needs ∧ needs') (modules ++ modules') post' :=
  first.bind fun _ same => same ▸ second

/-- A step after one that always succeeds. -/
theorem after (first : Contract step True [] post)
    (second : ∀ value, Contract (next value) needs modules post') :
    Contract (step >>= next) needs modules post' :=
  (first.andThen second).congr (by simp) rfl fun _ holds => holds

/-- A step with a result made of its own. -/
theorem yields {f : α → β} (contract : Contract step needs modules post)
    (implied : ∀ value, post value → post' (f value)) :
    Contract (step >>= fun value => Pure.pure (f value)) needs modules post' :=
  (contract.bind fun value holds => .returns (implied value holds)).congr (by simp)
    (List.append_nil _) fun _ holds => holds

theorem map (contract : Contract step needs modules post) {f : α → β}
    (implied : ∀ result, post result → post' (f result)) :
    Contract (f <$> step) needs modules post' where
  succeeds := by
    intro need before
    obtain ⟨value, after, given⟩ := contract.succeeds need before
    exact ⟨f value, after, gives_map.mpr ⟨value, given, rfl⟩⟩
  gives := by
    intro before result after given
    obtain ⟨value, inner, rfl⟩ := gives_map.mp given
    obtain ⟨need, written, holds⟩ := contract.gives inner
    exact ⟨need, written, implied _ holds⟩

theorem note {change : Ledger → Ledger}
    (written : ∀ ledger, (change ledger).mergeModules = ledger.mergeModules ++ modules) :
    Contract (note change) True modules fun _ => True where
  succeeds := fun _ before => ⟨(), change before, gives_note.mpr rfl⟩
  gives := fun given => by
    rw [gives_note] at given
    exact ⟨trivial, given ▸ written _, trivial⟩

theorem get : Contract MonadState.get True [] fun _ => True where
  succeeds := fun _ before => ⟨before, before, gives_get.mpr ⟨rfl, rfl⟩⟩
  gives := fun given => by
    obtain ⟨-, rfl⟩ := gives_get.mp given
    exact ⟨trivial, (List.append_nil _).symm, trivial⟩

theorem noteExtension (extension : Extension) :
    Contract (Emit.note (·.addExtension extension)) True [] fun _ => True :=
  .note fun _ => (List.append_nil _).symm

/-- A step before which an extension is noted or not. -/
theorem noteUnless {skip : Bool} {extension : Extension} (rest : Contract step needs modules post) :
    Contract (if skip = true then step else do
      Emit.note (·.addExtension extension)
      step) needs modules post := by
  cases skip with
  | true => exact rest
  | false => exact (noteExtension extension).after fun _ => rest

theorem noteComponent (id : String) (feature : Option String) :
    Contract (Emit.note (·.addComponent id feature)) True [] fun _ => True :=
  .note fun _ => (List.append_nil _).symm

theorem withIds (claim : StateM IdPool α) : Contract (withIds claim) True [] fun _ => True where
  succeeds := fun _ _ => ⟨_, _, gives_withIds.mpr ⟨rfl, rfl⟩⟩
  gives := fun given => by
    obtain ⟨-, rfl⟩ := gives_withIds.mp given
    exact ⟨trivial, (List.append_nil _).symm, trivial⟩

theorem liftM (result : Except CompileError α) :
    Contract (liftM result) (result.isOk = true) [] (result = .ok ·) where
  succeeds := by
    intro succeeds before
    cases result with
    | ok value => exact ⟨value, before, gives_liftM.mpr ⟨rfl, rfl⟩⟩
    | error fault => cases succeeds
  gives := by
    intro before value after given
    obtain ⟨rfl, rfl⟩ := gives_liftM.mp given
    exact ⟨rfl, (List.append_nil _).symm, rfl⟩

theorem mapM {make : α → Emit β} {needs : α → Prop} {modules : α → List (String × Option String)}
    {post : α → β → Prop} (each : ∀ x, Contract (make x) (needs x) (modules x) (post x))
    (xs : List α) :
    Contract (xs.mapM make) (∀ x ∈ xs, needs x) (xs.flatMap modules) (List.Forall₂ post xs) := by
  induction xs with
  | nil => exact (pure []).congr (by simp) rfl fun _ none => none ▸ .nil
  | cons x rest ih =>
    rw [List.mapM_cons]
    refine ((each x).bind fun first holds => ih.bind fun others holds' =>
      (pure (first :: others)).congr .rfl rfl fun _ same => ?_).congr ?_ ?_ fun _ holds => holds
    · exact same ▸ .cons holds holds'
    · simp
    · simp

/-- A step for each member of a list that gives what is expected for the member. -/
theorem mapM_eq {make : α → Emit β} {needs : α → Prop} {expected : α → β}
    {modules : α → List (String × Option String)}
    (each : ∀ x, Contract (make x) (needs x) (modules x) (· = expected x)) (xs : List α) :
    Contract (xs.mapM make) (∀ x ∈ xs, needs x) (xs.flatMap modules) (· = xs.map expected) := by
  refine (mapM each xs).congr .rfl rfl fun results same => ?_
  induction same with
  | nil => rfl
  | cons first _ ih => rw [List.map_cons, first, ih]

/-- A step for each member of a list that gives something with a property. -/
theorem mapM_forall {make : α → Emit β} {needs : α → Prop} {post : β → Prop}
    (each : ∀ x, Contract (make x) (needs x) [] post) (xs : List α) :
    Contract (xs.mapM make) (∀ x ∈ xs, needs x) [] fun results => ∀ x ∈ results, post x := by
  refine (mapM each xs).congr .rfl (flatMap_nothing xs) fun results all => ?_
  induction all with
  | nil => simp
  | cons first _ ih => exact List.forall_mem_cons.mpr ⟨first, ih⟩

/-- A loop over a list whose steps need nothing and write no merge modules. -/
theorem forIn {body : α → Emit Unit} (each : ∀ x, Contract (body x) True [] fun _ => True)
    (xs : List α) :
    Contract (ForIn.forIn xs PUnit.unit fun x _ => do
      body x
      Pure.pure (ForInStep.yield PUnit.unit)) True [] fun _ => True := by
  induction xs with
  | nil => exact (pure PUnit.unit).forget
  | cons x rest ih =>
    rw [List.forIn_cons]
    have first := (each x).after fun _ => pure (ForInStep.yield PUnit.unit)
    exact (first.bindEq ih).congr (by simp) rfl fun _ holds => holds

/-! ## Steps of the ledger -/

variable {project : Project}

theorem checkFeature (entity : String) (feature : Option String) :
    Contract (checkFeature project entity feature) (project.Declares feature) []
      fun _ => True := by
  cases feature with
  | none => exact (pure ()).congr (by simp [Project.Declares]) rfl fun _ _ => trivial
  | some name =>
    rw [Emit.checkFeature]
    split
    next declared =>
      exact (pure ()).congr (by simp [Project.Declares, declared]) rfl fun _ _ => trivial
    next missing =>
      exact (fail _).congr (by simp [Project.Declares, missing]) rfl fun _ _ => trivial

theorem assign (entity : String) (feature : Option String) (id : String) :
    Contract (assign project entity feature id) (project.Declares feature) [] fun _ => True :=
  ((checkFeature entity feature).andThen fun _ =>
    noteComponent id feature).congr (by simp) rfl fun _ holds => holds

theorem idOr (kind : IdKind) (declared : Option String) (name : String) :
    Contract (idOr kind declared name) True [] fun _ => True := by
  cases declared with
  | some id => exact (pure id).forget
  | none =>
    rw [Emit.idOr]
    exact withIds _

end Contract

end Emit

end Installer
