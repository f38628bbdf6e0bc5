import Installer.Proofs.Emit.Steps
import Installer.Source.Shortcut
import Mathlib.Data.List.Basic

/-! # Bookings

Every component is made for something: a directory, a file, a permission, a shortcut or a standalone
entity.  An `Origin` says for what, and gives the component its id.  A `Booking` is an origin with
the feature that its entity names, and `Ledger.Books` says that a step of the compilation writes
certain bookings and shortcut locations into the ledger and no others.
-/

namespace Installer

/-! ## Origins -/

/-- The families of entities whose components belong to no directory and are numbered. -/
inductive Family where
  | registry
  | environment
  | user
  | database
  | sqlString
  | sqlScript
  | certificate
deriving DecidableEq, Repr

def Family.stem : Family → String
  | .registry => "Registry"
  | .environment => "EnvVars"
  | .user => "User"
  | .database => "SqlDatabase"
  | .sqlString => "SqlString"
  | .sqlScript => "SqlScript"
  | .certificate => "Certificate"

inductive Origin where
  /-- A directory that holds something and has a feature. -/
  | folder (id : String)
  /-- An empty directory. -/
  | emptyFolder (id : String)
  | file (id : String)
  /-- A permission of a directory. -/
  | permission (id : String)
  /-- A shortcut of a directory. -/
  | shortcut (id : String)
  | standalone (family : Family) (n : Nat)
deriving DecidableEq, Repr

def Origin.componentId : Origin → String
  | .folder id | .file id | .permission id => "Component." ++ id
  | .emptyFolder id => id ++ ".EmptyDirectory"
  | .shortcut id => id
  | .standalone family n => family.stem ++ toString n

/-- A component to be made, with the feature that its entity names. -/
structure Booking where
  origin : Origin
  feature : Option String
deriving DecidableEq, Repr

namespace Booking

def componentId (booking : Booking) : String :=
  booking.origin.componentId

def line (booking : Booking) : String × Option String :=
  (booking.componentId, booking.feature)

end Booking

/-! ## Sorting bookings -/

/-- What is grouped by its owners is all there, as long as every owner has a group. -/
theorem perm_flatMap_filter {α β : Type} [DecidableEq β] {owner : α → β} {owners : List β}
    {entries : List α} (nodup : owners.Nodup) (all : ∀ x ∈ entries, owner x ∈ owners) :
    (owners.flatMap fun o => entries.filter fun x => owner x == o).Perm entries := by
  induction owners generalizing entries with
  | nil =>
    have none : entries = [] := List.eq_nil_iff_forall_not_mem.mpr fun x mem => by
      simpa using all x mem
    rw [none]
    exact .refl _
  | cons o rest ih =>
    obtain ⟨fresh, nodup⟩ := List.nodup_cons.mp nodup
    have others : ∀ x ∈ entries.filter fun x => !(owner x == o), owner x ∈ rest := by
      intro x mem
      obtain ⟨among, other⟩ := List.mem_filter.mp mem
      rcases List.mem_cons.mp (all x among) with same | later
      · simp [same] at other
      · exact later
    -- the groups of the other owners are all in what the first one leaves
    have groups : ∀ o' ∈ rest, (entries.filter fun x => owner x == o') =
        (entries.filter fun x => !(owner x == o)).filter fun x => owner x == o' := by
      intro o' mem
      rw [List.filter_filter]
      refine List.filter_congr fun x _ => ?_
      by_cases same : owner x = o'
      · have different : owner x ≠ o := fun equal => fresh (equal ▸ same ▸ mem)
        simp [same, same ▸ different]
      · simp [same]
    -- the first group and what it leaves are all entries
    rw [List.flatMap_cons, List.flatMap_congr groups]
    exact ((ih nodup others).append_left _).trans (List.filter_append_perm _ _)

/-! ## What a step writes -/

namespace Ledger

/-- A list of locations with one more, if it is a new one. -/
def withLocation (locations : List (String × Option String)) (entry : String × Option String) :
    List (String × Option String) :=
  if locations.any fun old => old.1 == entry.1 then locations else locations ++ [entry]

theorem locations_addLocation (ledger : Ledger) (location : String) (feature : Option String) :
    (ledger.addLocation location feature).locations =
      withLocation ledger.locations (location, feature) := by
  rw [addLocation, withLocation]
  split <;> rfl

theorem components_addLocation (ledger : Ledger) (location : String) (feature : Option String) :
    (ledger.addLocation location feature).components = ledger.components := by
  rw [addLocation]
  split <;> rfl

/-- Between two ledgers the bookings and locations are written, in this order, and every feature
that is named is one of the project. -/
structure Books (project : Project) (before after : Ledger) (bookings : List Booking)
    (locations : List (String × Option String)) : Prop where
  components : after.components = before.components ++ bookings.map Booking.line
  locations : after.locations = locations.foldl withLocation before.locations
  declared : ∀ booking ∈ bookings, ∀ name, booking.feature = some name →
    (project.feature? name).isSome = true

namespace Books

variable {project : Project} {before between after : Ledger}
  {bookings bookings₁ bookings₂ : List Booking}
  {locations locations₁ locations₂ : List (String × Option String)}

theorem refl (ledger : Ledger) : Books project ledger ledger [] [] :=
  ⟨by simp, rfl, by simp⟩

/-- A step that keeps components and locations writes nothing that counts here. -/
theorem of_eq (components : after.components = before.components)
    (locations : after.locations = before.locations) : Books project before after [] [] :=
  ⟨by simp [components], by simp [locations], by simp⟩

theorem trans (first : Books project before between bookings₁ locations₁)
    (second : Books project between after bookings₂ locations₂) :
    Books project before after (bookings₁ ++ bookings₂) (locations₁ ++ locations₂) where
  components := by rw [second.components, first.components, List.map_append, List.append_assoc]
  locations := by rw [second.locations, first.locations, List.foldl_append]
  declared := List.forall_mem_append.mpr ⟨first.declared, second.declared⟩

/-- A step that writes nothing after one that writes. -/
theorem trans_nil (first : Books project before between bookings locations)
    (second : Books project between after [] []) :
    Books project before after bookings locations := by
  simpa using first.trans second

/-- A step that writes after one that writes nothing. -/
theorem nil_trans (first : Books project before between [] [])
    (second : Books project between after bookings locations) :
    Books project before after bookings locations := by
  simpa using first.trans second

end Books

end Ledger

/-! ## The steps of the ledger -/

namespace Emit

variable {before after : Ledger} {project : Project}

theorem books_addExtension {extension : Extension} :
    Ledger.Books project before (before.addExtension extension) [] [] :=
  .of_eq rfl rfl

theorem books_addMergeModule {id : String} {feature : Option String} :
    Ledger.Books project before (before.addMergeModule id feature) [] [] :=
  .of_eq rfl rfl

theorem books_addPackaging {request : PackagingRequest} :
    Ledger.Books project before (before.addPackaging request) [] [] := by
  rw [Ledger.addPackaging]
  split <;> exact .of_eq rfl rfl

theorem gives_checkFeature {entity : String} {feature : Option String} {result : Unit}
    (given : (checkFeature project entity feature).Gives before result after) :
    after = before ∧ ∀ name, feature = some name → (project.feature? name).isSome = true := by
  cases feature with
  | none =>
    rw [checkFeature, gives_pure] at given
    exact ⟨given.2.symm, by simp⟩
  | some name =>
    rw [checkFeature] at given
    split at given
    next declared =>
      rw [gives_pure] at given
      exact ⟨given.2.symm, by simpa using declared⟩
    next => exact absurd given gives_fail

theorem gives_assign {entity : String} (booking : Booking) {result : Unit}
    (given : (assign project entity booking.feature booking.componentId).Gives
      before result after) :
    Ledger.Books project before after [booking] [] := by
  rw [assign, gives_bind] at given
  obtain ⟨_, between, checked, noted⟩ := given
  obtain ⟨rfl, declared⟩ := gives_checkFeature checked
  rw [gives_note] at noted
  subst noted
  exact ⟨rfl, rfl, by simpa using declared⟩

theorem gives_idOr {kind : IdKind} {id : Option String} {name result : String}
    (given : (idOr kind id name).Gives before result after) :
    Ledger.Books project before after [] [] := by
  cases id with
  | some id => exact (gives_pure.mp given).2 ▸ .refl _
  | none =>
    rw [idOr, gives_withIds] at given
    exact given.2 ▸ .of_eq rfl rfl

theorem flatMap_nothing {α β : Type} (xs : List α) : xs.flatMap (fun _ => ([] : List β)) = [] :=
  List.flatMap_eq_nil_iff.mpr fun _ _ => rfl

/-- A step made for each member of a list writes what the single steps write, one after another. -/
theorem books_mapM {α β : Type} {step : α → Emit β} {make : α → β} {bookings : α → List Booking}
    {locations : α → List (String × Option String)}
    (each : ∀ (x : α) (before : Ledger) (result : β) (after : Ledger),
      (step x).Gives before result after →
        result = make x ∧ Ledger.Books project before after (bookings x) (locations x))
    {xs : List α} {results : List β} (given : (xs.mapM step).Gives before results after) :
    results = xs.map make ∧
      Ledger.Books project before after (xs.flatMap bookings) (xs.flatMap locations) := by
  induction xs generalizing before results with
  | nil =>
    obtain ⟨rfl, rfl⟩ := gives_mapM_nil.mp given
    exact ⟨rfl, .refl _⟩
  | cons x xs ih =>
    obtain ⟨result, between, others, first, rest, rfl⟩ := gives_mapM_cons.mp given
    obtain ⟨rfl, firstBooks⟩ := each x _ _ _ first
    obtain ⟨rfl, restBooks⟩ := ih rest
    exact ⟨rfl, firstBooks.trans restBooks⟩

/-- The same for a step that writes one booking. -/
theorem books_mapM_single {α β : Type} {step : α → Emit β} {make : α → β} {booking : α → Booking}
    {locations : α → List (String × Option String)}
    (each : ∀ (x : α) (before : Ledger) (result : β) (after : Ledger),
      (step x).Gives before result after →
        result = make x ∧ Ledger.Books project before after [booking x] (locations x))
    {xs : List α} {results : List β} (given : (xs.mapM step).Gives before results after) :
    results = xs.map make ∧
      Ledger.Books project before after (xs.map booking) (xs.flatMap locations) := by
  rw [List.map_eq_flatMap (f := booking)]
  exact books_mapM each given

/-- The same for a step that writes one booking and no location. -/
theorem books_mapM_booking {α β : Type} {step : α → Emit β} {make : α → β} {booking : α → Booking}
    (each : ∀ (x : α) (before : Ledger) (result : β) (after : Ledger),
      (step x).Gives before result after →
        result = make x ∧ Ledger.Books project before after [booking x] [])
    {xs : List α} {results : List β} (given : (xs.mapM step).Gives before results after) :
    results = xs.map make ∧ Ledger.Books project before after (xs.map booking) [] := by
  have booked := books_mapM_single each given
  rwa [flatMap_nothing] at booked

/-- The same for a step that writes nothing. -/
theorem books_mapM_nothing {α β : Type} {step : α → Emit β} {make : α → β}
    (each : ∀ (x : α) (before : Ledger) (result : β) (after : Ledger),
      (step x).Gives before result after →
        result = make x ∧ Ledger.Books project before after [] [])
    {xs : List α} {results : List β} (given : (xs.mapM step).Gives before results after) :
    results = xs.map make ∧ Ledger.Books project before after [] [] := by
  have booked := books_mapM each given
  rwa [flatMap_nothing, flatMap_nothing] at booked

end Emit

end Installer
