import Installer.Folder
import Installer.Proofs.Ident.Agree
import Mathlib.Data.List.Forall2

/-! # The ids of one kind

An entity keeps the id that is declared for it, and otherwise a pool makes one of its name.  What
the entities of a kind get depends on nothing in the pool but the ids of this kind (`AgreeOn`).  The
pool hears only of the ids it makes, so that these differ from each other, while a declared id may
be one of them: `nodup_idsFor_iff` says when all ids are different.
-/

namespace Installer

structure Naming where
  /-- The id that is declared. -/
  declared : Option String
  /-- The name that an id is made of when none is declared. -/
  name : String

/-- The id is the declared one, or else the identifier of the name, perhaps with a number. -/
def Naming.Takes (naming : Naming) (id : String) : Prop :=
  match naming.declared with
  | some given => id = given
  | none => id = Folder.identifier naming.name ∨
      ∃ n, 0 < n ∧ id = IdPool.numbered (Folder.identifier naming.name) n

namespace IdPool

/-! ## One kind of a pool -/

def AgreeOn (kind : IdKind) (pool pool' : IdPool) : Prop :=
  ∀ id, pool.lastNumber? kind id = pool'.lastNumber? kind id

variable {kind other : IdKind} {pool pool' pool'' : IdPool}

namespace AgreeOn

theorem refl (pool : IdPool) : AgreeOn kind pool pool :=
  fun _ => rfl

theorem symm (agree : AgreeOn kind pool pool') : AgreeOn kind pool' pool :=
  fun id => (agree id).symm

theorem trans (first : AgreeOn kind pool pool') (second : AgreeOn kind pool' pool'') :
    AgreeOn kind pool pool'' :=
  fun id => (first id).trans (second id)

theorem record (agree : AgreeOn kind pool pool') (id : String) (last : Nat) :
    AgreeOn kind (pool.record kind id last) (pool'.record kind id last) := by
  intro id'
  have before := agree id'
  simp only [lastNumber?, IdPool.record, List.lookup_cons] at before ⊢
  rw [before]

/-- Other kinds do not see a claim. -/
theorem of_claim (apart : kind ≠ other) (name : String) (pool : IdPool) :
    AgreeOn kind pool ((claim other name).run pool).2 :=
  (Agree.claim_self pool name).last kind apart

theorem of_reserve (apart : kind ≠ other) (id : String) (pool : IdPool) :
    AgreeOn kind pool ((reserve other id).run pool).2 := by
  show AgreeOn kind pool (if pool.isUsed other id then pool else pool.record other id 0)
  split
  next => exact refl pool
  next => exact (Agree.record_self pool id 0).last kind apart

/-- Where a kind has the same ids it is handed the same one. -/
theorem claim (agree : AgreeOn kind pool pool') (name : String) :
    ((claim kind name).run pool).1 = ((IdPool.claim kind name).run pool').1 ∧
      AgreeOn kind ((IdPool.claim kind name).run pool).2
        ((IdPool.claim kind name).run pool').2 := by
  simp only [IdPool.claim, StateT.run, ← agree name]
  cases pool.lastNumber? kind name with
  | none => exact ⟨rfl, agree.record name 0⟩
  | some last =>
    have same : pool.freeNumber kind name last = pool'.freeNumber kind name last :=
      freeNumber_congr (fun id => congrArg Option.isSome (agree id)) name last
    simp only [← same]
    exact ⟨trivial, AgreeOn.record (agree.record name _) _ 0⟩

theorem reserve (agree : AgreeOn kind pool pool') (id : String) :
    AgreeOn kind ((reserve kind id).run pool).2 ((IdPool.reserve kind id).run pool').2 := by
  have used : pool.isUsed kind id = pool'.isUsed kind id := congrArg Option.isSome (agree id)
  show AgreeOn kind (if pool.isUsed kind id then pool else pool.record kind id 0)
    (if pool'.isUsed kind id then pool' else pool'.record kind id 0)
  rw [used]
  split
  next => exact agree
  next => exact agree.record id 0

theorem reserveAll (agree : AgreeOn kind pool pool') (ids : List String) :
    AgreeOn kind (ids.foldl (fun pool id => ((IdPool.reserve kind id).run pool).2) pool)
      (ids.foldl (fun pool id => ((IdPool.reserve kind id).run pool).2) pool') := by
  induction ids generalizing pool pool' with
  | nil => exact agree
  | cons id rest ih => exact ih (agree.reserve id)

end AgreeOn

/-! ## Steps that leave a kind alone -/

def Keeps {α : Type} (kind : IdKind) (step : StateM IdPool α) : Prop :=
  ∀ pool, AgreeOn kind pool (step.run pool).2

namespace Keeps

variable {α β : Type}

theorem isUsed_eq {step : StateM IdPool α} (keeps : Keeps kind step) (pool : IdPool) (id : String) :
    (step.run pool).2.isUsed kind id = pool.isUsed kind id :=
  congrArg Option.isSome (keeps pool id).symm

theorem pure (value : α) : Keeps kind (Pure.pure value) :=
  .refl

theorem bind {step : StateM IdPool α} {next : α → StateM IdPool β} (first : Keeps kind step)
    (second : ∀ value, Keeps kind (next value)) : Keeps kind (step >>= next) :=
  fun pool => (first pool).trans (second _ _)

theorem mapM {step : α → StateM IdPool β} (each : ∀ x, Keeps kind (step x)) (xs : List α) :
    Keeps kind (xs.mapM step) := by
  induction xs with
  | nil => exact pure []
  | cons x rest ih =>
    rw [List.mapM_cons]
    exact (each x).bind fun _ => ih.bind fun _ => pure _

theorem claim (apart : kind ≠ other) (name : String) : Keeps kind (IdPool.claim other name) :=
  .of_claim apart name

theorem number (other : IdKind) (stem : String) : Keeps kind (IdPool.number other stem) :=
  .refl

theorem reserveAll {ids : List (IdKind × String)} (apart : ∀ entry ∈ ids, kind ≠ entry.1) :
    Keeps kind (forIn ids PUnit.unit fun entry _ => do
      reserve entry.1 entry.2
      Pure.pure (ForInStep.yield PUnit.unit) : StateM IdPool PUnit) := by
  induction ids with
  | nil => exact pure PUnit.unit
  | cons entry rest ih =>
    rw [List.forall_mem_cons] at apart
    rw [List.forIn_cons]
    exact fun pool => (AgreeOn.of_reserve apart.1 entry.2 pool).trans (ih apart.2 _)

end Keeps

/-! ## Giving ids -/

/-- The declared id, or a new one made of the name. -/
def give (kind : IdKind) (naming : Naming) : StateM IdPool String :=
  match naming.declared with
  | some id => pure id
  | none => claim kind (Folder.identifier naming.name)

def idsFor (kind : IdKind) (namings : List Naming) (pool : IdPool) : List String :=
  ((namings.mapM (give kind)).run pool).1

/-- The ids that are made for the entities for which none is declared. -/
def madeFor (kind : IdKind) (namings : List Naming) (pool : IdPool) : List String :=
  idsFor kind (namings.filter fun naming => naming.declared.isNone) pool

variable {naming : Naming} {rest namings : List Naming}

theorem idsFor_cons (kind : IdKind) (naming : Naming) (rest : List Naming) (pool : IdPool) :
    idsFor kind (naming :: rest) pool =
      ((give kind naming).run pool).1 :: idsFor kind rest ((give kind naming).run pool).2 := by
  rw [idsFor, List.mapM_cons]
  rfl

theorem idsFor_append (kind : IdKind) (front back : List Naming) (pool : IdPool) :
    idsFor kind (front ++ back) pool =
      idsFor kind front pool ++ idsFor kind back ((front.mapM (give kind)).run pool).2 := by
  rw [idsFor, List.mapM_append]
  rfl

/-- A declared id is kept, and the pool does not hear of it. -/
theorem give_of_declared {id : String} (given : naming.declared = some id) (pool : IdPool) :
    (give kind naming).run pool = (id, pool) := by
  rw [give, given]
  rfl

theorem give_of_undeclared (undeclared : naming.declared = none) :
    give kind naming = claim kind (Folder.identifier naming.name) := by
  rw [give, undeclared]

theorem AgreeOn.give (agree : AgreeOn kind pool pool') (naming : Naming) :
    ((give kind naming).run pool).1 = ((IdPool.give kind naming).run pool').1 ∧
      AgreeOn kind ((IdPool.give kind naming).run pool).2
        ((IdPool.give kind naming).run pool').2 := by
  cases declared : naming.declared with
  | some id =>
    rw [give_of_declared declared, give_of_declared declared]
    exact ⟨rfl, agree⟩
  | none =>
    rw [give_of_undeclared declared]
    exact agree.claim _

theorem AgreeOn.mapM_give (agree : AgreeOn kind pool pool') (namings : List Naming) :
    AgreeOn kind ((namings.mapM (IdPool.give kind)).run pool).2
      ((namings.mapM (IdPool.give kind)).run pool').2 := by
  induction namings generalizing pool pool' with
  | nil => exact agree
  | cons naming rest ih =>
    rw [List.mapM_cons]
    exact ih (agree.give naming).2

/-- Pools with the same ids of the kind give the same. -/
theorem AgreeOn.idsFor_eq (agree : AgreeOn kind pool pool') (namings : List Naming) :
    idsFor kind namings pool = idsFor kind namings pool' := by
  induction namings generalizing pool pool' with
  | nil => rfl
  | cons naming rest ih =>
    obtain ⟨same, agree'⟩ := agree.give naming
    rw [idsFor_cons, idsFor_cons, same, ih agree']

/-! ## The ids that are given -/

theorem takes_give (naming : Naming) (pool : IdPool) :
    naming.Takes ((give kind naming).run pool).1 := by
  rw [Naming.Takes]
  cases declared : naming.declared with
  | some id => rw [give_of_declared declared]
  | none =>
    rw [give_of_undeclared declared]
    exact claim_eq kind _ pool

theorem forall₂_idsFor (kind : IdKind) (namings : List Naming) (pool : IdPool) :
    List.Forall₂ Naming.Takes namings (idsFor kind namings pool) := by
  induction namings generalizing pool with
  | nil => exact .nil
  | cons naming rest ih =>
    rw [idsFor_cons]
    exact .cons (takes_give naming pool) (ih _)

theorem madeFor_cons_of_declared {id : String} (given : naming.declared = some id) :
    madeFor kind (naming :: rest) pool = madeFor kind rest pool := by
  rw [madeFor, List.filter_cons_of_neg (by simp [given])]
  rfl

theorem madeFor_cons_of_undeclared (undeclared : naming.declared = none) :
    madeFor kind (naming :: rest) pool =
      ((claim kind (Folder.identifier naming.name)).run pool).1 ::
        madeFor kind rest ((claim kind (Folder.identifier naming.name)).run pool).2 := by
  rw [madeFor, List.filter_cons_of_pos (by simp [undeclared]), idsFor_cons,
    give_of_undeclared undeclared]
  rfl

/-- The ids of entities are those that are declared and those that are made. -/
theorem perm_idsFor (kind : IdKind) (namings : List Naming) (pool : IdPool) :
    (idsFor kind namings pool).Perm
      (namings.filterMap Naming.declared ++ madeFor kind namings pool) := by
  induction namings generalizing pool with
  | nil => exact .refl _
  | cons naming rest ih =>
    rw [idsFor_cons]
    cases declared : naming.declared with
    | some id =>
      rw [List.filterMap_cons_some declared, madeFor_cons_of_declared declared,
        give_of_declared declared, List.cons_append]
      exact (ih pool).cons id
    | none =>
      rw [List.filterMap_cons_none declared, madeFor_cons_of_undeclared declared,
        give_of_undeclared declared]
      exact ((ih _).cons _).trans List.perm_middle.symm

/-- The ids that are made are handed out by the pool, so that no two are the same. -/
theorem exists_hands_madeFor (kind : IdKind) (namings : List Naming) (pool : IdPool) :
    ∃ after, Hands kind pool after (madeFor kind namings pool) := by
  induction namings generalizing pool with
  | nil => exact ⟨pool, .refl pool⟩
  | cons naming rest ih =>
    cases declared : naming.declared with
    | some id =>
      rw [madeFor_cons_of_declared declared]
      exact ih pool
    | none =>
      rw [madeFor_cons_of_undeclared declared]
      obtain ⟨after, others⟩ := ih ((claim kind (Folder.identifier naming.name)).run pool).2
      exact ⟨after, (hands_claim kind _ pool).trans others⟩

theorem nodup_madeFor (kind : IdKind) (namings : List Naming) (pool : IdPool) :
    (madeFor kind namings pool).Nodup :=
  (exists_hands_madeFor kind namings pool).choose_spec.nodup

/-! ## Runs that give ids -/

/-- Between two pools these ids are given to the entities, one after the other, and no others of the
kind. -/
structure Serves (kind : IdKind) (namings : List Naming) (before after : IdPool)
    (ids : List String) : Prop where
  ids_eq : ids = idsFor kind namings before
  agrees : AgreeOn kind ((namings.mapM (IdPool.give kind)).run before).2 after

namespace Serves

variable {before between after : IdPool} {ids ids' : List String}

theorem nothing (agree : AgreeOn kind before after) : Serves kind [] before after [] :=
  ⟨rfl, agree⟩

theorem single_iff {id : String} : Serves kind [naming] before after [id] ↔
    id = ((give kind naming).run before).1 ∧
      AgreeOn kind ((give kind naming).run before).2 after := by
  have whole : ([naming].mapM (IdPool.give kind)).run before =
      ([((give kind naming).run before).1], ((give kind naming).run before).2) := by
    rw [List.mapM_cons]
    rfl
  constructor
  · rintro ⟨same, agree⟩
    rw [idsFor, whole] at same
    rw [whole] at agree
    exact ⟨List.singleton_inj.mp same, agree⟩
  · rintro ⟨rfl, agree⟩
    exact ⟨by rw [idsFor, whole], by rwa [whole]⟩

theorem give (naming : Naming) (pool : IdPool) :
    Serves kind [naming] pool ((IdPool.give kind naming).run pool).2
      [((IdPool.give kind naming).run pool).1] :=
  single_iff.mpr ⟨rfl, .refl _⟩

theorem append {front back : List Naming} (first : Serves kind front before between ids)
    (second : Serves kind back between after ids') :
    Serves kind (front ++ back) before after (ids ++ ids') where
  ids_eq := by rw [idsFor_append, first.agrees.idsFor_eq, ← first.ids_eq, ← second.ids_eq]
  agrees := by
    have run : ((front ++ back).mapM (IdPool.give kind)).run before =
        (idsFor kind (front ++ back) before,
          ((back.mapM (IdPool.give kind)).run
            ((front.mapM (IdPool.give kind)).run before).2).2) := by
      rw [idsFor, List.mapM_append]
      rfl
    rw [run]
    exact (first.agrees.mapM_give back).trans second.agrees

/-- The same ids are given from a pool with the same ids of the kind. -/
theorem nothing_trans (agree : AgreeOn kind before between)
    (second : Serves kind namings between after ids) : Serves kind namings before after ids := by
  simpa using (nothing agree).append second

/-- A step for each member of a list gives what the single steps give. -/
theorem mapM {α β : Type} {step : α → StateM IdPool β} {namings : α → List Naming}
    {ids : β → List String}
    (each : ∀ x pool, Serves kind (namings x) pool ((step x).run pool).2
      (ids ((step x).run pool).1)) (xs : List α) (pool : IdPool) :
    Serves kind (xs.flatMap namings) pool ((xs.mapM step).run pool).2
      (((xs.mapM step).run pool).1.flatMap ids) := by
  induction xs generalizing pool with
  | nil => exact nothing (.refl pool)
  | cons x rest ih =>
    rw [List.mapM_cons]
    exact (each x pool).append (ih _)

end Serves

/-! ## Different ids -/

/-- No two declared ids are the same, and none is one of those that are made from an empty pool. -/
def AreApart (kind : IdKind) (namings : List Naming) : Prop :=
  (namings.filterMap Naming.declared).Nodup ∧
    ∀ id ∈ namings.filterMap Naming.declared, id ∉ madeFor kind namings {}

instance (kind : IdKind) (namings : List Naming) : Decidable (AreApart kind namings) :=
  inferInstanceAs (Decidable (_ ∧ _))

/-- All ids are different just if the declared ones are, and keep apart from those that are made. -/
theorem nodup_idsFor_iff : (idsFor kind namings {}).Nodup ↔ AreApart kind namings := by
  rw [(perm_idsFor kind namings {}).nodup_iff, List.nodup_append, AreApart]
  constructor
  · rintro ⟨declared, -, apart⟩
    exact ⟨declared, fun id given made => apart id given id made rfl⟩
  · rintro ⟨declared, apart⟩
    exact ⟨declared, nodup_madeFor kind namings {}, fun id given id' made same =>
      apart id given (same ▸ made)⟩

/-- Without declared ids all ids are different. -/
theorem areApart_of_undeclared (undeclared : ∀ naming ∈ namings, naming.declared = none) :
    AreApart kind namings := by
  have none : namings.filterMap Naming.declared = [] := List.filterMap_eq_nil_iff.mpr undeclared
  rw [AreApart, none]
  exact ⟨List.nodup_nil, nofun⟩

/-- The pool makes one id for two entities of the same name, and the declared id of a third one is
kept whatever it is. -/
example : idsFor .envVar [⟨none, "PATH"⟩, ⟨some "PATH", "Path"⟩, ⟨none, "PATH"⟩] {} =
    ["PATH", "PATH", "PATH.1"] := by
  decide +kernel

end IdPool

end Installer
