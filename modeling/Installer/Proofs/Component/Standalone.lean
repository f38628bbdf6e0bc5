import Installer.Proofs.Component.Shape

/-! # Components of standalone entities

Registry values, environment variables, users, databases and certificates have components that are
numbered within their family.  The bookings of each family are listed as the recursion of its
emission goes, and every emission is shown to make components for exactly these bookings.
-/

namespace Installer

open Markup (Element)
open Markup.Element
open Emit

/-! ## Bookings -/

def Family.bookings {α : Type} (family : Family) (feature : α → Option String) (entities : List α) :
    List Booking :=
  (entities.zipIdx 1).map fun entity => ⟨.standalone family entity.2, feature entity.1⟩

def User.bookings (count : Nat) : List User → List Booking
  | [] => []
  | user :: rest =>
    if user.isInstalled then
      ⟨.standalone .user (count + 1), user.feature⟩ :: bookings (count + 1) rest
    else bookings count rest

namespace SqlDatabase

/-- The bookings of the statements and scripts of a database that is only referred to. -/
def referredBookings (counts : Counts) (db : SqlDatabase) : List Booking :=
  (db.strings.zipIdx.map fun sql =>
    ⟨.standalone .sqlString (counts.strings + sql.2 + 1), sql.1.feature⟩) ++
    db.scripts.zipIdx.map fun script =>
      ⟨.standalone .sqlScript (counts.scripts + script.2 + 1), script.1.feature⟩

def bookings (counts : Counts) : List SqlDatabase → List Booking
  | [] => []
  | db :: rest =>
    if db.isInstalled then
      ⟨.standalone .database (counts.databases + 1), db.feature⟩ ::
        bookings { counts with databases := counts.databases + 1 } rest
    else
      db.referredBookings counts ++
        bookings
          { counts with
            strings := counts.strings + db.strings.length
            scripts := counts.scripts + db.scripts.length } rest

end SqlDatabase

def Project.standaloneBookings (project : Project) : List Booking :=
  Family.bookings .registry RegValue.feature project.regValues ++
    Family.bookings .environment EnvVar.feature project.envVars ++
      User.bookings 0 project.users ++ SqlDatabase.bookings {} project.sqlDatabases ++
        Family.bookings .certificate Certificate.feature project.certificates

/-! ## Emission -/

/-- The components are made for the bookings, and the declarations hold no components. -/
structure StandaloneElements.AreFor (elements : StandaloneElements) (bookings : List Booking) :
    Prop where
  made : MadeFor bookings elements.components []
  plain : ∀ x ∈ elements.declarations, Plain x

namespace StandaloneElements.AreFor

variable {elements₁ elements₂ : StandaloneElements} {bookings₁ bookings₂ : List Booking}

theorem append (first : elements₁.AreFor bookings₁) (second : elements₂.AreFor bookings₂) :
    (elements₁ ++ elements₂).AreFor (bookings₁ ++ bookings₂) :=
  ⟨first.made.append second.made, List.forall_mem_append.mpr ⟨first.plain, second.plain⟩⟩

theorem of_components {components : List Element} {bookings : List Booking}
    (made : MadeFor bookings components []) :
    StandaloneElements.AreFor { components } bookings :=
  ⟨made, by simp⟩

end StandaloneElements.AreFor

variable {c : Compilation} {before after : Ledger}

/-- A component made for each member of a list. -/
theorem Emit.gives_mapM_components {α : Type} {step : α → Emit Element} (booking : α → Booking)
    (each : ∀ (x : α) (before : Ledger) (result : Element) (after : Ledger),
      (step x).Gives before result after →
        result.IsComponent (booking x).componentId [] ∧
          Ledger.Books c.project before after [booking x] [])
    {xs : List α} {results : List Element} (given : (xs.mapM step).Gives before results after) :
    MadeFor (xs.map booking) results [] ∧
      Ledger.Books c.project before after (xs.map booking) [] := by
  induction xs generalizing before results with
  | nil =>
    obtain ⟨rfl, rfl⟩ := gives_mapM_nil.mp given
    exact ⟨.nil, .refl _⟩
  | cons x xs ih =>
    obtain ⟨result, between, others, first, rest, rfl⟩ := gives_mapM_cons.mp given
    obtain ⟨shape, firstBooks⟩ := each x _ _ _ first
    obtain ⟨made, restBooks⟩ := ih rest
    exact ⟨(MadeFor.component shape).append made, firstBooks.trans restBooks⟩

theorem Compilation.gives_emitComponent {entity : String} (booking : Booking)
    {parts : List Element} {result : Element} (plain : ∀ x ∈ parts, Plain x)
    (given : (c.emitComponent entity booking.feature booking.componentId parts).Gives
      before result after) :
    result.IsComponent booking.componentId [] ∧
      Ledger.Books c.project before after [booking] [] := by
  simp only [emitComponent, gives_bind, gives_pure] at given
  obtain ⟨_, _, assign, rfl, rfl⟩ := given
  exact ⟨(isComponent_component c _).addAll plain, gives_assign booking assign⟩

theorem Emit.gives_need {α : Type} {extension : Extension} {entities : List α} {result : Unit}
    (given : (need extension entities).Gives before result after) :
    Ledger.Books c.project before after [] [] := by
  rw [need] at given
  split at given
  next => exact (gives_pure.mp given).2 ▸ .refl _
  next =>
    rw [gives_note] at given
    exact given ▸ books_addExtension

/-! ### Registry values, environment variables and certificates -/

theorem RegValue.gives_emit {value : RegValue} {n : Nat} {result : Element}
    (given : (value.emit c n).Gives before result after) :
    result.IsComponent (Origin.standalone .registry n).componentId [] ∧
      Ledger.Books c.project before after [⟨.standalone .registry n, value.feature⟩] [] := by
  simp only [emit, gives_bind, gives_pure] at given
  obtain ⟨_, _, assign, rfl, rfl⟩ := given
  exact ⟨isComponent_value c _ value, gives_assign ⟨.standalone .registry n, _⟩ assign⟩

theorem EnvVar.gives_emit {var : EnvVar} {n : Nat} {result : Element}
    (given : (var.emit c n).Gives before result after) :
    result.IsComponent (Origin.standalone .environment n).componentId [] ∧
      Ledger.Books c.project before after [⟨.standalone .environment n, var.feature⟩] [] := by
  simp only [emit, gives_bind, gives_pure] at given
  obtain ⟨_, _, assign, _, _, claimed, rfl, rfl⟩ := given
  have booked := gives_assign ⟨.standalone .environment n, _⟩ assign
  exact ⟨(isComponent_conditioned c _ _).add (plain_variable _ var),
    booked.trans_nil (gives_idOr claimed)⟩

theorem Certificate.gives_emit {cert : Certificate} {n : Nat} {result : Element}
    (given : (cert.emit c n).Gives before result after) :
    result.IsComponent (Origin.standalone .certificate n).componentId [] ∧
      Ledger.Books c.project before after [⟨.standalone .certificate n, cert.feature⟩] [] := by
  simp only [emit, gives_bind, gives_pure] at given
  obtain ⟨_, _, assign, _, _, claimed, rfl, rfl⟩ := given
  have booked := gives_assign ⟨.standalone .certificate n, _⟩ assign
  exact ⟨(isComponent_component c _).add (plain_certificate _ cert),
    booked.trans_nil (gives_idOr claimed)⟩

/-! ### Users and databases -/

theorem User.gives_emitAll {users : List User} {count : Nat} {result : StandaloneElements}
    (given : (emitAll c count users).Gives before result after) :
    result.AreFor (bookings count users) ∧
      Ledger.Books c.project before after (bookings count users) [] := by
  induction users generalizing count before result with
  | nil =>
    obtain ⟨rfl, rfl⟩ := gives_pure.mp given
    exact ⟨.of_components .nil, .refl _⟩
  | cons user rest ih =>
    simp only [emitAll, gives_bind] at given
    obtain ⟨id, _, claimed, given⟩ := given
    -- every user claims an id, but only those that are installed are booked
    have claims : Ledger.Books c.project _ _ [] [] := gives_idOr claimed
    rw [bookings]
    split at given
    next installed =>
      simp only [gives_bind, gives_pure] at given
      obtain ⟨component, _, first, _, _, others, rfl, rfl⟩ := given
      obtain ⟨shape, firstBooks⟩ := Compilation.gives_emitComponent
        ⟨.standalone .user (count + 1), user.feature⟩
        (by simpa using plain_user id user) first
      obtain ⟨areFor, otherBooks⟩ := ih others
      rw [if_pos installed]
      exact ⟨(StandaloneElements.AreFor.of_components (.component shape)).append areFor,
        claims.nil_trans (firstBooks.trans otherBooks)⟩
    next referred =>
      simp only [gives_bind, gives_pure] at given
      obtain ⟨_, _, others, rfl, rfl⟩ := given
      obtain ⟨areFor, otherBooks⟩ := ih others
      rw [if_neg referred]
      have declared : StandaloneElements.AreFor { declarations := [user.element id] } [] :=
        ⟨.nil, by simpa using plain_user id user⟩
      exact ⟨declared.append areFor, claims.nil_trans otherBooks⟩

namespace SqlDatabase

theorem gives_emitInstalled {db : SqlDatabase} {counts : Counts} {dbId : String}
    {result : StandaloneElements}
    (given : (db.emitInstalled c counts dbId).Gives before result after) :
    result.AreFor [⟨.standalone .database (counts.databases + 1), db.feature⟩] ∧
      Ledger.Books c.project before after
        [⟨.standalone .database (counts.databases + 1), db.feature⟩] [] := by
  simp only [emitInstalled, gives_bind, gives_pure] at given
  obtain ⟨component, _, step, rfl, rfl⟩ := given
  have plain : Plain ((db.element dbId).addAll (db.parts dbId none)) := by
    rw [Plain, only_addAll]
    exact ⟨plain_database dbId db, plain_databaseParts db dbId none⟩
  obtain ⟨shape, booked⟩ := Compilation.gives_emitComponent
    ⟨.standalone .database (counts.databases + 1), db.feature⟩
    (by simpa using plain) step
  exact ⟨.of_components (.component shape), booked⟩

theorem gives_emitReferred {db : SqlDatabase} {counts : Counts} {dbId : String}
    {result : StandaloneElements}
    (given : (db.emitReferred c counts dbId).Gives before result after) :
    result.AreFor (db.referredBookings counts) ∧
      Ledger.Books c.project before after (db.referredBookings counts) [] := by
  simp only [emitReferred, gives_bind, gives_pure] at given
  obtain ⟨strings, _, stringSteps, scripts, _, scriptSteps, rfl, rfl⟩ := given
  obtain ⟨stringsMade, stringBooks⟩ := gives_mapM_components
    (fun sql : SqlString × Nat =>
      ⟨.standalone .sqlString (counts.strings + sql.2 + 1), sql.1.feature⟩)
    (fun sql _ _ _ => Compilation.gives_emitComponent ⟨.standalone .sqlString _, _⟩
      (by simpa using plain_sqlString _ _ sql.1))
    stringSteps
  obtain ⟨scriptsMade, scriptBooks⟩ := gives_mapM_components
    (fun script : SqlScript × Nat =>
      ⟨.standalone .sqlScript (counts.scripts + script.2 + 1), script.1.feature⟩)
    (fun script _ _ _ => Compilation.gives_emitComponent ⟨.standalone .sqlScript _, _⟩
      (by simpa using plain_sqlScript _ _ script.1))
    scriptSteps
  exact ⟨⟨stringsMade.append scriptsMade, by simpa using plain_database dbId db⟩,
    stringBooks.trans scriptBooks⟩

theorem gives_emitAll {dbs : List SqlDatabase} {counts : Counts} {result : StandaloneElements}
    (given : (emitAll c counts dbs).Gives before result after) :
    result.AreFor (bookings counts dbs) ∧
      Ledger.Books c.project before after (bookings counts dbs) [] := by
  induction dbs generalizing counts before result with
  | nil =>
    obtain ⟨rfl, rfl⟩ := gives_pure.mp given
    exact ⟨.of_components .nil, .refl _⟩
  | cons db rest ih =>
    simp only [emitAll, gives_bind] at given
    obtain ⟨dbId, _, claimed, given⟩ := given
    have claims : Ledger.Books c.project _ _ [] [] := gives_idOr claimed
    rw [bookings]
    split at given
    next installed =>
      simp only [gives_bind, gives_pure] at given
      obtain ⟨_, _, first, _, _, others, rfl, rfl⟩ := given
      obtain ⟨firstFor, firstBooks⟩ := gives_emitInstalled first
      obtain ⟨otherFor, otherBooks⟩ := ih others
      rw [if_pos installed]
      exact ⟨firstFor.append otherFor, claims.nil_trans (firstBooks.trans otherBooks)⟩
    next referred =>
      simp only [gives_bind, gives_pure] at given
      obtain ⟨_, _, first, _, _, others, rfl, rfl⟩ := given
      obtain ⟨firstFor, firstBooks⟩ := gives_emitReferred first
      obtain ⟨otherFor, otherBooks⟩ := ih others
      rw [if_neg referred]
      exact ⟨firstFor.append otherFor, claims.nil_trans (firstBooks.trans otherBooks)⟩

end SqlDatabase

/-! ### All of them -/

theorem Compilation.gives_emitStandalone {result : StandaloneElements}
    (given : c.emitStandalone.Gives before result after) :
    result.AreFor c.project.standaloneBookings ∧
      Ledger.Books c.project before after c.project.standaloneBookings [] := by
  simp only [emitStandalone, gives_bind, gives_pure] at given
  obtain ⟨values, _, valueSteps, vars, _, varSteps, _, _, needUsers, users, _, userSteps, _, _,
    needDatabases, databases, _, databaseSteps, _, _, needCertificates, certificates, _,
    certificateSteps, rfl, rfl⟩ := given
  obtain ⟨valuesMade, valueBooks⟩ := gives_mapM_components
    (fun entry => ⟨.standalone .registry entry.2, entry.1.feature⟩)
    (fun _ _ _ _ => RegValue.gives_emit) valueSteps
  obtain ⟨varsMade, varBooks⟩ := gives_mapM_components
    (fun entry => ⟨.standalone .environment entry.2, entry.1.feature⟩)
    (fun _ _ _ _ => EnvVar.gives_emit) varSteps
  obtain ⟨usersFor, userBooks⟩ := User.gives_emitAll userSteps
  obtain ⟨databasesFor, databaseBooks⟩ := SqlDatabase.gives_emitAll databaseSteps
  obtain ⟨certificatesMade, certificateBooks⟩ := gives_mapM_components
    (fun entry => ⟨.standalone .certificate entry.2, entry.1.feature⟩)
    (fun _ _ _ _ => Certificate.gives_emit) certificateSteps
  have first : StandaloneElements.AreFor { components := values ++ vars } _ :=
    .of_components (valuesMade.append varsMade)
  refine ⟨((first.append usersFor).append databasesFor).append
    (.of_components certificatesMade), ?_⟩
  have books := valueBooks.trans varBooks
  have books := (books.trans_nil (gives_need needUsers)).trans userBooks
  have books := (books.trans_nil (gives_need needDatabases)).trans databaseBooks
  exact (books.trans_nil (gives_need needCertificates)).trans certificateBooks

end Installer
