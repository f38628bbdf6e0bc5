import Installer.Proofs.Component.Standalone
import Installer.Proofs.Ident.Pool
import Mathlib.Logic.Function.Basic

/-! # Numbers of standalone components

Each family counts its components from one.  `Numbered` follows the counts of all families through a
list of bookings.  It shows that no two standalone bookings have the same origin, and the texts of
the ids keep the origins apart.
-/

namespace Installer

/-! ## Ids of different families -/

namespace Family

/-- No stem with a number behind it is another stem with a number behind it. -/
theorem stem_append_ne {f g : Family} (other : f ≠ g) (m n : Nat) :
    f.stem ++ toString m ≠ g.stem ++ toString n := by
  intro equal
  have chars := congrArg String.toList equal
  rw [String.toList_append, String.toList_append] at chars
  cases f <;> cases g <;> simp [stem] at chars other

theorem component_append_ne (f : Family) (id : String) (n : Nat) :
    "Component." ++ id ≠ f.stem ++ toString n := by
  intro equal
  have chars := congrArg String.toList equal
  rw [String.toList_append, String.toList_append] at chars
  cases f <;> simp [stem] at chars

/-- The one id ends in a letter, the other one in a digit. -/
theorem append_emptyDirectory_ne (f : Family) (id : String) (n : Nat) :
    id ++ ".EmptyDirectory" ≠ f.stem ++ toString n := by
  intro equal
  have last := congrArg (fun s : String => s.toList.getLast?) equal
  -- the last character is a digit on the right and the letter y on the left
  have digits : (toString n).toList = Nat.toDigits 10 n := Nat.toList_repr
  have some_ : Nat.toDigits 10 n ≠ [] := Nat.toDigits_ne_nil
  simp only [String.toList_append, digits, List.getLast?_append_of_ne_nil _ some_] at last
  rw [List.getLast?_eq_getLast_of_ne_nil some_] at last
  have digit : ((Nat.toDigits 10 n).getLast some_).isDigit = true :=
    Nat.isDigit_of_mem_toDigits (by decide) (by decide) (List.getLast_mem some_)
  have letter : (id.toList ++ ".EmptyDirectory".toList).getLast? = some 'y' := by
    rw [List.getLast?_append_of_ne_nil _ (by decide)]
    rfl
  rw [letter, Option.some.injEq] at last
  rw [← last] at digit
  exact absurd digit (by decide)

end Family

/-- Different standalone origins have different ids. -/
theorem Origin.standalone_inj {f g : Family} {m n : Nat}
    (equal : (Origin.standalone f m).componentId = (Origin.standalone g n).componentId) :
    f = g ∧ m = n := by
  by_cases same : f = g
  · subst same
    exact ⟨rfl, toString_inj.mp ((String.append_right_inj f.stem).mp equal)⟩
  · exact absurd equal (Family.stem_append_ne same m n)

/-! ## Counting -/

/-- The bookings are for different standalone entities, each numbered above the count of its family
at the start and up to that at the end. -/
structure Numbered (start stop : Family → Nat) (bookings : List Booking) : Prop where
  le : ∀ f, start f ≤ stop f
  within : ∀ booking ∈ bookings, ∃ f n, booking.origin = .standalone f n ∧ start f < n ∧ n ≤ stop f
  nodup : (bookings.map Booking.origin).Nodup

namespace Numbered

variable {start between stop : Family → Nat} {bookings bookings₁ bookings₂ : List Booking}

theorem nil (start : Family → Nat) : Numbered start start [] :=
  ⟨fun _ => Nat.le_refl _, by simp, List.nodup_nil⟩

theorem single (start : Family → Nat) (family : Family) (feature : Option String) :
    Numbered start (Function.update start family (start family + 1))
      [⟨.standalone family (start family + 1), feature⟩] where
  le f := by
    by_cases same : f = family
    · subst same
      simp
    · simp [same]
  within := by
    rw [List.forall_mem_singleton]
    exact ⟨family, start family + 1, rfl, by omega, by simp⟩
  nodup := List.nodup_singleton _

theorem append (first : Numbered start between bookings₁)
    (second : Numbered between stop bookings₂) : Numbered start stop (bookings₁ ++ bookings₂) where
  le f := Nat.le_trans (first.le f) (second.le f)
  within := by
    rw [List.forall_mem_append]
    constructor
    · intro booking mem
      obtain ⟨f, n, origin, above, below⟩ := first.within booking mem
      exact ⟨f, n, origin, above, Nat.le_trans below (second.le f)⟩
    · intro booking mem
      obtain ⟨f, n, origin, above, below⟩ := second.within booking mem
      exact ⟨f, n, origin, Nat.lt_of_le_of_lt (first.le f) above, below⟩
  nodup := by
    rw [List.map_append, List.nodup_append]
    refine ⟨first.nodup, second.nodup, ?_⟩
    simp only [List.forall_mem_map]
    intro a memA b memB equal
    obtain ⟨f, m, originA, -, below⟩ := first.within a memA
    obtain ⟨g, n, originB, above, -⟩ := second.within b memB
    -- a number of the second part is above all those of the first
    rw [originA, originB, Origin.standalone.injEq] at equal
    obtain ⟨rfl, rfl⟩ := equal
    omega

/-- The bookings of a list of entities, counted on from the count of their family. -/
theorem zipIdx {α : Type} (family : Family) (feature : α → Option String) (entities : List α)
    (shift i : Nat) (count : start family = shift + i) :
    ∃ stop, Numbered start stop ((entities.zipIdx i).map fun entity =>
        ⟨.standalone family (shift + entity.2 + 1), feature entity.1⟩) ∧
      stop family = start family + entities.length ∧ ∀ g, g ≠ family → stop g = start g := by
  induction entities generalizing i start with
  | nil => exact ⟨start, .nil start, rfl, fun _ _ => rfl⟩
  | cons entity rest ih =>
    have first := single start family (feature entity)
    have count' : Function.update start family (start family + 1) family = shift + (i + 1) := by
      rw [Function.update_self]
      omega
    obtain ⟨stop, others, length, same⟩ := ih (i + 1) count'
    refine ⟨stop, ?_, ?_, fun g other => ?_⟩
    · rw [List.zipIdx_cons, List.map_cons, ← List.singleton_append, ← count]
      exact first.append others
    · rw [length, Function.update_self, List.length_cons]
      omega
    · rw [same g other, Function.update_of_ne other]

end Numbered

/-! ## The families -/

variable {start : Family → Nat}

theorem Family.numbered_bookings {α : Type} (family : Family) (feature : α → Option String)
    (entities : List α) (none : start family = 0) :
    ∃ stop, Numbered start stop (family.bookings feature entities) ∧
      ∀ g, g ≠ family → stop g = start g := by
  obtain ⟨stop, numbered, -, same⟩ := Numbered.zipIdx family feature entities 0 0 none
  refine ⟨stop, ?_, same⟩
  rw [bookings, List.zipIdx_succ, List.map_map]
  simpa only [Nat.zero_add, Function.comp_def] using numbered

theorem User.numbered_bookings (users : List User) (count : Nat) (counted : start .user = count) :
    ∃ stop, Numbered start stop (bookings count users) ∧ ∀ g, g ≠ .user → stop g = start g := by
  induction users generalizing count start with
  | nil => exact ⟨start, .nil start, fun _ _ => rfl⟩
  | cons user rest ih =>
    rw [bookings]
    split
    next =>
      subst counted
      have first := Numbered.single start .user user.feature
      obtain ⟨stop, others, same⟩ := ih (start .user + 1) (Function.update_self _ _ _)
      refine ⟨stop, first.append others, fun g other => ?_⟩
      rw [same g other, Function.update_of_ne other]
    next => exact ih count counted

namespace SqlDatabase

/-- The families of databases stand at the counts. -/
structure Counted (start : Family → Nat) (counts : Counts) : Prop where
  databases : start .database = counts.databases
  strings : start .sqlString = counts.strings
  scripts : start .sqlScript = counts.scripts

theorem numbered_referredBookings {counts : Counts} (counted : Counted start counts)
    (db : SqlDatabase) : ∃ stop, Numbered start stop (db.referredBookings counts) ∧
      Counted stop { counts with
        strings := counts.strings + db.strings.length
        scripts := counts.scripts + db.scripts.length } ∧
      ∀ g, g ∉ [Family.database, .sqlString, .sqlScript] → stop g = start g := by
  obtain ⟨between, strings, length, same⟩ :=
    Numbered.zipIdx .sqlString SqlString.feature db.strings counts.strings 0 counted.strings
  have scriptCount : between .sqlScript = counts.scripts + 0 :=
    (same .sqlScript (by decide)).trans counted.scripts
  obtain ⟨stop, scripts, length', same'⟩ :=
    Numbered.zipIdx .sqlScript SqlScript.feature db.scripts counts.scripts 0 scriptCount
  refine ⟨stop, strings.append scripts, ⟨?_, ?_, ?_⟩, fun g other => ?_⟩
  · rw [same' _ (by decide), same _ (by decide), counted.databases]
  · rw [same' _ (by decide), length, counted.strings]
  · rw [length', scriptCount, Nat.add_zero]
  · simp only [List.mem_cons, not_or] at other
    rw [same' g other.2.2.1, same g other.2.1]

theorem numbered_bookings (dbs : List SqlDatabase) {counts : Counts}
    (counted : Counted start counts) :
    ∃ stop, Numbered start stop (bookings counts dbs) ∧
      ∀ g, g ∉ [Family.database, .sqlString, .sqlScript] → stop g = start g := by
  induction dbs generalizing counts start with
  | nil => exact ⟨start, .nil start, fun _ _ => rfl⟩
  | cons db rest ih =>
    rw [bookings]
    split
    next =>
      have first := Numbered.single start .database db.feature
      have counted' : Counted (Function.update start .database (start .database + 1))
          { counts with databases := counts.databases + 1 } :=
        ⟨by rw [Function.update_self, counted.databases], counted.strings, counted.scripts⟩
      obtain ⟨stop, others, same⟩ := ih counted'
      rw [counted.databases] at first
      refine ⟨stop, ?_, fun g other => ?_⟩
      · rw [counted.databases] at others
        exact first.append others
      · have different : g ≠ .database := by
          rintro rfl
          exact other (List.mem_cons_self ..)
        rw [same g other, Function.update_of_ne different]
    next =>
      obtain ⟨between, first, counted', same⟩ := numbered_referredBookings counted db
      obtain ⟨stop, others, same'⟩ := ih counted'
      exact ⟨stop, first.append others, fun g other => (same' g other).trans (same g other)⟩

end SqlDatabase

/-- All standalone components of a project are numbered apart. -/
theorem Project.numbered_standaloneBookings (project : Project) :
    ∃ stop, Numbered (fun _ => 0) stop project.standaloneBookings := by
  obtain ⟨s₁, registry, same₁⟩ : ∃ stop, Numbered (fun _ => 0) stop
      (Family.bookings .registry RegValue.feature project.regValues) ∧
        ∀ g, g ≠ .registry → stop g = 0 := Family.numbered_bookings _ _ _ rfl
  obtain ⟨s₂, environment, same₂⟩ := Family.environment.numbered_bookings EnvVar.feature
    project.envVars (same₁ .environment (by decide))
  have noUser : s₂ .user = 0 := (same₂ _ (by decide)).trans (same₁ _ (by decide))
  obtain ⟨s₃, users, same₃⟩ := User.numbered_bookings project.users 0 noUser
  have before : ∀ g, g ∉ [Family.registry, .environment, .user] → s₃ g = 0 := fun g other => by
    simp only [List.mem_cons, not_or] at other
    rw [same₃ g other.2.2.1, same₂ g other.2.1, same₁ g other.1]
  have counted : SqlDatabase.Counted s₃ {} :=
    ⟨before _ (by decide), before _ (by decide), before _ (by decide)⟩
  obtain ⟨s₄, databases, same₄⟩ := SqlDatabase.numbered_bookings project.sqlDatabases counted
  obtain ⟨s₅, certificates, -⟩ := Family.certificate.numbered_bookings Certificate.feature
    project.certificates ((same₄ .certificate (by decide)).trans (before _ (by decide)))
  exact ⟨s₅, (((registry.append environment).append users).append databases).append certificates⟩

theorem Project.nodup_standaloneIds (project : Project) :
    (project.standaloneBookings.map Booking.componentId).Nodup := by
  obtain ⟨stop, numbered⟩ := project.numbered_standaloneBookings
  have ids : project.standaloneBookings.map Booking.componentId =
      (project.standaloneBookings.map Booking.origin).map Origin.componentId := by
    rw [List.map_map]
    rfl
  -- the origins are different, and the texts of their ids tell them apart
  rw [ids]
  refine numbered.nodup.map_on fun a memA b memB equal => ?_
  obtain ⟨x, memX, rfl⟩ := List.mem_map.mp memA
  obtain ⟨y, memY, rfl⟩ := List.mem_map.mp memB
  obtain ⟨f, m, originX, -, -⟩ := numbered.within x memX
  obtain ⟨g, n, originY, -, -⟩ := numbered.within y memY
  rw [originX, originY] at equal ⊢
  obtain ⟨rfl, rfl⟩ := Origin.standalone_inj equal
  rfl

end Installer
