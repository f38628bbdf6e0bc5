import Installer.Proofs.Directory.Tree

/-! # Where a lookup ends

By id, the first directory in the order of declaration is found.  By a path, a chain of nested
directories is followed, and siblings may have the same name: where the names lead on from a later
twin only, the search goes back to it.  A chain is told from others by the positions of its
directories among their siblings, and the search ends with the first one.
-/

namespace Installer.Dir

variable {dir found : Dir} {dirs rest : List Dir} {n : Nat} {positions : List Nat}
  {name : String} {names : List String}

/-! ## By id -/

mutual

theorem findId?_eq_find? (id : String) :
    ∀ dir : Dir, findId? id dir = (all [dir]).find? fun dir => dir.id = some id
  | ⟨body, dirs⟩ => by
    rw [findId?, all_cons, all_nil, List.append_nil, List.find?_cons, findIdIn?_eq_find? id dirs]
    by_cases here : body.id = some id
    · simp [here]
    · simp [here]

/-- The search goes through the directories in the order of declaration. -/
theorem findIdIn?_eq_find? (id : String) :
    ∀ dirs : List Dir, findIdIn? id dirs = (all dirs).find? fun dir => dir.id = some id
  | [] => rfl
  | dir :: rest => by
    have split : all (dir :: rest) = all [dir] ++ all rest := all_append [dir] rest
    rw [findIdIn?, findId?_eq_find? id dir, findIdIn?_eq_find? id rest, split, List.find?_append]

end

def IsFirstWithId (dirs : List Dir) (id : String) (dir : Dir) : Prop :=
  ∃ front back, all dirs = front ++ dir :: back ∧ dir.id = some id ∧
    ∀ earlier ∈ front, earlier.id ≠ some id

theorem isFirstWithId_of_findIdIn? {id : String} (result : findIdIn? id dirs = some dir) :
    IsFirstWithId dirs id dir := by
  rw [findIdIn?_eq_find?, List.find?_eq_some_iff_append] at result
  obtain ⟨declared, front, back, split, others⟩ := result
  refine ⟨front, back, split, by simpa using declared, fun earlier mem same => ?_⟩
  have other := others earlier mem
  simp [same] at other

theorem findIdIn?_eq_none {id : String} :
    findIdIn? id dirs = none ↔ ∀ dir ∈ all dirs, dir.id ≠ some id := by
  rw [findIdIn?_eq_find?, List.find?_eq_none]
  simp

/-! ## Chains of directories -/

/-- The names are of the same directory: their identifiers differ in the case of letters at most. -/
def SameName (name name' : String) : Prop :=
  (Folder.identifier name).toList.map Char.toLower =
    (Folder.identifier name').toList.map Char.toLower

theorem nameKey_eq_iff {name name' : String} : nameKey name = nameKey name' ↔ SameName name name' :=
  String.ofList_inj

/-- A chain of nested directories, one for each name, begins among `dirs` and ends with the last
directory. Each has the position among its siblings that is listed. -/
inductive Leads : List Dir → List Nat → List String → Dir → Prop where
  | last {dirs : List Dir} {n : Nat} {dir : Dir} {name : String} (here : dirs[n]? = some dir)
      (same : SameName dir.name name) : Leads dirs [n] [name] dir
  | inner {dirs : List Dir} {n : Nat} {dir found : Dir} {name : String} {positions : List Nat}
      {names : List String} (here : dirs[n]? = some dir) (same : SameName dir.name name)
      (below : Leads dir.dirs positions names found) :
      Leads dirs (n :: positions) (name :: names) found

namespace Leads

theorem exists_cons (leads : Leads dirs positions names found) :
    ∃ n rest, positions = n :: rest := by
  cases leads with
  | last here same => exact ⟨_, _, rfl⟩
  | inner here same below => exact ⟨_, _, rfl⟩

/-- Whether a chain begins at a position is decided by the directory that is there. -/
theorem of_getElem? {dirs' : List Dir} {m : Nat} (same : dirs'[m]? = dirs[n]?)
    (leads : Leads dirs (n :: positions) names found) :
    Leads dirs' (m :: positions) names found := by
  cases leads with
  | last here name => exact .last (same.trans here) name
  | inner here name below => exact .inner (same.trans here) name below

theorem zero_iff : Leads (dir :: rest) (0 :: positions) names found ↔
    Leads [dir] (0 :: positions) names found :=
  have same : (dir :: rest)[0]? = [dir][0]? := rfl
  ⟨of_getElem? same.symm, of_getElem? same⟩

theorem succ_iff : Leads (dir :: rest) ((n + 1) :: positions) names found ↔
    Leads rest (n :: positions) names found :=
  have same : (dir :: rest)[n + 1]? = rest[n]? := rfl
  ⟨of_getElem? same.symm, of_getElem? same⟩

/-- A chain from a directory itself ends there or goes on below it. -/
theorem singleton_iff : Leads [dir] (n :: positions) (name :: names) found ↔
    n = 0 ∧ SameName dir.name name ∧
      (positions = [] ∧ names = [] ∧ found = dir ∨ Leads dir.dirs positions names found) := by
  constructor
  · intro leads
    have at_zero : ∀ {dir'}, [dir][n]? = some dir' → n = 0 ∧ dir' = dir := by
      intro dir' here
      cases n with
      | zero => exact ⟨rfl, (Option.some.inj here).symm⟩
      | succ n => cases here
    cases leads with
    | last here same =>
      obtain ⟨rfl, rfl⟩ := at_zero here
      exact ⟨rfl, same, .inl ⟨rfl, rfl, rfl⟩⟩
    | inner here same below =>
      obtain ⟨rfl, rfl⟩ := at_zero here
      exact ⟨rfl, same, .inr below⟩
  · rintro ⟨rfl, same, ⟨rfl, rfl, rfl⟩ | below⟩
    · exact .last rfl same
    · exact .inner rfl same below

end Leads

/-- The result of a search for the directory to which the names lead: none if there is no chain, and
else the end of the chain that is first by its positions, level by level. -/
def EndsSearch (dirs : List Dir) (names : List String) : Option Dir → Prop
  | none => ∀ positions found, ¬ Leads dirs positions names found
  | some found => ∃ positions, Leads dirs positions names found ∧
      ∀ others found', Leads dirs others names found' → others ≠ positions →
        List.Lex (· < ·) positions others

namespace EndsSearch

/-- The chains from the first directory come before those from its siblings. -/
theorem cons {first later : Option Dir} (here : EndsSearch [dir] names first)
    (there : EndsSearch rest names later) : EndsSearch (dir :: rest) names (first.or later) := by
  cases first with
  | some found =>
    -- the way ends in the first directory, and all other ways there come before those in the rest
    obtain ⟨positions, leads, least⟩ := here
    obtain ⟨n, below, rfl⟩ := leads.exists_cons
    have zero : n = 0 := by
      cases names with
      | nil => cases leads
      | cons name names => exact (Leads.singleton_iff.mp leads).1
    subst zero
    refine ⟨0 :: below, Leads.zero_iff.mpr leads, fun others found' leads' different => ?_⟩
    obtain ⟨m, below', rfl⟩ := leads'.exists_cons
    cases m with
    | zero => exact least _ _ (Leads.zero_iff.mp leads') different
    | succ m => exact .rel (Nat.succ_pos m)
  | none =>
    have skipped : ∀ {below found}, ¬ Leads (dir :: rest) (0 :: below) names found :=
      fun leads => here _ _ (Leads.zero_iff.mp leads)
    cases later with
    | none =>
      intro positions found leads
      obtain ⟨m, below, rfl⟩ := leads.exists_cons
      cases m with
      | zero => exact skipped leads
      | succ m => exact there _ _ (Leads.succ_iff.mp leads)
    | some found =>
      obtain ⟨positions, leads, least⟩ := there
      obtain ⟨n, below, rfl⟩ := leads.exists_cons
      refine ⟨(n + 1) :: below, Leads.succ_iff.mpr leads, fun others found' leads' different => ?_⟩
      obtain ⟨m, below', rfl⟩ := leads'.exists_cons
      cases m with
      | zero => exact absurd leads' skipped
      | succ m =>
        have apart : m :: below' ≠ n :: below := by
          intro same
          obtain ⟨rfl, rfl⟩ := List.cons.inj same
          exact different rfl
        have before := least _ _ (Leads.succ_iff.mp leads') apart
        cases before with
        | rel less => exact .rel (Nat.succ_lt_succ less)
        | cons inside => exact .cons inside

/-- A directory with the first name is the result if there are no more names, and else what is found
below it is. -/
theorem singleton {below : Option Dir} (inside : EndsSearch dir.dirs names below)
    (same : SameName dir.name name) :
    EndsSearch [dir] (name :: names) (if names.isEmpty then some dir else below) := by
  cases names with
  | nil =>
    refine ⟨[0], .last rfl same, fun others found' leads different => ?_⟩
    obtain ⟨n, rest, rfl⟩ := leads.exists_cons
    obtain ⟨rfl, -, ⟨rfl, -, -⟩ | deeper⟩ := Leads.singleton_iff.mp leads
    · exact absurd rfl different
    · cases deeper
  | cons second others =>
    have onward : ∀ {positions found}, Leads [dir] positions (name :: second :: others) found →
        ∃ rest, positions = 0 :: rest ∧ Leads dir.dirs rest (second :: others) found := by
      intro positions found leads
      obtain ⟨n, rest, rfl⟩ := leads.exists_cons
      obtain ⟨rfl, -, ⟨-, none, -⟩ | deeper⟩ := Leads.singleton_iff.mp leads
      · cases none
      · exact ⟨rest, rfl, deeper⟩
    cases below with
    | none =>
      intro positions found leads
      obtain ⟨rest, -, deeper⟩ := onward leads
      exact inside _ _ deeper
    | some found =>
      obtain ⟨positions, leads, least⟩ := inside
      refine ⟨0 :: positions, .inner rfl same leads, fun others' found' leads' different => ?_⟩
      obtain ⟨rest, rfl, deeper⟩ := onward leads'
      exact .cons (least _ _ deeper fun equal => different (by rw [equal]))

theorem singleton_none (other : ¬ SameName dir.name name) :
    EndsSearch [dir] (name :: names) none := by
  intro positions found leads
  obtain ⟨n, rest, rfl⟩ := leads.exists_cons
  exact other (Leads.singleton_iff.mp leads).2.1

end EndsSearch

mutual

theorem endsSearch_follow? : ∀ (dir : Dir) (names : List String),
    EndsSearch [dir] names (follow? dir names)
  | dir, [] => by
    rw [follow?]
    intro positions found leads
    cases leads
  | ⟨body, dirs⟩, name :: names => by
    rw [follow?]
    split
    next same => exact .singleton (endsSearch_followIn? dirs names) (nameKey_eq_iff.mp same)
    next other => exact .singleton_none fun same => other (nameKey_eq_iff.mpr same)

/-- Following the names finds the end of the first chain. -/
theorem endsSearch_followIn? : ∀ (dirs : List Dir) (names : List String),
    EndsSearch dirs names (followIn? dirs names)
  | [], names => by
    rw [followIn?]
    intro positions found leads
    cases leads with
    | last here same => cases here
    | inner here same below => cases here
  | dir :: rest, names => by
    rw [followIn?]
    exact .cons (endsSearch_follow? dir names) (endsSearch_followIn? rest names)

end

/-! ## By a text -/

/-- The id that a name refers to, in brackets or not. -/
def bareId (name : String) : String :=
  String.ofList (Folder.unbracketed name.toList)

/-- The result of looking for a text among and below the directories. -/
structure IsLookup (dirs : List Dir) (path : String) (result : Option Dir) : Prop where
  /-- A single name is the id of a directory before it is a path. -/
  byId : ∀ name, LogicalPath.components path = [name] →
    (∃ dir ∈ all dirs, dir.id = some (bareId name)) →
      ∃ dir, result = some dir ∧ IsFirstWithId dirs (bareId name) dir
  byPath : (∀ name, LogicalPath.components path = [name] →
    ∀ dir ∈ all dirs, dir.id ≠ some (bareId name)) →
      EndsSearch dirs (LogicalPath.components path) result

theorem find?_of_single {path : String} (single : LogicalPath.components path = [name]) :
    find? dirs path = (findIdIn? (bareId name) dirs).or (followIn? dirs [name]) := by
  rw [find?, single]
  rfl

theorem isLookup_find? (dirs : List Dir) (path : String) :
    IsLookup dirs path (find? dirs path) where
  byId name single declared := by
    obtain ⟨dir, mem, same⟩ := declared
    rw [find?_of_single single]
    cases result : findIdIn? (bareId name) dirs with
    | none => exact absurd same (findIdIn?_eq_none.mp result dir mem)
    | some first => exact ⟨first, rfl, isFirstWithId_of_findIdIn? result⟩
  byPath undeclared := by
    by_cases single : ∃ name, LogicalPath.components path = [name]
    · obtain ⟨name, single⟩ := single
      have none := findIdIn?_eq_none.mpr (undeclared name single)
      rw [find?_of_single single, none, Option.none_or, single]
      exact endsSearch_followIn? dirs [name]
    · rw [find?]
      split
      next name here => exact absurd ⟨name, here⟩ single
      next => exact endsSearch_followIn? dirs _

-- the first of the twins leads nowhere
example : (find? [⟨{ name := "Acme" }, []⟩, ⟨{ name := "ACME" },
    [⟨{ name := "Docs", id := some "DOCS" }, []⟩]⟩] "acme\\docs").bind (·.id) = some "DOCS" := by
  decide +kernel

end Installer.Dir
