import Installer.Source.Compilation
import Installer.Proofs.Directory.Tree

/-! # Directories brought into shape

The preparation of a project makes one change after the other to every directory of a tree.  What
such a change does not touch is still there afterwards, in the same order.
-/

/-! ## One change to every directory

A change to what directories are and hold, made to every directory of a tree, leaves the tree as it
is.  Names still lead to the same places, and a reading that does not see the change is the same.
-/

namespace Installer.Dir

variable {f g : DirBody → DirBody}

mutual

def mapBody (f : DirBody → DirBody) : Dir → Dir
  | ⟨body, dirs⟩ => ⟨f body, mapBodies f dirs⟩
termination_by structural dir => dir

def mapBodies (f : DirBody → DirBody) : List Dir → List Dir
  | [] => []
  | dir :: rest => mapBody f dir :: mapBodies f rest
termination_by structural dirs => dirs

end

theorem length_mapBodies (dirs : List Dir) : (mapBodies f dirs).length = dirs.length := by
  induction dirs with
  | nil => rfl
  | cons dir rest ih => rw [mapBodies, List.length_cons, List.length_cons, ih]

/-! ## Changes after each other -/

mutual

theorem mapBody_comm (commutes : ∀ body, f (g body) = g (f body)) :
    ∀ dir : Dir, mapBody f (mapBody g dir) = mapBody g (mapBody f dir)
  | ⟨body, dirs⟩ => by
    rw [mapBody, mapBody, mapBody, mapBody, commutes, mapBodies_comm commutes]

theorem mapBodies_comm (commutes : ∀ body, f (g body) = g (f body)) :
    ∀ dirs : List Dir, mapBodies f (mapBodies g dirs) = mapBodies g (mapBodies f dirs)
  | [] => rfl
  | dir :: rest => by
    rw [mapBodies, mapBodies, mapBodies, mapBodies, mapBody_comm commutes, mapBodies_comm commutes]

end

mutual

theorem widen_eq_mapBody : ∀ dir : Dir, dir.widen = mapBody DirBody.widen dir
  | ⟨body, dirs⟩ => by rw [widen, mapBody, widenAll_eq_mapBodies]

theorem widenAll_eq_mapBodies : ∀ dirs : List Dir, widenAll dirs = mapBodies DirBody.widen dirs
  | [] => rfl
  | dir :: rest => by rw [widenAll, mapBodies, widen_eq_mapBody, widenAll_eq_mapBodies]

end

/-! ## Names -/

mutual

theorem follow?_mapBody (named : ∀ body, (f body).name = body.name) :
    ∀ (dir : Dir) (names : List String),
      follow? (mapBody f dir) names = (follow? dir names).map (mapBody f)
  | ⟨body, dirs⟩, [] => rfl
  | ⟨body, dirs⟩, name :: names => by
    rw [mapBody, follow?, follow?, named]
    split
    next =>
      split
      next => rfl
      next => exact followIn?_mapBodies named dirs names
    next => rfl

/-- Names lead to the same directory. -/
theorem followIn?_mapBodies (named : ∀ body, (f body).name = body.name) :
    ∀ (dirs : List Dir) (names : List String),
      followIn? (mapBodies f dirs) names = (followIn? dirs names).map (mapBody f)
  | [], names => rfl
  | dir :: rest, names => by
    rw [mapBodies, followIn?, followIn?, follow?_mapBody named, followIn?_mapBodies named,
      Option.map_or]

end

mutual

theorem findId?_mapBody (identified : ∀ body, (f body).id = body.id) (id : String) :
    ∀ dir : Dir, findId? id (mapBody f dir) = (findId? id dir).map (mapBody f)
  | ⟨body, dirs⟩ => by
    rw [mapBody, findId?, findId?, identified, findIdIn?_mapBodies identified]
    split
    next => rfl
    next => rfl

theorem findIdIn?_mapBodies (identified : ∀ body, (f body).id = body.id) (id : String) :
    ∀ dirs : List Dir, findIdIn? id (mapBodies f dirs) = (findIdIn? id dirs).map (mapBody f)
  | [] => rfl
  | dir :: rest => by
    rw [mapBodies, findIdIn?, findIdIn?, findId?_mapBody identified,
      findIdIn?_mapBodies identified, Option.map_or]

end

/-- A text refers to the same directory. -/
theorem find?_mapBodies (named : ∀ body, (f body).name = body.name)
    (identified : ∀ body, (f body).id = body.id) (dirs : List Dir) (path : String) :
    find? (mapBodies f dirs) path = (find? dirs path).map (mapBody f) := by
  rw [find?, find?]
  split
  next name => rw [findIdIn?_mapBodies identified, followIn?_mapBodies named, Option.map_or]
  next => exact followIn?_mapBodies named dirs _

/-! ## Readings -/

variable {α : Type} {read : DirBody → List α}

def readAll (read : DirBody → List α) (dirs : List Dir) : List α :=
  (all dirs).flatMap fun dir => read dir.toDirBody

theorem readAll_nil (read : DirBody → List α) : readAll read [] = [] :=
  rfl

theorem readAll_singleton (read : DirBody → List α) (body : DirBody) (below : List Dir) :
    readAll read [⟨body, below⟩] = read body ++ readAll read below := by
  simp [readAll]

theorem readAll_append (read : DirBody → List α) (dirs₁ dirs₂ : List Dir) :
    readAll read (dirs₁ ++ dirs₂) = readAll read dirs₁ ++ readAll read dirs₂ := by
  simp [readAll, all_append]

mutual

theorem readAll_mapBody (read : DirBody → List α) :
    ∀ dir : Dir, readAll read [mapBody f dir] = readAll (fun body => read (f body)) [dir]
  | ⟨body, dirs⟩ => by
    rw [mapBody, readAll_singleton, readAll_singleton, readAll_mapBodies_eq]

/-- A reading of changed directories is a reading of the directories. -/
theorem readAll_mapBodies_eq (read : DirBody → List α) :
    ∀ dirs : List Dir, readAll read (mapBodies f dirs) = readAll (fun body => read (f body)) dirs
  | [] => rfl
  | dir :: rest => by
    rw [mapBodies, ← List.singleton_append, readAll_append, readAll_mapBody read,
      readAll_mapBodies_eq read, ← readAll_append, List.singleton_append]

end

/-- A reading of directories that does not see the change gives the same. -/
theorem readAll_mapBodies (blind : ∀ body, read (f body) = read body) (dirs : List Dir) :
    readAll read (mapBodies f dirs) = readAll read dirs := by
  rw [readAll_mapBodies_eq]
  exact List.flatMap_congr fun dir _ => blind dir.toDirBody

end Installer.Dir

/-! ## What directories keep when they are brought into shape

The preparation of a project changes names and ids of directories and puts new directories around
them.  What the directories hold stays, in the same order: `IsContent` describes the readings of a
directory that do not see names and ids, and every such reading of all directories is kept.
-/

namespace Installer

/-- A reading of what a directory holds that depends neither on its name nor on its id, and neither
on the folders that shortcuts point to. A directory that holds nothing gives nothing. -/
structure DirBody.IsContent {α : Type} (read : DirBody → List α) : Prop where
  name : ∀ (body : DirBody) (name : String), read { body with name } = read body
  id : ∀ (body : DirBody) (id : Option String), read { body with id } = read body
  widen : ∀ body : DirBody, read body.widen = read body
  nothing : ∀ name : String, read { name } = []

/-! ## Names of paths -/

/-- The names of the directories that are made for a name: those of a path with several names, or
the whole text. -/
def LogicalPath.links (name : String) : List String :=
  if 2 ≤ (components name).length then components name else [name]

theorem LogicalPath.links_ne_nil (name : String) : links name ≠ [] := by
  rw [links]
  split
  next several =>
    intro empty
    rw [empty] at several
    cases several
  next => exact List.cons_ne_nil _ _

/-- The directory and those that are put around it for its name, each without what is inside it. -/
def DirBody.linked (body : DirBody) : List DirBody :=
  (LogicalPath.links body.name).dropLast.map (fun name : String => ({ name } : DirBody)) ++
    [{ body with name := (LogicalPath.links body.name).getLastD body.name }]

namespace Dir

variable {α : Type} {read : DirBody → List α}

/-! ## Wider folders -/

theorem readAll_widenAll (kept : ∀ body : DirBody, read body.widen = read body) (dirs : List Dir) :
    readAll read (widenAll dirs) = readAll read dirs := by
  rw [widenAll_eq_mapBodies, readAll_mapBodies kept]

/-! ## Chains of directories -/

theorem readAll_foldr_enclose (names : List String) (dir : Dir) :
    readAll read [names.foldr enclose dir] =
      (names.map fun name => ({ name } : DirBody)).flatMap read ++ readAll read [dir] := by
  induction names with
  | nil => rfl
  | cons name rest ih =>
    rw [List.foldr_cons, enclose, readAll_singleton, ih, List.map_cons, List.flatMap_cons,
      List.append_assoc]

theorem readAll_chained (dir : Dir) :
    readAll read [dir.chained] = dir.linked.flatMap read ++ readAll read dir.dirs := by
  obtain ⟨body, below⟩ := dir
  simp only [chained, DirBody.linked, LogicalPath.links, List.flatMap_append]
  cases LogicalPath.components body.name with
  | nil => simp [readAll_singleton]
  | cons first rest =>
    cases rest with
    | nil => simp [readAll_singleton]
    | cons second others =>
      simp only [List.dropLast_cons_cons, List.length_cons, Nat.le_add_left, if_true,
        readAll_foldr_enclose, readAll_singleton, List.flatMap_singleton, List.append_assoc]

mutual

theorem readAll_split (read : DirBody → List α) :
    ∀ dir : Dir, readAll read [dir.split] = readAll (fun body => body.linked.flatMap read) [dir]
  | ⟨body, dirs⟩ => by
    rw [split, readAll_chained, readAll_singleton, readAll_splitAll_eq]

/-- A reading of directories with a single name each is a reading of the directories of paths. -/
theorem readAll_splitAll_eq (read : DirBody → List α) : ∀ dirs : List Dir,
    readAll read (splitAll dirs) = readAll (fun body => body.linked.flatMap read) dirs
  | [] => by rw [splitAll, readAll_nil, readAll_nil]
  | dir :: rest => by
    rw [splitAll, ← List.singleton_append, readAll_append, readAll_split, readAll_splitAll_eq,
      ← readAll_append, List.singleton_append]

end

theorem readAll_splitAll
    (renamed : ∀ (body : DirBody) (name : String), read { body with name } = read body)
    (nothing : ∀ name : String, read { name } = []) (dirs : List Dir) :
    readAll read (splitAll dirs) = readAll read dirs := by
  rw [readAll_splitAll_eq]
  refine List.flatMap_congr fun dir _ => ?_
  have outer : ((LogicalPath.links dir.name).dropLast.map fun name =>
      ({ name } : DirBody)).flatMap read = [] := by
    rw [List.flatMap_map]
    simp [nothing]
  show dir.linked.flatMap read = read dir.toDirBody
  rw [DirBody.linked, List.flatMap_append, outer, List.flatMap_singleton, renamed, List.nil_append]

/-! ## The installation directory -/

mutual

theorem readAll_assignInstallId?
    (identified : ∀ (body : DirBody) (id : String), body.id = none →
      Folder.specialId? body.name = none → read { body with id := some id } = read body)
    {id : String} :
    ∀ {dir : Dir} {assigned : Dir × String}, assignInstallId? id dir = some assigned →
      readAll read [assigned.1] = readAll read [dir]
  | ⟨body, dirs⟩, assigned, given => by
    rw [assignInstallId?] at given
    split at given
    next =>
      obtain ⟨⟨below, path⟩, first, rfl⟩ := Option.map_eq_some_iff.mp given
      have kept := readAll_assignFirst? identified first
      simp only [readAll_singleton]
      rw [kept]
    next =>
      obtain ⟨dir, withId, rfl⟩ := Option.map_eq_some_iff.mp given
      rw [withInstallId?] at withId
      split at withId
      next => cases withId
      next plain =>
        cases withId
        simp only [Folder.isSpecial, Bool.or_eq_true, not_or, Bool.not_eq_true,
          Option.isSome_eq_false_iff, Option.isNone_iff_eq_none] at plain
        rw [readAll_singleton, readAll_singleton, identified body id plain.1 plain.2]

theorem readAll_assignFirst?
    (identified : ∀ (body : DirBody) (id : String), body.id = none →
      Folder.specialId? body.name = none → read { body with id := some id } = read body)
    {id : String} :
    ∀ {dirs : List Dir} {assigned : List Dir × String}, assignFirst? id dirs = some assigned →
      readAll read assigned.1 = readAll read dirs
  | dir :: rest, assigned, given => by
    rw [assignFirst?] at given
    obtain ⟨⟨first, path⟩, assignedFirst, rfl⟩ := Option.map_eq_some_iff.mp given
    -- only the first directory is looked into
    have kept : readAll read [first] = readAll read [dir] :=
      readAll_assignInstallId? identified assignedFirst
    show readAll read (first :: rest) = readAll read (dir :: rest)
    rw [← List.singleton_append, readAll_append, kept, ← readAll_append, List.singleton_append]

end

/-- A reading that does not see whether a plain directory got an id is, after all changes of shape,
a reading of the directories of paths. -/
theorem readAll_shape_eq
    (identified : ∀ (body : DirBody) (id : String), body.id = none →
      Folder.specialId? body.name = none → read { body with id := some id } = read body)
    (installId : String) (dirs : List Dir) : readAll read (shape installId dirs).1 =
      readAll (fun body => body.linked.flatMap read) dirs := by
  rw [shape, ← readAll_splitAll_eq]
  split
  next assigned _ given =>
    split at given
    next => cases given
    next => exact readAll_assignFirst? identified given
  next => rfl

theorem readAll_shape
    (renamed : ∀ (body : DirBody) (name : String), read { body with name } = read body)
    (nothing : ∀ name : String, read { name } = [])
    (identified : ∀ (body : DirBody) (id : Option String), read { body with id } = read body)
    (installId : String) (dirs : List Dir) :
    readAll read (shape installId dirs).1 = readAll read dirs := by
  rw [readAll_shape_eq fun body id _ _ => identified body (some id), ← readAll_splitAll_eq,
    readAll_splitAll renamed nothing]

end Dir

/-! ## Preparation -/

def CustomAction.widen (action : CustomAction) : CustomAction :=
  { action with kind := action.kind.widen }

/-- Apart from the directories, preparation changes nothing but the folders that actions name. -/
theorem Project.exists_prepare (project : Project) (options : Options) :
    ∃ dirs actions, (project.prepare options).project = { project with dirs, actions } ∧
      (actions = project.actions ∨ actions = project.actions.map CustomAction.widen) := by
  obtain ⟨dirs, some_⟩ : ∃ dirs, project.withSomeDir = { project with dirs } := by
    rw [withSomeDir]
    split
    next => exact ⟨_, rfl⟩
    next => exact ⟨project.dirs, rfl⟩
  have prepared : (project.prepare options).project =
      { project.withSomeDir.widened options with
        dirs := (project.prepare options).project.dirs } := rfl
  rw [prepared, some_, widened]
  split
  next => exact ⟨_, _, rfl, .inr rfl⟩
  next => exact ⟨_, project.actions, rfl, .inl rfl⟩

/-- What the directories of a project hold is there in the shape that gets the final ids. -/
theorem Project.readAll_widened {α : Type} {read : DirBody → List α}
    (kept : ∀ body : DirBody, read body.widen = read body)
    (nothing : ∀ name : String, read { name } = []) (project : Project) (options : Options) :
    Dir.readAll read (project.withSomeDir.widened options).dirs =
      Dir.readAll read project.dirs := by
  have some_ : Dir.readAll read project.withSomeDir.dirs = Dir.readAll read project.dirs := by
    rw [withSomeDir]
    split
    next empty =>
      rw [List.isEmpty_iff.mp empty]
      show Dir.readAll read [⟨{ name := "%ProgramFiles%\\WixTree\\DummyDir" }, []⟩] = _
      rw [Dir.readAll_singleton, nothing]
      rfl
    next => rfl
  rw [widened]
  split
  next => exact (Dir.readAll_widenAll kept _).trans some_
  next => exact some_

end Installer
