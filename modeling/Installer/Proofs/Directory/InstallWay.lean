import Installer.Proofs.Directory.Owners

/-! # The way to the installation directory

The installation directory is looked for among the declared directories, before anything is made of
them.  The way there goes through the first of them and on through single subdirectories, and in the
tree it is a part of the line of first subdirectories.
-/

namespace Installer

open Markup (Element Focus)
open Markup.Element

namespace Dir

/-! ## The way -/

/-- The search for the installation directory goes on below the directory. -/
def isPassed (dir : Dir) : Bool :=
  dir.shortcuts.isEmpty && dir.files.isEmpty && dir.dirs.length == 1

mutual

/-- The directories on the way down to the first one that holds something or branches. -/
def installWay : Dir → List Dir
  | ⟨body, dirs⟩ => ⟨body, dirs⟩ :: if isPassed ⟨body, dirs⟩ then installWayIn dirs else []
termination_by structural dir => dir

def installWayIn : List Dir → List Dir
  | [] => []
  | dir :: _ => installWay dir
termination_by structural dirs => dirs

end

/-- The ids on the way to the installation directory. -/
def installPath (dirs : List Dir) : List String :=
  (installWayIn dirs).map finalId

/-- The way ends in a directory that the id is declared for. -/
def EndsIn (way : List Dir) (id : String) : Prop :=
  ∃ last, way.getLast? = some last ∧ last.id = some id

theorem getLast?_installPath {dirs : List Dir} {id : String}
    (ends : EndsIn (installWayIn dirs) id) : (installPath dirs).getLast? = some id := by
  obtain ⟨last, isLast, declared⟩ := ends
  rw [installPath, List.getLast?_map, isLast, Option.map_some, finalId, declared, Option.getD_some]

/-! ## The end of the way -/

theorem getLast?_installWay_of_passed {dir : Dir} (passed : dir.isPassed = true) :
    (installWay dir).getLast? = (installWayIn dir.dirs).getLast? := by
  obtain ⟨body, dirs⟩ := dir
  rw [installWay, if_pos passed]
  -- a directory that is passed has another one in it
  cases dirs with
  | nil => simp [isPassed] at passed
  | cons inner rest =>
    obtain ⟨inside, below⟩ := inner
    rw [installWayIn, installWay, List.getLast?_cons_cons]

theorem getLast?_installWay_of_stops {dir : Dir} (stops : ¬ dir.isPassed = true) :
    (installWay dir).getLast? = some dir := by
  obtain ⟨body, dirs⟩ := dir
  rw [installWay, if_neg stops]
  rfl

mutual

/-- The search stops in the directory at the end, which is declared for the ids on the way. -/
theorem stops_of_getLast?_installWay : ∀ (dir : Dir) {last : Dir},
    (installWay dir).getLast? = some last →
      ((installWay dir).map finalId, last) ∈ located [dir] ∧ ¬ last.isPassed = true
  | ⟨body, dirs⟩, last, atEnd => by
    rw [located_singleton]
    by_cases passed : isPassed ⟨body, dirs⟩ = true
    · rw [getLast?_installWay_of_passed passed] at atEnd
      obtain ⟨among, stops⟩ := stops_of_getLast?_installWayIn atEnd
      rw [installWay, if_pos passed]
      exact ⟨List.mem_cons_of_mem _ (List.mem_map.mpr ⟨_, among, rfl⟩), stops⟩
    · rw [getLast?_installWay_of_stops passed, Option.some.injEq] at atEnd
      subst atEnd
      rw [installWay, if_neg passed]
      exact ⟨List.mem_cons_self .., passed⟩

theorem stops_of_getLast?_installWayIn : ∀ {dirs : List Dir} {last : Dir},
    (installWayIn dirs).getLast? = some last →
      (installPath dirs, last) ∈ located dirs ∧ ¬ last.isPassed = true
  | dir :: rest, last, atEnd => by
    obtain ⟨among, stops⟩ := stops_of_getLast?_installWay dir atEnd
    rw [← List.singleton_append (l := rest), located_append]
    exact ⟨List.mem_append_left _ among, stops⟩

end

/-! ## The id at its end -/

theorem endsIn_installWay_of_passed {dir : Dir} {id : String} (passed : dir.isPassed = true) :
    EndsIn (installWay dir) id ↔ EndsIn (installWayIn dir.dirs) id := by
  rw [EndsIn, EndsIn, getLast?_installWay_of_passed passed]

theorem endsIn_installWay_of_stops {dir : Dir} {id : String} (stops : ¬ dir.isPassed = true) :
    EndsIn (installWay dir) id ↔ dir.id = some id := by
  rw [EndsIn, getLast?_installWay_of_stops stops]
  simp

theorem length_assignFirst? {id : String} {dirs : List Dir} {assigned : List Dir × String}
    (given : assignFirst? id dirs = some assigned) : assigned.1.length = dirs.length := by
  cases dirs with
  | nil => cases given
  | cons dir rest =>
    rw [assignFirst?, Option.map_eq_some_iff] at given
    obtain ⟨first, -, rfl⟩ := given
    rfl

mutual

theorem endsIn_assignInstallId? {id : String} :
    ∀ {dir : Dir} {assigned : Dir × String}, assignInstallId? id dir = some assigned →
      EndsIn (installWay assigned.1) id
  | ⟨body, dirs⟩, assigned, given => by
    rw [assignInstallId?] at given
    split at given
    next passed =>
      obtain ⟨⟨below, path⟩, first, rfl⟩ := Option.map_eq_some_iff.mp given
      have length : below.length = dirs.length := length_assignFirst? first
      have passed' : isPassed ⟨body, below⟩ = true := by
        rw [← passed]
        simp [isPassed, length]
      exact (endsIn_installWay_of_passed passed').mpr (endsIn_assignFirst? first)
    next stops =>
      obtain ⟨dir, withId, rfl⟩ := Option.map_eq_some_iff.mp given
      rw [withInstallId?] at withId
      split at withId
      next => cases withId
      next =>
        cases withId
        have stops' : ¬ isPassed ⟨{ body with id := some id }, dirs⟩ = true := stops
        exact (endsIn_installWay_of_stops stops').mpr rfl

theorem endsIn_assignFirst? {id : String} :
    ∀ {dirs : List Dir} {assigned : List Dir × String}, assignFirst? id dirs = some assigned →
      EndsIn (installWayIn assigned.1) id
  | dir :: rest, assigned, given => by
    rw [assignFirst?] at given
    obtain ⟨⟨first, path⟩, assignedFirst, rfl⟩ := Option.map_eq_some_iff.mp given
    have ends : EndsIn (installWay first) id := endsIn_assignInstallId? assignedFirst
    exact ends

end

theorem endsIn_shape {installId : String} {dirs : List Dir}
    (assigned : (shape installId dirs).2.isSome = true) :
    EndsIn (installWayIn (shape installId dirs).1) installId := by
  rw [shape] at assigned ⊢
  split
  next found path given =>
    split at given
    next => cases given
    next => exact endsIn_assignFirst? given
  next none =>
    rw [none] at assigned
    cases assigned

/-! ## Final ids keep the way -/

theorem length_withoutIdsAll (dirs : List Dir) : (withoutIdsAll dirs).length = dirs.length := by
  induction dirs with
  | nil => rfl
  | cons dir rest ih => rw [withoutIdsAll, List.length_cons, List.length_cons, ih]

theorem isPassed_withoutIds (dir : Dir) : dir.withoutIds.isPassed = dir.isPassed := by
  obtain ⟨body, dirs⟩ := dir
  rw [withoutIds]
  simp [isPassed, DirBody.withoutIds, length_withoutIdsAll]

mutual

theorem endsIn_resolve {id : String} (parentId : String) :
    ∀ {dir : Dir} (pool : IdPool), EndsIn (installWay dir) id →
      EndsIn (installWay ((dir.resolve parentId).run pool).1) id
  | ⟨body, dirs⟩, pool, ends => by
    have same := congrArg isPassed (withoutIds_resolve parentId ⟨body, dirs⟩ pool)
    rw [isPassed_withoutIds, isPassed_withoutIds] at same
    rw [resolve] at same ⊢
    by_cases passed : isPassed ⟨body, dirs⟩ = true
    · rw [endsIn_installWay_of_passed passed] at ends
      rw [endsIn_installWay_of_passed (same.trans passed)]
      exact endsIn_resolveAll _ _ ends
    · rw [endsIn_installWay_of_stops passed] at ends
      rw [endsIn_installWay_of_stops fun through => passed (same.symm.trans through)]
      have kept : ((body.resolveId parentId).run pool).1 = id := by
        rw [DirBody.resolveId, show body.id = some id from ends]
        rfl
      exact congrArg some kept

theorem endsIn_resolveAll {id : String} (parentId : String) :
    ∀ {dirs : List Dir} (pool : IdPool), EndsIn (installWayIn dirs) id →
      EndsIn (installWayIn ((resolveAll parentId dirs).run pool).1) id
  | [], pool, ends => ends
  | dir :: rest, pool, ends => by
    rw [resolveAll]
    exact endsIn_resolve parentId pool ends

end

/-! ## The way in the tree -/

variable {c : Compilation}

mutual

/-- The line of first subdirectories goes on while a directory is placed. -/
theorem goesOn_place : ∀ {dir : Dir} {parent : Element} {path : List String},
    parent.OnFirstLine path → (dir.place c parent).OnFirstLine path
  | ⟨body, dirs⟩, parent, path, line => by
    have goesOn : ∀ path, (placeIn ⟨body, dirs⟩ parent).node.OnFirstLine path →
        (placeAll c dirs (filled c ⟨body, dirs⟩ parent)).OnFirstLine path :=
      fun path inside => goesOn_placeAll (inside.addAll _)
    rw [place]
    rcases focusChildOr_cases parent (hasNameAndId "Directory" (finalId ⟨body, dirs⟩))
      (element ⟨body, dirs⟩) with ⟨isPlace, -⟩ | missing
    · exact isPlace.onFirstLine_put (e := placeAll c dirs (filled c ⟨body, dirs⟩ parent))
        (tag_placeAll dirs _) goesOn line
    · rw [placeIn, missing]
      exact line.addAll [_]

theorem goesOn_placeAll : ∀ {dirs : List Dir} {parent : Element} {path : List String},
    parent.OnFirstLine path → (placeAll c dirs parent).OnFirstLine path
  | [], parent, path, line => by
    rw [placeAll]
    exact line
  | dir :: rest, parent, path, line => by
    rw [placeAll]
    exact goesOn_placeAll (goesOn_place line)

end

theorem goesOn_placeLocation {root : Element} {path : List String} (line : root.OnFirstLine path)
    (location : String) (feature : Option String) :
    (placeLocation c root location feature).OnFirstLine path := by
  simp only [placeLocation]
  split
  next => exact line
  next =>
    split
    next => exact goesOn_place line
    next =>
      split
      next focus found =>
        obtain ⟨place, -⟩ := isPlace_of_focus? found
        exact place.onFirstLine_put (tag_place _ _) (fun _ inside => goesOn_place inside) line
      next => exact goesOn_place line

theorem goesOn_placeLocations {locations : List (String × Option String)} {root : Element}
    {path : List String} (line : root.OnFirstLine path) :
    (placeLocations c root locations).OnFirstLine path := by
  induction locations generalizing root with
  | nil => exact line
  | cons entry rest ih => exact ih (goesOn_placeLocation line _ _)

mutual

/-- Directories that are placed where there are none begin the line. -/
theorem onFirstLine_place : ∀ {dir : Dir} {parent : Element},
    (∀ x ∈ parent.elements, x.name ≠ "Directory") →
      (dir.place c parent).OnFirstLine ((installWay dir).map finalId)
  | ⟨body, dirs⟩, parent, bare => by
    obtain ⟨front, back, put, others, node⟩ := elements_focusChildOr parent
      (hasNameAndId "Directory" (finalId ⟨body, dirs⟩)) (element ⟨body, dirs⟩)
    have made : (placeIn ⟨body, dirs⟩ parent).node = element ⟨body, dirs⟩ := by
      refine node.resolve_left fun ⟨old, here⟩ => ?_
      exact bare _ old (hasNameAndId_eq_true.mp here).1
    have start : ∀ x ∈ (filled c ⟨body, dirs⟩ parent).elements, x.name ≠ "Directory" := by
      rw [filled, made, elements_addAll, List.forall_mem_append]
      exact ⟨by simp [element], fun x mem =>
        ((madeFor_contents (c := c) ⟨body, dirs⟩ _).only x mem "Directory" (by decide)).here⟩
    obtain ⟨directory, identified⟩ := hasNameAndId_eq_true.mp
      ((hasNameAndId_eq_of_tag (tag_placeAll (c := c) dirs (filled c ⟨body, dirs⟩ parent))
        "Directory" (finalId ⟨body, dirs⟩)).trans (hasNameAndId_placeIn ⟨body, dirs⟩ parent))
    have before : front.find? (fun x => x.name == "Directory") = none :=
      List.find?_eq_none.mpr fun x mem => by
        simpa using bare x (others x (List.mem_append_left _ mem))
    rw [place, placeIn, installWay]
    refine ⟨_, ?_, identified, ?_⟩
    · rw [child?, (put _).2, List.find?_append, before, Option.none_or,
        List.find?_cons_of_pos (by simpa using directory)]
    · split
      next => exact onFirstLine_placeAll start
      next => trivial

theorem onFirstLine_placeAll : ∀ {dirs : List Dir} {parent : Element},
    (∀ x ∈ parent.elements, x.name ≠ "Directory") →
      (placeAll c dirs parent).OnFirstLine ((installWayIn dirs).map finalId)
  | [], _, _ => trivial
  | dir :: rest, parent, bare => by
    rw [placeAll]
    exact goesOn_placeAll (onFirstLine_place bare)

end

/-! ## What bars the way -/

/-- The search for the installation directory in the tree, which looks for components, may end
elsewhere than the one in the declared directories. -/
inductive WayIsBarred (dirs : List Dir) : Prop
  /-- A directory before the end of the way has a component. -/
  | outer (path : List String) (before : path <+: installPath dirs)
      (proper : path ≠ installPath dirs)
      (taken : FillsAt dirs path ∨ ∃ location ∈ elsewhere dirs, IsChainEnd dirs location path)
  /-- The directory at the end of the way is there for its subdirectories only. -/
  | branches (last : Dir) (atEnd : (installWayIn dirs).getLast? = some last)
      (bare : last.isBare = true) (several : 2 ≤ last.dirs.length)

theorem fillsAt_installPath {dirs : List Dir} {id : String} (ends : EndsIn (installWayIn dirs) id)
    (free : ¬ WayIsBarred dirs) : FillsAt dirs (installPath dirs) := by
  obtain ⟨last, atEnd, -⟩ := ends
  obtain ⟨among, stops⟩ := stops_of_getLast?_installWayIn atEnd
  refine ⟨last, mem_atPath.mpr among, ?_⟩
  by_contra unfilled
  simp only [Fills, not_or, Bool.not_eq_false] at unfilled
  obtain ⟨bare, inner⟩ := unfilled
  -- the search stops where nothing is held only if there are several subdirectories
  have several : last.dirs.length ≠ 1 := fun single => stops <| by
    simp only [DirBody.isBare, Bool.and_eq_true] at bare
    simp [isPassed, bare, single]
  have some_ : last.dirs.length ≠ 0 := by simpa using inner
  exact free (.branches last atEnd bare (by omega))

end Dir

namespace Compilation

variable (c : Compilation)

/-- In the tree the way to the installation directory goes through first subdirectories. -/
theorem onFirstLine_tree : c.tree.OnFirstLine (Dir.installPath c.project.dirs) :=
  Dir.goesOn_placeLocations (Dir.onFirstLine_placeAll (by simp [emptyRoot]))

/-- If nothing bars the way, it ends at the first directory in the tree that has a component. -/
theorem firstOwner_tree {id : String} (ends : Dir.EndsIn (Dir.installWayIn c.project.dirs) id)
    (free : ¬ Dir.WayIsBarred c.project.dirs) :
    c.tree.FirstOwner (Dir.installPath c.project.dirs) where
  owns := ownsAt_tree_of_fillsAt (Dir.fillsAt_installPath ends free)
  outer := fun path before proper owns =>
    free (.outer path before proper (fillsAt_or_isChainEnd owns))

end Compilation

theorem Project.endsIn_installWay {project : Project} {options : Options}
    (assigned : (project.prepare options).installDir.isSome = true) :
    Dir.EndsIn (Dir.installWayIn (project.prepare options).project.dirs)
      options.installDirDefaultId :=
  Dir.endsIn_resolveAll Dir.rootId _ (Dir.endsIn_shape assigned)

end Installer
