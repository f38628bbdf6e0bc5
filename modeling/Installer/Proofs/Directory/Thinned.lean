import Installer.Proofs.Directory.Appended
import Installer.Proofs.Directory.Undeclared
import Installer.Proofs.Ident.Agree
import Installer.Proofs.Markup.Thinning

/-! # Projects without their merge modules

A project without its merge modules is prepared and emitted as it is with them, up to the elements
of the modules themselves.
-/

/-! ## Directories without their merge modules

Merge modules have ids of a kind of their own, and nothing else is made of them when directories are
prepared.  So the preparation goes on in the same way when they are left out.
-/

namespace Installer

open IdPool

def DirBody.withoutModules (body : DirBody) : DirBody :=
  { body with mergeModules := [] }

def Dir.withoutModules (dirs : List Dir) : List Dir :=
  mapBodies DirBody.withoutModules dirs

def Project.withoutModules (project : Project) : Project :=
  project.withDirs (Dir.withoutModules project.dirs)

namespace Dir

/-! ## The shape -/

theorem withoutModules_widenAll (dirs : List Dir) :
    widenAll (withoutModules dirs) = withoutModules (widenAll dirs) := by
  rw [widenAll_eq_mapBodies, widenAll_eq_mapBodies]
  exact mapBodies_comm (f := DirBody.widen) (g := DirBody.withoutModules) (fun _ => rfl) dirs

theorem withoutModules_chained (dir : Dir) :
    (mapBody DirBody.withoutModules dir).chained = mapBody DirBody.withoutModules dir.chained := by
  obtain ⟨body, dirs⟩ := dir
  have enclosed : ∀ (names : List String) (dir : Dir),
      mapBody DirBody.withoutModules (names.foldr enclose dir) =
        names.foldr enclose (mapBody DirBody.withoutModules dir) := by
    intro names dir
    induction names with
    | nil => rfl
    | cons name rest ih =>
      rw [List.foldr_cons, List.foldr_cons, ← ih]
      rfl
  simp only [chained, mapBody]
  have name : body.withoutModules.name = body.name := rfl
  rw [name]
  split
  next => rfl
  next outer _ =>
    rw [enclosed]
    rfl

mutual

theorem withoutModules_split : ∀ dir : Dir,
    (mapBody DirBody.withoutModules dir).split = mapBody DirBody.withoutModules dir.split
  | ⟨body, dirs⟩ => by
    have below := withoutModules_splitAll dirs
    rw [withoutModules] at below
    rw [mapBody, split, below, split, ← withoutModules_chained]
    rfl

theorem withoutModules_splitAll : ∀ dirs : List Dir,
    splitAll (withoutModules dirs) = withoutModules (splitAll dirs)
  | [] => rfl
  | dir :: rest => by
    have others := withoutModules_splitAll rest
    rw [withoutModules] at others
    rw [withoutModules, mapBodies, splitAll, splitAll, withoutModules_split, others]
    rfl

end

mutual

theorem withoutModules_assignInstallId? (id : String) : ∀ dir : Dir,
    assignInstallId? id (mapBody DirBody.withoutModules dir) =
      (assignInstallId? id dir).map (Prod.map (mapBody DirBody.withoutModules) (·))
  | ⟨body, dirs⟩ => by
    have below := withoutModules_assignFirst? id dirs
    rw [withoutModules] at below
    rw [mapBody, assignInstallId?, assignInstallId?, length_mapBodies, below]
    have holds : (body.withoutModules.shortcuts.isEmpty && body.withoutModules.files.isEmpty) =
        (body.shortcuts.isEmpty && body.files.isEmpty) := rfl
    rw [holds]
    split
    next =>
      rw [Option.map_map, Option.map_map]
      rfl
    next =>
      have taken : (body.withoutModules.id.isSome || Folder.isSpecial body.withoutModules.name) =
        (body.id.isSome || Folder.isSpecial body.name) := rfl
      simp only [withInstallId?, taken]
      split
      next => rfl
      next => rfl

theorem withoutModules_assignFirst? (id : String) : ∀ dirs : List Dir,
    assignFirst? id (withoutModules dirs) =
      (assignFirst? id dirs).map (Prod.map withoutModules (·))
  | [] => rfl
  | dir :: rest => by
    rw [withoutModules, mapBodies, assignFirst?, assignFirst?, withoutModules_assignInstallId?,
      Option.map_map, Option.map_map]
    rfl

end

theorem withoutModules_shape (installId : String) (dirs : List Dir) :
    (shape installId (withoutModules dirs)).1 = withoutModules (shape installId dirs).1 := by
  have found : (if installId.isEmpty then none else
      assignFirst? installId (splitAll (withoutModules dirs))) =
      (if installId.isEmpty then none else assignFirst? installId (splitAll dirs)).map
        (Prod.map withoutModules (·)) := by
    rw [withoutModules_splitAll, withoutModules_assignFirst?]
    split <;> rfl
  simp only [shape, found]
  cases (if installId.isEmpty then none else assignFirst? installId (splitAll dirs)) with
  | none => exact withoutModules_splitAll dirs
  | some assigned => rfl

/-! ## Reserved ids -/

theorem find?_withoutModules (dirs : List Dir) (path : String) :
    find? (withoutModules dirs) path = (find? dirs path).map (mapBody DirBody.withoutModules) :=
  find?_mapBodies (f := DirBody.withoutModules) (fun _ => rfl) (fun _ => rfl) dirs path

theorem reservedIds_withoutModules (dirs : List Dir) :
    reservedIds (withoutModules dirs) = reservedIds dirs := by
  have declared : declaredIdsIn (withoutModules dirs) = declaredIdsIn dirs := by
    rw [declaredIdsIn_eq, declaredIdsIn_eq]
    exact readAll_mapBodies (f := DirBody.withoutModules) (fun _ => rfl) dirs
  have locations : locationsIn (withoutModules dirs) = locationsIn dirs := by
    rw [locationsIn_eq_readAll, locationsIn_eq_readAll]
    exact readAll_mapBodies (f := DirBody.withoutModules) (fun _ => rfl) dirs
  have ids : locationIds (withoutModules dirs) = locationIds dirs := by
    funext location
    simp only [locationIds, find?_withoutModules, Option.isNone_map]
  rw [reservedIds, reservedIds, declared, locations, ids]

end Dir

/-! ## Final ids -/

theorem Shortcut.ignores_resolve (shortcut : Shortcut) :
    Ignores .mergeModule shortcut.resolve := by
  rw [resolve]
  cases shortcut.id with
  | some id => exact .pure rfl
  | none => exact (Mirrors.claim (by decide) _).bind fun _ => .pure rfl

theorem Permission.ignores_resolve (permission : Permission) :
    Ignores .mergeModule permission.resolve := by
  rw [resolve]
  cases permission.id with
  | some id => exact .pure rfl
  | none => exact (Mirrors.number (by decide) _).bind fun _ => .pure rfl

theorem MergeModule.agree_resolve (module : MergeModule) (pool : IdPool) :
    Agree .mergeModule pool (module.resolve.run pool).2 := by
  rw [resolve]
  cases module.id with
  | some id => exact .refl pool
  | none => exact Agree.claim_self pool _

theorem File.ignores_resolve (file : File) : Ignores .mergeModule file.resolve := by
  have rest : ∀ id : String, Ignores .mergeModule (do
        let shortcuts ← file.shortcuts.mapM Shortcut.resolve
        let permissions ← file.permissions.mapM Permission.resolve
        return { file with id := some id, shortcuts, permissions }) := fun id =>
    (Mirrors.mapM Shortcut.ignores_resolve _).bind fun _ =>
      (Mirrors.mapM Permission.ignores_resolve _).bind fun _ => .pure rfl
  rw [resolve]
  cases file.id with
  | some id => exact rest id
  | none => exact (Mirrors.claim (by decide) _).bind rest

theorem DirBody.ignores_resolveId (parentId : String) (body : DirBody) :
    Ignores .mergeModule (body.resolveId parentId) := by
  rw [resolveId]
  split
  next => exact .pure rfl
  next => exact .pure rfl
  next => exact Mirrors.claim (by decide) _

theorem DirBody.mirrors_resolve (id : String) (body : DirBody) :
    Mirrors .mergeModule DirBody.withoutModules (body.resolve id)
      (body.withoutModules.resolve id) :=
  (Mirrors.mapM File.ignores_resolve _).bind fun _ =>
    (Mirrors.mapM Shortcut.ignores_resolve _).bind fun _ =>
      (Mirrors.mapM Permission.ignores_resolve _).bind fun _ =>
        (Mirrors.skip MergeModule.agree_resolve _ fun _ => rfl).bind fun _ =>
          .pure rfl

namespace Dir

mutual

theorem mirrors_resolve (parentId : String) : ∀ dir : Dir,
    Mirrors .mergeModule (mapBody DirBody.withoutModules) (dir.resolve parentId)
      ((mapBody DirBody.withoutModules dir).resolve parentId)
  | ⟨body, dirs⟩ => by
    rw [mapBody, resolve, resolve]
    -- the id of a directory does not depend on its merge modules
    exact (body.ignores_resolveId parentId).bind fun id => (body.mirrors_resolve id).bind fun _ =>
      (mirrors_resolveAll id dirs).bind fun _ => .pure rfl

/-- Without merge modules everything else gets the ids that it gets with them. -/
theorem mirrors_resolveAll (parentId : String) : ∀ dirs : List Dir,
    Mirrors .mergeModule withoutModules (resolveAll parentId dirs)
      (resolveAll parentId (withoutModules dirs))
  | [] => by
    rw [resolveAll]
    exact .pure rfl
  | dir :: rest => by
    rw [withoutModules, mapBodies, resolveAll, resolveAll]
    exact (mirrors_resolve parentId dir).bind fun _ =>
      (mirrors_resolveAll parentId rest).bind fun _ => .pure rfl

end

theorem withoutModules_withIds (dirs : List Dir) :
    ((withIds (withoutModules dirs)).run {}).1 = withoutModules ((withIds dirs).run {}).1 := by
  rw [withIds, withIds, reservedIds_withoutModules]
  exact (mirrors_resolveAll rootId dirs _ _ (.refl _)).1

end Dir

/-! ## Prepared projects -/

/-- A project is prepared in the same way without its merge modules. -/
theorem Project.prepare_withoutModules (project : Project) (options : Options) :
    (project.withoutModules.prepare options).project =
      (project.prepare options).project.withoutModules := by
  have some_ : project.withoutModules.withSomeDir = project.withSomeDir.withoutModules := by
    have empty : (Dir.withoutModules project.dirs).isEmpty = project.dirs.isEmpty := by
      cases project.dirs <;> rfl
    simp only [withSomeDir, withoutModules, withDirs, empty]
    split <;> rfl
  have wide : ∀ project : Project,
      project.withoutModules.widened options = (project.widened options).withoutModules := by
    intro project
    simp only [widened, withoutModules, withDirs, Dir.withoutModules_widenAll]
    split <;> rfl
  have prepared : ∀ project : Project, (project.prepare options).project =
      (project.withSomeDir.widened options).withDirs
        ((Dir.withIds (Dir.shape options.installDirDefaultId
          (project.withSomeDir.widened options).dirs).1).run {}).1 := fun _ => rfl
  rw [prepared, prepared, some_, wide]
  have dirs : ∀ project : Project, project.withoutModules.dirs = Dir.withoutModules project.dirs :=
    fun _ => rfl
  rw [dirs, Dir.withoutModules_shape, Dir.withoutModules_withIds]
  rfl

/-! ## The tree of directories without merge modules

Merge modules put leaves into the tree that nobody looks for while directories are placed.  So the
same directories are placed, and the same components are booked, when they are left out.
-/

open Markup (Element Focus)
open Markup.Element

def Compilation.withoutModules (c : Compilation) : Compilation :=
  c.withDirs (Dir.withoutModules c.project.dirs)

variable {c : Compilation} {e e' : Element}

/-! ## What a directory holds -/

namespace Dir

theorem finalId_withoutModules (dir : Dir) :
    (mapBody DirBody.withoutModules dir).finalId = dir.finalId := by
  cases dir
  rfl

theorem isEmpty_withoutModules (dir : Dir) :
    (mapBody DirBody.withoutModules dir).isEmpty = dir.isEmpty := by
  obtain ⟨body, dirs⟩ := dir
  have below : (mapBodies DirBody.withoutModules dirs).isEmpty = dirs.isEmpty := by
    cases dirs <;> rfl
  rw [mapBody, isEmpty, below]
  rfl

end Dir

theorem Shortcut.directoryId_withoutModules (dirs : List Dir) (ownDirId : String)
    (shortcut : Shortcut) :
    shortcut.directoryId (Dir.withoutModules dirs) ownDirId =
      shortcut.directoryId dirs ownDirId := by
  rw [directoryId, directoryId, Dir.find?_withoutModules]
  cases Dir.find? dirs shortcut.location with
  | none => rfl
  | some dir =>
    rw [Option.map_some]
    dsimp only
    rw [Dir.finalId_withoutModules]

theorem Shortcut.isElsewhere_withoutModules (dirs : List Dir) (shortcut : Shortcut) :
    shortcut.isElsewhere (Dir.withoutModules dirs) = shortcut.isElsewhere dirs := by
  rw [isElsewhere, isElsewhere, Dir.find?_withoutModules, Option.isNone_map]

theorem File.component_withoutModules (dirId : String) :
    File.component c.withoutModules dirId = File.component c dirId := by
  funext file
  have shortcuts : Shortcut.elementFor (Dir.withoutModules c.project.dirs) =
      Shortcut.elementFor c.project.dirs := by
    funext dirId fileId file shortcut
    rw [Shortcut.elementFor, Shortcut.elementFor, Shortcut.directoryId_withoutModules]
  have element : file.element c.withoutModules dirId = file.element c dirId := by
    rw [File.element, File.element, ← shortcuts]
    rfl
  rw [component, component, element]
  rfl

namespace Dir

theorem leaf_mergeModule (module : MergeModule) :
    (module.element c).name = "Merge" ∧ (module.element c).children = [] := by
  simp [MergeModule.element]

/-- Without its merge modules a directory holds all but their elements. -/
theorem thinsIn_contents (dir : Dir) (thins : Thins "Merge" e e') :
    ThinsIn "Merge" ((dir.contents c e).map .element)
      (((mapBody DirBody.withoutModules dir).contents c.withoutModules e').map .element) := by
  have leaves : ThinsIn "Merge"
      ((dir.mergeModules.map (MergeModule.element c)).map .element) [] :=
    .of_leaves (List.forall_mem_map.mpr fun module _ => leaf_mergeModule module)
  have owner : (e'.child? "Component").isSome = (e.child? "Component").isSome :=
    thins.isSome_child? (by decide)
  rw [contents, contents, isEmpty_withoutModules, owner]
  obtain ⟨body, dirs⟩ := dir
  cases isEmpty ⟨body, dirs⟩ with
  | true =>
    simp only [if_true, DirBody.emptyContents, List.map_append]
    exact (ThinsIn.refl _).append leaves
  | false =>
    simp only [Bool.false_eq_true, if_false, DirBody.contents, List.map_append,
      File.component_withoutModules]
    exact ((ThinsIn.refl _).append leaves).append (.refl _)

theorem ownBookings_withoutModules (dir : Dir) (thins : Thins "Merge" e e') :
    (mapBody DirBody.withoutModules dir).ownBookings e' = dir.ownBookings e := by
  have owner : (e'.child? "Component").isSome = (e.child? "Component").isSome :=
    thins.isSome_child? (by decide)
  rw [ownBookings, ownBookings, isEmpty_withoutModules, owner]
  cases dir
  rfl

/-! ## Placing -/

theorem thins_placeIn (dir : Dir) (thins : Thins "Merge" e e') :
    Focus.Thins "Merge" (Thins "Merge") (dir.placeIn e)
      ((mapBody DirBody.withoutModules dir).placeIn e') := by
  cases dir
  exact thins.focusChildOr (by decide) _ _

theorem thins_filled (dir : Dir) (thins : Thins "Merge" e e') :
    Thins "Merge" (dir.filled c e)
      ((mapBody DirBody.withoutModules dir).filled c.withoutModules e') :=
  (dir.thins_placeIn thins).node.addNodes (dir.thinsIn_contents (dir.thins_placeIn thins).node)

mutual

theorem thins_place : ∀ (dir : Dir) {e e' : Element}, Thins "Merge" e e' →
    Thins "Merge" (dir.place c e)
        ((mapBody DirBody.withoutModules dir).place c.withoutModules e') ∧
      (mapBody DirBody.withoutModules dir).bookings c.withoutModules e' = dir.bookings c e
  | ⟨body, dirs⟩, e, e', thins => by
    have place := thins_placeIn ⟨body, dirs⟩ thins
    obtain ⟨below, booked⟩ := thins_placeAll dirs (thins_filled (c := c) ⟨body, dirs⟩ thins)
    have own := ownBookings_withoutModules ⟨body, dirs⟩ place.node
    exact ⟨place.put below, congrArg₂ (· ++ ·) own booked⟩

/-- Without merge modules the same directories are placed and the same components booked. -/
theorem thins_placeAll : ∀ (dirs : List Dir) {e e' : Element}, Thins "Merge" e e' →
    Thins "Merge" (placeAll c dirs e)
        (placeAll c.withoutModules (withoutModules dirs) e') ∧
      bookingsAll c.withoutModules (withoutModules dirs) e' = bookingsAll c dirs e
  | [], _, _, thins => ⟨thins, rfl⟩
  | dir :: rest, _, _, thins => by
    obtain ⟨placed, booked⟩ := thins_place dir thins
    obtain ⟨later, booked'⟩ := thins_placeAll rest placed
    exact ⟨later, congrArg₂ (· ++ ·) booked booked'⟩

end

/-! ## Shortcut locations -/

theorem withoutModules_chain (names : List String) (start : Nat) (feature : Option String) :
    mapBody DirBody.withoutModules (chain names start feature) = chain names start feature := by
  rw [chain]
  induction List.range' (start + 1) (names.length - 1 - start) with
  | nil => rfl
  | cons n rest ih =>
    rw [List.foldr_cons, ofNames, mapBody, mapBodies, ih]
    rfl

theorem anchor?_withoutModules (dirs : List Dir) (location : String) :
    anchor? (withoutModules dirs) location =
      (anchor? dirs location).map (Prod.map (mapBody DirBody.withoutModules) (·)) := by
  rw [anchor?, anchor?]
  induction (LogicalPath.initials location).drop 1 with
  | nil => rfl
  | cons path rest ih =>
    rw [List.findSome?_cons, List.findSome?_cons, ih, find?_withoutModules]
    cases find? dirs path <;> rfl

theorem thins_placeLocation (thins : Thins "Merge" e e') (location : String)
    (feature : Option String) :
    Thins "Merge" (placeLocation c e location feature)
        (placeLocation c.withoutModules e' location feature) ∧
      locationBookings c.withoutModules e' location feature =
        locationBookings c e location feature := by
  -- a chain has no merge modules of its own
  have chained : ∀ {focus focus' : Element} (n : Nat), Thins "Merge" focus focus' →
      Thins "Merge" ((chain (LogicalPath.components location) n feature).place c focus)
          ((chain (LogicalPath.components location) n feature).place c.withoutModules focus') ∧
        (chain (LogicalPath.components location) n feature).bookings c.withoutModules focus' =
          (chain (LogicalPath.components location) n feature).bookings c focus := by
    intro focus focus' n thins
    have placed := thins_place (c := c) (chain (LogicalPath.components location) n feature) thins
    rwa [withoutModules_chain] at placed
  have anchored : anchor? c.withoutModules.project.dirs location = _ :=
    anchor?_withoutModules c.project.dirs location
  simp only [placeLocation, locationBookings, anchored]
  split
  next => exact ⟨thins, rfl⟩
  next =>
    cases anchor? c.project.dirs location with
    | none => exact chained 0 thins
    | some found =>
      obtain ⟨dir, n⟩ := found
      simp only [Option.map_some, Prod.map, finalId_withoutModules]
      have focused : Focus.Finds "Merge" (Thins "Merge")
          (e.focusById? "Directory" dir.finalId) (e'.focusById? "Directory" dir.finalId) :=
        thins.focus? (by decide) _
      generalize e.focusById? "Directory" dir.finalId = focus at focused
      generalize e'.focusById? "Directory" dir.finalId = focus' at focused
      cases focused with
      | none => exact chained n thins
      | some same =>
        obtain ⟨placed, booked⟩ := chained n same.node
        exact ⟨same.put placed, booked⟩

theorem locationsBookings_withoutModules (locations : List (String × Option String))
    (thins : Thins "Merge" e e') :
    locationsBookings c.withoutModules e' locations = locationsBookings c e locations := by
  induction locations generalizing e e' with
  | nil => rfl
  | cons entry rest ih =>
    obtain ⟨placed, booked⟩ := thins_placeLocation (c := c) thins entry.1 entry.2
    rw [locationsBookings, locationsBookings, booked, ih placed]

end Dir

/-! ## The whole tree -/

namespace Compilation

theorem undeclaredLocations_withoutModules (c : Compilation) :
    c.withoutModules.undeclaredLocations = c.undeclaredLocations := by
  have files : Dir.allFiles (Dir.withoutModules c.project.dirs) = Dir.allFiles c.project.dirs :=
    Dir.readAll_mapBodies (f := DirBody.withoutModules) (fun _ => rfl) c.project.dirs
  have noted : File.noted (Dir.withoutModules c.project.dirs) = File.noted c.project.dirs := by
    have shortcuts :
        Shortcut.noted (Dir.withoutModules c.project.dirs) = Shortcut.noted c.project.dirs := by
      funext shortcut
      rw [Shortcut.noted, Shortcut.noted, Shortcut.isElsewhere_withoutModules]
    funext file
    rw [File.noted, File.noted, shortcuts]
  rw [undeclaredLocations, undeclaredLocations, Dir.notedIn_eq, Dir.notedIn_eq]
  exact congrArg (fun lines => lines.foldl Ledger.withLocation [])
    (congrArg₂ (fun files noted => List.flatMap noted files) files noted)

/-- The components of a compilation do not depend on its merge modules. -/
theorem treeBookings_withoutModules (c : Compilation) :
    c.withoutModules.treeBookings = c.treeBookings := by
  obtain ⟨thins, booked⟩ := Dir.thins_placeAll (c := c) c.project.dirs (.refl emptyRoot)
  have located := Dir.locationsBookings_withoutModules (c := c) c.undeclaredLocations thins
  rw [treeBookings, treeBookings, undeclaredLocations_withoutModules]
  exact congrArg₂ (· ++ ·) booked located

end Compilation

end Installer
