import Installer.Proofs.Component.Booking
import Installer.Source.Directory

/-! # Placing directories

What the emission of directories does, told without the ledger: `Dir.place` puts a directory and all
below it into an element, and `Dir.bookings` lists the components that this makes.  The main
statements say that a successful emission gives exactly what is placed and writes exactly these
bookings.
-/

namespace Installer

open Markup (Element)

/-! ## What one directory holds -/

def Permission.finalId (permission : Permission) : String :=
  permission.id.getD (Folder.identifier permission.user)

def Permission.component (c : Compilation) (permission : Permission) : Element :=
  (c.component permission.componentId).add
    (({ name := "CreateFolder" : Element }).add permission.element)

def Shortcut.noted (dirs : List Dir) (shortcut : Shortcut) : List (String × Option String) :=
  if shortcut.isElsewhere dirs then [(shortcut.location, shortcut.feature)] else []

def File.noted (dirs : List Dir) (file : File) : List (String × Option String) :=
  file.shortcuts.flatMap (Shortcut.noted dirs)

namespace DirBody

def contents (c : Compilation) (id : String) (body : DirBody) : List Element :=
  (if body.feature.isSome then [folderComponent c ("Component." ++ id)] else []) ++
    body.files.map (File.component c id) ++ body.shortcuts.map (Shortcut.component c id) ++
      body.mergeModules.map (MergeModule.element c) ++
        body.permissions.map (Permission.component c)

def bookings (id : String) (body : DirBody) : List Booking :=
  (if body.feature.isSome then [⟨.folder id, body.feature⟩] else []) ++
    body.files.map (fun file => ⟨.file file.finalId, file.feature⟩) ++
      body.shortcuts.map (fun shortcut => ⟨.shortcut shortcut.finalId, shortcut.feature⟩) ++
        body.permissions.map fun permission =>
          ⟨.permission permission.finalId, permission.feature⟩

def emptyContents (c : Compilation) (id : String) (hasComponent : Bool) (body : DirBody) :
    List Element :=
  (if hasComponent then [] else [folderComponent c (id ++ ".EmptyDirectory")]) ++
    body.mergeModules.map (MergeModule.element c)

def emptyBookings (id : String) (hasComponent : Bool) (body : DirBody) : List Booking :=
  if hasComponent then [] else [⟨.emptyFolder id, body.feature⟩]

def noted (dirs : List Dir) (body : DirBody) : List (String × Option String) :=
  body.files.flatMap (File.noted dirs)

end DirBody

/-! ## Directories in their tree -/

namespace Dir

def contents (c : Compilation) (dir : Dir) (e : Element) : List Element :=
  if dir.isEmpty then dir.emptyContents c dir.finalId (e.child? "Component").isSome
  else dir.toDirBody.contents c dir.finalId

def ownBookings (dir : Dir) (e : Element) : List Booking :=
  if dir.isEmpty then dir.emptyBookings dir.finalId (e.child? "Component").isSome
  else dir.toDirBody.bookings dir.finalId

/-- The place of the directory's element in the element of its parent. -/
def placeIn (dir : Dir) (parent : Element) : Markup.Focus Element :=
  parent.focusChildOr (Element.hasNameAndId "Directory" dir.finalId) dir.element

def filled (c : Compilation) (dir : Dir) (parent : Element) : Element :=
  (dir.placeIn parent).node.addAll (dir.contents c (dir.placeIn parent).node)

mutual

def place (c : Compilation) : Dir → Element → Element
  | ⟨body, dirs⟩, parent =>
    (placeIn ⟨body, dirs⟩ parent).put (placeAll c dirs (filled c ⟨body, dirs⟩ parent))
termination_by structural dir => dir

def placeAll (c : Compilation) : List Dir → Element → Element
  | [], parent => parent
  | dir :: rest, parent => placeAll c rest (place c dir parent)
termination_by structural dirs => dirs

end

mutual

def bookings (c : Compilation) : Dir → Element → List Booking
  | ⟨body, dirs⟩, parent =>
    ownBookings ⟨body, dirs⟩ (placeIn ⟨body, dirs⟩ parent).node ++
      bookingsAll c dirs (filled c ⟨body, dirs⟩ parent)
termination_by structural dir => dir

def bookingsAll (c : Compilation) : List Dir → Element → List Booking
  | [], _ => []
  | dir :: rest, parent => bookings c dir parent ++ bookingsAll c rest (place c dir parent)
termination_by structural dirs => dirs

end

mutual

/-- The locations without a directory that the files in and below the directory name. -/
def notedBelow (dirs : List Dir) : Dir → List (String × Option String)
  | ⟨body, below⟩ => body.noted dirs ++ notedIn dirs below
termination_by structural dir => dir

def notedIn (dirs : List Dir) : List Dir → List (String × Option String)
  | [] => []
  | dir :: rest => notedBelow dirs dir ++ notedIn dirs rest
termination_by structural dirs => dirs

end

/-! ## Shortcut locations -/

/-- `root` with the directories of a shortcut location. -/
def placeLocation (c : Compilation) (root : Element) (location : String)
    (feature : Option String) : Element :=
  let names := LogicalPath.components location
  if names.isEmpty then root
  else
    match anchor? c.project.dirs location with
    | none => place c (chain names 0 feature) root
    | some (dir, n) =>
      match root.focusById? "Directory" dir.finalId with
      | some focus => focus.put (place c (chain names n feature) focus.node)
      | none => place c (chain names n feature) root

def locationBookings (c : Compilation) (root : Element) (location : String)
    (feature : Option String) : List Booking :=
  let names := LogicalPath.components location
  if names.isEmpty then []
  else
    match anchor? c.project.dirs location with
    | none => bookings c (chain names 0 feature) root
    | some (dir, n) =>
      match root.focusById? "Directory" dir.finalId with
      | some focus => bookings c (chain names n feature) focus.node
      | none => bookings c (chain names n feature) root

def placeLocations (c : Compilation) (root : Element) :
    List (String × Option String) → Element
  | [] => root
  | entry :: rest => placeLocations c (placeLocation c root entry.1 entry.2) rest

def locationsBookings (c : Compilation) (root : Element) :
    List (String × Option String) → List Booking
  | [] => []
  | entry :: rest =>
    locationBookings c root entry.1 entry.2 ++
      locationsBookings c (placeLocation c root entry.1 entry.2) rest

end Dir

/-! ## The whole tree -/

namespace Compilation

def emptyRoot : Element :=
  { name := "Directory", attrs := [("Id", Dir.rootId), ("Name", "SourceDir")] }

def declaredTree (c : Compilation) : Element :=
  Dir.placeAll c c.project.dirs emptyRoot

/-- The shortcut locations without a directory, each once, with the feature of the first shortcut
there. -/
def undeclaredLocations (c : Compilation) : List (String × Option String) :=
  (Dir.notedIn c.project.dirs c.project.dirs).foldl Ledger.withLocation []

def tree (c : Compilation) : Element :=
  Dir.placeLocations c c.declaredTree c.undeclaredLocations

def treeBookings (c : Compilation) : List Booking :=
  Dir.bookingsAll c c.project.dirs emptyRoot ++
    Dir.locationsBookings c c.declaredTree c.undeclaredLocations

end Compilation

/-! ## Emission -/

open Emit

variable {c : Compilation} {before after : Ledger}

theorem Shortcut.gives_noteLocation {dirs : List Dir} {shortcut : Shortcut} {result : Unit}
    (given : (shortcut.noteLocation dirs).Gives before result after) :
    Ledger.Books c.project before after [] (shortcut.noted dirs) := by
  rw [noteLocation] at given
  rw [noted]
  split at given
  next elsewhere =>
    rw [gives_note] at given
    subst given
    rw [if_pos elsewhere]
    exact ⟨by simp [Ledger.components_addLocation], Ledger.locations_addLocation _ _ _, by simp⟩
  next notElsewhere =>
    rw [if_neg notElsewhere]
    exact (gives_pure.mp given).2 ▸ .refl _

theorem File.gives_noteLocations {dirs : List Dir} {shortcuts : List Shortcut} {result : PUnit}
    (given : (forIn shortcuts PUnit.unit fun shortcut _ => do
      shortcut.noteLocation dirs
      pure (ForInStep.yield PUnit.unit) : Emit PUnit).Gives before result after) :
    Ledger.Books c.project before after [] (shortcuts.flatMap (Shortcut.noted dirs)) := by
  induction shortcuts generalizing before with
  | nil => exact (gives_pure.mp given).2 ▸ .refl _
  | cons shortcut rest ih =>
    simp only [List.forIn_cons, gives_bind, gives_pure] at given
    obtain ⟨_, _, ⟨_, _, noted, rfl, rfl⟩, rest⟩ := given
    exact (Shortcut.gives_noteLocation noted).trans (ih rest)

theorem File.gives_emit {dirId : String} {file : File} {result : Element}
    (given : (file.emit c dirId).Gives before result after) :
    result = file.component c dirId ∧
      Ledger.Books c.project before after [⟨.file file.finalId, file.feature⟩]
        (file.noted c.project.dirs) := by
  simp only [emit, gives_bind] at given
  obtain ⟨_, assigned, assign, _, noted, locations, extension⟩ := given
  have booked := (gives_assign ⟨.file file.finalId, file.feature⟩ assign).trans
    (File.gives_noteLocations locations)
  split at extension
  next =>
    obtain ⟨rfl, rfl⟩ := gives_pure.mp extension
    exact ⟨rfl, booked⟩
  next =>
    rw [gives_bind] at extension
    obtain ⟨_, _, extended, last⟩ := extension
    obtain ⟨rfl, rfl⟩ := gives_pure.mp last
    rw [gives_note] at extended
    subst extended
    exact ⟨rfl, booked.trans_nil books_addExtension⟩

theorem Shortcut.gives_emit {dirId : String} {shortcut : Shortcut} {result : Element}
    (given : (shortcut.emit c dirId).Gives before result after) :
    result = shortcut.component c dirId ∧
      Ledger.Books c.project before after [⟨.shortcut shortcut.finalId, shortcut.feature⟩] [] := by
  simp only [emit, gives_bind, gives_pure] at given
  obtain ⟨_, _, assign, rfl, rfl⟩ := given
  exact ⟨rfl, gives_assign ⟨.shortcut shortcut.finalId, shortcut.feature⟩ assign⟩

theorem MergeModule.gives_emit {module : MergeModule} {result : Element}
    (given : (module.emit c).Gives before result after) :
    result = module.element c ∧ Ledger.Books c.project before after [] [] := by
  simp only [emit, gives_bind, gives_pure, gives_note] at given
  obtain ⟨_, _, checked, _, _, rfl, rfl, rfl⟩ := given
  obtain ⟨rfl, -⟩ := gives_checkFeature checked
  exact ⟨rfl, books_addMergeModule⟩

theorem Permission.gives_emit {permission : Permission} {result : Element}
    (given : (permission.emit c).Gives before result after) :
    result = permission.component c ∧
      Ledger.Books c.project before after
        [⟨.permission permission.finalId, permission.feature⟩] [] := by
  simp only [emit, gives_bind, gives_pure] at given
  obtain ⟨_, _, assign, rfl, rfl⟩ := given
  exact ⟨rfl, gives_assign ⟨.permission permission.finalId, permission.feature⟩ assign⟩

namespace DirBody

theorem gives_emitFolder {body : DirBody} (origin : Origin) {result : Element}
    (given : (body.emitFolder c origin.componentId).Gives before result after) :
    result = folderComponent c origin.componentId ∧
      Ledger.Books c.project before after [⟨origin, body.feature⟩] [] := by
  simp only [emitFolder, gives_bind, gives_pure] at given
  obtain ⟨_, _, assign, rfl, rfl⟩ := given
  exact ⟨rfl, gives_assign ⟨origin, body.feature⟩ assign⟩

theorem gives_emitPermissions {body : DirBody} {results : List Element}
    (given : (body.emitPermissions c).Gives before results after) :
    results = body.permissions.map (Permission.component c) ∧
      Ledger.Books c.project before after
        (body.permissions.map fun permission =>
          ⟨.permission permission.finalId, permission.feature⟩) [] := by
  have each : ∀ {start : Ledger},
      (body.permissions.mapM (Permission.emit c)).Gives start results after →
      results = body.permissions.map (Permission.component c) ∧
        Ledger.Books c.project start after
          (body.permissions.map fun permission =>
            ⟨.permission permission.finalId, permission.feature⟩) [] := fun given => by
    exact books_mapM_booking (fun _ _ _ _ => Permission.gives_emit) given
  rw [emitPermissions] at given
  split at given
  next => exact each given
  next =>
    rw [gives_bind] at given
    obtain ⟨_, _, extended, given⟩ := given
    rw [gives_note] at extended
    subst extended
    obtain ⟨made, booked⟩ := each given
    exact ⟨made, books_addExtension.nil_trans booked⟩

theorem gives_emitContents {id : String} {body : DirBody} {results : List Element}
    (given : (body.emitContents c id).Gives before results after) :
    results = body.contents c id ∧
      Ledger.Books c.project before after (body.bookings id) (body.noted c.project.dirs) := by
  -- the steps after the directory's own component are the same with it and without it
  have rest : ∀ {start : Ledger} {folder : List Element}, (do
      let files ← body.files.mapM (File.emit c id)
      let shortcuts ← body.shortcuts.mapM (Shortcut.emit c id)
      let modules ← body.mergeModules.mapM (MergeModule.emit c)
      let permissions ← body.emitPermissions c
      return folder ++ files ++ shortcuts ++ modules ++ permissions :
        Emit (List Element)).Gives start results after →
      results = folder ++ body.files.map (File.component c id) ++
        body.shortcuts.map (Shortcut.component c id) ++
          body.mergeModules.map (MergeModule.element c) ++
            body.permissions.map (Permission.component c) ∧
      Ledger.Books c.project start after
        (body.files.map (fun file => ⟨.file file.finalId, file.feature⟩) ++
          body.shortcuts.map (fun shortcut => ⟨.shortcut shortcut.finalId, shortcut.feature⟩) ++
            body.permissions.map fun permission =>
              ⟨.permission permission.finalId, permission.feature⟩)
        (body.noted c.project.dirs) := fun given => by
    simp only [gives_bind, gives_pure] at given
    obtain ⟨files, _, fileSteps, shortcuts, _, shortcutSteps, modules, _, moduleSteps, permissions,
      _, permissionSteps, rfl, rfl⟩ := given
    obtain ⟨rfl, fileBooks⟩ := books_mapM_single (fun _ _ _ _ => File.gives_emit) fileSteps
    obtain ⟨rfl, shortcutBooks⟩ :=
      books_mapM_booking (fun _ _ _ _ => Shortcut.gives_emit) shortcutSteps
    obtain ⟨rfl, moduleBooks⟩ :=
      books_mapM_nothing (fun _ _ _ _ => MergeModule.gives_emit) moduleSteps
    obtain ⟨rfl, permissionBooks⟩ := gives_emitPermissions permissionSteps
    refine ⟨rfl, ?_⟩
    simpa [noted] using
      ((fileBooks.trans shortcutBooks).trans_nil moduleBooks).trans permissionBooks
  rw [emitContents] at given
  simp only [contents, bookings]
  split at given
  next declared =>
    simp only [gives_bind, gives_map] at given
    obtain ⟨_, _, ⟨folder, folderStep, rfl⟩, given⟩ := given
    obtain ⟨rfl, folderBooks⟩ := gives_emitFolder (.folder id) folderStep
    obtain ⟨rfl, booked⟩ := rest (by simpa only [gives_bind, gives_pure] using given)
    rw [if_pos declared, if_pos declared]
    exact ⟨rfl, by simpa using folderBooks.trans booked⟩
  next notDeclared =>
    simp only [gives_bind, gives_pure] at given
    obtain ⟨_, _, ⟨rfl, rfl⟩, given⟩ := given
    obtain ⟨rfl, booked⟩ := rest (by simpa only [gives_bind, gives_pure] using given)
    rw [if_neg notDeclared, if_neg notDeclared]
    exact ⟨rfl, booked⟩

theorem gives_emitEmpty {id : String} {hasComponent : Bool} {body : DirBody}
    {results : List Element}
    (given : (body.emitEmpty c id hasComponent).Gives before results after) :
    results = body.emptyContents c id hasComponent ∧
      Ledger.Books c.project before after (body.emptyBookings id hasComponent) [] := by
  rw [emitEmpty] at given
  rw [emptyContents, emptyBookings]
  split at given
  next present =>
    simp only [gives_bind, gives_pure] at given
    obtain ⟨_, _, ⟨rfl, rfl⟩, modules, _, moduleSteps, rfl, rfl⟩ := given
    obtain ⟨rfl, booked⟩ := books_mapM_nothing (fun _ _ _ _ => MergeModule.gives_emit) moduleSteps
    rw [if_pos present, if_pos present]
    exact ⟨rfl, booked⟩
  next absent =>
    simp only [gives_bind, gives_map, gives_pure] at given
    obtain ⟨_, _, ⟨folder, folderStep, rfl⟩, modules, _, moduleSteps, rfl, rfl⟩ := given
    obtain ⟨rfl, folderBooks⟩ := gives_emitFolder (.emptyFolder id) folderStep
    obtain ⟨rfl, booked⟩ := books_mapM_nothing (fun _ _ _ _ => MergeModule.gives_emit) moduleSteps
    rw [if_neg absent, if_neg absent]
    exact ⟨rfl, folderBooks.trans_nil booked⟩

end DirBody

namespace Dir

theorem noted_of_isEmpty {dirs : List Dir} {dir : Dir} (empty : dir.isEmpty = true) :
    dir.noted dirs = [] := by
  have none : dir.files = [] := by
    simp only [isEmpty, Bool.and_eq_true, List.isEmpty_iff] at empty
    exact empty.1.1.1
  rw [DirBody.noted, none, List.flatMap_nil]

theorem gives_emitBody {dir : Dir} {e result : Element}
    (given : (dir.emitBody c e).Gives before result after) :
    result = e.addAll (dir.contents c e) ∧
      Ledger.Books c.project before after (dir.ownBookings e) (dir.noted c.project.dirs) := by
  rw [emitBody] at given
  rw [contents, ownBookings]
  split at given
  next empty =>
    simp only [gives_bind, gives_pure] at given
    obtain ⟨_, _, steps, rfl, rfl⟩ := given
    obtain ⟨rfl, booked⟩ := DirBody.gives_emitEmpty steps
    rw [if_pos empty, if_pos empty, noted_of_isEmpty empty]
    exact ⟨rfl, booked⟩
  next full =>
    simp only [gives_bind, gives_pure] at given
    obtain ⟨_, _, steps, rfl, rfl⟩ := given
    obtain ⟨rfl, booked⟩ := DirBody.gives_emitContents steps
    rw [if_neg full, if_neg full]
    exact ⟨rfl, booked⟩

mutual

/-- A successful emission gives what is placed and writes the bookings that go with it. -/
theorem gives_emit : ∀ {dir : Dir} {parent result : Element} {before after : Ledger},
    (dir.emit c parent).Gives before result after →
      result = dir.place c parent ∧
        Ledger.Books c.project before after (dir.bookings c parent) (notedBelow c.project.dirs dir)
  | ⟨body, dirs⟩, parent, result, before, after, given => by
    simp only [emit, gives_bind, gives_pure] at given
    obtain ⟨_, _, own, _, _, below, rfl, rfl⟩ := given
    obtain ⟨rfl, ownBooks⟩ := gives_emitBody own
    obtain ⟨rfl, belowBooks⟩ := gives_emitAll below
    rw [place, bookings, notedBelow]
    exact ⟨rfl, ownBooks.trans belowBooks⟩

theorem gives_emitAll : ∀ {dirs : List Dir} {parent result : Element} {before after : Ledger},
    (emitAll c dirs parent).Gives before result after →
      result = placeAll c dirs parent ∧
        Ledger.Books c.project before after (bookingsAll c dirs parent)
          (notedIn c.project.dirs dirs)
  | [], parent, result, before, after, given => by
    simp only [emitAll, gives_pure] at given
    obtain ⟨rfl, rfl⟩ := given
    exact ⟨rfl, .refl _⟩
  | dir :: rest, parent, result, before, after, given => by
    simp only [emitAll, gives_bind] at given
    obtain ⟨_, _, first, others⟩ := given
    obtain ⟨rfl, firstBooks⟩ := gives_emit first
    obtain ⟨rfl, otherBooks⟩ := gives_emitAll others
    rw [placeAll, bookingsAll, notedIn]
    exact ⟨rfl, firstBooks.trans otherBooks⟩

end

/-! ### Shortcut locations -/

theorem notedBelow_chain (dirs : List Dir) (names : List String) (start : Nat)
    (feature : Option String) : notedBelow dirs (chain names start feature) = [] := by
  rw [chain]
  induction List.range' (start + 1) (names.length - 1 - start) with
  | nil => simp [ofNames, notedBelow, notedIn, DirBody.noted]
  | cons n rest ih => simpa [ofNames, notedBelow, notedIn, DirBody.noted] using ih

theorem gives_emit_chain {names : List String} {start : Nat} {feature : Option String}
    {parent result : Element}
    (given : ((chain names start feature).emit c parent).Gives before result after) :
    result = (chain names start feature).place c parent ∧
      Ledger.Books c.project before after ((chain names start feature).bookings c parent) [] := by
  rw [← notedBelow_chain c.project.dirs names start feature]
  exact gives_emit given

theorem gives_emitLocation {root result : Element} {location : String} {feature : Option String}
    (given : (emitLocation c root location feature).Gives before result after) :
    result = placeLocation c root location feature ∧
      Ledger.Books c.project before after (locationBookings c root location feature) [] := by
  simp only [emitLocation] at given
  simp only [placeLocation, locationBookings]
  split at given
  next empty =>
    obtain ⟨rfl, rfl⟩ := gives_pure.mp given
    rw [if_pos empty, if_pos empty]
    exact ⟨rfl, .refl _⟩
  next named =>
    rw [if_neg named, if_neg named]
    cases anchor : anchor? c.project.dirs location with
    | none =>
      simp only [anchor] at given
      exact gives_emit_chain given
    | some found =>
      obtain ⟨dir, n⟩ := found
      simp only [anchor] at given
      -- without such a directory the chain starts at the root
      cases place : root.focusById? "Directory" dir.finalId with
      | none =>
        simp only [place] at given ⊢
        exact gives_emit_chain given
      | some focus =>
        simp only [place, Markup.Focus.modifyM, gives_bind, gives_pure] at given ⊢
        obtain ⟨_, _, steps, rfl, rfl⟩ := given
        obtain ⟨rfl, booked⟩ := gives_emit_chain steps
        exact ⟨rfl, booked⟩

theorem gives_emitLocations {locations : List (String × Option String)} {root result : Element}
    (given : (locations.foldlM (fun root entry => emitLocation c root entry.1 entry.2) root).Gives
      before result after) :
    result = placeLocations c root locations ∧
      Ledger.Books c.project before after (locationsBookings c root locations) [] := by
  induction locations generalizing root before with
  | nil =>
    obtain ⟨rfl, rfl⟩ := gives_pure.mp given
    exact ⟨rfl, .refl _⟩
  | cons entry rest ih =>
    rw [List.foldlM_cons, gives_bind] at given
    obtain ⟨_, _, first, others⟩ := given
    obtain ⟨rfl, firstBooks⟩ := gives_emitLocation first
    obtain ⟨rfl, otherBooks⟩ := ih others
    exact ⟨rfl, firstBooks.trans otherBooks⟩

/-- From a ledger without locations the emission of all directories gives the whole tree. -/
theorem gives_emitTree {result : Element} (fresh : before.locations = [])
    (given : (emitTree c).Gives before result after) :
    result = c.tree ∧ after.components = before.components ++ c.treeBookings.map Booking.line ∧
      ∀ booking ∈ c.treeBookings, ∀ name, booking.feature = some name →
        (c.project.feature? name).isSome = true := by
  simp only [emitTree, emitLocations, gives_bind, gives_get] at given
  obtain ⟨_, _, declaredSteps, _, declared, ⟨rfl, rfl⟩, locationSteps⟩ := given
  obtain ⟨rfl, declaredBooks⟩ := gives_emitAll declaredSteps
  -- the locations are those that the declared directories noted
  have locations : declared.locations = c.undeclaredLocations := by
    rw [declaredBooks.locations, fresh]
    rfl
  rw [locations] at locationSteps
  obtain ⟨rfl, locationBooks⟩ := gives_emitLocations locationSteps
  have booked := declaredBooks.trans locationBooks
  exact ⟨rfl, booked.components, booked.declared⟩

end Dir

end Installer
