import Installer.Proofs.Component.Identity
import Installer.Proofs.Directory.Erasure
import Installer.Proofs.Directory.Undeclared
import Installer.Proofs.Emit.Contract

/-! # The features that directories ask for

The files, shortcuts and permissions of a directory each ask for the feature that they name.  The
components of the tree are booked for declared features if and only if all of these are declared, as
long as the features of the directories themselves and of the shortcuts of files are.
-/

namespace Installer

open Markup (Element)

/-! ## Readings of features -/

namespace DirBody

/-- The features that the files, shortcuts and permissions of the directory name. -/
def askedFeatures (body : DirBody) : List (Option String) :=
  body.files.map File.feature ++ body.shortcuts.map Shortcut.feature ++
    body.permissions.map Permission.feature

def ownFeatures (body : DirBody) : List (Option String) :=
  body.feature.toList.map some

def linkFeatures (body : DirBody) : List (Option String) :=
  body.files.flatMap fun file => file.shortcuts.map Shortcut.feature

theorem isContent_askedFeatures : IsContent askedFeatures where
  name _ _ := rfl
  id _ _ := rfl
  widen body := by simp [askedFeatures, widen, Shortcut.widen, Function.comp_def]
  nothing _ := rfl

theorem isContent_ownFeatures : IsContent ownFeatures :=
  ⟨fun _ _ => rfl, fun _ _ => rfl, fun _ => rfl, fun _ => rfl⟩

theorem isContent_linkFeatures : IsContent linkFeatures where
  name _ _ := rfl
  id _ _ := rfl
  widen body := by
    simp [linkFeatures, widen, Shortcut.widen, List.flatMap_map, Function.comp_def]
  nothing _ := rfl

/-! Ids do not matter for them. -/

theorem askedFeatures_withoutIds (body : DirBody) :
    body.withoutIds.askedFeatures = body.askedFeatures := by
  simp [askedFeatures, withoutIds, File.withoutIds, Shortcut.withoutId, Permission.withoutId,
    Function.comp_def]

theorem linkFeatures_withoutIds (body : DirBody) :
    body.withoutIds.linkFeatures = body.linkFeatures := by
  simp [linkFeatures, withoutIds, File.withoutIds, Shortcut.withoutId, List.flatMap_map,
    Function.comp_def]

end DirBody

namespace Project

def DeclaresEach (project : Project) (features : List (Option String)) : Prop :=
  ∀ feature ∈ features, project.Declares feature

variable {project : Project}

@[simp] theorem declaresEach_nil : project.DeclaresEach [] := by
  simp [DeclaresEach]

@[simp] theorem declaresEach_append {front back : List (Option String)} :
    project.DeclaresEach (front ++ back) ↔
      project.DeclaresEach front ∧ project.DeclaresEach back :=
  List.forall_mem_append

@[simp] theorem declaresEach_map {α : Type} {feature : α → Option String} {entities : List α} :
    project.DeclaresEach (entities.map feature) ↔
      ∀ x ∈ entities, project.Declares (feature x) :=
  List.forall_mem_map

theorem declares_none : project.Declares none := by
  intro name named
  cases named

theorem declaresEach_linkFeatures {dirs : List Dir} :
    project.DeclaresEach (Dir.readAll DirBody.linkFeatures dirs) ↔
      ∀ file ∈ Dir.allFiles dirs, ∀ shortcut ∈ file.shortcuts,
        project.Declares shortcut.feature := by
  simp only [DeclaresEach, Dir.readAll, Dir.allFiles, List.forall_mem_flatMap,
    DirBody.linkFeatures, List.forall_mem_map]

theorem declaresEach_ownFeatures {dirs : List Dir} :
    project.DeclaresEach (Dir.readAll DirBody.ownFeatures dirs) ↔
      ∀ dir ∈ Dir.all dirs, project.Declares dir.feature := by
  simp only [DeclaresEach, Dir.readAll, List.forall_mem_flatMap, DirBody.ownFeatures,
    List.forall_mem_map, Option.mem_toList]
  refine forall₂_congr fun dir _ => ⟨fun named name feature => ?_, fun declared name feature => ?_⟩
  · exact named name feature name rfl
  · exact feature ▸ declared

end Project

/-! ## The bookings of the tree -/

namespace Dir

variable {c : Compilation} {project : Project}

theorem declaresAll_heldBookings {dir : Dir} (own : project.Declares dir.feature) :
    project.DeclaresAll dir.heldBookings ↔ project.DeclaresEach dir.toDirBody.askedFeatures := by
  rw [heldBookings]
  split
  next empty =>
    obtain ⟨noFiles, noShortcuts, noPermissions⟩ := nothing_of_isEmpty empty
    simp [DirBody.askedFeatures, noFiles, noShortcuts, noPermissions]
  next =>
    have folder : project.DeclaresAll
        (if dir.feature.isSome then [⟨.folder dir.finalId, dir.feature⟩] else []) := by
      split <;> simp [own]
    simp [DirBody.bookings, DirBody.askedFeatures, folder]

theorem declaresAll_flatMap_heldBookings {dirs : List Dir}
    (own : ∀ dir ∈ all dirs, project.Declares dir.feature) :
    project.DeclaresAll ((all dirs).flatMap heldBookings) ↔
      project.DeclaresEach (readAll DirBody.askedFeatures dirs) := by
  rw [Project.DeclaresAll, Project.DeclaresEach, readAll, List.forall_mem_flatMap,
    List.forall_mem_flatMap]
  exact forall₂_congr fun dir mem => declaresAll_heldBookings (own dir mem)

/-- What is booked for a directory is booked for what it holds, a placeholder apart. -/
theorem declaresAll_ownBookings {dir : Dir} (own : project.Declares dir.feature) (e : Element) :
    project.DeclaresAll (dir.ownBookings e) ↔ project.DeclaresAll dir.heldBookings := by
  rw [ownBookings, heldBookings]
  split
  next =>
    rw [DirBody.emptyBookings]
    split <;> simp [own]
  next => rfl

mutual

theorem declaresAll_bookings : ∀ (dir : Dir) (parent : Element),
    (∀ x ∈ all [dir], project.Declares x.feature) →
      (project.DeclaresAll (bookings c dir parent) ↔
        project.DeclaresAll ((all [dir]).flatMap heldBookings))
  | ⟨body, dirs⟩, parent, own => by
    simp only [all_cons, all_nil, List.append_nil, List.forall_mem_cons] at own
    rw [bookings, Project.declaresAll_append, declaresAll_ownBookings own.1,
      declaresAll_bookingsAll dirs _ own.2]
    simp

/-- Where directories are placed does not matter for the features that are asked for. -/
theorem declaresAll_bookingsAll : ∀ (dirs : List Dir) (parent : Element),
    (∀ x ∈ all dirs, project.Declares x.feature) →
      (project.DeclaresAll (bookingsAll c dirs parent) ↔
        project.DeclaresAll ((all dirs).flatMap heldBookings))
  | [], _, _ => Iff.rfl
  | dir :: rest, parent, own => by
    rw [← List.singleton_append, all_append, List.forall_mem_append] at own
    rw [bookingsAll, Project.declaresAll_append, declaresAll_bookings dir parent own.1,
      declaresAll_bookingsAll rest _ own.2, ← List.singleton_append (l := rest), all_append,
      List.flatMap_append, Project.declaresAll_append]

end

/-! ## The bookings of locations -/

theorem declares_of_mem_chain {names : List String} {start : Nat} {feature : Option String}
    (declared : project.Declares feature) :
    ∀ dir ∈ all [chain names start feature], project.Declares dir.feature := by
  rw [chain]
  -- the last directory has the feature, and those around it have none
  induction List.range' (start + 1) (names.length - 1 - start) with
  | nil => simpa [ofNames] using declared
  | cons n rest ih =>
    rw [List.foldr_cons, ofNames, all_cons, all_nil, List.append_nil, List.forall_mem_cons]
    exact ⟨Project.declares_none, ih⟩

theorem declaresAll_bookings_chain {names : List String} {start : Nat} {feature : Option String}
    (declared : project.Declares feature) (parent : Element) :
    project.DeclaresAll (bookings c (chain names start feature) parent) := by
  rw [declaresAll_bookings _ _ (declares_of_mem_chain declared), heldBookings_chain]
  exact Project.declaresAll_nil

theorem declaresAll_locationBookings {location : String} {feature : Option String}
    (declared : project.Declares feature) (root : Element) :
    project.DeclaresAll (locationBookings c root location feature) := by
  rw [locationBookings]
  split
  next => exact Project.declaresAll_nil
  next =>
    split
    next => exact declaresAll_bookings_chain declared _
    next =>
      split
      next => exact declaresAll_bookings_chain declared _
      next => exact declaresAll_bookings_chain declared _

theorem declaresAll_locationsBookings {locations : List (String × Option String)}
    (declared : ∀ entry ∈ locations, project.Declares entry.2) (root : Element) :
    project.DeclaresAll (locationsBookings c root locations) := by
  induction locations generalizing root with
  | nil => exact Project.declaresAll_nil
  | cons entry rest ih =>
    rw [List.forall_mem_cons] at declared
    rw [locationsBookings, Project.declaresAll_append]
    exact ⟨declaresAll_locationBookings declared.1 root, ih declared.2 _⟩

end Dir

/-- A location is kept with a feature that it was noted with. -/
theorem Ledger.mem_of_mem_foldl_withLocation {entries start : List (String × Option String)}
    {entry : String × Option String} (mem : entry ∈ entries.foldl withLocation start) :
    entry ∈ start ∨ entry ∈ entries := by
  induction entries generalizing start with
  | nil => exact .inl mem
  | cons first rest ih =>
    rw [List.mem_cons]
    rcases ih mem with earlier | later
    · rw [withLocation] at earlier
      split at earlier
      next => exact .inl earlier
      next => exact (List.mem_append.mp earlier).imp_right fun here => .inl (by simpa using here)
    · exact .inr (.inr later)

namespace Compilation

variable {c : Compilation}

/-- A location without a directory has the feature of a shortcut of a file. -/
theorem mem_linkFeatures_of_undeclared {entry : String × Option String}
    (mem : entry ∈ c.undeclaredLocations) :
    entry.2 ∈ Dir.readAll DirBody.linkFeatures c.project.dirs := by
  have noted := (Ledger.mem_of_mem_foldl_withLocation mem).resolve_left List.not_mem_nil
  rw [Dir.notedIn_eq, Dir.allFiles] at noted
  simp only [List.mem_flatMap, File.noted, Shortcut.noted] at noted
  obtain ⟨file, ⟨dir, isDir, isFile⟩, shortcut, isShortcut, here⟩ := noted
  split at here
  next =>
    rw [List.mem_singleton.mp here]
    exact List.mem_flatMap.mpr ⟨dir, isDir, List.mem_flatMap.mpr
      ⟨file, isFile, List.mem_map_of_mem isShortcut⟩⟩
  next => cases here

/-- The tree is booked for declared features if and only if everything in its directories asks for
one. -/
theorem declaresAll_treeBookings
    (own : ∀ dir ∈ Dir.all c.project.dirs, c.project.Declares dir.feature)
    (links : c.project.DeclaresEach (Dir.readAll DirBody.linkFeatures c.project.dirs)) :
    c.project.DeclaresAll c.treeBookings ↔
      c.project.DeclaresEach (Dir.readAll DirBody.askedFeatures c.project.dirs) := by
  rw [treeBookings, Project.declaresAll_append, Dir.declaresAll_bookingsAll _ _ own,
    Dir.declaresAll_flatMap_heldBookings own]
  exact and_iff_left (Dir.declaresAll_locationsBookings
    (fun entry mem => links _ (mem_linkFeatures_of_undeclared mem)) _)

end Compilation

end Installer
