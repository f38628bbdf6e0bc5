import Installer.Proofs.Directory.Undeclared

/-! # Where the directories of locations are

The directory of a part is put into the first directory that has the id of the longest declared part
before it.  While locations get their directories, the first directory with the id of a declared one
stays the same, unless a part with several names has this id.  So each part has one place,
`placeOf`, whichever location it is a part of and whenever its turn comes.
-/

namespace Installer

open Markup (Element Focus)
open Markup.Element
open LogicalPath

/-! ## Places that are kept -/

namespace Dir

variable {c : Compilation} {parent : Element} {id : String}

/-- A directory adds at most its own place, if what is put into it adds none. -/
theorem filter_put {body : DirBody} {dirs : List Dir} {inner : Element}
    (same : inner.tag = (filled c ⟨body, dirs⟩ parent).tag)
    (kept : inner.places.filter (endsIn id) =
      (filled c ⟨body, dirs⟩ parent).places.filter (endsIn id)) :
    ∃ extra, ((placeIn ⟨body, dirs⟩ parent).put inner).places.filter (endsIn id) =
      parent.places.filter (endsIn id) ++ extra ∧ (finalId ⟨body, dirs⟩ ≠ id → extra = []) := by
  have made := madeFor_contents (c := c) ⟨body, dirs⟩ (placeIn ⟨body, dirs⟩ parent).node
  -- what the directory holds itself are no directories
  have none : ∀ x ∈ contents c ⟨body, dirs⟩ (placeIn ⟨body, dirs⟩ parent).node,
      x.name ≠ "Directory" := fun x mem => (made.only x mem "Directory" (by decide)).here
  rw [filled, places_addAll _ none] at kept
  exact Focus.filter_places_putChildOr (hasNameAndId_element _) rfl same kept

mutual

theorem filter_place : ∀ {dir : Dir} {parent : Element}, Tidy parent → parent.name = "Directory" →
    (∀ x ∈ all [dir], x.finalId ≠ id) →
      (place c dir parent).places.filter (endsIn id) = parent.places.filter (endsIn id)
  | ⟨body, dirs⟩, parent, tidy, directory, others => by
    rw [all_cons, all_nil, List.append_nil, List.forall_mem_cons] at others
    obtain ⟨other, below⟩ := others
    have inside := tidy_filled (c := c) ⟨body, dirs⟩ tidy directory
    have name : (filled c ⟨body, dirs⟩ parent).name = "Directory" :=
      (hasNameAndId_eq_true.mp (isSubdirectory_placeIn ⟨body, dirs⟩ tidy directory).directory).1
    obtain ⟨extra, added, nothing⟩ := filter_put (placed_placeAll inside name).tag
      (filter_placeAll inside name below)
    rw [place, added, nothing other, List.append_nil]

/-- Directories with other ids add no place with the id. -/
theorem filter_placeAll : ∀ {dirs : List Dir} {parent : Element}, Tidy parent →
    parent.name = "Directory" → (∀ x ∈ all dirs, x.finalId ≠ id) →
      (placeAll c dirs parent).places.filter (endsIn id) = parent.places.filter (endsIn id)
  | [], _, _, _, _ => rfl
  | dir :: rest, parent, tidy, directory, others => by
    rw [← List.singleton_append, all_append, List.forall_mem_append] at others
    have first : Placed c [dir] (dir.bookings c parent) parent (dir.place c parent) :=
      placed_place tidy directory
    have here := filter_place tidy directory others.1
    have later := filter_placeAll first.tidy ((name_eq_of_tag first.tag).trans directory) others.2
    rw [placeAll, later, here]

end

/-- A chain adds at most the place of its first directory, if the others have different ids. -/
theorem filter_place_chain {names : List String} {start : Nat} (feature : Option String)
    (tidy : Tidy parent) (directory : parent.name = "Directory") (lt : start < names.length)
    (others : ∀ m, start + 1 < m → m ≤ names.length →
      Folder.identifier (ofComponents (names.take m)) ≠ id) :
    ∃ extra, ((chain names start feature).place c parent).places.filter (endsIn id) =
      parent.places.filter (endsIn id) ++ extra ∧
        (Folder.identifier (ofComponents (names.take (start + 1))) ≠ id → extra = []) := by
  have ids : ∀ entry ∈ located [chain names start feature], 0 < entry.1.length ∧
      start + entry.1.length ≤ names.length ∧ entry.2.finalId =
        Folder.identifier (ofComponents (names.take (start + entry.1.length))) :=
    fun entry mem => finalId_of_mem_chain lt mem
  generalize chain names start feature = dir at ids ⊢
  obtain ⟨body, dirs⟩ := dir
  rw [located_singleton, List.forall_mem_cons, List.forall_mem_map] at ids
  simp only [List.length_cons, List.length_nil, Nat.zero_add] at ids
  obtain ⟨⟨-, -, own⟩, below⟩ := ids
  -- what is further down in the chain stands for a longer part
  have different : ∀ x ∈ all dirs, x.finalId ≠ id := by
    intro x mem
    obtain ⟨path, among⟩ := mem_all.mp mem
    obtain ⟨-, bound, finalId_eq⟩ := below _ among
    dsimp only at bound finalId_eq
    have nonempty : path ≠ [] := fun nothing => by
      simpa [nothing] using getLast?_of_mem_located among
    have positive : 0 < path.length := List.length_pos_iff.mpr nonempty
    rw [finalId_eq]
    exact others _ (by omega) bound
  have inside := tidy_filled (c := c) ⟨body, dirs⟩ tidy directory
  have name : (filled c ⟨body, dirs⟩ parent).name = "Directory" :=
    (hasNameAndId_eq_true.mp (isSubdirectory_placeIn ⟨body, dirs⟩ tidy directory).directory).1
  rw [place, ← own]
  exact filter_put (placed_placeAll inside name).tag (filter_placeAll inside name different)

/-- The first place with an id stays the first when a location gets its directories, if no part with
several names has the id. -/
theorem firstPlace?_placeLocation {root : Element} {location : String} {feature : Option String}
    {path : List String} (tidy : Tidy root) (directory : root.name = "Directory")
    (declared : HasDeclared c root) (first : root.firstPlace? id = some path)
    (others : ∀ part ∈ newParts c.project.dirs location, 2 ≤ part.length →
      Folder.identifier (ofComponents part) ≠ id) :
    (placeLocation c root location feature).firstPlace? id = some path := by
  rw [firstPlace?_eq_head?] at first ⊢
  rw [placeLocation]
  by_cases empty : (components location).isEmpty
  · simp only [empty, if_true]
    exact first
  have named : components location ≠ [] := by simpa using empty
  have lt : declaredLength c.project.dirs location < (components location).length :=
    declaredLength_lt named
  have longer : ∀ m, declaredLength c.project.dirs location < m → 2 ≤ m →
      m ≤ (components location).length →
        Folder.identifier (ofComponents ((components location).take m)) ≠ id := by
    intro m above several bound
    refine others _ (mem_newParts.mpr ⟨m, above, bound, rfl⟩) ?_
    rw [List.length_take]
    omega
  simp only [empty, Bool.false_eq_true, if_false]
  cases anchor : anchor? c.project.dirs location with
  | none =>
    have start : declaredLength c.project.dirs location = 0 := by simp [declaredLength, anchor]
    rw [start] at lt longer
    obtain ⟨extra, added, -⟩ := filter_place_chain (c := c) feature tidy directory lt
      fun m above bound => longer m (by omega) (by omega) bound
    simp only [added, List.head?_append, first, Option.some_or]
  | some found =>
    obtain ⟨dir, n⟩ := found
    have start : declaredLength c.project.dirs location = n := by simp [declaredLength, anchor]
    have positive := (anchor?_eq_some anchor).1
    rw [start] at lt longer
    obtain ⟨focus, search⟩ := exists_focusById? declared (anchor?_mem anchor)
    obtain ⟨isDirectory, -⟩ := hasNameAndId_eq_true.mp (isPlace_of_focus? search).2
    obtain ⟨front, isAt, -⟩ := isAt_of_focus? tidy search
    have inner := isAt.isPlace.everywhere_node tidy
    -- here the first directory of the chain has several names, too
    obtain ⟨extra, added, nothing⟩ := filter_place_chain (c := c) feature inner isDirectory lt
      fun m above bound => longer m (by omega) (by omega) bound
    rw [nothing (longer (n + 1) (by omega) (by omega) lt), List.append_nil] at added
    have chained := extended_chain (c := c) (components location) n feature inner isDirectory
    simp only [search]
    rw [isAt.filter_places_put chained.tag added]
    exact first

end Dir

/-! ## The place of a part -/

namespace Dir

/-- The parts of locations without a directory that get directories. -/
def undeclaredParts (dirs : List Dir) : List (List String) :=
  (elsewhere dirs).flatMap (newParts dirs)

theorem components_undeclaredPart {dirs : List Dir} {part : List String}
    (mem : part ∈ undeclaredParts dirs) : components (ofComponents part) = part := by
  obtain ⟨location, -, new⟩ := List.mem_flatMap.mp mem
  exact components_newPart new

theorem length_pos_of_mem_undeclaredParts {dirs : List Dir} {part : List String}
    (mem : part ∈ undeclaredParts dirs) : 0 < part.length := by
  obtain ⟨location, -, new⟩ := List.mem_flatMap.mp mem
  obtain ⟨m, above, bound, rfl⟩ := mem_newParts.mp new
  rw [List.length_take]
  omega

theorem dot_mem_identifier_undeclaredPart {dirs : List Dir} {part : List String}
    (mem : part ∈ undeclaredParts dirs) (several : 2 ≤ part.length) :
    '.' ∈ (Folder.identifier (ofComponents part)).toList := by
  refine Folder.dot_mem_identifier ?_
  rwa [components_undeclaredPart mem]

/-- No declared directory has the identifier of a part with several names. -/
def AreClear (dirs : List Dir) : Prop :=
  ∀ part ∈ undeclaredParts dirs, 2 ≤ part.length → ∀ dir ∈ all dirs,
    Folder.identifier (ofComponents part) ≠ dir.finalId

end Dir

namespace Compilation

variable {c : Compilation}

/-- The id path of the directory that is made for a part. -/
def placeOf (c : Compilation) (part : List String) : List String :=
  c.anchorPath c.declaredTree (ofComponents part) ++
    Dir.chainIds part (Dir.declaredLength c.project.dirs (ofComponents part))

theorem getLast?_placeOf (part : List String) :
    (c.placeOf part).getLast? = some (Folder.identifier (ofComponents part)) := by
  rw [placeOf, List.getLast?_append, Dir.getLast?_chainIds]
  rfl

/-- The place of a part is inside the declared directory of any location that it is a part of. -/
theorem placeOf_eq {location : String} {part : List String}
    (new : part ∈ Dir.newParts c.project.dirs location) :
    c.placeOf part = c.anchorPath c.declaredTree location ++
      Dir.chainIds part (Dir.declaredLength c.project.dirs location) := by
  have same := Dir.anchor?_newPart new
  rw [placeOf, anchorPath, anchorPath, Dir.declaredLength, Dir.declaredLength, same]

/-- A single name has its place directly inside the root. -/
theorem placeOf_single {part : List String} (mem : part ∈ Dir.undeclaredParts c.project.dirs)
    (single : part.length = 1) : c.placeOf part = [Folder.identifier (ofComponents part)] := by
  have none : Dir.anchor? c.project.dirs (ofComponents part) = none := by
    rw [Dir.anchor?_eq, Dir.components_undeclaredPart mem, single]
    rfl
  obtain ⟨name, rfl⟩ := List.length_eq_one_iff.mp single
  rw [placeOf, anchorPath, Dir.declaredLength, none]
  rfl

/-! ## The places of all parts -/

theorem anchorPath_congr {root root' : Element} (same : ∀ dir ∈ Dir.all c.project.dirs,
    root.firstPlace? dir.finalId = root'.firstPlace? dir.finalId) (location : String) :
    c.anchorPath root location = c.anchorPath root' location := by
  rw [anchorPath, anchorPath]
  cases anchor : Dir.anchor? c.project.dirs location with
  | none => rfl
  | some found => simp only [same found.1 (Dir.anchor?_mem anchor)]

/-- A location extends a tree by the places of its parts, if the first places of declared
directories are those of the tree of declared directories. -/
theorem extended_placeLocation_placeOf {location : String} {feature : Option String}
    {root : Element} (among : location ∈ Dir.elsewhere c.project.dirs) (tidy : Tidy root)
    (directory : root.name = "Directory") (declared : Dir.HasDeclared c root)
    (fixed : ∀ dir ∈ Dir.all c.project.dirs,
      root.firstPlace? dir.finalId = c.declaredTree.firstPlace? dir.finalId) :
    Extended (fun path => ∃ part ∈ Dir.undeclaredParts c.project.dirs, path = c.placeOf part)
      (Dir.locationBookings c root location feature) root
      (Dir.placeLocation c root location feature) := by
  refine (Dir.extended_placeLocation_at tidy directory declared location feature).mono
    fun path isMade => ?_
  obtain ⟨named, back, path_eq, notEmpty, follows⟩ := isMade
  obtain ⟨part, new, back_eq, -⟩ := Dir.exists_newPart named notEmpty follows
  refine ⟨part, List.mem_flatMap.mpr ⟨location, among, new⟩, ?_⟩
  rw [path_eq, back_eq, placeOf_eq new, anchorPath_congr fixed]

/-- Each directory that locations add to the declared ones is in the place of a part. -/
theorem extended_tree_placeOf (clear : Dir.AreClear c.project.dirs) :
    Extended (fun path => ∃ part ∈ Dir.undeclaredParts c.project.dirs, path = c.placeOf part)
      (Dir.locationsBookings c c.declaredTree c.undeclaredLocations) c.declaredTree c.tree := by
  refine Dir.extended_placeLocations_of
    (fun root => ∀ dir ∈ Dir.all c.project.dirs,
      root.firstPlace? dir.finalId = c.declaredTree.firstPlace? dir.finalId)
    (fun entry mem tree tidy directory declared fixed => ?_)
    placed_declaredTree.tidy (name_eq_of_tag (placed_declaredTree (c := c)).tag)
    hasDeclared_declaredTree (fun _ _ => rfl)
  have among := Dir.mem_undeclaredLocations.mp (List.mem_map_of_mem mem)
  refine ⟨extended_placeLocation_placeOf among tidy directory declared fixed, fun dir isDir => ?_⟩
  -- the first place of a declared directory is kept, since no part has its id
  obtain ⟨focus, search⟩ := Dir.exists_focusById? declared isDir
  obtain ⟨path, -, isFirst⟩ := isAt_of_focus? tidy search
  rw [← fixed dir isDir, isFirst]
  exact Dir.firstPlace?_placeLocation tidy directory declared isFirst fun part new several =>
    clear part (List.mem_flatMap.mpr ⟨entry.1, among, new⟩) several dir isDir

/-- Where the places are not known, the ids are those of parts all the same. -/
theorem extended_tree_identifier :
    Extended (fun path => ∃ part ∈ Dir.undeclaredParts c.project.dirs,
        path.getLast? = some (Folder.identifier (ofComponents part)))
      (Dir.locationsBookings c c.declaredTree c.undeclaredLocations) c.declaredTree c.tree := by
  refine Dir.extended_placeLocations_of (fun _ => True)
    (fun entry mem tree tidy directory declared _ => ?_)
    placed_declaredTree.tidy (name_eq_of_tag (placed_declaredTree (c := c)).tag)
    hasDeclared_declaredTree trivial
  have among := Dir.mem_undeclaredLocations.mp (List.mem_map_of_mem mem)
  refine ⟨(Dir.extended_placeLocation_at tidy directory declared entry.1 entry.2).mono
    fun path isMade => ?_, trivial⟩
  obtain ⟨named, back, path_eq, notEmpty, follows⟩ := isMade
  obtain ⟨part, new, -, last⟩ := Dir.exists_newPart named notEmpty follows
  refine ⟨part, List.mem_flatMap.mpr ⟨entry.1, among, new⟩, ?_⟩
  rw [path_eq, List.getLast?_append_of_ne_nil _ notEmpty, last]

end Compilation

end Installer
