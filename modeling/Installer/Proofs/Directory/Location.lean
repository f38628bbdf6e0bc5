import Installer.Proofs.Directory.Tree
import Installer.Proofs.Markup.Places

/-! # Directories of shortcut locations

A shortcut may name a location for which no directory is declared.  The tree then gets a chain of
directories for it, inside the directory of the longest initial part that is declared.  `Extended`
compares the tree before and after: nothing that was there changes, and each directory that is new
holds no files and has one of the id paths that `Compilation.IsLocationPath` describes.
-/

namespace Installer

open Markup (Element Focus)
open Markup.Element

/-! ## Declared directories are found among all directories -/

namespace Dir

theorem mem_all {dirs : List Dir} {dir : Dir} :
    dir ∈ all dirs ↔ ∃ path, (path, dir) ∈ located dirs := by
  simp [all]

mutual

theorem findId?_mem {id : String} {found : Dir} :
    ∀ {dir : Dir}, findId? id dir = some found → found ∈ all [dir]
  | ⟨body, dirs⟩, result => by
    rw [findId?] at result
    rw [all_cons, List.mem_cons, List.mem_append]
    split at result
    next =>
      cases result
      exact .inl rfl
    next => exact .inr (.inl (findIdIn?_mem result))

theorem findIdIn?_mem {id : String} {found : Dir} :
    ∀ {dirs : List Dir}, findIdIn? id dirs = some found → found ∈ all dirs
  | dir :: rest, result => by
    rw [findIdIn?, Option.or_eq_some_iff] at result
    rw [← List.singleton_append, all_append, List.mem_append]
    rcases result with first | ⟨-, later⟩
    · exact .inl (findId?_mem first)
    · exact .inr (findIdIn?_mem later)

end

mutual

theorem follow?_mem {found : Dir} :
    ∀ {dir : Dir} {names : List String}, follow? dir names = some found → found ∈ all [dir]
  | ⟨body, dirs⟩, name :: names, result => by
    rw [follow?] at result
    rw [all_cons, List.mem_cons, List.mem_append]
    split at result
    next =>
      split at result
      next =>
        cases result
        exact .inl rfl
      next => exact .inr (.inl (followIn?_mem result))
    next => cases result

theorem followIn?_mem {found : Dir} :
    ∀ {dirs : List Dir} {names : List String}, followIn? dirs names = some found → found ∈ all dirs
  | dir :: rest, names, result => by
    rw [followIn?, Option.or_eq_some_iff] at result
    rw [← List.singleton_append, all_append, List.mem_append]
    rcases result with first | ⟨-, later⟩
    · exact .inl (follow?_mem first)
    · exact .inr (followIn?_mem later)

end

theorem find?_mem {dirs : List Dir} {path : String} {found : Dir}
    (result : find? dirs path = some found) : found ∈ all dirs := by
  rw [find?] at result
  split at result
  next =>
    rcases Option.or_eq_some_iff.mp result with byId | ⟨-, byName⟩
    · exact findIdIn?_mem byId
    · exact followIn?_mem byName
  next => exact followIn?_mem result

theorem anchor?_mem {dirs : List Dir} {location : String} {found : Dir} {n : Nat}
    (result : anchor? dirs location = some (found, n)) : found ∈ all dirs := by
  rw [anchor?, List.findSome?_eq_some_iff] at result
  obtain ⟨-, path, -, -, declared, -⟩ := result
  obtain ⟨dir, isFound, equal⟩ := Option.map_eq_some_iff.mp declared
  cases equal
  exact find?_mem isFound

/-! ## Chains -/

/-- The ids of the directories in a chain, from the outermost to the innermost. -/
def chainIds (names : List String) (start : Nat) : List String :=
  (List.range' (start + 1) (names.length - 1 - start) ++ [names.length]).map fun n =>
    Folder.identifier (LogicalPath.ofComponents (names.take n))

/-- A chain holds no files, and the id paths into it follow its ids. -/
theorem located_chain {names : List String} {start : Nat} {feature : Option String}
    {entry : List String × Dir} (mem : entry ∈ located [chain names start feature]) :
    entry.2.files = [] ∧ entry.1 ≠ [] ∧ entry.1 <+: chainIds names start := by
  rw [chain] at mem
  rw [chainIds]
  generalize List.range' (start + 1) (names.length - 1 - start) = ns at mem ⊢
  induction ns generalizing entry with
  | nil =>
    rw [List.foldr_nil, ofNames, located_singleton, located, List.map_nil,
      List.mem_singleton] at mem
    subst mem
    exact ⟨rfl, by simp, by simp [finalId]⟩
  | cons n rest ih =>
    rw [List.foldr_cons, ofNames, located_singleton, List.mem_cons, List.mem_map] at mem
    rcases mem with rfl | ⟨inner, among, rfl⟩
    · exact ⟨rfl, by simp, by simp [finalId]⟩
    · obtain ⟨noFiles, -, follows⟩ := ih among
      refine ⟨noFiles, by simp, ?_⟩
      rw [List.cons_append, List.map_cons, List.cons_prefix_cons]
      exact ⟨rfl, follows⟩

end Dir

/-! ## Extended trees -/

/-- `after` is `before` with more directories, for which the bookings were written.  They hold no
files, and their id paths are `made`. -/
structure Extended (made : List String → Prop) (bookings : List Booking)
    (before after : Element) : Prop where
  tidy : Tidy after
  tag : after.tag = before.tag
  filesAt : ∀ path, after.filesAt? path = before.filesAt? path ∨
    before.filesAt? path = none ∧ after.filesAt? path = some [] ∧ made path
  componentIds : (after.idsNamed "Component").Perm
    (before.idsNamed "Component" ++ bookings.map fun booking => some booking.componentId)
  fileIds : (after.idsNamed "File").Perm (before.idsNamed "File")
  featureIds : (after.idsNamed "Feature").Perm (before.idsNamed "Feature")

namespace Extended

variable {made : List String → Prop} {bookings bookings₁ bookings₂ : List Booking}
  {before between after : Element}

theorem refl (tidy : Tidy before) : Extended made [] before before :=
  ⟨tidy, rfl, fun _ => .inl rfl, by simp, .refl _, .refl _⟩

theorem trans (first : Extended made bookings₁ before between)
    (second : Extended made bookings₂ between after) :
    Extended made (bookings₁ ++ bookings₂) before after where
  tidy := second.tidy
  tag := second.tag.trans first.tag
  filesAt := fun path => by
    rcases second.filesAt path with kept | ⟨missing, new, isMade⟩
    · rw [kept]
      exact first.filesAt path
    · rcases first.filesAt path with kept' | ⟨-, new', -⟩
      · exact .inr ⟨kept' ▸ missing, new, isMade⟩
      · rw [new'] at missing
        cases missing
  componentIds := by
    rw [List.map_append, ← List.append_assoc]
    exact second.componentIds.trans (first.componentIds.append_right _)
  fileIds := second.fileIds.trans first.fileIds
  featureIds := second.featureIds.trans first.featureIds

theorem mono {made' : List String → Prop} (extended : Extended made bookings before after)
    (implies : ∀ path, made path → made' path) : Extended made' bookings before after :=
  { extended with
    filesAt := fun path => (extended.filesAt path).imp_right fun ⟨missing, new, isMade⟩ =>
      ⟨missing, new, implies path isMade⟩ }

/-- A directory that is there stays there. -/
theorem isSome_filesAt (extended : Extended made bookings before after) {path : List String}
    (present : (before.filesAt? path).isSome = true) : (after.filesAt? path).isSome = true := by
  rcases extended.filesAt path with kept | ⟨missing, -, -⟩
  · rw [kept]
    exact present
  · rw [missing] at present
    cases present

/-- An extension of the directory at a path extends the whole tree below that path. -/
theorem within_at {focus : Focus Element} {whole e : Element} {front : List String}
    (isAt : focus.IsAt whole front) (tidy : Tidy whole)
    (extended : Extended made bookings focus.node e) :
    Extended (fun path => ∃ back, path = front ++ back ∧ made back) bookings whole
      (focus.put e) := by
  have place := isAt.isPlace
  -- what is there now is what putting it back would give
  have old : ∀ rest, whole.heldAt? (front ++ rest) = focus.node.heldAt? rest := by
    intro rest
    rw [← isAt.heldAt?_put rfl, place.put_node]
  have same : ∀ name, (e.idsNamed name).Perm (focus.node.idsNamed name) →
      ((focus.put e).idsNamed name).Perm (whole.idsNamed name) := fun name kept => by
    have grown : (e.idsNamed name).Perm (focus.node.idsNamed name ++ []) := by
      rw [List.append_nil]
      exact kept
    simpa using Focus.perm_append_of_exchange (place.idsNamed_put name e) grown
  refine ⟨place.tidy_put tidy extended.tag extended.tidy, place.tag_put extended.tag,
    fun path => ?_, ?_, same "File" extended.fileIds, same "Feature" extended.featureIds⟩
  -- paths into the changed directory are read in it, all others are kept
  · by_cases inside : front <+: path
    · obtain ⟨back, rfl⟩ := inside
      have new : (focus.put e).filesAt? (front ++ back) = e.filesAt? back := by
        rw [filesAt?, isAt.heldAt?_put extended.tag, ← filesAt?]
      have same : whole.filesAt? (front ++ back) = focus.node.filesAt? back := by
        rw [filesAt?, old, ← filesAt?]
      rw [new, same]
      rcases extended.filesAt back with kept | ⟨missing, made', isMade⟩
      · exact .inl kept
      · exact .inr ⟨missing, made', back, rfl, isMade⟩
    · rw [filesAt?, isAt.heldAt?_put_of_not_isPrefix extended.tag inside]
      exact .inl rfl
  · exact Focus.perm_append_of_exchange (place.idsNamed_put "Component" e) extended.componentIds

/-- The same for a directory whose path is not known. -/
theorem within {focus : Focus Element} {whole e : Element} (place : focus.IsPlace whole)
    (tidy : Tidy whole) (directory : focus.node.name = "Directory")
    (extended : Extended made bookings focus.node e) :
    ∃ front, whole.follow? front = some focus.node ∧
      Extended (fun path => ∃ back, path = front ++ back ∧ made back) bookings whole
        (focus.put e) := by
  obtain ⟨front, isAt⟩ := place.exists_isAt tidy directory
  exact ⟨front, isAt.follow, extended.within_at isAt tidy⟩

/-- Components without files go into a directory and change nothing else. -/
theorem addAll {components : List Element} (tidy : Tidy before)
    (added : MadeFor bookings components []) :
    Extended made bookings before (before.addAll components) where
  tidy := tidy.addAll fun x mem => added.only x mem "Directory" (by decide)
  tag := rfl
  filesAt := fun path => by
    have none : ∀ x ∈ components, x.name ≠ "Directory" :=
      fun x mem => (added.only x mem "Directory" (by decide)).here
    cases path with
    | nil =>
      refine .inl ?_
      rw [filesAt?, heldAt?_nil, holdings_addAll _ none, Option.map_some, List.filter_append,
        added.holders_eq, List.append_nil]
      rfl
    | cons first rest =>
      refine .inl ?_
      rw [filesAt?, heldAt?_addAll_cons _ none]
      rfl
  componentIds := by
    rw [idsNamed_addAll, added.componentIds]
  fileIds := by
    rw [idsNamed_addAll, added.fileIds]
    simp [heldFileIds]
  featureIds := by
    rw [idsNamed_addAll, added.featureIds, List.append_nil]

end Extended

/-! ## One location -/

variable {c : Compilation}

namespace Dir

/-- A chain adds directories only, since what it meets is kept. -/
theorem extended_chain {parent : Element} (names : List String) (start : Nat)
    (feature : Option String) (tidy : Tidy parent) (directory : parent.name = "Directory") :
    Extended (fun path => path ≠ [] ∧ path <+: chainIds names start)
      ((chain names start feature).bookings c parent) parent
      ((chain names start feature).place c parent) := by
  have placed : Placed c [chain names start feature] _ parent _ := placed_place tidy directory
  have noFiles : ∀ dir ∈ all [chain names start feature], dir.fileComponents c = [] :=
    fun dir mem => by
      obtain ⟨path, among⟩ := mem_all.mp mem
      rw [fileComponents, (located_chain among).1, List.map_nil]
  refine ⟨placed.tidy, placed.tag, fun path => ?_, placed.componentIds, ?_, placed.featureIds⟩
  · rw [placed.filesAt]
    -- a directory of the chain may be there already, and then it gets no more files
    cases found : atPath [chain names start feature] path with
    | nil => exact .inl (by simp [fileComponents?])
    | cons dir rest =>
      have mem : ∀ x ∈ dir :: rest, (path, x) ∈ located [chain names start feature] :=
        fun x among => mem_atPath.mp (found ▸ among)
      have empty : (dir :: rest).flatMap (fileComponents c) = [] :=
        List.flatMap_eq_nil_iff.mpr fun x among => noFiles x (mem_all.mpr ⟨path, mem x among⟩)
      have gained : fileComponents? c (dir :: rest) = some [] := by
        rw [fileComponents?, empty]
        rfl
      rw [gained]
      cases before : parent.filesAt? path with
      | none => exact .inr ⟨rfl, rfl, (located_chain (mem dir (List.mem_cons_self ..))).2⟩
      | some held => exact .inl (by simp)
  · have nothing : heldFileIds (allFileComponents c [chain names start feature]) = [] := by
      have none := List.flatMap_eq_nil_iff.mpr noFiles
      rw [allFileComponents, none]
      rfl
    simpa [nothing] using placed.fileIds

end Dir

/-- The id path belongs to a directory made for a shortcut location: it leads into the directory of
the longest declared initial part, or starts at the root if no part is declared, and goes on with
the ids of what is left of the location. -/
def Compilation.IsLocationPath (c : Compilation) (location : String) (path : List String) : Prop :=
  let anchor := Dir.anchor? c.project.dirs location
  ∃ front back, path = front ++ back ∧
    front.getLast? = anchor.map (fun found => found.1.finalId) ∧ back ≠ [] ∧
      back <+: Dir.chainIds (LogicalPath.components location) ((anchor.map Prod.snd).getD 0)

/-- Where the directories of a location begin: at the first directory with the id of its longest
declared part, or at the root if no part is declared. -/
def Compilation.anchorPath (c : Compilation) (root : Element) (location : String) : List String :=
  match Dir.anchor? c.project.dirs location with
  | none => []
  | some (dir, _) => (root.firstPlace? dir.finalId).getD []

namespace Dir

/-- The declared directories of the project are all in the tree. -/
def HasDeclared (c : Compilation) (root : Element) : Prop :=
  ∀ entry ∈ located c.project.dirs, (root.filesAt? entry.1).isSome = true

theorem isSome_filesAt? (e : Element) (path : List String) :
    (e.filesAt? path).isSome = (e.follow? path).isSome := by
  rw [filesAt?, Option.isSome_map, isSome_heldAt?]

/-- A declared directory is found below the root by its id. -/
theorem exists_focusById? {root : Element} {dir : Dir} (declared : HasDeclared c root)
    (mem : dir ∈ all c.project.dirs) :
    ∃ focus, root.focusById? "Directory" dir.finalId = some focus := by
  obtain ⟨path, among⟩ := mem_all.mp mem
  have present := declared _ among
  have last := getLast?_of_mem_located among
  rw [isSome_filesAt?, Option.isSome_iff_exists] at present
  obtain ⟨d, found⟩ := present
  obtain ⟨front, rfl⟩ := List.getLast?_eq_some_iff.mp last
  have id_eq : d.id? = some dir.finalId := follow?_id found
  -- a search that fails would have passed the directory at the end of the path
  cases search : root.focusById? "Directory" dir.finalId with
  | some focus => exact ⟨focus, rfl⟩
  | none =>
    obtain ⟨below, directory⟩ := Markup.Element.follow?_below found (by simp)
    have missing := focus?_eq_none search d below
    rw [← Bool.not_eq_true, hasNameAndId_eq_true] at missing
    exact absurd ⟨directory, id_eq⟩ missing

/-- The directories of a location extend the tree at the first directory with the id of its longest
declared part. -/
theorem extended_placeLocation_at {root : Element} (tidy : Tidy root)
    (directory : root.name = "Directory") (declared : HasDeclared c root) (location : String)
    (feature : Option String) :
    Extended (fun path => LogicalPath.components location ≠ [] ∧
        ∃ back, path = c.anchorPath root location ++ back ∧ back ≠ [] ∧
          back <+: chainIds (LogicalPath.components location)
            (((anchor? c.project.dirs location).map Prod.snd).getD 0))
      (locationBookings c root location feature) root
      (placeLocation c root location feature) := by
  rw [placeLocation, locationBookings, Compilation.anchorPath]
  by_cases empty : (LogicalPath.components location).isEmpty
  · simp only [empty, if_true]
    exact .refl tidy
  · have named : LogicalPath.components location ≠ [] := by simpa using empty
    simp only [empty]
    cases anchor : anchor? c.project.dirs location with
    | none =>
      refine (extended_chain _ 0 feature tidy directory).mono fun path isChain => ?_
      exact ⟨named, path, rfl, isChain.1, isChain.2⟩
    | some found =>
      obtain ⟨dir, n⟩ := found
      obtain ⟨focus, search⟩ := exists_focusById? declared (anchor?_mem anchor)
      obtain ⟨isDirectory, -⟩ := hasNameAndId_eq_true.mp (isPlace_of_focus? search).2
      obtain ⟨front, isAt, first⟩ := isAt_of_focus? tidy search
      -- the chain is placed in the directory that is found and seen below its path
      have chained := extended_chain (c := c) (LogicalPath.components location) n feature
        (isAt.isPlace.everywhere_node tidy) isDirectory
      simp only [search]
      refine (chained.within_at isAt tidy).mono fun path isMade => ?_
      obtain ⟨back, rfl, notEmpty, follows⟩ := isMade
      exact ⟨named, back, by simp [first], notEmpty, follows⟩

theorem getLast?_anchorPath {root : Element} (tidy : Tidy root) (declared : HasDeclared c root)
    (location : String) : (c.anchorPath root location).getLast? =
      (anchor? c.project.dirs location).map fun found => found.1.finalId := by
  rw [Compilation.anchorPath]
  cases anchor : anchor? c.project.dirs location with
  | none => rfl
  | some found =>
    obtain ⟨dir, n⟩ := found
    obtain ⟨focus, search⟩ := exists_focusById? declared (anchor?_mem anchor)
    obtain ⟨front, -, first⟩ := isAt_of_focus? tidy search
    simpa [first, endsIn] using List.find?_some first

theorem extended_placeLocation {root : Element} (tidy : Tidy root)
    (directory : root.name = "Directory") (declared : HasDeclared c root) (location : String)
    (feature : Option String) :
    Extended (c.IsLocationPath location) (locationBookings c root location feature) root
      (placeLocation c root location feature) := by
  refine (extended_placeLocation_at tidy directory declared location feature).mono
    fun path isMade => ?_
  obtain ⟨-, back, path_eq, notEmpty, follows⟩ := isMade
  exact ⟨_, back, path_eq, getLast?_anchorPath tidy declared location, notEmpty, follows⟩

/-- What one location does to a tree that keeps something, all locations do together. -/
theorem extended_placeLocations_of {made : List String → Prop} (keeps : Element → Prop)
    {locations : List (String × Option String)} {root : Element}
    (step : ∀ entry ∈ locations, ∀ {tree : Element}, Tidy tree → tree.name = "Directory" →
      HasDeclared c tree → keeps tree →
        Extended made (locationBookings c tree entry.1 entry.2) tree
            (placeLocation c tree entry.1 entry.2) ∧
          keeps (placeLocation c tree entry.1 entry.2))
    (tidy : Tidy root) (directory : root.name = "Directory") (declared : HasDeclared c root)
    (start : keeps root) :
    Extended made (locationsBookings c root locations) root (placeLocations c root locations) := by
  induction locations generalizing root with
  | nil => exact .refl tidy
  | cons entry rest ih =>
    rw [List.forall_mem_cons] at step
    obtain ⟨first, kept⟩ := step.1 tidy directory declared start
    rw [locationsBookings, placeLocations]
    exact first.trans (ih step.2 first.tidy ((name_eq_of_tag first.tag).trans directory)
      (fun known mem => first.isSome_filesAt (declared known mem)) kept)

/-- All shortcut locations together extend the tree of declared directories. -/
theorem extended_placeLocations {root : Element} (tidy : Tidy root)
    (directory : root.name = "Directory") (declared : HasDeclared c root)
    (locations : List (String × Option String)) :
    Extended (fun path => ∃ entry ∈ locations, c.IsLocationPath entry.1 path)
      (locationsBookings c root locations) root (placeLocations c root locations) :=
  extended_placeLocations_of (fun _ => True) (fun entry mem _ tidy directory declared _ =>
    ⟨(extended_placeLocation tidy directory declared entry.1 entry.2).mono
      fun _ isMade => ⟨entry, mem, isMade⟩, trivial⟩) tidy directory declared trivial

end Dir

end Installer
