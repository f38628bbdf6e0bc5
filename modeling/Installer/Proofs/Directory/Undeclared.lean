import Installer.Proofs.Directory.Parts
import Installer.Proofs.Product.Document

/-! # Locations without a directory

While files are emitted, the locations of their shortcuts are noted if no directory is declared for
them.  Afterwards each location gets its chain of directories, whose end is then there for good:
later chains only add directories.
-/

namespace Installer

open Markup (Element Focus)
open Markup.Element
open LogicalPath

/-! ## Noted locations -/

namespace Ledger

/-- The locations that were noted are kept once each. -/
theorem mem_foldl_withLocation {entries start : List (String × Option String)} {location : String} :
    location ∈ (entries.foldl withLocation start).map Prod.fst ↔
      location ∈ start.map Prod.fst ∨ location ∈ entries.map Prod.fst := by
  induction entries generalizing start with
  | nil => simp
  | cons entry rest ih =>
    have step : location ∈ (withLocation start entry).map Prod.fst ↔
        location ∈ start.map Prod.fst ∨ location = entry.1 := by
      rw [withLocation]
      split
      next known =>
        obtain ⟨old, mem, same⟩ := List.any_eq_true.mp known
        refine ⟨.inl, fun either => either.elim id fun equal => ?_⟩
        exact List.mem_map.mpr ⟨old, mem, by rw [equal]; simpa using same⟩
      next => simp
    rw [List.foldl_cons, ih, step, List.map_cons, List.mem_cons, or_assoc]

end Ledger

namespace Dir

/-- The locations of shortcuts for which no directory is declared. -/
def elsewhere (dirs : List Dir) : List String :=
  (notedIn dirs dirs).map Prod.fst

mutual

theorem notedBelow_eq (dirs : List Dir) : ∀ dir : Dir,
    notedBelow dirs dir = (allFiles [dir]).flatMap (File.noted dirs)
  | ⟨body, below⟩ => by
    rw [notedBelow, notedIn_eq dirs below, allFiles, allFiles, all_cons, all_nil, List.append_nil,
      List.flatMap_cons, List.flatMap_append]
    rfl

theorem notedIn_eq (dirs : List Dir) : ∀ below : List Dir,
    notedIn dirs below = (allFiles below).flatMap (File.noted dirs)
  | [] => rfl
  | dir :: rest => by
    rw [notedIn, notedBelow_eq dirs dir, notedIn_eq dirs rest,
      ← List.singleton_append (l := rest), allFiles, allFiles, allFiles, all_append,
      List.flatMap_append, List.flatMap_append]

end

theorem mem_elsewhere {dirs : List Dir} {location : String} :
    location ∈ elsewhere dirs ↔ ∃ file ∈ allFiles dirs, ∃ shortcut ∈ file.shortcuts,
      shortcut.isElsewhere dirs = true ∧ shortcut.location = location := by
  rw [elsewhere, notedIn_eq, List.map_flatMap, List.mem_flatMap]
  refine exists_congr fun file => and_congr_right fun _ => ?_
  rw [File.noted, List.map_flatMap, List.mem_flatMap]
  refine exists_congr fun shortcut => and_congr_right fun _ => ?_
  rw [Shortcut.noted]
  by_cases here : shortcut.isElsewhere dirs = true
  · simp [here, eq_comm]
  · simp [here]

theorem mem_undeclaredLocations {c : Compilation} {location : String} :
    location ∈ c.undeclaredLocations.map Prod.fst ↔ location ∈ elsewhere c.project.dirs := by
  rw [Compilation.undeclaredLocations, Ledger.mem_foldl_withLocation]
  simp [elsewhere]

/-! ## The end of a chain -/

variable {c : Compilation}

theorem exists_located_chain (names : List String) (start : Nat) (feature : Option String) :
    ∃ dir, (chainIds names start, dir) ∈ located [chain names start feature] := by
  rw [chain, chainIds]
  induction List.range' (start + 1) (names.length - 1 - start) with
  | nil =>
    refine ⟨ofNames names names.length feature [], ?_⟩
    simp [located_singleton, ofNames, finalId]
  | cons n rest ih =>
    obtain ⟨dir, inner⟩ := ih
    refine ⟨dir, ?_⟩
    rw [List.foldr_cons, ofNames, located_singleton]
    exact List.mem_cons_of_mem _ (List.mem_map.mpr ⟨_, inner, rfl⟩)

/-- The whole chain is there after it is placed. -/
theorem isSome_filesAt?_chain {parent : Element} (names : List String) (start : Nat)
    (feature : Option String) (tidy : Tidy parent) (directory : parent.name = "Directory") :
    (((chain names start feature).place c parent).filesAt? (chainIds names start)).isSome =
      true := by
  obtain ⟨dir, mem⟩ := exists_located_chain names start feature
  have found : atPath [chain names start feature] (chainIds names start) ≠ [] :=
    List.ne_nil_of_mem (mem_atPath.mpr mem)
  have placed : Placed c [chain names start feature] _ parent _ := placed_place tidy directory
  rw [placed.filesAt, fileComponents?, if_neg (by simpa using found)]
  cases parent.filesAt? (chainIds names start) <;> rfl

/-- The path leads to the end of the chain of a location. The chain has the identifiers of the
initial parts with more than `n` names, none of which is declared but for the location itself. It
starts in a directory with the id of the one that is declared for the part with `n` names, or else
in the root. -/
def IsChainEnd (dirs : List Dir) (location : String) (path : List String) : Prop :=
  let names := components location
  ∃ n front, path = front ++ chainIds names n ∧
    (∀ m, n < m → m < names.length → find? dirs (ofComponents (names.take m)) = none) ∧
      ((n = 0 ∧ front = []) ∨ ∃ dir, 0 < n ∧ n < names.length ∧
        find? dirs (ofComponents (names.take n)) = some dir ∧
          front.getLast? = some dir.finalId)

/-- The chain of a location that is placed in a tree ends in such a path. -/
theorem isChainEnd_anchorPath {root : Element} (tidy : Tidy root) (declared : HasDeclared c root)
    (location : String) : IsChainEnd c.project.dirs location (c.anchorPath root location ++
      chainIds (components location) (declaredLength c.project.dirs location)) := by
  refine ⟨declaredLength c.project.dirs location, _, rfl,
    fun m => find?_eq_none_of_declaredLength_lt, ?_⟩
  have ends := getLast?_anchorPath tidy declared location
  cases anchor : anchor? c.project.dirs location with
  | none =>
    simp only [anchor, Option.map_none, List.getLast?_eq_none_iff] at ends
    exact .inl ⟨by simp [declaredLength, anchor], ends⟩
  | some found =>
    obtain ⟨dir, n⟩ := found
    obtain ⟨positive, proper, found, -⟩ := anchor?_eq_some anchor
    simp only [anchor, Option.map_some] at ends
    simp only [declaredLength, anchor, Option.map_some, Option.getD_some]
    exact .inr ⟨dir, positive, proper, found, ends⟩

theorem exists_isChainEnd {root : Element} (tidy : Tidy root) (directory : root.name = "Directory")
    (declared : HasDeclared c root) {location : String} (named : components location ≠ [])
    (feature : Option String) : ∃ path, IsChainEnd c.project.dirs location path ∧
      ((placeLocation c root location feature).filesAt? path).isSome = true := by
  have notEmpty : (components location).isEmpty = false := by simpa using named
  refine ⟨_, isChainEnd_anchorPath tidy declared location, ?_⟩
  simp only [placeLocation, notEmpty, Bool.false_eq_true, if_false, Compilation.anchorPath,
    declaredLength]
  cases anchor : anchor? c.project.dirs location with
  | none => exact isSome_filesAt?_chain (c := c) (components location) 0 feature tidy directory
  | some found =>
    obtain ⟨dir, n⟩ := found
    obtain ⟨focus, search⟩ := exists_focusById? declared (anchor?_mem anchor)
    obtain ⟨isDirectory, -⟩ := hasNameAndId_eq_true.mp (isPlace_of_focus? search).2
    obtain ⟨front, isAt, first⟩ := isAt_of_focus? tidy search
    have inner := isAt.isPlace.everywhere_node tidy
    have placed := isSome_filesAt?_chain (c := c) (components location) n feature inner isDirectory
    have chained := extended_chain (c := c) (components location) n feature inner isDirectory
    simp only [search, first, Option.getD_some, Option.map_some]
    rw [filesAt?, isAt.heldAt?_put chained.tag, ← filesAt?]
    exact placed

/-- Each location has the end of its chain in the tree with the directories of all locations. -/
theorem exists_isChainEnd_of_mem {locations : List (String × Option String)} {root : Element}
    (tidy : Tidy root) (directory : root.name = "Directory") (declared : HasDeclared c root)
    {entry : String × Option String} (mem : entry ∈ locations) (named : components entry.1 ≠ []) :
    ∃ path, IsChainEnd c.project.dirs entry.1 path ∧
      ((placeLocations c root locations).filesAt? path).isSome = true := by
  induction locations generalizing root with
  | nil => cases mem
  | cons first rest ih =>
    have placed := extended_placeLocation tidy directory declared first.1 first.2
    have directory' := (name_eq_of_tag placed.tag).trans directory
    have declared' : HasDeclared c (placeLocation c root first.1 first.2) :=
      fun known isKnown => placed.isSome_filesAt (declared known isKnown)
    rw [placeLocations]
    cases List.mem_cons.mp mem with
    | inl here =>
      subst here
      obtain ⟨path, ends, present⟩ := exists_isChainEnd tidy directory declared named entry.2
      -- the chains of later locations leave it in place
      have later := extended_placeLocations placed.tidy directory' declared' rest
      exact ⟨path, ends, later.isSome_filesAt present⟩
    | inr among => exact ih placed.tidy directory' declared' among

end Dir

end Installer
