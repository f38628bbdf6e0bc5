import Installer.Proofs.Directory.Location
import Installer.Proofs.Folder.Identifier

/-! # The parts of a shortcut location

A location is looked at from its longest initial part down to the first that is declared.  The
parts that are longer get directories, and `Dir.newParts` lists them.  All that is done with a part
depends on its names only, so it does not matter which location it is a part of.
-/

namespace Installer

open LogicalPath

/-! ## Searches from the end of a range -/

theorem findSome?_reverse_range_succ {α : Type} (f : Nat → Option α) (k : Nat) :
    (List.range (k + 1)).reverse.findSome? f = (f k).or ((List.range k).reverse.findSome? f) := by
  rw [List.range_succ, List.reverse_append, List.reverse_singleton, List.singleton_append,
    List.findSome?_cons]
  cases f k <;> rfl

theorem findSome?_reverse_range_congr {α : Type} {f g : Nat → Option α} {k : Nat}
    (same : ∀ n < k, f n = g n) :
    (List.range k).reverse.findSome? f = (List.range k).reverse.findSome? g := by
  induction k with
  | zero => rfl
  | succ k ih =>
    rw [findSome?_reverse_range_succ, findSome?_reverse_range_succ, same k (by omega),
      ih fun n below => same n (by omega)]

/-- The search ends at the last number that has a result. -/
theorem findSome?_reverse_range {α : Type} {f : Nat → Option α} {k : Nat} {result : α}
    (found : (List.range k).reverse.findSome? f = some result) :
    ∃ n < k, f n = some result ∧ ∀ m, n < m → m < k → f m = none := by
  induction k with
  | zero => cases found
  | succ k ih =>
    rw [findSome?_reverse_range_succ, Option.or_eq_some_iff] at found
    cases found with
    | inl last => exact ⟨k, by omega, last, fun m above below => by omega⟩
    | inr earlier =>
      obtain ⟨none, among⟩ := earlier
      obtain ⟨n, below, here, later⟩ := ih among
      refine ⟨n, by omega, here, fun m above bound => ?_⟩
      by_cases last : m = k
      · rw [last]
        exact none
      · exact later m above (by omega)

/-- Numbers without a result may be left out at the end. -/
theorem findSome?_reverse_range_of_none {α : Type} {f : Nat → Option α} {j k : Nat} (le : j ≤ k)
    (none : ∀ m, j ≤ m → m < k → f m = none) :
    (List.range k).reverse.findSome? f = (List.range j).reverse.findSome? f := by
  induction k with
  | zero =>
    cases Nat.le_zero.mp le
    rfl
  | succ k ih =>
    by_cases all : j = k + 1
    · rw [all]
    · rw [findSome?_reverse_range_succ, none k (by omega) (by omega), Option.none_or]
      exact ih (by omega) fun m above below => none m above (by omega)

theorem mem_takeWhile_reverse_range {p : Nat → Bool} {n k : Nat} (lt : n < k)
    (holds : ∀ m, n ≤ m → m < k → p m = true) : n ∈ (List.range k).reverse.takeWhile p := by
  induction k with
  | zero => omega
  | succ k ih =>
    rw [List.range_succ, List.reverse_append, List.reverse_singleton, List.singleton_append,
      List.takeWhile_cons_of_pos (holds k (by omega) (by omega)), List.mem_cons]
    by_cases last : n = k
    · exact .inl last
    · exact .inr (ih (by omega) fun m above below => holds m above (by omega))

namespace Dir

variable {dirs : List Dir} {location : String}

/-! ## Finding by names -/

/-- To find a directory only the names in a path are looked at. -/
theorem find?_congr {path path' : String} (same : components path = components path') :
    find? dirs path = find? dirs path' := by
  rw [find?, find?, same]

/-- A path with several names is followed by its names, ids do not matter. -/
theorem find?_of_several {path : String} (several : 2 ≤ (components path).length) :
    find? dirs path = followIn? dirs (components path) := by
  rw [find?]
  split
  next name single => simp [single] at several
  next => rfl

/-! ## The longest declared part -/

/-- How many names there are in the longest declared proper initial part of a location. -/
def declaredLength (dirs : List Dir) (location : String) : Nat :=
  ((anchor? dirs location).map Prod.snd).getD 0

theorem anchor?_eq (dirs : List Dir) (location : String) :
    anchor? dirs location =
      (List.range ((components location).length - 1)).reverse.findSome? fun n =>
        (find? dirs (ofComponents ((components location).take (n + 1)))).map fun dir =>
          (dir, n + 1) := by
  have proper : ((List.range (components location).length).reverse).drop 1 =
      (List.range ((components location).length - 1)).reverse := by
    cases (components location).length with
    | zero => rfl
    | succ k =>
      rw [List.range_succ, List.reverse_append]
      rfl
  rw [anchor?, initials, ← List.map_drop, proper, List.findSome?_map]
  refine findSome?_reverse_range_congr fun n below => ?_
  have length : ((components location).take (n + 1)).length = n + 1 := by
    rw [List.length_take]
    omega
  simp only [Function.comp_apply, components_ofComponents_take, length]

theorem anchor?_eq_some {found : Dir} {n : Nat}
    (result : anchor? dirs location = some (found, n)) :
    0 < n ∧ n < (components location).length ∧
      find? dirs (ofComponents ((components location).take n)) = some found ∧
        ∀ m, n < m → m < (components location).length →
          find? dirs (ofComponents ((components location).take m)) = none := by
  rw [anchor?_eq] at result
  obtain ⟨last, below, here, later⟩ := findSome?_reverse_range result
  obtain ⟨dir, declared, equal⟩ := Option.map_eq_some_iff.mp here
  cases equal
  refine ⟨by omega, by omega, declared, fun m above bound => ?_⟩
  have none := later (m - 1) (by omega) (by omega)
  rwa [Option.map_eq_none_iff, Nat.sub_add_cancel (by omega)] at none

/-- No proper part of a location that is longer than its longest declared one is declared. -/
theorem find?_eq_none_of_declaredLength_lt {m : Nat} (above : declaredLength dirs location < m)
    (below : m < (components location).length) :
    find? dirs (ofComponents ((components location).take m)) = none := by
  cases anchor : anchor? dirs location with
  | some found =>
    simp only [declaredLength, anchor] at above
    exact (anchor?_eq_some anchor).2.2.2 m above below
  | none =>
    rw [anchor?_eq, List.findSome?_eq_none_iff] at anchor
    have none := anchor (m - 1) (by simp; omega)
    rwa [Option.map_eq_none_iff, Nat.sub_add_cancel (by omega)] at none

theorem declaredLength_of_nil (empty : components location = []) :
    declaredLength dirs location = 0 := by
  rw [declaredLength, anchor?_eq, empty]
  rfl

theorem declaredLength_lt (named : components location ≠ []) :
    declaredLength dirs location < (components location).length := by
  rw [declaredLength]
  cases anchor : anchor? dirs location with
  | none => exact List.length_pos_iff.mpr named
  | some found => exact (anchor?_eq_some anchor).2.1

/-! ## New parts -/

/-- The initial parts of a location that are longer than its longest declared proper one, each as
its names. They get directories when the location itself is not declared. -/
def newParts (dirs : List Dir) (location : String) : List (List String) :=
  (List.range' (declaredLength dirs location + 1)
    ((components location).length - declaredLength dirs location)).map (components location).take

theorem mem_newParts {part : List String} :
    part ∈ newParts dirs location ↔
      ∃ m, declaredLength dirs location < m ∧ m ≤ (components location).length ∧
        part = (components location).take m := by
  simp only [newParts, List.mem_map, List.mem_range'_1]
  constructor
  · rintro ⟨m, bounds, rfl⟩
    exact ⟨m, by omega, by omega, rfl⟩
  · rintro ⟨m, above, below, rfl⟩
    exact ⟨m, by omega, rfl⟩

theorem components_newPart {part : List String} (new : part ∈ newParts dirs location) :
    components (ofComponents part) = part := by
  obtain ⟨m, -, -, rfl⟩ := mem_newParts.mp new
  exact components_ofComponents_take location m

/-- A new part has the same longest declared part as the location it was taken from. -/
theorem anchor?_newPart {part : List String} (new : part ∈ newParts dirs location) :
    anchor? dirs (ofComponents part) = anchor? dirs location := by
  obtain ⟨m, above, below, rfl⟩ := mem_newParts.mp new
  have length : ((components location).take m).length = m := by
    rw [List.length_take]
    omega
  rw [anchor?_eq, anchor?_eq, components_ofComponents_take, length]
  -- the parts between the new one and the whole location are not declared
  have longer := findSome?_reverse_range_of_none (j := m - 1)
    (f := fun n => (find? dirs (ofComponents ((components location).take (n + 1)))).map fun dir =>
      (dir, n + 1))
    (k := (components location).length - 1) (by omega) fun n least most => by
      rw [Option.map_eq_none_iff]
      exact find?_eq_none_of_declaredLength_lt (by omega) (by omega)
  rw [longer]
  refine findSome?_reverse_range_congr fun n below => ?_
  rw [List.take_take, Nat.min_eq_left (by omega)]

/-! ## Chains -/

theorem chainIds_eq {names : List String} {start : Nat} (lt : start < names.length) :
    chainIds names start = (List.range' (start + 1) (names.length - start)).map fun n =>
      Folder.identifier (ofComponents (names.take n)) := by
  have last : start + 1 + 1 * (names.length - 1 - start) = names.length := by omega
  have count : names.length - 1 - start + 1 = names.length - start := by omega
  have ends : List.range' (start + 1) (names.length - 1 - start + 1) =
      List.range' (start + 1) (names.length - 1 - start) ++
        [start + 1 + 1 * (names.length - 1 - start)] := List.range'_concat
  rw [last, count] at ends
  rw [chainIds, ends]

theorem take_chainIds {names : List String} {start k : Nat} (bound : start + k ≤ names.length)
    (positive : 0 < k) :
    (chainIds names start).take k = chainIds (names.take (start + k)) start := by
  have length : (names.take (start + k)).length = start + k := by
    rw [List.length_take]
    omega
  rw [chainIds_eq (by omega), chainIds_eq (by omega), length, ← List.map_take,
    List.take_range'_of_length_ge (by omega), Nat.add_sub_cancel_left]
  refine List.map_congr_left fun n mem => ?_
  rw [List.mem_range'_1] at mem
  rw [List.take_take, Nat.min_eq_left (by omega)]

theorem getLast?_chainIds (names : List String) (start : Nat) :
    (chainIds names start).getLast? = some (Folder.identifier (ofComponents names)) := by
  rw [chainIds, List.map_append, List.getLast?_append]
  simp

/-- A path into a chain leads to the directory of a part, which has the identifier of the part. -/
theorem eq_chainIds_of_isPrefix {names path : List String} {start : Nat} (lt : start < names.length)
    (nonempty : path ≠ []) (follows : path <+: chainIds names start) :
    start + path.length ≤ names.length ∧
      path = chainIds (names.take (start + path.length)) start ∧
        path.getLast? =
          some (Folder.identifier (ofComponents (names.take (start + path.length)))) := by
  have positive : 0 < path.length := List.length_pos_iff.mpr nonempty
  have bound := follows.length_le
  rw [chainIds_eq lt, List.length_map, List.length_range'] at bound
  have path_eq : path = chainIds (names.take (start + path.length)) start := by
    rw [← take_chainIds (by omega) positive]
    exact List.prefix_iff_eq_take.mp follows
  refine ⟨by omega, path_eq, ?_⟩
  rw [← getLast?_chainIds (names.take (start + path.length)) start]
  exact congrArg List.getLast? path_eq

/-- A path into the chain of a location leads to the directory of a new part. -/
theorem exists_newPart {path : List String} (named : components location ≠ [])
    (nonempty : path ≠ [])
    (follows : path <+: chainIds (components location) (declaredLength dirs location)) :
    ∃ part ∈ newParts dirs location, path = chainIds part (declaredLength dirs location) ∧
      path.getLast? = some (Folder.identifier (ofComponents part)) := by
  obtain ⟨bound, path_eq, last⟩ :=
    eq_chainIds_of_isPrefix (declaredLength_lt named) nonempty follows
  have positive : 0 < path.length := List.length_pos_iff.mpr nonempty
  exact ⟨_, mem_newParts.mpr ⟨_, Nat.lt_add_of_pos_right positive, bound, rfl⟩, path_eq, last⟩

/-- The directories in a chain have the identifiers of the parts that they stand for. -/
theorem finalId_of_mem_chain {names : List String} {start : Nat} {feature : Option String}
    {entry : List String × Dir} (lt : start < names.length)
    (mem : entry ∈ located [chain names start feature]) :
    0 < entry.1.length ∧ start + entry.1.length ≤ names.length ∧
      entry.2.finalId =
        Folder.identifier (ofComponents (names.take (start + entry.1.length))) := by
  obtain ⟨-, nonempty, follows⟩ := located_chain mem
  obtain ⟨bound, -, last⟩ := eq_chainIds_of_isPrefix lt nonempty follows
  rw [getLast?_of_mem_located mem, Option.some.injEq] at last
  exact ⟨List.length_pos_iff.mpr nonempty, bound, last⟩

end Dir

end Installer
