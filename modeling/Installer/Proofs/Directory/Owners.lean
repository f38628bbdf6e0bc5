import Installer.Proofs.Directory.Housed
import Installer.Proofs.Directory.Undeclared
import Installer.Proofs.Markup.FirstLine

/-! # The owners of components

A directory in the tree has a component of its own exactly if a directory that was declared for its
id path fills it, or if the chain of a shortcut location ends there.
-/

namespace Installer

open Markup (Element Focus)
open Markup.Element
open LogicalPath

namespace Markup.Element

theorem ownsAt_iff_heldAt? {e : Element} {path : List String} :
    e.OwnsAt path ↔ ∃ held, e.heldAt? path = some held ∧ ∃ x ∈ held, x.name = "Component" := by
  have held : ∀ d : Element, d.Owns ↔ ∃ x ∈ d.holdings, x.name = "Component" := fun d => by
    constructor
    · rintro ⟨x, mem, named⟩
      exact ⟨x, List.mem_filter.mpr ⟨mem, by simp [named]⟩, named⟩
    · rintro ⟨x, mem, named⟩
      exact ⟨x, (List.mem_filter.mp mem).1, named⟩
  simp only [OwnsAt, heldAt?, Option.map_eq_some_iff, held]
  constructor
  · rintro ⟨d, leads, owns⟩
    exact ⟨_, ⟨d, leads, rfl⟩, owns⟩
  · rintro ⟨_, ⟨d, leads, rfl⟩, owns⟩
    exact ⟨d, leads, owns⟩

theorem ownsAt_congr {e f : Element} {path path' : List String}
    (same : e.heldAt? path = f.heldAt? path') : e.OwnsAt path ↔ f.OwnsAt path' := by
  rw [ownsAt_iff_heldAt?, ownsAt_iff_heldAt?, same]

end Markup.Element

variable {c : Compilation}

namespace Dir

/-- One of the directories fills the element at the path. -/
def FillsAt (dirs : List Dir) (path : List String) : Prop :=
  ∃ dir ∈ atPath dirs path, dir.Fills

instance (dirs : List Dir) (path : List String) : Decidable (FillsAt dirs path) :=
  inferInstanceAs (Decidable (∃ dir ∈ atPath dirs path, dir.Fills))

theorem not_fillsAt_nil (dirs : List Dir) : ¬ FillsAt dirs [] := by
  simp [FillsAt, atPath_nil]

theorem fillsAt_cons (dir : Dir) (rest : List Dir) (path : List String) :
    FillsAt (dir :: rest) path ↔ FillsAt [dir] path ∨ FillsAt rest path := by
  have split : atPath (dir :: rest) path = atPath [dir] path ++ atPath rest path :=
    atPath_append [dir] rest path
  simp [FillsAt, split, or_and_right, exists_or]

theorem fillsAt_singleton (body : DirBody) (dirs : List Dir) (id : String) (path : List String) :
    FillsAt [⟨body, dirs⟩] (id :: path) ↔ id = finalId ⟨body, dirs⟩ ∧
      ((path = [] ∧ Fills ⟨body, dirs⟩) ∨ FillsAt dirs path) := by
  rw [FillsAt, atPath_singleton]
  by_cases here : id = finalId ⟨body, dirs⟩
  · cases path <;> simp [here, FillsAt, or_and_right, exists_or]
  · simp [here]

/-! ## Placing directories -/

/-- Who owned components before the directory was opened and filled, and the directory itself if it
fills its element. -/
theorem ownsAt_filled {parent : Element} (dir : Dir) (tidy : Tidy parent)
    (directory : parent.name = "Directory") (path : List String) :
    (dir.filled c parent).OwnsAt path ↔
      parent.OwnsAt (dir.finalId :: path) ∨ (path = [] ∧ dir.Fills) := by
  have sub := dir.isSubdirectory_placeIn tidy directory
  have none : ∀ x ∈ dir.contents c (dir.placeIn parent).node, x.name ≠ "Directory" :=
    fun x mem => ((dir.madeFor_contents (c := c) _).only x mem "Directory" (by decide)).here
  cases path with
  | nil =>
    have before : (dir.placeIn parent).node.Owns ↔ parent.OwnsAt [dir.finalId] := by
      rw [← ownsAt_nil, ownsAt_iff_heldAt?, ownsAt_iff_heldAt?, sub.node_nil]
      cases parent.heldAt? [dir.finalId] <;> simp
    rw [ownsAt_nil, owns_filled, before]
    simp
  | cons first rest =>
    rw [filled, ownsAt_congr (heldAt?_addAll_cons _ none first rest),
      ownsAt_congr (sub.node_cons first rest)]
    simp

mutual

theorem ownsAt_place : ∀ {dir : Dir} {parent : Element}, Tidy parent →
    parent.name = "Directory" → ∀ path, (dir.place c parent).OwnsAt path ↔
      parent.OwnsAt path ∨ FillsAt [dir] path
  | ⟨body, dirs⟩, parent, tidy, directory, path => by
    have sub := isSubdirectory_placeIn ⟨body, dirs⟩ tidy directory
    have inner := ownsAt_placeAll dirs (tidy_filled (c := c) ⟨body, dirs⟩ tidy directory)
      (hasNameAndId_eq_true.mp (hasNameAndId_placeIn ⟨body, dirs⟩ parent)).1
    have same : (placeAll c dirs (filled c ⟨body, dirs⟩ parent)).tag =
        (placeIn ⟨body, dirs⟩ parent).node.tag := tag_placeAll dirs _
    rw [place]
    cases path with
    | nil =>
      rw [ownsAt_congr (sub.apart _ same [] (by simp))]
      simp [not_fillsAt_nil]
    | cons id path =>
      rw [fillsAt_singleton]
      by_cases here : id = finalId ⟨body, dirs⟩
      · subst here
        rw [ownsAt_congr (sub.below _ same path), inner, ownsAt_filled _ tidy directory]
        simp only [true_and, or_assoc]
      · rw [ownsAt_congr (sub.apart _ same (id :: path) (by simpa using here))]
        simp [here]

theorem ownsAt_placeAll : ∀ (dirs : List Dir) {parent : Element}, Tidy parent →
    parent.name = "Directory" → ∀ path, (placeAll c dirs parent).OwnsAt path ↔
      parent.OwnsAt path ∨ FillsAt dirs path
  | [], parent, _, _, path => by
    rw [placeAll]
    simp [FillsAt, atPath, located]
  | dir :: rest, parent, tidy, directory, path => by
    have placed : Placed c [dir] _ parent _ := placed_place tidy directory
    have directory' := (name_eq_of_tag (tag_place (c := c) dir parent)).trans directory
    rw [placeAll, ownsAt_placeAll rest placed.tidy directory', ownsAt_place tidy directory,
      fillsAt_cons dir rest, or_assoc]

end

/-! ## Shortcut locations -/

/-- Only the last directory of a chain fills its element. -/
theorem fillsAt_chain {names : List String} {start : Nat} {feature : Option String}
    {path : List String} :
    FillsAt [chain names start feature] path ↔ path = chainIds names start := by
  rw [chain, chainIds]
  induction List.range' (start + 1) (names.length - 1 - start) generalizing path with
  | nil =>
    cases path with
    | nil => simp [not_fillsAt_nil]
    | cons id path =>
      rw [List.foldr_nil, ofNames, fillsAt_singleton]
      simp [finalId, Fills, FillsAt, atPath, located]
  | cons n rest ih =>
    cases path with
    | nil => simp [not_fillsAt_nil]
    | cons id path =>
      rw [List.foldr_cons, ofNames, fillsAt_singleton, ih]
      simp [finalId, Fills, DirBody.isBare]

/-- A location makes the end of its chain own a component and leaves all other paths alone. -/
theorem ownsAt_placeLocation {root : Element} (tidy : Tidy root)
    (directory : root.name = "Directory") (declared : HasDeclared c root) (location : String)
    (feature : Option String) (path : List String) :
    (placeLocation c root location feature).OwnsAt path ↔ root.OwnsAt path ∨
      (components location ≠ [] ∧ path = c.anchorPath root location ++
        chainIds (components location) (declaredLength c.project.dirs location)) := by
  rw [placeLocation, Compilation.anchorPath, declaredLength]
  by_cases empty : components location = []
  · simp [empty]
  simp only [List.isEmpty_iff, empty, if_false]
  cases anchor : anchor? c.project.dirs location with
  | none =>
    rw [ownsAt_place tidy directory, fillsAt_chain]
    simp [empty]
  | some found =>
    obtain ⟨dir, n⟩ := found
    obtain ⟨focus, search⟩ := exists_focusById? declared (anchor?_mem anchor)
    obtain ⟨isDirectory, -⟩ := hasNameAndId_eq_true.mp (isPlace_of_focus? search).2
    obtain ⟨front, isAt, first⟩ := isAt_of_focus? tidy search
    have same := tag_place (c := c) (chain (components location) n feature) focus.node
    simp only [search, first, Option.getD_some, Option.map_some]
    -- the chain is put at the place of the anchor, and nothing changes elsewhere
    by_cases inside : front <+: path
    · obtain ⟨back, rfl⟩ := inside
      have old : root.OwnsAt (front ++ back) ↔ focus.node.OwnsAt back :=
        ownsAt_congr (by rw [← isAt.heldAt?_put rfl, isAt.isPlace.put_node])
      rw [ownsAt_congr (isAt.heldAt?_put same back), old,
        ownsAt_place (isAt.isPlace.everywhere_node tidy) isDirectory, fillsAt_chain]
      simp [empty]
    · rw [ownsAt_congr (isAt.heldAt?_put_of_not_isPrefix same inside)]
      have other : path ≠ front ++ chainIds (components location) n := fun equal =>
        inside (equal ▸ List.prefix_append _ _)
      simp [other]

/-- The chains of all locations leave owners alone, and new ones are at their ends. -/
theorem ownsAt_placeLocations {locations : List (String × Option String)} {root : Element}
    (tidy : Tidy root) (directory : root.name = "Directory") (declared : HasDeclared c root)
    (path : List String) :
    (root.OwnsAt path → (placeLocations c root locations).OwnsAt path) ∧
      ((placeLocations c root locations).OwnsAt path → root.OwnsAt path ∨
        ∃ entry ∈ locations, IsChainEnd c.project.dirs entry.1 path) := by
  induction locations generalizing root with
  | nil => exact ⟨id, .inl⟩
  | cons entry rest ih =>
    have placed := extended_placeLocation tidy directory declared entry.1 entry.2
    have step := ownsAt_placeLocation tidy directory declared entry.1 entry.2 path
    obtain ⟨kept, new⟩ := ih placed.tidy ((name_eq_of_tag placed.tag).trans directory)
      fun known mem => placed.isSome_filesAt (declared known mem)
    rw [placeLocations]
    refine ⟨fun owns => kept (step.mpr (.inl owns)), fun owns => ?_⟩
    rcases new owns with before | ⟨later, mem, ends⟩
    · rcases step.mp before with old | ⟨-, rfl⟩
      · exact .inl old
      · exact .inr ⟨entry, List.mem_cons_self .., isChainEnd_anchorPath tidy declared entry.1⟩
    · exact .inr ⟨later, List.mem_cons_of_mem _ mem, ends⟩

end Dir

/-! ## The whole tree -/

namespace Compilation

theorem ownsAt_tree_of_fillsAt {path : List String} (fills : Dir.FillsAt c.project.dirs path) :
    c.tree.OwnsAt path := by
  have declared : c.declaredTree.OwnsAt path :=
    (Dir.ownsAt_placeAll _ tidy_emptyRoot rfl path).mpr (.inr fills)
  exact (Dir.ownsAt_placeLocations placed_declaredTree.tidy
    (name_eq_of_tag (placed_declaredTree (c := c)).tag) hasDeclared_declaredTree path).1 declared

/-- Whoever has a component is filled by a declared directory or ends the chain of a location. -/
theorem fillsAt_or_isChainEnd {path : List String} (owns : c.tree.OwnsAt path) :
    Dir.FillsAt c.project.dirs path ∨
      ∃ location ∈ Dir.elsewhere c.project.dirs, Dir.IsChainEnd c.project.dirs location path := by
  have nobody : ¬ emptyRoot.OwnsAt path := by
    cases path with
    | nil => simp [ownsAt_nil, Owns, emptyRoot]
    | cons id path => simp [OwnsAt, follow?, emptyRoot]
  rcases (Dir.ownsAt_placeLocations placed_declaredTree.tidy
    (name_eq_of_tag (placed_declaredTree (c := c)).tag) hasDeclared_declaredTree path).2
      owns with declared | ⟨entry, mem, ends⟩
  · exact .inl (((Dir.ownsAt_placeAll _ tidy_emptyRoot rfl path).mp declared).resolve_left nobody)
  · exact .inr ⟨entry.1, Dir.mem_undeclaredLocations.mp (List.mem_map_of_mem mem), ends⟩

theorem not_ownsAt_tree_nil : ¬ c.tree.OwnsAt [] := by
  intro owns
  rcases fillsAt_or_isChainEnd owns with fills | ⟨location, -, n, front, path_eq, -⟩
  · exact Dir.not_fillsAt_nil _ fills
  · have last := Dir.getLast?_chainIds (components location) n
    rw [(List.append_eq_nil_iff.mp path_eq.symm).2] at last
    cases last

end Compilation

end Installer
