import Installer.Proofs.Directory.Generated
import Installer.Proofs.Directory.Words
import Installer.Proofs.Markup.Home

/-! # Every directory is settled

Placing a directory never leaves an empty one behind: whoever has no subdirectory gets a component.
While directories are placed in an element, the directories below it are settled all the time, and
the element itself is settled after the first of them.
-/

namespace Installer

open Markup (Element)
open Markup.Element

/-! ## What a directory fills -/

/-- Nothing in the directory needs a component. -/
def DirBody.isBare (body : DirBody) : Bool :=
  body.feature.isNone && body.files.isEmpty && body.shortcuts.isEmpty && body.permissions.isEmpty

namespace Dir

/-- The directory puts a component into its element or finds one there. -/
def Fills (dir : Dir) : Prop :=
  dir.isBare = false ∨ dir.dirs = []

instance (dir : Dir) : Decidable dir.Fills :=
  match bare : dir.isBare, dirs : dir.dirs with
  | false, _ => .isTrue (.inl bare)
  | true, [] => .isTrue (.inr dirs)
  | true, _ :: _ => .isFalse (by simp [Fills, bare, dirs])

end Dir

variable {c : Compilation}

theorem DirBody.exists_component_contents {id : String} {body : DirBody} :
    (∃ x ∈ body.contents c id, x.name = "Component") ↔ body.isBare = false := by
  obtain ⟨name, id', feature, files, shortcuts, permissions, modules⟩ := body
  cases feature <;> cases files <;> cases shortcuts <;> cases permissions <;>
    simp [contents, isBare, folderComponent, Compilation.component, File.component,
      Shortcut.component, Permission.component, MergeModule.element, or_and_right, exists_or]

theorem DirBody.exists_component_emptyContents {id : String} {hasComponent : Bool}
    {body : DirBody} :
    (∃ x ∈ body.emptyContents c id hasComponent, x.name = "Component") ↔ hasComponent = false := by
  cases hasComponent <;>
    simp [emptyContents, folderComponent, Compilation.component, MergeModule.element]

namespace Dir

/-- The element of a directory owns a component if it did before or if the directory fills it. -/
theorem owns_filled {dir : Dir} {parent : Element} :
    (dir.filled c parent).Owns ↔ (dir.placeIn parent).node.Owns ∨ dir.Fills := by
  have split : (dir.filled c parent).Owns ↔ (dir.placeIn parent).node.Owns ∨
      ∃ x ∈ dir.contents c (dir.placeIn parent).node, x.name = "Component" := by
    simp [filled, Owns, or_and_right, exists_or]
  rw [split, contents, Fills]
  split
  next empty =>
    have leaf : dir.dirs = [] := by
      simp only [isEmpty, Bool.and_eq_true, List.isEmpty_iff] at empty
      exact empty.1.2
    rw [DirBody.exists_component_emptyContents, ← Bool.not_eq_true, isSome_child?]
    simp only [leaf, or_true, iff_true]
    exact em _
  next full =>
    rw [DirBody.exists_component_contents]
    -- a directory without subdirectories that is not empty is not bare either
    refine or_congr_right ⟨.inl, fun fills => fills.elim id fun leaf => ?_⟩
    rw [← Bool.not_eq_true]
    intro bare
    refine full ?_
    simp only [DirBody.isBare, Bool.and_eq_true] at bare
    simp [isEmpty, leaf, bare]

theorem hasNameAndId_placeIn (dir : Dir) (parent : Element) :
    hasNameAndId "Directory" dir.finalId (dir.placeIn parent).node = true := by
  obtain ⟨-, -, -, -, found | made⟩ := elements_focusChildOr parent
    (hasNameAndId "Directory" dir.finalId) dir.element
  · exact found.2
  · rw [placeIn, made]
    exact dir.hasNameAndId_element

theorem tag_place (dir : Dir) (parent : Element) : (dir.place c parent).tag = parent.tag := by
  obtain ⟨body, dirs⟩ := dir
  obtain ⟨_, _, put, -, -⟩ := elements_focusChildOr parent
    (hasNameAndId "Directory" (finalId ⟨body, dirs⟩)) (element ⟨body, dirs⟩)
  rw [place]
  exact (put _).1

theorem tag_placeAll (dirs : List Dir) (parent : Element) :
    (placeAll c dirs parent).tag = parent.tag := by
  induction dirs generalizing parent with
  | nil => rw [placeAll]
  | cons dir rest ih => rw [placeAll, ih, tag_place]

/-! ## Placing directories -/

mutual

/-- Where the directories in an element are settled they stay so, and there is one afterwards. -/
theorem housed_place : ∀ (dir : Dir) {parent : Element}, (∀ x ∈ parent.elements, x.Housed) →
    (∀ x ∈ (dir.place c parent).elements, x.Housed) ∧
      ∃ x ∈ (dir.place c parent).elements, x.name = "Directory"
  | ⟨body, dirs⟩, parent, below => by
    obtain ⟨front, back, put, others, node⟩ := elements_focusChildOr parent
      (hasNameAndId "Directory" (finalId ⟨body, dirs⟩)) (element ⟨body, dirs⟩)
    have start : ∀ x ∈ (filled c ⟨body, dirs⟩ parent).elements, x.Housed := by
      rw [filled, elements_addAll, List.forall_mem_append]
      constructor
      · rcases node with ⟨old, -⟩ | made
        · exact fun x mem => (below _ old).child mem
        · rw [placeIn, made]
          simp [element]
      · exact fun x mem =>
          housed_of_only ((madeFor_contents _ _).only x mem "Directory" (by decide))
    obtain ⟨inside, settled⟩ := housed_placeAll dirs start
    have directory : (placeAll c dirs (filled c ⟨body, dirs⟩ parent)).name = "Directory" := by
      rw [name_eq_of_tag (tag_placeAll dirs _), filled, name_addAll]
      exact (hasNameAndId_eq_true.mp (hasNameAndId_placeIn _ parent)).1
    have housed : (placeAll c dirs (filled c ⟨body, dirs⟩ parent)).Housed := by
      refine housed_iff.mpr ⟨fun _ => settled ?_, inside⟩
      -- a directory without subdirectories fills its element
      by_cases leaf : dirs = []
      · exact .inl (owns_filled.mpr (.inr (.inr leaf))).settled
      · exact .inr leaf
    rw [place, placeIn, (put _).2]
    refine ⟨?_, _, List.mem_append_right _ (List.mem_cons_self ..), directory⟩
    simp only [List.forall_mem_append, List.forall_mem_cons] at others ⊢
    exact ⟨fun x mem => below x (others.1 x mem), housed, fun x mem => below x (others.2 x mem)⟩

theorem housed_placeAll : ∀ (dirs : List Dir) {parent : Element},
    (∀ x ∈ parent.elements, x.Housed) →
      (∀ x ∈ (placeAll c dirs parent).elements, x.Housed) ∧
        (parent.Settled ∨ dirs ≠ [] → (placeAll c dirs parent).Settled)
  | [], parent, below => by
    rw [placeAll]
    exact ⟨below, fun settled => settled.resolve_right fun some => some rfl⟩
  | dir :: rest, parent, below => by
    obtain ⟨placed, x, mem, directory⟩ := housed_place dir below
    obtain ⟨inside, settled⟩ := housed_placeAll rest placed
    rw [placeAll]
    exact ⟨inside, fun _ => settled (.inl ⟨x, mem, .inr directory⟩)⟩

end

theorem Housed.place {parent : Element} (housed : parent.Housed) (dir : Dir) :
    (dir.place c parent).Housed := by
  obtain ⟨below, x, mem, directory⟩ := housed_place (c := c) dir fun x mem => housed.child mem
  exact housed_iff.mpr ⟨fun _ => ⟨x, mem, .inr directory⟩, below⟩

/-! ## Shortcut locations -/

theorem housed_placeLocation {root : Element} (housed : root.Housed) (location : String)
    (feature : Option String) : (placeLocation c root location feature).Housed := by
  rcases exists_placeLocation (c := c) root location feature with
    same | ⟨focus, _, _, place, -, chained⟩
  · rwa [same]
  · rw [chained]
    exact place.everywhere housed (tag_place _ _) (Housed.place (place.everywhere_node housed) _)

theorem tag_placeLocation (root : Element) (location : String) (feature : Option String) :
    (placeLocation c root location feature).tag = root.tag := by
  rcases exists_placeLocation (c := c) root location feature with
    same | ⟨focus, _, _, place, -, chained⟩
  · rw [same]
  · rw [chained]
    exact place.tag_put (tag_place _ _)

theorem housed_placeLocations {root : Element} (housed : root.Housed)
    (locations : List (String × Option String)) : (placeLocations c root locations).Housed := by
  induction locations generalizing root with
  | nil => exact housed
  | cons entry rest ih => exact ih (housed_placeLocation housed _ _)

end Dir

/-! ## The whole tree -/

theorem Compilation.housed_tree (some : c.project.dirs ≠ []) : c.tree.Housed := by
  have start : ∀ x ∈ emptyRoot.elements, x.Housed := by simp [emptyRoot]
  obtain ⟨below, settled⟩ := Dir.housed_placeAll (c := c) c.project.dirs start
  exact Dir.housed_placeLocations (housed_iff.mpr ⟨fun _ => settled (.inr some), below⟩) _

/-! ## Prepared projects -/

namespace Dir

theorem assignFirst?_ne_nil {id : String} {dirs : List Dir} {assigned : List Dir × String}
    (given : assignFirst? id dirs = some assigned) : assigned.1 ≠ [] := by
  cases dirs with
  | nil => cases given
  | cons dir rest =>
    rw [assignFirst?, Option.map_eq_some_iff] at given
    obtain ⟨first, -, rfl⟩ := given
    exact List.cons_ne_nil _ _

theorem shape_ne_nil {installId : String} {dirs : List Dir} (some : dirs ≠ []) :
    (shape installId dirs).1 ≠ [] := by
  rw [shape]
  split
  next assigned _ given =>
    split at given
    next => cases given
    next => exact assignFirst?_ne_nil given
  next =>
    cases dirs with
    | nil => exact absurd rfl some
    | cons dir rest => exact List.cons_ne_nil _ _

end Dir

theorem Project.dirs_widened_ne_nil (project : Project) (options : Options) :
    (project.withSomeDir.widened options).dirs ≠ [] := by
  have some_ : project.withSomeDir.dirs ≠ [] := by
    rw [withSomeDir]
    split
    next => exact List.cons_ne_nil _ _
    next declared => simpa using declared
  rw [Project.widened]
  split
  next =>
    cases dirs : project.withSomeDir.dirs with
    | nil => exact absurd dirs some_
    | cons dir rest => exact List.cons_ne_nil _ _
  next => exact some_

theorem Project.dirs_prepare_ne_nil (project : Project) (options : Options) :
    (project.prepare options).project.dirs ≠ [] := by
  have shaped : project.shapedDirs options ≠ [] :=
    Dir.shape_ne_nil (project.dirs_widened_ne_nil options)
  intro none
  have same := project.withoutIds_prepare options
  cases dirs : project.shapedDirs options with
  | nil => exact shaped dirs
  | cons dir rest =>
    rw [none, dirs, Dir.withoutIdsAll, Dir.withoutIdsAll] at same
    cases same

end Installer
