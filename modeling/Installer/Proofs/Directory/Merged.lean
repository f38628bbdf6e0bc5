import Installer.Proofs.Directory.Housed
import Installer.Proofs.Directory.Modules
import Installer.Proofs.Directory.Words
import Installer.Proofs.Feature.Wiring

/-! # Merge modules in the tree of directories

The tree of directories shows each merge module of the directories once, and nothing else of
features and modules, whichever elements the directories share.
-/

namespace Installer

open Markup (Element Focus)
open Markup.Element

variable {c : Compilation}

theorem Markup.Element.IsDirPart.silent {e : Element} (part : e.IsDirPart) : e.Silent :=
  Everywhere.mono part fun _ word =>
    (by decide : ∀ w ∈ Dir.componentWords, w ∉ ["Feature", "Merge", "MergeRef"]) _ word

/-- What the element of a merge module shows. -/
def MergeModule.sight (c : Compilation) (module : MergeModule) : Sight :=
  .module (module.element c).tag

theorem MergeModule.survey_element (module : MergeModule) :
    (module.element c).survey sights = [module.sight c] := by
  have leaf : (module.element c).elements = [] := by simp [element]
  have name : (module.element c).tag.1 = "Merge" := name_withAttrs ..
  rw [survey_eq, leaf, sights, name]
  rfl

namespace Dir

variable {body : DirBody} {dirs : List Dir}

theorem survey_contents (dir : Dir) (e : Element) :
    (∀ x ∈ dir.contents c e, x.name ≠ "MergeRef") ∧
      (dir.contents c e).flatMap (survey sights) = dir.mergeModules.map (MergeModule.sight c) := by
  obtain ⟨front, back, contents, parts⟩ := exists_contents_eq c dir e
  have silent : ∀ x ∈ front ++ back, x.Silent := fun x mem => (parts x mem).silent
  rw [List.forall_mem_append] at silent
  have modules : (dir.mergeModules.map (MergeModule.element c)).flatMap (survey sights) =
      dir.mergeModules.map (MergeModule.sight c) := by
    rw [List.flatMap_map, List.map_eq_flatMap]
    simp only [MergeModule.survey_element]
  constructor
  · simp only [contents, List.forall_mem_append, List.forall_mem_map]
    refine ⟨⟨fun x mem => (silent.1 x mem).name_ne, fun module _ => ?_⟩,
      fun x mem => (silent.2 x mem).name_ne⟩
    simp [MergeModule.element]
  · rw [contents, List.flatMap_append, List.flatMap_append, modules,
      flatMap_survey_of_silent silent.1, flatMap_survey_of_silent silent.2, List.nil_append,
      List.append_nil]

/-- A directory that grows by something shows it in its parent. -/
theorem perm_survey_putIn {dir : Dir} {parent new : Element} {extra : List Sight}
    (directory : parent.name = "Directory") (same : new.tag = (dir.placeIn parent).node.tag)
    (grown : (new.survey sights).Perm ((dir.placeIn parent).node.survey sights ++ extra)) :
    (((dir.placeIn parent).put new).survey sights).Perm (parent.survey sights ++ extra) := by
  rcases focusChildOr_cases parent (hasNameAndId "Directory" dir.finalId) dir.element with
    ⟨place, -⟩ | missing
  · exact place.perm_survey_put same grown
  · rw [placeIn, missing] at same grown ⊢
    have empty : dir.element.survey sights = [] := by
      refine Silent.survey_eq_nil ?_
      simp [Silent, element]
    have name : new.name = "Directory" := name_eq_of_tag same
    rw [empty, List.nil_append] at grown
    rw [survey_add (by simp [directory]) (by simp [name])]
    exact grown.append_left _

mutual

theorem perm_survey_place : ∀ (dir : Dir) {parent : Element}, parent.name = "Directory" →
    ((dir.place c parent).survey sights).Perm
      (parent.survey sights ++ (modulesIn [dir]).map (MergeModule.sight c))
  | ⟨body, dirs⟩, parent, directory => by
    have name : (placeIn ⟨body, dirs⟩ parent).node.name = "Directory" :=
      (hasNameAndId_eq_true.mp (hasNameAndId_placeIn ⟨body, dirs⟩ parent)).1
    obtain ⟨noRefs, held⟩ :=
      survey_contents (c := c) ⟨body, dirs⟩ (placeIn ⟨body, dirs⟩ parent).node
    have below : ((placeAll c dirs (filled c ⟨body, dirs⟩ parent)).survey sights).Perm _ :=
      perm_survey_placeAll dirs name
    rw [place]
    refine perm_survey_putIn directory (tag_placeAll dirs _) (below.trans ?_)
    rw [filled, survey_addAll (by simp [name]) noRefs, held, modulesIn_singleton, List.map_append,
      List.append_assoc]

theorem perm_survey_placeAll : ∀ (dirs : List Dir) {parent : Element}, parent.name = "Directory" →
    ((placeAll c dirs parent).survey sights).Perm
      (parent.survey sights ++ (modulesIn dirs).map (MergeModule.sight c))
  | [], parent, _ => by
    rw [placeAll]
    simp [modulesIn, readAll]
  | dir :: rest, parent, directory => by
    have first := perm_survey_place dir directory
    have name := (name_eq_of_tag (tag_place (c := c) dir parent)).trans directory
    rw [placeAll, modulesIn_cons, List.map_append, ← List.append_assoc]
    exact (perm_survey_placeAll rest name).trans (first.append_right _)

end

/-! ## Shortcut locations -/

/-- The directories of a location hold no merge modules. -/
theorem perm_survey_placeLocation {root : Element} (directory : root.name = "Directory")
    (location : String) (feature : Option String) :
    ((placeLocation c root location feature).survey sights).Perm (root.survey sights) := by
  rcases exists_placeLocation (c := c) root location feature with
    same | ⟨focus, names, start, place, inner, chained⟩
  · rw [same]
  · have placed := perm_survey_place (c := c) (chain names start feature) (inner directory)
    rw [modulesIn_chain, List.map_nil] at placed
    have grown := place.perm_survey_put (tag_place _ _) placed
    rwa [chained, ← List.append_nil (root.survey sights)]

theorem perm_survey_placeLocations {root : Element} (directory : root.name = "Directory")
    (locations : List (String × Option String)) :
    ((placeLocations c root locations).survey sights).Perm (root.survey sights) := by
  induction locations generalizing root with
  | nil => exact .refl _
  | cons entry rest ih =>
    have name := (name_eq_of_tag (tag_placeLocation (c := c) root entry.1 entry.2)).trans directory
    exact (ih name).trans (perm_survey_placeLocation directory _ _)

end Dir

/-! ## The whole tree -/

namespace Compilation

theorem perm_survey_tree (c : Compilation) :
    (c.tree.survey sights).Perm
      ((Dir.modulesIn c.project.dirs).map (MergeModule.sight c)) := by
  have declared : (c.declaredTree.survey sights).Perm _ :=
    Dir.perm_survey_placeAll c.project.dirs (rfl : emptyRoot.name = "Directory")
  have name : c.declaredTree.name = "Directory" := name_eq_of_tag (Dir.tag_placeAll _ emptyRoot)
  have empty : emptyRoot.survey sights = [] := by
    refine Silent.survey_eq_nil ?_
    simp [Silent, emptyRoot]
  rw [empty, List.nil_append] at declared
  exact (Dir.perm_survey_placeLocations name _).trans declared

end Compilation

end Installer
