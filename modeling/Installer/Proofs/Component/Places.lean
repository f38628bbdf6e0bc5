import Installer.Proofs.Component.Entity
import Installer.Proofs.Directory.Turns

/-! # The places of components

Every component of an element is listed with the ids of the directories around it, from the
outermost to the innermost.  The list only grows when directories are placed in a tree, so no
component that is there is lost, changed or moved.
-/

namespace Installer

open Markup (Element Focus Node)
open Markup.Element

namespace Markup.Element

/-- What is inside a directory is one directory further down when it is seen from outside. -/
def enclose (e : Element) (place : List String × Element) : List String × Element :=
  if e.name == "Directory" then (e.id?.toList ++ place.1, place.2) else place

mutual

/-- The components inside an element with the ids of the directories around them, in document
order. -/
def componentPlaces : Element → List (List String × Element)
  | ⟨_, _, children⟩ => componentPlacesIn children
termination_by structural e => e

def componentPlacesIn : List (Node Element) → List (List String × Element)
  | [] => []
  | .element child :: rest =>
    (if child.name == "Component" then [([], child)] else []) ++
      (componentPlaces child).map child.enclose ++ componentPlacesIn rest
  | .text _ :: rest | .cdata _ :: rest => componentPlacesIn rest
termination_by structural nodes => nodes

end

def componentPlacesFrom (e : Element) : List (List String × Element) :=
  (if e.name == "Component" then [([], e)] else []) ++ e.componentPlaces.map e.enclose

theorem componentPlacesIn_eq (nodes : List (Node Element)) :
    componentPlacesIn nodes = (nodes.filterMap Node.element?).flatMap componentPlacesFrom := by
  induction nodes with
  | nil => rfl
  | cons node rest ih =>
    cases node with
    | element child =>
      rw [componentPlacesIn, ih]
      rfl
    | text _ | cdata _ =>
      rw [componentPlacesIn, ih]
      rfl

theorem componentPlaces_eq (e : Element) :
    e.componentPlaces = e.elements.flatMap componentPlacesFrom := by
  obtain ⟨name, attrs, children⟩ := e
  rw [componentPlaces, componentPlacesIn_eq]
  rfl

theorem componentPlaces_addAll (e : Element) (children : List Element) :
    (e.addAll children).componentPlaces =
      e.componentPlaces ++ children.flatMap componentPlacesFrom := by
  rw [componentPlaces_eq, elements_addAll, List.flatMap_append, ← componentPlaces_eq]

theorem componentPlaces_add (e child : Element) :
    (e.add child).componentPlaces = e.componentPlaces ++ child.componentPlacesFrom := by
  rw [componentPlaces_eq, elements_add, List.flatMap_append, ← componentPlaces_eq,
    List.flatMap_singleton]

theorem componentPlacesFrom_of_ne {e : Element} (other : e.name ≠ "Component") :
    e.componentPlacesFrom = e.componentPlaces.map e.enclose := by
  simp [componentPlacesFrom, other]

theorem enclose_of_ne {e : Element} (other : e.name ≠ "Directory") : e.enclose = id := by
  funext place
  simp [enclose, other]

theorem enclose_of_directory {e : Element} {id : String}
    (here : hasNameAndId "Directory" id e = true) :
    e.enclose = fun place => (id :: place.1, place.2) := by
  obtain ⟨name, identified⟩ := hasNameAndId_eq_true.mp here
  funext place
  simp [enclose, name, identified]

theorem enclose_eq_of_tag {e f : Element} (same : e.tag = f.tag) : e.enclose = f.enclose := by
  funext place
  simp only [enclose, name_eq_of_tag same, id?_eq_of_tag same]

/-- Without their places the components are listed as they are found. -/
theorem map_snd_componentPlaces (e : Element) :
    e.componentPlaces.map Prod.snd = e.descendantsNamed "Component" := by
  refine e.induct (motive := fun e =>
    e.componentPlaces.map Prod.snd = e.descendantsNamed "Component") fun e ih => ?_
  rw [componentPlaces_eq, descendantsNamed, descendants_eq_flatMap, List.map_flatMap,
    List.filter_flatMap]
  refine List.flatMap_congr fun child isChild => ?_
  have inside : (child.componentPlaces.map child.enclose).map Prod.snd =
      child.descendants.filter fun x => x.name == "Component" := by
    have kept : Prod.snd ∘ child.enclose = Prod.snd := by
      funext place
      simp only [Function.comp_apply, enclose]
      split <;> rfl
    rw [List.map_map, kept]
    exact ih child isChild
  rw [componentPlacesFrom, List.map_append, inside, subtree, List.filter_cons]
  split <;> rfl

theorem componentPlacesFrom_of_only {e : Element} (only : Only (· ≠ "Component") e) :
    e.componentPlacesFrom = [] := by
  have none : e.componentPlaces = [] := by
    rw [← List.map_eq_nil_iff (f := Prod.snd), map_snd_componentPlaces, descendantsNamed,
      List.filter_eq_nil_iff]
    intro x mem
    simpa using only x (List.mem_cons_of_mem _ mem)
  rw [componentPlacesFrom_of_ne only.here, none, List.map_nil]

theorem IsEntityComponent.componentPlacesFrom {e : Element} (component : e.IsEntityComponent) :
    e.componentPlacesFrom = [([], e)] := by
  have inside : e.componentPlaces = [] := by
    rw [componentPlaces_eq, List.flatMap_eq_nil_iff]
    exact fun child mem => componentPlacesFrom_of_only (component.only_inside child mem)
  simp [Element.componentPlacesFrom, component.name_eq, inside]

/-! ## Changes -/

theorem subperm_map {α β : Type} {xs ys : List α} (f : α → β) (some_ : List.Subperm xs ys) :
    List.Subperm (xs.map f) (ys.map f) := by
  obtain ⟨zs, same, inside⟩ := some_
  exact ⟨zs.map f, same.map f, inside.map f⟩

/-- A directory in a tree that gets more components gives the tree more components. -/
theorem subperm_put_focusChildOr {e made new : Element} {p : Element → Bool}
    (same : new.tag = (e.focusChildOr p made).node.tag)
    (directory : (e.focusChildOr p made).node.name = "Directory")
    (grown : List.Subperm (e.focusChildOr p made).node.componentPlaces new.componentPlaces) :
    List.Subperm e.componentPlaces ((e.focusChildOr p made).put new).componentPlaces := by
  have outer : List.Subperm (e.focusChildOr p made).node.componentPlacesFrom
      new.componentPlacesFrom := by
    rw [componentPlacesFrom_of_ne (by simp [directory]),
      componentPlacesFrom_of_ne (by simp [name_eq_of_tag same, directory]),
      enclose_eq_of_tag same]
    exact subperm_map _ grown
  obtain ⟨front, back, children, -⟩ := elements_focusChildOr e p made
  cases focusChildOr_cases e p made with
  | inl found =>
    have old := (children (e.focusChildOr p made).node).2
    rw [found.1.put_node] at old
    rw [componentPlaces_eq, componentPlaces_eq _, old, (children new).2]
    simp only [List.flatMap_append, List.flatMap_cons]
    exact ((List.Sublist.refl _).subperm.append (outer.append (List.Sublist.refl _).subperm))
  | inr added =>
    rw [added]
    show List.Subperm _ (e.add new).componentPlaces
    rw [componentPlaces_add]
    exact (List.sublist_append_left _ _).subperm

end Markup.Element

/-- The components inside a directory are listed together, with its path in front. -/
theorem Markup.Focus.IsAt.componentPlaces_put {focus : Focus Element} {whole : Element}
    {path : List String} (isAt : focus.IsAt whole path) : ∃ front back, ∀ e : Element,
      e.tag = focus.node.tag → (focus.put e).componentPlaces =
        front ++ e.componentPlaces.map (fun place => (path ++ place.1, place.2)) ++ back := by
  induction isAt with
  | whole _ => exact ⟨[], [], fun e _ => by simp [Focus.whole]⟩
  | @child focus child id path name attrs before after here first inside ih =>
    obtain ⟨front, back, law⟩ := ih
    let down : List String × Element → List String × Element :=
      fun place => (id :: place.1, place.2)
    refine ⟨componentPlacesIn before ++ front.map down, back.map down ++ componentPlacesIn after,
      fun e same => ?_⟩
    have here' : hasNameAndId "Directory" id (focus.put e) = true := by
      rw [hasNameAndId_eq_of_tag (inside.isPlace.tag_put same)]
      exact here
    have other : (focus.put e).name ≠ "Component" := by
      simp [(hasNameAndId_eq_true.mp here').1]
    show componentPlaces ⟨name, attrs, before ++ .element (focus.put e) :: after⟩ = _
    rw [componentPlaces, componentPlacesIn_eq, List.filterMap_append, List.flatMap_append,
      ← componentPlacesIn_eq, List.filterMap_cons]
    simp only [Node.element?, List.flatMap_cons, ← componentPlacesIn_eq,
      componentPlacesFrom_of_ne other, enclose_of_directory here', law e same, List.map_append,
      List.map_map, List.append_assoc]
    rfl

namespace Dir

variable {c : Compilation}

mutual

/-- The components that are in a tree stay there when a directory is placed in it. -/
theorem subperm_place : ∀ (dir : Dir) (parent : Element),
    List.Subperm parent.componentPlaces (dir.place c parent).componentPlaces
  | ⟨body, dirs⟩, parent => by
    have filledGrows : List.Subperm (placeIn ⟨body, dirs⟩ parent).node.componentPlaces
        (filled c ⟨body, dirs⟩ parent).componentPlaces := by
      rw [filled, componentPlaces_addAll]
      exact (List.sublist_append_left _ _).subperm
    rw [place]
    refine subperm_put_focusChildOr (tag_placeAll dirs _) ?_
      (filledGrows.trans (subperm_placeAll dirs _))
    exact (hasNameAndId_eq_true.mp (hasNameAndId_placeIn ⟨body, dirs⟩ parent)).1

theorem subperm_placeAll : ∀ (dirs : List Dir) (parent : Element),
    List.Subperm parent.componentPlaces (placeAll c dirs parent).componentPlaces
  | [], parent => .refl _
  | dir :: rest, parent => by
    rw [placeAll]
    exact (subperm_place dir parent).trans (subperm_placeAll rest _)

end

end Dir

end Installer
