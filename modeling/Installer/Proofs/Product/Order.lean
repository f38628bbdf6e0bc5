import Installer.Source.Product
import Mathlib.Data.List.Basic
import Mathlib.Data.List.Induction
import Mathlib.Data.List.Pairwise

/-! # The order of a product

The order of a product comes about in passes: each moves one group of children behind all others.
Since no child belongs to two groups, the groups end up one behind the other in the order of the
passes (`foldl_movedLast`).  So nothing but the order of the children changes, the order inside a
group does not, and a second run changes nothing (`reorders_reorder`).
-/

namespace Installer

open Markup (Element Node)
open Markup.Element (isChild)

namespace Product

/-! ## Groups that move to the end -/

section Groups

variable {α : Type} {groups : List (α → Bool)} {p q : α → Bool}

/-- The list with what has the property behind all else. -/
def movedLast (p : α → Bool) (list : List α) : List α :=
  (list.filter fun x => !p x) ++ list.filter p

/-- What belongs to none of the groups, and then one group after the other. -/
def grouped (groups : List (α → Bool)) (list : List α) : List α :=
  (list.filter fun x => !groups.any (· x)) ++ groups.flatMap fun group => list.filter group

/-- Nothing belongs to both groups. -/
def Apart (p q : α → Bool) : Prop :=
  ∀ x, p x = true → q x = false

theorem Apart.symm (apart : Apart p q) : Apart q p := by
  intro x other
  rw [← Bool.not_eq_true]
  intro own
  simp [apart x own] at other

instance : Std.Symm (Apart : (α → Bool) → (α → Bool) → Prop) :=
  ⟨fun _ _ => Apart.symm⟩

theorem Apart.filter_filter (apart : Apart p q) (list : List α) :
    (list.filter p).filter q = [] := by
  rw [List.filter_eq_nil_iff]
  intro x mem
  simp [apart x (List.mem_filter.mp mem).2]

theorem Apart.filter_filter_not (apart : Apart p q) (list : List α) :
    ((list.filter p).filter fun x => !q x) = list.filter p := by
  rw [List.filter_eq_self]
  intro x mem
  simp [apart x (List.mem_filter.mp mem).2]

/-- A group that moves behind the others is the last one. -/
theorem movedLast_grouped (apart : ∀ group ∈ groups, Apart group p) (list : List α) :
    movedLast p (grouped groups list) = grouped (groups ++ [p]) list := by
  have front : ((list.filter fun x => !groups.any (· x)).filter fun x => !p x) =
      list.filter fun x => !(groups ++ [p]).any (· x) := by
    rw [List.filter_filter]
    refine List.filter_congr fun x _ => ?_
    simp [List.any_append, Bool.and_comm]
  have kept : ((groups.flatMap fun group => list.filter group).filter fun x => !p x) =
      groups.flatMap fun group => list.filter group := by
    rw [List.filter_flatMap]
    exact List.flatMap_congr fun group mem => (apart group mem).filter_filter_not list
  -- the last group has been among what belongs to none of the others
  have last : (list.filter fun x => !groups.any (· x)).filter p = list.filter p := by
    rw [List.filter_filter]
    refine List.filter_congr fun x _ => ?_
    cases own : p x with
    | false => rfl
    | true =>
      have outside : groups.any (· x) = false := by
        rw [List.any_eq_false]
        intro group mem
        simp [(apart group mem).symm x own]
      simp [outside]
  have moved : (groups.flatMap fun group => list.filter group).filter p = [] := by
    rw [List.filter_flatMap, List.flatMap_eq_nil_iff]
    exact fun group mem => (apart group mem).filter_filter list
  rw [movedLast, grouped, List.filter_append, List.filter_append, front, kept, last, moved,
    List.append_nil, grouped, List.flatMap_append, List.append_assoc]
  simp

/-- Moving one group after the other puts them into their order. -/
theorem foldl_movedLast (apart : groups.Pairwise Apart) (list : List α) :
    groups.foldl (fun list group => movedLast group list) list = grouped groups list := by
  induction groups using List.reverseRecOn with
  | nil => simp [grouped]
  | append_singleton groups group ih =>
    obtain ⟨inner, -, outer⟩ := List.pairwise_append.mp apart
    rw [List.foldl_append, ih inner, List.foldl_cons, List.foldl_nil]
    exact movedLast_grouped (fun other mem => outer other mem group List.mem_cons_self) list

theorem perm_movedLast (p : α → Bool) (list : List α) : (movedLast p list).Perm list :=
  List.perm_append_comm.trans (List.filter_append_perm p list)

theorem perm_grouped (apart : groups.Pairwise Apart) (list : List α) :
    (grouped groups list).Perm list := by
  rw [← foldl_movedLast apart]
  clear apart
  induction groups generalizing list with
  | nil => exact .refl list
  | cons group rest ih => exact (ih _).trans (perm_movedLast group list)

/-- The order does not change among what moves together or stays together. -/
theorem filter_movedLast (together : (∀ x, q x = true → p x = true) ∨ Apart q p) (list : List α) :
    (movedLast p list).filter q = list.filter q := by
  rw [movedLast, List.filter_append, List.filter_filter, List.filter_filter]
  rcases together with moves | stays
  · have front : ∀ x, (q x && !p x) = false := fun x => by cases own : q x <;> simp [own, moves x]
    have back : ∀ x, (q x && p x) = q x := fun x => by cases own : q x <;> simp [own, moves x]
    simp [front, back]
  · have front : ∀ x, (q x && !p x) = q x := fun x => by cases own : q x <;> simp [own, stays x]
    have back : ∀ x, (q x && p x) = false := fun x => by cases own : q x <;> simp [own, stays x]
    simp [front, back]

theorem filter_grouped (apart : groups.Pairwise Apart)
    (together : ∀ group ∈ groups, (∀ x, q x = true → group x = true) ∨ Apart q group)
    (list : List α) : (grouped groups list).filter q = list.filter q := by
  rw [← foldl_movedLast apart]
  clear apart
  induction groups generalizing list with
  | nil => rfl
  | cons group rest ih =>
    rw [List.forall_mem_cons] at together
    rw [List.foldl_cons, ih together.2, filter_movedLast together.1]

theorem grouped_grouped (apart : groups.Pairwise Apart) (list : List α) :
    grouped groups (grouped groups list) = grouped groups list := by
  have front : ((grouped groups list).filter fun x => !groups.any (· x)) =
      list.filter fun x => !groups.any (· x) := by
    refine filter_grouped apart (fun group mem => .inr fun x outside => ?_) list
    simp only [Bool.not_eq_true', List.any_eq_false, Bool.not_eq_true] at outside
    exact outside group mem
  have each : ∀ group ∈ groups, (grouped groups list).filter group = list.filter group := by
    intro group mem
    refine filter_grouped apart (fun other among => ?_) list
    by_cases same : group = other
    · exact .inl fun x own => same ▸ own
    · exact .inr (apart.forall mem among same)
  rw [grouped, front, List.flatMap_congr each, ← grouped]

end Groups

/-! ## The groups of a product -/

def isNamed (name : String) : Node Element → Bool :=
  isChild fun child => child.name == name

def trailingGroups : List (Node Element → Bool) :=
  trailingNames.map isNamed ++ [isChild isSequence]

theorem Apart.isChild {p q : Element → Bool} (apart : Apart p q) :
    Apart (isChild p) (isChild q) := by
  rintro (child | content | content) own
  · exact apart child own
  · rfl
  · rfl

theorem apart_isNamed {name other : String} (different : name ≠ other) :
    Apart (isNamed name) (isNamed other) := by
  refine Apart.isChild fun child own => ?_
  rw [beq_iff_eq] at own
  simp [own, different]

theorem apart_isSequence {name : String}
    (other : "Sequence".toList.isSuffixOf name.toList = false) :
    Apart (isNamed name) (isChild isSequence) := by
  refine Apart.isChild fun child own => ?_
  rw [beq_iff_eq] at own
  rw [isSequence, own, other]

/-- No trailing name is that of a sequence, and no two are the same. -/
theorem pairwise_trailingGroups : trailingGroups.Pairwise Apart := by
  have distinct : trailingNames.Pairwise (· ≠ ·) := by decide
  have other : ∀ name ∈ trailingNames, "Sequence".toList.isSuffixOf name.toList = false := by
    decide
  rw [trailingGroups, List.pairwise_append, List.pairwise_map]
  refine ⟨distinct.imp apart_isNamed, List.pairwise_singleton _ _, ?_⟩
  rw [List.forall_mem_map]
  intro name mem sequence isLast
  exact List.mem_singleton.mp isLast ▸ apart_isSequence (other name mem)

/-- The child elements with a property, as they stand among all children. -/
theorem map_filter_elements (p : Element → Bool) (product : Element) :
    (product.elements.filter p).map Node.element = product.children.filter (isChild p) := by
  rw [Markup.Element.elements]
  induction product.children with
  | nil => rfl
  | cons node rest ih =>
    cases node with
    | element child =>
      cases own : p child <;> simp [Markup.Element.isChild, Node.element?, own, ih]
    | text content => exact ih
    | cdata content => exact ih

theorem moveToEnd_eq (p : Element → Bool) (product : Element) :
    moveToEnd p product = { product with children := movedLast (isChild p) product.children } := by
  rw [movedLast, ← map_filter_elements]
  rfl

theorem foldl_moveToEnd (names : List String) (product : Element) :
    names.foldl (fun product name => moveToEnd (fun child => child.name == name) product) product =
      { product with
        children := (names.map isNamed).foldl (fun list group => movedLast group list)
          product.children } := by
  induction names generalizing product with
  | nil =>
    cases product
    rfl
  | cons name rest ih =>
    rw [List.foldl_cons, ih, moveToEnd_eq]
    rfl

theorem reorder_eq (product : Element) :
    reorder product = { product with children := grouped trailingGroups product.children } := by
  rw [reorder, foldl_moveToEnd, moveToEnd_eq, ← foldl_movedLast pairwise_trailingGroups,
    trailingGroups, List.foldl_append]
  rfl

/-- Children of one name stay in the order they had. -/
theorem filter_isNamed_reorder (name : String) (product : Element) :
    (reorder product).children.filter (isNamed name) = product.children.filter (isNamed name) := by
  rw [reorder_eq]
  refine filter_grouped pairwise_trailingGroups (fun group mem => ?_) _
  rw [trailingGroups, List.mem_append, List.mem_map, List.mem_singleton] at mem
  rcases mem with ⟨other, -, rfl⟩ | rfl
  · by_cases same : name = other
    · exact .inl fun x own => same ▸ own
    · exact .inr (apart_isNamed same)
  · cases sequence : "Sequence".toList.isSuffixOf name.toList with
    | false => exact .inr (apart_isSequence sequence)
    | true =>
      refine .inl fun node own => ?_
      cases node with
      | element child =>
        obtain rfl : child.name = name := beq_iff_eq.mp own
        exact sequence
      | text | cdata => cases own

end Product

namespace Markup.Element

/-- No child is lost or made when a product is brought into its order. -/
theorem perm_elements_reorder (e : Element) : (Product.reorder e).elements.Perm e.elements := by
  rw [Product.reorder_eq]
  exact (Product.perm_grouped Product.pairwise_trailingGroups e.children).filterMap Node.element?

theorem elementsNamed_reorder (e : Element) (name : String) :
    (Product.reorder e).elementsNamed name = e.elementsNamed name := by
  have injective : Function.Injective (Node.element : Element → Node Element) := fun _ _ =>
    Node.element.inj
  refine List.map_injective_iff.mpr injective ?_
  rw [elementsNamed, elementsNamed, Product.map_filter_elements, Product.map_filter_elements]
  exact Product.filter_isNamed_reorder name e

theorem name_reorder (e : Element) : (Product.reorder e).name = e.name := by
  rw [Product.reorder_eq]

end Markup.Element

namespace Product

/-! ## The order -/

/-- The child is an element whose name ends as those of sequences do. -/
def endsInSequence : Node Element → Bool :=
  isChild fun child => "Sequence".toList.isSuffixOf child.name.toList

def isLeading (node : Node Element) : Bool :=
  !(isNamed "CustomAction" node || isNamed "Binary" node || isNamed "UIRef" node ||
    isNamed "Feature" node || endsInSequence node)

/-- The second element is the first one with its children in the order of a product. -/
structure Reorders (product ordered : Element) : Prop where
  name_eq : ordered.name = product.name
  attrs_eq : ordered.attrs = product.attrs
  /-- Actions, binaries, dialogs, features and sequences come last, each group in the order it
  had. -/
  children_eq : ordered.children =
    product.children.filter isLeading ++ product.children.filter (isNamed "CustomAction") ++
      product.children.filter (isNamed "Binary") ++ product.children.filter (isNamed "UIRef") ++
        product.children.filter (isNamed "Feature") ++ product.children.filter endsInSequence
  /-- No child is lost or made, and none is another one than before. -/
  perm : ordered.children.Perm product.children

/-- A product is brought into its order, and left alone when it is in order. -/
theorem reorders_reorder (product : Element) :
    Reorders product (reorder product) ∧ reorder (reorder product) = reorder product := by
  have groups : trailingGroups =
      [isNamed "CustomAction", isNamed "Binary", isNamed "UIRef", isNamed "Feature",
        endsInSequence] := rfl
  have leading : (fun node => !trailingGroups.any (· node)) = isLeading := by
    funext node
    simp [groups, isLeading, Bool.or_assoc]
  constructor
  · rw [reorder_eq]
    refine ⟨rfl, rfl, ?_, perm_grouped pairwise_trailingGroups _⟩
    rw [grouped, leading, groups]
    simp
  · rw [reorder_eq (reorder product), reorder_eq product]
    exact congrArg _ (grouped_grouped pairwise_trailingGroups _)

end Product

end Installer
