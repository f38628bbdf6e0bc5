import Installer.Proofs.Feature.Nearest
import Installer.Proofs.Markup.Place
import Mathlib.Data.Fintype.EquivFin
import Mathlib.Data.List.Perm.Basic

/-! # How retained features are nested

The retained features make a forest, which is emitted from its top down.
-/

/-! ## The forest of features

When parents lead to other nodes and never in a circle, every node is so many steps below a node
without a parent.  The forest is then built level by level, which is how it is shown to hold every
node once.
-/

namespace Installer

open Relation
open Markup (Element)
open Markup.Element

namespace Parents

variable {parents : Parents} {elements : List Element} {i j depth : Nat}

/-! ## Forests -/

/-- Parents are among the nodes, and no node is above itself. -/
structure IsForest (parents : Parents) : Prop where
  inside : ∀ {i j}, parents.Above i j → j < parents.length
  acyclic : ∀ i, ¬ TransGen parents.Above i i

/-- The node is so many steps below the top. -/
def AtDepth (parents : Parents) (depth i : Nat) : Prop :=
  i < parents.length ∧ ∃ top, Leads parents.parent? (fun j => parents.parent? j = none) depth i top

theorem mem_childrenOf {parent : Option Nat} :
    i ∈ parents.childrenOf parent ↔ i < parents.length ∧ parents.parent? i = parent := by
  simp [childrenOf]

theorem nodup_childrenOf (parent : Option Nat) : (parents.childrenOf parent).Nodup :=
  List.nodup_range.filter _

namespace AtDepth

theorem unique {depth' : Nat} (first : parents.AtDepth depth i)
    (second : parents.AtDepth depth' i) : depth = depth' := by
  obtain ⟨-, top, leads⟩ := first
  obtain ⟨-, top', leads'⟩ := second
  exact (leads.unique leads').1

theorem child (atDepth : parents.AtDepth depth i) (below : j ∈ parents.childrenOf (some i)) :
    parents.AtDepth (depth + 1) j := by
  obtain ⟨-, top, leads⟩ := atDepth
  obtain ⟨inside, above⟩ := mem_childrenOf.mp below
  exact ⟨inside, top, .step (by simp [above]) above leads⟩

theorem parent (atDepth : parents.AtDepth (depth + 1) i) (forest : parents.IsForest) :
    ∃ j, parents.AtDepth depth j ∧ i ∈ parents.childrenOf (some j) := by
  obtain ⟨inside, top, leads⟩ := atDepth
  cases leads with
  | step _ above rest =>
    exact ⟨_, ⟨forest.inside above, top, rest⟩, mem_childrenOf.mpr ⟨inside, above⟩⟩

theorem zero_iff : parents.AtDepth 0 i ↔ i ∈ parents.childrenOf none := by
  rw [mem_childrenOf]
  constructor
  · rintro ⟨inside, top, leads⟩
    cases leads with
    | here stops => exact ⟨inside, stops⟩
  · rintro ⟨inside, top⟩
    exact ⟨inside, i, .here top⟩

/-- The way to the top passes different nodes, and the top is none of them. -/
theorem lt (atDepth : parents.AtDepth depth i) (forest : parents.IsForest) :
    depth < parents.length := by
  obtain ⟨inside, top, leads⟩ := atDepth
  have topInside : top < parents.length := by
    induction leads with
    | here => exact inside
    | step _ above _ ih => exact ih (forest.inside above)
  have bound : depth < (List.range parents.length).length :=
    leads.length_lt (fun x y up => List.mem_range.mpr (lt_of_parent? up))
      (List.mem_range.mpr topInside)
  rwa [List.length_range] at bound

end AtDepth

theorem IsForest.wellFounded (forest : parents.IsForest) :
    WellFounded fun b a : Fin parents.length => TransGen parents.Above a b := by
  have : IsTrans (Fin parents.length) fun b a => TransGen parents.Above a b :=
    ⟨fun _ _ _ first second => second.trans first⟩
  have : Std.Irrefl fun b a : Fin parents.length => TransGen parents.Above a b :=
    ⟨fun a => forest.acyclic a⟩
  exact Finite.wellFounded_of_trans_of_irrefl _

theorem IsForest.exists_depth (forest : parents.IsForest) (inside : i < parents.length) :
    ∃ depth, parents.AtDepth depth i := by
  have all : ∀ a : Fin parents.length, ∃ depth, parents.AtDepth depth a := by
    intro a
    -- a node is one step deeper than its parent
    induction a using forest.wellFounded.induction with
    | _ a ih =>
      cases above : parents.parent? a with
      | none => exact ⟨0, a.isLt, a, .here above⟩
      | some b =>
        obtain ⟨depth, atDepth⟩ := ih ⟨b, forest.inside above⟩ (.single above)
        exact ⟨depth + 1, atDepth.child (mem_childrenOf.mpr ⟨a.isLt, above⟩)⟩
  exact all ⟨i, inside⟩

/-! ## Levels -/

def level (parents : Parents) : Nat → List Nat
  | 0 => parents.childrenOf none
  | depth + 1 => (parents.level depth).flatMap fun i => parents.childrenOf (some i)

theorem mem_level (forest : parents.IsForest) :
    i ∈ parents.level depth ↔ parents.AtDepth depth i := by
  induction depth generalizing i with
  | zero => exact AtDepth.zero_iff.symm
  | succ depth ih =>
    rw [level, List.mem_flatMap]
    constructor
    · rintro ⟨j, mem, child⟩
      exact (ih.mp mem).child child
    · intro atDepth
      obtain ⟨j, parentDepth, child⟩ := atDepth.parent forest
      exact ⟨j, ih.mpr parentDepth, child⟩

theorem nodup_level (depth : Nat) : (parents.level depth).Nodup := by
  induction depth with
  | zero => exact nodup_childrenOf none
  | succ depth ih =>
    rw [level, List.nodup_flatMap]
    refine ⟨fun i _ => nodup_childrenOf _, ih.imp fun {i j} different x first second => ?_⟩
    -- a child has one parent only
    have above := (mem_childrenOf.mp first).2
    rw [(mem_childrenOf.mp second).2, Option.some.injEq] at above
    exact different above.symm

/-- Every node is on one level. -/
theorem perm_levels (forest : parents.IsForest) :
    ((List.range parents.length).flatMap parents.level).Perm (List.range parents.length) := by
  have nodup : ((List.range parents.length).flatMap parents.level).Nodup := by
    rw [List.nodup_flatMap]
    refine ⟨fun depth _ => nodup_level depth,
      List.nodup_range.imp fun {d d'} different x first second => different ?_⟩
    exact ((mem_level forest).mp first).unique ((mem_level forest).mp second)
  -- two lists without repetition are compared by their members
  refine (List.perm_ext_iff_of_nodup nodup List.nodup_range).mpr fun i => ?_
  rw [List.mem_flatMap, List.mem_range]
  constructor
  · rintro ⟨depth, -, mem⟩
    exact ((mem_level forest).mp mem).1
  · intro inside
    obtain ⟨depth, atDepth⟩ := forest.exists_depth inside
    exact ⟨depth, List.mem_range.mpr (atDepth.lt forest), (mem_level forest).mpr atDepth⟩

/-! ## Nested elements -/

/-- The element of a node with those of all nodes below it. -/
def placed (parents : Parents) (elements : List Element) (i : Nat) : Element :=
  (parents.nested elements parents.length i).headD { name := "" }

/-- The bound on the levels does not matter as long as it reaches down to the lowest of them. -/
theorem nested_congr (forest : parents.IsForest) {levels levels' : Nat}
    (atDepth : parents.AtDepth depth i) (enough : parents.length ≤ levels + depth)
    (enough' : parents.length ≤ levels' + depth) :
    parents.nested elements levels i = parents.nested elements levels' i := by
  have bound := atDepth.lt forest
  induction levels generalizing depth i levels' with
  | zero => omega
  | succ levels ih =>
    cases levels' with
    | zero => omega
    | succ levels' =>
      -- the levels that are left always reach down to the nodes below
      have below : ∀ j ∈ parents.childrenOf (some i),
          parents.nested elements levels j = parents.nested elements levels' j := by
        intro j child
        have childDepth := atDepth.child child
        exact ih childDepth (by omega) (by omega) (childDepth.lt forest)
      rw [nested, nested, List.flatMap_congr below]

section Placed

variable (size : elements.length = parents.length)
include size

theorem nested_eq_placed (forest : parents.IsForest) {levels : Nat}
    (atDepth : parents.AtDepth depth i) (enough : parents.length ≤ levels + depth) :
    parents.nested elements levels i = [parents.placed elements i] := by
  have same : parents.nested elements levels i = parents.nested elements parents.length i :=
    nested_congr forest atDepth enough (by omega)
  rw [same, placed]
  obtain ⟨inside, -⟩ := atDepth
  obtain ⟨levels', equal⟩ := Nat.exists_eq_add_one.mpr (Nat.zero_lt_of_lt inside)
  rw [equal, nested, List.getElem?_eq_getElem (size ▸ inside)]
  rfl

theorem flatMap_nested (forest : parents.IsForest) {levels : Nat} {nodes : List Nat}
    (atDepth : ∀ j ∈ nodes, parents.AtDepth depth j) (enough : parents.length ≤ levels + depth) :
    nodes.flatMap (parents.nested elements levels) = nodes.map (parents.placed elements) := by
  rw [List.flatMap_congr fun j mem => nested_eq_placed size forest (atDepth j mem) enough]
  exact List.map_eq_flatMap.symm

/-- A placed element has those of the nodes below it as its last children. -/
theorem placed_eq (forest : parents.IsForest) {e : Element} (own : elements[i]? = some e) :
    parents.placed elements i =
      e.addAll ((parents.childrenOf (some i)).map (parents.placed elements)) := by
  have inside : i < parents.length := size ▸ (List.getElem?_eq_some_iff.mp own).1
  obtain ⟨depth, atDepth⟩ := forest.exists_depth inside
  obtain ⟨levels, equal⟩ := Nat.exists_eq_add_one.mpr (Nat.zero_lt_of_lt inside)
  rw [← flatMap_nested size forest (fun j child => atDepth.child child)
    (show parents.length ≤ levels + (depth + 1) by omega)]
  rw [placed, equal, nested, own]
  rfl

theorem forest_eq (forest : parents.IsForest) :
    parents.forest elements = (parents.childrenOf none).map (parents.placed elements) :=
  flatMap_nested size forest (fun _ mem => AtDepth.zero_iff.mpr mem) (Nat.le_refl _)

/-! ## Counting nodes -/

variable {p : Element → Bool} (isOwn : ∀ e ∈ elements, p e = true)
  (noOther : ∀ e ∈ elements, ∀ x ∈ e.descendants, p x = false)
  (fromTag : ∀ e f : Element, e.tag = f.tag → p e = p f)
include isOwn noOther fromTag

theorem filter_placed (forest : parents.IsForest) (inside : i < parents.length) :
    (parents.placed elements i).subtree.filter p =
      parents.placed elements i :: (parents.childrenOf (some i)).flatMap fun j =>
        (parents.placed elements j).subtree.filter p := by
  have own : elements[i]? = some elements[i] := List.getElem?_eq_getElem (size ▸ inside)
  have mem : elements[i] ∈ elements := List.getElem_mem _
  have eq := placed_eq size forest own
  have here : p (parents.placed elements i) = true := by
    rw [eq, fromTag _ elements[i] (tag_addAll ..)]
    exact isOwn _ mem
  have none : (elements[i].elements.flatMap fun x => x.subtree.filter p) = [] := by
    rw [← List.filter_flatMap, ← descendants_eq_flatMap]
    exact List.filter_eq_nil_iff.mpr fun x below => by simp [noOther _ mem x below]
  rw [filter_subtree, if_pos here, eq, elements_addAll, List.flatMap_append, none,
    List.nil_append, List.flatMap_map, ← eq]
  rfl

/-- All nodes above a level have their elements in the forest, and below them come those of the
level. -/
theorem perm_filter_levels (forest : parents.IsForest) (depth : Nat) :
    ((parents.forest elements).flatMap fun e => e.subtree.filter p).Perm
      (((List.range depth).flatMap parents.level).map (parents.placed elements) ++
        (parents.level depth).flatMap fun i => (parents.placed elements i).subtree.filter p) := by
  induction depth with
  | zero =>
    rw [forest_eq size forest, List.flatMap_map]
    exact .refl _
  | succ depth ih =>
    refine ih.trans ?_
    rw [List.range_succ, List.flatMap_append, List.map_append, List.append_assoc]
    refine List.Perm.append_left _ ?_
    rw [List.flatMap_singleton, level, List.flatMap_assoc]
    -- each node of the level comes with what is below it
    rw [List.flatMap_congr fun i mem => filter_placed size isOwn noOther fromTag forest
      ((mem_level forest).mp mem).1]
    exact (List.map_append_flatMap_perm _ _ _).symm

/-- The forest has the element of every node once. -/
theorem perm_filter_forest (forest : parents.IsForest) :
    ((parents.forest elements).flatMap fun e => e.subtree.filter p).Perm
      ((List.range parents.length).map (parents.placed elements)) := by
  -- no node is as deep as there are nodes
  have lowest : parents.level parents.length = [] := by
    refine List.eq_nil_iff_forall_not_mem.mpr fun i mem => ?_
    exact Nat.lt_irrefl _ (((mem_level forest).mp mem).lt forest)
  have all := perm_filter_levels size isOwn noOther fromTag forest parents.length
  rw [lowest, List.flatMap_nil, List.append_nil] at all
  exact all.trans ((perm_levels forest).map _)

end Placed

end Parents

/-! ## The forest of retained features

The retained features are told apart by their positions in the order of all features.  Each is put
into the element of the nearest retained feature above it, if there is one.  Where these lead in a
circle, the first feature of the circle goes to the product instead, and no other one does.
-/

/-! ## The elements of single features -/

theorem Feature.name_element (feature : Feature) : feature.element.name = "Feature" := by
  simp [Feature.element]

theorem Feature.elements_element (feature : Feature) :
    ∀ x ∈ feature.element.elements, x.elements = [] ∧ x.name = "Condition" := by
  simp only [element, elements_addAll, elements_attr?, elements_withAttrs, elements_mk_nil,
    List.nil_append, List.forall_mem_map]
  exact fun condition _ => ⟨rfl, rfl⟩

namespace RetainedFeature

variable (retained : RetainedFeature)

theorem tag_element : retained.element.tag = retained.feature.element.tag := rfl

theorem name_element : retained.element.name = "Feature" :=
  (name_eq_of_tag retained.tag_element).trans retained.feature.name_element

theorem elements_element : ∀ x ∈ retained.element.elements,
    x.elements = [] ∧ (x.name = "Condition" ∨ x.name = "ComponentRef") := by
  rw [element, elements_addAll, List.forall_mem_append, List.forall_mem_map]
  refine ⟨fun x mem => ?_, fun id _ => ⟨rfl, .inr rfl⟩⟩
  obtain ⟨leaf, name⟩ := retained.feature.elements_element x mem
  exact ⟨leaf, .inl name⟩

theorem descendants_element : ∀ x ∈ retained.element.descendants, x.name ≠ "Feature" := by
  intro x mem
  rw [descendants_eq_flatMap, List.mem_flatMap] at mem
  obtain ⟨child, isChild, inside⟩ := mem
  obtain ⟨leaf, name⟩ := retained.elements_element child isChild
  rw [subtree, descendants_eq_flatMap, leaf, List.flatMap_nil, List.mem_singleton] at inside
  subst inside
  rcases name with name | name <;> simp [name]

theorem elementsNamed_feature : retained.element.elementsNamed "Feature" = [] := by
  refine List.filter_eq_nil_iff.mpr fun x mem => ?_
  rcases (retained.elements_element x mem).2 with name | name <;> simp [name]

end RetainedFeature

namespace Project

variable (project : Project) (ledger : Ledger)

/-! ## The nearest retained feature -/

def retainedNames : List String :=
  (project.retainedFeatures ledger).map fun retained => retained.feature.name

/-- The position of the nearest retained feature above each retained one. -/
def retainedParents : Parents :=
  (project.retainedFeatures ledger).map fun retained =>
    project.nearest? (project.retainedNames ledger) retained.feature

/-- The nearest retained feature above the one at the first position is the one at the second. -/
def NearestRetained (i j : Nat) : Prop :=
  ∃ retained, (project.retainedFeatures ledger)[i]? = some retained ∧
    project.IsNearest (project.retainedNames ledger) retained.feature j

theorem above_retainedParents :
    (project.retainedParents ledger).Above = project.NearestRetained ledger := by
  funext i j
  rw [Parents.Above, Parents.parent?, retainedParents, List.getElem?_map, NearestRetained]
  cases at_ : (project.retainedFeatures ledger)[i]? with
  | none => simp
  | some retained =>
    have mem : retained.feature.name ∈ project.retainedNames ledger :=
      List.mem_map_of_mem (List.mem_of_getElem? at_)
    rw [Option.map_some, Option.join_some, nearest?_eq_some mem]
    simp

theorem nearestRetained_unique : Relator.RightUnique (project.NearestRetained ledger) := by
  rw [← above_retainedParents]
  exact Parents.above_unique

/-! ## Attachment -/

/-- The position of the feature in whose element that of the one at a position is put. -/
def attached (i : Nat) : Option Nat :=
  (project.retainedParents ledger).cutCycles.parent? i

/-- The positions of the retained features that are put into the element of the one at a position,
or into the product. -/
def attachedTo (place : Option Nat) : List Nat :=
  (List.range (project.retainedFeatures ledger).length).filter fun i =>
    project.attached ledger i == place

def placedFeature (i : Nat) : Element :=
  (project.retainedParents ledger).cutCycles.placed
    ((project.retainedFeatures ledger).map RetainedFeature.element) i

theorem length_retainedParents :
    (project.retainedParents ledger).cutCycles.length =
      (project.retainedFeatures ledger).length := by
  rw [Parents.length_cutCycles, retainedParents, List.length_map]

theorem length_elements :
    ((project.retainedFeatures ledger).map RetainedFeature.element).length =
      (project.retainedParents ledger).cutCycles.length := by
  rw [List.length_map, length_retainedParents]

theorem featureElements_eq_forest :
    project.featureElements ledger = (project.retainedParents ledger).cutCycles.forest
      ((project.retainedFeatures ledger).map RetainedFeature.element) := rfl

theorem childrenOf_retainedParents (place : Option Nat) :
    (project.retainedParents ledger).cutCycles.childrenOf place =
      project.attachedTo ledger place := by
  rw [Parents.childrenOf, length_retainedParents]
  rfl

theorem isForest_retainedParents : (project.retainedParents ledger).cutCycles.IsForest where
  acyclic _ := Parents.not_transGen_cutCycles
  inside {i j} above := by
    -- what is left of the parents was found among the retained features
    have up := (Parents.parent?_cutCycles.mp above).1
    rw [length_retainedParents]
    rw [Parents.parent?, retainedParents, List.getElem?_map, Option.join_eq_some_iff,
      Option.map_eq_some_iff] at up
    obtain ⟨retained, -, found⟩ := up
    simpa [retainedNames] using lt_of_nearest? found

/-- What the elements of features look like below a product, whatever else is in the product. -/
structure Nests : Prop where
  /-- A feature is attached to the nearest retained one above it, except for the first of a circle
  of such features. -/
  attached_eq_some : ∀ i j, project.attached ledger i = some j ↔
    project.NearestRetained ledger i j ∧ ¬ LeastOnCircle (project.NearestRetained ledger) i
  /-- Each circle is interrupted at exactly one feature. -/
  existsUnique : ∀ i, TransGen (project.NearestRetained ledger) i i →
    ∃! j, TransGen (project.NearestRetained ledger) i j ∧
      LeastOnCircle (project.NearestRetained ledger) j
  /-- The features that are not attached to another one are children of the product. -/
  top : ∀ product : Element,
    (product.addAll (project.featureElements ledger)).elementsNamed "Feature" =
      product.elementsNamed "Feature" ++
        (project.attachedTo ledger none).map (project.placedFeature ledger)
  /-- The others are children of those that they are attached to. -/
  inside : ∀ i retained, (project.retainedFeatures ledger)[i]? = some retained →
    project.placedFeature ledger i =
        retained.element.addAll
          ((project.attachedTo ledger (some i)).map (project.placedFeature ledger)) ∧
      (project.placedFeature ledger i).elementsNamed "Feature" =
        (project.attachedTo ledger (some i)).map (project.placedFeature ledger)
  /-- Every retained feature has its element once. -/
  once : ∀ product : Element,
    ((product.addAll (project.featureElements ledger)).descendantsNamed "Feature").Perm
      (product.descendantsNamed "Feature" ++
        (List.range (project.retainedFeatures ledger).length).map (project.placedFeature ledger))

section

variable {project ledger}

theorem placedFeature_eq {i : Nat} {retained : RetainedFeature}
    (at_ : (project.retainedFeatures ledger)[i]? = some retained) :
    project.placedFeature ledger i =
      retained.element.addAll
        ((project.attachedTo ledger (some i)).map (project.placedFeature ledger)) := by
  have own : ((project.retainedFeatures ledger).map RetainedFeature.element)[i]? =
      some retained.element := by
    rw [List.getElem?_map, at_]
    rfl
  have eq := Parents.placed_eq (project.length_elements ledger)
    (project.isForest_retainedParents ledger) own
  rw [childrenOf_retainedParents] at eq
  exact eq

theorem name_placedFeature {i : Nat} (inside : i < (project.retainedFeatures ledger).length) :
    (project.placedFeature ledger i).name = "Feature" := by
  rw [placedFeature_eq (List.getElem?_eq_getElem inside), name_addAll]
  exact RetainedFeature.name_element _

theorem lt_of_mem_attachedTo {place : Option Nat} {i : Nat}
    (mem : i ∈ project.attachedTo ledger place) : i < (project.retainedFeatures ledger).length :=
  List.mem_range.mp (List.mem_filter.mp mem).1

theorem elementsNamed_addAll_placed {place : Option Nat} (e : Element) :
    (e.addAll ((project.attachedTo ledger place).map
        (project.placedFeature ledger))).elementsNamed "Feature" =
      e.elementsNamed "Feature" ++
        (project.attachedTo ledger place).map (project.placedFeature ledger) := by
  have features : ((project.attachedTo ledger place).map (project.placedFeature ledger)).filter
      (fun x => x.name == "Feature") =
        (project.attachedTo ledger place).map (project.placedFeature ledger) := by
    refine List.filter_eq_self.mpr (List.forall_mem_map.mpr fun i mem => ?_)
    simp [name_placedFeature (lt_of_mem_attachedTo mem)]
  rw [elementsNamed, elements_addAll, List.filter_append, features]
  rfl

theorem featureElements_eq : project.featureElements ledger =
    (project.attachedTo ledger none).map (project.placedFeature ledger) := by
  rw [featureElements_eq_forest, ← childrenOf_retainedParents]
  exact Parents.forest_eq (project.length_elements ledger)
    (project.isForest_retainedParents ledger)

/-- The elements of features in the forest. -/
theorem perm_featureElements :
    ((project.featureElements ledger).flatMap fun e =>
        e.subtree.filter fun x => x.name == "Feature").Perm
      ((List.range (project.retainedFeatures ledger).length).map
        (project.placedFeature ledger)) := by
  rw [featureElements_eq_forest, ← length_retainedParents]
  refine Parents.perm_filter_forest (project.length_elements ledger) ?_ ?_ ?_
    (project.isForest_retainedParents ledger)
  · exact List.forall_mem_map.mpr fun retained _ => by simp [retained.name_element]
  · refine List.forall_mem_map.mpr fun retained _ x below => ?_
    simpa using retained.descendants_element x below
  · intro e f same
    rw [name_eq_of_tag same]

end

/-- Every retained feature occurs exactly once, where its nearest retained ancestor puts it. -/
theorem nests_retainedFeatures : project.Nests ledger where
  attached_eq_some i j := by
    rw [attached, Parents.parent?_cutCycles, ← above_retainedParents]
    rfl
  existsUnique i circle :=
    existsUnique_leastOnCircle (project.nearestRetained_unique ledger) circle
  top product := by
    rw [featureElements_eq, elementsNamed_addAll_placed]
  inside i retained at_ := by
    have eq := placedFeature_eq at_
    refine ⟨eq, ?_⟩
    rw [eq, elementsNamed_addAll_placed, retained.elementsNamed_feature, List.nil_append]
  once product := by
    rw [descendantsNamed, descendantsNamed, descendants_addAll, List.filter_append,
      List.filter_flatMap]
    exact perm_featureElements.append_left _

end Project

end Installer
