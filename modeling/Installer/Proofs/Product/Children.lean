import Installer.Proofs.Markup.Place
import Installer.Proofs.Product.Order

/-! # The children of a product

Beside its features a product has parts, which stay as they were made, and one table for every
sequence with entries.  `HasChildren` says so by the names of the children, so that it does not
matter when children change places, and it is kept by everything that is done to a product.
-/

namespace Installer

open Markup (Element Focus Node)
open Markup.Element

/-! ## Tables -/

namespace Sequence

def names : List String :=
  (Choice.all : List Sequence).map Choice.name

theorem names_eq : names =
    ["InstallExecuteSequence", "InstallUISequence", "AdminExecuteSequence", "AdminUISequence",
     "AdvertiseExecuteSequence"] :=
  rfl

theorem name_mem_names (sequence : Sequence) : Choice.name sequence ∈ names := by
  cases sequence <;> decide

theorem exists_of_mem_names {name : String} (mem : name ∈ names) :
    ∃ sequence : Sequence, Choice.name sequence = name := by
  obtain ⟨sequence, -, named⟩ := List.mem_map.mp mem
  exact ⟨sequence, named⟩

theorem name_inj {s t : Sequence} : (Choice.name s : String) = Choice.name t ↔ s = t := by
  constructor
  · cases s <;> cases t <;> decide
  · exact congrArg Choice.name

def rows (sequence : Sequence) (entries : List (Sequence × Element)) : List Element :=
  (entries.filter fun entry => entry.1 == sequence).map Prod.snd

/-- The element of a sequence with the given entries; none if there are no entries. -/
def table (sequence : Sequence) (rows : List Element) : List Element :=
  if rows.isEmpty then [] else [({ name := Choice.name sequence } : Element).addAll rows]

variable {sequence : Sequence} {entries : List (Sequence × Element)}

theorem mem_rows {row : Element} : row ∈ sequence.rows entries ↔ (sequence, row) ∈ entries := by
  simp [rows]

theorem rows_append (sequence : Sequence) (entries₁ entries₂ : List (Sequence × Element)) :
    sequence.rows (entries₁ ++ entries₂) = sequence.rows entries₁ ++ sequence.rows entries₂ := by
  simp [rows]

theorem rows_concat_self (sequence : Sequence) (entries : List (Sequence × Element))
    (row : Element) :
    sequence.rows (entries ++ [(sequence, row)]) = sequence.rows entries ++ [row] := by
  simp [rows]

theorem rows_concat_of_ne {other : Sequence} (different : other ≠ sequence) (row : Element) :
    sequence.rows (entries ++ [(other, row)]) = sequence.rows entries := by
  simp [rows, different]

/-- A table grows at its end and begins with its first entry. -/
theorem table_concat {rows : List Element} {row : Element} :
    sequence.table (rows ++ [row]) =
      [((sequence.table rows).headD { name := Choice.name sequence }).add row] := by
  cases rows with
  | nil => simp [table, addAll, add]
  | cons first rest =>
    have grown : ({ name := Choice.name sequence } : Element).addAll (first :: rest ++ [row]) =
        (({ name := Choice.name sequence } : Element).addAll (first :: rest)).add row :=
      addAll_append _ (first :: rest) [row]
    simpa [table] using grown

theorem length_table_le (sequence : Sequence) (rows : List Element) :
    (sequence.table rows).length ≤ 1 := by
  rw [table]
  split <;> simp

end Sequence

/-! ## Children by name -/

namespace Markup.Element

def Unscheduled (e : Element) : Prop :=
  Only (· ∉ "Custom" :: Sequence.names) e

theorem Unscheduled.name_notMem {e : Element} (unscheduled : e.Unscheduled) :
    e.name ∉ Sequence.names :=
  fun mem => Everywhere.here unscheduled (List.mem_cons_of_mem _ mem)

theorem elementsNamed_addAll (e : Element) (children : List Element) (name : String) :
    (e.addAll children).elementsNamed name =
      e.elementsNamed name ++ children.filter fun x => x.name == name := by
  simp [elementsNamed]

theorem elementsNamed_replace {name other : String} {attrs : List (String × String)}
    {front back : List (Node Element)} {child new : Element} (same : new.name = child.name)
    (different : child.name ≠ other) :
    elementsNamed ⟨name, attrs, front ++ .element new :: back⟩ other =
      elementsNamed ⟨name, attrs, front ++ .element child :: back⟩ other := by
  simp [elementsNamed, List.filter_append, same, different]

/-- An entry goes into the element of its sequence, or into a new one. -/
theorem addEntry_cases (e : Element) (sequence : Sequence) (entry : Element) :
    (∃ front child back, e.children = front ++ .element child :: back ∧
      child.name = Choice.name sequence ∧
      e.addEntry sequence entry =
        { e with children := front ++ .element (child.add entry) :: back }) ∨
    (∀ x ∈ e.elements, x.name ≠ Choice.name sequence) ∧
      e.addEntry sequence entry =
        e.add (({ name := Choice.name sequence } : Element).add entry) := by
  rw [Element.addEntry, focusNamed, focusChildOr, Focus.modify]
  cases found : e.focusChild? fun child => child.name == Choice.name sequence with
  | some focus =>
    rw [focusChild?, Option.map_eq_some_iff] at found
    obtain ⟨⟨child, put⟩, among, rfl⟩ := found
    obtain ⟨front, back, children, named, -, rfl⟩ := focusAmong?_eq_some among
    exact .inl ⟨front, child, back, children, by simpa using named, rfl⟩
  | none =>
    rw [focusChild?, Option.map_eq_none_iff] at found
    exact .inr ⟨fun x mem => by simpa using focusAmong?_eq_none found x mem, rfl⟩

theorem name_addEntry (e : Element) (sequence : Sequence) (entry : Element) :
    (e.addEntry sequence entry).name = e.name := by
  rcases addEntry_cases e sequence entry with ⟨front, child, back, -, -, added⟩ | ⟨-, added⟩
  · rw [added]
  · rw [added, name_add]

theorem elementsNamed_addEntry_of_ne {e entry : Element} {sequence : Sequence} {name : String}
    (different : Choice.name sequence ≠ name) :
    (e.addEntry sequence entry).elementsNamed name = e.elementsNamed name := by
  obtain ⟨own, attrs, nodes⟩ := e
  rcases addEntry_cases ⟨own, attrs, nodes⟩ sequence entry with
    ⟨front, child, back, rfl, named, added⟩ | ⟨-, added⟩
  · rw [added]
    exact elementsNamed_replace rfl (named ▸ different)
  · simp [added, elementsNamed, different]

theorem elementsNamed_addEntry_self {e entry : Element} {sequence : Sequence} {rows : List Element}
    (table : e.elementsNamed (Choice.name sequence) = sequence.table rows) :
    (e.addEntry sequence entry).elementsNamed (Choice.name sequence) =
      sequence.table (rows ++ [entry]) := by
  rw [Sequence.table_concat, ← table]
  obtain ⟨own, attrs, nodes⟩ := e
  rcases addEntry_cases ⟨own, attrs, nodes⟩ sequence entry with
    ⟨front, child, back, rfl, named, added⟩ | ⟨none, added⟩
  · -- a sequence has one element only, so that nothing stands before or behind the changed one
    have split : ∀ x : Element, x.name = Choice.name sequence →
        elementsNamed ⟨own, attrs, front ++ .element x :: back⟩ (Choice.name sequence) =
          elementsNamed ⟨own, attrs, front⟩ (Choice.name sequence) ++
            x :: elementsNamed ⟨own, attrs, back⟩ (Choice.name sequence) := fun x same => by
      simp [elementsNamed, List.filter_append, same]
    have single := sequence.length_table_le rows
    rw [← table, split child named, List.length_append, List.length_cons] at single
    have before := List.eq_nil_of_length_eq_zero (by omega :
      (elementsNamed ⟨own, attrs, front⟩ (Choice.name sequence)).length = 0)
    have behind := List.eq_nil_of_length_eq_zero (by omega :
      (elementsNamed ⟨own, attrs, back⟩ (Choice.name sequence)).length = 0)
    rw [added, split child named, split (child.add entry) named, before, behind]
    rfl
  · have empty : elementsNamed ⟨own, attrs, nodes⟩ (Choice.name sequence) = [] :=
      List.filter_eq_nil_iff.mpr fun x mem => by simpa using none x mem
    rw [added, empty]
    rw [elementsNamed] at empty ⊢
    simp [empty]

theorem mem_addEntry {e entry x : Element} {sequence : Sequence}
    (mem : x ∈ (e.addEntry sequence entry).elements) :
    x ∈ e.elements ∨ ∃ old, (old ∈ e.elements ∨ old = { name := Choice.name sequence }) ∧
      old.name = Choice.name sequence ∧ x = old.add entry := by
  obtain ⟨own, attrs, nodes⟩ := e
  rcases addEntry_cases ⟨own, attrs, nodes⟩ sequence entry with
    ⟨front, child, back, rfl, named, added⟩ | ⟨-, added⟩
  · rw [added] at mem
    simp only [elements_mk_append, elements_mk_cons, List.mem_append, List.mem_cons] at mem ⊢
    rcases mem with before | rfl | after
    · exact .inl (.inl before)
    · exact .inr ⟨child, .inl (.inr (.inl rfl)), named, rfl⟩
    · exact .inl (.inr (.inr after))
  · rw [added, elements_add, List.mem_append, List.mem_singleton] at mem
    rcases mem with old | rfl
    · exact .inl old
    · exact .inr ⟨_, .inr rfl, rfl, rfl⟩

/-! ## What a product holds -/

/-- Children that are taken out or changed when a product becomes a merge module, and features. -/
def changingNames : List String :=
  ["Feature", "Media", "Package"]

/-- Beside children of changing names, the children are `parts` and the tables of the sequences with
`entries`. -/
structure HasChildren (e : Element) (parts : List Element) (entries : List (Sequence × Element)) :
    Prop where
  name_mem : e.name ∈ ["Product", "Module"]
  named : ∀ name ∉ changingNames ++ Sequence.names,
    e.elementsNamed name = parts.filter fun x => x.name == name
  tables : ∀ sequence : Sequence,
    e.elementsNamed (Choice.name sequence) = sequence.table (sequence.rows entries)
  unscheduled : ∀ x ∈ e.elements, x.name ∉ Sequence.names → x.Unscheduled
  featureless : ∀ x ∈ e.elements, x.name ≠ "Feature" → Only (· ≠ "Feature") x

namespace HasChildren

variable {e : Element} {parts : List Element} {entries : List (Sequence × Element)}

theorem addAll (has : e.HasChildren parts entries) {children : List Element}
    (unscheduled : ∀ x ∈ children, x.Unscheduled)
    (featureless : ∀ x ∈ children, x.name ≠ "Feature" → Only (· ≠ "Feature") x) :
    (e.addAll children).HasChildren (parts ++ children) entries where
  name_mem := has.name_mem
  named := fun name kept => by
    rw [elementsNamed_addAll, has.named name kept, List.filter_append]
  tables := fun sequence => by
    have none : children.filter (fun x => x.name == Choice.name sequence) = [] :=
      List.filter_eq_nil_iff.mpr fun x mem => by
        have other : x.name ≠ Choice.name sequence := fun named =>
          (unscheduled x mem).name_notMem (named ▸ sequence.name_mem_names)
        simpa using other
    rw [elementsNamed_addAll, has.tables, none, List.append_nil]
  unscheduled := by
    rw [elements_addAll, List.forall_mem_append]
    exact ⟨has.unscheduled, fun x mem _ => unscheduled x mem⟩
  featureless := by
    rw [elements_addAll, List.forall_mem_append]
    exact ⟨has.featureless, featureless⟩

theorem addFeatures (has : e.HasChildren parts entries) {features : List Element}
    (unscheduled : ∀ x ∈ features, x.Unscheduled) (named : ∀ x ∈ features, x.name = "Feature") :
    (e.addAll features).HasChildren parts entries := by
  have added := has.addAll unscheduled fun x mem other => absurd (named x mem) other
  refine { added with named := fun name kept => ?_ }
  have none : features.filter (fun x => x.name == name) = [] :=
    List.filter_eq_nil_iff.mpr fun x mem => by
      have other : "Feature" ≠ name := fun same =>
        kept (List.mem_append_left _ (same ▸ List.mem_cons_self ..))
      simpa [named x mem] using other
  rw [added.named name kept, List.filter_append, none, List.append_nil]

theorem addEntry (has : e.HasChildren parts entries) {sequence : Sequence} {entry : Element}
    (featureless : Only (· ≠ "Feature") entry) :
    (e.addEntry sequence entry).HasChildren parts (entries ++ [(sequence, entry)]) where
  name_mem := by
    rw [name_addEntry]
    exact has.name_mem
  named := fun name kept => by
    have different : Choice.name sequence ≠ name := fun same =>
      kept (List.mem_append_right _ (same ▸ sequence.name_mem_names))
    rw [elementsNamed_addEntry_of_ne different, has.named name kept]
  tables := fun other => by
    by_cases same : sequence = other
    · subst same
      rw [elementsNamed_addEntry_self (has.tables sequence), Sequence.rows_concat_self]
    · rw [elementsNamed_addEntry_of_ne fun equal => same (Sequence.name_inj.mp equal), has.tables,
        Sequence.rows_concat_of_ne same]
  unscheduled := fun x mem other => by
    rcases mem_addEntry mem with old | ⟨old, -, named, rfl⟩
    · exact has.unscheduled x old other
    · exact absurd (named ▸ sequence.name_mem_names) other
  featureless := fun x mem other => by
    rcases mem_addEntry mem with old | ⟨old, found, named, rfl⟩
    · exact has.featureless x old other
    · refine only_add.mpr ⟨?_, featureless⟩
      rcases found with among | rfl
      · exact has.featureless old among other
      · exact only_mk_nil.mpr other

theorem addActions (has : e.HasChildren parts entries) {actions : ActionElements}
    (unscheduled : ∀ x ∈ actions.definitions, x.Unscheduled)
    (definitions : ∀ x ∈ actions.definitions, x.name ≠ "Feature" → Only (· ≠ "Feature") x)
    (featureless : ∀ entry ∈ actions.entries, Only (· ≠ "Feature") entry.2) :
    (e.addActions actions).HasChildren (parts ++ actions.definitions)
      (entries ++ actions.entries) := by
  have kept : ∀ (list : List (Sequence × Element)), (∀ entry ∈ list, Only (· ≠ "Feature") entry.2) →
      ∀ {product : Element} {before : List (Sequence × Element)},
        product.HasChildren (parts ++ actions.definitions) before →
          (list.foldl (fun product entry => product.addEntry entry.1 entry.2) product).HasChildren
            (parts ++ actions.definitions) (before ++ list) := by
    intro list featureless
    induction list with
    | nil => exact fun {_ before} has => (List.append_nil before).symm ▸ has
    | cons entry rest ih =>
      intro product before has
      rw [List.forall_mem_cons] at featureless
      have added : (product.addEntry entry.1 entry.2).HasChildren _ _ := has.addEntry featureless.1
      have grown := ih featureless.2 added
      rwa [List.append_assoc] at grown
  exact kept _ featureless (has.addAll unscheduled definitions)

/-! ### References to merge modules -/

theorem replace {name : String} {attrs : List (String × String)}
    {front back : List (Node Element)} {child new : Element}
    (has : HasChildren ⟨name, attrs, front ++ .element child :: back⟩ parts entries)
    (same : new.name = child.name) (changing : child.name ∈ changingNames)
    (unscheduled : child.Unscheduled → new.Unscheduled)
    (featureless : (child.name ≠ "Feature" → Only (· ≠ "Feature") child) →
      new.name ≠ "Feature" → Only (· ≠ "Feature") new) :
    HasChildren ⟨name, attrs, front ++ .element new :: back⟩ parts entries := by
  have noSequence : child.name ∉ Sequence.names :=
    (by decide : ∀ name ∈ changingNames, name ∉ Sequence.names) _ changing
  have members : ∀ x ∈ elements ⟨name, attrs, front ++ .element new :: back⟩,
      x ∈ elements ⟨name, attrs, front ++ .element child :: back⟩ ∨ x = new := by
    simp only [elements_mk_append, elements_mk_cons, List.mem_append, List.mem_cons]
    rintro x (before | rfl | after)
    · exact .inl (.inl before)
    · exact .inr rfl
    · exact .inl (.inr (.inr after))
  exact {
    name_mem := has.name_mem
    named := fun other kept => by
      have different : child.name ≠ other := fun equal =>
        kept (List.mem_append_left _ (equal ▸ changing))
      rw [elementsNamed_replace same different, has.named other kept]
    tables := fun sequence => by
      have different : child.name ≠ Choice.name sequence := fun equal =>
        noSequence (equal ▸ sequence.name_mem_names)
      rw [elementsNamed_replace same different, has.tables]
    unscheduled := fun x mem other => by
      rcases members x mem with old | rfl
      · exact has.unscheduled x old other
      · exact unscheduled (has.unscheduled child (by simp) noSequence)
    featureless := fun x mem other => by
      rcases members x mem with old | rfl
      · exact has.featureless x old other
      · exact featureless (has.featureless child (by simp)) other }

theorem addMergeRef (has : e.HasChildren parts entries) (featureId moduleId : String) :
    (Project.addMergeRef e featureId moduleId).HasChildren parts entries := by
  rw [Project.addMergeRef]
  split
  next focus found =>
    obtain ⟨place, isFeature⟩ := isPlace_of_focus? found
    have feature : focus.node.name = "Feature" := by
      simp only [hasNameAndId, Bool.and_eq_true, beq_iff_eq] at isFeature
      exact isFeature.1
    cases place with
    | whole e =>
      have outer := has.name_mem
      rw [show e.name = "Feature" from feature] at outer
      exact absurd outer (by decide)
    | @child focus child name attrs front back inside =>
      -- features are in features only
      have outer : child.name = "Feature" := by
        by_contra other
        exact (inside.only_node (has.featureless child (by simp) other)).here feature
      have named : (focus.put (focus.node.add
          { name := "MergeRef", attrs := [("Id", moduleId)] })).name = child.name :=
        name_eq_of_tag (inside.tag_put rfl)
      refine has.replace named (outer ▸ by decide) (fun old => ?_)
        fun _ other => absurd (named.trans outer) other
      exact inside.only old (only_add.mpr ⟨inside.only_node old, only_mk_nil.mpr (by decide)⟩)
  next => exact has

theorem wireMergeModule (has : e.HasChildren parts entries) {project : Project} {moduleId : String}
    {feature : Option String} {result : Element}
    (wired : project.wireMergeModule e moduleId feature = .ok result) :
    result.HasChildren parts entries := by
  cases feature with
  | none =>
    simp only [Project.wireMergeModule] at wired
    split at wired
    next =>
      cases wired
      exact has.addMergeRef _ _
    next => cases wired
  | some name =>
    simp only [Project.wireMergeModule] at wired
    split at wired
    next => cases wired
    next declared _ =>
      cases wired
      refine addMergeRef ?_ _ _
      rw [Project.withFeature]
      split
      next => exact has
      next =>
        have feature : declared.element.Unscheduled := by
          simp [Unscheduled, Feature.element, Sequence.names_eq]
        exact has.addFeatures (List.forall_mem_singleton.mpr feature)
          (by simp [Feature.element])

theorem wireMergeModules (has : e.HasChildren parts entries) {project : Project} {ledger : Ledger}
    {result : Element} (wired : project.wireMergeModules ledger e = .ok result) :
    result.HasChildren parts entries := by
  rw [Project.wireMergeModules] at wired
  generalize ledger.mergeModules = modules at wired
  induction modules generalizing e with
  | nil =>
    cases wired
    exact has
  | cons entry rest ih =>
    rw [List.foldlM_cons] at wired
    cases first : project.wireMergeModule e entry.1 entry.2 with
    | error fault =>
      rw [first] at wired
      cases wired
    | ok next =>
      rw [first] at wired
      exact ih (has.wireMergeModule first) wired

/-! ### Order and merge modules -/

theorem reorder (has : e.HasChildren parts entries) :
    (Product.reorder e).HasChildren parts entries := by
  have members : ∀ x ∈ (Product.reorder e).elements, x ∈ e.elements := by
    intro x mem
    have among : x ∈ (Product.reorder e).elementsNamed x.name := List.mem_filter.mpr ⟨mem, by simp⟩
    rw [elementsNamed_reorder] at among
    exact (List.mem_filter.mp among).1
  exact {
    name_mem := name_reorder e ▸ has.name_mem
    named := fun name kept => (elementsNamed_reorder e name).trans (has.named name kept)
    tables := fun sequence => (elementsNamed_reorder e _).trans (has.tables sequence)
    unscheduled := fun x mem => has.unscheduled x (members x mem)
    featureless := fun x mem => has.featureless x (members x mem) }

theorem name_modulePackage (c : Compilation) (package : Element) :
    (c.modulePackage package).name = package.name := by
  rw [Compilation.modulePackage, name_attr?, name_attr]
  rfl

theorem moduleElement (c : Compilation) (has : e.HasChildren parts entries) :
    (c.moduleElement e).HasChildren parts entries := by
  have members : (e.takeChildren fun x => x.name == "Feature" || x.name == "Media").2.elements =
      e.elements.filter fun x => !(x.name == "Feature" || x.name == "Media") :=
    elements_takeChildren _ _
  rw [Compilation.moduleElement]
  generalize e.takeChildren (fun x => x.name == "Feature" || x.name == "Media") = pair at members ⊢
  obtain ⟨taken, rest⟩ := pair
  -- the children that are left are those of other names
  have left : ∀ name, name ≠ "Feature" → name ≠ "Media" → ∀ attrs,
      elementsNamed ⟨"Module", attrs, rest.children⟩ name = e.elementsNamed name := by
    intro name notFeature notMedia attrs
    have children : elements ⟨"Module", attrs, rest.children⟩ = rest.elements := rfl
    rw [elementsNamed, children, members, List.filter_filter, elementsNamed]
    congr 1
    funext x
    by_cases named : x.name = name <;> simp [named, notFeature, notMedia]
  have module : ∀ attrs,
      HasChildren ⟨"Module", attrs, rest.children⟩ parts entries := fun attrs => {
    name_mem := by
      show "Module" ∈ _
      decide
    named := fun name kept => by
      have others : name ≠ "Feature" ∧ name ≠ "Media" := by
        constructor <;> (rintro rfl; exact kept (by decide))
      rw [left name others.1 others.2, has.named name kept]
    tables := fun sequence => by
      rw [left _ (by cases sequence <;> decide) (by cases sequence <;> decide), has.tables]
    unscheduled := fun x mem => has.unscheduled x (List.mem_filter.mp (members ▸ mem)).1
    featureless := fun x mem => has.featureless x (List.mem_filter.mp (members ▸ mem)).1 }
  simp only
  split
  next place found =>
    rw [focusChild?, Option.map_eq_some_iff] at found
    obtain ⟨⟨child, put⟩, among, rfl⟩ := found
    obtain ⟨front, back, children, isPackage, -, rfl⟩ := focusAmong?_eq_some among
    replace children : rest.children = front ++ .element child :: back := children
    rw [children] at module
    have package : child.name = "Package" := by simpa using isPackage
    refine (module _).replace (name_modulePackage c child) (package ▸ by decide) (fun old => ?_)
      fun old _ => ?_
    · rw [Unscheduled, Compilation.modulePackage, only_attr?, only_attr, only_withoutAttr]
      exact old
    · rw [Compilation.modulePackage, only_attr?, only_attr, only_withoutAttr]
      exact old (package ▸ by decide)
  next => exact module _

end HasChildren

end Markup.Element

end Installer
