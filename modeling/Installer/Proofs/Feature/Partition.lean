import Installer.Proofs.Product.Document
import Mathlib.Data.List.Dedup

/-! # Components and features

Every component is booked for one feature or for none.  The features of a product share out the
components of its document: each component has exactly one feature that refers to it, where the
default feature takes those that are booked for none.  A feature without components is left out.
-/

namespace Installer

open Markup (Element)
open Markup.Element

namespace Project

variable {project : Project} {ledger : Ledger}

/-! ## The components of a name -/

/-- The components booked for a name, in the order in which they were booked, and after them, if it
is the name of the default feature, those booked for none. -/
def componentsNamed (project : Project) (ledger : Ledger) (name : String) : List String :=
  ledger.componentsOf (some name) ++
    if name = project.defaultFeature.name then ledger.componentsOf none else []

theorem componentsFor_eq :
    project.componentsFor ledger = fun feature => project.componentsNamed ledger feature.name := rfl

/-- The name of the feature that a component with an entry belongs to. -/
def ownerOf (project : Project) (entry : String × Option String) : String :=
  entry.2.getD project.defaultFeature.name

theorem perm_componentsNamed (name : String) :
    (project.componentsNamed ledger name).Perm
      ((ledger.components.filter fun entry => project.ownerOf entry == name).map Prod.fst) := by
  by_cases default : name = project.defaultFeature.name
  · rw [componentsNamed, if_pos default, Ledger.componentsOf, Ledger.componentsOf,
      ← List.map_append]
    refine List.Perm.map _ ?_
    -- the default feature owns two groups, which the ledger mixes
    have split := List.filter_append_perm (fun entry => entry.2 == some name)
      (ledger.components.filter fun entry => project.ownerOf entry == name)
    rw [List.filter_filter, List.filter_filter] at split
    convert split using 2
    · refine List.filter_congr fun entry _ => ?_
      cases feature : entry.2 <;> simp [ownerOf, feature]
    · refine List.filter_congr fun entry _ => ?_
      cases feature : entry.2 <;> simp [ownerOf, feature, default]
  · rw [componentsNamed, if_neg default, List.append_nil, Ledger.componentsOf]
    refine List.Perm.of_eq (congrArg _ (List.filter_congr fun entry _ => ?_))
    cases feature : entry.2 with
    | none => simp [ownerOf, feature, Ne.symm default]
    | some owner => simp [ownerOf, feature]

theorem mem_of_feature? {name : String} {feature : Feature}
    (found : project.feature? name = some feature) :
    feature ∈ project.allFeatures ∧ feature.name = name := by
  rw [feature?] at found
  split at found
  next default =>
    cases found
    exact ⟨List.mem_cons_self .., default⟩
  next other =>
    have named : feature.name = name := by simpa using List.find?_some found
    refine ⟨List.mem_cons_of_mem _ (List.mem_filter.mpr ?_), named⟩
    exact ⟨List.mem_of_find?_eq_some found, by simpa [named] using Ne.symm other⟩

theorem mem_names_of_feature? {name : String} (found : (project.feature? name).isSome = true) :
    name ∈ project.allFeatures.map (·.name) := by
  obtain ⟨feature, found⟩ := Option.isSome_iff_exists.mp found
  obtain ⟨mem, named⟩ := mem_of_feature? found
  exact named ▸ List.mem_map_of_mem mem

/-- The features share out all components when those they are booked for are declared. -/
theorem perm_components (declared : ∀ entry ∈ ledger.components, ∀ name, entry.2 = some name →
    (project.feature? name).isSome = true) :
    ((project.allFeatures.map (·.name)).dedup.flatMap (project.componentsNamed ledger)).Perm
      (ledger.components.map Prod.fst) := by
  have all : ∀ entry ∈ ledger.components,
      project.ownerOf entry ∈ (project.allFeatures.map (·.name)).dedup := by
    intro entry mem
    rw [List.mem_dedup]
    cases feature : entry.2 with
    | none => simp [ownerOf, feature, allFeatures]
    | some name =>
      rw [ownerOf, feature]
      exact mem_names_of_feature? (declared entry mem name feature)
  have groups := (perm_flatMap_filter (List.nodup_dedup _) all).map Prod.fst
  rw [List.map_flatMap] at groups
  exact (List.Perm.flatMap_left _ fun name _ => perm_componentsNamed name).trans groups

/-! ## The entries of features -/

theorem entry_placedFeature {i : Nat} {retained : RetainedFeature}
    (at_ : (project.retainedFeatures ledger)[i]? = some retained) :
    (project.placedFeature ledger i).featureEntry =
      retained.feature.entry retained.components := by
  -- neither the features inside nor the conditions are references
  have below : ((project.attachedTo ledger (some i)).map (project.placedFeature ledger)).filter
      (fun x => x.name == "ComponentRef") = [] := by
    refine List.filter_eq_nil_iff.mpr (List.forall_mem_map.mpr fun j mem => ?_)
    simp [name_placedFeature (lt_of_mem_attachedTo mem)]
  have conditions : retained.feature.element.elements.filter
      (fun x => x.name == "ComponentRef") = [] :=
    List.filter_eq_nil_iff.mpr fun x mem => by
      simp [(retained.feature.elements_element x mem).2]
  have refs : (project.placedFeature ledger i).elementsNamed "ComponentRef" =
      retained.components.map fun id => { name := "ComponentRef", attrs := [("Id", id)] } := by
    rw [placedFeature_eq at_, elementsNamed, elements_addAll, List.filter_append, below,
      List.append_nil, RetainedFeature.element, elements_addAll, List.filter_append, conditions,
      List.nil_append]
    exact List.filter_eq_self.mpr (List.forall_mem_map.mpr fun _ _ => by simp)
  rw [featureEntry, refs, Feature.entry, List.map_map, placedFeature_eq at_]
  rfl

/-- The features with components, each with its components, are those that are made. -/
theorem perm_entries :
    ((project.featureElements ledger).flatMap featureEntries).Perm
      ((project.allFeatures.filter fun feature =>
          !(project.componentsNamed ledger feature.name).isEmpty).map fun feature =>
        feature.entry (project.componentsNamed ledger feature.name)) := by
  have placed : (List.range (project.retainedFeatures ledger).length).map
      (fun i => (project.placedFeature ledger i).featureEntry) =
        (project.retainedFeatures ledger).map fun retained =>
          retained.feature.entry retained.components := by
    refine List.ext_getElem (by simp) fun i inside _ => ?_
    rw [List.length_map, List.length_range] at inside
    rw [List.getElem_map, List.getElem_range, List.getElem_map]
    exact entry_placedFeature (List.getElem?_eq_getElem inside)
  have entries := (@perm_featureElements project ledger).map featureEntry
  rw [List.map_flatMap, List.map_map] at entries
  have retained : ((project.retainedFeatures ledger).map fun retained =>
      retained.feature.entry retained.components) =
        (project.allFeatures.filter fun feature =>
            !(project.componentsNamed ledger feature.name).isEmpty).map fun feature =>
          feature.entry (project.componentsNamed ledger feature.name) := by
    rw [retainedFeatures, componentsFor_eq, List.filter_map, List.map_map]
    rfl
  exact entries.trans (.of_eq (placed.trans retained))

/-! ## The partition -/

/-- The features of a document refer to each of its components once. -/
structure Partitions (project : Project) (ledger : Ledger) (document : Element) : Prop where
  /-- One element is made for each declared feature with components, with references to just these
  components in the order in which they were made, and none for the others. -/
  made : ((project.featureElements ledger).flatMap featureEntries).Perm
    ((project.allFeatures.filter fun feature =>
        !(project.componentsNamed ledger feature.name).isEmpty).map fun feature =>
      feature.entry (project.componentsNamed ledger feature.name))
  /-- These elements are in the document, where other features may follow for the sake of merge
  modules, which refer to no component. -/
  kept : ∃ later, ((document.descendantsNamed "Feature").map featureEntry).Perm
      ((project.featureElements ledger).flatMap featureEntries ++ later) ∧
    ∀ entry ∈ later, ∃ name feature, project.feature? name = some feature ∧
      entry = feature.entry []
  /-- The components of the document are those of all features. -/
  components : ((document.descendantsNamed "Component").map id?).Perm
    (((project.allFeatures.map (·.name)).dedup.flatMap (project.componentsNamed ledger)).map some)

/-- The features are not touched when the directories are prepared. -/
theorem allFeatures_prepare (project : Project) (options : Options) :
    (project.prepare options).project.allFeatures = project.allFeatures := by
  obtain ⟨dirs, actions, same, -⟩ := project.exists_prepare options
  rw [same]
  rfl

/-- The features of a compiled installer refer to every component once, and the ledger that says so
lists the components of the compilation with the features that their entities name. -/
theorem partitions_of_compile {options : Options} {output : Output}
    (compiled : project.compile options = .ok output) (msi : options.outputType = .msi) :
    ∃ c ledger, Compilation.ofProject options (project.prepare options).project = .ok c ∧
      c.emitDocument.Gives { ids := (project.prepare options).ids } output.document ledger ∧
      c.project.allFeatures = project.allFeatures ∧
      ledger.components = c.bookings.map Booking.line ∧
      c.project.Partitions ledger output.document := by
  obtain ⟨c, ledger, start, steps, made⟩ := made_of_compile compiled
  obtain ⟨prepared, chosen⟩ := Compilation.project_of_ofProject start
  have features : c.project.allFeatures = project.allFeatures := by
    rw [prepared]
    exact project.allFeatures_prepare options
  have isMsi : c.options.outputType = .msi := by
    rw [chosen]
    exact msi
  refine ⟨c, ledger, start, steps, features, made.components, perm_entries, made.features isMsi, ?_⟩
  -- the components of the document are the lines of the ledger, which the features share out
  have ids : c.bookings.map (fun booking => some booking.componentId) =
      (ledger.components.map Prod.fst).map some := by
    rw [made.components, List.map_map, List.map_map]
    rfl
  have declared : ∀ entry ∈ ledger.components, ∀ name, entry.2 = some name →
      (c.project.feature? name).isSome = true := by
    rw [made.components]
    exact List.forall_mem_map.mpr made.declared
  exact made.componentIds.trans (ids ▸ ((perm_components declared).map some).symm)

/-- A project with a feature below one that has no components. -/
def tooled : Project where
  name := "App"
  features := [{ name := "Suite" }, { name := "Tools", parent := some "Suite" },
    { name := "Manual", parent := some "Tools" }]
  dirs := [⟨{ name := "%ProgramFiles%\\App", files := [{ name := "app.exe" },
    { name := "tool.exe", feature := some "Tools" },
    { name := "manual.txt", feature := some "Manual" }] }, []⟩]

theorem partitions_tooled :
    ∃ (output : Output) (c : Compilation) (ledger : Ledger),
      tooled.compile {} = .ok output ∧ c.project.Partitions ledger output.document := by
  obtain ⟨output, compiled⟩ := exists_output
    (by decide +kernel : (tooled.compile {}).isOk = true)
  obtain ⟨c, ledger, -, -, -, -, partitions⟩ := partitions_of_compile compiled rfl
  exact ⟨output, c, ledger, compiled, partitions⟩

end Project

end Installer
