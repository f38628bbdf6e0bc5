import Installer.Proofs.Component.Distinct
import Installer.Proofs.Directory.Turns
import Installer.Proofs.Feature.Partition

/-! # The features of directories

A directory that names a feature gets a component, and the feature refers to it.  The exception is a
directory that is passed over: it is empty, and an earlier one with its id path has filled the
element that they share, so nothing is made for it.
-/

namespace Installer

open Markup (Element)
open Markup.Element

variable {c : Compilation}

/-! ## The component of a directory -/

/-- In its turn a directory with a feature gets a component of its own, unless it is empty and its
element has one already. -/
theorem Turn.exists_own {turn : Turn} {name : String} (named : turn.dir.feature = some name)
    (own : ¬ (turn.dir.isEmpty = true ∧ turn.owned = true)) :
    ∃ origin, (⟨origin, some name⟩ : Booking) ∈ turn.bookings ∧
      ∃ x ∈ turn.contents c, x.name = "Component" ∧ x.id? = some origin.componentId := by
  have folder : ∀ id, (DirBody.folderComponent c id).name = "Component" ∧
      (DirBody.folderComponent c id).id? = some id :=
    fun id => ⟨(isComponent_folder c id).name_eq, (isComponent_folder c id).id_eq⟩
  cases empty : turn.dir.isEmpty with
  | true =>
    have free : turn.owned = false := by simpa [empty] using own
    refine ⟨.emptyFolder turn.dir.finalId, ?_, _, ?_, folder _⟩
    · simp [bookings, DirBody.emptyBookings, empty, free, named]
    · simp [contents, DirBody.emptyContents, empty, free, Origin.componentId]
  | false =>
    refine ⟨.folder turn.dir.finalId, ?_, _, ?_, folder _⟩
    · simp [bookings, DirBody.bookings, empty, named]
    · simp [contents, DirBody.contents, empty, named, Origin.componentId]

/-! ## References of features -/

/-- Each feature of the booked name refers to the component of the booking. -/
theorem Compilation.Made.exists_reference {document : Element} {ledger : Ledger}
    (made : c.Made document ledger) (msi : c.options.outputType = .msi) {booking : Booking}
    (mem : booking ∈ c.bookings) {name : String} (booked : booking.feature = some name)
    {feature : Feature} (isFeature : feature ∈ c.project.allFeatures)
    (named : feature.name = name) :
    ∃ e ∈ document.descendantsNamed "Feature", e.tag = feature.element.tag ∧
      some booking.componentId ∈ (e.elementsNamed "ComponentRef").map id? := by
  have shared : booking.componentId ∈ c.project.componentsNamed ledger feature.name := by
    have line : (booking.componentId, some name) ∈ ledger.components := by
      rw [made.components, ← booked]
      exact List.mem_map_of_mem mem
    rw [named, Project.componentsNamed, Ledger.componentsOf]
    refine List.mem_append_left _ (List.mem_map.mpr ⟨_, List.mem_filter.mpr ⟨line, ?_⟩, rfl⟩)
    simp
  -- the feature is retained, as it has a component
  have retained : feature.entry (c.project.componentsNamed ledger feature.name) ∈
      (c.project.featureElements ledger).flatMap featureEntries := by
    refine Project.perm_entries.mem_iff.mpr (List.mem_map.mpr ⟨feature, ?_, rfl⟩)
    refine List.mem_filter.mpr ⟨isFeature, ?_⟩
    simpa using List.ne_nil_of_mem shared
  obtain ⟨later, entries, -⟩ := made.features msi
  have among := entries.mem_iff.mpr (List.mem_append_left later retained)
  obtain ⟨e, isElement, entry⟩ := List.mem_map.mp among
  refine ⟨e, isElement, congrArg FeatureEntry.tag entry, ?_⟩
  have refs : (e.elementsNamed "ComponentRef").map id? =
      (c.project.componentsNamed ledger feature.name).map some :=
    congrArg FeatureEntry.components entry
  rw [refs]
  exact List.mem_map_of_mem shared

/-! ## Directories and their features -/

/-- There is a feature of the name, and each one refers to the same component directly inside the
directory at the path. -/
def Project.Serves (project : Project) (document root : Element) (path : List String)
    (name : String) : Prop :=
  (∃ feature ∈ project.allFeatures, feature.name = name) ∧
    ∃ d id, root.directoriesAt path = [d] ∧ some id ∈ (d.elementsNamed "Component").map id? ∧
      ∀ feature ∈ project.allFeatures, feature.name = name →
        ∃ e ∈ document.descendantsNamed "Feature", e.tag = feature.element.tag ∧
          some id ∈ (e.elementsNamed "ComponentRef").map id?

/-- An empty directory is passed over if one of the directories before it has its id path and fills
the element there. -/
def Dir.IsPassedOver (before : List (List String × Dir)) (path : List String) (dir : Dir) : Prop :=
  dir.isEmpty = true ∧ ∃ entry ∈ before, entry.1 = path ∧ entry.2.Fills

theorem Compilation.serves_of_turn {document : Element} {ledger : Ledger}
    {components : List Element}
    {turn : Turn} {name : String} (made : c.Made document ledger)
    (msi : c.options.outputType = .msi)
    (madeFor : MadeFor c.project.standaloneBookings components []) (mem : turn ∈ c.turns)
    (named : turn.dir.feature = some name)
    (own : ¬ (turn.dir.isEmpty = true ∧ turn.owned = true)) :
    c.project.Serves document (c.root components) turn.path name := by
  obtain ⟨origin, booked, x, inside, isComponent, identified⟩ := turn.exists_own (c := c) named own
  have booking := mem_bookings_of_turn mem _ booked
  obtain ⟨held, present, holds⟩ := exists_held_of_turn madeFor mem
  rw [heldAt?, Option.map_eq_some_iff] at present
  obtain ⟨d, leads, rfl⟩ := present
  have tidy : Tidy (c.root components) := (extended_root madeFor).tidy
  refine ⟨?_, d, origin.componentId, ?_, ?_, fun feature isFeature same => ?_⟩
  · have declared := Project.mem_names_of_feature? (made.declared _ booking name rfl)
    obtain ⟨feature, isFeature, same⟩ := List.mem_map.mp declared
    exact ⟨feature, isFeature, same⟩
  · rw [tidy.directoriesAt_eq, leads]
    rfl
  · have among : x ∈ d.elements := (List.mem_filter.mp (holds x inside)).1
    rw [← identified]
    exact List.mem_map_of_mem (List.mem_filter.mpr ⟨among, by simp [isComponent]⟩)
  · exact made.exists_reference msi booking rfl isFeature same

namespace Project

/-- The features that directories name are not touched by the preparation. -/
theorem features_prepare (project : Project) (options : Options) :
    (Dir.all (project.prepare options).project.dirs).filterMap (fun dir => dir.feature) =
      (Dir.all project.dirs).filterMap fun dir => dir.feature := by
  have read : ∀ dirs, (Dir.all dirs).filterMap (fun dir => dir.feature) =
      Dir.readAll (fun body => body.feature.toList) dirs := fun dirs => by
    rw [Dir.readAll, List.filterMap_eq_flatMap_toList]
  rw [read, read]
  exact project.readAll_prepare options
    ⟨fun _ _ => rfl, fun _ _ => rfl, fun _ => rfl, fun _ => rfl⟩ fun _ => rfl

/-- In an installer that compiles, each directory with a feature is served by it unless it is passed
over. -/
theorem serves_of_compile {project : Project} {options : Options} {output : Output}
    (compiled : project.compile options = .ok output) (msi : options.outputType = .msi) :
    ∃ c package root, Compilation.ofProject options (project.prepare options).project = .ok c ∧
      output.document.elements = [package] ∧ package.elementsNamed "Directory" = [root] ∧
      (Dir.all c.project.dirs).filterMap (fun dir => dir.feature) =
        (Dir.all project.dirs).filterMap (fun dir => dir.feature) ∧
      ∀ before path dir after name, Dir.located c.project.dirs = before ++ (path, dir) :: after →
        dir.feature = some name → ¬ Dir.IsPassedOver before path dir →
          project.Serves output.document root path name := by
  obtain ⟨c, ledger, start, -, made⟩ := made_of_compile compiled
  obtain ⟨prepared, chosen⟩ := Compilation.project_of_ofProject start
  obtain ⟨extensions, package, components, document, madeFor, holds⟩ := made.holdsRoot
  refine ⟨c, package, c.root components, start, ?_, holds.directories, ?_, ?_⟩
  · rw [document]
    exact Compilation.elements_document
  · rw [prepared]
    exact project.features_prepare options
  · intro before path dir after name located named notPassed
    have turn : ⟨path, dir, before.any fun entry => path == entry.1 && decide entry.2.Fills⟩ ∈
        c.turns := by
      rw [Compilation.turns, located]
      exact @Dir.mem_turns (fun _ => false) before after path dir
    have served := Compilation.serves_of_turn made (by rw [chosen]; exact msi) madeFor turn named ?_
    · have same : c.project.allFeatures = project.allFeatures := by
        rw [prepared]
        exact project.allFeatures_prepare options
      rwa [Serves, same] at served
    · rintro ⟨empty, owned⟩
      obtain ⟨entry, mem, here⟩ := List.any_eq_true.mp owned
      rw [Bool.and_eq_true, beq_iff_eq, decide_eq_true_eq] at here
      exact notPassed ⟨empty, entry, mem, here.1.symm, here.2⟩

theorem serves_overlapping : ∃ output root, overlapping.compile {} = .ok output ∧
    overlapping.Serves output.document root ["ProgramFilesFolder"] "Core" := by
  obtain ⟨output, compiled⟩ := exists_output
    (by decide +kernel : (overlapping.compile {}).isOk = true)
  obtain ⟨c, package, root, start, -, -, -, serves⟩ := serves_of_compile compiled rfl
  refine ⟨output, root, compiled, ?_⟩
  have first : ((Dir.located c.project.dirs).head?.map fun entry => (entry.1, entry.2.feature)) =
      some (["ProgramFilesFolder"], some "Core") := by
    rw [(Compilation.project_of_ofProject start).1]
    decide +kernel
  obtain ⟨⟨path, dir⟩, head, equal⟩ := Option.map_eq_some_iff.mp first
  obtain ⟨rfl, named⟩ := Prod.mk.injEq .. ▸ equal
  obtain ⟨after, located⟩ := List.head?_eq_some_iff.mp head
  exact serves [] _ dir after "Core" located named fun passed => by
    obtain ⟨-, entry, mem, -⟩ := passed
    cases mem

/-- A project that declares a special folder with a file, and again without anything but a feature.
-/
def shadowed : Project where
  name := "App"
  features := [{ name := "Core" }]
  dirs := [⟨{ name := "%ProgramFiles%", files := [{ name := "a.txt" }] }, []⟩,
    ⟨{ name := "%ProgramFiles%", feature := some "Core" }, []⟩]

/-- The second declaration is passed over, and its feature is not in the document at all. -/
theorem not_serves_shadowed : (∃ dir ∈ shadowed.dirs, dir.feature = some "Core") ∧
    ∃ output, shadowed.compile {} = .ok output ∧
      ∀ root path, ¬ shadowed.Serves output.document root path "Core" := by
  refine ⟨⟨_, List.mem_cons_of_mem _ (List.mem_cons_self ..), rfl⟩, ?_⟩
  obtain ⟨output, compiled, absent⟩ : ∃ output, shadowed.compile {} = .ok output ∧
      ((output.document.descendantsNamed "Feature").all fun e => e.id? != some "Core") = true :=
    exists_output_of_any (by decide +kernel)
  refine ⟨output, compiled, fun root path serves => ?_⟩
  obtain ⟨-, d, id, -, -, refers⟩ := serves
  obtain ⟨e, mem, same, -⟩ := refers { name := "Core" } (by simp [allFeatures, shadowed]) rfl
  have here : e.id? = some "Core" := (id?_eq_of_tag same).trans (by decide +kernel)
  simpa [here] using List.all_eq_true.mp absent e mem

end Project

end Installer
