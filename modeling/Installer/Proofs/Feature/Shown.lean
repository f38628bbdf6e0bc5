import Installer.Proofs.Emit.Contract
import Installer.Proofs.Markup.Survey
import Installer.Proofs.Product.Features

/-! # When merge modules find their features

References to merge modules are made one after the other.  A reference from a feature that is named
brings this feature along where it is missing, so what a module finds depends on those before it.
Of the product only the ids of its features matter.
-/

namespace Installer

open Markup (Element)
open Markup.Element

def FeatureEntry.id? (entry : FeatureEntry) : Option String :=
  entry.tag.2.lookup "Id"

/-- The features at any depth below the element show these ids. -/
def Markup.Element.ShowsFeatures (e : Element) (shown : List (Option String)) : Prop :=
  ∃ entries, e.HasFeatures entries ∧ entries.map FeatureEntry.id? = shown

namespace Project

/-- The ids of the features after a reference to a merge module: a feature that is named is added
if its id is not there. -/
def shownWith (project : Project) (shown : List (Option String)) (feature : Option String) :
    List (Option String) :=
  match feature.bind project.feature? with
  | none => shown
  | some declared =>
    if some declared.effectiveId ∈ shown then shown else shown ++ [declared.element.id?]

/-- Where no feature is named, the default feature is there by then. -/
def FindsDefault (project : Project) (shown features : List (Option String)) : Prop :=
  ∀ front back, features = front ++ none :: back →
    some project.defaultFeature.effectiveId ∈ front.foldl project.shownWith shown

variable {project : Project} {shown : List (Option String)} {e : Element}

/-! ## Finding the default feature -/

theorem findsDefault_nil : project.FindsDefault shown [] := by
  intro front back split
  simp at split

theorem findsDefault_cons {feature : Option String} {rest : List (Option String)} :
    project.FindsDefault shown (feature :: rest) ↔
      (feature = none → some project.defaultFeature.effectiveId ∈ shown) ∧
        project.FindsDefault (project.shownWith shown feature) rest := by
  constructor
  · intro finds
    refine ⟨fun unnamed => finds [] rest (by rw [unnamed]; rfl), fun front back split => ?_⟩
    exact finds (feature :: front) back (by rw [split]; rfl)
  · rintro ⟨first, others⟩ front back split
    cases front with
    | nil => exact first (List.cons.inj split).1
    | cons head front =>
      obtain ⟨rfl, tails⟩ := List.cons.inj split
      exact others front back tails

/-- What is shown stays shown. -/
theorem mem_foldl_shownWith {id : Option String} (here : id ∈ shown)
    (features : List (Option String)) : id ∈ features.foldl project.shownWith shown := by
  induction features generalizing shown with
  | nil => exact here
  | cons feature rest ih =>
    apply ih
    rw [shownWith]
    split
    next => exact here
    next =>
      split
      next => exact here
      next => exact List.mem_append_left _ here

/-- Where the default feature is there from the start, it is always found. -/
theorem FindsDefault.of_mem (here : some project.defaultFeature.effectiveId ∈ shown)
    (features : List (Option String)) : project.FindsDefault shown features :=
  fun front _ _ => mem_foldl_shownWith here front

end Project

/-! ## Single references -/

namespace Markup.Element.ShowsFeatures

variable {project : Project} {shown : List (Option String)} {e result : Element}

theorem isSome_findById? (shows : e.ShowsFeatures shown) {id : String} :
    (e.findById? "Feature" id).isSome = true ↔ some id ∈ shown := by
  obtain ⟨entries, has, rfl⟩ := shows
  have ids : (e.descendantsNamed "Feature").map id? = e.featureEntries.map FeatureEntry.id? := by
    rw [featureEntries, subtree, List.filter_cons_of_neg (by simpa using has.name_ne), List.map_map]
    rfl
  rw [isSome_findById?_iff, ids]
  exact (has.perm.map _).mem_iff

theorem addMergeRef (shows : e.ShowsFeatures shown) (featureId moduleId : String) :
    (Project.addMergeRef e featureId moduleId).ShowsFeatures shown := by
  obtain ⟨entries, has, same⟩ := shows
  exact ⟨entries, has.addMergeRef featureId moduleId, same⟩

theorem withFeature (shows : e.ShowsFeatures shown) (feature : Feature) :
    (Project.withFeature e feature).ShowsFeatures
      (if some feature.effectiveId ∈ shown then shown else shown ++ [feature.element.id?]) := by
  rw [Project.withFeature]
  split
  next found =>
    rw [if_pos (shows.isSome_findById?.mp found)]
    exact shows
  next missing =>
    rw [if_neg fun here => missing (shows.isSome_findById?.mpr here)]
    obtain ⟨entries, has, rfl⟩ := shows
    refine ⟨entries ++ [feature.entry []], ?_, List.map_append⟩
    have added := has.addAll [feature.element]
    rwa [List.flatMap_singleton, feature.featureEntries_element] at added

/-- A reference succeeds if its feature is declared, or if it names none and the default feature is
there. -/
theorem isOk_wireMergeModule (shows : e.ShowsFeatures shown) (moduleId : String)
    (feature : Option String) :
    (project.wireMergeModule e moduleId feature).isOk = true ↔ project.Declares feature ∧
      (feature = none → some project.defaultFeature.effectiveId ∈ shown) := by
  cases feature with
  | none =>
    simp only [Project.wireMergeModule, Project.Declares, ← shows.isSome_findById?]
    split
    next found => simp [Except.isOk, Except.toBool, found]
    next missing => simp [Except.isOk, Except.toBool, missing]
  | some name =>
    simp only [Project.wireMergeModule, Project.Declares]
    cases found : project.feature? name <;> simp [Except.isOk, Except.toBool, found]

theorem wireMergeModule (shows : e.ShowsFeatures shown) {moduleId : String}
    {feature : Option String} (wired : project.wireMergeModule e moduleId feature = .ok result) :
    result.ShowsFeatures (project.shownWith shown feature) := by
  cases feature with
  | none =>
    simp only [Project.wireMergeModule] at wired
    split at wired
    next =>
      cases wired
      exact shows.addMergeRef _ _
    next => cases wired
  | some name =>
    simp only [Project.wireMergeModule] at wired
    simp only [Project.shownWith, Option.bind_some]
    cases found : project.feature? name with
    | none =>
      rw [found] at wired
      cases wired
    | some declared =>
      rw [found] at wired
      cases wired
      exact (shows.withFeature declared).addMergeRef _ _

/-! ## All references -/

/-- References to merge modules bring features along one after the other. -/
theorem wireMergeModules (shows : e.ShowsFeatures shown) {ledger : Ledger}
    (wired : project.wireMergeModules ledger e = .ok result) :
    result.ShowsFeatures
      ((ledger.mergeModules.map Prod.snd).foldl project.shownWith shown) := by
  rw [Project.wireMergeModules] at wired
  generalize ledger.mergeModules = lines at wired ⊢
  induction lines generalizing e shown with
  | nil =>
    cases wired
    exact shows
  | cons line rest ih =>
    rw [List.foldlM_cons] at wired
    cases first : project.wireMergeModule e line.1 line.2 with
    | error fault =>
      rw [first] at wired
      cases wired
    | ok next =>
      rw [first] at wired
      exact ih (shows.wireMergeModule first) wired

/-- All references succeed if the features that are named are declared and the default feature is
found where none is named. -/
theorem isOk_wireMergeModules (shows : e.ShowsFeatures shown) (ledger : Ledger) :
    (project.wireMergeModules ledger e).isOk = true ↔
      (∀ line ∈ ledger.mergeModules, project.Declares line.2) ∧
        project.FindsDefault shown (ledger.mergeModules.map Prod.snd) := by
  rw [Project.wireMergeModules]
  induction ledger.mergeModules generalizing e shown with
  | nil => exact iff_of_true rfl ⟨by simp, Project.findsDefault_nil⟩
  | cons line rest ih =>
    have here : (project.wireMergeModule e line.1 line.2).isOk = true ↔ _ :=
      shows.isOk_wireMergeModule line.1 line.2
    rw [List.foldlM_cons, List.forall_mem_cons, List.map_cons, Project.findsDefault_cons]
    cases wired : project.wireMergeModule e line.1 line.2 with
    | error fault =>
      rw [wired] at here
      have never : ¬ (project.Declares line.2 ∧
          (line.2 = none → some project.defaultFeature.effectiveId ∈ shown)) :=
        fun holds => by simpa [Except.isOk, Except.toBool] using here.mpr holds
      exact iff_of_false (by simp [bind, Except.bind, Except.isOk, Except.toBool]) (by tauto)
    | ok next =>
      rw [wired] at here
      have holds := here.mp rfl
      refine (ih (shows.wireMergeModule wired)).trans ?_
      tauto

end Markup.Element.ShowsFeatures

end Installer
