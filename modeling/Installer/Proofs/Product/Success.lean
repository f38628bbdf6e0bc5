import Installer.Proofs.Feature.Shown
import Installer.Proofs.Product.Wiring

/-! # When a compilation succeeds

A compilation succeeds if and only if every feature that is named is declared, a few single entities
are in order, and each merge module without a feature finds the default feature.
-/

namespace Installer

open Markup (Element)
open Markup.Element
open Emit

namespace Compilation

variable {c : Compilation} {before after : Ledger}

/-! ## What has to be in order -/

/-- What a compilation needs for everything but its merge modules. -/
structure Needs (c : Compilation) : Prop where
  booked : c.project.DeclaresAll c.bookings
  named : ∀ property ∈ c.project.properties, property.isRef = true →
    property.name.isEmpty = false
  placed : ∀ first ∈ c.project.actions.head?, (first.placement none).isOk = true
  licensed : c.variableElements.isOk = true

def shown (c : Compilation) : List (Option String) :=
  (c.project.allFeatures.filter fun feature =>
      c.bookings.any fun booking => c.project.ownerOf booking.line == feature.name).map
    fun feature => feature.element.id?

/-- What a compilation needs for its merge modules. -/
structure NeedsModules (c : Compilation) (features : List (Option String)) : Prop where
  declared : ∀ feature ∈ features, c.project.Declares feature
  found : c.project.FindsDefault c.shown features

/-! ## Before merge modules are referred to -/

theorem exists_emitInstalled (nowhere : before.locations = []) :
    (∃ installed after, c.emitInstalled.Gives before installed after) ↔
      c.project.DeclaresAll c.bookings ∧
        c.project.DeclaresModules (Dir.modulesIn c.project.dirs) := by
  constructor
  · rintro ⟨installed, after, given⟩
    obtain ⟨_, -, -, -, booked⟩ := gives_emitInstalled nowhere given
    exact ⟨booked, (shows_of_emitInstalled nowhere given).1⟩
  · rintro ⟨booked, modules⟩
    rw [bookings, Project.declaresAll_append] at booked
    obtain ⟨between, treeSteps⟩ := Dir.exists_emitTree nowhere booked.1 modules
    obtain ⟨standalone, after, steps⟩ := c.contract_emitStandalone.succeeds booked.2 between
    simp only [emitInstalled, gives_bind, gives_pure]
    exact ⟨_, after, _, between, treeSteps, standalone, after, steps, rfl, rfl⟩

theorem exists_emitFilled (nowhere : before.locations = []) :
    (∃ product after, c.emitFilled.Gives before product after) ↔
      c.Needs ∧ c.project.DeclaresModules (Dir.modulesIn c.project.dirs) := by
  simp only [emitFilled, gives_bind]
  constructor
  · rintro ⟨product, after, installed, between, installSteps, steps⟩
    obtain ⟨booked, modules⟩ := (exists_emitInstalled nowhere).mp ⟨_, _, installSteps⟩
    obtain ⟨named, placed, licensed⟩ := ((contract_emitFilledWith installed).gives steps).1
    exact ⟨⟨booked, named, placed, licensed⟩, modules⟩
  · rintro ⟨needs, modules⟩
    obtain ⟨installed, between, installSteps⟩ :=
      (exists_emitInstalled nowhere).mpr ⟨needs.booked, modules⟩
    obtain ⟨product, after, steps⟩ := (contract_emitFilledWith installed).succeeds
      ⟨needs.named, needs.placed, needs.licensed⟩ between
    exact ⟨product, after, installed, between, installSteps, steps⟩

/-! ## The features of a product -/

theorem shown_eq {ledger : Ledger} (same : ledger.components = c.bookings.map Booking.line) :
    c.shown = (c.project.allFeatures.filter fun feature =>
      !(c.project.componentsNamed ledger feature.name).isEmpty).map fun feature =>
        feature.element.id? := by
  refine congrArg _ (List.filter_congr fun feature _ => ?_)
  rw [Bool.eq_iff_iff, Bool.not_eq_true', List.isEmpty_eq_false_iff_exists_mem]
  simp only [Project.perm_componentsNamed feature.name |>.mem_iff, List.mem_map, List.mem_filter,
    same, List.any_eq_true, beq_iff_eq]
  constructor
  · rintro ⟨booking, mem, owner⟩
    exact ⟨_, booking.line, ⟨⟨booking, mem, rfl⟩, owner⟩, rfl⟩
  · rintro ⟨_, _, ⟨⟨booking, mem, rfl⟩, owner⟩, rfl⟩
    exact ⟨booking, mem, owner⟩

theorem showsFeatures_of_emitFilled {product : Element} (nowhere : before.locations = [])
    (none : before.components = []) (given : c.emitFilled.Gives before product after) :
    product.ShowsFeatures c.shown := by
  obtain ⟨_, -, isProduct, ledger, -⟩ := gives_emitFilled nowhere given
  rw [none, List.nil_append] at ledger
  refine ⟨_, ⟨isProduct.has.name_ne, isProduct.has.perm.trans Project.perm_entries⟩, ?_⟩
  rw [shown_eq ledger, List.map_map]
  rfl

/-- Once a product is filled, it depends on its merge modules alone whether it can refer to them. -/
theorem isOk_wireMergeModules_of_emitFilled {product : Element} (nowhere : before.locations = [])
    (none : before.components = []) (fresh : before.mergeModules = [])
    (given : c.emitFilled.Gives before product after) :
    (c.project.wireMergeModules after product).isOk = true ↔
      c.NeedsModules ((Dir.modulesIn c.project.dirs).map MergeModule.feature) := by
  obtain ⟨-, lines, -⟩ := shows_of_emitFilled nowhere given
  rw [fresh, List.nil_append] at lines
  have features : after.mergeModules.map Prod.snd =
      (Dir.modulesIn c.project.dirs).map MergeModule.feature := by
    rw [lines, List.map_map]
    rfl
  have declares : (∀ line ∈ after.mergeModules, c.project.Declares line.2) ↔
      ∀ feature ∈ (Dir.modulesIn c.project.dirs).map MergeModule.feature,
        c.project.Declares feature := by
    rw [← features, List.forall_mem_map]
  rw [(showsFeatures_of_emitFilled nowhere none given).isOk_wireMergeModules, features, declares]
  exact ⟨fun holds => ⟨holds.1, holds.2⟩, fun needs => ⟨needs.declared, needs.found⟩⟩

/-! ## The whole document -/

theorem exists_emitProduct (nowhere : before.locations = []) (none : before.components = [])
    (fresh : before.mergeModules = []) :
    (∃ product after, c.emitProduct.Gives before product after) ↔
      c.Needs ∧ c.NeedsModules ((Dir.modulesIn c.project.dirs).map MergeModule.feature) := by
  simp only [gives_emitProduct_iff]
  constructor
  · rintro ⟨_, after, filled, wired, filledSteps, wiring, -⟩
    refine ⟨((exists_emitFilled nowhere).mp ⟨_, _, filledSteps⟩).1, ?_⟩
    apply (isOk_wireMergeModules_of_emitFilled nowhere none fresh filledSteps).mp
    rw [wiring]
    rfl
  · rintro ⟨needs, modules⟩
    have declared : c.project.DeclaresModules (Dir.modulesIn c.project.dirs) :=
      fun module mem => modules.declared _ (List.mem_map_of_mem mem)
    obtain ⟨filled, after, filledSteps⟩ := (exists_emitFilled nowhere).mpr ⟨needs, declared⟩
    have succeeds :=
      (isOk_wireMergeModules_of_emitFilled nowhere none fresh filledSteps).mpr modules
    cases wiring : c.project.wireMergeModules after filled with
    | error fault =>
      rw [wiring] at succeeds
      cases succeeds
    | ok wired => exact ⟨_, after, filled, wired, filledSteps, wiring, rfl⟩

theorem exists_emitDocument (nowhere : before.locations = []) (none : before.components = [])
    (fresh : before.mergeModules = []) :
    (∃ document after, c.emitDocument.Gives before document after) ↔
      c.Needs ∧ c.NeedsModules ((Dir.modulesIn c.project.dirs).map MergeModule.feature) := by
  rw [← exists_emitProduct nowhere none fresh]
  simp only [emitDocument, gives_bind, gives_get, gives_pure]
  constructor
  · rintro ⟨_, _, product, between, steps, -⟩
    exact ⟨product, between, steps⟩
  · rintro ⟨product, between, steps⟩
    exact ⟨_, _, product, between, steps, _, _, ⟨rfl, rfl⟩, rfl, rfl⟩

end Compilation

/-! ## Compiling a project -/

namespace Project

theorem features_modulesIn_prepare (project : Project) (options : Options) :
    (Dir.modulesIn (project.prepare options).project.dirs).map MergeModule.feature =
      (Dir.modulesIn project.dirs).map MergeModule.feature := by
  have same := congrArg (List.map MergeModule.feature) (project.modulesIn_prepare options)
  rwa [List.map_map, List.map_map] at same

/-- A project compiles if and only if its language is known and its compilation has what it needs.
-/
theorem isOk_compile {project : Project} {options : Options} :
    (project.compile options).isOk = true ↔
      ∃ c, Compilation.ofProject options (project.prepare options).project = .ok c ∧ c.Needs ∧
        c.NeedsModules ((Dir.modulesIn project.dirs).map MergeModule.feature) := by
  have criterion : ∀ {c : Compilation},
      Compilation.ofProject options (project.prepare options).project = .ok c →
      ((∃ document after,
          c.emitDocument.Gives { ids := (project.prepare options).ids } document after) ↔
        c.Needs ∧ c.NeedsModules ((Dir.modulesIn project.dirs).map MergeModule.feature)) := by
    intro c start
    rw [← project.features_modulesIn_prepare options,
      ← (Compilation.project_of_ofProject start).1]
    exact Compilation.exists_emitDocument rfl rfl rfl
  constructor
  · intro succeeds
    obtain ⟨output, compiled⟩ := exists_output succeeds
    obtain ⟨c, ledger, start, steps, -⟩ := made_of_compile compiled
    exact ⟨c, start, (criterion start).mp ⟨_, _, steps⟩⟩
  · rintro ⟨c, start, needs⟩
    obtain ⟨document, after, steps⟩ := (criterion start).mpr needs
    rw [Emit.Gives] at steps
    simp [compile, start, steps, bind, Except.bind, pure, Except.pure, Except.isOk, Except.toBool]

end Project

end Installer
