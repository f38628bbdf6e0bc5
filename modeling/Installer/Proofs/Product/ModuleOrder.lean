import Installer.Proofs.Directory.Thinned
import Installer.Proofs.Product.Success

/-! # The order of merge modules

Two projects that differ in the order of merge modules have the same compilation but for these.  So
whether one of them compiles when the other one does is decided by the order alone: a merge module
without a feature must come after those that bring the default feature along, unless there are
components for this feature.
-/

namespace Installer

open Emit

/-! ## Other orders -/

/-- The directories are the same, but the merge modules of each may be in another order. -/
inductive Dir.Reordered : List Dir → List Dir → Prop where
  | nil : Reordered [] []
  | cons {body : DirBody} {modules : List MergeModule} {below below' rest rest' : List Dir}
      (own : body.mergeModules.Perm modules) (inside : Reordered below below')
      (others : Reordered rest rest') :
      Reordered (⟨body, below⟩ :: rest) (⟨{ body with mergeModules := modules }, below'⟩ :: rest')

namespace Dir.Reordered

variable {dirs dirs' : List Dir}

theorem withoutModules_eq (reordered : Reordered dirs dirs') :
    withoutModules dirs' = withoutModules dirs := by
  simp only [withoutModules]
  induction reordered with
  | nil => rfl
  | cons own inside others inside_ih others_ih =>
    rw [mapBodies, mapBodies, mapBody, mapBody, inside_ih, others_ih]
    rfl

theorem perm_modulesIn (reordered : Reordered dirs dirs') :
    (modulesIn dirs).Perm (modulesIn dirs') := by
  induction reordered with
  | nil => exact .refl _
  | cons own inside others inside_ih others_ih =>
    rw [modulesIn_cons, modulesIn_singleton, modulesIn_cons ⟨_, _⟩, modulesIn_singleton]
    exact (own.append inside_ih).append others_ih

end Dir.Reordered

/-! ## Compilations without merge modules -/

namespace Compilation

variable {c : Compilation}

theorem bookings_withoutModules (c : Compilation) : c.withoutModules.bookings = c.bookings :=
  congrArg (· ++ c.project.standaloneBookings) c.treeBookings_withoutModules

theorem needs_withoutModules : c.withoutModules.Needs ↔ c.Needs := by
  have booked : c.withoutModules.project.DeclaresAll c.withoutModules.bookings ↔
      c.project.DeclaresAll c.bookings := by
    rw [bookings_withoutModules]
    rfl
  constructor
  · exact fun needs => ⟨booked.mp needs.booked, needs.named, needs.placed, needs.licensed⟩
  · exact fun needs => ⟨booked.mpr needs.booked, needs.named, needs.placed, needs.licensed⟩

theorem shown_withoutModules (c : Compilation) : c.withoutModules.shown = c.shown := by
  rw [shown, bookings_withoutModules]
  rfl

theorem ofProject_withoutModules (options : Options) (project : Project) :
    ofProject options (project.withoutModules.prepare options).project =
      (ofProject options (project.prepare options).project).map withoutModules := by
  rw [project.prepare_withoutModules, Project.withoutModules, ofProject_withDirs]
  cases start : ofProject options (project.prepare options).project with
  | error fault => rfl
  | ok c =>
    rw [← (project_of_ofProject start).1]
    rfl

end Compilation

/-! ## Projects in another order -/

namespace Project

variable {project : Project} {dirs : List Dir} {options : Options} {c : Compilation}

/-- The preparation does not touch what merge modules need of a project. -/
theorem needsModules_iff
    (start : Compilation.ofProject options (project.prepare options).project = .ok c)
    (features : List (Option String)) :
    c.NeedsModules features ↔ (∀ feature ∈ features, project.Declares feature) ∧
      project.FindsDefault c.shown features := by
  obtain ⟨dirs, actions, same, -⟩ := project.exists_prepare options
  have prepared := (Compilation.project_of_ofProject start).1.trans same
  constructor
  · rintro ⟨declared, found⟩
    rw [prepared] at declared found
    exact ⟨declared, found⟩
  · rintro ⟨declared, found⟩
    refine ⟨?_, ?_⟩ <;> rw [prepared]
    · exact declared
    · exact found

theorem exists_ofProject_reordered (reordered : Dir.Reordered project.dirs dirs)
    (start : Compilation.ofProject options (project.prepare options).project = .ok c) :
    ∃ c', Compilation.ofProject options ((project.withDirs dirs).prepare options).project = .ok c' ∧
      c'.withoutModules = c.withoutModules := by
  have same : (project.withDirs dirs).withoutModules = project.withoutModules :=
    congrArg project.withDirs reordered.withoutModules_eq
  have first := Compilation.ofProject_withoutModules options project
  have second := Compilation.ofProject_withoutModules options (project.withDirs dirs)
  rw [same, first, start] at second
  cases start' :
      Compilation.ofProject options ((project.withDirs dirs).prepare options).project with
  | error fault =>
    rw [start'] at second
    cases second
  | ok c' =>
    rw [start'] at second
    exact ⟨c', rfl, (Except.ok.inj second).symm⟩

theorem isOk_compile_withDirs_iff (reordered : Dir.Reordered project.dirs dirs)
    (start : Compilation.ofProject options (project.prepare options).project = .ok c)
    (succeeds : (project.compile options).isOk = true) :
    ((project.withDirs dirs).compile options).isOk = true ↔
      project.FindsDefault c.shown ((Dir.modulesIn dirs).map MergeModule.feature) := by
  obtain ⟨c₁, start₁, needs, modules⟩ := isOk_compile.mp succeeds
  obtain rfl : c = c₁ := Except.ok.inj (start.symm.trans start₁)
  obtain ⟨c', start', same⟩ := exists_ofProject_reordered reordered start
  have needs' : c'.Needs := by
    rw [← Compilation.needs_withoutModules, same, Compilation.needs_withoutModules]
    exact needs
  have shown' : c'.shown = c.shown := by
    rw [← c'.shown_withoutModules, same, c.shown_withoutModules]
  -- the features that modules name are the same in another order
  have declared : ∀ feature ∈ (Dir.modulesIn dirs).map MergeModule.feature,
      (project.withDirs dirs).Declares feature := fun feature mem =>
    ((needsModules_iff start _).mp modules).1 feature
      ((reordered.perm_modulesIn.map _).mem_iff.mpr mem)
  have criterion := needsModules_iff start' ((Dir.modulesIn dirs).map MergeModule.feature)
  rw [shown'] at criterion
  constructor
  · intro succeeds'
    obtain ⟨c₂, start₂, -, modules'⟩ := isOk_compile.mp succeeds'
    obtain rfl : c' = c₂ := Except.ok.inj (start'.symm.trans start₂)
    exact (criterion.mp modules').2
  · intro found
    exact isOk_compile.mpr ⟨c', start', needs', criterion.mpr ⟨declared, found⟩⟩

/-- Where components are there for the default feature, one order compiles if another one does. -/
theorem isOk_compile_withDirs (reordered : Dir.Reordered project.dirs dirs)
    (start : Compilation.ofProject options (project.prepare options).project = .ok c)
    (here : some project.defaultFeature.effectiveId ∈ c.shown)
    (succeeds : (project.compile options).isOk = true) :
    ((project.withDirs dirs).compile options).isOk = true :=
  (isOk_compile_withDirs_iff reordered start succeeds).mpr (.of_mem here _)

/-- Where one order compiles, every merge module that names no feature finds the default feature in
its turn, and another order compiles if and only if it does so there, too. -/
theorem isOk_compile_reordered_iff {output : Output} (reordered : Dir.Reordered project.dirs dirs)
    (compiled : project.compile options = .ok output) :
    ∃ c, Compilation.ofProject options (project.prepare options).project = .ok c ∧
      project.FindsDefault c.shown ((Dir.modulesIn project.dirs).map MergeModule.feature) ∧
      (((project.withDirs dirs).compile options).isOk = true ↔
        project.FindsDefault c.shown ((Dir.modulesIn dirs).map MergeModule.feature)) := by
  have succeeds : (project.compile options).isOk = true := by
    rw [compiled]
    rfl
  obtain ⟨c, start, -, modules⟩ := isOk_compile.mp succeeds
  exact ⟨c, start, ((needsModules_iff start _).mp modules).2,
    isOk_compile_withDirs_iff reordered start succeeds⟩

/-- A project whose default feature has no components, with a merge module that names it and one
that names no feature. -/
def mixed : Project where
  name := "App"
  features := [{ name := "Core" }]
  dirs := [⟨{ name := "%ProgramFiles%\\App", feature := some "Core", mergeModules :=
    [{ sourceFile := "a.msm", feature := some "Complete" }, { sourceFile := "b.msm" }] }, []⟩]

/-- The directories with the merge modules the other way round. -/
def mixedDirs : List Dir :=
  [⟨{ name := "%ProgramFiles%\\App", feature := some "Core", mergeModules :=
    [{ sourceFile := "b.msm" }, { sourceFile := "a.msm", feature := some "Complete" }] }, []⟩]

theorem reordered_mixed : Dir.Reordered mixed.dirs mixedDirs :=
  .cons (List.Perm.swap ..) .nil .nil

theorem isOk_compile_reordered_mixed :
    ∃ c, Compilation.ofProject {} (mixed.prepare {}).project = .ok c ∧
      mixed.FindsDefault c.shown [some "Complete", none] ∧
      (((mixed.withDirs mixedDirs).compile {}).isOk = true ↔
        mixed.FindsDefault c.shown [none, some "Complete"]) := by
  obtain ⟨output, compiled⟩ := exists_output
    (by decide +kernel : (mixed.compile {}).isOk = true)
  exact isOk_compile_reordered_iff reordered_mixed compiled

/-- One order compiles and the other one does not. -/
theorem not_isOk_compile_mixedDirs : Dir.Reordered mixed.dirs mixedDirs ∧
    (mixed.compile {}).isOk = true ∧ ((mixed.withDirs mixedDirs).compile {}).isOk = false :=
  ⟨reordered_mixed, by decide +kernel, by decide +kernel⟩

end Project

end Installer
